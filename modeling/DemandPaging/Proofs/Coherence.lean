import DemandPaging.Proofs.Acts

namespace DemandPaging.View

open Function (update)

variable {v w : View} {r r' : PageRef} {p p' : Page} {f g : FrameId} {k : Slot} {a : Act}

def Apt (p : Page) : Prop :=
  match p.state with
  | .untouched _ _ => p.frame = none
  | .anon slot _ => slot = none ↔ p.frame.isSome
  | .file _ => True

theorem slot?_resident (w : Bool) (f : Option FrameId) (st : PageState) :
    Page.slot? ⟨w, f, Vm.residentState st⟩ = none := by
  rcases st with ⟨_, _ | _ | _⟩ | _ | _ <;> rfl

theorem apt_resident (w : Bool) (f : FrameId) (st : PageState) :
    Apt ⟨w, some f, Vm.residentState st⟩ := by
  rcases st with ⟨_, _ | _ | _⟩ | _ | _ <;> simp [Apt, Vm.residentState, Purpose.state]

/-- The pages, the page tables, the owners of frames, the clock and the slots all tell one story. -/
structure Coherent (v : View) : Prop where
  resident : ∀ {r p f}, v.page r = some p → p.frame = some f → v.owner f = some r
  owned : ∀ {f r}, v.owner f = some r → (v.book r.space).isSome →
    ∃ p, v.page r = some p ∧ p.frame = some f
  mapped : ∀ r, (v.entry r).map (fun x => (x.frame, x.writable)) =
    (v.page r).bind fun p => p.frame.map (·, p.writable)
  held_iff : ∀ f, v.status f = .held ↔ (v.owner f).isSome
  mem_clock_iff : ∀ f, f ∈ v.clock ↔ (v.owner f).isSome
  nodup : v.clock.Nodup
  placed : ∀ {r p}, v.page r = some p →
    (v.book r.space).isSome ∧ isPageAligned r.va = true ∧ isKernel r.va = false
  fresh : ∀ {s}, (v.book s).isSome → s.number < v.nextSpace
  owner_lt : ∀ {f r}, v.owner f = some r → r.space.number < v.nextSpace
  apt : ∀ {r p}, v.page r = some p → Apt p
  slot_used : ∀ {r p k}, v.page r = some p → p.slot? = some k → v.used k = true
  slot_inj : ∀ {r r' p p' k}, v.page r = some p → v.page r' = some p' →
    p.slot? = some k → p'.slot? = some k → r = r'

theorem Coherent.frame_of_untouched {filling : Option Filling} {purpose : Purpose} (h : v.Coherent)
    (hp : v.page r = some p) (hst : p.state = .untouched filling purpose) : p.frame = none := by
  have hapt := h.apt hp
  rwa [Apt, hst] at hapt

theorem Coherent.entry_of_resident (h : v.Coherent) (hp : v.page r = some p) (hf : p.frame = some f) :
    ∃ a d, v.entry r = some ⟨f, p.writable, a, d⟩ := by
  have hmap := h.mapped r
  rw [hp, Option.bind_some, hf] at hmap
  obtain ⟨⟨g, w, a, d⟩, hx, hxp⟩ := Option.map_eq_some_iff.1 hmap
  cases hxp
  exact ⟨a, d, hx⟩

theorem Coherent.entry_of_out (h : v.Coherent) (hp : v.page r = some p) (hf : p.frame = none) : v.entry r = none := by
  have hmap := h.mapped r
  rwa [hp, Option.bind_some, hf, Option.map_none, Option.map_eq_none_iff] at hmap

theorem Coherent.page_of_entry {x : Translation} (h : v.Coherent) (hx : v.entry r = some x) :
    ∃ p, v.page r = some p ∧ p.frame = some x.frame ∧ p.writable = x.writable := by
  have hmap := h.mapped r
  rw [hx, Option.map_some] at hmap
  obtain ⟨p, hp, hpx⟩ := Option.bind_eq_some_iff.1 hmap.symm
  obtain ⟨f, hf, hfx⟩ := Option.map_eq_some_iff.1 hpx
  obtain ⟨rfl, hw⟩ := Prod.mk.inj hfx
  exact ⟨p, hp, hf, hw⟩

theorem coherent_of_same (h : v.Coherent) (hb : w.book = v.book) (hp : w.page = v.page)
    (he : ∀ r, (w.entry r).map (fun x => (x.frame, x.writable)) =
      (v.entry r).map fun x => (x.frame, x.writable))
    (ho : w.owner = v.owner) (hs : w.status = v.status ∨ ∀ f, w.status f = .held ↔ v.status f = .held)
    (hc : v.clock.Perm w.clock) (hu : w.used = v.used) (hn : w.nextSpace = v.nextSpace) :
    w.Coherent where
  resident := by simpa only [hp, ho] using @h.resident
  owned := by simpa only [hp, ho, hb] using @h.owned
  mapped r := by rw [he, hp, h.mapped]
  held_iff f := by
    rw [ho, ← h.held_iff]
    rcases hs with hs | hs
    · rw [hs]
    · exact hs f
  mem_clock_iff f := by rw [ho, ← h.mem_clock_iff, hc.mem_iff]
  nodup := hc.nodup_iff.1 h.nodup
  placed := by simpa only [hp, hb] using @h.placed
  fresh := by simpa only [hn, hb] using @h.fresh
  owner_lt := by simpa only [hn, ho] using @h.owner_lt
  apt := by simpa only [hp] using @h.apt
  slot_used := by simpa only [hp, hu] using @h.slot_used
  slot_inj := by simpa only [hp] using @h.slot_inj

/-- The frame of the page at `r` leaves the clock and is pinned, and the page keeps `p'`. -/
theorem Coherent.vacated (h : v.Coherent) {l : List FrameId} (hp : v.page r = some p)
    (hf : p.frame = some f) (hp' : p'.frame = none) (ha : Apt p') (hl : v.clock.Perm (f :: l))
    {used : Slot → Bool} {kept : Slot → Contents}
    (hused : ∀ k, v.used k = true ∨ p'.slot? = some k → used k = true)
    (hnew : ∀ k, p'.slot? = some k → v.used k = false) : Coherent { v with
        page := update v.page r (some p')
        entry := update v.entry r none
        owner := update v.owner f none
        status := update v.status f .pinned
        clock := l
        used := used
        kept := kept } where
  resident := by have := @h.resident; grind [Function.update_apply]
  owned := by have := @h.owned; have := @h.resident; grind [Function.update_apply]
  mapped := by have := h.mapped; grind [Function.update_apply]
  held_iff := by have := h.held_iff; grind [Function.update_apply]
  mem_clock_iff := by
    have := h.mem_clock_iff; have := hl.mem_iff (a := f); have := fun g => hl.mem_iff (a := g)
    have := (hl.nodup_iff).1 h.nodup; grind [Function.update_apply]
  nodup := by have := (hl.nodup_iff).1 h.nodup; grind
  placed := by have := @h.placed; grind [Function.update_apply]
  fresh := h.fresh
  owner_lt := by have := @h.owner_lt; grind [Function.update_apply]
  apt := by have := @h.apt; grind [Function.update_apply]
  slot_used := by have := @h.slot_used; grind [Function.update_apply]
  slot_inj := by have := @h.slot_inj; have := @h.slot_used; grind [Function.update_apply]

theorem Coherent.orphaned (h : v.Coherent) {l : List FrameId} (ho : v.owner f = some r)
    (hr : v.book r.space = none) (hl : v.clock.Perm (f :: l)) : Coherent { v with
        owner := update v.owner f none
        status := update v.status f .pinned
        clock := l } where
  resident := by have := @h.resident; have := @h.placed; grind [Function.update_apply]
  owned := by have := @h.owned; grind [Function.update_apply]
  mapped := h.mapped
  held_iff := by have := h.held_iff; grind [Function.update_apply]
  mem_clock_iff := by
    have := h.mem_clock_iff; have := fun g => hl.mem_iff (a := g)
    have := (hl.nodup_iff).1 h.nodup; grind [Function.update_apply]
  nodup := by have := (hl.nodup_iff).1 h.nodup; grind
  placed := h.placed
  fresh := h.fresh
  owner_lt := by have := @h.owner_lt; grind [Function.update_apply]
  apt := h.apt
  slot_used := h.slot_used
  slot_inj := h.slot_inj

theorem Coherent.loaded (h : v.Coherent) {c : Contents} (hp : v.page r = some p)
    (hf : p.frame = none) (hpin : v.status f = .pinned) : Coherent { v with
        page := update v.page r (some ⟨p.writable, some f, Vm.residentState p.state⟩)
        entry := update v.entry r (some (.fresh f p.writable))
        owner := update v.owner f (some r)
        status := update v.status f .held
        bytes := update v.bytes f c
        clock := v.clock ++ [f]
        used := v.usedWithout p } := by
  have hnone : v.owner f = none := by have := h.held_iff f; grind [Option.isSome_iff_ne_none]
  exact {
  resident := by have := @h.resident; grind [Function.update_apply]
  owned := by have := @h.owned; grind [Function.update_apply]
  mapped := by have := h.mapped; grind [Function.update_apply, Translation.fresh]
  held_iff := by have := h.held_iff; grind [Function.update_apply]
  mem_clock_iff := by have := h.mem_clock_iff; grind [Function.update_apply]
  nodup := by have := h.nodup; have := h.mem_clock_iff f; grind
  placed := by have := @h.placed; grind [Function.update_apply]
  fresh := h.fresh
  owner_lt := by have := @h.owner_lt; have := @h.placed; have := @h.fresh; grind [Function.update_apply]
  apt := by have := @h.apt; grind [Function.update_apply, apt_resident]
  slot_used := by
    have := @h.slot_used
    have := @h.slot_inj
    grind [Function.update_apply, usedWithout, slot?_resident]
  slot_inj := by
    have := @h.slot_inj; grind [Function.update_apply, slot?_resident] }

theorem Coherent.added (h : v.Coherent) (w : Bool) (purpose : Purpose) (filling : Option Filling)
    {log : Array Event}
    (hp : v.page r = none) (hs : (v.book r.space).isSome) (ha : isPageAligned r.va = true)
    (hu : isKernel r.va = false) : Coherent { v with
        page := update v.page r (some (.lazy w purpose filling))
        log := log } where
  resident := by have := @h.resident; grind [Function.update_apply, Page.lazy]
  owned := by have := @h.owned; grind [Function.update_apply]
  mapped := by have := h.mapped; grind [Function.update_apply, Page.lazy]
  held_iff := h.held_iff
  mem_clock_iff := h.mem_clock_iff
  nodup := h.nodup
  placed := by have := @h.placed; grind [Function.update_apply]
  fresh := h.fresh
  owner_lt := h.owner_lt
  apt := by have := @h.apt; grind [Function.update_apply, Apt, Page.lazy]
  slot_used := by have := @h.slot_used; grind [Function.update_apply, Page.slot?, Page.lazy]
  slot_inj := by have := @h.slot_inj; grind [Function.update_apply, Page.slot?, Page.lazy]

theorem Coherent.removed (h : v.Coherent) (hp : v.page r = some p) : Coherent { v with
        page := update v.page r none
        entry := update v.entry r none
        owner := fun g => if p.frame = some g then none else v.owner g
        status := fun g => if p.frame = some g then .free else v.status g
        clock := v.clock.filter (p.frame ≠ some ·)
        used := v.usedWithout p } where
  resident := by have := @h.resident; grind [Function.update_apply]
  owned := by have := @h.owned; have := @h.resident; grind [Function.update_apply]
  mapped := by have := h.mapped; grind [Function.update_apply]
  held_iff := by have := h.held_iff; grind [Function.update_apply]
  mem_clock_iff := by have := h.mem_clock_iff; grind [Function.update_apply]
  nodup := by have := h.nodup; grind
  placed := by have := @h.placed; grind [Function.update_apply]
  fresh := h.fresh
  owner_lt := by have := @h.owner_lt; grind [Function.update_apply]
  apt := by have := @h.apt; grind [Function.update_apply]
  slot_used := by
    have := @h.slot_used; have := @h.slot_inj; grind [Function.update_apply, usedWithout]
  slot_inj := by have := @h.slot_inj; grind [Function.update_apply]

theorem Coherent.booked (h : v.Coherent) {s : SpaceId} (b : Book) (hs : (v.book s).isSome) :
    Coherent { v with book := update v.book s (some b) } where
  resident := h.resident
  owned := by have := @h.owned; grind [Function.update_apply]
  mapped := h.mapped
  held_iff := h.held_iff
  mem_clock_iff := h.mem_clock_iff
  nodup := h.nodup
  placed := by have := @h.placed; grind [Function.update_apply]
  fresh := by have := @h.fresh; grind [Function.update_apply]
  owner_lt := h.owner_lt
  apt := h.apt
  slot_used := h.slot_used
  slot_inj := h.slot_inj

theorem Coherent.created (h : v.Coherent) : Coherent { v with
        book := update v.book ⟨v.nextSpace⟩ (some Space.empty.book)
        nextSpace := v.nextSpace + 1 } where
  resident := h.resident
  owned := by have := @h.owned; have := @h.owner_lt; grind [Function.update_apply]
  mapped := h.mapped
  held_iff := h.held_iff
  mem_clock_iff := h.mem_clock_iff
  nodup := h.nodup
  placed := by have := @h.placed; grind [Function.update_apply]
  fresh := by have := @h.fresh; grind [Function.update_apply]
  owner_lt := by have := @h.owner_lt; grind
  apt := h.apt
  slot_used := h.slot_used
  slot_inj := h.slot_inj

theorem Coherent.dropped (h : v.Coherent) (s : SpaceId) : Coherent { v with
        book := update v.book s none
        page := fun r => if r.space = s then none else v.page r
        entry := fun r => if r.space = s then none else v.entry r } where
  resident := by have := @h.resident; grind
  owned := by have := @h.owned; grind [Function.update_apply]
  mapped := by have := h.mapped; grind
  held_iff := h.held_iff
  mem_clock_iff := h.mem_clock_iff
  nodup := h.nodup
  placed := by have := @h.placed; grind [Function.update_apply]
  fresh := by have := @h.fresh; grind [Function.update_apply]
  owner_lt := h.owner_lt
  apt := by have := @h.apt; grind
  slot_used := by have := @h.slot_used; grind
  slot_inj := by have := @h.slot_inj; grind

/-- Every step keeps the story. -/
theorem Coherent.step (h : v.Coherent) (hs : v.Step a w) : w.Coherent := by
  cases hs with
  | told | called | spoilt | scribbled | put | stored | cut =>
      exact coherent_of_same h rfl rfl (fun _ => rfl) rfl (.inl rfl) (.refl _) rfl rfl
  | turned hl => exact coherent_of_same h rfl rfl (fun _ => rfl) rfl (.inl rfl) hl rfl rfl
  | marked a d hx =>
      refine coherent_of_same h rfl rfl (fun _ => ?_) rfl (.inl rfl) (.refl _) rfl rfl
      grind [Function.update_apply]
  | flushed hp hs hf hx =>
      refine coherent_of_same h rfl rfl (fun _ => ?_) rfl (.inl rfl) (.refl _) rfl rfl
      grind [Function.update_apply]
  | taken hf | released hf =>
      refine coherent_of_same h rfl rfl (fun _ => rfl) rfl (.inr fun _ => ?_) (.refl _) rfl rfl
      grind [Function.update_apply]
  | orphaned ho hr hl => exact h.orphaned ho hr hl
  | swapped hp hs hf hk hl =>
      refine Coherent.vacated h hp hf (rfl : Page.frame ⟨_, none, .anon (some _) _⟩ = none) ?_ hl ?_ ?_
      all_goals grind [Apt, Page.slot?, Function.update_apply]
  | discarded hp hs hf hx hl =>
      refine Coherent.vacated h hp hf (rfl : Page.frame ⟨_, none, .file _⟩ = none) trivial hl ?_ ?_
      all_goals grind [Page.slot?]
  | loaded hp hf hpin hc => exact h.loaded hp hf hpin
  | added w purpose filling hp hs ha hu => exact h.added w purpose filling hp hs ha hu
  | removed hp hx => exact h.removed hp
  | booked b hs => exact h.booked b hs
  | created => exact h.created
  | dropped s => exact h.dropped s

theorem Path.coherent {P : Act → Prop} (h : Path P v w) (hv : v.Coherent) : w.Coherent :=
  h.keeps hv fun _ hs hc => hc.step hs

theorem Step.absent_iff (h : v.Step a w) (hv : v.Coherent) (f : FrameId) :
    w.status f = .absent ↔ v.status f = .absent := by
  cases h with
  | taken | released | loaded => grind [Function.update_apply]
  | orphaned ho =>
      have := (hv.held_iff _).2 (by rw [ho]; rfl)
      grind [Function.update_apply]
  | swapped hp hs hf | discarded hp hs hf =>
      have := (hv.held_iff _).2 (by rw [hv.resident hp hf]; rfl)
      grind [Function.update_apply]
  | @removed r p saved hp =>
      dsimp only
      split
      · rename_i hf
        have := (hv.held_iff _).2 (by rw [hv.resident hp hf]; rfl)
        simp [this]
      · rfl
  | _ => rfl

theorem Path.absent_iff {P : Act → Prop} (h : Path P v w) (hv : v.Coherent) (f : FrameId) :
    w.status f = .absent ↔ v.status f = .absent := by
  refine (h.keeps (I := fun w => w.Coherent ∧ (w.status f = .absent ↔ v.status f = .absent))
    ⟨hv, Iff.rfl⟩ fun _ hs hw => ?_).2
  exact ⟨hw.1.step hs, (hs.absent_iff hw.1 f).trans hw.2⟩

end DemandPaging.View
