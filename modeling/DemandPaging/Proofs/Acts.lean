import DemandPaging.Residency
import DemandPaging.Proofs.View
import Mathlib.Logic.Relation

namespace DemandPaging

open Function (update)

def Backing.image (b : Backing) (F : File) : Contents :=
  Vector.ofFn fun i => if i.val < b.expected then (F.bytes[b.offset + i.val]?).getD 0 else 0

def Backing.save (b : Backing) (page : Contents) (F : File) : Nat × File :=
  F.write b.offset (Buffer.slice page 0 b.expected)

/-- What a step does to the pages, as far as their users can tell. -/
inductive Act
  | quiet
  | loaded (r : PageRef)
  | added (r : PageRef) (p : Page)
  | removed (r : PageRef) (saved : Bool)
  | stored (r : PageRef) (offset : Nat) (data : Array UInt8)
  | booked (s : SpaceId) (b : Book)
  | created (s : SpaceId)
  | dropped (s : SpaceId)
  | put (id : FileId) (g : File → File)

def Act.Quiet (a : Act) : Prop := a = .quiet

theorem Act.quiet_quiet : Act.quiet.Quiet := rfl

namespace View

def fileAt (v : View) (id : FileId) : File := (v.file id).getD .empty

def usedWithout (v : View) (p : Page) (k : Slot) : Bool := v.used k && p.slot? ≠ some k

theorem usedWithout_of_none {v : View} {p : Page} (hp : p.slot? = none) : v.usedWithout p = v.used := by
  funext k
  simp [usedWithout, hp]

theorem usedWithout_of_some {v : View} {p : Page} {k : Slot} (hp : p.slot? = some k) :
    v.usedWithout p = update v.used k false := by
  funext j
  by_cases hj : j = k
  · simp [usedWithout, hp, hj]
  · simp [usedWithout, hp, hj, Ne.symm hj]

def Fills (v : View) (purpose : Purpose) (c : Contents) : Option Filling → Prop
  | some (.segment b) => c = b.image (v.fileAt b.handle.file)
  | some (.snapshot copy) => c = copy
  | some (.custom run) => run (Buffer.zero _) = ⟨c, none⟩
  | none =>
      match purpose with
      | .anon | .stack => c = Buffer.zero _
      | .file b => c = b.image (v.fileAt b.handle.file)

def Brings (v : View) (p : Page) (c : Contents) : Prop :=
  match p.state with
  | .untouched filling purpose => v.Fills purpose c filling
  | .anon slot _ => ∃ k, slot = some k ∧ c = v.kept k
  | .file b => c = b.image (v.fileAt b.handle.file)

theorem Fills.congr {v w : View} {purpose : Purpose} {c : Contents} {filling : Option Filling}
    (h : v.Fills purpose c filling) (hf : w.file = v.file) : w.Fills purpose c filling := by
  have hat : w.fileAt = v.fileAt := by
    unfold fileAt
    rw [hf]
  rcases filling with _ | _ | _ | _
  · cases purpose <;> simpa only [Fills, hat] using h
  all_goals simpa only [Fills, hat] using h

theorem Brings.congr {v w : View} {p : Page} {c : Contents} (h : v.Brings p c) (hf : w.file = v.file)
    (hk : w.kept = v.kept) : w.Brings p c := by
  unfold Brings at h ⊢
  split at h
  · exact h.congr hf
  · rwa [hk]
  · rwa [fileAt, hf]

def Balks (v : View) (p : Page) : Prop :=
  ∃ b f F, p.state = .file b ∧ p.frame = some f ∧ F.limits = (v.fileAt b.handle.file).limits ∧
    F.bytes.size = (v.fileAt b.handle.file).bytes.size ∧ (b.save (v.bytes f) F).1 ≠ b.expected

/-- The steps that the machine is made of, as seen on its maps. -/
inductive Step (v : View) : Act → View → Prop
  | told (e : Event) : v.Step .quiet { v with log := v.log.push e }
  | called (id : FileId) :
      v.Step .quiet { v with
        file := update v.file id ((v.file id).map fun F => { F with calls := F.calls + 1 }) }
  | marked {r : PageRef} {x : Translation} (a d : Bool) (hx : v.entry r = some x)
      (hd : x.dirty = true → d = true ∨ ∃ p, v.page r = some p ∧ p.kind = .anon) :
      v.Step .quiet { v with
        entry := update v.entry r (some { x with accessed := a, dirty := d }) }
  | turned {l : List FrameId} (hl : v.clock.Perm l) : v.Step .quiet { v with clock := l }
  | spoilt {kept : Slot → Contents} (hk : ∀ k, v.used k = true → kept k = v.kept k) :
      v.Step .quiet { v with kept := kept }
  | taken {f : FrameId} (hf : v.status f = .free) :
      v.Step .quiet { v with status := update v.status f .pinned }
  | released {f : FrameId} (hf : v.status f = .pinned) :
      v.Step .quiet { v with status := update v.status f .free }
  | scribbled {f : FrameId} (c : Contents) (hf : v.status f = .pinned) :
      v.Step .quiet { v with bytes := update v.bytes f c }
  | orphaned {f : FrameId} {r : PageRef} {l : List FrameId} (ho : v.owner f = some r)
      (hr : v.book r.space = none) (hl : v.clock.Perm (f :: l)) :
      v.Step .quiet { v with
        owner := update v.owner f none
        status := update v.status f .pinned
        clock := l }
  | swapped {f : FrameId} {r : PageRef} {p : Page} {k : Slot} {stack : Bool} {l : List FrameId}
      (hp : v.page r = some p) (hs : p.state = .anon none stack) (hf : p.frame = some f)
      (hk : v.used k = false) (hl : v.clock.Perm (f :: l)) :
      v.Step .quiet { v with
        page := update v.page r (some ⟨p.writable, none, .anon (some k) stack⟩)
        entry := update v.entry r none
        owner := update v.owner f none
        status := update v.status f .pinned
        clock := l
        used := update v.used k true
        kept := update v.kept k (v.bytes f) }
  | discarded {f : FrameId} {r : PageRef} {p : Page} {b : Backing} {l : List FrameId}
      (hp : v.page r = some p) (hs : p.state = .file b) (hf : p.frame = some f)
      (hx : (v.entry r).any (·.dirty) = false) (hl : v.clock.Perm (f :: l)) :
      v.Step .quiet { v with
        page := update v.page r (some ⟨p.writable, none, .file b⟩)
        entry := update v.entry r none
        owner := update v.owner f none
        status := update v.status f .pinned
        clock := l }
  | flushed {f : FrameId} {r : PageRef} {p : Page} {b : Backing} {x : Translation}
      (hp : v.page r = some p) (hs : p.state = .file b) (hf : p.frame = some f)
      (hx : v.entry r = some x)
      (hc : (b.save (v.bytes f) (v.fileAt b.handle.file)).1 = b.expected) :
      v.Step .quiet { v with
        file := update v.file b.handle.file
          ((v.file b.handle.file).map fun F => (b.save (v.bytes f) F).2)
        entry := update v.entry r (some { x with dirty := false }) }
  | cut {f : FrameId} {r : PageRef} {p : Page} {b : Backing}
      (hp : v.page r = some p) (hs : p.state = .file b) (hf : p.frame = some f)
      (hx : (v.entry r).any (·.dirty) = true) :
      v.Step .quiet { v with
        file := update v.file b.handle.file
          ((v.file b.handle.file).map fun F => (b.save (v.bytes f) F).2) }
  | loaded {f : FrameId} {r : PageRef} {p : Page} {c : Contents} (hp : v.page r = some p)
      (hf : p.frame = none) (hpin : v.status f = .pinned) (hc : v.Brings p c) :
      v.Step (.loaded r) { v with
        page := update v.page r (some ⟨p.writable, some f, Vm.residentState p.state⟩)
        entry := update v.entry r (some (.fresh f p.writable))
        owner := update v.owner f (some r)
        status := update v.status f .held
        bytes := update v.bytes f c
        clock := v.clock ++ [f]
        used := v.usedWithout p }
  | added {r : PageRef} (w : Bool) (purpose : Purpose) (filling : Option Filling)
      (hp : v.page r = none) (hs : (v.book r.space).isSome) (ha : isPageAligned r.va = true)
      (hu : isKernel r.va = false) :
      v.Step (.added r (.lazy w purpose filling)) { v with
        page := update v.page r (some (.lazy w purpose filling))
        log := v.log.push (.pageAdded r.space purpose r.va) }
  | removed {r : PageRef} {p : Page} {saved : Bool} (hp : v.page r = some p)
      (hx : saved = true → p.kind = .file → (v.entry r).any (·.dirty) = false)
      (hl : saved = false → v.Balks p) :
      v.Step (.removed r saved) { v with
        page := update v.page r none
        entry := update v.entry r none
        owner := fun g => if p.frame = some g then none else v.owner g
        status := fun g => if p.frame = some g then .free else v.status g
        clock := v.clock.filter (p.frame ≠ some ·)
        used := v.usedWithout p }
  | stored {f : FrameId} {r : PageRef} {p : Page} (offset : Nat) (data : Array UInt8)
      (hp : v.page r = some p) (hf : p.frame = some f) (hx : (v.entry r).any (·.dirty) = true) :
      v.Step (.stored r offset data) { v with
        bytes := update v.bytes f ((v.bytes f).overlay offset data) }
  | booked {s : SpaceId} (b : Book) (hs : (v.book s).isSome) :
      v.Step (.booked s b) { v with book := update v.book s (some b) }
  | created :
      v.Step (.created ⟨v.nextSpace⟩) { v with
        book := update v.book ⟨v.nextSpace⟩ (some Space.empty.book)
        nextSpace := v.nextSpace + 1 }
  | dropped (s : SpaceId) :
      v.Step (.dropped s) { v with
        book := update v.book s none
        page := fun r => if r.space = s then none else v.page r
        entry := fun r => if r.space = s then none else v.entry r }
  | put (id : FileId) (g : File → File) :
      v.Step (.put id g) { v with file := update v.file id (some (g (v.fileAt id))) }

def Path (P : Act → Prop) : View → View → Prop :=
  Relation.ReflTransGen fun v w => ∃ a, P a ∧ v.Step a w

variable {v w u : View} {P Q : Act → Prop} {a : Act}

theorem Path.refl : Path P v v := Relation.ReflTransGen.refl

theorem Path.trans (h : Path P v w) (k : Path P w u) : Path P v u := Relation.ReflTransGen.trans h k

theorem Path.mono (h : Path P v w) (hpq : ∀ a, P a → Q a) : Path Q v w :=
  Relation.ReflTransGen.mono (fun _ _ ⟨a, ha, hs⟩ => ⟨a, hpq a ha, hs⟩) _ _ h

theorem Step.path (h : v.Step a w) (ha : P a) : Path P v w := Relation.ReflTransGen.single ⟨a, ha, h⟩

theorem Path.step (h : Path P v w) (ha : P a) (hs : w.Step a u) : Path P v u :=
  Relation.ReflTransGen.tail h ⟨a, ha, hs⟩

theorem Step.page_eq {r : PageRef} (h : v.Step a w) (ha : a.Quiet)
    (hr : ∀ p, v.page r = some p → p.frame = none) : w.page r = v.page r := by
  cases ha
  cases h with
  | swapped hp hs hf | discarded hp hs hf =>
      refine Function.update_of_ne (fun heq => ?_) _ _
      cases hf.symm.trans (hr _ (heq ▸ hp))
  | _ => rfl

/-- What every step of a class keeps, a path of that class keeps. -/
theorem Path.keeps {I : View → Prop} (h : Path P v w) (hv : I v)
    (hstep : ∀ {v w a}, P a → v.Step a w → I v → I w) : I w := by
  induction h with
  | refl => exact hv
  | tail _ hs ih =>
      obtain ⟨a, ha, hs⟩ := hs
      exact hstep ha hs ih

theorem Path.page_eq {r : PageRef} (h : Path Act.Quiet v w)
    (hr : ∀ p, v.page r = some p → p.frame = none) : w.page r = v.page r := by
  refine h.keeps (I := fun w => w.page r = v.page r) rfl fun ha hs hv => ?_
  rw [hs.page_eq ha (by rwa [hv]), hv]

theorem Step.live {s : SpaceId} (h : v.Step a w) (ha : a ≠ .dropped s) (hs : (v.book s).isSome) :
    (w.book s).isSome := by
  cases h with
  | booked | created =>
      simp only [Function.update_apply]
      split <;> simp [hs]
  | dropped t =>
      have ht : s ≠ t := fun ht => ha (by rw [ht])
      simpa [Function.update_of_ne ht] using hs
  | _ => exact hs

theorem Path.live {s : SpaceId} (h : Path P v w) (hp : ¬ P (.dropped s)) (hs : (v.book s).isSome) :
    (w.book s).isSome :=
  h.keeps (I := fun w => (w.book s).isSome) hs fun ha h hv => h.live (fun heq => hp (heq ▸ ha)) hv

theorem Step.book_eq (h : v.Step a w) (hb : ∀ s b, a ≠ .booked s b) (hc : ∀ s, a ≠ .created s)
    (hd : ∀ s, a ≠ .dropped s) : w.book = v.book := by
  cases h with
  | booked => exact absurd rfl (hb _ _)
  | created => exact absurd rfl (hc _)
  | dropped s => exact absurd rfl (hd s)
  | _ => rfl

theorem Path.book_eq (h : Path P v w) (hb : ∀ s b, ¬ P (.booked s b)) (hc : ∀ s, ¬ P (.created s))
    (hd : ∀ s, ¬ P (.dropped s)) : w.book = v.book := by
  refine h.keeps (I := fun w => w.book = v.book) rfl fun ha hs hv => ?_
  exact (hs.book_eq (fun s b heq => hb s b (heq ▸ ha)) (fun s heq => hc s (heq ▸ ha))
    fun s heq => hd s (heq ▸ ha)).trans hv

theorem Path.quiet_book (h : Path Act.Quiet v w) : w.book = v.book := h.book_eq nofun nofun nofun

theorem Step.absent {r : PageRef} (h : v.Step a w) (ha : ∀ p, a ≠ .added r p) (hr : v.page r = none) :
    w.page r = none := by
  cases h with
  | @added r' =>
      have hne : r ≠ r' := fun heq => ha _ (by rw [heq])
      simpa [Function.update_of_ne hne] using hr
  | swapped hp | discarded hp | loaded hp => grind [Function.update_apply]
  | removed | dropped => grind [Function.update_apply]
  | _ => exact hr

theorem Path.absent {r : PageRef} (h : Path P v w) (hp : ∀ p, ¬ P (.added r p)) (hr : v.page r = none) :
    w.page r = none :=
  h.keeps (I := fun w => w.page r = none) hr fun ha h hv => h.absent (fun p heq => hp p (heq ▸ ha)) hv

theorem Path.was_present {r : PageRef} (h : Path P v w) (hp : ∀ p, ¬ P (.added r p)) (hr : (w.page r).isSome) :
    (v.page r).isSome := by
  by_contra hnone
  rw [h.absent hp (Option.not_isSome_iff_eq_none.1 hnone)] at hr
  cases hr

theorem Step.present {r : PageRef} (h : v.Step a w) (ha : ∀ saved, a ≠ .removed r saved)
    (hd : a ≠ .dropped r.space) (hr : (v.page r).isSome) : (w.page r).isSome := by
  cases h with
  | @removed r' =>
      have hne : r ≠ r' := fun heq => ha _ (by rw [heq])
      simpa [Function.update_of_ne hne] using hr
  | swapped hp | discarded hp | loaded hp => grind [Function.update_apply]
  | added => grind [Function.update_apply]
  | dropped => grind
  | _ => exact hr

theorem Path.present {r : PageRef} (h : Path P v w) (hp : ∀ saved, ¬ P (.removed r saved))
    (hd : ¬ P (.dropped r.space)) (hr : (v.page r).isSome) : (w.page r).isSome :=
  h.keeps (I := fun w => (w.page r).isSome) hr fun ha h hv =>
    h.present (fun saved heq => hp saved (heq ▸ ha)) (fun heq => hd (heq ▸ ha)) hv

theorem Step.kept {r : PageRef} {p : Page} (h : v.Step a w) (hp : v.page r = some p)
    (hf : p.frame = none) (hl : a ≠ .loaded r) (hr : ∀ saved, a ≠ .removed r saved)
    (hd : a ≠ .dropped r.space) : w.page r = some p := by
  cases h with
  | swapped hp' hs hf' | discarded hp' hs hf' => grind [Function.update_apply]
  | @loaded _ r' =>
      have hne : r ≠ r' := fun heq => hl (by rw [heq])
      simpa [Function.update_of_ne hne] using hp
  | @removed r' =>
      have hne : r ≠ r' := fun heq => hr _ (by rw [heq])
      simpa [Function.update_of_ne hne] using hp
  | @added r' _ _ _ hp' =>
      have hne : r ≠ r' := fun heq => by
        rw [heq, hp'] at hp
        cases hp
      simpa [Function.update_of_ne hne] using hp
  | dropped s =>
      have hne : r.space ≠ s := fun heq => hd (by rw [heq])
      simpa [hne] using hp
  | _ => exact hp

/-- A page in no frame stays as it is until it is loaded, removed or dropped. -/
theorem Path.kept {r : PageRef} {p : Page} (h : Path P v w) (hp : v.page r = some p)
    (hf : p.frame = none) (hl : ¬ P (.loaded r)) (hr : ∀ saved, ¬ P (.removed r saved))
    (hd : ¬ P (.dropped r.space)) : w.page r = some p :=
  h.keeps (I := fun w => w.page r = some p) hp fun ha h hv =>
    h.kept hv hf (fun heq => hl (heq ▸ ha)) (fun saved heq => hr saved (heq ▸ ha)) fun heq => hd (heq ▸ ha)

theorem Step.untouched {r : PageRef} {p : Page} (h : v.Step a w) (hp : w.page r = some p)
    (hk : p.kind = .untouched) : v.page r = some p ∨ a = .added r p := by
  have hres (st : PageState) (wr : Bool) (f : Option FrameId) :
      Page.kind ⟨wr, f, Vm.residentState st⟩ ≠ .untouched := by
    rcases st with ⟨_, _ | _ | _⟩ | _ | _ <;> simp [Page.kind, Vm.residentState, Purpose.state]
  cases h with
  | swapped | discarded | loaded | added | removed | dropped =>
      grind [Function.update_apply, Page.kind]
  | _ => exact .inl hp

theorem Path.untouched {r : PageRef} {p : Page} (h : Path P v w) (hp : w.page r = some p)
    (hk : p.kind = .untouched) : v.page r = some p ∨ P (.added r p) := by
  induction h with
  | refl => exact .inl hp
  | tail _ hs ih =>
      obtain ⟨a, ha, hs⟩ := hs
      rcases hs.untouched hp hk with hp | rfl
      · exact ih hp
      · exact .inr ha

def Grows (v w : View) : Prop := ∃ l : Array Event, w.log = v.log ++ l

def Told (v w : View) (e : Event) : Prop := ∃ i, v.log.size ≤ i ∧ w.log[i]? = some e

theorem Grows.trans (h : v.Grows w) (k : w.Grows u) : v.Grows u := by
  obtain ⟨l, hl⟩ := h
  obtain ⟨l', hl'⟩ := k
  exact ⟨l ++ l', by rw [hl', hl, Array.append_assoc]⟩

theorem Step.grows (h : v.Step a w) : v.Grows w := by
  cases h with
  | told e => exact ⟨#[e], rfl⟩
  | added => exact ⟨#[_], rfl⟩
  | _ => exact ⟨#[], (Array.append_empty ..).symm⟩

theorem Path.grows (h : Path P v w) : v.Grows w :=
  h.keeps (I := v.Grows) ⟨#[], (Array.append_empty ..).symm⟩ fun _ h hv => hv.trans h.grows

theorem Told.before {e : Event} (h : w.Told u e) (hv : v.Grows w) : v.Told u e := by
  obtain ⟨i, hi, he⟩ := h
  obtain ⟨l, hl⟩ := hv
  refine ⟨i, ?_, he⟩
  rw [hl, Array.size_append] at hi
  omega

theorem Told.after {e : Event} (h : v.Told w e) (hw : w.Grows u) : v.Told u e := by
  obtain ⟨i, hi, he⟩ := h
  obtain ⟨l, hl⟩ := hw
  refine ⟨i, hi, ?_⟩
  rw [hl, Array.getElem?_append_left (Array.getElem?_eq_some_iff.1 he).1, he]

/-- Whatever page is added on the way is added lazy, and that is told. -/
theorem Path.told (h : Path P v w) : Path (fun a => P a ∧ ∀ r p, a = .added r p →
    ∃ wr purpose filling, p = .lazy wr purpose filling ∧ v.Told w (.pageAdded r.space purpose r.va)) v w := by
  induction h with
  | refl => exact .refl
  | @tail u w hpath hs ih =>
      obtain ⟨a, ha, hs⟩ := hs
      refine Relation.ReflTransGen.tail (Path.mono ih fun b hb => ⟨hb.1, fun r p heq => ?_⟩)
        ⟨a, ⟨ha, fun r p heq => ?_⟩, hs⟩
      · obtain ⟨wr, purpose, filling, hp, he⟩ := hb.2 r p heq
        exact ⟨wr, purpose, filling, hp, he.after hs.grows⟩
      · subst heq
        have hgrows : v.Grows u := Path.grows hpath
        cases hs with
        | added wr purpose filling =>
            refine ⟨wr, purpose, filling, rfl, Told.before ⟨u.log.size, Nat.le_refl _, ?_⟩ hgrows⟩
            exact Array.getElem?_push_size

theorem Told.mem {e : Event} (h : v.Told w e) : e ∈ w.log.toList.drop v.log.size := by
  obtain ⟨i, hi, he⟩ := h
  refine List.mem_iff_getElem?.2 ⟨i - v.log.size, ?_⟩
  rw [List.getElem?_drop, Nat.add_sub_cancel' hi, Array.getElem?_toList, he]

theorem told_push (v : View) (e : Event) : v.Told { v with log := v.log.push e } e :=
  ⟨v.log.size, Nat.le_refl _, Array.getElem?_push_size⟩

end View

end DemandPaging
