import DemandPaging.Proofs.Keeping
import DemandPaging.Proofs.Unforked

namespace DemandPaging

open Machine Step

variable {hw : Hardware} {l : List Turn} {m n : Machine} {t : Turn} {s : SpaceId} {sp : Space}

theorem length_filter_not_mem {α : Type} [DecidableEq α] {l gone : List α} (hl : l.Nodup)
    (hgone : gone.Nodup) (hsub : ∀ a ∈ gone, a ∈ l) : (l.filter (· ∉ gone)).length + gone.length = l.length := by
  have hperm := List.subperm_append_diff_self_of_count_le
    (List.subperm_ext_iff.1 (List.subperm_of_subset hgone hsub))
  rw [List.Nodup.sdiff_eq_filter hl] at hperm
  simpa [Nat.add_comm] using hperm.length_eq

def Space.frames (sp : Space) : List FrameId := sp.pages.toList.filterMap (·.2.frame)

def Space.slots (sp : Space) : List Slot := sp.pages.toList.filterMap (·.2.slot?)

def Space.places (sp : Space) (s : SpaceId) : List PageRef := sp.pages.keys.map (⟨s, ·⟩)

theorem filterMap_places (hs : m.space? s = some sp) {α : Type} (g : Page → Option α) :
    (sp.places s).filterMap (fun r => (m.view.page r).bind g) = sp.pages.toList.filterMap (g ·.2) := by
  rw [Space.places, ← Std.ExtTreeMap.map_fst_toList_eq_keys, List.map_map, List.filterMap_map]
  refine List.filterMap_congr fun x hx => ?_
  simp only [Function.comp_apply, (mem_pages hs).1 hx, Option.bind_some]

theorem mem_frames {f : FrameId} :
    f ∈ sp.frames ↔ ∃ (va : Addr) (p : Page), sp.pages[va]? = some p ∧ p.frame = some f := by
  simp only [Space.frames, List.mem_filterMap, Prod.exists, Std.ExtTreeMap.mem_toList_iff_getElem?_eq_some]

theorem mem_slots {k : Slot} :
    k ∈ sp.slots ↔ ∃ (va : Addr) (p : Page), sp.pages[va]? = some p ∧ p.slot? = some k := by
  simp only [Space.slots, List.mem_filterMap, Prod.exists, Std.ExtTreeMap.mem_toList_iff_getElem?_eq_some]

/-- No two pages of a space have something that only one of them can have. -/
theorem nodup_filterMap_pages {α : Type} {g : Page → Option α}
    (h : ∀ (va va' : Addr) (p p' : Page) (a : α), sp.pages[va]? = some p → sp.pages[va']? = some p' →
      g p = some a → g p' = some a → va = va') : (sp.pages.toList.filterMap (g ·.2)).Nodup := by
  unfold List.Nodup
  rw [List.pairwise_filterMap]
  refine Std.ExtTreeMap.distinct_keys_toList.imp_of_mem fun {x y} hx hy hne a ha b hb heq => hne ?_
  have hva : x.1 = y.1 := h _ _ _ _ a (Std.ExtTreeMap.mem_toList_iff_getElem?_eq_some.1 hx)
    (Std.ExtTreeMap.mem_toList_iff_getElem?_eq_some.1 hy) ha (heq ▸ hb)
  simp [hva]

namespace Machine.Sound

variable (h : m.Sound) (hs : m.space? s = some sp)
include h hs

theorem nodup_frames : sp.frames.Nodup := by
  apply nodup_filterMap_pages
  intro va va' p p' f hp hp' hf hf'
  rw [← page_eq hs] at hp hp'
  have ho := h.coherent.resident hp hf
  rw [h.coherent.resident hp' hf'] at ho
  exact (congrArg PageRef.va (Option.some.inj ho)).symm

theorem nodup_slots : sp.slots.Nodup := by
  apply nodup_filterMap_pages
  intro va va' p p' k hp hp' hk hk'
  rw [← page_eq hs] at hp hp'
  exact congrArg PageRef.va (h.coherent.slot_inj hp hp' hk hk')

theorem mem_clock_of_mem_frames {f : FrameId} (hf : f ∈ sp.frames) : f ∈ m.frames.clock := by
  obtain ⟨va, p, hp, hpf⟩ := mem_frames.1 hf
  rw [← page_eq hs] at hp
  refine (h.coherent.mem_clock_iff f).2 ?_
  rw [h.coherent.resident hp hpf]
  rfl

theorem used_of_mem_slots {k : Slot} (hk : k ∈ sp.slots) : m.view.used k = true := by
  obtain ⟨va, p, hp, hpk⟩ := mem_slots.1 hk
  rw [← page_eq hs] at hp
  exact h.coherent.slot_used hp hpk

end Machine.Sound

theorem length_frames (sp : Space) : sp.frames.length = sp.pages.toList.countP (·.2.isResident) :=
  List.length_filterMap_eq_countP ..

theorem Machine.Sound.length_slots (h : m.Sound) (hs : m.space? s = some sp) :
    sp.slots.length = sp.pages.toList.countP (fun x => x.2.kind = .anon && !x.2.isResident) := by
  rw [Space.slots, List.length_filterMap_eq_countP]
  refine List.countP_congr fun x hx => ?_
  rw [Page.slot?_isSome_iff (h.coherent.apt ((mem_pages hs).1 hx))]
  simp

/-- The machine `n` that is left when space `s`, which was `sp`, was destroyed on `m`. -/
structure Destroyed (m : Machine) (s : SpaceId) (sp : Space) (n : Machine) : Prop where
  bare : Bare n s
  freeFrames : n.frames.freeFrames = m.frames.freeFrames + sp.pages.toList.countP (·.2.isResident)
  usedCount : n.swap.usedCount + sp.pages.toList.countP (fun x => x.2.kind = .anon && !x.2.isResident) =
    m.swap.usedCount
  file : n.view.file = (sp.places s).foldl m.view.writeBack m.view.file
  others : ∀ r, r ≠ s → n.space? r = m.space? r
  owner : ∀ f o, o.space ≠ s → (n.frames.owner f = .ok (some o) ↔ m.frames.owner f = .ok (some o))
  clock : n.frames.clock = m.frames.clock.filter (· ∉ sp.frames)
  bytes : n.view.bytes = m.view.bytes
  used : ∀ k, n.swap.isUsed k = .ok true ↔ m.swap.isUsed k = .ok true ∧ k ∉ sp.slots
  kept : n.view.kept = m.view.kept

theorem steady_others (m : Machine) (s : SpaceId) :
    Steady (· = s) fun n => ∀ r, r ≠ s → n.space? r = m.space? r where
  tell _ _ hn := hn
  space f hs hn r hr := by rw [space?_withSpace, if_neg (hs ▸ hr), hn r hr]
  frames _ hn := hn
  swap _ hn := hn
  file _ hn := hn
  handle hn := hn

theorem framesOf_places (hs : m.space? s = some sp) : m.view.framesOf (sp.places s) = sp.frames :=
  filterMap_places hs (·.frame)

theorem slotsOf_places (hs : m.space? s = some sp) : m.view.slotsOf (sp.places s) = sp.slots :=
  filterMap_places hs (·.slot?)

theorem destroy_turn (h : m.Sound) (hs : m.space? s = some sp) : ((Call.destroy s).turn m).succeeds = true ∧
    m.view.Loses (·.space = s) ((Call.destroy s).turn m).after.view ∧
    ((Call.destroy s).turn m).after.view.book s = some { sp.book with regions := ∅, stackBottom := stackTop } ∧
    m.view.Frees (sp.places s) ((Call.destroy s).turn m).after.view ∧
    ∀ r, r ≠ s → ((Call.destroy s).turn m).after.space? r = m.space? r := by
  refine Call.turn_cases (fun t => t.succeeds = true ∧ m.view.Loses (·.space = s) t.after.view ∧
    t.after.view.book s = some { sp.book with regions := ∅, stackBottom := stackTop } ∧
    m.view.Frees (sp.places s) t.after.view ∧ ∀ r, r ≠ s → t.after.space? r = m.space? r)
    ((((Vm.steady_framed (steady_others m s)).destroy rfl fun _ => ⟨fun _ hn => hn⟩).and (fun _ _ => rfl)
      (Vm.yields_destroy h (by rw [book_eq hs]; rfl))).bind ?_ fun _ _ hn => hn.1.elim)
  rintro _ n ⟨⟨-, hlost, hbook, hfreed⟩, hothers⟩
  rw [book_eq hs, Option.map_some] at hbook
  exact yields_pure.2 ⟨rfl, hlost, by rw [hbook, Function.update_self], hfreed sp hs, hothers⟩

theorem Machine.Sound.destroyed_of_lost (hm : m.Sound) (hn : n.Sound) (hs : m.space? s = some sp)
    (hlost : m.view.Loses (·.space = s) n.view)
    (hbook : n.view.book s = some { sp.book with regions := ∅, stackBottom := stackTop })
    (hfreed : m.view.Frees (sp.places s) n.view) (hothers : ∀ r, r ≠ s → n.space? r = m.space? r)
    (hframes : n.frames.freeFrames + n.frames.clock.length = m.frames.freeFrames + m.frames.clock.length) :
    Destroyed m s sp n := by
  have howner := hfreed.owner
  have hused := hfreed.used
  rw [framesOf_places hs] at howner
  rw [slotsOf_places hs] at hused
  have hclock : n.frames.clock = m.frames.clock.filter (· ∉ sp.frames) := by
    rw [← framesOf_places hs]
    exact hfreed.clock
  have hslots (k : Slot) : k ∈ m.usedSlots.filter (· ∉ sp.slots) ↔ n.view.used k = true := by
    simp [hm.mem_usedSlots, hused]
  refine ⟨hn.bare (fun va => hlost.absent _ rfl) hbook rfl rfl, ?_, ?_, hfreed.file, hothers, fun f o ho => ?_,
    hclock, hlost.bytes, fun k => ?_, hlost.kept⟩
  · have hlen : (m.frames.clock.filter (· ∉ sp.frames)).length + _ = m.frames.clock.length :=
      length_filter_not_mem hm.coherent.nodup (hm.nodup_frames hs) fun f => hm.mem_clock_of_mem_frames hs
    rw [length_frames] at hlen
    rw [hclock] at hframes
    omega
  · rw [hn.usedCount_eq_length (m.nodup_usedSlots.filter _) hslots,
      hm.usedCount_eq_length m.nodup_usedSlots fun _ => hm.mem_usedSlots, ← hm.length_slots hs]
    exact length_filter_not_mem m.nodup_usedSlots (hm.nodup_slots hs) fun k hk =>
      hm.mem_usedSlots.2 (hm.used_of_mem_slots hs hk)
  · rw [Frames.owner_eq_ok_iff, Frames.owner_eq_ok_iff]
    change n.view.owner f = _ ↔ m.view.owner f = _
    rw [howner]
    split
    · rename_i hf
      obtain ⟨va, p, hp, hpf⟩ := mem_frames.1 hf
      rw [← page_eq hs] at hp
      rw [hm.coherent.resident hp hpf]
      simp only [reduceCtorEq, Option.some.injEq, false_iff]
      rintro rfl
      exact ho rfl
    · rfl
  · rw [hn.isUsed_iff, hm.isUsed_iff, hused]
    simp

/-- Destroying a space gives back all that it has, writes back what is dirty in it, whether or not the
files take it, and touches no other space. -/
theorem Runs.destroyed (h : Runs hw (t :: l) m) (hcall : t.call = .destroy s) :
    t.succeeds = true ∧ ∃ sp, t.before.space? s = some sp ∧ Destroyed t.before s sp m := by
  obtain ⟨n, rfl, rfl, hn, hlive⟩ := h.last hcall
  rw [before_turn]
  obtain ⟨sp, hs⟩ := space?_of_book (hlive s (by simp [Call.spaces]))
  obtain ⟨hok, hlost, hbook, hfreed, hothers⟩ := destroy_turn hn.sound hs
  exact ⟨hok, sp, hs, hn.sound.destroyed_of_lost h.sound hs hlost hbook hfreed hothers
    (h.residency.total.trans hn.residency.total.symm)⟩

def destroyClaimed : Turn :=
  (Call.destroy ⟨1⟩).turn (Hardware.small.machine claimOne)

/-- The frame of the only page is free again. -/
theorem destroyed_claimed_page :
    (∃ sp, sp.frames = [⟨0⟩] ∧ Destroyed destroyClaimed.before ⟨1⟩ sp destroyClaimed.after) ∧
      destroyClaimed.after.frames.freeFrames = 1 := by
  have hrun : Runs .small (destroyClaimed :: Hardware.small.turns claimOne) destroyClaimed.after :=
    Hardware.runs (l := .destroy ⟨1⟩ :: claimOne) .small (by decide +kernel)
  have hcall : destroyClaimed.call = .destroy ⟨1⟩ := by rw [destroyClaimed, call_turn]
  obtain ⟨-, sp, hs, hdestroyed⟩ := hrun.destroyed hcall
  have hframes : (destroyClaimed.before.space? ⟨1⟩).map Space.frames = some [⟨0⟩] := by decide +kernel
  rw [hs, Option.map_some, Option.some.injEq] at hframes
  refine ⟨⟨sp, hframes, hdestroyed⟩, ?_⟩
  decide +kernel

end DemandPaging
