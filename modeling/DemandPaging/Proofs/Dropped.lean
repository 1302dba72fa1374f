import DemandPaging.Proofs.Destroyed
import DemandPaging.Proofs.Plenty
import DemandPaging.Proofs.Victims

namespace DemandPaging

open Function (update)
open Step Machine

variable {hw : Hardware} {l : List Turn} {m n u : Machine} {v w : View} {a : Act} {P : Act → Prop} {t : Turn} {c : Call}
  {s : SpaceId} {sp : Space} {k : Slot} {f : FrameId} {fs : List FrameId}

namespace View

def Strands (v : View) (k : Slot) : Prop := v.used k = true ∧ ∀ r p, v.page r = some p → p.slot? ≠ some k

/-- Nobody can give back a slot that no page is out on. -/
theorem Step.strands (h : v.Step a w) (hk : v.Strands k) : w.Strands k := by
  obtain ⟨hused, hnone⟩ := hk
  cases h with
  | @swapped f r p k' stack l hp hs hf hfree =>
      have hne : k ≠ k' := by
        rintro rfl
        rw [hused] at hfree
        cases hfree
      refine ⟨(Function.update_of_ne hne ..).trans hused, ?_⟩
      have hslot : Page.slot? ⟨p.writable, none, .anon (some k') stack⟩ = some k' := rfl
      grind [Function.update_apply]
  | @discarded f r p b =>
      have hslot : Page.slot? ⟨p.writable, none, .file b⟩ = none := rfl
      exact ⟨hused, by grind [Function.update_apply]⟩
  | @loaded f r p c hp =>
      have hslot := slot?_resident p.writable (some f) p.state
      exact ⟨by grind [usedWithout], by grind [Function.update_apply]⟩
  | @added r wr purpose filling =>
      have hslot : Page.slot? (.lazy wr purpose filling) = none := rfl
      exact ⟨hused, by grind [Function.update_apply]⟩
  | removed hp => exact ⟨by grind [usedWithout], by grind [Function.update_apply]⟩
  | dropped s => exact ⟨hused, by grind⟩
  | _ => exact ⟨hused, hnone⟩

/-- Only the slots of a space that is dropped are left to nobody. -/
theorem Path.strands_iff (h : Path P v w) (hP : ∀ s, ¬ P (.dropped s)) : w.Strands k ↔ v.Strands k := by
  constructor
  · rintro ⟨hused, hnone⟩
    by_contra hv
    obtain ⟨r, p, hp, hk⟩ := h.keeps (I := fun w => w.used k = true → ∃ r p, w.page r = some p ∧ p.slot? = some k)
      (fun hk => by simpa [Strands, hk] using hv)
      (fun ha hs hw => hs.recorded hw fun s heq => absurd (heq ▸ ha) (hP s)) hused
    exact hnone r p hp hk
  · exact fun hv => h.keeps (I := fun w => w.Strands k) hv fun _ hs => hs.strands

end View

namespace Turn

def abandoned (t : Turn) : List Slot :=
  match t.call with
  | .dropSpace s => ((t.before.space? s).map Space.slots).getD []
  | _ => []

end Turn

/-- The slots that were left behind by spaces that were dropped. -/
def abandoned (l : List Turn) : List Slot := l.flatMap Turn.abandoned

theorem after_dropSpace (m : Machine) (s : SpaceId) : ((Call.dropSpace s).turn m).after = m.withoutSpace s := rfl

theorem strands_dropSpace (h : m.Sound) (hs : m.space? s = some sp) :
    (m.withoutSpace s).view.Strands k ↔ k ∈ sp.slots ∨ m.view.Strands k := by
  rw [view_withoutSpace, mem_slots]
  simp only [← page_eq hs]
  constructor
  · rintro ⟨hused, hnone⟩
    by_cases hk : ∃ r p, m.view.page r = some p ∧ p.slot? = some k
    · obtain ⟨⟨s', va⟩, p, hp, hpk⟩ := hk
      obtain rfl : s' = s := by
        by_contra hne
        exact hnone ⟨s', va⟩ p ((if_neg hne).trans hp) hpk
      exact .inl ⟨va, p, hp, hpk⟩
    · exact .inr ⟨hused, fun r p hp hpk => hk ⟨r, p, hp, hpk⟩⟩
  · rintro (⟨va, p, hp, hpk⟩ | ⟨hused, hnone⟩)
    · refine ⟨h.coherent.slot_used hp hpk, fun r q hq hqk => ?_⟩
      obtain ⟨hr, hq⟩ := Option.ite_none_left_eq_some.1 hq
      exact hr (by rw [h.coherent.slot_inj hq hp hqk hpk])
    · exact ⟨hused, fun r q hq => hnone r q (Option.ite_none_left_eq_some.1 hq).2⟩

theorem strands_turn (h : m.Sound) (hc : ∀ s ∈ c.spaces, (m.space? s).isSome) :
    (c.turn m).after.view.Strands k ↔ k ∈ (c.turn m).abandoned ∨ m.view.Strands k := by
  by_cases hdrop : ∃ s, c = .dropSpace s
  · obtain ⟨s, rfl⟩ := hdrop
    obtain ⟨sp, hs⟩ := Option.isSome_iff_exists.1 (hc s (List.mem_singleton_self s))
    rw [after_dropSpace, strands_dropSpace h hs, Turn.abandoned, call_turn, before_turn]
    dsimp only
    rw [hs]
    rfl
  · have hnone : (c.turn m).abandoned = [] := by
      unfold Turn.abandoned
      rw [call_turn]
      split
      · exact absurd ⟨_, rfl⟩ hdrop
      · rfl
    rw [(path_turn h hc).strands_iff fun s ha => hdrop ⟨s, (call_turn ..).symm.trans ha⟩, hnone]
    simp

theorem Turn.nodup_abandoned (h : t.before.Sound) :
    t.abandoned.Nodup ∧ ∀ k ∈ t.abandoned, ¬ t.before.view.Strands k := by
  unfold Turn.abandoned
  split
  · rename_i s _
    cases hs : t.before.space? s with
    | none => exact ⟨List.nodup_nil, fun k hk => absurd hk List.not_mem_nil⟩
    | some sp =>
        refine ⟨h.nodup_slots hs, fun k hk hstrands => ?_⟩
        obtain ⟨va, p, hp, hpk⟩ := mem_slots.1 hk
        exact hstrands.2 ⟨s, va⟩ p ((page_eq hs va).trans hp) hpk
  · exact ⟨List.nodup_nil, fun k hk => absurd hk List.not_mem_nil⟩

/-- What spaces left behind when they were dropped is what no page is out on now. -/
theorem Runs.strands_iff (h : Runs hw l m) : (abandoned l).Nodup ∧ ∀ k, k ∈ abandoned l ↔ m.view.Strands k := by
  induction h with
  | boot =>
      refine ⟨List.nodup_nil, fun k => ⟨fun hk => absurd hk List.not_mem_nil, fun ⟨hk, _⟩ => ?_⟩⟩
      change SwapArea.holds (.ofDisk hw.disk) k = true at hk
      rw [SwapArea.holds_ofDisk] at hk
      cases hk
  | @turn l m h c hc ih =>
      obtain ⟨hnodup, hnew⟩ := Turn.nodup_abandoned (t := c.turn m) (by rw [before_turn]; exact h.sound)
      rw [before_turn] at hnew
      refine ⟨List.nodup_append'.2 ⟨hnodup, ih.1, fun k hk hl => hnew k hk ((ih.2 k).1 hl)⟩, fun k => ?_⟩
      rw [strands_turn h.sound hc, ← ih.2]
      exact List.mem_append

theorem Machine.Sound.used_iff (h : m.Sound) : m.view.used k = true ↔
    (∃ r p, m.view.page r = some p ∧ p.slot? = some k) ∨ m.view.Strands k := by
  constructor
  · intro hk
    by_cases hr : ∃ r p, m.view.page r = some p ∧ p.slot? = some k
    · exact .inl hr
    · exact .inr ⟨hk, fun r p hp hpk => hr ⟨r, p, hp, hpk⟩⟩
  · rintro (⟨r, p, hp, hpk⟩ | hk)
    · exact h.coherent.slot_used hp hpk
    · exact hk.1

/-- As many slots are in use as pages are out, and as were left behind. -/
theorem Runs.usedCount (h : Runs hw l m) : m.swap.usedCount = m.evicted.length + (abandoned l).length := by
  obtain ⟨hnodup, hmem⟩ := h.strands_iff
  have hm := h.sound
  have hapart : m.evictedSlots.Disjoint (abandoned l) := fun k hk hl => by
    obtain ⟨r, p, hp, hpk⟩ := hm.mem_evictedSlots.1 hk
    exact ((hmem k).1 hl).2 r p hp hpk
  rw [hm.usedCount_eq_length (List.nodup_append'.2 ⟨hm.nodup_evictedSlots, hnodup, hapart⟩) fun k => ?_,
    List.length_append, hm.length_evictedSlots]
  rw [List.mem_append, hm.mem_evictedSlots, hmem]
  exact hm.used_iff.symm

/-- A space was destroyed, and no call has named it since. -/
def Retired (s : SpaceId) : List Turn → Prop
  | [] => False
  | t :: l => t.call = .destroy s ∨ s ∉ t.call.spaces ∧ Retired s l

theorem Call.Registers.mem_spaces {v : View} {r : PageRef} {p : Page} (h : c.Registers v r p) : r.space ∈ c.spaces := by
  cases c with
  | register => exact List.mem_singleton.2 (congrArg PageRef.space h.1)
  | read | write | fault | handle | startStack | map | segment => exact List.mem_singleton.2 h.1
  | fork => exact List.mem_cons.2 (.inl h.1)
  | _ => exact h.elim

theorem Runs.page_of_retired (h : Runs hw l m) (hs : Retired s l) (va : Addr) : m.view.page ⟨s, va⟩ = none := by
  induction h with
  | boot => exact hs.elim
  | @turn l m h c hc ih =>
      rw [Retired, call_turn] at hs
      rcases hs with rfl | ⟨hout, hs⟩
      · exact (fair_destroy h.sound (Call.live hc (List.mem_singleton_self s))).2 va
      · refine (path_turn h.sound hc).absent (fun p ha => hout ?_) (ih hs)
        have hreg := ha.2
        rw [call_turn] at hreg
        exact hreg.mem_spaces

namespace Vm

def acquires : Nat → Vm (List FrameId)
  | 0 => pure []
  | n + 1 => do
      let f ← acquire
      let fs ← acquires n
      pure (f :: fs)

end Vm

structure Machine.Idles (m : Machine) (fs : List FrameId) (u : Machine) : Prop where
  sound : u.Sound
  bare : ∀ r, u.view.page r = none
  swap : u.swap = m.swap
  files : u.files = m.files
  size : u.frames.pool.size = m.frames.pool.size
  pinned : ∀ f, u.view.status f = .pinned ↔ f ∈ fs
  nodup : fs.Nodup

namespace Vm

/-- While there are frames that are not taken, one can be had, and nothing needs to be saved for it. -/
theorem yields_acquire_idle (h : m.Idles fs u) (hfs : fs.length < m.frames.pool.size) :
    Yields acquire u (fun f n => m.Idles (f :: fs) n) fun _ _ => False := by
  refine (yields_acquire h.sound).mono (fun f n hn => ?_) fun e n hn => ?_
  · have hgrants := (hn.grants h.sound).1
    have hacquired := Acquired.of_acquires hn h.sound
    have hrest : n.view.page = u.view.page ∧ n.swap = u.swap ∧ n.files = u.files := by
      by_cases hfree : u.frames.freeFrames = 0
      · obtain ⟨o, spared, -, -, hleaves, -⟩ := hacquired.reclaimed hfree
        cases hleaves with
        | orphan _ hpage hswap hfiles => exact ⟨hpage, hswap, hfiles⟩
        | swapped hp | written hp | clean hp => cases (h.bare o).symm.trans hp
      · obtain ⟨-, -, hspaces, -, hswap, hfiles⟩ := hacquired.free hfree
        refine ⟨?_, hswap, hfiles⟩
        unfold view space?
        rw [hspaces]
    refine ⟨hgrants.toGoes.sound h.sound, fun r => by rw [hrest.1, h.bare], hrest.2.1.trans h.swap,
      hrest.2.2.trans h.files, (hgrants.toGoes.pool_size h.sound).trans h.size, fun g => ?_, ?_⟩
    · rw [hgrants.pinned, h.pinned, List.mem_cons]
    · exact List.nodup_cons.2 ⟨(h.pinned f).not.1 hgrants.spare, h.nodup⟩
  · obtain ⟨err, rfl, -, htake, hrefuses⟩ := hn.error
    cases hrefuses with
    | unsaved _ _ hp => cases (h.bare _).symm.trans hp
    | bare _ hclock =>
        -- all frames are pinned then, so all of them were taken
        have htaken (f : FrameId) (hf : f.index < u.frames.pool.size) : f ∈ fs := by
          rw [← h.pinned]
          cases hstatus : u.view.status f with
          | pinned => rfl
          | free => exact absurd hstatus (FramePool.take_eq_none htake f)
          | absent => exact absurd (FramePool.status_eq_absent_iff.1 hstatus) (Nat.not_le.2 hf)
          | held =>
              have hmem : f ∈ u.frames.clock :=
                (h.sound.coherent.mem_clock_iff f).2 ((h.sound.coherent.held_iff f).1 hstatus)
              rw [hclock] at hmem
              cases hmem
        have hsub : (List.range m.frames.pool.size).map FrameId.mk ⊆ fs := by
          intro f hf
          obtain ⟨i, hi, rfl⟩ := List.mem_map.1 hf
          exact htaken _ (by rw [h.size]; exact List.mem_range.1 hi)
        have hle := ((List.nodup_range.map fun _ _ => FrameId.mk.inj).subperm hsub).length_le
        rw [List.length_map, List.length_range] at hle
        exact absurd hfs (Nat.not_lt.2 hle)

theorem yields_acquires (h : m.Idles fs u) {k : Nat} (hk : fs.length + k ≤ m.frames.pool.size) :
    Yields (acquires k) u (fun gs n => gs.length = k ∧ m.Idles (gs ++ fs) n) fun _ _ => False := by
  induction k generalizing u fs with
  | zero => exact yields_pure.2 ⟨rfl, h⟩
  | succ k ih =>
      refine (yields_acquire_idle h (by omega)).bind (fun f n hn => ?_) fun _ _ => False.elim
      refine (ih hn (by rw [List.length_cons]; omega)).bind (fun gs w hw => ?_) fun _ _ => False.elim
      have hperm : (gs ++ f :: fs).Perm (f :: gs ++ fs) := List.perm_middle
      exact yields_pure.2 ⟨congrArg (· + 1) hw.1, { hw.2 with
        pinned := fun g => (hw.2.pinned g).trans hperm.mem_iff
        nodup := hperm.nodup_iff.1 hw.2.nodup }⟩

end Vm

/-- What the spaces of a run leave behind. Each slot in use is one that a page is out on, or one that a space had when
it was dropped. Once all spaces are dropped or retired, all frames can be had, and nothing is transferred for them. -/
structure LeftBehind (l : List Turn) (m : Machine) : Prop where
  used_iff : ∀ k, m.swap.isUsed k = .ok true ↔
    (∃ r p, m.page? r = some p ∧ p.slot? = some k) ∨ k ∈ abandoned l
  apart : ∀ r p k, m.page? r = some p → p.slot? = some k → k ∉ abandoned l
  usedCount : m.swap.usedCount = m.evicted.length + (abandoned l).length
  retired : (∀ s, (m.space? s).isSome = true → Retired s l) → m.swap.usedCount = (abandoned l).length ∧
    ∃ fs n, (Vm.acquires m.frames.capacity).run m = .ok fs n ∧ fs.length = m.frames.capacity ∧ fs.Nodup ∧
      n.swap = m.swap ∧ n.files = m.files

/-- Frames of spaces that are dropped come back, their slots do not. -/
theorem Runs.left_behind (h : Runs hw l m) : LeftBehind l m := by
  obtain ⟨-, hmem⟩ := h.strands_iff
  refine ⟨fun k => ?_, fun r p k hp hpk hk => ((hmem k).1 hk).2 r p hp hpk, h.usedCount, fun hretired => ?_⟩
  · rw [h.sound.isUsed_iff, hmem]
    exact h.sound.used_iff
  · have hbare (r : PageRef) : m.view.page r = none := by
      cases hp : m.view.page r with
      | none => rfl
      | some p =>
          have hs := hretired r.space (by rw [space?_isSome]; exact (h.sound.coherent.placed hp).1)
          rw [← hp]
          exact h.page_of_retired hs r.va
    have hnone : m.evicted = [] := by
      refine List.eq_nil_iff_forall_not_mem.2 fun ⟨r, p⟩ hx => ?_
      cases (hbare r).symm.trans (mem_allPages.1 (List.mem_filter.1 hx).1)
    have hcapacity : m.frames.capacity = m.frames.pool.size := h.sound.consistent.frames.memory_size
    have hidles : m.Idles [] m :=
      ⟨h.sound, hbare, rfl, rfl, rfl, fun f => iff_of_false (h.not_pinned f) List.not_mem_nil, List.nodup_nil⟩
    obtain ⟨fs, n, hrun, hlength, hn⟩ := Yields.value
      (Vm.yields_acquires hidles (k := m.frames.capacity) (by simp [hcapacity]))
    refine ⟨by rw [h.usedCount, hnone]; exact Nat.zero_add _, fs, n, hrun, hlength, ?_, hn.swap, hn.files⟩
    simpa using hn.nodup

theorem mem_keys_of_space? (hs : (m.space? s).isSome = true) : s.number ∈ m.spaces.keys := by
  rwa [Std.ExtTreeMap.mem_keys, Std.ExtTreeMap.mem_iff_isSome_getElem?]

def dropAndDestroy : List Call :=
  [.destroy ⟨2⟩, .dropSpace ⟨1⟩, .claim ⟨1⟩ 0x2000, .register ⟨1⟩ 0x2000 true .anon none, .newSpace, .claim ⟨1⟩ 0x1000,
    .register ⟨1⟩ 0x1000 true .anon none, .newSpace]

/-- Both frames have pages of a space that was dropped, and both can be had. -/
theorem left_behind_two_frames :
    LeftBehind (Hardware.pair.turns dropAndDestroy) (Hardware.pair.machine dropAndDestroy) ∧
    (Hardware.pair.machine dropAndDestroy).frames.clock = [⟨0⟩, ⟨1⟩] ∧
    ∃ fs n, (Vm.acquires 2).run (Hardware.pair.machine dropAndDestroy) = .ok fs n ∧ fs.length = 2 := by
  have hrun : Runs .pair (Hardware.pair.turns dropAndDestroy) (Hardware.pair.machine dropAndDestroy) :=
    Hardware.runs .pair (by decide +kernel)
  have hkeys : (Hardware.pair.machine dropAndDestroy).spaces.keys = [2] := by decide +kernel
  have hcapacity : (Hardware.pair.machine dropAndDestroy).frames.capacity = 2 := by decide +kernel
  obtain ⟨-, fs, n, hacquires, hlength, -⟩ := hrun.left_behind.retired fun s hs => by
    have hmem := mem_keys_of_space? hs
    rw [hkeys, List.mem_singleton] at hmem
    obtain rfl : s = ⟨2⟩ := congrArg SpaceId.mk hmem
    exact .inl (call_turn ..)
  rw [hcapacity] at hacquires hlength
  exact ⟨hrun.left_behind, by decide +kernel, fs, n, hacquires, hlength⟩

/-- When the only space is dropped while one of its pages is out, the slot stays in use. -/
theorem Runs.keeps_slot {r : PageRef} {p : Page} (h : Runs hw l m) (hm : m.Ample)
    (hroom : m.allPages.length < m.room) (hsize : m.frames.pool.size = 1) (hkeys : m.spaces.keys = [s.number])
    (hp : m.view.page r = some p) (hk : p.kind = .anon) (hs : (m.view.book s).isSome) (va : Addr)
    (hq : (m.view.page ⟨s, pageBase va⟩).isSome) (hne : r ≠ ⟨s, pageBase va⟩) :
    ∃ t u : Turn, t.call = .claim s va ∧ u.call = .dropSpace s ∧ Runs hw (u :: t :: l) u.after ∧
      (∀ s, u.after.space? s = none) ∧ u.after.swap.usedCount ≠ 0 := by
  obtain ⟨q, hq⟩ := Option.isSome_iff_exists.1 hq
  have hused := hm.sound.slot_of_claim _ hsize hp hk hq (hm.granted hroom hq) hne
  have hc := Call.live_of_single (c := .claim s va) rfl hs
  have hbook : ((Call.claim s va).turn m).after.view.book = m.view.book :=
    (path_turn hm.sound hc).book_eq (fun s b ha => by simp [Turn.May, call_turn, Call.Books] at ha)
      (fun s ha => by simp [Turn.May, call_turn] at ha) fun s ha => by simp [Turn.May, call_turn] at ha
  have hclaimed := h.turn _ hc
  obtain ⟨t, ht⟩ : ∃ t, (Call.claim s va).turn m = t := ⟨_, rfl⟩
  rw [ht] at hused hbook hclaimed
  have hlast := Call.live_of_single (c := .dropSpace s) (m := t.after) rfl (by rw [hbook, hs])
  have hdropped := hclaimed.turn _ hlast
  refine ⟨t, (Call.dropSpace s).turn t.after, ht ▸ call_turn .., call_turn .., hdropped, fun s' => ?_, fun hnone => ?_⟩
  · rw [after_dropSpace, space?_withoutSpace]
    split
    · rfl
    · rename_i hs'
      rw [← Option.not_isSome_iff_eq_none, space?_isSome, hbook, ← space?_isSome]
      intro hsome
      have hmem := mem_keys_of_space? hsome
      rw [hkeys, List.mem_singleton] at hmem
      exact hs' (congrArg SpaceId.mk hmem)
  · exact absurd hnone (Nat.pos_iff_ne_zero.1 hused)

theorem Hardware.map_call_turns (hw : Hardware) (l : List Call) : (hw.turns l).map (·.call) = l := by
  induction l with
  | nil => rfl
  | cons c l ih => rw [turns, List.map_cons, call_turn, ih]

theorem ample_twoPages : (Hardware.small.machine twoPages).Ample := by
  have hrun : Runs .small (Hardware.small.turns twoPages) (Hardware.small.machine twoPages) :=
    Hardware.small.runs (by decide +kernel)
  have htidy : ∀ t ∈ Hardware.small.turns twoPages, t.Tidy := fun t ht s sp hc => by
    have hmem := Hardware.call_of_mem_turns ht
    simp [hc, twoPages, claimOne] at hmem
  have hdisk : Hardware.small.disk.Reliable := ⟨by decide +kernel, fun _ _ => rfl, fun _ _ => rfl⟩
  have hplain : ∀ x ∈ (Hardware.small.machine twoPages).allPages, x.2.isPlain = true := by decide +kernel
  refine ⟨hrun.sound, hrun.not_pinned, hrun.recorded htidy, hrun.housed htidy,
    fun r p hp => docile_of_isPlain (hplain (r, p) (mem_allPages.2 hp)), (hrun.swap hdisk fun t ht faults hc => ?_).2,
    by decide +kernel, by decide +kernel⟩
  have hmem := Hardware.call_of_mem_turns ht
  simp [hc, twoPages, claimOne] at hmem

/-- Of the two pages of a space one is in the only frame and one on a slot. The space is dropped, and the slot stays in
use. -/
theorem drop_leaves_slot : ∃ l m, l.map (·.call) = .dropSpace ⟨1⟩ :: .claim ⟨1⟩ 0x2000 :: twoPages ∧ Runs .small l m ∧
    (∀ s, m.space? s = none) ∧ m.swap.usedCount ≠ 0 := by
  have htwo : Runs .small (Hardware.small.turns twoPages) (Hardware.small.machine twoPages) :=
    Hardware.small.runs (by decide +kernel)
  have hpages : ((Hardware.small.machine twoPages).view.page ⟨⟨1⟩, 0x1000⟩).map Page.kind = some .anon ∧
      ((Hardware.small.machine twoPages).view.page ⟨⟨1⟩, pageBase 0x2000⟩).isSome = true ∧
      (Hardware.small.machine twoPages).allPages.length < (Hardware.small.machine twoPages).room ∧
      (Hardware.small.machine twoPages).frames.pool.size = 1 ∧
      (Hardware.small.machine twoPages).spaces.keys = [1] := by decide +kernel
  obtain ⟨hp, hq, hroom, hsize, hkeys⟩ := hpages
  obtain ⟨p, hp, hk⟩ := Option.map_eq_some_iff.1 hp
  have hlive := (ample_twoPages.sound.coherent.placed hp).1
  obtain ⟨t, u, ht, hu, hrun, hgone, hused⟩ :=
    htwo.keeps_slot ample_twoPages hroom hsize hkeys hp hk hlive 0x2000 hq (by decide)
  exact ⟨_, _, by rw [List.map_cons, List.map_cons, hu, ht, Hardware.map_call_turns], hrun, hgone, hused⟩

end DemandPaging
