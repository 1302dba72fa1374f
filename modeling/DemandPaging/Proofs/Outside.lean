import DemandPaging.Proofs.Primitives

namespace DemandPaging

open Function (update)
open Step Machine

variable {m n : Machine} {s : SpaceId}

namespace Machine

def withNewSpace (m : Machine) : Machine :=
  { m with spaces := m.spaces.insert m.nextSpace .empty, nextSpace := m.nextSpace + 1 }

def withoutSpace (m : Machine) (s : SpaceId) : Machine := { m with spaces := m.spaces.erase s.number }

theorem space?_withNewSpace (m : Machine) (r : SpaceId) :
    m.withNewSpace.space? r = if r = ⟨m.nextSpace⟩ then some .empty else m.space? r := by
  unfold withNewSpace space?
  rw [Std.ExtTreeMap.getElem?_insert]
  cases r
  simp only [SpaceId.mk.injEq, Std.LawfulEqCmp.compare_eq_iff_eq]
  congr 1
  exact propext eq_comm

theorem space?_withoutSpace (m : Machine) (s r : SpaceId) :
    (m.withoutSpace s).space? r = if r = s then none else m.space? r := by
  unfold withoutSpace space?
  rw [Std.ExtTreeMap.getElem?_erase]
  cases s
  cases r
  simp only [SpaceId.mk.injEq, Std.LawfulEqCmp.compare_eq_iff_eq]
  congr 1
  exact propext eq_comm

theorem view_withNewSpace (h : m.Sound) : m.withNewSpace.view = { m.view with
    book := update m.view.book ⟨m.nextSpace⟩ (some Space.empty.book)
    nextSpace := m.nextSpace + 1 } := by
  have hnone : m.space? ⟨m.nextSpace⟩ = none := by
    rw [← Option.not_isSome_iff_eq_none, space?_isSome]
    exact fun hs => absurd (h.coherent.fresh hs) (Nat.lt_irrefl _)
  ext1
  case book =>
    funext r
    by_cases hr : r = ⟨m.nextSpace⟩ <;> simp [view, space?_withNewSpace, hr]
  case page | entry =>
    funext r
    by_cases hr : r.space = ⟨m.nextSpace⟩
    · simp [view, space?_withNewSpace, hr, hnone, Space.empty]
    · simp [view, space?_withNewSpace, hr]
  all_goals rfl

theorem view_withoutSpace (m : Machine) (s : SpaceId) : (m.withoutSpace s).view = { m.view with
    book := update m.view.book s none
    page := fun r => if r.space = s then none else m.view.page r
    entry := fun r => if r.space = s then none else m.view.entry r } := by
  ext1
  case book =>
    funext r
    by_cases hr : r = s <;> simp [view, space?_withoutSpace, hr]
  case page | entry =>
    funext r
    by_cases hr : r.space = s <;> simp [view, space?_withoutSpace, hr]
  all_goals rfl

end Machine

namespace Vm

theorem yields_newSpace (h : m.Sound) :
    Yields newSpace m (fun _ n => m.Leads (· = .created ⟨m.nextSpace⟩) n) fun _ _ => False := by
  have hv := view_withNewSpace h
  refine yields_modifyGet.2 ⟨⟨⟨h.consistent.frames, h.consistent.swap, fun {r sp} hr => ?_⟩, ?_⟩, fun g => ?_⟩
  · change m.withNewSpace.space? r = some sp at hr
    rw [space?_withNewSpace] at hr
    split at hr
    · cases hr
      exact PageTable.separate_empty
    · exact h.consistent.separate hr
  · change View.Path _ m.view m.withNewSpace.view
    rw [hv]
    exact View.Step.created.path rfl
  · change m.withNewSpace.view.status g = _ ↔ _
    rw [hv]

theorem yields_dropSpace (h : m.Consistent) (s : SpaceId) :
    Yields (dropSpace s) m
      (fun _ n => m.Leads (· = .dropped s) n ∧ n.view.book = update m.view.book s none)
      fun _ _ => False := by
  have hv := view_withoutSpace m s
  refine yields_modify.2 ⟨⟨⟨⟨h.frames, h.swap, fun {r sp} hr => ?_⟩, ?_⟩, fun g => ?_⟩, ?_⟩
  · change (m.withoutSpace s).space? r = some sp at hr
    rw [space?_withoutSpace] at hr
    split at hr
    · cases hr
    · exact h.separate hr
  · change View.Path _ m.view (m.withoutSpace s).view
    rw [hv]
    exact (View.Step.dropped s).path rfl
  · change (m.withoutSpace s).view.status g = _ ↔ _
    rw [hv]
  · exact congrArg View.book hv

theorem yields_newFile (h : m.Consistent) (bytes : Array UInt8) :
    Yields (newFile bytes) m
      (fun id n => m.view.file id = none ∧ m.Leads (· = .put id fun _ => { bytes := bytes }) n)
      fun _ _ => False := by
  have hv : view { m with files := m.files.push { bytes := bytes } } = { m.view with
      file := update m.view.file ⟨m.files.size⟩ (some { bytes := bytes }) } := by
    ext1
    case file =>
      funext ⟨i⟩
      by_cases hi : i = m.files.size
      · subst hi
        simp [view]
      · simp [view, Array.getElem?_push, hi]
    all_goals rfl
  refine yields_modifyGet.2 ⟨by simp [view], ⟨⟨⟨h.frames, h.swap, h.separate⟩, ?_⟩, fun g => by rw [hv]⟩⟩
  rw [hv]
  exact (View.Step.put _ fun _ => _).path rfl

theorem yields_replaceFile (h : m.Consistent) (id : FileId) (g : File → File) :
    Yields (putFile id (g (m.file id))) m (fun _ n => m.Leads (· = .put id g) n)
      fun _ _ => False := by
  have hv := view_withFile m id (g (m.file id))
  refine yields_putFile.2 ⟨⟨h.withFile _ _, ?_⟩, fun g => by rw [hv]⟩
  rw [hv]
  cases hf : m.view.file id with
  | none =>
      rw [Option.map_none, Function.update_eq_self_iff.2 hf.symm]
      exact .refl
  | some G => exact (View.Step.put id g).path rfl

theorem yields_setFaults (h : m.Consistent) (faults : Faults) :
    Yields (setFaults faults) m (fun _ n => n.Consistent ∧ n.view = m.view) fun _ _ => False :=
  yields_onSwap.2 (yields_modify.2
    ⟨h.withSwap ⟨h.swap.trim, h.swap.len_eq, h.swap.size_lt⟩, rfl⟩)

end Vm

theorem sound_boot {frames : Nat} {disk : Disk} (hf : frames < 2 ^ 32) (hd : disk.size < 2 ^ 32) :
    (boot frames disk).Sound where
  consistent := ⟨Frames.fits_ofSize hf, SwapArea.fits_ofDisk hd, fun {s sp} hs => by
    simp [space?, boot] at hs⟩
  coherent := {
    resident := by simp [view, space?, boot]
    owned := by simp [view, space?, boot]
    mapped := by simp [view, space?, boot]
    held_iff := fun f => by
      change FramePool.status _ f = .held ↔ (Frames.ownerAt _ f).isSome
      rw [boot, Frames.ofSize, FramePool.status_ofSize, ← Frames.ofSize, Frames.ownerAt_ofSize]
      split <;> simp
    mem_clock_iff := fun f => by
      change f ∈ [] ↔ (Frames.ownerAt (.ofSize frames) f).isSome
      simp [Frames.ownerAt_ofSize]
    nodup := List.nodup_nil
    placed := by simp [view, space?, boot]
    fresh := by simp [view, space?, boot]
    owner_lt := fun {f r} ho => by
      change Frames.ownerAt (.ofSize frames) f = some r at ho
      rw [Frames.ownerAt_ofSize] at ho
      cases ho
    apt := by simp [view, space?, boot]
    slot_used := by simp [view, space?, boot]
    slot_inj := by simp [view, space?, boot] }

end DemandPaging
