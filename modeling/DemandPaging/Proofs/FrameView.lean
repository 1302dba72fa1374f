import DemandPaging.Frames
import DemandPaging.Proofs.PoolStatus
import Mathlib.Algebra.Group.Nat.Defs
import Mathlib.Logic.Function.Basic

namespace DemandPaging.Frames

variable {t u : Frames} {f g : FrameId} {r : PageRef} {o : Owner}

def bound (t : Frames) (f : FrameId) : Option Owner := (t.owners[f.index]?).getD none

def ownerAt (t : Frames) (f : FrameId) : Option PageRef := (t.bound f).map (·.page)

theorem binding_eq_ok_iff : t.binding f = .ok (some o) ↔ t.bound f = some o := by
  unfold binding bound
  cases t.owners[f.index]? <;> simp

theorem ownerAt_congr (h : u.bound = t.bound) : u.ownerAt = t.ownerAt := by
  funext g
  rw [ownerAt, h, ownerAt]

theorem ownerAt_update {x : Option Owner} (h : u.bound = Function.update t.bound f x) :
    u.ownerAt = Function.update t.ownerAt f (x.map (·.page)) := by
  funext g
  rw [ownerAt, h, Function.update_apply, Function.update_apply, apply_ite (Option.map _)]
  rfl

theorem owner_eq_ok_iff : t.owner f = .ok (some r) ↔ t.ownerAt f = some r := by
  unfold owner binding ownerAt bound
  cases t.owners[f.index]? <;> simp [Except.map]

def bytesAt (t : Frames) (f : FrameId) : Contents := (t.memory[f.index]?).getD (Buffer.zero _)

def status (t : Frames) (f : FrameId) : FrameStatus := t.pool.status f

structure Sized (t : Frames) : Prop where
  counted : t.pool.Counted
  owners_size : t.owners.size = t.pool.size
  memory_size : t.memory.size = t.pool.size

/-- The owners are the pages they claim to be. -/
def Genuine (b : FrameId → Option Owner) : Prop := ∀ f o, b f = some o → o = o.page

theorem Genuine.update {b : FrameId → Option Owner} {x : Option Owner} (h : Genuine b)
    (hx : ∀ o, x = some o → o = o.page) : Genuine (Function.update b f x) := by
  intro g o ho
  by_cases hg : g = f
  · rw [hg, Function.update_self] at ho
    exact hx o ho
  · rw [Function.update_of_ne hg] at ho
    exact h g o ho

/-- What is more, a word can tell the frames apart, and no owner is other than it claims. -/
structure Fits (t : Frames) : Prop extends Sized t where
  size_lt : t.pool.size < 2 ^ 32
  genuine : Genuine t.bound

def withContents (t : Frames) (f : FrameId) (page : Contents) : Frames :=
  { t with memory := t.memory.setIfInBounds f.index page }

def withOwner (t : Frames) (f : FrameId) (o : Option Owner) : Frames :=
  { t with owners := t.owners.setIfInBounds f.index o }

def reinstated (t : Frames) (f : FrameId) (o : Owner) : Frames :=
  { t.withOwner f (some o) with clock := f :: t.clock }

theorem eq_of_setContents {page : Contents} (h : t.setContents f page = .ok u) : u = t.withContents f page := by
  unfold setContents at h
  split at h
  · exact (Except.ok.inj h).symm
  · cases h

theorem sized_ofSize (n : Nat) : (ofSize n).Sized :=
  ⟨FramePool.counted_ofSize n, by simp [ofSize, FramePool.ofSize, FramePool.size],
    by simp [ofSize, FramePool.ofSize, FramePool.size]⟩

theorem bound_ofSize (n : Nat) (f : FrameId) : (ofSize n).bound f = none := by
  by_cases h : f.index < n <;> simp [bound, ofSize, h]

theorem ownerAt_ofSize (n : Nat) (f : FrameId) : (ofSize n).ownerAt f = none := by
  rw [ownerAt, bound_ofSize, Option.map_none]

theorem fits_ofSize {n : Nat} (h : n < 2 ^ 32) : (ofSize n).Fits where
  toSized := sized_ofSize n
  size_lt := by simpa [ofSize, FramePool.ofSize, FramePool.size]
  genuine f o ho := by rw [bound_ofSize] at ho; cases ho

theorem ne_absent_of_pinned (hf : t.status f = .pinned) : t.status f ≠ .absent := by simp [hf]

namespace Sized

theorem lt_of_status (h : t.Sized) (hf : t.status f ≠ .absent) :
    f.index < t.owners.size ∧ f.index < t.memory.size := by
  have hlt := Nat.lt_of_not_le (mt FramePool.status_eq_absent_iff.2 hf)
  rw [h.owners_size, h.memory_size]
  exact ⟨hlt, hlt⟩

theorem binding (h : t.Sized) (hf : t.status f ≠ .absent) : t.binding f = .ok (t.bound f) := by
  simp [Frames.binding, bound, (h.lt_of_status hf).1]

theorem owner (h : t.Sized) (hf : t.status f ≠ .absent) : t.owner f = .ok (t.ownerAt f) := by
  rw [Frames.owner, h.binding hf]
  rfl

theorem contents (h : t.Sized) (hf : t.status f ≠ .absent) : t.contents f = .ok (t.bytesAt f) := by
  simp [Frames.contents, bytesAt, (h.lt_of_status hf).2]

theorem setContents_eq (h : t.Sized) (hf : t.status f ≠ .absent) (page : Contents) :
    t.setContents f page = .ok (t.withContents f page) := if_pos (h.lt_of_status hf).2

theorem setOwner_eq (h : t.Sized) (hf : t.status f ≠ .absent) (o : Option Owner) :
    t.setOwner f o = .ok (t.withOwner f o) := if_pos (h.lt_of_status hf).1

theorem withContents (h : t.Sized) (page : Contents) : (t.withContents f page).Sized :=
  ⟨h.counted, h.owners_size, by simpa [Frames.withContents] using h.memory_size⟩

theorem bytesAt_withContents (h : t.Sized) (hf : t.status f ≠ .absent) (page : Contents) :
    (t.withContents f page).bytesAt = Function.update t.bytesAt f page := by
  have hlt := (h.lt_of_status hf).2
  funext g
  by_cases hg : g = f
  · subst hg
    simp [bytesAt, Frames.withContents, hlt]
  · have hi : f.index ≠ g.index := fun hi => hg (by cases f; cases g; simp_all)
    simp [bytesAt, Frames.withContents, hi, hg]

theorem withOwner (h : t.Sized) (o : Option Owner) : (t.withOwner f o).Sized :=
  ⟨h.counted, by simpa [Frames.withOwner] using h.owners_size, h.memory_size⟩

theorem bound_withOwner (h : t.Sized) (hf : t.status f ≠ .absent) (o : Option Owner) :
    (t.withOwner f o).bound = Function.update t.bound f o := by
  have hlt := (h.lt_of_status hf).1
  funext g
  by_cases hg : g = f
  · subst hg
    simp [bound, Frames.withOwner, hlt]
  · have hi : f.index ≠ g.index := fun hi => hg (by cases f; cases g; simp_all)
    simp [bound, Frames.withOwner, hi, hg]

theorem reinstate_eq (h : t.Sized) (hf : t.status f ≠ .absent) (o : Owner) :
    t.reinstate f o = .ok (t.reinstated f o) := by
  rw [reinstate, h.setOwner_eq hf]
  rfl

theorem withPool (h : t.Sized) {p : FramePool} (hp : p.Counted) (hs : p.size = t.pool.size) :
    Sized { t with pool := p } :=
  ⟨hp, h.owners_size.trans hs.symm, h.memory_size.trans hs.symm⟩

theorem setPinned (h : t.Sized) (hf : t.status f = .pinned ∨ t.status f = .held) (b : Bool) :
    ∃ p : FramePool, (∀ owners clock memory, Frames.setPinned ⟨t.pool, owners, clock, memory⟩ f b =
        .ok ⟨p, owners, clock, memory⟩) ∧ p.Counted ∧ p.size = t.pool.size ∧
      p.status = Function.update t.status f (if b then .pinned else .held) := by
  obtain ⟨p, hp, hcount, hsize, hstatus⟩ := h.counted.setPinned hf b
  refine ⟨p, fun _ _ _ => by simp [Frames.setPinned, hp, bind, Except.bind], hcount, hsize, ?_⟩
  funext g
  rw [hstatus, Function.update_apply]
  rfl

theorem requirePinned (h : t.Sized) (hf : t.status f = .pinned) : t.requirePinned f = .ok () := by
  simp [Frames.requirePinned, h.counted.isPinned hf, bind, Except.bind]

theorem install (h : t.Sized) (hf : t.status f = .pinned) (o : Owner) :
    ∃ u, t.install f o = .ok u ∧ u.Sized ∧ u.pool.size = t.pool.size ∧
      u.bound = Function.update t.bound f (some o) ∧
      u.status = Function.update t.status f .held ∧ u.bytesAt = t.bytesAt ∧
      u.clock = t.clock ++ [f] := by
  have hpresent := ne_absent_of_pinned hf
  obtain ⟨p, hp, hcount, hsize, hstatus⟩ := h.setPinned (.inl hf) false
  have ho := h.withOwner (f := f) (some o)
  refine ⟨⟨p, (t.withOwner f (some o)).owners, t.clock ++ [f], t.memory⟩, ?_,
    ⟨hcount, ho.owners_size.trans hsize.symm, h.memory_size.trans hsize.symm⟩, hsize,
    h.bound_withOwner hpresent _, hstatus, rfl, rfl⟩
  simp [Frames.install, h.requirePinned hf, h.setOwner_eq hpresent, hp, bind, Except.bind, Frames.withOwner]

theorem pin (h : t.Sized) (hf : t.status f = .held) (ho : t.ownerAt f = some r) :
    ∃ u, t.pin f r = .ok (some u) ∧ u.Sized ∧ u.pool.size = t.pool.size ∧
      u.bound = Function.update t.bound f none ∧
      u.status = Function.update t.status f .pinned ∧ u.bytesAt = t.bytesAt ∧
      u.clock = t.clock.filter (· ≠ f) := by
  have hpresent : t.status f ≠ .absent := by simp [hf]
  obtain ⟨p, hp, hcount, hsize, hstatus⟩ := h.setPinned (.inr hf) true
  have hn := h.withOwner (f := f) none
  refine ⟨⟨p, (t.withOwner f none).owners, t.clock.filter (· ≠ f), t.memory⟩, ?_,
    ⟨hcount, hn.owners_size.trans hsize.symm, h.memory_size.trans hsize.symm⟩, hsize,
    h.bound_withOwner hpresent _, hstatus, rfl, rfl⟩
  simp [Frames.pin, h.owner hpresent, ho, h.setOwner_eq hpresent, hp, bind, Except.bind, Functor.map, Except.map,
    Frames.withOwner]

theorem release (h : t.Sized) (hf : t.status f = .pinned) :
    ∃ u, t.release f = .ok u ∧ u.Sized ∧ u.pool.size = t.pool.size ∧ u.bound = t.bound ∧
      u.status = Function.update t.status f .free ∧ u.bytesAt = t.bytesAt ∧ u.clock = t.clock := by
  obtain ⟨p, hp, hcount, hsize, hstatus⟩ := h.counted.putBack (.inl hf)
  refine ⟨{ t with pool := p }, ?_, h.withPool hcount hsize, hsize, rfl, ?_, rfl, rfl⟩
  · simp [Frames.release, h.requirePinned hf, hp, bind, Except.bind]
  · funext g
    rw [Function.update_apply]
    exact hstatus g

theorem take (h : t.Sized) {p : FramePool} (ht : t.pool.take = some (f, p)) :
    t.status f = .free ∧ Sized { t with pool := p } ∧ p.size = t.pool.size ∧
      p.status = Function.update t.status f .pinned := by
  obtain ⟨hfree, hcount, hsize, hstatus⟩ := h.counted.take ht
  refine ⟨hfree, h.withPool hcount hsize, hsize, ?_⟩
  funext g
  rw [Function.update_apply]
  exact hstatus g

/-- As many frames as there were can still be told apart. -/
theorem fits (h : u.Sized) (ht : t.Fits) (hs : u.pool.size = t.pool.size) (hg : Genuine u.bound) : u.Fits :=
  ⟨h, hs ▸ ht.size_lt, hg⟩

end Sized

namespace Fits

theorem bound_eq (h : t.Fits) (ho : t.ownerAt f = some r) : t.bound f = some ↑r := by
  obtain ⟨o, hb, rfl⟩ := Option.map_eq_some_iff.1 ho
  rw [hb, ← h.genuine f o hb]

theorem binding_eq (h : t.Fits) (ho : t.ownerAt f = some r) : t.binding f = .ok (some ↑r) :=
  binding_eq_ok_iff.2 (h.bound_eq ho)

theorem withContents (h : t.Fits) (page : Contents) : (t.withContents f page).Fits :=
  (h.toSized.withContents page).fits h rfl h.genuine

theorem withOwner (h : t.Fits) (hf : t.status f ≠ .absent) {x : Option Owner} (hx : ∀ o, x = some o → o = o.page) :
    (t.withOwner f x).Fits :=
  (h.toSized.withOwner x).fits h rfl (h.bound_withOwner hf x ▸ h.genuine.update hx)

theorem withClock (h : t.Fits) (l : List FrameId) : Fits { t with clock := l } :=
  ⟨⟨h.counted, h.owners_size, h.memory_size⟩, h.size_lt, h.genuine⟩

theorem reinstated (h : t.Fits) (hf : t.status f ≠ .absent) (r : PageRef) : (t.reinstated f r).Fits := by
  refine (h.withOwner hf fun o ho => ?_).withClock _
  cases ho
  rfl

theorem withPool (h : t.Fits) {p : FramePool} (hp : p.Counted) (hs : p.size = t.pool.size) :
    Fits { t with pool := p } :=
  (h.toSized.withPool hp hs).fits h hs h.genuine

theorem install (h : t.Fits) (hf : t.status f = .pinned) (r : PageRef) :
    ∃ u, t.install f r = .ok u ∧ u.Fits ∧ u.ownerAt = Function.update t.ownerAt f (some r) ∧
      u.status = Function.update t.status f .held ∧ u.bytesAt = t.bytesAt ∧
      u.clock = t.clock ++ [f] := by
  obtain ⟨u, hu, hsized, hsize, hbound, hrest⟩ := h.toSized.install hf r
  refine ⟨u, hu, hsized.fits h hsize (hbound ▸ h.genuine.update ?_), ownerAt_update hbound, hrest⟩
  intro o ho
  cases ho
  rfl

theorem pin (h : t.Fits) (hf : t.status f = .held) (ho : t.ownerAt f = some r) :
    ∃ u, t.pin f r = .ok (some u) ∧ u.Fits ∧ u.ownerAt = Function.update t.ownerAt f none ∧
      u.status = Function.update t.status f .pinned ∧ u.bytesAt = t.bytesAt ∧
      u.clock = t.clock.filter (· ≠ f) := by
  obtain ⟨u, hu, hsized, hsize, hbound, hrest⟩ := h.toSized.pin hf ho
  exact ⟨u, hu, hsized.fits h hsize (hbound ▸ h.genuine.update nofun), ownerAt_update hbound, hrest⟩

theorem release (h : t.Fits) (hf : t.status f = .pinned) :
    ∃ u, t.release f = .ok u ∧ u.Fits ∧ u.ownerAt = t.ownerAt ∧
      u.status = Function.update t.status f .free ∧ u.bytesAt = t.bytesAt ∧ u.clock = t.clock := by
  obtain ⟨u, hu, hsized, hsize, hbound, hrest⟩ := h.toSized.release hf
  exact ⟨u, hu, hsized.fits h hsize (hbound ▸ h.genuine), ownerAt_congr hbound, hrest⟩

theorem take (h : t.Fits) {p : FramePool} (ht : t.pool.take = some (f, p)) :
    t.status f = .free ∧ Fits { t with pool := p } ∧
      p.status = Function.update t.status f .pinned := by
  obtain ⟨hfree, hsized, hsize, hstatus⟩ := h.toSized.take ht
  exact ⟨hfree, hsized.fits h hsize h.genuine, hstatus⟩

end Fits

end DemandPaging.Frames
