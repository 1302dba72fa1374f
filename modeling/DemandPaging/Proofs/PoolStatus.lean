import DemandPaging.FramePool
import DemandPaging.Proofs.EntryBits

namespace DemandPaging

inductive FrameStatus
  | absent
  | free
  | pinned
  | held
deriving DecidableEq

namespace FrameFlags

def status (e : FrameFlags) : FrameStatus :=
  if e.allocated then if e.pinned then .pinned else .held else .free

theorem status_setPinned {e : FrameFlags} (h : e.allocated = true) (b : Bool) :
    (e.setPinned b).status = if b then .pinned else .held := by
  cases b <;> simp [status, h]

theorem allocated_of_status {e : FrameFlags} (h : e.status = .pinned ∨ e.status = .held) :
    e.allocated = true := by
  unfold status at h
  split at h
  · assumption
  · simp at h

theorem not_allocated_of_status {e : FrameFlags} (h : e.status = .free) : e.allocated = false := by
  unfold status at h
  split at h
  · split at h <;> cases h
  · rename_i ha
    exact Bool.not_eq_true _ ▸ ha

theorem status_eq_pinned_iff {e : FrameFlags} (h : e.pinned = true → e.allocated = true) :
    e.status = .pinned ↔ e.pinned = true := by
  unfold status
  cases hp : e.pinned
  · split <;> simp
  · simp [h hp]

end FrameFlags

namespace FramePool

variable {p : FramePool} {f g : FrameId}

def status (p : FramePool) (f : FrameId) : FrameStatus :=
  ((p.entries[f.index]?).map FrameFlags.status).getD .absent

/-- The counter of allocated frames is right, and only allocated frames are pinned. -/
structure Counted (p : FramePool) : Prop where
  allocated_eq : p.allocated = p.entries.toList.countP (·.allocated)
  allocated_of_pinned : ∀ e ∈ p.entries, e.pinned = true → e.allocated = true

theorem status_eq_absent_iff : p.status f = .absent ↔ p.size ≤ f.index := by
  unfold status size
  cases h : p.entries[f.index]? with
  | none => simpa using h
  | some e =>
      have hlt := (Array.getElem?_eq_some_iff.1 h).1
      simp only [Option.map_some, Option.getD_some, FrameFlags.status]
      constructor
      · intro hs
        split at hs
        · split at hs <;> cases hs
        · cases hs
      · omega

theorem entry_of_status (h : p.status f ≠ .absent) :
    ∃ e, p.entries[f.index]? = some e ∧ e.status = p.status f := by
  unfold status at h ⊢
  cases he : p.entries[f.index]? with
  | none => simp [he] at h
  | some e => exact ⟨e, rfl, rfl⟩

def withEntry (p : FramePool) (f : FrameId) (e : FrameFlags) (position allocated : Nat) :
    FramePool :=
  ⟨p.entries.setIfInBounds f.index e, position, allocated⟩

theorem status_withEntry {e : FrameFlags} {i n : Nat} (hf : p.status f ≠ .absent) (g : FrameId) :
    (p.withEntry f e i n).status g = if g = f then e.status else p.status g := by
  have hlt : f.index < p.entries.size := Nat.lt_of_not_le (mt status_eq_absent_iff.2 hf)
  unfold status withEntry
  by_cases h : g = f
  · subst h
    simp [hlt]
  · have hi : f.index ≠ g.index := fun hi => h (by cases f; cases g; simp_all)
    simp [h, hi]

theorem countP_set_add (l : List FrameFlags) {i : Nat} {e : FrameFlags} (e' : FrameFlags)
    (h : l[i]? = some e) :
    (l.set i e').countP (·.allocated) + e.allocated.toNat =
      l.countP (·.allocated) + e'.allocated.toNat := by
  induction l generalizing i with
  | nil => cases h
  | cons x l ih =>
      cases i with
      | zero =>
          obtain rfl : x = e := Option.some.inj h
          cases hx : x.allocated <;> cases he : e'.allocated <;> simp [hx, he]
      | succ i =>
          have := ih h
          simp only [List.set_cons_succ, List.countP_cons]
          omega

theorem Counted.withEntry (h : p.Counted) {e e' : FrameFlags} {i n : Nat}
    (he : p.entries[f.index]? = some e) (hp : e'.pinned = true → e'.allocated = true)
    (hn : n + e.allocated.toNat = p.allocated + e'.allocated.toNat) :
    (p.withEntry f e' i n).Counted where
  allocated_eq := by
    have := countP_set_add p.entries.toList e' (by simpa using he)
    have := h.allocated_eq
    simp only [FramePool.withEntry, Array.toList_setIfInBounds]
    omega
  allocated_of_pinned x hx := by
    rcases Array.mem_or_eq_of_mem_setIfInBounds hx with hx | rfl
    · exact h.allocated_of_pinned x hx
    · exact hp

theorem counted_ofSize (n : Nat) : (ofSize n).Counted where
  allocated_eq := by simp [ofSize, List.countP_replicate, FrameFlags.free_allocated]
  allocated_of_pinned e he := by
    rw [(Array.mem_replicate.1 he).2]
    nofun

theorem status_ofSize (n : Nat) (f : FrameId) :
    (ofSize n).status f = if f.index < n then .free else .absent := by
  by_cases h : f.index < n <;> simp [status, ofSize, h, FrameFlags.status, FrameFlags.free_allocated]

theorem mem_search {start n i : Nat} (h : start ≤ n) :
    i ∈ List.range' start (n - start) ++ List.range start ↔ i < n := by
  simp only [List.mem_append, List.mem_range'_1, List.mem_range]
  omega

theorem isFree_iff {i : Nat} :
    (p.entries[i]?).any (!·.allocated) = true ↔ p.status ⟨i⟩ = .free := by
  unfold status
  cases p.entries[i]? with
  | none => simp
  | some e => cases h : e.allocated <;> cases h' : e.pinned <;> simp [FrameFlags.status, h, h']

theorem status_of_nextFree {i : Nat} (h : p.nextFree = some i) : p.status ⟨i⟩ = .free := by
  unfold nextFree at h
  have hp := List.find?_some h
  exact isFree_iff.1 hp

/-- What the search finds is free, so that the assertion holds in every pool. -/
theorem checkedTake_eq (p : FramePool) : p.checkedTake = .ok p.take := by
  unfold checkedTake take
  cases hi : p.nextFree with
  | none => rfl
  | some i =>
      have hfree := status_of_nextFree hi
      obtain ⟨e, he, hs⟩ := entry_of_status (p := p) (f := ⟨i⟩) (by simp [hfree])
      have hea := FrameFlags.not_allocated_of_status (hs.trans hfree)
      simp [entry, he, hea, bind, Except.bind]

theorem take_eq_none (h : p.take = none) (f : FrameId) : p.status f ≠ .free := by
  intro hf
  have hlt : f.index < p.size :=
    Nat.lt_of_not_le (mt status_eq_absent_iff.2 (by simp [hf]))
  have hstart : p.position % p.size ≤ p.size := Nat.le_of_lt (Nat.mod_lt _ (by omega))
  have hnone := List.find?_eq_none.1 (Option.map_eq_none_iff.1 h) f.index
    ((mem_search hstart).2 hlt)
  exact hnone (isFree_iff.2 hf)

theorem Counted.take (h : p.Counted) {q : FramePool} (ht : p.take = some (f, q)) :
    p.status f = .free ∧ q.Counted ∧ q.size = p.size ∧
      ∀ g, q.status g = if g = f then .pinned else p.status g := by
  obtain ⟨i, hi, heq⟩ := Option.map_eq_some_iff.1 ht
  cases heq
  have hfree := status_of_nextFree hi
  obtain ⟨e, he, hs⟩ := entry_of_status (p := p) (f := ⟨i⟩) (by simp [hfree])
  have hea := FrameFlags.not_allocated_of_status (hs.trans hfree)
  refine ⟨hfree, h.withEntry (f := ⟨i⟩) he (by simp) (by simp [hea]), by simp [size], fun g => ?_⟩
  exact status_withEntry (by simp [hfree]) g

theorem Counted.putBack (h : p.Counted) (hf : p.status f = .pinned ∨ p.status f = .held) :
    ∃ q, p.putBack f = .ok q ∧ q.Counted ∧ q.size = p.size ∧
      ∀ g, q.status g = if g = f then .free else p.status g := by
  have hpresent : p.status f ≠ .absent := by rcases hf with hf | hf <;> simp [hf]
  obtain ⟨e, he, hs⟩ := entry_of_status hpresent
  have hea := FrameFlags.allocated_of_status (hs ▸ hf)
  have hpos : p.allocated ≠ 0 := by
    rw [h.allocated_eq, Ne, List.countP_eq_zero]
    have hmem := List.mem_of_getElem? (l := p.entries.toList) (i := f.index) (by simpa using he)
    exact fun hz => hz e hmem hea
  refine ⟨p.withEntry f .free p.position (p.allocated - 1), ?_,
    h.withEntry he nofun (by simp [FrameFlags.free_allocated, hea]; omega), by simp [size, FramePool.withEntry],
    fun g => ?_⟩
  · simp [FramePool.putBack, entry, he, hea, hpos, bind, Except.bind, FramePool.withEntry]
  · exact status_withEntry hpresent g

theorem Counted.setPinned (h : p.Counted) (hf : p.status f = .pinned ∨ p.status f = .held) (b : Bool) :
    ∃ q, p.setPinned f b = .ok q ∧ q.Counted ∧ q.size = p.size ∧
      ∀ g, q.status g = if g = f then (if b then .pinned else .held) else p.status g := by
  obtain ⟨e, he, hs⟩ := entry_of_status (p := p) (f := f) (by rcases hf with hf | hf <;> simp [hf])
  have hea := FrameFlags.allocated_of_status (hs ▸ hf)
  refine ⟨p.withEntry f (e.setPinned b) p.position p.allocated, ?_,
    h.withEntry he (by simp [hea]) (by simp), by simp [size, FramePool.withEntry], fun g => ?_⟩
  · simp [FramePool.setPinned, entry, he, hea, bind, Except.bind, FramePool.withEntry]
  · rw [status_withEntry (by rcases hf with hf | hf <;> simp [hf]), FrameFlags.status_setPinned hea]

theorem Counted.isPinned (h : p.Counted) (hf : p.status f = .pinned) : p.isPinned f = .ok true := by
  obtain ⟨e, he, hs⟩ := entry_of_status (p := p) (f := f) (by simp [hf])
  have hp := (FrameFlags.status_eq_pinned_iff
    (h.allocated_of_pinned e (Array.mem_of_getElem? he))).1 (hs.trans hf)
  simp [FramePool.isPinned, entry, he, hp, Except.map]

theorem status_of_entry {e : FrameFlags} (h : p.entry f = .ok e) : p.status f = e.status := by
  unfold entry at h
  unfold status
  split at h
  · rename_i e' he
    cases h
    rw [he]
    rfl
  · cases h

theorem entry_of_lt (h : f.index < p.size) : ∃ e, p.entry f = .ok e ∧ e.status = p.status f := by
  have hpresent : p.status f ≠ .absent := fun ha => absurd (status_eq_absent_iff.1 ha) (Nat.not_le.2 h)
  obtain ⟨e, he, hs⟩ := entry_of_status hpresent
  exact ⟨e, by simp [entry, he], hs⟩

theorem Counted.freeFrames_eq (h : p.Counted) :
    p.freeFrames = (List.range p.size).countP fun i => p.status ⟨i⟩ = .free := by
  have hlist : p.entries.toList = (List.range p.size).map fun i => (p.entries[i]?).getD .free := by
    refine List.ext_getElem (by simp [size]) fun i hi _ => ?_
    simp only [Array.length_toList] at hi
    simp [hi]
  have hfree : (List.range p.size).countP (fun i => p.status ⟨i⟩ = .free) =
      p.entries.toList.countP fun e => !e.allocated := by
    rw [hlist, List.countP_map]
    refine List.countP_congr fun i hi => ?_
    have hi : i < p.entries.size := List.mem_range.1 hi
    cases ha : p.entries[i].allocated <;> cases hp : p.entries[i].pinned <;>
      simp [status, hi, FrameFlags.status, ha, hp]
  have hlength := List.length_eq_countP_add_countP (fun e : FrameFlags => e.allocated) (l := p.entries.toList)
  rw [freeFrames, hfree, h.allocated_eq, size, ← Array.length_toList, hlength]
  simp

end FramePool

end DemandPaging
