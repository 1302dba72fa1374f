import DemandPaging.Proofs.PoolStatus

namespace DemandPaging

namespace FramePool

inductive Request
  | take
  | putBack (f : FrameId)
  | setPinned (f : FrameId) (b : Bool)
deriving DecidableEq

inductive Reply
  | frame (f : FrameId)
  | exhausted
  | done
  | panic (p : Panic)
deriving DecidableEq

def serve (p : FramePool) : Request → Reply × FramePool
  | .take =>
      match p.checkedTake with
      | .ok (some (f, q)) => (.frame f, q)
      | .ok none => (.exhausted, p)
      | .error e => (.panic e, p)
  | .putBack f =>
      match p.putBack f with
      | .ok q => (.done, q)
      | .error e => (.panic e, p)
  | .setPinned f b =>
      match p.setPinned f b with
      | .ok q => (.done, q)
      | .error e => (.panic e, p)

abbrev History := List (Request × Reply)

def served (n : Nat) : List Request → History × FramePool
  | [] => ([], ofSize n)
  | r :: l =>
      let (h, p) := served n l
      let (a, q) := p.serve r
      ((r, a) :: h, q)

def Outstanding (h : History) (f : FrameId) : Prop :=
  ∃ late early, h = late ++ (.take, .frame f) :: early ∧ (.putBack f, .done) ∉ late

def searchStart : History → Nat
  | [] => 0
  | (_, .frame f) :: _ => f.index + 1
  | _ :: h => searchStart h

variable {p q : FramePool} {f g : FrameId} {n : Nat} {h : History} {r : Request} {a : Reply}

theorem outstanding_nil : ¬ Outstanding [] f := by
  rintro ⟨late, early, heq, -⟩
  simp at heq

theorem outstanding_cons : Outstanding ((r, a) :: h) f ↔
    (r, a) = (.take, .frame f) ∨ (r, a) ≠ (.putBack f, .done) ∧ Outstanding h f := by
  constructor
  · rintro ⟨late, early, heq, hput⟩
    rcases List.cons_eq_append_iff.1 heq with ⟨rfl, hcons⟩ | ⟨late, rfl, rfl⟩
    · exact .inl (List.cons.inj hcons).1.symm
    · rw [List.mem_cons, not_or] at hput
      exact .inr ⟨Ne.symm hput.1, late, early, rfl, hput.2⟩
  · rintro (heq | ⟨hne, late, early, rfl, hput⟩)
    · exact ⟨[], h, by rw [heq]; rfl, List.not_mem_nil⟩
    · exact ⟨(r, a) :: late, early, rfl, by simp [Ne.symm hne, hput]⟩

def Allocated (p : FramePool) (f : FrameId) : Prop := p.status f = .pinned ∨ p.status f = .held

/-- The first free frame that is met going up from `start` and round at the end. -/
def FirstFree (p : FramePool) (start : Nat) (f : FrameId) : Prop :=
  ∃ k < p.size, f = ⟨(start + k) % p.size⟩ ∧ p.status f = .free ∧
    ∀ j < k, p.status ⟨(start + j) % p.size⟩ ≠ .free

def OnlyChanges (p q : FramePool) (f : FrameId) (s : FrameStatus) : Prop :=
  q.size = p.size ∧ ∀ g, q.status g = if g = f then s else p.status g

/-- The search goes through all frames once, in cyclic order. -/
theorem search_eq {s : Nat} (hs : s < n) :
    List.range' s (n - s) ++ List.range s = (List.range n).map fun k => (s + k) % n := by
  refine List.ext_getElem (by simp; omega) fun i hi _ => ?_
  simp only [List.length_append, List.length_range', List.length_range] at hi
  by_cases hlt : i < n - s
  · rw [List.getElem_append_left (by simpa using hlt)]
    simp [Nat.mod_eq_of_lt (show s + i < n by omega)]
  · rw [List.getElem_append_right (by simpa using hlt)]
    have hwrap : (s + i) % n = s + i - n := by
      rw [Nat.mod_eq_sub_mod (by omega), Nat.mod_eq_of_lt (by omega)]
    simp [hwrap]
    omega

theorem firstFree_of_nextFree {i : Nat} (hi : p.nextFree = some i) : p.FirstFree p.position ⟨i⟩ := by
  have hfree := status_of_nextFree hi
  have hlt : i < p.size := Nat.lt_of_not_le (mt (status_eq_absent_iff (f := ⟨i⟩)).2 (by simp [hfree]))
  rw [nextFree, search_eq (Nat.mod_lt _ (by omega)), List.find?_map, Option.map_eq_some_iff] at hi
  obtain ⟨k, hk, rfl⟩ := hi
  obtain ⟨-, hmem, hbefore⟩ := List.find?_range_eq_some.1 hk
  simp only [Nat.mod_add_mod] at hfree hbefore ⊢
  refine ⟨k, List.mem_range.1 hmem, rfl, hfree, fun j hj hf => ?_⟩
  have := hbefore j hj
  simp [isFree_iff.2 hf] at this

theorem position_take (h : p.take = some (f, q)) : p.nextFree = some f.index ∧ q.position = (f.index + 1) % p.size := by
  obtain ⟨i, hi, heq⟩ := Option.map_eq_some_iff.1 h
  cases heq
  exact ⟨hi, rfl⟩

theorem position_putBack (h : p.putBack f = .ok q) : q.position = p.position := by
  unfold putBack at h
  cases he : p.entry f with
  | error e =>
      rw [he] at h
      cases h
  | ok e =>
      simp only [he, bind, Except.bind] at h
      split at h
      · split at h
        · cases h
        · cases h
          rfl
      · cases h

theorem position_setPinned {b : Bool} (h : p.setPinned f b = .ok q) : q.position = p.position := by
  unfold setPinned at h
  cases he : p.entry f with
  | error e =>
      rw [he] at h
      cases h
  | ok e =>
      simp only [he, bind, Except.bind] at h
      split at h
      · cases h
        rfl
      · cases h

def refusal (p : FramePool) (f : FrameId) (unallocated : Panic) : Panic :=
  if p.size ≤ f.index then .noSuchIndex else unallocated

theorem entry_of_not_allocated (hf : ¬ p.Allocated f) :
    p.size ≤ f.index ∧ p.entry f = .error .noSuchIndex ∨
      f.index < p.size ∧ ∃ e, p.entry f = .ok e ∧ e.allocated = false := by
  rcases Nat.lt_or_ge f.index p.size with hlt | hge
  · obtain ⟨e, he, hs⟩ := entry_of_lt hlt
    refine .inr ⟨hlt, e, he, FrameFlags.not_allocated_of_status (hs.trans ?_)⟩
    have hpresent := mt status_eq_absent_iff.1 (Nat.not_le.2 hlt)
    unfold Allocated at hf
    cases h : p.status f <;> simp_all
  · exact .inl ⟨hge, by simp [entry, Array.getElem?_eq_none (show p.entries.size ≤ f.index from hge)]⟩

theorem freeFrames_eq_zero_iff (h : p.Counted) : p.freeFrames = 0 ↔ ∀ f, p.status f ≠ .free := by
  rw [h.freeFrames_eq, List.countP_eq_zero]
  simp only [List.mem_range, decide_eq_true_eq]
  refine ⟨fun hnone f hf => ?_, fun hnone i _ => hnone ⟨i⟩⟩
  exact hnone f.index (Nat.lt_of_not_le (mt status_eq_absent_iff.2 (by simp [hf]))) hf

theorem serve_take_of_none (h : p.Counted) (hnone : p.freeFrames = 0) : p.serve .take = (.exhausted, p) := by
  cases ht : p.take with
  | none => simp [serve, checkedTake_eq, ht]
  | some t => exact absurd (h.take (f := t.1) (q := t.2) ht).1 ((freeFrames_eq_zero_iff h).1 hnone t.1)

theorem serve_take_of_some (h : p.Counted) (hsome : p.freeFrames ≠ 0) :
    ∃ f q, p.serve .take = (.frame f, q) ∧ p.FirstFree p.position f ∧ q.Counted ∧ p.OnlyChanges q f .pinned ∧
      q.position = (f.index + 1) % p.size := by
  cases ht : p.take with
  | none => exact absurd ((freeFrames_eq_zero_iff h).2 (take_eq_none ht)) hsome
  | some t =>
      obtain ⟨f, q⟩ := t
      obtain ⟨-, hcounted, hsize, hstatus⟩ := h.take ht
      obtain ⟨hnext, hpos⟩ := position_take ht
      exact ⟨f, q, by simp [serve, checkedTake_eq, ht], firstFree_of_nextFree hnext, hcounted, ⟨hsize, hstatus⟩, hpos⟩

theorem serve_putBack_of_allocated (h : p.Counted) (hf : p.Allocated f) :
    ∃ q, p.serve (.putBack f) = (.done, q) ∧ q.Counted ∧ p.OnlyChanges q f .free ∧ q.position = p.position := by
  obtain ⟨q, hq, hcounted, hsize, hstatus⟩ := h.putBack hf
  exact ⟨q, by simp [serve, hq], hcounted, ⟨hsize, hstatus⟩, position_putBack hq⟩

theorem serve_setPinned_of_allocated (h : p.Counted) (hf : p.Allocated f) (b : Bool) :
    ∃ q, p.serve (.setPinned f b) = (.done, q) ∧ q.Counted ∧
      p.OnlyChanges q f (if b then .pinned else .held) ∧ q.position = p.position := by
  obtain ⟨q, hq, hcounted, hsize, hstatus⟩ := h.setPinned hf b
  exact ⟨q, by simp [serve, hq], hcounted, ⟨hsize, hstatus⟩, position_setPinned hq⟩

theorem serve_putBack_of_not (hf : ¬ p.Allocated f) :
    p.serve (.putBack f) = (.panic (p.refusal f (.freedTwice f)), p) := by
  rcases entry_of_not_allocated hf with ⟨hge, he⟩ | ⟨hlt, e, he, ha⟩
  · simp [serve, putBack, he, refusal, hge, bind, Except.bind]
  · simp [serve, putBack, he, ha, refusal, Nat.not_le.2 hlt, bind, Except.bind]

theorem serve_setPinned_of_not (hf : ¬ p.Allocated f) (b : Bool) :
    p.serve (.setPinned f b) = (.panic (p.refusal f (.pinnedFree f)), p) := by
  rcases entry_of_not_allocated hf with ⟨hge, he⟩ | ⟨hlt, e, he, ha⟩
  · simp [serve, setPinned, he, refusal, hge, bind, Except.bind]
  · simp [serve, setPinned, he, ha, refusal, Nat.not_le.2 hlt, bind, Except.bind]

structure Follows (n : Nat) (h : History) (p : FramePool) : Prop where
  counted : p.Counted
  size_eq : p.size = n
  position_eq : p.position % n = searchStart h % n
  allocated_iff : ∀ f, p.Allocated f ↔ Outstanding h f

theorem follows_ofSize (n : Nat) : Follows n [] (ofSize n) where
  counted := counted_ofSize n
  size_eq := Array.size_replicate
  position_eq := rfl
  allocated_iff f := by
    refine iff_of_false (fun hf => ?_) outstanding_nil
    rw [Allocated, status_ofSize] at hf
    split at hf <;> simp at hf

theorem OnlyChanges.allocated_iff {s : FrameStatus} (h : p.OnlyChanges q f s) (g : FrameId) :
    q.Allocated g ↔ if g = f then s = .pinned ∨ s = .held else p.Allocated g := by
  unfold Allocated
  rw [h.2]
  split <;> rfl

/-- A request that changes nothing and neither hands out a frame nor takes one back. -/
theorem Follows.idle (hp : Follows n h p) (hframe : ∀ f, a ≠ .frame f) (hdone : a ≠ .done) :
    Follows n ((r, a) :: h) p where
  counted := hp.counted
  size_eq := hp.size_eq
  position_eq := by
    cases a with
    | frame f => exact absurd rfl (hframe f)
    | exhausted | done | panic => exact hp.position_eq
  allocated_iff f := by
    rw [outstanding_cons, hp.allocated_iff]
    simp [hframe, hdone]

theorem Follows.serve (hp : Follows n h p) (r : Request) : Follows n ((r, (p.serve r).1) :: h) (p.serve r).2 := by
  cases r with
  | take =>
      by_cases hnone : p.freeFrames = 0
      · rw [serve_take_of_none hp.counted hnone]
        exact hp.idle nofun nofun
      · obtain ⟨f, q, hserve, -, hcounted, hq, hpos⟩ := serve_take_of_some hp.counted hnone
        rw [hserve]
        refine ⟨hcounted, hq.1.trans hp.size_eq, ?_, fun g => ?_⟩
        · rw [hpos, hp.size_eq, Nat.mod_mod]
          rfl
        · rw [hq.allocated_iff, outstanding_cons, ← hp.allocated_iff]
          by_cases hg : g = f <;> simp [hg, Ne.symm]
  | putBack f =>
      by_cases hf : p.Allocated f
      · obtain ⟨q, hserve, hcounted, hq, hpos⟩ := serve_putBack_of_allocated hp.counted hf
        rw [hserve]
        refine ⟨hcounted, hq.1.trans hp.size_eq, hpos ▸ hp.position_eq, fun g => ?_⟩
        rw [hq.allocated_iff, outstanding_cons, ← hp.allocated_iff]
        by_cases hg : g = f <;> simp [hg, Ne.symm]
      · rw [serve_putBack_of_not hf]
        exact hp.idle nofun nofun
  | setPinned f b =>
      by_cases hf : p.Allocated f
      · obtain ⟨q, hserve, hcounted, hq, hpos⟩ := serve_setPinned_of_allocated hp.counted hf b
        rw [hserve]
        refine ⟨hcounted, hq.1.trans hp.size_eq, hpos ▸ hp.position_eq, fun g => ?_⟩
        rw [hq.allocated_iff, outstanding_cons, ← hp.allocated_iff]
        by_cases hg : g = f
        · cases b <;> simp [hg, hf]
        · simp [hg]
      · rw [serve_setPinned_of_not hf]
        exact hp.idle nofun nofun

theorem follows_served (n : Nat) (l : List Request) : Follows n (served n l).1 (served n l).2 := by
  induction l with
  | nil => exact follows_ofSize n
  | cons r l ih => exact ih.serve r

theorem FirstFree.congr {i j : Nat} (h : p.FirstFree i f) (heq : i % p.size = j % p.size) : p.FirstFree j f := by
  have hshift (k : Nat) : (i + k) % p.size = (j + k) % p.size := by
    rw [← Nat.mod_add_mod, heq, Nat.mod_add_mod]
  unfold FirstFree at h ⊢
  simpa only [hshift] using h

/-- What is true of a pool of `n` frames after the exchanges `h`, and of every request that may come next. -/
structure NextFit (n : Nat) (h : History) (p : FramePool) : Prop where
  size_eq : p.size = n
  allocated_le : p.allocated ≤ p.size
  freeFrames_eq : p.freeFrames = (List.range n).countP fun i => p.status ⟨i⟩ = .free
  allocated_of_pinned : ∀ f, p.isPinned f = .ok true → p.Allocated f
  allocated_iff : ∀ f, p.Allocated f ↔ Outstanding h f
  exhausted_iff : (p.serve .take).1 = .exhausted ↔ p.freeFrames = 0
  exhausted : p.freeFrames = 0 → p.serve .take = (.exhausted, p)
  take : p.freeFrames ≠ 0 → ∃ f q, p.serve .take = (.frame f, q) ∧ p.FirstFree (searchStart h) f ∧
    ¬ Outstanding h f ∧ p.OnlyChanges q f .pinned
  putBack : ∀ f, p.Allocated f → ∃ q, p.serve (.putBack f) = (.done, q) ∧ p.OnlyChanges q f .free
  setPinned : ∀ f b, p.Allocated f → ∃ q, p.serve (.setPinned f b) = (.done, q) ∧
    p.OnlyChanges q f (if b then .pinned else .held)
  putBack_refused : ∀ f, ¬ p.Allocated f →
    p.serve (.putBack f) = (.panic (p.refusal f (.freedTwice f)), p)
  setPinned_refused : ∀ f b, ¬ p.Allocated f →
    p.serve (.setPinned f b) = (.panic (p.refusal f (.pinnedFree f)), p)

theorem Counted.allocated_le (h : p.Counted) : p.allocated ≤ p.size := by
  rw [h.allocated_eq]
  exact List.countP_le_length

theorem Counted.allocated_of_isPinned (h : p.Counted) (hf : p.isPinned f = .ok true) : p.Allocated f := by
  cases he : p.entry f with
  | error e => simp [FramePool.isPinned, he, Except.map] at hf
  | ok e =>
      have hp : e.pinned = true := by simpa [FramePool.isPinned, he, Except.map] using hf
      have hmem : e ∈ p.entries := by
        unfold entry at he
        split at he
        · rename_i e' hget
          cases he
          exact Array.mem_of_getElem? hget
        · cases he
      exact .inl ((status_of_entry he).trans
        ((FrameFlags.status_eq_pinned_iff (h.allocated_of_pinned e hmem)).2 hp))

/-- Whatever a pool has been asked for, the frames it has handed out and not got back are those that are
allocated, and it counts the others; it hands out the next one that is free after the one it handed out last, and is
out of frames only if all are allocated. A request about a frame that is not allocated panics. -/
theorem served_next_fit (n : Nat) (l : List Request) : NextFit n (served n l).1 (served n l).2 := by
  have hp := follows_served n l
  generalize (served n l).1 = h at hp ⊢
  generalize (served n l).2 = p at hp ⊢
  have htake : p.freeFrames ≠ 0 → ∃ f q, p.serve .take = (.frame f, q) ∧ p.FirstFree (searchStart h) f ∧
      ¬ Outstanding h f ∧ p.OnlyChanges q f .pinned := by
    intro hsome
    obtain ⟨f, q, hserve, hfirst, -, hq, -⟩ := serve_take_of_some hp.counted hsome
    refine ⟨f, q, hserve, hfirst.congr (by rw [hp.size_eq, hp.position_eq]), fun hout => ?_, hq⟩
    obtain ⟨-, -, -, hfree, -⟩ := hfirst
    simpa [Allocated, hfree] using (hp.allocated_iff f).2 hout
  exact {
    size_eq := hp.size_eq
    allocated_le := hp.counted.allocated_le
    freeFrames_eq := hp.size_eq ▸ hp.counted.freeFrames_eq
    allocated_of_pinned := fun f => hp.counted.allocated_of_isPinned
    allocated_iff := hp.allocated_iff
    exhausted_iff := by
      refine ⟨fun hnone => Decidable.byContradiction fun hsome => ?_, fun hnone => ?_⟩
      · obtain ⟨f, q, hserve, -⟩ := htake hsome
        simp [hserve] at hnone
      · rw [serve_take_of_none hp.counted hnone]
    exhausted := serve_take_of_none hp.counted
    take := htake
    putBack := fun f hf => by
      obtain ⟨q, hserve, -, hq, -⟩ := serve_putBack_of_allocated hp.counted hf
      exact ⟨q, hserve, hq⟩
    setPinned := fun f b hf => by
      obtain ⟨q, hserve, -, hq, -⟩ := serve_setPinned_of_allocated hp.counted hf b
      exact ⟨q, hserve, hq⟩
    putBack_refused := fun f => serve_putBack_of_not
    setPinned_refused := fun f b hf => serve_setPinned_of_not hf b }

/-- The frame that is back is free, but the search has gone past it. -/
example : (served 3 [.take, .putBack ⟨0⟩, .take, .take]).1 =
    [(.take, .frame ⟨2⟩), (.putBack ⟨0⟩, .done), (.take, .frame ⟨1⟩), (.take, .frame ⟨0⟩)] := by
  decide

end FramePool

end DemandPaging
