import DemandPaging.Proofs.Regions

namespace DemandPaging

open Machine Step

variable {hw : Hardware} {l : List Turn} {m : Machine} {s : SpaceId} {c : Call} {t : Turn} {α : Type}
  {Q : α → Machine → Prop} {E : Stop → Machine → Prop}

def Call.InRange : Call → Prop
  | register _ va .. | claim _ va | remove _ va | unmap _ va => va < wordLimit
  | read _ va len => va < wordLimit ∧ len < wordLimit
  | write _ va data => va < wordLimit ∧ data.size < wordLimit
  | saveStack _ esp => esp < wordLimit
  | fault _ esp addr .. | handle _ esp addr .. => esp < wordLimit ∧ addr < wordLimit
  | map _ addr len _ _ offset => addr < wordLimit ∧ len < wordLimit ∧ offset < wordLimit
  | segment _ _ offset addr readBytes zeroBytes _ =>
      offset < wordLimit ∧ addr < wordLimit ∧ readBytes < wordLimit ∧ zeroBytes < wordLimit
  | overwrite _ offset data => offset < wordLimit ∧ data.size < wordLimit
  | newSpace | dropSpace _ | destroy _ | startStack _ | fork .. | newFile _ | limitFile .. | setFaults _ => True

/-- The turn came to a value, or to an error that its caller can look at. -/
def Turn.Answers (t : Turn) : Prop := ∀ e, t.answer = .error e → ∃ err, e = .error err

theorem answers_of_yields {x : Vm α} {f : α → Answer} (hexec : c.exec = x >>= fun a => pure (f a))
    (h : Yields x m Q E) (hE : ∀ e n, E e n → ∃ err, e = .error err) : (c.turn m).Answers := by
  apply Call.turn_cases Turn.Answers
  rw [hexec]
  apply h.bind
  · intro a n _
    exact yields_pure.2 nofun
  · intro e n he e' heq
    cases heq
    exact hE e n he

theorem Step.Failing.stops {P : PagingError → Machine → Prop} (e : Stop) (n : Machine) (h : Failing P e n) :
    ∃ err, e = .error err := by
  obtain ⟨err, he, -⟩ := h.error
  exact ⟨err, he⟩

section

variable (h : m.Sound) (hs : (m.view.book s).isSome)
include h hs

theorem answers_unmap (addr : Addr)
    (hg : ∀ g, (m.view.regions s)[pageBase addr]? = some g → Placed (pageBase addr) g.pages) :
    ((Call.unmap s addr).turn m).Answers := by
  intro e he
  have hok := (unmap_turn h hs addr hg).1
  rw [Turn.succeeds, he] at hok
  cases hok

/-- A segment is refused by an error, unless its address is no word. -/
theorem answers_segment (hd : Handle) (offset addr readBytes zeroBytes : Nat) (w : Bool)
    (haddr : addr < wordLimit) : ((Call.segment s hd offset addr readBytes zeroBytes w).turn m).Answers :=
  answers_of_yields (f := fun _ => .done) rfl
    (Vm.yields_addSegment h hs hd offset addr readBytes zeroBytes w) fun _ _ he => he.2.2.2 haddr

end

theorem answers_fork {child parent : SpaceId} (h : m.Sound) (hc : (m.view.book child).isSome)
    (hp : (m.view.book parent).isSome) (hb : Bounded (m.view.regions parent).toList) :
    ((Call.fork child parent).turn m).Answers := by
  intro e he
  rcases fork_turn h hc hp hb with ⟨hok, -⟩ | ⟨⟨err, herr⟩, -⟩
  · rw [Turn.succeeds, he] at hok
    cases hok
  · rw [herr] at he
    cases he
    exact ⟨err, rfl⟩

theorem answers_turn (h : m.Sound) (hl : Charted l m.view) (hc : ∀ s ∈ c.spaces, (m.space? s).isSome)
    (hw : ∀ s hd offset addr readBytes zeroBytes w,
      c = .segment s hd offset addr readBytes zeroBytes w → addr < wordLimit) : (c.turn m).Answers := by
  have hlive {s : SpaceId} (hs : s ∈ c.spaces) : (m.view.book s).isSome := Call.live hc hs
  have hone {s : SpaceId} (hs : c.spaces = [s]) : (m.view.book s).isSome :=
    hlive (hs ▸ List.mem_singleton_self s)
  cases c with
  | newSpace => exact answers_of_yields rfl (Vm.yields_newSpace h) nofun
  | dropSpace s => exact answers_of_yields rfl (Vm.yields_dropSpace h.consistent s) nofun
  | register s => exact answers_of_yields rfl (Vm.yields_register h (hone rfl) ..) Failing.stops
  | claim s => exact answers_of_yields rfl (Vm.yields_makeResident h (hone rfl) _) Failing.stops
  | remove s => exact answers_of_yields rfl (Vm.yields_remove h (hone rfl) _) Failing.stops
  | destroy s => exact answers_of_yields rfl (Vm.yields_destroy h (hone rfl)) nofun
  | read s => exact answers_of_yields rfl (Vm.yields_copyOut h (hone rfl) ..) nofun
  | write s => exact answers_of_yields rfl (Vm.yields_copyIn h (hone rfl) ..) Failing.stops
  | saveStack =>
      exact answers_of_yields (Q := fun _ _ => True) (E := fun _ _ => False) rfl
        (Vm.yields_modifySpace.2 trivial) nofun
  | fault s => exact answers_of_yields rfl (Vm.yields_resolveFault h (hone rfl) ..) Failing.stops
  | handle s => exact answers_of_yields rfl (Vm.yields_onFault h (hone rfl) ..) nofun
  | map s => exact answers_of_yields rfl (Vm.yields_addMapping h (hone rfl) ..) Failing.stops
  | unmap s addr => exact answers_unmap h (hone rfl) addr fun g hg => hl.region hg
  | segment s => exact answers_segment h (hone rfl) _ _ _ _ _ _ (hw _ _ _ _ _ _ _ rfl)
  | startStack s => exact answers_of_yields rfl (Vm.yields_startStack h (hone rfl)) Failing.stops
  | fork child parent =>
      exact answers_fork h (hlive (by simp [Call.spaces])) (hlive (by simp [Call.spaces])) (hl.bounded parent)
  | newFile => exact answers_of_yields rfl (Vm.yields_newFile h.consistent _) nofun
  | limitFile =>
      exact answers_of_yields (Q := fun _ _ => True) (E := fun _ _ => False) rfl
        (yields_bind.2 (yields_get.2 (Vm.yields_putFile.2 trivial))) nofun
  | overwrite =>
      exact answers_of_yields (Q := fun _ _ => True) (E := fun _ _ => False) rfl
        (yields_bind.2 (yields_get.2 (yields_bind.2 (Vm.yields_putFile.2 (yields_pure.2 trivial))))) nofun
  | setFaults => exact answers_of_yields rfl (Vm.yields_setFaults h.consistent _) nofun

/-- Whatever a machine looks up by a number is there. -/
structure Machine.InBounds (m : Machine) : Prop where
  owners_size : m.frames.owners.size = m.frames.pool.size
  memory_size : m.frames.memory.size = m.frames.pool.size
  allocated_le : m.frames.pool.allocated ≤ m.frames.pool.size
  clock_lt : ∀ f ∈ m.frames.clock, f.index < m.frames.pool.size
  frame_lt : ∀ r p f, m.page? r = some p → p.frame = some f → f.index < m.frames.pool.size
  slot_lt : ∀ r p k, m.page? r = some p → p.slot? = some k → k.index < m.swap.capacity
  used_le : m.swap.used.ones ≤ m.swap.capacity
  words_size : m.swap.used.words.size = (m.swap.capacity + (wordBits - 1)) / wordBits
  sectors : m.swap.capacity * sectorsPerPage ≤ m.swap.disk.size ∧ m.swap.disk.size < 2 ^ 32
  tables : ∀ s sp d n, m.space? s = some sp → sp.table.tableOf? d = some n → n < sp.table.tables.size

theorem Machine.Sound.frame_lt (h : m.Sound) {f : FrameId} (hf : (m.view.owner f).isSome) :
    f.index < m.frames.pool.size := by
  rw [← h.coherent.held_iff] at hf
  apply Nat.lt_of_not_le
  intro hle
  have habsent : m.view.status f = .absent := FramePool.status_eq_absent_iff.2 hle
  rw [hf] at habsent
  cases habsent

theorem Machine.Sound.inBounds (h : m.Sound) : m.InBounds where
  owners_size := h.consistent.frames.owners_size
  memory_size := h.consistent.frames.memory_size
  allocated_le := by
    rw [h.consistent.frames.counted.allocated_eq]
    exact List.countP_le_length
  clock_lt f hf := h.frame_lt ((h.coherent.mem_clock_iff f).1 hf)
  frame_lt r p f hp hf := by
    apply h.frame_lt
    rw [h.coherent.resident hp hf]
    rfl
  slot_lt r p k hp hk := h.consistent.swap.lt_of_holds (h.coherent.slot_used hp hk)
  used_le := by
    rw [h.consistent.swap.trim.ones_eq]
    exact List.countP_le_length.trans_eq List.length_range
  words_size := m.swap.used.size_eq
  sectors := by
    refine ⟨?_, h.consistent.swap.size_lt⟩
    rw [SwapArea.capacity, h.consistent.swap.len_eq]
    exact Nat.div_mul_le_self ..
  tables s sp d n hs hn := PageTable.number?_lt_size hn

/-- No call of any run panics or runs for ever, and what is looked up by number is there when the next one is made.
Within a call, a frame that is not there would be a panic, and a page table or a word of a bitmap is there by its
type. -/
theorem Runs.never_panics (h : Runs hw (t :: l) m) (ht : t.call.InRange) : t.Answers ∧ m.InBounds := by
  refine ⟨?_, h.sound.inBounds⟩
  cases h with
  | turn h c hc =>
      rw [call_turn] at ht
      apply answers_turn h.sound h.charted hc
      rintro s hd offset addr readBytes zeroBytes w rfl
      exact ht.2.1

def segmentAtTheEnd : Turn :=
  (Call.segment ⟨1⟩ ⟨⟨0⟩, 0⟩ 0 0x7ffff000 8192 0 true).turn (Hardware.small.machine [.newFile #[1], .newSpace])

theorem segmentAtTheEnd_answers : segmentAtTheEnd.Answers ∧ segmentAtTheEnd.succeeds = false ∧
    (segmentAtTheEnd.after.page? ⟨⟨1⟩, 0x7ffff000⟩).isSome := by
  have hrun : Runs .small (segmentAtTheEnd :: Hardware.small.turns [.newFile #[1], .newSpace])
      segmentAtTheEnd.after :=
    Hardware.runs (l := .segment ⟨1⟩ ⟨⟨0⟩, 0⟩ 0 0x7ffff000 8192 0 true :: [.newFile #[1], .newSpace]) .small
      (by decide +kernel)
  have hrange : segmentAtTheEnd.call.InRange := by
    rw [segmentAtTheEnd, call_turn]
    exact ⟨by decide, by decide, by decide, by decide⟩
  exact ⟨(hrun.never_panics hrange).1, by decide +kernel, by decide +kernel⟩

end DemandPaging
