import DemandPaging.Proofs.Answers

namespace DemandPaging

open Machine Step

variable {hw : Hardware} {l : List Turn} {m n u : Machine} {s : SpaceId} {sp : Space} {addr : Addr} {f : FrameId}
  {p : Page} {r : PageRef} {write : Bool} {k : Nat} {x : Except PagingError FrameId} {c : Call}

namespace Vm

/-- An access to user memory that is made again after every fault that was resolved, however often
that is: from `m` it meets `k` faults, and comes to `x` and to the machine `n`. -/
inductive Accesses (s : SpaceId) (addr : Addr) (write : Bool) :
    Machine → Nat → Except PagingError FrameId → Machine → Prop
  | found {m : Machine} {sp : Space} {f : FrameId} {t : PageTable} (hs : m.space? s = some sp)
      (ha : sp.table.access addr write true = .ok (f, t)) :
      Accesses s addr write m 0 (.ok f) (m.withSpace s fun sp => { sp with table := t })
  | refused {m n : Machine} {sp : Space} {code : FaultCode} (hs : m.space? s = some sp)
      (ha : sp.table.access addr write true = .error code)
      (hb : (onFault s sp.savedStack addr true write code.notPresent).run m = .ok false n) :
      Accesses s addr write m 1 (.error (.badAddress addr)) n
  | again {m n u : Machine} {sp : Space} {code : FaultCode} {k : Nat} {x : Except PagingError FrameId}
      (hs : m.space? s = some sp) (ha : sp.table.access addr write true = .error code)
      (hb : (onFault s sp.savedStack addr true write code.notPresent).run m = .ok true n)
      (h : Accesses s addr write n k x u) : Accesses s addr write m (k + 1) x u

/-- However often it is made again, an access comes to one end. -/
theorem Accesses.unique (h : Accesses s addr write m k x n) {j : Nat} {y : Except PagingError FrameId}
    (h' : Accesses s addr write m j y u) : j = k ∧ y = x ∧ u = n := by
  induction h generalizing j y u with
  | found hs ha =>
      cases h' with
      | found hs' ha' =>
          cases hs.symm.trans hs'
          cases ha.symm.trans ha'
          exact ⟨rfl, rfl, rfl⟩
      | refused hs' ha' | again hs' ha' =>
          cases hs.symm.trans hs'
          cases ha.symm.trans ha'
  | refused hs ha hb =>
      cases h' with
      | found hs' ha' =>
          cases hs.symm.trans hs'
          cases ha.symm.trans ha'
      | refused hs' ha' hb' =>
          cases hs.symm.trans hs'
          cases ha.symm.trans ha'
          cases hb.symm.trans hb'
          exact ⟨rfl, rfl, rfl⟩
      | again hs' ha' hb' =>
          cases hs.symm.trans hs'
          cases ha.symm.trans ha'
          cases hb.symm.trans hb'
  | again hs ha hb h ih =>
      cases h' with
      | found hs' ha' =>
          cases hs.symm.trans hs'
          cases ha.symm.trans ha'
      | refused hs' ha' hb' =>
          cases hs.symm.trans hs'
          cases ha.symm.trans ha'
          cases hb.symm.trans hb'
      | again hs' ha' hb' h' =>
          cases hs.symm.trans hs'
          cases ha.symm.trans ha'
          cases hb.symm.trans hb'
          obtain ⟨rfl, rfl, rfl⟩ := ih h'
          exact ⟨rfl, rfl, rfl⟩

def ended (x : Except PagingError FrameId) (n : Machine) : EStateM.Result Stop Machine FrameId :=
  match x with
  | .ok f => .ok f n
  | .error e => .error (.error e) n

theorem Accesses.error_eq (h : Accesses s addr write m k x n) {e : PagingError} (hx : x = .error e) :
    e = .badAddress addr := by
  induction h with
  | found => cases hx
  | refused =>
      cases hx
      rfl
  | again _ _ _ _ ih => exact ih hx

/-- As many rounds as there are faults, and one more to find the frame, are as good as no bound. -/
theorem Accesses.run_frameFor (h : Accesses s addr write m k x n) (rounds : Nat)
    (hr : k < rounds ∨ k = rounds ∧ ∃ e, x = .error e) :
    (frameFor s addr write rounds).run m = ended x n := by
  induction h generalizing rounds with
  | found hs ha =>
      cases rounds with
      | zero => simp at hr
      | succ rounds =>
          apply yields_run_eq.1
          unfold frameFor
          rw [yields_bind, yields_space hs, ha]
          exact yields_bind.2 (yields_modifyTable.2 (yields_pure.2 rfl))
  | refused hs ha hb =>
      cases rounds with
      | zero => simp at hr
      | succ rounds =>
          apply yields_run_eq.1
          unfold frameFor
          rw [yields_bind, yields_space hs, ha]
          exact yields_bind.2 (yields_of_ok hb (yields_fail.2 rfl))
  | again hs ha hb h ih =>
      cases rounds with
      | zero => simp at hr
      | succ rounds =>
          have hrest := ih rounds (hr.imp Nat.lt_of_succ_lt_succ (And.imp_left Nat.succ.inj))
          apply yields_run_eq.1
          unfold frameFor
          rw [yields_bind, yields_space hs, ha]
          exact yields_bind.2 (yields_of_ok hb (yields_run_eq.2 hrest))

section

variable (h : m.Sound) (hs : (m.view.book s).isSome)
include h hs

/-- After a fault was resolved, only the protection of the page can be in the way of an access. -/
theorem access_of_resolved {esp : Addr} {notPresent : Bool}
    (hb : (onFault s esp addr true write notPresent).run m = .ok true n) :
    n.Sound ∧ ∃ sp, n.space? s = some sp ∧ ((∃ f t, sp.table.access addr write true = .ok (f, t)) ∨
      ∃ code, sp.table.access addr write true = .error code ∧ code.notPresent = false) := by
  obtain ⟨-, hmade⟩ := (yields_onFault h hs esp addr true write notPresent).of_ok hb
  obtain ⟨hn, hres, -⟩ := hmade rfl
  obtain ⟨sp, hsp⟩ := space?_of_book (hn.live hs)
  exact ⟨hn.sound h, sp, hsp, (hn.sound h).access_resident hsp hres write⟩

theorem onFault_protection (esp addr : Addr) (user write : Bool) :
    ∃ n, (onFault s esp addr user write false).run m = .ok false n := by
  obtain ⟨b, n, hb, -, hmade⟩ := (yields_onFault h hs esp addr user write false).value
  cases b with
  | false => exact ⟨n, hb⟩
  | true =>
      obtain ⟨-, -, hnp⟩ := hmade rfl
      cases hnp

/-- An access meets at most two faults. -/
theorem accesses (addr : Addr) (write : Bool) : ∃ k x n, Accesses s addr write m k x n ∧
    (k < 2 ∨ k = 2 ∧ ∃ e, x = .error e) := by
  obtain ⟨sp, hsp⟩ := space?_of_book hs
  cases ha : sp.table.access addr write true with
  | ok y => exact ⟨0, _, _, .found hsp ha, .inl (by omega)⟩
  | error code =>
      obtain ⟨b, n, hb, -⟩ := (yields_onFault h hs sp.savedStack addr true write code.notPresent).value
      cases b with
      | false => exact ⟨1, _, _, .refused hsp ha hb, .inl (by omega)⟩
      | true =>
          obtain ⟨hn, sn, hsn, ⟨f, t, hok⟩ | ⟨code', herr, hnp⟩⟩ := access_of_resolved h hs hb
          · exact ⟨1, _, _, .again hsp ha hb (.found hsn hok), .inl (by omega)⟩
          · have hlive : (n.view.book s).isSome := by
              rw [book_eq hsn]
              rfl
            obtain ⟨u, hu⟩ := onFault_protection hn hlive sn.savedStack addr true write
            have hrefused : Accesses s addr write n 1 (.error (.badAddress addr)) u := by
              apply Accesses.refused hsn herr
              rw [hnp]
              exact hu
            exact ⟨2, _, _, .again hsp ha hb hrefused, .inr ⟨rfl, _, rfl⟩⟩

end

end Vm

/-- What is tried again until it works comes to an end. -/
structure Settling (m : Machine) : Prop where
  pins : ∀ r p f, m.page? r = some p → p.frame = some f →
    ∃ n, (Vm.pin f r).run m = .ok true n ∧ (Vm.pinPage r.space r.va).run m = .ok (some f) n
  resolves : ∀ s, (m.space? s).isSome → ∀ esp addr write notPresent n,
    (Vm.onFault s esp addr true write notPresent).run m = .ok true n →
    ∃ sp, n.space? s = some sp ∧ ((∃ f t, sp.table.access addr write true = .ok (f, t)) ∨
      ∃ code, sp.table.access addr write true = .error code ∧ code.present = true ∧
        ∀ esp', ∃ u, (Vm.onFault s esp' addr true write code.notPresent).run n = .ok false u)
  accesses : ∀ s, (m.space? s).isSome → ∀ addr write, ∃ k ≤ 2, ∃ x n,
    (∀ j y u, Vm.Accesses s addr write m j y u ↔ j = k ∧ y = x ∧ u = n) ∧
      (Vm.frameFor s addr write 2).run m = Vm.ended x n
  ends : ∀ c : Call, (∀ s ∈ c.spaces, (m.space? s).isSome) → (c.turn m).answer ≠ .error .loop

theorem Machine.Sound.pins (h : m.Sound) (hp : m.view.page r = some p) (hf : p.frame = some f) :
    ∃ n, (Vm.pin f r).run m = .ok true n ∧ (Vm.pinPage r.space r.va).run m = .ok (some f) n := by
  have ho := h.coherent.resident hp hf
  have hheld : m.view.status f = .held := (h.coherent.held_iff f).2 (by rw [ho]; rfl)
  obtain ⟨hlive, ha, -⟩ := h.coherent.placed hp
  obtain ⟨sp, hsp⟩ := space?_of_book hlive
  obtain ⟨_, n, hn, rfl, -⟩ := (Vm.yields_pin h.consistent hheld ho).value
  refine ⟨n, hn, yields_run_eq.1 ?_⟩
  unfold Vm.pinPage
  rw [yields_bind, Vm.yields_space hsp, Space.page?, pageBase_of_aligned ha, ← page_eq hsp, hp, Option.bind_some, hf]
  exact yields_bind.2 (yields_of_ok hn (yields_pure.2 rfl))

theorem ends_turn (h : m.Sound) (hl : Charted l m.view) (hc : ∀ s ∈ c.spaces, (m.space? s).isSome) :
    (c.turn m).answer ≠ .error .loop := by
  cases c with
  | segment s hd offset addr readBytes zeroBytes w =>
      apply Call.turn_cases fun t => t.answer ≠ .error .loop
      apply (Vm.yields_addSegment h (Call.live hc (List.mem_singleton_self s)) ..).bind
      · intro _ n _
        exact yields_pure.2 nofun
      · rintro e n ⟨-, -, hloop, -⟩ heq
        exact hloop (Except.error.inj heq)
  | _ =>
      intro heq
      obtain ⟨err, herr⟩ := answers_turn h hl hc nofun _ heq
      cases herr

/-- After every call of every run, what is tried again until it works comes to an end. -/
theorem Runs.settling (h : Runs hw l m) : Settling m where
  pins r p f hp hf := h.sound.pins hp hf
  resolves s hs esp addr write notPresent n hb := by
    obtain ⟨hn, sp, hsp, hok | ⟨code, herr, hnp⟩⟩ :=
      Vm.access_of_resolved h.sound ((space?_isSome m s).symm.trans hs) hb
    · exact ⟨sp, hsp, .inl hok⟩
    · refine ⟨sp, hsp, .inr ⟨code, herr, by simpa [FaultCode.notPresent] using hnp, fun esp' => ?_⟩⟩
      rw [hnp]
      exact Vm.onFault_protection hn (by rw [book_eq hsp]; rfl) esp' addr true write
  accesses s hs addr write := by
    obtain ⟨k, x, n, ha, hk⟩ := Vm.accesses h.sound ((space?_isSome m s).symm.trans hs) addr write
    refine ⟨k, by omega, x, n, fun j y u => ⟨ha.unique, ?_⟩, ha.run_frameFor 2 hk⟩
    rintro ⟨rfl, rfl, rfl⟩
    exact ha
  ends c hc := ends_turn h.sound h.charted hc

def registerReadOnly : List Call := [.register ⟨1⟩ 0x1000 false .anon none, .newSpace]

/-- A write to a page that may only be read is refused in the end. -/
theorem write_to_readOnly_ends : ∃ k ≤ 2, ∃ n,
    Vm.Accesses ⟨1⟩ 0x1000 true (Hardware.small.machine registerReadOnly) k (.error (.badAddress 0x1000)) n := by
  have hrun : Runs .small (Hardware.small.turns registerReadOnly) (Hardware.small.machine registerReadOnly) :=
    Hardware.runs .small (by decide +kernel)
  obtain ⟨k, hk, x, n, hx, hframe⟩ := hrun.settling.accesses ⟨1⟩ (by decide +kernel) 0x1000 true
  have hend : (Vm.frameFor ⟨1⟩ 0x1000 true 2).run' (Hardware.small.machine registerReadOnly) = none := by
    decide +kernel
  have haccess := (hx k x n).2 ⟨rfl, rfl, rfl⟩
  delta EStateM.run' at hend
  rw [hframe] at hend
  cases x with
  | ok f => cases hend
  | error e =>
      obtain rfl := haccess.error_eq rfl
      exact ⟨k, hk, n, haccess⟩

end DemandPaging
