import DemandPaging.Proofs.Forked
import Mathlib.Data.List.Rotate

namespace DemandPaging

open Step

namespace Clock

variable {m : Type → Type} [Monad m] {σ : Type}

/-- At most `n` steps of a sweep that is done in place: the frame in front leaves the list, and goes to the back if it
was referenced. -/
def turn (referenced : FrameId → m Bool) : Nat → List FrameId → m (Option FrameId × List FrameId)
  | 0, l => pure (none, l)
  | _ + 1, [] => pure (none, [])
  | n + 1, f :: l => do
      if ← referenced f then turn referenced n (l ++ [f])
      else pure (some f, l)

/-- The frames that were spared are at the back when the rest of the list is gone through. -/
theorem turn_eq_sweep (referenced : FrameId → m Bool) (spared l : List FrameId) :
    turn referenced l.length (l ++ spared.reverse) = sweep referenced spared l := by
  induction l generalizing spared with
  | nil => rfl
  | cons f l ih =>
      have hback : l ++ spared.reverse ++ [f] = l ++ (f :: spared).reverse := by simp
      simp only [List.length_cons, List.cons_append, turn, sweep, hback, ih]

theorem turn_eq_choose (referenced : FrameId → m Bool) (l : List FrameId) :
    turn referenced l.length l = choose referenced l := by
  simpa [choose] using turn_eq_sweep referenced [] l

variable {ask : FrameId → StateM σ Bool} {s : σ} {l : List FrameId}

def answers (ask : FrameId → StateM σ Bool) (s : σ) : List FrameId → List Bool
  | [] => []
  | f :: l => ((ask f).run s).1 :: answers ask ((ask f).run s).2 l

def after (ask : FrameId → StateM σ Bool) (s : σ) (l : List FrameId) : σ := l.foldl (fun s f => ((ask f).run s).2) s

def told (ask : FrameId → StateM σ Bool) (f : FrameId) : StateM (σ × List FrameId) Bool := fun (s, asked) =>
  (((ask f).run s).1, ((ask f).run s).2, asked ++ [f])

/-- What a sweep over `l` comes to: the victim and the frames that are left, the state of the callback, and the frames
that it was asked about. -/
inductive Sweeps (ask : FrameId → StateM σ Bool) (s : σ) (l : List FrameId) :
    (Option FrameId × List FrameId) × σ × List FrameId → Prop
  | stopped (i : Nat) (hi : i < l.length) (hspared : ∀ j < i, (answers ask s l)[j]? = some true)
      (hvictim : (answers ask s l)[i]? = some false) :
      Sweeps ask s l ((some l[i], l.drop (i + 1) ++ l.take i), after ask s (l.take (i + 1)), l.take i ++ [l[i]])
  | passed (hspared : ∀ b ∈ answers ask s l, b = true) : Sweeps ask s l ((none, l), after ask s l, l)

theorem run_told (ask : FrameId → StateM σ Bool) (f : FrameId) (s : σ) (asked : List FrameId) :
    (told ask f).run (s, asked) = (((ask f).run s).1, ((ask f).run s).2, asked ++ [f]) := rfl

theorem run_sweep_cons (ask : FrameId → StateM σ Bool) (f : FrameId) (spared l : List FrameId) (s : σ) :
    (sweep ask spared (f :: l)).run s =
      if ((ask f).run s).1 then (sweep ask (f :: spared) l).run ((ask f).run s).2
      else ((some f, l ++ spared.reverse), ((ask f).run s).2) := by
  change (if ((ask f).run s).1 then sweep ask (f :: spared) l else pure (some f, l ++ spared.reverse)).run
    ((ask f).run s).2 = _
  cases ((ask f).run s).1 <;> rfl

theorem run_sweep_told (ask : FrameId → StateM σ Bool) (spared l : List FrameId) (s : σ) (asked : List FrameId) :
    (sweep ask spared l).run s =
      (((sweep (told ask) spared l).run (s, asked)).1, ((sweep (told ask) spared l).run (s, asked)).2.1) := by
  induction l generalizing spared s asked with
  | nil => rfl
  | cons f l ih =>
      rw [run_sweep_cons, run_sweep_cons, run_told]
      cases ((ask f).run s).1 with
      | false => rfl
      | true => exact ih (f :: spared) _ _

/-- The frames in `spared` were asked about before those in `l`, and are behind them. -/
theorem sweeps_told (ask : FrameId → StateM σ Bool) (spared l : List FrameId) (s : σ) (asked : List FrameId) :
    (∃ i, ∃ hi : i < l.length, (∀ j < i, (answers ask s l)[j]? = some true) ∧ (answers ask s l)[i]? = some false ∧
        (sweep (told ask) spared l).run (s, asked) = ((some l[i], l.drop (i + 1) ++ spared.reverse ++ l.take i),
          after ask s (l.take (i + 1)), asked ++ l.take (i + 1))) ∨
      (∀ b ∈ answers ask s l, b = true) ∧
        (sweep (told ask) spared l).run (s, asked) = ((none, spared.reverse ++ l), after ask s l, asked ++ l) := by
  induction l generalizing spared s asked with
  | nil =>
      refine .inr ⟨by simp [answers], ?_⟩
      rw [List.append_nil, List.append_nil]
      rfl
  | cons f l ih =>
      rw [run_sweep_cons, run_told]
      cases hb : ((ask f).run s).1 with
      | false =>
          refine .inl ⟨0, by simp, fun j hj => absurd hj (Nat.not_lt_zero j), by simp [answers, hb], ?_⟩
          simp [after]
      | true =>
          rcases ih (f :: spared) ((ask f).run s).2 (asked ++ [f]) with
            ⟨i, hi, hspared, hvictim, hrun⟩ | ⟨hspared, hrun⟩
          · refine .inl ⟨i + 1, Nat.succ_lt_succ hi, fun j hj => ?_, hvictim, ?_⟩
            · cases j with
              | zero => simp [answers, hb]
              | succ j => exact hspared j (Nat.lt_of_succ_lt_succ hj)
            · simpa [after] using hrun
          · refine .inr ⟨?_, by simpa [after] using hrun⟩
            simpa [answers, hb] using hspared

theorem sweeps_choose (ask : FrameId → StateM σ Bool) (s : σ) (l : List FrameId) :
    Sweeps ask s l ((choose (told ask) l).run (s, [])) := by
  rcases sweeps_told ask [] l s [] with ⟨i, hi, hspared, hvictim, hrun⟩ | ⟨hspared, hrun⟩
  · have hasked : l.take (i + 1) = l.take i ++ [l[i]] := List.take_succ_eq_append_getElem hi
    rw [List.reverse_nil, List.append_nil, List.nil_append] at hrun
    rw [choose, hrun]
    nth_rewrite 2 [hasked]
    exact .stopped i hi hspared hvictim
  · rw [List.reverse_nil, List.nil_append] at hrun
    rw [choose, hrun]
    exact .passed hspared

/-- The victim, if there is one, and the frames that are left are the list, turned. -/
theorem Sweeps.isRotated {victim : Option FrameId} {left asked : List FrameId} {t : σ}
    (h : Sweeps ask s l ((victim, left), t, asked)) : l.IsRotated (victim.toList ++ left) := by
  cases h with
  | stopped i hi =>
      have hparts : l.take i ++ l[i] :: l.drop (i + 1) = l := by
        rw [List.getElem_cons_drop, List.take_append_drop]
      have hturned : (l.take i ++ l[i] :: l.drop (i + 1)).IsRotated (l[i] :: l.drop (i + 1) ++ l.take i) :=
        List.isRotated_append
      rwa [hparts] at hturned
  | passed => exact .refl _

theorem yields_sweep_none {τ : Type} (referenced : FrameId → Step τ Bool) (spared l : List FrameId) (s : τ) :
    Yields (sweep referenced spared l) s (fun c _ => c.1 = none → c.2 = spared.reverse ++ l) fun _ _ => True := by
  induction l generalizing spared s with
  | nil => exact yields_pure.2 fun _ => (List.append_nil _).symm
  | cons f l ih =>
      refine yields_any.bind (fun b t _ => ?_) fun _ _ => id
      cases b with
      | false => exact yields_pure.2 nofun
      | true => simpa using ih (f :: spared) t

def takeOldest (l : List FrameId) (m : Machine) : EStateM.Result Stop Machine FrameId :=
  match l with
  | [] => .error (.error .noFrame) m
  | f :: rest => .ok f { m with frames := { m.frames with clock := rest } }

theorem run_takeVictim_of_none {m n : Machine} {left : List FrameId}
    (h : (choose Vm.wasReferenced m.frames.clock).run m = .ok (none, left) n) :
    left = m.frames.clock ∧ Vm.takeVictim.run m = takeOldest m.frames.clock n := by
  have hleft : left = m.frames.clock := (yields_sweep_none _ [] m.frames.clock m).of_ok h rfl
  subst hleft
  refine ⟨rfl, ?_⟩
  rw [← yields_run_eq]
  unfold Vm.takeVictim
  rw [yields_bind, yields_get, yields_bind]
  refine yields_of_ok h ?_
  cases m.frames.clock <;> rfl

/-- What is true of one sweep over a list, whose callback starts in state `s`. -/
structure OneSweep (ask : FrameId → StateM σ Bool) (s : σ) (l : List FrameId) : Prop where
  sweeps : Sweeps ask s l ((choose (told ask) l).run (s, []))
  untold : (choose ask l).run s =
    (((choose (told ask) l).run (s, [])).1, ((choose (told ask) l).run (s, [])).2.1)
  in_place : turn ask l.length l = choose ask l
  isRotated : ∀ victim left t, (choose ask l).run s = ((victim, left), t) → l.IsRotated (victim.toList ++ left)

/-- The frames of a list are asked about in order, up to the first that was not referenced: it is the victim, and those
before it are behind those after it. If there is none, the list is as before, and whoever swept it takes the oldest. -/
theorem one_sweep (ask : FrameId → StateM σ Bool) (s : σ) (l : List FrameId) : OneSweep ask s l ∧
    ∀ (m n : Machine) (left : List FrameId),
      (choose Vm.wasReferenced m.frames.clock).run m = .ok (none, left) n →
        left = m.frames.clock ∧ Vm.takeVictim.run m = takeOldest m.frames.clock n := by
  have huntold := run_sweep_told ask [] l s []
  have hsweeps := sweeps_choose ask s l
  refine ⟨⟨hsweeps, huntold, turn_eq_choose ask l, fun victim left t hrun => ?_⟩,
    fun m n left => run_takeVictim_of_none⟩
  rw [choose, huntold] at hrun
  rw [choose] at hsweeps
  generalize (sweep (told ask) [] l).run (s, []) = r at hrun hsweeps
  obtain ⟨⟨victim', left'⟩, t', asked⟩ := r
  cases hrun
  exact hsweeps.isRotated

def bothRead : Machine := Hardware.pair.machine
  [.read ⟨1⟩ 0x2000 1, .read ⟨1⟩ 0x1000 1, .register ⟨1⟩ 0x2000 true .anon none, .register ⟨1⟩ 0x1000 true .anon none,
    .newSpace]

/-- Both are spared, and the one that was filled first is taken. -/
theorem one_sweep_both_read : ∃ n,
    (choose Vm.wasReferenced bothRead.frames.clock).run bothRead = .ok (none, [⟨0⟩, ⟨1⟩]) n ∧
      Vm.takeVictim.run bothRead = .ok ⟨0⟩ { n with frames := { n.frames with clock := [⟨1⟩] } } := by
  have hclock : bothRead.frames.clock = [⟨0⟩, ⟨1⟩] := by decide +kernel
  have hvalue : ((choose Vm.wasReferenced bothRead.frames.clock).value? bothRead ==
      some (none, [⟨0⟩, ⟨1⟩])) = true := by
    decide +kernel
  obtain ⟨n, hrun⟩ : ∃ n, (choose Vm.wasReferenced bothRead.frames.clock).run bothRead = .ok (none, [⟨0⟩, ⟨1⟩]) n :=
    ⟨_, run_eq_ok (eq_of_beq hvalue)⟩
  have htaken := ((one_sweep (fun _ => pure true) () []).2 _ _ _ hrun).2
  rw [hclock, takeOldest] at htaken
  exact ⟨n, hrun, htaken⟩

/-- A frame that is on the list twice is asked about twice. Who is asked may change the answers: here only the first two
questions are answered with yes. -/
example : (choose (told fun _ => do modifyGet fun n => (n != 0, n - 1)) [⟨7⟩, ⟨7⟩, ⟨7⟩, ⟨8⟩]).run (2, []) =
    ((some ⟨7⟩, [⟨8⟩, ⟨7⟩, ⟨7⟩]), 0, [⟨7⟩, ⟨7⟩, ⟨7⟩]) :=
  rfl

end Clock

end DemandPaging
