import DemandPaging.Step

namespace DemandPaging

def PagingError.isMissing : PagingError → Bool
  | noContents _ => true
  | pageExists _ | badAddress _ | noFrame | swapFull | storage _ => false

def PagingError.isScarce : PagingError → Bool
  | noFrame | swapFull | noContents _ | storage _ => true
  | pageExists _ | badAddress _ => false

def Stop.isMissing : Stop → Bool
  | .error e => e.isMissing
  | .panic _ | .loop => false

def Stop.isScarce : Stop → Bool
  | .error e => e.isScarce
  | .panic _ | .loop => false

namespace Step

variable {σ τ α β : Type} {s : σ} {x : Step σ α} {Q Q' : α → σ → Prop} {E E' : Stop → σ → Prop}

/-- The step ends, in a value and a state of `Q` or else in a stop and a state of `E`. -/
def Yields (x : Step σ α) (s : σ) (Q : α → σ → Prop) (E : Stop → σ → Prop) : Prop :=
  match x.run s with
  | .ok a t => Q a t
  | .error e t => E e t

def Failing (P : PagingError → σ → Prop) : Stop → σ → Prop
  | .error e, s => P e s
  | .panic _, _ | .loop, _ => False

theorem Yields.mono (h : Yields x s Q E) (hQ : ∀ a t, Q a t → Q' a t) (hE : ∀ e t, E e t → E' e t) :
    Yields x s Q' E' := by
  unfold Yields at h ⊢
  split at h
  · exact hQ _ _ h
  · exact hE _ _ h

theorem Failing.mono {P : PagingError → σ → Prop} {P' : PagingError → τ → Prop} {t : τ} {e : Stop}
    (h : Failing P e s) (hP : ∀ e, P e s → P' e t) : Failing P' e t := by
  cases e with
  | error e => exact hP e h
  | panic | loop => exact h

theorem Failing.error {P : PagingError → σ → Prop} {e : Stop} (h : Failing P e s) :
    ∃ err, e = .error err ∧ P err s := by
  cases e with
  | error err => exact ⟨err, rfl, h⟩
  | panic | loop => exact h.elim

theorem yields_any : Yields x s (fun _ _ => True) fun _ _ => True := by
  unfold Yields
  split <;> trivial

theorem yields_pure {a : α} : Yields (pure a) s Q E ↔ Q a s := Iff.rfl

theorem yields_bind {f : α → Step σ β} {Q : β → σ → Prop} :
    Yields (x >>= f) s Q E ↔ Yields x s (fun a t => Yields (f a) t Q E) E := by
  unfold Yields
  rw [EStateM.run_bind]
  cases x.run s <;> rfl

theorem Yields.bind {f : α → Step σ β} {R : β → σ → Prop} (h : Yields x s Q E')
    (hQ : ∀ a t, Q a t → Yields (f a) t R E) (hE : ∀ e t, E' e t → E e t) :
    Yields (x >>= f) s R E :=
  yields_bind.2 (h.mono hQ hE)

theorem yields_fail {e : PagingError} : Yields (fail e : Step σ α) s Q E ↔ E (.error e) s := Iff.rfl

theorem yields_get {Q : σ → σ → Prop} : Yields get s Q E ↔ Q s s := Iff.rfl

theorem yields_set {t : σ} {Q : PUnit → σ → Prop} : Yields (set t) s Q E ↔ Q ⟨⟩ t := Iff.rfl

theorem yields_modify {f : σ → σ} {Q : PUnit → σ → Prop} :
    Yields (modify f) s Q E ↔ Q ⟨⟩ (f s) := Iff.rfl

theorem yields_modifyGet {f : σ → α × σ} : Yields (modifyGet f) s Q E ↔ Q (f s).1 (f s).2 := Iff.rfl

theorem yields_attempt {Q : Except PagingError α → σ → Prop} :
    Yields (attempt x) s Q E ↔ Yields x s (fun a t => Q (.ok a) t) fun e t =>
      match e with
      | .error e => Q (.error e) t
      | .panic p => E (.panic p) t
      | .loop => E .loop t := by
  unfold Yields attempt
  cases h : x.run s with
  | ok a t => simp [EStateM.run] at h ⊢; simp [h]
  | error e t => cases e <;> simp [EStateM.run] at h ⊢ <;> simp [h]

theorem Yields.attempt {P : PagingError → σ → Prop} {R : Except PagingError α → σ → Prop}
    (h : Yields x s Q (Failing P)) (hQ : ∀ a t, Q a t → R (.ok a) t)
    (hP : ∀ e t, P e t → R (.error e) t) : Yields (attempt x) s R E := by
  refine yields_attempt.2 (h.mono hQ fun e t he => ?_)
  cases e with
  | error e => exact hP e t he
  | panic | loop => exact he.elim

theorem yields_ofPanic {r : Except Panic α} :
    Yields (ofPanic r) s Q E ↔ match r with
      | .ok a => Q a s
      | .error p => E (.panic p) s := by
  cases r <;> rfl

theorem yields_ofError {r : Except PagingError α} :
    Yields (ofError r) s Q E ↔ match r with
      | .ok a => Q a s
      | .error e => E (.error e) s := by
  cases r <;> rfl

theorem yields_check {e : Option PagingError} {Q : Unit → σ → Prop} :
    Yields (check e) s Q E ↔ match e with
      | none => Q () s
      | some e => E (.error e) s := by
  cases e <;> rfl

theorem yields_zoom {get : τ → σ} {put : σ → τ → τ} {t : τ} {Q : α → τ → Prop}
    {E : Stop → τ → Prop} :
    Yields (zoom get put x) t Q E ↔
      Yields x (get t) (fun a s => Q a (put s t)) fun e s => E e (put s t) := by
  unfold Yields zoom
  cases h : x.run (get t) <;> simp [EStateM.run] at h ⊢ <;> simp [h]

theorem yields_word {n : Nat} {Q : Nat → σ → Prop} :
    Yields (word n) s Q E ↔ if n < wordLimit then Q n s else E (.panic .overflow) s := by
  unfold word
  split <;> rfl

theorem yields_minus {a b : Nat} {Q : Nat → σ → Prop} :
    Yields (minus a b) s Q E ↔ if b ≤ a then Q (a - b) s else E (.panic .underflow) s := by
  unfold minus
  split <;> rfl

theorem Yields.of_ok {a : α} {t : σ} (h : Yields x s Q E) (hx : x.run s = .ok a t) : Q a t := by
  unfold Yields at h
  rwa [hx] at h

theorem yields_of_ok {a : α} {t : σ} (hx : x.run s = .ok a t) (h : Q a t) : Yields x s Q E := by
  unfold Yields
  rwa [hx]

theorem Yields.value (h : Yields x s Q fun _ _ => False) : ∃ a t, x.run s = .ok a t ∧ Q a t := by
  unfold Yields at h
  split at h
  · exact ⟨_, _, ‹_›, h⟩
  · exact h.elim

theorem yields_run_eq {r : EStateM.Result Stop σ α} :
    Yields x s (fun a t => EStateM.Result.ok a t = r) (fun e t => EStateM.Result.error e t = r) ↔
      x.run s = r := by
  unfold Yields
  cases x.run s <;> rfl

theorem Yields.run_eq (h : Yields x s Q E) :
    Yields x s (fun a t => x.run s = .ok a t ∧ Q a t) fun e t => x.run s = .error e t ∧ E e t := by
  unfold Yields at h ⊢
  cases hx : x.run s <;> simpa [hx] using h

theorem Yields.of_error {e : Stop} {t : σ} (h : Yields x s Q E) (hx : x.run s = .error e t) : E e t := by
  unfold Yields at h
  rwa [hx] at h

def last (x : Step σ α) (s : σ) : σ :=
  match x.run s with
  | .ok _ t | .error _ t => t

def value? (x : Step σ α) (s : σ) : Option α :=
  match x.run s with
  | .ok a _ => some a
  | .error _ _ => none

theorem run_eq_ok {a : α} (h : x.value? s = some a) : x.run s = .ok a (x.last s) := by
  unfold value? at h
  unfold last
  split at h
  · rename_i hx
    cases h
    rw [hx]
  · cases h

theorem run_eq_error (h : x.value? s = none) : ∃ e, x.run s = .error e (x.last s) := by
  unfold value? at h
  unfold last
  split at h
  · cases h
  · rename_i e _ hx
    rw [hx]
    exact ⟨e, rfl⟩

theorem Yields.last {I : σ → Prop} (h : Yields x s (fun _ => I) fun _ => I) : I (x.last s) := by
  unfold Yields at h
  unfold Step.last
  split at h <;> simp_all

end Step

end DemandPaging
