import DemandPaging.Proofs.Keeping

namespace DemandPaging

namespace Step

variable {σ τ α β : Type} {s t : σ} {x y : Step σ α} {Q Q' : α → α → σ → σ → Prop} {E E' : Stop → σ → σ → Prop}

/-- Two steps end alike: both in a value, with values and states of `Q`, or both in the same stop, with states
of `E`. -/
def Twins (x y : Step σ α) (s t : σ) (Q : α → α → σ → σ → Prop) (E : Stop → σ → σ → Prop) : Prop :=
  match x.run s, y.run t with
  | .ok a s, .ok b t => Q a b s t
  | .error e s, .error e' t => e' = e ∧ E e s t
  | .ok _ _, .error _ _ | .error _ _, .ok _ _ => False

theorem Twins.mono (h : Twins x y s t Q E) (hQ : ∀ a b s t, Q a b s t → Q' a b s t)
    (hE : ∀ e s t, E e s t → E' e s t) : Twins x y s t Q' E' := by
  unfold Twins at h ⊢
  split at h
  · exact hQ _ _ _ _ h
  · exact ⟨h.1, hE _ _ _ h.2⟩
  · exact h.elim
  · exact h.elim

theorem twins_pure {a b : α} : Twins (pure a) (pure b) s t Q E ↔ Q a b s t := Iff.rfl

theorem twins_throw {e : Stop} : Twins (throw e : Step σ α) (throw e) s t Q E ↔ E e s t :=
  ⟨fun h => h.2, fun h => ⟨rfl, h⟩⟩

theorem twins_fail {e : PagingError} : Twins (fail e : Step σ α) (fail e) s t Q E ↔ E (.error e) s t := twins_throw

theorem twins_bind {f g : α → Step σ β} {R : β → β → σ → σ → Prop}
    (h : Twins x y s t (fun a b s t => Twins (f a) (g b) s t R E) E) : Twins (x >>= f) (y >>= g) s t R E := by
  unfold Twins at h ⊢
  rw [EStateM.run_bind, EStateM.run_bind]
  cases hx : x.run s <;> cases hy : y.run t <;> rw [hx, hy] at h
  · exact h
  · exact h.elim
  · exact h.elim
  · exact h

theorem Twins.bind {f g : α → Step σ β} {R : β → β → σ → σ → Prop} (h : Twins x y s t Q E')
    (hQ : ∀ a b s t, Q a b s t → Twins (f a) (g b) s t R E) (hE : ∀ e s t, E' e s t → E e s t) :
    Twins (x >>= f) (y >>= g) s t R E :=
  twins_bind (h.mono hQ hE)

theorem twins_get_bind {f g : σ → Step σ β} {R : β → β → σ → σ → Prop} :
    Twins (get >>= f) (get >>= g) s t R E ↔ Twins (f s) (g t) s t R E := Iff.rfl

theorem twins_set {u v : σ} {Q : PUnit → PUnit → σ → σ → Prop} :
    Twins (set u) (set v) s t Q E ↔ Q ⟨⟩ ⟨⟩ u v := Iff.rfl

theorem twins_modify {f g : σ → σ} {Q : PUnit → PUnit → σ → σ → Prop} :
    Twins (modify f) (modify g) s t Q E ↔ Q ⟨⟩ ⟨⟩ (f s) (g t) := Iff.rfl

theorem twins_modifyGet {f g : σ → α × σ} :
    Twins (modifyGet f) (modifyGet g) s t Q E ↔ Q (f s).1 (g t).1 (f s).2 (g t).2 := Iff.rfl

theorem twins_ofPanic {r : Except Panic α} :
    Twins (ofPanic r) (ofPanic r) s t Q E ↔ match r with
      | .ok a => Q a a s t
      | .error p => E (.panic p) s t := by
  cases r with
  | ok a => exact Iff.rfl
  | error p => exact twins_throw

theorem twins_check {e : Option PagingError} {Q : Unit → Unit → σ → σ → Prop} :
    Twins (check e) (check e) s t Q E ↔ match e with
      | none => Q () () s t
      | some e => E (.error e) s t := by
  cases e with
  | none => exact Iff.rfl
  | some e => exact twins_throw

theorem twins_word {k : Nat} {Q : Nat → Nat → σ → σ → Prop} :
    Twins (word k) (word k) s t Q E ↔ if k < wordLimit then Q k k s t else E (.panic .overflow) s t := by
  unfold word
  split
  · exact Iff.rfl
  · exact twins_throw

theorem twins_attempt {Q : Except PagingError α → Except PagingError α → σ → σ → Prop}
    (h : Twins x y s t (fun a b s t => Q (.ok a) (.ok b) s t) fun e s t =>
      match e with
      | .error e => Q (.error e) (.error e) s t
      | .panic p => E (.panic p) s t
      | .loop => E .loop s t) : Twins (attempt x) (attempt y) s t Q E := by
  unfold Twins at h ⊢
  unfold attempt
  simp only [EStateM.run] at h ⊢
  cases hx : x s <;> cases hy : y t <;> rw [hx, hy] at h
  · exact h
  · exact h.elim
  · exact h.elim
  · obtain ⟨rfl, h⟩ := h
    rename_i e _
    cases e with
    | error e => exact h
    | panic | loop => exact ⟨rfl, h⟩

theorem twins_zoom {get : τ → σ} {put : σ → τ → τ} {t t' : τ} {Q : α → α → τ → τ → Prop}
    {E : Stop → τ → τ → Prop}
    (h : Twins x y (get t) (get t') (fun a b s s' => Q a b (put s t) (put s' t'))
      fun e s s' => E e (put s t) (put s' t')) : Twins (zoom get put x) (zoom get put y) t t' Q E := by
  unfold Twins at h ⊢
  unfold zoom
  simp only [EStateM.run] at h ⊢
  cases hx : x (get t) <;> cases hy : y (get t') <;> rw [hx, hy] at h <;> exact h

theorem Twins.attempt {I : σ → σ → Prop} (h : Twins x y s t (fun a b s t => b = a ∧ I s t) fun _ => I) :
    Twins (attempt x) (attempt y) s t (fun a b s t => b = a ∧ I s t) fun _ => I := by
  refine twins_attempt (h.mono ?_ fun e s t hst => ?_)
  · rintro _ _ s t ⟨rfl, hst⟩
    exact ⟨rfl, hst⟩
  · cases e with
    | error e => exact ⟨rfl, hst⟩
    | panic | loop => exact hst

theorem Twins.and {P P' : α → σ → Prop} {F F' : Stop → σ → Prop} (h : Twins x y s t Q E) (hx : Yields x s P F)
    (hy : Yields y t P' F') :
    Twins x y s t (fun a b s t => Q a b s t ∧ P a s ∧ P' b t) fun e s t => E e s t ∧ F e s ∧ F' e t := by
  unfold Twins at h ⊢
  unfold Yields at hx hy
  cases hrx : x.run s <;> cases hry : y.run t <;> rw [hrx] at hx h <;> rw [hry] at hy h
  · exact ⟨h, hx, hy⟩
  · exact h.elim
  · exact h.elim
  · obtain ⟨rfl, h⟩ := h
    exact ⟨rfl, h, hx, hy⟩

structure Respects (R : σ → σ → Prop) (x : Step σ α) : Prop where
  twins : ∀ s t, R s t → Twins x x s t (fun a b s t => b = a ∧ R s t) fun _ => R

variable {R : σ → σ → Prop}

theorem Respects.bind {f : α → Step σ β} (hx : Respects R x) (hf : ∀ a, Respects R (f a)) : Respects R (x >>= f) := by
  constructor
  intro s t hst
  refine (hx.twins s t hst).bind ?_ fun _ _ _ => id
  rintro _ a s t ⟨rfl, hst⟩
  exact (hf a).twins s t hst

theorem Respects.attempt (hx : Respects R x) : Respects R (attempt x) := ⟨fun s t hst => (hx.twins s t hst).attempt⟩

theorem respects_pure (a : α) : Respects R (pure a : Step σ α) := ⟨fun _ _ h => ⟨rfl, h⟩⟩

theorem respects_throw (e : Stop) : Respects R (throw e : Step σ α) := ⟨fun _ _ h => ⟨rfl, h⟩⟩

end Step

namespace Vm

open Step

theorem respects_modular (R : Machine → Machine → Prop) : Modular fun _ => Respects R where
  pure := respects_pure
  throw := respects_throw
  bind := Respects.bind
  attempt := Respects.attempt

end Vm

end DemandPaging
