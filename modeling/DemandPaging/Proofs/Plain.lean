import DemandPaging.Mapping
import DemandPaging.Segment
import DemandPaging.Proofs.Outcome

namespace DemandPaging

namespace Step

variable {σ τ α β : Type} {x : Step σ α}

structure Plain (x : Step σ α) : Prop where
  yields : ∀ s, Yields x s (fun _ _ => True) fun e _ => e.isScarce = false

theorem plain_pure (a : α) : Plain (pure a : Step σ α) := ⟨fun _ => trivial⟩

theorem plain_fail {e : PagingError} (he : e.isScarce = false) : Plain (fail e : Step σ α) := ⟨fun _ => he⟩

theorem plain_panic (p : Panic) : Plain (panic p : Step σ α) := ⟨fun _ => rfl⟩

theorem plain_modify (f : σ → σ) : Plain (modify f : Step σ PUnit) := ⟨fun _ => trivial⟩

theorem plain_modifyGet (f : σ → α × σ) : Plain (modifyGet f : Step σ α) := ⟨fun _ => trivial⟩

theorem plain_get : Plain (get : Step σ σ) := ⟨fun _ => trivial⟩

theorem Plain.bind {f : α → Step σ β} (hx : Plain x) (hf : ∀ a, Plain (f a)) : Plain (x >>= f) := by
  constructor
  intro s
  exact yields_bind.2 ((hx.yields s).mono (fun a t _ => (hf a).yields t) fun _ _ => id)

theorem plain_attempt (x : Step σ α) : Plain (attempt x) := by
  constructor
  intro s
  apply yields_attempt.2
  unfold Yields
  cases x.run s with
  | ok a t => trivial
  | error e t =>
      cases e with
      | error e => trivial
      | panic | loop => rfl

theorem plain_word (n : Nat) : Plain (word n : Step σ Nat) := by
  unfold word
  split
  · exact plain_pure _
  · exact plain_panic _

theorem plain_minus (a b : Nat) : Plain (minus a b : Step σ Nat) := by
  unfold minus
  split
  · exact plain_pure _
  · exact plain_panic _

end Step

namespace Vm

open Step

theorem plain_space (s : SpaceId) : Plain (space s) := by
  apply plain_get.bind
  intro m
  split
  · exact plain_pure _
  · exact plain_panic _

theorem plain_register (s : SpaceId) (va : Addr) (w : Bool) (purpose : Purpose) (filling : Option Filling) :
    Plain (register s va w purpose filling) := by
  unfold register
  split
  · exact plain_fail rfl
  · refine (plain_modify _).bind fun _ => (plain_space s).bind fun sp => Plain.bind ?_ fun _ => plain_modify _
    unfold Space.addPage
    split
    · exact plain_fail rfl
    · exact plain_pure _

theorem plain_removeAll (s : SpaceId) (failed : Addr → PagingError → Event) (l : List Addr) :
    Plain (removeAll s failed l) := by
  induction l with
  | nil => exact plain_pure _
  | cons va rest ih =>
      apply (plain_attempt _).bind
      intro r
      split
      · exact ih
      · exact (plain_modify _).bind fun _ => ih

theorem plain_destroy (s : SpaceId) : Plain (destroy s) :=
  (plain_space s).bind fun _ => (plain_removeAll ..).bind fun _ => plain_modify _

/-- The only errors of a mapping are those of registering its pages. -/
theorem plain_addMapping (s : SpaceId) (addr len : Nat) (w : Bool) (hd : Handle) (offset : Nat) :
    Plain (addMapping s addr len w hd offset) := by
  have hmap (hd : Handle) (fileLen n : Nat) : ∀ i, Plain (mapPages s addr len w hd offset fileLen n i) := by
    induction n with
    | zero => exact fun _ => plain_pure _
    | succ n ih =>
        intro i
        refine (plain_word _).bind fun va => (plain_word _).bind fun start => (plain_minus _ _).bind fun left => ?_
        constructor
        intro m
        refine yields_bind.2 (yields_attempt.2 (((plain_register ..).yields m).mono ?_ ?_))
        · exact fun _ n _ => (ih _).yields n
        · intro e n he
          cases e with
          | error e => exact ((plain_removeAll ..).bind fun _ => plain_fail he).yields n
          | panic | loop => exact he
  unfold addMapping
  split
  · apply Plain.bind (x := fileLength hd) ⟨fun _ => trivial⟩
    intro fileLen
    split
    · exact plain_fail rfl
    · exact (plain_modifyGet _).bind fun hd' => (hmap hd' fileLen _ 0).bind fun _ =>
        (plain_modify _).bind fun _ => (plain_modify _).bind fun _ => plain_pure _
  · exact plain_fail rfl

theorem plain_removeMapping (s : SpaceId) (addr : Addr) : Plain (removeMapping s addr) := by
  apply (plain_space s).bind
  intro sp
  split
  · exact plain_pure _
  · exact (plain_modify _).bind fun _ => (plain_word _).bind fun _ =>
      (plain_removeAll ..).bind fun _ => plain_modify _

theorem plain_addSegment (s : SpaceId) (hd : Handle) (offset addr readBytes zeroBytes : Nat) (w : Bool) :
    Plain (addSegment s hd offset addr readBytes zeroBytes w) := by
  have hpages (n : Nat) : ∀ i left, Plain (segmentPages s hd offset addr w n i left) := by
    induction n with
    | zero => exact fun _ _ => plain_pure _
    | succ n ih =>
        intro i left
        exact (plain_word _).bind fun start => (plain_word _).bind fun va => (plain_register ..).bind fun _ => ih ..
  unfold addSegment
  dsimp only
  split
  · exact (hpages ..).bind fun _ => plain_modify _
  · exact plain_fail rfl

end Vm

end DemandPaging
