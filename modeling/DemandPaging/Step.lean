import DemandPaging.Buffer
import DemandPaging.Error

namespace DemandPaging

/-- Why a step gave no value. A `loop` is a retry that would meet the same state again. -/
inductive Stop
  | error (e : PagingError)
  | panic (p : Panic)
  | loop

/-- A step on a state. What it changed before it stopped stays changed. -/
abbrev Step (σ α : Type) := EStateM Stop σ α

structure Reading (n : Nat) where
  bytes : Buffer n
  failure : Option PagingError

namespace Step

variable {σ τ α : Type}

def fail (e : PagingError) : Step σ α := throw (.error e)

def panic (p : Panic) : Step σ α := throw (.panic p)

/-- Hands an error to the caller as a value. A broken rule still stops the caller too. -/
def attempt (x : Step σ α) : Step σ (Except PagingError α) := fun s =>
  match x.run s with
  | .ok a s => .ok (.ok a) s
  | .error (.error e) s => .ok (.error e) s
  | .error (.panic p) s => .error (.panic p) s
  | .error .loop s => .error .loop s

def ofPanic : Except Panic α → Step σ α
  | .ok a => pure a
  | .error p => panic p

def ofError : Except PagingError α → Step σ α
  | .ok a => pure a
  | .error e => fail e

def check : Option PagingError → Step σ Unit
  | none => pure ()
  | some e => fail e

def zoom (get : τ → σ) (put : σ → τ → τ) (x : Step σ α) : Step τ α := fun t =>
  match x.run (get t) with
  | .ok a s => .ok a (put s t)
  | .error e s => .error e (put s t)

def word (n : Nat) : Step σ Nat := if n < wordLimit then pure n else panic .overflow

def minus (a b : Nat) : Step σ Nat := if b ≤ a then pure (a - b) else panic .underflow

end Step

end DemandPaging
