import DemandPaging.Error

namespace DemandPaging

structure Lock where
  value : Int
  held : Bool := false

namespace Lock

def tryLock (l : Lock) : Option Lock := if l.held then none else some { l with held := true }

def unlock (l : Lock) : Lock := { l with held := false }

def peek (l : Lock) : Option Int := l.tryLock.map (·.value)

def add (l : Lock) (n : Int) : Except Panic Lock :=
  if -0x8000000000000000 ≤ l.value + n ∧ l.value + n < 0x8000000000000000 then .ok { l with value := l.value + n }
  else .error .overflow

def flipLowBit (l : Lock) : Lock :=
  ⟨if l.value % 2 = 0 then l.value + 1 else l.value - 1, false⟩

def debugText (l : Lock) : String :=
  match l.peek with
  | some v => s!"Mutex \x7b data: {v} \x7d"
  | none => "Mutex \x7b <locked> \x7d"

def prettyText (l : Lock) : String :=
  match l.peek with
  | some v => s!"Mutex \x7b\n    data: {v},\n\x7d"
  | none => "Mutex \x7b <locked> \x7d"

end Lock

end DemandPaging
