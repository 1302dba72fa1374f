import DemandPaging.Residency

namespace DemandPaging

/-- Whether an access at `addr` is a use of the stack: no more than a push below the stack
pointer, and within the limit. -/
def touchesStack (addr esp : Addr) : Bool :=
  esp - stackWord ≤ addr && stackLimit ≤ addr && addr < stackTop

namespace Vm

open Step

def addStackPage (s : SpaceId) (va : Addr) (undone : Addr → PagingError → Event) : Vm Unit := do
  register s va true .stack none
  match ← attempt (makeResident s va) with
  | .ok () => pure ()
  | .error e =>
      removeAll s undone [va]
      fail e

def extendStack (s : SpaceId) : (n : Nat) → Vm Unit
  | 0 => pure ()
  | n + 1 => do
      let va ← minus (← space s).stackBottom pageSize
      addStackPage s va (.growthRollback s)
      modifySpace s fun sp => { sp with stackBottom := va }
      emit (.stackGrown s va)
      extendStack s n

def startStack (s : SpaceId) : Vm Addr := do
  let va := stackTop - pageSize
  addStackPage s va (.stackRollback s)
  modifySpace s fun sp => { sp with stackBottom := va, savedStack := stackTop }
  pure stackTop

end Vm

end DemandPaging
