import DemandPaging.Stack

namespace DemandPaging.Vm

open Step

/-- Resolves a fault at `addr`: makes the page there resident, or extends the stack down to it.
The kernel's own stack pointer says nothing about the user's. -/
def resolveFault (s : SpaceId) (esp addr : Addr) (user write notPresent : Bool) : Vm Unit := do
  emit (.faulted s addr write)
  if user && isKernel addr then fail (.badAddress addr)
  else if !notPresent then fail (.badAddress addr)
  else
    let sp ← space s
    if (sp.page? addr).isSome then makeResident s addr
    else
      let esp := if isKernel esp then sp.savedStack else esp
      if touchesStack addr esp then
        extendStack s (pagesFor (sp.stackBottom - pageBase addr))
        makeResident s addr
      else fail (.badAddress addr)

def onFault (s : SpaceId) (esp addr : Addr) (user write notPresent : Bool) : Vm Bool := do
  match ← attempt (resolveFault s esp addr user write notPresent) with
  | .ok () => pure true
  | .error e =>
      emit (.faultUnresolved s addr user write notPresent e)
      pure false

def onPageFault (s : SpaceId) (esp addr : Addr) (code : FaultCode) : Vm Bool :=
  onFault s esp addr code.user code.write code.notPresent

end DemandPaging.Vm
