import DemandPaging.Eviction

namespace DemandPaging.Vm

open Step

def register (s : SpaceId) (va : Addr) (writable : Bool) (purpose : Purpose)
    (filling : Option Filling) : Vm Unit := do
  if isKernel va then fail (.badAddress va)
  else
    let va := pageBase va
    emit (.pageAdded s purpose va)
    let sp ← ofError ((← space s).addPage va (.lazy writable purpose filling))
    modifySpace s fun _ => sp

def runFilling (i : Filling) (page : Contents) : Vm (Reading pageSize) :=
  match i with
  | .segment b => load b page
  | .snapshot copy => pure ⟨copy, none⟩
  | .custom run => pure (run page)

def fetchPage (slot : Slot) (page : Contents) : Vm (Reading pageSize) := do
  let r ← onSwap (SwapArea.fetch slot page)
  if r.failure.isNone then emit (.slotRead slot)
  pure r

def fillPage (va : Addr) (p : Page) (page : Contents) : Vm (Reading pageSize) :=
  match p.state with
  | .untouched (some i) _ => runFilling i page
  | .untouched none (.file b) => load b page
  | .untouched none .anon | .untouched none .stack => pure ⟨Buffer.zero pageSize, none⟩
  | .anon none _ => pure ⟨page, some (.noContents va)⟩
  | .anon (some slot) _ => fetchPage slot page
  | .file b => load b page

def residentState : PageState → PageState
  | .untouched _ purpose => purpose.state
  | .anon _ stack => .anon none stack
  | .file b => .file b

def bringIn (s : SpaceId) (va : Addr) (f : FrameId) : Vm Unit := do
  let sp ← space s
  match sp.page? va with
  | none => fail (.badAddress va)
  | some p =>
      match sp.table.map va f p.writable with
      | none => fail (.badAddress va)
      | some t =>
          modifyTable s fun _ => t
          let r ← fillPage va p (← contents f)
          setContents f r.bytes
          match r.failure with
          | none =>
              modifySpace s (·.setPage va ⟨p.writable, some f, residentState p.state⟩)
              emit (.pageResident s va f)
          | some e =>
              modifyTable s (·.unmap va)
              fail e

def makeResident (s : SpaceId) (va : Addr) : Vm Unit := do
  let va := pageBase va
  match (← space s).page? va with
  | none => fail (.badAddress va)
  | some p =>
      if !p.isResident then
        let f ← acquire
        match ← attempt (bringIn s va f) with
        | .ok () => install f ⟨s, va⟩
        | .error e =>
            release f
            fail e

/-- Pins the frame of a resident page. A frame that backs another page would be asked for again
and again. -/
def pinPage (s : SpaceId) (va : Addr) : Vm (Option FrameId) := do
  match ((← space s).page? va).bind (·.frame) with
  | none => pure none
  | some f =>
      if ← pin f ⟨s, va⟩ then pure (some f)
      else throw .loop

def flush (s : SpaceId) (va : Addr) (b : Backing) (f : FrameId) : Vm Unit := do
  if (← space s).table.isDirty va then
    save b (← contents f)
    modifyTable s (·.setDirty va false)

def dismantle (s : SpaceId) (va : Addr) (p : Page) (frame : Option FrameId) :
    Vm (Except PagingError Unit) := do
  let result ←
    match p.state, frame with
    | .file b, some f => attempt (flush s va b f)
    | _, _ => pure (.ok ())
  modifyTable s (·.unmap va)
  match p.slot? with
  | some slot => onSwap (SwapArea.free slot)
  | none => pure ()
  pure result

/-- Removes the page that contains `va`, even if it cannot be written back. -/
def remove (s : SpaceId) (va : Addr) : Vm Unit := do
  let va := pageBase va
  let frame ← pinPage s va
  match (← space s).page? va with
  | none => fail (.badAddress va)
  | some p =>
      modifySpace s (·.erasePage va)
      let result ← dismantle s va p frame
      match frame with
      | some f => release f
      | none => pure ()
      emit (.pageRemoved s va)
      ofError result

def removeAll (s : SpaceId) (failed : Addr → PagingError → Event) : List Addr → Vm Unit
  | [] => pure ()
  | va :: rest => do
      match ← attempt (remove s va) with
      | .ok () => pure ()
      | .error e => emit (failed va e)
      removeAll s failed rest

def destroy (s : SpaceId) : Vm Unit := do
  removeAll s (.destroyFailed s) (← space s).pages.keys
  modifySpace s fun sp => { sp with regions := ∅, stackBottom := stackTop }

end DemandPaging.Vm
