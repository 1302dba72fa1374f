import DemandPaging.Clock
import DemandPaging.Machine

namespace DemandPaging.Vm

open Step

def storePage (page : Contents) : Vm Slot := do
  let slot ← onSwap (SwapArea.store page)
  emit (.slotWritten slot)
  pure slot

def remap (s : SpaceId) (va : Addr) (f : FrameId) (writable : Bool) : Vm Unit :=
  modifyTable s fun t => (t.map va f writable).getD t

/-- Unmaps a page and saves what is in its frame; the result is the page's state from then on. A
page that cannot be saved is mapped again. -/
def savePage (s : SpaceId) (va : Addr) (p : Page) (f : FrameId) : Vm PageState := do
  let dirty := (← space s).table.isDirty va
  modifyTable s (·.unmap va)
  match p.state with
  | .untouched _ _ => pure p.state
  | .anon _ stack =>
      match ← attempt (storePage (← contents f)) with
      | .ok slot => pure (.anon (some slot) stack)
      | .error e =>
          remap s va f p.writable
          fail e
  | .file b =>
      if dirty then
        match ← attempt (save b (← contents f)) with
        | .ok () => pure p.state
        | .error e =>
            remap s va f p.writable
            modifyTable s (·.setDirty va true)
            fail e
      else pure p.state

def vacate (s : SpaceId) (va : Addr) (f : FrameId) : Vm Unit := do
  let sp ← space s
  match (sp.page? va).filter (·.frame = some f) with
  | some p =>
      let state ← savePage s (pageBase va) p f
      modifySpace s (·.setPage va { p with frame := none, state := state })
  | none =>
      emit (.notFrameOf s f va)
      if sp.table.lookup va = some f then modifyTable s (·.unmap va)

/-- Reads and clears the accessed bit of an owner's page. The pages of a space that is gone were
not accessed. -/
def testAccessed (o : Owner) : Vm Bool := do
  let s := o.link.space
  match (← get).space? s with
  | none => pure false
  | some sp =>
      let accessed := sp.table.isAccessed o.va
      if accessed then modifyTable s (·.setAccessed o.va false)
      pure accessed

def wasReferenced (f : FrameId) : Vm Bool := do
  match ← ofPanic ((← get).frames.binding f) with
  | none => pure false
  | some o =>
      let accessed ← testAccessed o
      if accessed then emit (.frameSpared f)
      pure accessed

/-- Takes the frame to be reclaimed off the clock: the first that was not referenced, or else the
oldest. -/
def takeVictim : Vm FrameId := do
  let (victim, rest) ← Clock.choose wasReferenced (← get).frames.clock
  match victim, rest with
  | some f, rest =>
      modify fun m => { m with frames := { m.frames with clock := rest } }
      pure f
  | none, f :: rest =>
      modify fun m => { m with frames := { m.frames with clock := rest } }
      pure f
  | none, [] => fail .noFrame

/-- Saves the page that a frame taken off the clock backs, if its space is still there. A page
that cannot be saved keeps the frame, which is then the oldest. -/
def saveVictim (f : FrameId) (o : Owner) : Vm Unit := do
  if ((← get).space? o.link.space).isSome then
    match ← attempt (vacate o.link.space o.va f) with
    | .ok () => pure ()
    | .error e =>
        emit (.evictionFailed o.va f e)
        modifyFrames (·.reinstate f o)
        fail e

def evict : Vm FrameId := do
  let f ← takeVictim
  let owner ← ofPanic ((← get).frames.binding f)
  modifyFrames (·.setOwner f none)
  match owner with
  | none => emit (.frameWithoutOwner f)
  | some o =>
      saveVictim f o
      emit (.evicted o.va o.link.id f)
  modifyFrames (·.setPinned f true)
  pure f

def acquire : Vm FrameId := do
  let m ← get
  let f ←
    match ← ofPanic m.frames.pool.checkedTake with
    | some (f, pool) =>
        set { m with frames := { m.frames with pool := pool } }
        pure f
    | none => evict
  setContents f (Buffer.zero pageSize)
  emit (.frameAcquired f)
  pure f

def install (f : FrameId) (o : Owner) : Vm Unit := modifyFrames (·.install f o)

def pin (f : FrameId) (r : PageRef) : Vm Bool := do
  match ← ofPanic ((← get).frames.pin f r) with
  | some frames =>
      modify fun m => { m with frames := frames }
      pure true
  | none => pure false

def release (f : FrameId) : Vm Unit := do
  modifyFrames (·.release f)
  emit (.frameReleased f)

end DemandPaging.Vm
