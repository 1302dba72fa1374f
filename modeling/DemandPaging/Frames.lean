import DemandPaging.Buffer
import DemandPaging.FramePool

namespace DemandPaging

structure PageRef where
  space : SpaceId
  va : Addr
deriving DecidableEq

/-- A space as its frames know it: the space itself, which may be gone, and the number it says it has. -/
structure SpaceLink where
  space : SpaceId
  id : SpaceId
deriving DecidableEq

instance : Coe SpaceId SpaceLink := ⟨fun s => ⟨s, s⟩⟩

structure Owner where
  link : SpaceLink
  va : Addr
deriving DecidableEq

instance : Coe PageRef Owner := ⟨fun r => ⟨r.space, r.va⟩⟩

def Owner.page (o : Owner) : PageRef := ⟨o.link.id, o.va⟩

/-- A frame is free, pinned by whoever fills or empties it, or installed: owned by a page and on
the clock, oldest first. -/
structure Frames where
  pool : FramePool
  owners : Array (Option Owner)
  clock : List FrameId
  memory : Array Contents

namespace Frames

def ofSize (n : Nat) : Frames :=
  ⟨.ofSize n, Array.replicate n none, [], Array.replicate n (Buffer.zero pageSize)⟩

def capacity (t : Frames) : Nat := t.memory.size

def freeFrames (t : Frames) : Nat := t.pool.freeFrames

def binding (t : Frames) (f : FrameId) : Except Panic (Option Owner) :=
  match t.owners[f.index]? with
  | some o => .ok o
  | none => .error .noSuchIndex

def owner (t : Frames) (f : FrameId) : Except Panic (Option PageRef) :=
  (t.binding f).map (·.map (·.page))

def contents (t : Frames) (f : FrameId) : Except Panic Contents :=
  match t.memory[f.index]? with
  | some page => .ok page
  | none => .error .noSuchIndex

def setContents (t : Frames) (f : FrameId) (page : Contents) : Except Panic Frames :=
  if f.index < t.memory.size then .ok { t with memory := t.memory.setIfInBounds f.index page }
  else .error .noSuchIndex

def setOwner (t : Frames) (f : FrameId) (o : Option Owner) : Except Panic Frames :=
  if f.index < t.owners.size then .ok { t with owners := t.owners.setIfInBounds f.index o }
  else .error .noSuchIndex

def setPinned (t : Frames) (f : FrameId) (b : Bool) : Except Panic Frames := do
  let pool ← t.pool.setPinned f b
  .ok { t with pool := pool }

def requirePinned (t : Frames) (f : FrameId) : Except Panic Unit := do
  if ← t.pool.isPinned f then .ok () else .error .notPinned

def reinstate (t : Frames) (f : FrameId) (o : Owner) : Except Panic Frames := do
  let t ← t.setOwner f (some o)
  .ok { t with clock := f :: t.clock }

def install (t : Frames) (f : FrameId) (o : Owner) : Except Panic Frames := do
  t.requirePinned f
  let t ← t.setOwner f (some o)
  let t ← t.setPinned f false
  .ok { t with clock := t.clock ++ [f] }

def pin (t : Frames) (f : FrameId) (r : PageRef) : Except Panic (Option Frames) := do
  if (← t.owner f) = some r then
    let t ← t.setOwner f none
    some <$> { t with clock := t.clock.filter (· ≠ f) }.setPinned f true
  else .ok none

def release (t : Frames) (f : FrameId) : Except Panic Frames := do
  t.requirePinned f
  let pool ← t.pool.putBack f
  .ok { t with pool := pool }

end Frames

end DemandPaging
