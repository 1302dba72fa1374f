import DemandPaging.Entry
import DemandPaging.Error

namespace DemandPaging

/-- The frames handed out to user pages. The search for a free one goes on where the last one
ended. -/
structure FramePool where
  entries : Array FrameFlags
  position : Nat := 0
  allocated : Nat := 0

namespace FramePool

def ofSize (n : Nat) : FramePool := { entries := Array.replicate n .free }

def size (p : FramePool) : Nat := p.entries.size

def isEmpty (p : FramePool) : Bool := p.size == 0

def freeFrames (p : FramePool) : Nat := p.size - p.allocated

def entry (p : FramePool) (f : FrameId) : Except Panic FrameFlags :=
  match p.entries[f.index]? with
  | some e => .ok e
  | none => .error .noSuchIndex

def nextFree (p : FramePool) : Option Nat :=
  let start := p.position % p.size
  (List.range' start (p.size - start) ++ List.range start).find? fun i =>
    (p.entries[i]?).any (!·.allocated)

def take (p : FramePool) : Option (FrameId × FramePool) :=
  p.nextFree.map fun i =>
    let e := (FrameFlags.free.setAllocated true).setPinned true
    (⟨i⟩, {
      entries := p.entries.setIfInBounds i e
      position := (i + 1) % p.size
      allocated := p.allocated + 1 })

/-- `take`, which asserts that nobody has the frame it found. -/
def checkedTake (p : FramePool) : Except Panic (Option (FrameId × FramePool)) :=
  match p.take with
  | none => .ok none
  | some (f, q) => do
      if (← p.entry f).allocated then .error .notFree else .ok (some (f, q))

def putBack (p : FramePool) (f : FrameId) : Except Panic FramePool := do
  let e ← p.entry f
  if e.allocated then
    if p.allocated = 0 then .error .underflow
    else
      .ok { p with
        entries := p.entries.setIfInBounds f.index .free
        allocated := p.allocated - 1 }
  else .error (.freedTwice f)

def isPinned (p : FramePool) (f : FrameId) : Except Panic Bool := (p.entry f).map (·.pinned)

def setPinned (p : FramePool) (f : FrameId) (b : Bool) : Except Panic FramePool := do
  let e ← p.entry f
  if e.allocated then .ok { p with entries := p.entries.setIfInBounds f.index (e.setPinned b) }
  else .error (.pinnedFree f)

end FramePool

end DemandPaging
