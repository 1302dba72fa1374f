import DemandPaging.Error
import DemandPaging.Page

namespace DemandPaging

inductive Severity
  | warn
  | info
  | debug
  | trace
deriving DecidableEq

namespace Severity

def rank : Severity → Nat
  | warn => 0
  | info => 1
  | debug => 2
  | trace => 3

def text : Severity → String
  | warn => "warn"
  | info => "info"
  | debug => "debug"
  | trace => "trace"

end Severity

inductive Event
  | frameTableMade (frames : Nat)
  | swapMade (slots : Nat)
  | booted (frames slots : Nat)
  | frameAcquired (f : FrameId)
  | frameReleased (f : FrameId)
  | frameSpared (f : FrameId)
  | frameWithoutOwner (f : FrameId)
  | evictionFailed (va : Addr) (f : FrameId) (e : PagingError)
  | evicted (va : Addr) (s : SpaceId) (f : FrameId)
  | notFrameOf (s : SpaceId) (f : FrameId) (va : Addr)
  | slotWritten (slot : Slot)
  | slotRead (slot : Slot)
  | writtenBack (count offset : Nat)
  | pageAdded (s : SpaceId) (purpose : Purpose) (va : Addr)
  | pageResident (s : SpaceId) (va : Addr) (f : FrameId)
  | pageRemoved (s : SpaceId) (va : Addr)
  | destroyFailed (s : SpaceId) (va : Addr) (e : PagingError)
  | faulted (s : SpaceId) (addr : Addr) (write : Bool)
  | faultUnresolved (s : SpaceId) (addr : Addr) (user write notPresent : Bool) (e : PagingError)
  | stackGrown (s : SpaceId) (va : Addr)
  | growthRollback (s : SpaceId) (va : Addr) (e : PagingError)
  | fileMapped (s : SpaceId) (pages : Nat) (addr : Addr)
  | mappingRollback (s : SpaceId) (va : Addr) (e : PagingError)
  | fileUnmapped (s : SpaceId) (pages : Nat) (addr : Addr)
  | unmapFailed (s : SpaceId) (va : Addr) (e : PagingError)
  | segmentAdded (s : SpaceId) (pages : Nat) (addr : Addr)
  | stackRollback (s : SpaceId) (va : Addr) (e : PagingError)
  | nothingToCopy (s : SpaceId) (va : Addr)
  | forked (child parent : SpaceId)

namespace Event

def severity : Event → Severity
  | frameWithoutOwner .. | evictionFailed .. | notFrameOf .. | destroyFailed ..
  | faultUnresolved .. | growthRollback .. | mappingRollback .. | unmapFailed ..
  | stackRollback .. | nothingToCopy .. => .warn
  | booted .. => .info
  | frameTableMade .. | swapMade .. | evicted .. | stackGrown .. | fileMapped ..
  | fileUnmapped .. | segmentAdded .. | forked .. => .debug
  | frameAcquired .. | frameReleased .. | frameSpared .. | slotWritten .. | slotRead ..
  | writtenBack .. | pageAdded .. | pageResident .. | pageRemoved .. | faulted .. => .trace

def message : Event → String
  | frameTableMade frames => s!"frame table: {frames} user frames"
  | swapMade slots => s!"swap: {slots} slots"
  | booted frames slots => s!"vm: {frames} user frames, {slots} swap slots"
  | frameAcquired f => s!"acquired {f.text}"
  | frameReleased f => s!"released {f.text}"
  | frameSpared f => s!"clock: {f.text} referenced, skipping"
  | frameWithoutOwner f => s!"evict: {f.text} in the clock list has no owner"
  | evictionFailed va f e =>
      s!"evict: failed to save {hexText va} from {f.text}: {e.message}"
  | evicted va s f => s!"evicted {hexText va} of {s.text} from {f.text}"
  | notFrameOf s f va => s!"{s.text}: {f.text} is not the frame of {hexText va}"
  | slotWritten slot => s!"swap: wrote {slot.text}"
  | slotRead slot => s!"swap: read {slot.text}"
  | writtenBack count offset => s!"wrote {count} bytes back at offset {offset}"
  | pageAdded s purpose va => s!"{s.text}: lazy {purpose.text} page at {hexText va}"
  | pageResident s va f => s!"{s.text}: {hexText va} resident in {f.text}"
  | pageRemoved s va => s!"{s.text}: removed {hexText va}"
  | destroyFailed s va e => s!"{s.text}: while destroying {hexText va}: {e.message}"
  | faulted s addr write => s!"{s.text}: fault at {hexText addr} (write={write})"
  | faultUnresolved s addr user write notPresent e =>
      s!"{s.text}: unresolved fault at {hexText addr} (user={user}, write={write}, " ++
        s!"not_present={notPresent}): {e.message}"
  | stackGrown s va => s!"{s.text}: stack grown to {hexText va}"
  | growthRollback s va e => s!"{s.text}: stack growth rollback of {hexText va}: {e.message}"
  | fileMapped s pages addr => s!"{s.text}: mapped {pages} file pages at {hexText addr}"
  | mappingRollback s va e => s!"{s.text}: mmap rollback of {hexText va}: {e.message}"
  | fileUnmapped s pages addr => s!"{s.text}: unmapped {pages} file pages at {hexText addr}"
  | unmapFailed s va e => s!"{s.text}: munmap of {hexText va}: {e.message}"
  | segmentAdded s pages addr => s!"{s.text}: segment of {pages} pages at {hexText addr}"
  | stackRollback s va e => s!"{s.text}: stack setup rollback of {hexText va}: {e.message}"
  | nothingToCopy s va => s!"{s.text}: fork snapshot of {hexText va} found no contents"
  | forked child parent => s!"{child.text}: forked from {parent.text}"

def text (e : Event) : String := s!"{e.severity.text} {e.message}"

def shownAt (e : Event) (least : Severity) : Bool := e.severity.rank ≤ least.rank

end Event

end DemandPaging
