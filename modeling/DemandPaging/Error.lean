import DemandPaging.Address
import DemandPaging.Id

namespace DemandPaging

inductive DeviceError
  | noSuchSector
  | wrongLength
  | readFailed
  | writeFailed
deriving DecidableEq

def DeviceError.message : DeviceError → String
  | noSuchSector => "sector out of bounds (greater than the block size)"
  | wrongLength => "invalid buffer size (not `BLOCK_SECTOR_SIZE`)"
  | readFailed => "error reading from the block device"
  | writeFailed => "error writing to the block device"

inductive StorageError
  | device (e : DeviceError)
  | shortRead (expected actual : Nat)
  | shortWrite (expected actual : Nat)
deriving DecidableEq

def StorageError.message : StorageError → String
  | device e => e.message
  | shortRead expected actual => s!"short read: expected {expected} bytes, got {actual}"
  | shortWrite expected actual => s!"short write: expected {expected} bytes, wrote {actual}"

inductive PagingError
  | pageExists (va : Addr)
  | badAddress (va : Addr)
  | noFrame
  | swapFull
  | noContents (va : Addr)
  | storage (e : StorageError)
deriving DecidableEq

def PagingError.message : PagingError → String
  | pageExists va => s!"a page is already registered at {hexText va}"
  | badAddress va => s!"{hexText va} is not a valid user address for this operation"
  | noFrame => "no frame could be allocated or reclaimed"
  | swapFull => "swap device is full"
  | noContents va => s!"page at {hexText va} is not resident and has no swap slot"
  | storage e => s!"I/O error: {e.message}"

def PagingError.device (e : DeviceError) : PagingError := .storage (.device e)

def PagingError.cause : PagingError → Option StorageError
  | storage e => some e
  | _ => none

def DeviceError.name : DeviceError → String
  | noSuchSector => "SectorOutOfBounds"
  | wrongLength => "BufferInvalid"
  | readFailed => "ReadError"
  | writeFailed => "WriteError"

def StorageError.debugText : StorageError → String
  | device e => s!"Device({e.name})"
  | shortRead expected actual =>
      s!"ShortRead \x7b expected: {expected}, actual: {actual} \x7d"
  | shortWrite expected actual =>
      s!"ShortWrite \x7b expected: {expected}, actual: {actual} \x7d"

def PagingError.debugText : PagingError → String
  | pageExists va => s!"DuplicatePage({va})"
  | badAddress va => s!"InvalidAddress({va})"
  | noFrame => "AllocationFailure"
  | swapFull => "SwapExhausted"
  | noContents va => s!"MissingSwapSlot({va})"
  | storage e => s!"Io({e.debugText})"

/-- A broken rule of use: the call answers nothing and the caller is at fault. -/
inductive Panic
  | noSuchBit (idx len : Nat)
  | freedTwice (f : FrameId)
  | pinnedFree (f : FrameId)
  | notPinned
  | notFree
  | noSuchIndex
  | overflow
  | underflow
  | bootedTwice
  | notBooted
  | noSuchSpace (s : SpaceId)
deriving DecidableEq

def Panic.message : Panic → String
  | noSuchBit idx len => s!"bit {idx} out of bounds (len {len})"
  | freedTwice f => s!"double free of {f.text}"
  | pinnedFree f => s!"pinning free {f.text}"
  | notPinned => "assertion failed: list.pool.is_pinned(frame)"
  | notFree => "assertion failed: !self.core_map[idx].allocated()"
  | noSuchIndex => "index out of bounds"
  | overflow => "attempt to add with overflow"
  | underflow => "attempt to subtract with overflow"
  | bootedTwice => "vm_init called twice"
  | notBooted => "VM not initialized."
  | noSuchSpace s => s!"no address space {s.text}"

end DemandPaging
