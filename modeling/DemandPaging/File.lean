import DemandPaging.Id

namespace DemandPaging

structure FileLimits where
  read : Option Nat := none
  write : Option Nat := none
  length : Option Nat := none

/-- A file of fixed length. Each call through a handle has a number, and limits of its own. -/
structure File where
  bytes : Array UInt8
  limits : Nat → FileLimits := fun _ => {}
  calls : Nat := 0

/-- One opening of a file. Serial 0 is the handle that the file came with. -/
structure Handle where
  file : FileId
  serial : Nat
deriving DecidableEq

def capped (limit : Option Nat) (n : Nat) : Nat := (limit.map (min · n)).getD n

namespace File

def empty : File := { bytes := #[] }

def reach (f : File) (offset len : Nat) : Nat :=
  if offset < f.bytes.size then min len (f.bytes.size - offset) else 0

def slice (f : File) (offset len : Nat) : Array UInt8 :=
  f.bytes.extract offset (offset + f.reach offset len)

def overwrite (f : File) (offset : Nat) (data : Array UInt8) : Nat × File :=
  let bytes := Array.ofFn fun i : Fin f.bytes.size =>
    if offset ≤ i.val then (data[i.val - offset]?).getD f.bytes[i] else f.bytes[i]
  (f.reach offset data.size, { f with bytes := bytes })

def read (f : File) (offset len : Nat) : Array UInt8 × File :=
  (f.slice offset (capped (f.limits f.calls).read len), { f with calls := f.calls + 1 })

def write (f : File) (offset : Nat) (data : Array UInt8) : Nat × File :=
  { f with calls := f.calls + 1 }.overwrite offset
    (data.extract 0 (capped (f.limits f.calls).write data.size))

def length (f : File) : Nat := (f.limits f.calls).length.getD f.bytes.size

end File

/-- A file and the handles on it, in the order they were opened; a flag says which are still
open. The first one is also kept by the file's creator and so never goes away. -/
structure SharedFile where
  file : File
  handles : Array Bool := #[true]

namespace SharedFile

def isOpen (f : SharedFile) (h : Nat) : Bool := (f.handles[h]?).getD false

def duplicate (f : SharedFile) : SharedFile := { f with handles := f.handles.push true }

def close (f : SharedFile) (h : Nat) : SharedFile :=
  { f with handles := f.handles.setIfInBounds h false }

def handleCount (f : SharedFile) : Nat := 1 + (f.handles.toList.drop 1).count true

end SharedFile

end DemandPaging
