import DemandPaging.Buffer
import DemandPaging.Error

namespace DemandPaging

def checkSector (size sector len : Nat) : Except DeviceError Unit :=
  if size ≤ sector then .error .noSuchSector
  else if len ≠ sectorSize then .error .wrongLength
  else .ok ()

structure MemoryDisk where
  sectors : Array Sector
  reads : Nat := 0
  writes : Nat := 0

namespace MemoryDisk

def blank (size : Nat) : MemoryDisk := ⟨Array.replicate size (Buffer.zero sectorSize), 0, 0⟩

def size (d : MemoryDisk) : Nat := d.sectors.size

def read (d : MemoryDisk) (sector len : Nat) : Except DeviceError (Sector × MemoryDisk) :=
  match checkSector d.size sector len with
  | .error e => .error e
  | .ok () => .ok ((d.sectors[sector]?).getD (Buffer.zero _), { d with reads := d.reads + 1 })

def write (d : MemoryDisk) (sector : Nat) (data : Array UInt8) : Except DeviceError MemoryDisk :=
  match checkSector d.size sector data.size with
  | .error e => .error e
  | .ok () =>
      let stored := (Buffer.zero sectorSize).overlay 0 data
      .ok { d with sectors := d.sectors.setIfInBounds sector stored, writes := d.writes + 1 }

end MemoryDisk

/-- A transfer that fails reports an error, and may spoil the sector or the buffer it was
given. -/
structure Fault where
  error : DeviceError
  damage : Sector → Sector

structure Faults where
  read : Nat → Nat → Option Fault
  write : Nat → Nat → Option Fault

namespace Faults

def none : Faults := ⟨fun _ _ => .none, fun _ _ => .none⟩

def ofSectors (reads writes : List Nat) : Faults where
  read _ sector := if reads.contains sector then some ⟨.readFailed, id⟩ else .none
  write _ sector := if writes.contains sector then some ⟨.writeFailed, id⟩ else .none

end Faults

/-- A device over `medium` that says it has `size` sectors, and counts every transfer asked of
it. -/
structure Disk where
  medium : MemoryDisk
  size : Nat
  faults : Faults
  reads : Nat := 0
  writes : Nat := 0

namespace Disk

def blank (sectors size : Nat) : Disk := ⟨.blank sectors, size, .none, 0, 0⟩

def read (d : Disk) (sector : Nat) (buf : Sector) : Disk × Sector × Option DeviceError :=
  let counted := { d with reads := d.reads + 1 }
  match d.faults.read d.reads sector with
  | some f => (counted, f.damage buf, some f.error)
  | none =>
      match d.medium.read sector sectorSize with
      | .ok (data, medium) => ({ counted with medium := medium }, data, none)
      | .error e => (counted, buf, some e)

def write (d : Disk) (sector : Nat) (data : Sector) : Disk × Option DeviceError :=
  let counted := { d with writes := d.writes + 1 }
  match d.faults.write d.writes sector with
  | some f =>
      let spoilt := { d.medium with sectors := d.medium.sectors.modify sector f.damage }
      ({ counted with medium := spoilt }, some f.error)
  | none =>
      match d.medium.write sector data.toArray with
      | .ok medium => ({ counted with medium := medium }, none)
      | .error e => (counted, some e)

def readPage (first : Nat) : List Nat → Disk → Contents → Disk × Contents × Option DeviceError
  | [], d, page => (d, page, none)
  | i :: rest, d, page =>
      match d.read (first + i) (page.sector i) with
      | (d, data, none) => readPage first rest d (page.setSector i data)
      | (d, data, some e) => (d, page.setSector i data, some e)

def writePage (first : Nat) (page : Contents) : List Nat → Disk → Disk × Option DeviceError
  | [], d => (d, none)
  | i :: rest, d =>
      match d.write (first + i) (page.sector i) with
      | (d, none) => writePage first page rest d
      | (d, some e) => (d, some e)

end Disk

end DemandPaging
