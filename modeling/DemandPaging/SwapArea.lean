import DemandPaging.Bitmap
import DemandPaging.Disk
import DemandPaging.Step

namespace DemandPaging

def Slot.firstSector (s : Slot) : Except Panic Nat :=
  let first := s.index % 0x100000000 * sectorsPerPage
  if first + sectorsPerPage < 0x100000000 then .ok first else .error .overflow

/-- Page-sized storage on a device. A bit is set while its slot holds a page. -/
structure SwapArea where
  used : Bitmap
  disk : Disk

namespace SwapArea

open Step

/-- Sectors at the end that do not fill a page are left unused. -/
def ofDisk (d : Disk) : SwapArea := ⟨.clear (d.size / sectorsPerPage), d⟩

def capacity (s : SwapArea) : Nat := s.used.len

def usedCount (s : SwapArea) : Nat := s.used.count true

def isUsed (s : SwapArea) (slot : Slot) : Except Panic Bool := s.used.get slot.index

def store (page : Contents) : Step SwapArea Slot := do
  let s ← get
  let (found, used) ← ofPanic (s.used.flipFirst 0 false)
  match found with
  | none => fail .swapFull
  | some idx =>
      let first ← ofPanic (Slot.mk idx).firstSector
      match s.disk.writePage first page (List.range sectorsPerPage) with
      | (disk, none) =>
          set (SwapArea.mk used disk)
          pure ⟨idx⟩
      | (disk, some e) =>
          let used ← ofPanic (used.set idx false)
          set (SwapArea.mk used disk)
          fail (.device e)

def peek (slot : Slot) (page : Contents) : Step SwapArea (Reading pageSize) := do
  let s ← get
  let first ← ofPanic slot.firstSector
  let (disk, page, failure) := s.disk.readPage first (List.range sectorsPerPage) page
  set { s with disk := disk }
  pure ⟨page, failure.map .device⟩

def free (slot : Slot) : Step SwapArea Unit := do
  let s ← get
  let used ← ofPanic (s.used.set slot.index false)
  set { s with used := used }

def fetch (slot : Slot) (page : Contents) : Step SwapArea (Reading pageSize) := do
  let r ← peek slot page
  if r.failure.isNone then free slot
  pure r

end SwapArea

end DemandPaging
