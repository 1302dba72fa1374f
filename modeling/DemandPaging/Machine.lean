import DemandPaging.Event
import DemandPaging.Frames
import DemandPaging.Space
import DemandPaging.SwapArea

namespace DemandPaging

/-- All of memory: the user frames, the swap area, the files that exist, and the address spaces
that are alive. -/
structure Machine where
  frames : Frames
  swap : SwapArea
  files : Array File
  spaces : Std.ExtTreeMap Nat Space
  nextSpace : Nat
  nextHandle : Nat
  log : Array Event

abbrev Vm (α : Type) := Step Machine α

namespace Machine

def boot (frames : Nat) (disk : Disk) : Machine where
  frames := .ofSize frames
  swap := .ofDisk disk
  files := #[]
  spaces := ∅
  nextSpace := 1
  nextHandle := 1
  log := #[
    .frameTableMade frames,
    .swapMade (disk.size / sectorsPerPage),
    .booted frames (disk.size / sectorsPerPage)]

def space? (m : Machine) (s : SpaceId) : Option Space := m.spaces[s.number]?

def file (m : Machine) (f : FileId) : File := (m.files[f.index]?).getD .empty

def duplicates (m : Machine) (f : FileId) : List Handle :=
  (m.spaces.toList.flatMap (·.2.handles)).filter fun h => h.file = f ∧ h.serial ≠ 0

def handleCount (m : Machine) (f : FileId) : Nat :=
  1 + ((m.duplicates f).map (·.serial)).eraseDups.length

end Machine

namespace Vm

open Step

def emit (e : Event) : Vm Unit := modify fun m => { m with log := m.log.push e }

def takeLog : Vm (Array Event) := modifyGet fun m => (m.log, { m with log := #[] })

def space (s : SpaceId) : Vm Space := do
  match (← get).space? s with
  | some sp => pure sp
  | none => panic (.noSuchSpace s)

def modifySpace (s : SpaceId) (f : Space → Space) : Vm Unit :=
  modify fun m => { m with spaces := m.spaces.modify s.number f }

def modifyTable (s : SpaceId) (f : PageTable → PageTable) : Vm Unit :=
  modifySpace s fun sp => { sp with table := f sp.table }

def newSpace : Vm SpaceId :=
  modifyGet fun m =>
    (⟨m.nextSpace⟩, { m with
      spaces := m.spaces.insert m.nextSpace .empty
      nextSpace := m.nextSpace + 1 })

def dropSpace (s : SpaceId) : Vm Unit := modify fun m => { m with spaces := m.spaces.erase s.number }

def saveStackPointer (s : SpaceId) (esp : Addr) : Vm Unit :=
  modifySpace s fun sp => { sp with savedStack := esp }

def onSwap {α : Type} (x : Step SwapArea α) : Vm α :=
  zoom Machine.swap (fun swap m => { m with swap := swap }) x

def modifyFrames (f : Frames → Except Panic Frames) : Vm Unit := do
  let m ← get
  let frames ← ofPanic (f m.frames)
  set { m with frames := frames }

def contents (f : FrameId) : Vm Contents := do ofPanic ((← get).frames.contents f)

def setContents (f : FrameId) (page : Contents) : Vm Unit := modifyFrames (·.setContents f page)

def newFile (bytes : Array UInt8) : Vm FileId :=
  modifyGet fun m => (⟨m.files.size⟩, { m with files := m.files.push { bytes := bytes } })

def putFile (f : FileId) (file : File) : Vm Unit :=
  modify fun m => { m with files := m.files.setIfInBounds f.index file }

def setLimits (f : FileId) (limits : Nat → FileLimits) : Vm Unit := do
  putFile f { (← get).file f with limits := limits }

def overwriteFile (f : FileId) (offset : Nat) (data : Array UInt8) : Vm Nat := do
  let (count, file) := ((← get).file f).overwrite offset data
  putFile f file
  pure count

def setFaults (faults : Faults) : Vm Unit :=
  onSwap (modify fun s => { s with disk := { s.disk with faults := faults } })

def duplicate (h : Handle) : Vm Handle :=
  modifyGet fun m => (⟨h.file, m.nextHandle⟩, { m with nextHandle := m.nextHandle + 1 })

def fileLength (h : Handle) : Vm Nat := do
  let file := (← get).file h.file
  putFile h.file { file with calls := file.calls + 1 }
  pure file.length

def load {n : Nat} (b : Backing) (buf : Buffer n) : Vm (Reading n) := do
  let (r, file) ← ofPanic (b.load ((← get).file b.handle.file) buf)
  putFile b.handle.file file
  pure r

def save (b : Backing) (page : Contents) : Vm Unit := do
  let (count, file) := ((← get).file b.handle.file).write b.offset
    (Buffer.slice page 0 b.expected)
  putFile b.handle.file file
  emit (.writtenBack count b.offset)
  check (b.written count)

end Vm

end DemandPaging
