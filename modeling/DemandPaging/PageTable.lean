import DemandPaging.Entry
import DemandPaging.Id

namespace DemandPaging

def entriesPerTable : Nat := 1024

/-- A page directory, and the page tables that its present entries number. -/
structure PageTable where
  directory : Vector DirectoryEntry entriesPerTable
  tables : Array (Vector TableEntry entriesPerTable)
  table_lt : ∀ (d : Nat) (e : DirectoryEntry), directory[d]? = some e → e.present = true → e.table.toNat < tables.size

namespace PageTable

def empty : PageTable where
  directory := .replicate _ .empty
  tables := #[]
  table_lt d e he hp := by
    obtain ⟨hd, rfl⟩ := Vector.getElem?_eq_some_iff.1 he
    rw [Vector.getElem_replicate] at hp
    cases hp

def tableOf? (t : PageTable) (s : Split) : Option Nat :=
  match t.directory[s.directory]? with
  | some d => if d.present then some d.table.toNat else none
  | none => none

def find? (t : PageTable) (va : Addr) : Option TableEntry := do
  let s ← split? va
  let table ← t.tables[← t.tableOf? s]?
  table[s.table]?

def setEntry (t : PageTable) (va : Addr) (e : TableEntry) : PageTable :=
  match split? va with
  | none => t
  | some s =>
      match t.tableOf? s with
      | none => t
      | some n => { t with
          tables := t.tables.modify n (·.setIfInBounds s.table e)
          table_lt := by simpa using t.table_lt }

def withTable (t : PageTable) (d : Nat) (hs : t.tables.size < 0x100000) : PageTable where
  directory := t.directory.setIfInBounds d (.pointing (.ofNat 20 t.tables.size))
  tables := t.tables.push (.replicate _ .empty)
  table_lt i e he hp := by
    rw [Array.size_push]
    rw [Vector.getElem?_setIfInBounds] at he
    split at he
    · split at he
      · cases he
        simp [Nat.mod_eq_of_lt hs]
      · cases he
    · exact Nat.lt_succ_of_lt (t.table_lt i e he hp)

def addTable (t : PageTable) (s : Split) : Option PageTable :=
  match t.tableOf? s with
  | some _ => some t
  | none => if hs : t.tables.size < 0x100000 then some (t.withTable s.directory hs) else none

def present? (t : PageTable) (va : Addr) : Option TableEntry := (t.find? va).filter (·.present)

/-- The number that goes into an entry: frame numbers are cut to 32 bits and then have to fit in
20. -/
def frameField (f : FrameId) : Option (BitVec 20) :=
  if f.index % 0x100000000 < 0x100000 then some (.ofNat 20 (f.index % 0x100000000)) else none

def map (t : PageTable) (va : Addr) (f : FrameId) (writable : Bool) : Option PageTable := do
  if isKernel va then none
  else
    let field ← frameField f
    let t ← t.addTable (← split? va)
    if (t.present? va).isSome then none
    else
      let e := ((TableEntry.empty.setPresent true).setWritable writable).setUser true
      some (t.setEntry va (e.setFrame field))

def unmap (t : PageTable) (va : Addr) : PageTable := t.setEntry va .empty

def lookup (t : PageTable) (va : Addr) : Option FrameId :=
  (t.present? va).map fun e => ⟨e.frame.toNat⟩

def isMapped (t : PageTable) (va : Addr) : Bool := (t.present? va).isSome

def isWritable (t : PageTable) (va : Addr) : Bool := (t.present? va).any (·.writable)

def isDirty (t : PageTable) (va : Addr) : Bool := (t.present? va).any (·.dirty)

def isAccessed (t : PageTable) (va : Addr) : Bool := (t.present? va).any (·.accessed)

def setDirty (t : PageTable) (va : Addr) (b : Bool) : PageTable :=
  match t.present? va with
  | some e => t.setEntry va (e.setDirty b)
  | none => t

def setAccessed (t : PageTable) (va : Addr) (b : Bool) : PageTable :=
  match t.present? va with
  | some e => t.setEntry va (e.setAccessed b)
  | none => t

/-- Translates an address as the processor does: marks the entry it goes through as accessed, and
as dirty when writing, or says why it cannot. -/
def access (t : PageTable) (va : Addr) (write user : Bool) :
    Except FaultCode (FrameId × PageTable) :=
  let code := (FaultCode.empty.setWrite write).setUser user
  if user && isKernel va then .error (code.setPresent (t.isMapped va))
  else
    match t.present? va with
    | none => .error code
    | some e =>
        if write && !e.writable then .error (code.setPresent true)
        else
          .ok (⟨e.frame.toNat⟩, t.setEntry va ((e.setAccessed true).setDirty (e.dirty || write)))

end PageTable

end DemandPaging
