import DemandPaging.Address

namespace DemandPaging

variable {n k : Nat}

def withBit (w : BitVec n) (i : Nat) (b : Bool) : BitVec n :=
  if b then w ||| BitVec.twoPow n i else w &&& ~~~BitVec.twoPow n i

def withField (w : BitVec n) (i : Nat) (v : BitVec k) : BitVec n :=
  (w &&& ~~~((BitVec.allOnes k).setWidth n <<< i)) ||| (v.setWidth n <<< i)

theorem extractLsb'_withField (w : BitVec n) (i : Nat) (v : BitVec k) (h : i + k ≤ n) :
    (withField w i v).extractLsb' i k = v := by
  ext j hj
  have hn : i + j < n := by omega
  have hi : ¬ i + j < i := by omega
  simp [withField, hn, hj, hi]

structure DirectoryEntry where
  raw : BitVec 32
deriving DecidableEq

namespace DirectoryEntry

def empty : DirectoryEntry := ⟨0⟩

def present (e : DirectoryEntry) : Bool := e.raw.getLsbD 0
def writable (e : DirectoryEntry) : Bool := e.raw.getLsbD 1
def user (e : DirectoryEntry) : Bool := e.raw.getLsbD 2
def accessed (e : DirectoryEntry) : Bool := e.raw.getLsbD 5
def table (e : DirectoryEntry) : BitVec 20 := e.raw.extractLsb' 12 20

def setPresent (e : DirectoryEntry) (b : Bool) : DirectoryEntry := ⟨withBit e.raw 0 b⟩
def setWritable (e : DirectoryEntry) (b : Bool) : DirectoryEntry := ⟨withBit e.raw 1 b⟩
def setUser (e : DirectoryEntry) (b : Bool) : DirectoryEntry := ⟨withBit e.raw 2 b⟩
def setAccessed (e : DirectoryEntry) (b : Bool) : DirectoryEntry := ⟨withBit e.raw 5 b⟩
def setTable (e : DirectoryEntry) (t : BitVec 20) : DirectoryEntry := ⟨withField e.raw 12 t⟩

def pointing (v : BitVec 20) : DirectoryEntry :=
  (((empty.setPresent true).setWritable true).setUser true).setTable v

@[simp] theorem pointing_table (v : BitVec 20) : (pointing v).table = v := by
  simp [pointing, table, setTable, extractLsb'_withField]

end DirectoryEntry

structure TableEntry where
  raw : BitVec 32
deriving DecidableEq

namespace TableEntry

def empty : TableEntry := ⟨0⟩

def present (e : TableEntry) : Bool := e.raw.getLsbD 0
def writable (e : TableEntry) : Bool := e.raw.getLsbD 1
def user (e : TableEntry) : Bool := e.raw.getLsbD 2
def accessed (e : TableEntry) : Bool := e.raw.getLsbD 5
def dirty (e : TableEntry) : Bool := e.raw.getLsbD 6
def frame (e : TableEntry) : BitVec 20 := e.raw.extractLsb' 12 20

def setPresent (e : TableEntry) (b : Bool) : TableEntry := ⟨withBit e.raw 0 b⟩
def setWritable (e : TableEntry) (b : Bool) : TableEntry := ⟨withBit e.raw 1 b⟩
def setUser (e : TableEntry) (b : Bool) : TableEntry := ⟨withBit e.raw 2 b⟩
def setAccessed (e : TableEntry) (b : Bool) : TableEntry := ⟨withBit e.raw 5 b⟩
def setDirty (e : TableEntry) (b : Bool) : TableEntry := ⟨withBit e.raw 6 b⟩
def setFrame (e : TableEntry) (f : BitVec 20) : TableEntry := ⟨withField e.raw 12 f⟩

end TableEntry

structure FaultCode where
  raw : BitVec 32
deriving DecidableEq

namespace FaultCode

def empty : FaultCode := ⟨0⟩

def present (c : FaultCode) : Bool := c.raw.getLsbD 0
def write (c : FaultCode) : Bool := c.raw.getLsbD 1
def user (c : FaultCode) : Bool := c.raw.getLsbD 2
def notPresent (c : FaultCode) : Bool := !c.present

def setPresent (c : FaultCode) (b : Bool) : FaultCode := ⟨withBit c.raw 0 b⟩
def setWrite (c : FaultCode) (b : Bool) : FaultCode := ⟨withBit c.raw 1 b⟩
def setUser (c : FaultCode) (b : Bool) : FaultCode := ⟨withBit c.raw 2 b⟩

end FaultCode

structure FrameFlags where
  raw : BitVec 8
deriving DecidableEq

namespace FrameFlags

def free : FrameFlags := ⟨0⟩

def allocated (e : FrameFlags) : Bool := e.raw.getLsbD 0
def pinned (e : FrameFlags) : Bool := e.raw.getLsbD 1

def setAllocated (e : FrameFlags) (b : Bool) : FrameFlags := ⟨withBit e.raw 0 b⟩
def setPinned (e : FrameFlags) (b : Bool) : FrameFlags := ⟨withBit e.raw 1 b⟩

end FrameFlags

end DemandPaging
