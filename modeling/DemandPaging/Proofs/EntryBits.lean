import DemandPaging.Entry
import DemandPaging.Id

namespace DemandPaging

variable {n k : Nat}

theorem getElem_withBit (w : BitVec n) {i j : Nat} (b : Bool) (hj : j < n) :
    (withBit w i b)[j] = if j = i then b else w[j] := by
  cases b <;> by_cases h : j = i <;> simp [withBit, h]

theorem getElem_withField_of_lt (w : BitVec n) {i j : Nat} (v : BitVec k) (hj : j < n)
    (h : j < i) : (withField w i v)[j] = w[j] := by
  simp [withField, h]

theorem extractLsb'_withBit (w : BitVec n) {i s len : Nat} (b : Bool) (hi : i < s) :
    (withBit w i b).extractLsb' s len = w.extractLsb' s len := by
  ext j hj
  have hne : s + j ≠ i := by omega
  by_cases hn : s + j < n
  · simp [BitVec.getLsbD_eq_getElem, getElem_withBit, hne, hn]
  · simp [BitVec.getLsbD_of_ge _ _ (Nat.le_of_not_lt hn)]

structure Translation where
  frame : FrameId
  writable : Bool
  accessed : Bool
  dirty : Bool
deriving DecidableEq

namespace Translation

def fresh (f : FrameId) (writable : Bool) : Translation := ⟨f, writable, false, false⟩

end Translation

namespace TableEntry

def translation (e : TableEntry) : Translation :=
  ⟨⟨e.frame.toNat⟩, e.writable, e.accessed, e.dirty⟩

def mapping (v : BitVec 20) (writable : Bool) : TableEntry :=
  (((empty.setPresent true).setWritable writable).setUser true).setFrame v

theorem empty_present : empty.present = false := rfl

@[simp] theorem mapping_present (v : BitVec 20) (w : Bool) : (mapping v w).present = true := by
  simp [mapping, present, setFrame, setUser, setWritable, setPresent, getElem_withField_of_lt,
    getElem_withBit]

@[simp] theorem mapping_translation (v : BitVec 20) (w : Bool) :
    (mapping v w).translation = .fresh ⟨v.toNat⟩ w := by
  simp [mapping, translation, Translation.fresh, frame, writable, accessed, dirty, setFrame,
    setUser, setWritable, setPresent, getElem_withField_of_lt, getElem_withBit,
    extractLsb'_withField, empty]

@[simp] theorem setDirty_present (e : TableEntry) (b : Bool) :
    (e.setDirty b).present = e.present := by
  simp [present, setDirty, getElem_withBit]

@[simp] theorem setAccessed_present (e : TableEntry) (b : Bool) :
    (e.setAccessed b).present = e.present := by
  simp [present, setAccessed, getElem_withBit]

@[simp] theorem setDirty_translation (e : TableEntry) (b : Bool) :
    (e.setDirty b).translation = { e.translation with dirty := b } := by
  simp [translation, setDirty, frame, writable, accessed, dirty, getElem_withBit,
    extractLsb'_withBit]

@[simp] theorem setAccessed_translation (e : TableEntry) (b : Bool) :
    (e.setAccessed b).translation = { e.translation with accessed := b } := by
  simp [translation, setAccessed, frame, writable, accessed, dirty, getElem_withBit,
    extractLsb'_withBit]

end TableEntry

namespace DirectoryEntry

theorem empty_present : empty.present = false := rfl

@[simp] theorem pointing_present (v : BitVec 20) : (pointing v).present = true := by
  simp [pointing, present, setTable, setUser, setWritable, setPresent, getElem_withField_of_lt,
    getElem_withBit]

end DirectoryEntry

namespace FaultCode

@[simp] theorem setPresent_present (c : FaultCode) (b : Bool) : (c.setPresent b).present = b := by
  simp [present, setPresent, getElem_withBit]

def of (present write user : Bool) : FaultCode := ((empty.setWrite write).setUser user).setPresent present

@[simp] theorem of_present (present write user : Bool) : (of present write user).present = present :=
  setPresent_present ..

@[simp] theorem of_write (present write user : Bool) : (of present write user).write = write := by
  cases present <;> cases write <;> cases user <;> rfl

@[simp] theorem of_user (present write user : Bool) : (of present write user).user = user := by
  cases present <;> cases write <;> cases user <;> rfl

theorem of_false (write user : Bool) : of false write user = (empty.setWrite write).setUser user := by
  cases write <;> cases user <;> rfl

end FaultCode

namespace FrameFlags

theorem free_allocated : free.allocated = false := rfl

@[simp] theorem setAllocated_allocated (e : FrameFlags) (b : Bool) :
    (e.setAllocated b).allocated = b := by
  simp [allocated, setAllocated, getElem_withBit]

@[simp] theorem setPinned_allocated (e : FrameFlags) (b : Bool) :
    (e.setPinned b).allocated = e.allocated := by
  simp [allocated, setPinned, getElem_withBit]

@[simp] theorem setPinned_pinned (e : FrameFlags) (b : Bool) : (e.setPinned b).pinned = b := by
  simp [pinned, setPinned, getElem_withBit]

end FrameFlags

end DemandPaging
