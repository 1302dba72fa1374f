import DemandPaging.Address

namespace DemandPaging

abbrev Buffer (n : Nat) := Vector UInt8 n

abbrev Contents := Buffer pageSize

abbrev Sector := Buffer sectorSize

namespace Buffer

variable {n : Nat}

def filled (n : Nat) (b : UInt8) : Buffer n := Vector.replicate n b

def zero (n : Nat) : Buffer n := filled n 0

def overlay (buf : Buffer n) (start : Nat) (bytes : Array UInt8) : Buffer n :=
  Vector.ofFn fun i =>
    if start ≤ i.val then (bytes[i.val - start]?).getD buf[i] else buf[i]

def clearFrom (buf : Buffer n) (start : Nat) : Buffer n :=
  Vector.ofFn fun i => if start ≤ i.val then 0 else buf[i]

def slice (buf : Buffer n) (start len : Nat) : Array UInt8 :=
  buf.toArray.extract start (start + len)

end Buffer

namespace Contents

def sector (page : Contents) (i : Nat) : Sector :=
  Vector.ofFn fun j => (page[i * sectorSize + j.val]?).getD 0

def setSector (page : Contents) (i : Nat) (s : Sector) : Contents :=
  Buffer.overlay page (i * sectorSize) s.toArray

end Contents

end DemandPaging
