namespace DemandPaging

/-- A 64-bit address, kept as a number: whoever adds to one says what happens at `wordLimit`. -/
abbrev Addr := Nat

def wordLimit : Nat := 0x10000000000000000

def kilobyte : Nat := 1024

def megabyte : Nat := kilobyte * kilobyte

def pageSize : Nat := 4 * kilobyte

def sectorSize : Nat := 512

def sectorsPerPage : Nat := pageSize / sectorSize

def kernelBase : Addr := 0x80000000

def stackTop : Addr := kernelBase

def maxStackSize : Nat := megabyte

def stackWord : Nat := 4

def stackLimit : Addr := stackTop - maxStackSize

def defaultFrames : Nat := 1024

def pageBase (a : Addr) : Addr := a / pageSize * pageSize

def pageOffset (a : Addr) : Nat := a % pageSize

def isPageAligned (a : Addr) : Bool := pageOffset a == 0

def isKernel (a : Addr) : Bool := kernelBase ≤ a

def pagesFor (len : Nat) : Nat := (len + (pageSize - 1)) / pageSize

def pagesTouched (a : Addr) (len : Nat) : Nat :=
  if len = 0 then 0 else pagesFor (pageOffset a + len)

structure Split where
  directory : Nat
  table : Nat
  offset : Nat

/-- Addresses beyond 32 bits have no place in the page tables. -/
def split? (a : Addr) : Option Split :=
  if a < 0x100000000 then some ⟨a / 0x400000 % 0x400, a / 0x1000 % 0x400, a % 0x1000⟩ else none

def hexText (n : Nat) : String := "0x" ++ String.ofList (Nat.toDigits 16 n)

end DemandPaging
