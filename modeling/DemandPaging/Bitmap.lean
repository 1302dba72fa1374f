import DemandPaging.Error

namespace DemandPaging

def wordBits : Nat := 64

structure Bitmap where
  words : Array (BitVec wordBits)
  len : Nat
  size_eq : words.size = (len + (wordBits - 1)) / wordBits

namespace Bitmap

def clear (len : Nat) : Bitmap :=
  ⟨Array.replicate ((len + (wordBits - 1)) / wordBits) 0, len, Array.size_replicate⟩

def isEmpty (b : Bitmap) : Bool := b.len == 0

def word (b : Bitmap) (idx : Nat) : BitVec wordBits := (b.words[idx / wordBits]?).getD 0

def bit (b : Bitmap) (idx : Nat) : Bool := (b.word idx).getLsbD (idx % wordBits)

def toList (b : Bitmap) : List Bool := (List.range b.len).map b.bit

def get (b : Bitmap) (idx : Nat) : Except Panic Bool :=
  if idx < b.len then .ok (b.bit idx) else .error (.noSuchBit idx b.len)

def set (b : Bitmap) (idx : Nat) (value : Bool) : Except Panic Bitmap :=
  if idx < b.len then
    let mask := BitVec.twoPow wordBits (idx % wordBits)
    let word := if value then b.word idx ||| mask else b.word idx &&& ~~~mask
    .ok { b with
      words := b.words.setIfInBounds (idx / wordBits) word
      size_eq := Array.size_setIfInBounds.trans b.size_eq }
  else .error (.noSuchBit idx b.len)

/-- The first bit from `idx` on that equals `value`, looked for in the next `n` words. The unused
tail of the last word reads as clear, so a hit may lie beyond the end. -/
def searchWords (b : Bitmap) (value : Bool) : (n idx : Nat) → Option Nat
  | 0, _ => none
  | n + 1, idx =>
      if idx < b.len then
        let word := if value then b.word idx else ~~~b.word idx
        let candidates := word >>> (idx % wordBits)
        if candidates = 0 then b.searchWords value n ((idx / wordBits + 1) * wordBits)
        else
          let found := idx + candidates.ctz.toNat
          if found < b.len then some found else none
      else none

def firstFrom (b : Bitmap) (start : Nat) (value : Bool) : Option Nat :=
  b.searchWords value (b.words.size - start / wordBits) start

def flipFirst (b : Bitmap) (start : Nat) (value : Bool) : Except Panic (Option Nat × Bitmap) :=
  match b.firstFrom start value with
  | none => .ok (none, b)
  | some idx => (b.set idx (!value)).map fun b => (some idx, b)

/-- Words are mostly clear, so those are not counted bit by bit. -/
def ones (b : Bitmap) : Nat :=
  b.words.foldl (fun n w => if w = 0 then n else n + w.cpop.toNat) 0

def count (b : Bitmap) (value : Bool) : Nat := if value then b.ones else b.len - b.ones

def debugText (b : Bitmap) : String :=
  let words := ", ".intercalate (b.words.toList.map fun w => toString w.toNat)
  s!"Bitmap \x7b words: [{words}], len: {b.len} \x7d"

end Bitmap

end DemandPaging
