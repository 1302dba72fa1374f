import DemandPaging.Residency

namespace DemandPaging.Vm

open Step

def isLoadable (offset addr total : Nat) : Bool :=
  total < wordLimit && isPageAligned addr && offset % pageSize == 0 && total % pageSize == 0
    && offset + total < wordLimit

/-- Registers `n` more pages of a segment, of which `i` are there; `left` bytes of it are still to
come from the file. -/
def segmentPages (s : SpaceId) (h : Handle) (offset addr : Nat) (writable : Bool) :
    (n i left : Nat) → Vm Unit
  | 0, _, _ => pure ()
  | n + 1, i, left => do
      let share := min left pageSize
      let pageStart ← word (offset + i * pageSize)
      let va ← word (addr + i * pageSize)
      let b : Backing := ⟨h, pageStart, share⟩
      register s va writable .anon (some (.segment b))
      segmentPages s h offset addr writable n (i + 1) (left - share)

/-- Registers the pages of a segment: `readBytes` bytes of a file from `offset` on, then
`zeroBytes` zeroes. They are anonymous once loaded. -/
def addSegment (s : SpaceId) (h : Handle) (offset addr readBytes zeroBytes : Nat)
    (writable : Bool) : Vm Unit := do
  let total := readBytes + zeroBytes
  if isLoadable offset addr total then
    let pages := total / pageSize
    segmentPages s h offset addr writable pages 0 readBytes
    emit (.segmentAdded s pages addr)
  else fail (.badAddress addr)

end DemandPaging.Vm
