import DemandPaging.Residency

namespace DemandPaging.Vm

open Step

/-- What has to hold of the arguments before a file is looked at: the last page lies below the
kernel and the last offset fits in a word. -/
def isMappable (addr len offset : Nat) : Bool :=
  let span := pagesFor len * pageSize
  addr ≠ 0 && isPageAligned addr && len ≠ 0 && offset % pageSize == 0
    && span < wordLimit && addr + (span - 1) < wordLimit && !isKernel (addr + (span - 1))
    && offset + span < wordLimit

def pagesFrom (addr : Addr) (n : Nat) : List Addr := (List.range n).map (addr + · * pageSize)

/-- Registers `n` more pages of a mapping, of which `i` are there; takes them all away again if
one cannot be registered. -/
def mapPages (s : SpaceId) (addr len : Nat) (writable : Bool) (h : Handle)
    (offset fileLen : Nat) : (n i : Nat) → Vm Unit
  | 0, _ => pure ()
  | n + 1, i => do
      let va ← word (addr + i * pageSize)
      let pageStart ← word (offset + i * pageSize)
      let left ← minus len (i * pageSize)
      let b : Backing := ⟨h, pageStart, min (min (fileLen - pageStart) left) pageSize⟩
      match ← attempt (register s va writable (.file b) (some (.segment b))) with
      | .ok () => mapPages s addr len writable h offset fileLen n (i + 1)
      | .error e =>
          removeAll s (.mappingRollback s) (pagesFrom addr i)
          fail e

/-- Maps `len` bytes of a file from `offset` on at `addr`. Bytes past the end of the file read as
zero and are never written back. -/
def addMapping (s : SpaceId) (addr len : Nat) (writable : Bool) (h : Handle) (offset : Nat) :
    Vm Addr := do
  if isMappable addr len offset then
    let fileLen ← fileLength h
    if fileLen = 0 then fail (.badAddress addr)
    else
      let h ← duplicate h
      let pages := pagesFor len
      mapPages s addr len writable h offset fileLen pages 0
      modifySpace s fun sp => { sp with regions := sp.regions.insert addr ⟨h, pages⟩ }
      emit (.fileMapped s pages addr)
      pure addr
  else fail (.badAddress addr)

def removeMapping (s : SpaceId) (addr : Addr) : Vm Unit := do
  let start := pageBase addr
  match (← space s).regions[start]? with
  | none => pure ()
  | some r =>
      modifySpace s fun sp => { sp with regions := sp.regions.erase start }
      let _ ← word (start + (r.pages - 1) * pageSize)
      removeAll s (.unmapFailed s) (pagesFrom start r.pages)
      emit (.fileUnmapped s r.pages addr)

end DemandPaging.Vm
