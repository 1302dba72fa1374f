import DemandPaging.Residency

namespace DemandPaging.Vm

open Step

def snapshot (parent : SpaceId) (va : Addr) : Vm Contents := do
  match ← pinPage parent va with
  | some f =>
      let page ← contents f
      install f ⟨parent, va⟩
      pure page
  | none =>
      match (← space parent).state? va with
      | some (.anon (some slot) _) =>
          let r ← onSwap (SwapArea.peek slot (Buffer.zero pageSize))
          check r.failure
          pure r.bytes
      | some (.anon none _) => fail (.noContents va)
      | some (.file b) =>
          let r ← load b (Buffer.zero pageSize)
          check r.failure
          pure r.bytes
      | some (.untouched _ _) | none =>
          emit (.nothingToCopy parent va)
          fail (.badAddress va)

def duplicateRegions : List (Addr × Region) → Vm (List (Addr × Region))
  | [] => pure []
  | (start, r) :: rest => do
      let h ← duplicate r.handle
      let rest ← duplicateRegions rest
      pure ((start, { r with handle := h }) :: rest)

/-- The child's backing of a page: through the handle of the last region that starts at or below
the page, if the page lies in it, and else through a handle of its own. -/
def childBacking (regions : List (Addr × Region)) (va : Addr) (b : Backing) : Vm Backing := do
  match (regions.filter (·.1 ≤ va)).getLast? with
  | some (start, r) =>
      let stop ← word (start + r.pages * pageSize)
      if va < stop then pure { b with handle := r.handle }
      else pure { b with handle := ← duplicate b.handle }
  | none => pure { b with handle := ← duplicate b.handle }

def inheritPage (child parent : SpaceId) (regions : List (Addr × Region)) (va : Addr) (p : Page) :
    Vm Unit := do
  match p.state with
  | .untouched filling (.file b) =>
      let b ← childBacking regions va b
      register child va p.writable (.file b) filling
  | .untouched filling purpose => register child va p.writable purpose filling
  | .anon _ stack =>
      let copy ← snapshot parent va
      let purpose := if stack then .stack else .anon
      register child va p.writable purpose (some (.snapshot copy))
      makeResident child va
  | .file b =>
      if p.isResident then
        let dirty := (← space parent).table.isDirty va
        let copy ← snapshot parent va
        let b ← childBacking regions va b
        register child va p.writable (.file b) (some (.snapshot copy))
        makeResident child va
        if dirty then modifyTable child (·.setDirty va true)
      else
        let b ← childBacking regions va b
        register child va p.writable (.file b) (some (.segment b))

def inheritPages (child parent : SpaceId) (regions : List (Addr × Region)) :
    List (Addr × Page) → Vm Unit
  | [] => pure ()
  | (va, p) :: rest => do
      inheritPage child parent regions va p
      inheritPages child parent regions rest

def inherit (child parent : SpaceId) : Vm Unit := do
  let before ← space parent
  let regions ← duplicateRegions before.regions.toList
  inheritPages child parent regions before.pages.toList
  let after ← space parent
  modifySpace child fun sp => { sp with
    regions := sp.regions.insertMany regions
    stackBottom := after.stackBottom
    savedStack := after.savedStack }
  emit (.forked child parent)

/-- Makes the child a copy of the parent, or leaves it empty. -/
def fork (child parent : SpaceId) : Vm Unit := do
  match ← attempt (inherit child parent) with
  | .ok () => pure ()
  | .error e =>
      destroy child
      fail e

end DemandPaging.Vm
