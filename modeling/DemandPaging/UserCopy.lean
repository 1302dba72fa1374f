import DemandPaging.Fault

namespace DemandPaging

structure Copied where
  bytes : Array UInt8
  failure : Option PagingError

namespace Vm

open Step

/-- The frame behind a user address, faulted in if need be. An access that still fails once two
faults were resolved would fail for ever. -/
def frameFor (s : SpaceId) (addr : Addr) (write : Bool) : (rounds : Nat) → Vm FrameId
  | 0 => throw .loop
  | rounds + 1 => do
      let sp ← space s
      match sp.table.access addr write true with
      | .ok (f, t) =>
          modifyTable s fun _ => t
          pure f
      | .error code =>
          if ← onFault s sp.savedStack addr true write code.notPresent then
            frameFor s addr write rounds
          else fail (.badAddress addr)

def touchPage (s : SpaceId) (addr : Addr) (write : Bool) : Vm (FrameId × Contents) := do
  let f ← frameFor s addr write 2
  pure (f, ← contents f)

def readPages (s : SpaceId) : (n : Nat) → (addr len : Nat) → (done : Array UInt8) → Vm Copied
  | 0, _, _, done => pure ⟨done, none⟩
  | n + 1, addr, len, done => do
      let offset := pageOffset addr
      let chunk := min len (pageSize - offset)
      match ← attempt (touchPage s addr false) with
      | .ok (_, page) =>
          let next ← word (addr + chunk)
          readPages s n next (len - chunk) (done ++ Buffer.slice page offset chunk)
      | .error e => pure ⟨done, some e⟩

def writePages (s : SpaceId) : (n : Nat) → (addr : Addr) → (data : Array UInt8) → Vm Unit
  | 0, _, _ => pure ()
  | n + 1, addr, data => do
      let offset := pageOffset addr
      let chunk := min data.size (pageSize - offset)
      let (f, page) ← touchPage s addr true
      setContents f (Buffer.overlay page offset (data.extract 0 chunk))
      let next ← word (addr + chunk)
      writePages s n next (data.extract chunk data.size)

def copyOut (s : SpaceId) (va : Addr) (len : Nat) : Vm Copied :=
  if va + len < wordLimit then readPages s (pagesTouched va len) va len #[]
  else pure ⟨#[], some (.badAddress va)⟩

def copyIn (s : SpaceId) (va : Addr) (data : Array UInt8) : Vm Unit :=
  if va + data.size < wordLimit then writePages s (pagesTouched va data.size) va data
  else fail (.badAddress va)

end Vm

end DemandPaging
