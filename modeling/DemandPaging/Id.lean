namespace DemandPaging

structure FrameId where
  index : Nat
deriving DecidableEq

def FrameId.text (f : FrameId) : String := s!"frame#{f.index}"

structure Slot where
  index : Nat
deriving DecidableEq

def Slot.text (s : Slot) : String := s!"SwapSlot({s.index})"

structure SpaceId where
  number : Nat
deriving DecidableEq

def SpaceId.text (s : SpaceId) : String := s!"as#{s.number}"

structure FileId where
  index : Nat
deriving DecidableEq

end DemandPaging
