import DemandPaging.Id

namespace DemandPaging.Clock

variable {m : Type → Type} [Monad m]

/-- One sweep over the frames, oldest first: those that were referenced go to the back, and the
first that was not leaves the list. -/
def sweep (referenced : FrameId → m Bool) (spared : List FrameId) :
    List FrameId → m (Option FrameId × List FrameId)
  | [] => pure (none, spared.reverse)
  | f :: rest => do
      if ← referenced f then sweep referenced (f :: spared) rest
      else pure (some f, rest ++ spared.reverse)

def choose (referenced : FrameId → m Bool) (frames : List FrameId) :
    m (Option FrameId × List FrameId) :=
  sweep referenced [] frames

end DemandPaging.Clock
