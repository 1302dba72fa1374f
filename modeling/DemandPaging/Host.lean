import DemandPaging.Machine

namespace DemandPaging

structure Host where
  machine : Machine
  booted : Bool

namespace Host

def initial : Host := ⟨{ Machine.boot 0 (.blank 0 0) with log := #[] }, false⟩

def boot (h : Host) (frames : Nat) (disk : Disk) : Except Panic Unit × Host :=
  let fresh := Machine.boot frames disk
  let told := { h.machine with log := h.machine.log ++ fresh.log }
  if h.booted then (.error .bootedTwice, { h with machine := told })
  else (.ok (), ⟨{ told with frames := fresh.frames, swap := fresh.swap }, true⟩)

def machine? (h : Host) : Except Panic Machine :=
  if h.booted then .ok h.machine else .error .notBooted

end Host

end DemandPaging
