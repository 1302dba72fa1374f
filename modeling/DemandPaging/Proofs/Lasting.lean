import DemandPaging.Proofs.Keeping

namespace DemandPaging

open Step Machine

structure Lasting (I : Machine → Prop) : Prop where
  log : ∀ {m} (e : Event), I m → I (m.tell e)
  spaces : ∀ {m} (spaces : Std.ExtTreeMap Nat Space) (next : Nat), I m →
    I { m with spaces := spaces, nextSpace := next }
  frames : ∀ {m} (t : Frames), I m → I { m with frames := t }
  swap : ∀ {m} {a : SwapArea}, m.swap.Same a → I m → I { m with swap := a }
  files : ∀ {m} (files : Array File), I m → I { m with files := files }
  handle : ∀ {m}, I m → I { m with nextHandle := m.nextHandle + 1 }

theorem lasting_swap (a : SwapArea) : Lasting fun m => a.Same m.swap where
  log _ hm := hm
  spaces _ _ hm := hm
  frames _ hm := hm
  swap hsame hm := hm.trans hsame
  files _ hm := hm
  handle hm := hm

def Numbered (k : Nat) (m : Machine) : Prop := k ≤ m.nextHandle

theorem lasting_numbered (k : Nat) : Lasting (Numbered k) where
  log _ hm := hm
  spaces _ _ hm := hm
  frames _ hm := hm
  swap _ hm := hm
  files _ hm := hm
  handle hm := Nat.le_succ_of_le hm

variable {I : Machine → Prop}

theorem Lasting.steady (h : Lasting I) : Steady (fun _ => True) I where
  tell e _ hm := h.log e hm
  space _ _ hm := h.spaces _ _ hm
  frames t hm := h.frames t hm
  swap hsame hm := h.swap hsame hm
  file _ hm := h.files _ hm
  handle hm := h.handle hm

namespace Vm

/-- What lasts is kept by every part, and so by every step on the machine. -/
theorem lasting_whole (h : Lasting I) : Whole fun _ => Keeps I where
  toFramed := steady_framed h.steady
  tell e := ⟨fun _ => h.log e⟩
  acquire := steady_acquire h.steady fun _ => trivial
  putFile _ _ := ⟨fun _ => h.files _⟩
  newFile _ := ⟨fun _ => h.files _⟩
  newSpace := ⟨fun _ => h.spaces _ _⟩
  dropSpace _ := ⟨fun _ => h.spaces _ _⟩

end Vm

end DemandPaging
