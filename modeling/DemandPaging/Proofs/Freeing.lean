import DemandPaging.Proofs.Acts

namespace DemandPaging

open Function (update)

variable {v w u : View} {r : PageRef} {p : Page} {l : List PageRef}

namespace View

def frame? (v : View) (r : PageRef) : Option FrameId := (v.page r).bind (·.frame)

def slot? (v : View) (r : PageRef) : Option Slot := (v.page r).bind (·.slot?)

def framesOf (v : View) (l : List PageRef) : List FrameId := l.filterMap v.frame?

def slotsOf (v : View) (l : List PageRef) : List Slot := l.filterMap v.slot?

/-- The files, once the page at `r` was written back: if it is a file page in a frame, and dirty, its
backed part is written to its file, in one call. -/
def writeBack (v : View) (file : FileId → Option File) (r : PageRef) : FileId → Option File :=
  match v.page r with
  | some ⟨_, some f, .file b⟩ =>
      if (v.entry r).any (·.dirty) then
        update file b.handle.file ((file b.handle.file).map fun F => (b.save (v.bytes f) F).2)
      else file
  | _ => file

theorem writeBack_of_kind (hp : v.page r = some p) (hk : p.kind ≠ .file) (file : FileId → Option File) :
    v.writeBack file r = file := by
  obtain ⟨w, f, st⟩ := p
  rw [writeBack, hp]
  cases st with
  | file b => exact absurd rfl hk
  | untouched | anon => cases f <;> rfl

theorem writeBack_of_clean (hx : (v.entry r).any (·.dirty) = false) (file : FileId → Option File) :
    v.writeBack file r = file := by
  unfold writeBack
  split
  · rw [if_neg (by simp [hx])]
  · rfl

theorem writeBack_of_dirty {f : FrameId} {b : Backing} (hp : v.page r = some p) (hf : p.frame = some f)
    (hs : p.state = .file b) (hx : (v.entry r).any (·.dirty) = true) (file : FileId → Option File) :
    v.writeBack file r =
      update file b.handle.file ((file b.handle.file).map fun F => (b.save (v.bytes f) F).2) := by
  obtain ⟨w, f', st⟩ := p
  cases hf
  cases hs
  rw [writeBack, hp]
  exact if_pos hx

theorem writeBack_congr (hp : w.page r = v.page r) (hx : w.entry r = v.entry r) (hb : w.bytes = v.bytes)
    (file : FileId → Option File) : w.writeBack file r = v.writeBack file r := by
  unfold writeBack
  rw [hp, hx, hb]

/-- The pages at the listed places were given up: their frames and slots are free, and what was dirty
was written back, one page after the other. -/
structure Frees (v : View) (l : List PageRef) (w : View) : Prop where
  owner : ∀ f, w.owner f = if f ∈ v.framesOf l then none else v.owner f
  status : ∀ f, w.status f = if f ∈ v.framesOf l then .free else v.status f
  clock : w.clock = v.clock.filter (· ∉ v.framesOf l)
  used : ∀ k, w.used k = (v.used k && k ∉ v.slotsOf l)
  file : w.file = l.foldl v.writeBack v.file

namespace Frees

theorem nil (v : View) : v.Frees [] v where
  owner _ := rfl
  status _ := rfl
  clock := by simp [framesOf]
  used _ := by simp [slotsOf]
  file := rfl

theorem absent (hp : v.page r = none) : v.Frees [r] v where
  owner _ := by simp [framesOf, frame?, hp]
  status _ := by simp [framesOf, frame?, hp]
  clock := by simp [framesOf, frame?, hp]
  used _ := by simp [slotsOf, slot?, hp]
  file := by simp [writeBack, hp]

theorem single (hp : v.page r = some p)
    (howner : w.owner = fun f => if p.frame = some f then none else v.owner f)
    (hstatus : w.status = fun f => if p.frame = some f then .free else v.status f)
    (hclock : w.clock = v.clock.filter (p.frame ≠ some ·)) (hused : w.used = v.usedWithout p)
    (hfile : w.file = v.writeBack v.file r) : v.Frees [r] w where
  owner f := by simp [framesOf, frame?, hp, howner]
  status f := by simp [framesOf, frame?, hp, hstatus]
  clock := by simp [framesOf, frame?, hp, hclock]
  used k := by simp [slotsOf, slot?, hp, hused, usedWithout]
  file := hfile

theorem cons (h : v.Frees [r] w) (k : w.Frees l u) (hpage : ∀ o ∈ l, w.page o = v.page o)
    (hentry : ∀ o ∈ l, w.entry o = v.entry o) (hbytes : w.bytes = v.bytes) : v.Frees (r :: l) u := by
  have hframes : v.framesOf (r :: l) = v.framesOf [r] ++ w.framesOf l := by
    unfold framesOf
    rw [← List.singleton_append, List.filterMap_append]
    congr 1
    exact List.filterMap_congr fun o ho => by rw [frame?, frame?, hpage o ho]
  have hslots : v.slotsOf (r :: l) = v.slotsOf [r] ++ w.slotsOf l := by
    unfold slotsOf
    rw [← List.singleton_append, List.filterMap_append]
    congr 1
    exact List.filterMap_congr fun o ho => by rw [slot?, slot?, hpage o ho]
  constructor
  · intro f
    rw [hframes, k.owner, h.owner]
    by_cases hf : f ∈ w.framesOf l <;> simp [hf]
  · intro f
    rw [hframes, k.status, h.status]
    by_cases hf : f ∈ w.framesOf l <;> simp [hf]
  · rw [hframes, k.clock, h.clock, List.filter_filter]
    refine List.filter_congr fun f _ => ?_
    simp [Bool.and_comm]
  · intro s
    rw [hslots, k.used, h.used, Bool.and_assoc]
    simp
  · rw [k.file, h.file, List.foldl_cons]
    exact List.foldl_ext _ _ _ fun file o ho => writeBack_congr (hpage o ho) (hentry o ho) hbytes file

end Frees

end View

end DemandPaging
