import DemandPaging.Proofs.Keeping

namespace DemandPaging

open Function (update)

def Backing.Readable (b : Backing) (F : File) : Prop :=
  ∀ calls, ({ F with calls := calls }.read b.offset b.expected).1.size = b.expected

theorem Backing.Readable.congr {b : Backing} {F G : File} (h : b.Readable F) (hFG : F.Same G) : b.Readable G := by
  intro calls
  have hF := h calls
  simp only [File.read, File.slice, File.reach, Array.size_extract] at hF ⊢
  rwa [hFG.size, hFG.limits]

theorem File.Same.refl (F : File) : F.Same F := ⟨rfl, rfl⟩

theorem File.Same.trans {F G H : File} (h : F.Same G) (k : G.Same H) : F.Same H :=
  ⟨k.size.trans h.size, k.limits.trans h.limits⟩

def Page.isPlain (p : Page) : Bool :=
  match p.state with
  | .untouched none .anon | .untouched none .stack | .anon _ _ => true
  | .untouched .. | .file _ => false

namespace View

variable {v w : View} {a : Act} {p : Page} {P : Act → Prop}

def Sure (v : View) : Filling → Prop
  | .segment b => b.Readable (v.fileAt b.handle.file)
  | .snapshot _ => True
  | .custom run => ∀ page, (run page).failure = none

/-- A page that is anonymous, or will be once it is touched, and whose filling does not fail. -/
structure Docile (v : View) (p : Page) : Prop where
  finalKind : p.finalKind = .anon
  sure : ∀ i purpose, p.state = .untouched (some i) purpose → v.Sure i

def Ready (v : View) (p : Page) : Prop :=
  match p.state with
  | .untouched (some i) _ => v.Sure i
  | .untouched none (.file b) | .file b => b.Readable (v.fileAt b.handle.file)
  | .untouched none .anon | .untouched none .stack | .anon _ _ => True

theorem Docile.ready (h : v.Docile p) : v.Ready p := by
  obtain ⟨_, _, ⟨_ | i, _ | _ | b⟩ | _ | b⟩ := p
  case untouched.some.anon | untouched.some.stack | untouched.some.file => exact h.sure i _ rfl
  case untouched.none.file | file => cases h.finalKind
  all_goals trivial

def Mild (v : View) : Prop := ∀ r p, v.page r = some p → v.Docile p

theorem Sure.congr {i : Filling} (h : v.Sure i) (hvw : ∀ id, (v.fileAt id).Same (w.fileAt id)) : w.Sure i := by
  cases i with
  | segment b => exact Backing.Readable.congr h (hvw _)
  | snapshot | custom => exact h

theorem Ready.congr (h : v.Ready p) (hvw : ∀ id, (v.fileAt id).Same (w.fileAt id)) : w.Ready p := by
  obtain ⟨_, _, ⟨_ | i, _ | _ | b⟩ | _ | b⟩ := p
  case untouched.some.anon | untouched.some.stack | untouched.some.file => exact Sure.congr h hvw
  case untouched.none.file | file => exact Backing.Readable.congr h (hvw _)
  all_goals trivial

theorem Docile.congr (h : v.Docile p) (hvw : ∀ id, (v.fileAt id).Same (w.fileAt id)) : w.Docile p :=
  ⟨h.finalKind, fun i purpose hst => (h.sure i purpose hst).congr hvw⟩

theorem docile_of_anon {slot : Option Slot} {stack : Bool} (hst : p.state = .anon slot stack) : v.Docile p :=
  ⟨by rw [Page.finalKind, hst], fun i purpose h => by rw [hst] at h; cases h⟩

theorem docile_stack : v.Docile (.lazy true .stack none) := ⟨rfl, nofun⟩

theorem file_same_of_update {id : FileId} {g : File → File} (hg : ∀ F : File, F.Same (g F))
    (hw : w.file = update v.file id ((v.file id).map g)) (i : FileId) : (v.fileAt i).Same (w.fileAt i) := by
  unfold fileAt
  rw [hw]
  by_cases hi : i = id
  · subst hi
    rw [Function.update_self]
    cases v.file i with
    | none => exact .refl _
    | some F => exact hg F
  · rw [Function.update_of_ne hi]
    exact .refl _

theorem Step.file_same (h : v.Step a w) (ha : ∀ id g, a ≠ .put id g) (id : FileId) :
    (v.fileAt id).Same (w.fileAt id) := by
  cases h with
  | called => exact file_same_of_update (g := fun F => { F with calls := F.calls + 1 }) (fun _ => ⟨rfl, rfl⟩) rfl id
  | flushed | cut => exact file_same_of_update (fun F => F.same_write ..) rfl id
  | put => exact absurd rfl (ha _ _)
  | _ => exact .refl _

theorem Path.file_same (h : Path P v w) (hP : ∀ id g, ¬ P (.put id g)) (id : FileId) :
    (v.fileAt id).Same (w.fileAt id) := by
  apply h.keeps (I := fun w => (v.fileAt id).Same (w.fileAt id)) (.refl _)
  intro _ _ a ha hs hv
  exact hv.trans (hs.file_same (fun id g heq => hP id g (heq ▸ ha)) id)

theorem docile_resident (h : v.Docile p) (f : FrameId) : v.Docile ⟨p.writable, some f, Vm.residentState p.state⟩ := by
  obtain ⟨wr, frame, st⟩ := p
  have hkind := h.finalKind
  cases st with
  | untouched filling purpose =>
      cases purpose with
      | anon | stack => exact docile_of_anon rfl
      | file b => cases hkind
  | anon slot stack => exact docile_of_anon rfl
  | file b => cases hkind

theorem docile_of_update {r o : PageRef} {x : Option Page} {q : Page}
    (hv : ∀ r p, v.page r = some p → w.Docile p) (hx : ∀ p, x = some p → w.Docile p)
    (hq : update v.page r x o = some q) : w.Docile q := by
  by_cases ho : o = r
  · rw [ho, Function.update_self] at hq
    exact hx q hq
  · rw [Function.update_of_ne ho] at hq
    exact hv o q hq

/-- Pages stay docile as long as those that are added are. -/
theorem Step.mild (h : v.Step a w) (hv : v.Mild) (ha : ∀ id g, a ≠ .put id g)
    (hadd : ∀ r p, a = .added r p → v.Docile p) : w.Mild := by
  have hsame := h.file_same ha
  have hold (r : PageRef) (p : Page) (hp : v.page r = some p) : w.Docile p := (hv r p hp).congr hsame
  cases h with
  | swapped =>
      intro o q
      refine docile_of_update hold fun p hp => ?_
      cases hp
      exact docile_of_anon rfl
  | discarded hp hst =>
      have hkind := (hv _ _ hp).finalKind
      rw [Page.finalKind, hst] at hkind
      cases hkind
  | @loaded f r p c hp =>
      intro o q
      refine docile_of_update hold fun q hq => ?_
      cases hq
      exact docile_resident (hold r p hp) f
  | added =>
      intro o q
      refine docile_of_update hold fun p hp => ?_
      cases hp
      exact (hadd _ _ rfl).congr hsame
  | removed =>
      intro o q
      refine docile_of_update hold fun p hp => ?_
      cases hp
  | dropped s =>
      intro o q hq
      by_cases ho : o.space = s
      · cases (if_pos ho).symm.trans hq
      · exact hold o q ((if_neg ho).symm.trans hq)
  | _ => exact hold

theorem Path.mild (h : Path P v w) (hv : v.Mild) (hput : ∀ id g, ¬ P (.put id g))
    (hadd : ∀ r p, P (.added r p) → v.Docile p) : w.Mild := by
  refine (h.keeps (I := fun w => w.Mild ∧ ∀ id, (v.fileAt id).Same (w.fileAt id)) ⟨hv, fun _ => .refl _⟩
    fun {u _ a} ha hs hu => ?_).1
  have hnone (id : FileId) (g : File → File) : a ≠ .put id g := fun heq => hput id g (heq ▸ ha)
  exact ⟨hs.mild hu.1 hnone fun r p heq => (hadd r p (heq ▸ ha)).congr hu.2,
    fun id => (hu.2 id).trans (hs.file_same hnone id)⟩

end View

theorem docile_of_isPlain {v : View} {p : Page} (h : p.isPlain = true) : v.Docile p := by
  unfold Page.isPlain at h
  split at h
  · exact ⟨by rw [Page.finalKind, ‹p.state = _›], fun i purpose hst => by simp_all⟩
  · exact ⟨by rw [Page.finalKind, ‹p.state = _›], fun i purpose hst => by simp_all⟩
  · exact View.docile_of_anon ‹_›
  all_goals cases h

end DemandPaging
