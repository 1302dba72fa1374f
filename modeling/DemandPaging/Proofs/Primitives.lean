import DemandPaging.Proofs.Coherence
import DemandPaging.Proofs.Outcome

namespace DemandPaging

open Function (update)
open Step Machine

variable {α : Type} {m m' n : Machine} {s : SpaceId} {sp : Space} {va : Addr} {f : FrameId}
  {P R : Act → Prop} {E : Stop → Machine → Prop}

namespace Machine

def tell (m : Machine) (e : Event) : Machine := { m with log := m.log.push e }

def withFile (m : Machine) (id : FileId) (F : File) : Machine :=
  { m with files := m.files.setIfInBounds id.index F }

def withBytes (m : Machine) (f : FrameId) (page : Contents) : Machine :=
  { m with frames := m.frames.withContents f page }

theorem Consistent.tell (h : m.Consistent) (e : Event) : (m.tell e).Consistent :=
  ⟨h.frames, h.swap, h.separate⟩

theorem Consistent.withFile (h : m.Consistent) (id : FileId) (F : File) :
    (m.withFile id F).Consistent :=
  ⟨h.frames, h.swap, h.separate⟩

theorem Consistent.withFrames (h : m.Consistent) {t : Frames} (ht : t.Fits) :
    Consistent { m with frames := t } :=
  ⟨ht, h.swap, h.separate⟩

theorem Consistent.withSwap (h : m.Consistent) {a : SwapArea} (ha : a.Fits) :
    Consistent { m with swap := a } :=
  ⟨h.frames, ha, h.separate⟩

theorem Consistent.withBytes (h : m.Consistent) (f : FrameId) (page : Contents) :
    (m.withBytes f page).Consistent :=
  h.withFrames (h.frames.withContents page)

theorem view_tell (m : Machine) (e : Event) :
    (m.tell e).view = { m.view with log := m.view.log.push e } := rfl

theorem view_withFrames (m : Machine) (t : Frames) :
    view { m with frames := t } = { m.view with
      owner := t.ownerAt, status := t.status, bytes := t.bytesAt, clock := t.clock } := rfl

theorem view_withSwap (m : Machine) (a : SwapArea) :
    view { m with swap := a } = { m.view with used := a.holds, kept := a.pageOf } := rfl

theorem view_withBytes (h : m.Consistent) (hf : m.view.status f ≠ .absent) (page : Contents) :
    (m.withBytes f page).view = { m.view with bytes := update m.view.bytes f page } := by
  rw [withBytes, view_withFrames, h.frames.bytesAt_withContents hf]
  rfl

theorem view_withFile (m : Machine) (id : FileId) (F : File) :
    (m.withFile id F).view = { m.view with
      file := update m.view.file id ((m.view.file id).map fun _ => F) } := by
  ext1
  case file =>
    funext ⟨i⟩
    by_cases hi : i = id.index
    · subst hi
      by_cases hlt : id.index < m.files.size <;> simp [view, withFile, hlt]
    · have hne : (⟨i⟩ : FileId) ≠ id := fun h => hi (by rw [← h])
      simp [view, withFile, Function.update_of_ne hne, Ne.symm hi]
  all_goals rfl

theorem fileAt_view (m : Machine) (id : FileId) : m.view.fileAt id = m.file id := rfl

theorem space?_isSome (m : Machine) (s : SpaceId) : (m.space? s).isSome = (m.view.book s).isSome := by
  simp [view]

theorem space?_of_book (h : (m.view.book s).isSome) : ∃ sp, m.space? s = some sp :=
  Option.isSome_iff_exists.1 (by rwa [space?_isSome])

theorem space?_of_page {o : PageRef} {p : Page} (h : m.view.page o = some p) : ∃ sp, m.space? o.space = some sp := by
  cases hb : m.space? o.space with
  | none => simp [view, hb] at h
  | some sp => exact ⟨sp, rfl⟩

theorem space?_withSpace_self (hs : m.space? s = some sp) (f : Space → Space) :
    (m.withSpace s f).space? s = some (f sp) := by
  simp [space?_withSpace, hs]

theorem Consistent.withTable (h : m.Consistent) {g : PageTable → PageTable}
    (hg : ∀ {t : PageTable}, t.Separate → (g t).Separate) :
    (m.withSpace s fun sp => { sp with table := g sp.table }).Consistent :=
  h.withSpace fun hs => hg (h.separate hs)

theorem view_unmap (h : m.Consistent) (hs : m.space? s = some sp) (va : Addr) :
    (m.withSpace s fun sp => { sp with table := sp.table.unmap va }).view =
      { m.view with entry := update m.view.entry ⟨s, pageBase va⟩ none } :=
  view_withSpace_entry hs rfl rfl fun a => (h.separate hs).translation?_unmap va a

theorem Consistent.index_lt (h : m.Consistent) (hf : m.view.status f ≠ .absent) : f.index < 0x100000000 := by
  have hlt := (h.frames.lt_of_status hf).1
  rw [h.frames.owners_size] at hlt
  exact hlt.trans h.frames.size_lt

/-- A user page that is not mapped can be mapped to a frame if, and only if, a page table can name the frame. -/
theorem Consistent.map_cases (h : m.Consistent) (hs : m.space? s = some sp) (ha : isPageAligned va = true)
    (hu : isKernel va = false) (hx : m.view.entry ⟨s, va⟩ = none) (hf : f.index < 0x100000000) (w : Bool) :
    (f.index < 0x100000 ∧ ∃ t, sp.table.map va f w = some t ∧
      (m.withSpace s fun sp => { sp with table := t }).Consistent ∧
      (m.withSpace s fun sp => { sp with table := t }).view =
        { m.view with entry := update m.view.entry ⟨s, va⟩ (some (.fresh f w)) }) ∨
    0x100000 ≤ f.index ∧ sp.table.map va f w = none := by
  have hcases := (h.separate hs).map_eq va f w
  rw [Nat.mod_eq_of_lt hf, hu, ← entry_eq hs ha, hx] at hcases
  obtain ⟨t, ht, hsep, -, hlt, -, htr⟩ | ⟨hnone, hk | hk | hk⟩ := hcases
  · refine .inl ⟨hlt, t, ht, h.withSpace fun _ => hsep, ?_⟩
    conv_rhs => rw [← pageBase_of_aligned ha]
    exact view_withSpace_entry hs rfl rfl htr
  · cases hk
  · exact .inr ⟨Nat.not_lt.1 hk, hnone⟩
  · cases hk

theorem view_setDirty (h : m.Consistent) (hs : m.space? s = some sp) (va : Addr) (b : Bool) :
    (m.withSpace s fun sp => { sp with table := sp.table.setDirty va b }).view =
      { m.view with
        entry := update m.view.entry ⟨s, pageBase va⟩
          ((m.view.entry ⟨s, pageBase va⟩).map fun x => { x with dirty := b }) } := by
  refine view_withSpace_entry hs rfl rfl fun a => ?_
  rw [entry_pageBase hs, PageTable.setDirty_eq_rewrite]
  exact (h.separate hs).translation?_rewrite va a (fun e => e.setDirty_present b)
    fun e => e.setDirty_translation b

theorem view_setAccessed (h : m.Consistent) (hs : m.space? s = some sp) (va : Addr) (b : Bool) :
    (m.withSpace s fun sp => { sp with table := sp.table.setAccessed va b }).view =
      { m.view with
        entry := update m.view.entry ⟨s, pageBase va⟩
          ((m.view.entry ⟨s, pageBase va⟩).map fun x => { x with accessed := b }) } := by
  refine view_withSpace_entry hs rfl rfl fun a => ?_
  rw [entry_pageBase hs, PageTable.setAccessed_eq_rewrite]
  exact (h.separate hs).translation?_rewrite va a (fun e => e.setAccessed_present b)
    fun e => e.setAccessed_translation b

structure Goes (m : Machine) (P : Act → Prop) (m' : Machine) : Prop where
  consistent : m'.Consistent
  path : View.Path P m.view m'.view

structure Leads (m : Machine) (P : Act → Prop) (m' : Machine) : Prop extends Goes m P m' where
  pinned : ∀ g, m'.view.status g = .pinned ↔ m.view.status g = .pinned

/-- The stored tables are what they should be and tell one story. -/
structure Sound (m : Machine) : Prop where
  consistent : m.Consistent
  coherent : m.view.Coherent

theorem Goes.refl (h : m.Consistent) : m.Goes P m := ⟨h, .refl⟩

theorem Goes.trans (h : m.Goes P m') (k : m'.Goes P n) : m.Goes P n :=
  ⟨k.consistent, h.path.trans k.path⟩

theorem Goes.mono (h : m.Goes P m') (hp : ∀ a, P a → R a) : m.Goes R m' :=
  ⟨h.consistent, h.path.mono hp⟩

theorem Goes.sound (h : m.Goes P m') (hm : m.Sound) : m'.Sound :=
  ⟨h.consistent, h.path.coherent hm.coherent⟩

theorem Goes.pool_size (h : m.Goes P n) (hm : m.Sound) : n.frames.pool.size = m.frames.pool.size := by
  have hle (i : Nat) : n.frames.pool.size ≤ i ↔ m.frames.pool.size ≤ i := by
    have habsent (k : Machine) : k.view.status ⟨i⟩ = .absent ↔ k.frames.pool.size ≤ i :=
      FramePool.status_eq_absent_iff
    rw [← habsent, ← habsent, h.path.absent_iff hm.coherent]
  exact Nat.le_antisymm ((hle _).2 (Nat.le_refl _)) ((hle _).1 (Nat.le_refl _))

theorem Goes.step {a : Act} (h : m.Goes P m') (hc : n.Consistent) (ha : P a)
    (hs : m'.view.Step a n.view) : m.Goes P n :=
  ⟨hc, h.path.trans (hs.path ha)⟩

theorem Leads.refl (h : m.Consistent) : m.Leads P m := ⟨.refl h, fun _ => Iff.rfl⟩

theorem Leads.trans (h : m.Leads P m') (k : m'.Leads P n) : m.Leads P n :=
  ⟨h.toGoes.trans k.toGoes, fun g => (k.pinned g).trans (h.pinned g)⟩

theorem Leads.mono (h : m.Leads P m') (hp : ∀ a, P a → R a) : m.Leads R m' :=
  ⟨h.toGoes.mono hp, h.pinned⟩

theorem Leads.sound (h : m.Leads P m') (hm : m.Sound) : m'.Sound := h.toGoes.sound hm

theorem Leads.pool_size (h : m.Leads P n) (hm : m.Sound) : n.frames.pool.size = m.frames.pool.size :=
  h.toGoes.pool_size hm

theorem Leads.step {a : Act} (h : m.Leads P m') (hc : n.Consistent) (ha : P a)
    (hs : m'.view.Step a n.view)
    (hpin : ∀ g, n.view.status g = .pinned ↔ m'.view.status g = .pinned) : m.Leads P n :=
  ⟨h.toGoes.step hc ha hs, fun g => (hpin g).trans (h.pinned g)⟩

theorem Leads.tell (h : m.Leads P m') (hq : P .quiet) (e : Event) : m.Leads P (m'.tell e) :=
  h.step (h.consistent.tell e) hq (.told e) fun _ => Iff.rfl

theorem Goes.tell (h : m.Goes P m') (hq : P .quiet) (e : Event) : m.Goes P (m'.tell e) :=
  h.step (h.consistent.tell e) hq (.told e)

theorem booked (h : m.Consistent) (hs : m.space? s = some sp) {g : Space → Space}
    (hp : ∀ sp, (g sp).pages = sp.pages) (ht : ∀ sp, (g sp).table = sp.table) :
    m.Leads (· = .booked s (g sp).book) (m.withSpace s g) ∧ (m.withSpace s g).view = { m.view with
      book := update m.view.book s (some (g sp).book) } := by
  have hv := view_withSpace_book hs (f := g) (hp sp) (ht sp)
  refine ⟨⟨⟨h.withSpace fun hr => ?_, ?_⟩, fun _ => by rw [hv]⟩, hv⟩
  · rw [ht]
    exact h.separate hr
  · rw [hv]
    exact (View.Step.booked _ (by rw [book_eq hs]; rfl)).path rfl

end Machine

namespace Vm

theorem yields_emit {e : Event} {Q : Unit → Machine → Prop} :
    Yields (emit e) m Q E ↔ Q () (m.tell e) := Iff.rfl

theorem yields_space (hs : m.space? s = some sp) {Q : Space → Machine → Prop} :
    Yields (space s) m Q E ↔ Q sp m := by
  unfold space
  rw [yields_bind, yields_get, hs]
  rfl

theorem yields_modifySpace {g : Space → Space} {Q : Unit → Machine → Prop} :
    Yields (modifySpace s g) m Q E ↔ Q () (m.withSpace s g) := Iff.rfl

theorem yields_modifyTable {g : PageTable → PageTable} {Q : Unit → Machine → Prop} :
    Yields (modifyTable s g) m Q E ↔
      Q () (m.withSpace s fun sp => { sp with table := g sp.table }) := Iff.rfl

theorem yields_onSwap {x : Step SwapArea α} {Q : α → Machine → Prop} :
    Yields (onSwap x) m Q E ↔
      Yields x m.swap (fun a swap => Q a { m with swap := swap }) fun e swap =>
        E e { m with swap := swap } := by
  unfold onSwap
  rw [yields_zoom]

theorem yields_modifyFrames {g : Frames → Except Panic Frames} {Q : Unit → Machine → Prop} :
    Yields (modifyFrames g) m Q E ↔ match g m.frames with
      | .ok t => Q () { m with frames := t }
      | .error p => E (.panic p) m := by
  unfold modifyFrames
  rw [yields_bind, yields_get, yields_bind, yields_ofPanic]
  cases g m.frames <;> rfl

theorem yields_contents (h : m.Consistent) (hf : m.view.status f ≠ .absent)
    {Q : Contents → Machine → Prop} : Yields (contents f) m Q E ↔ Q (m.view.bytes f) m := by
  unfold contents
  rw [yields_bind, yields_get, h.frames.contents hf]
  rfl

theorem yields_setContents (h : m.Consistent) (hf : m.view.status f ≠ .absent) {page : Contents}
    {Q : Unit → Machine → Prop} : Yields (setContents f page) m Q E ↔ Q () (m.withBytes f page) := by
  unfold setContents
  rw [yields_modifyFrames, h.frames.setContents_eq hf]
  rfl

theorem yields_putFile {id : FileId} {F : File} {Q : Unit → Machine → Prop} :
    Yields (putFile id F) m Q E ↔ Q () (m.withFile id F) := Iff.rfl

end Vm

end DemandPaging
