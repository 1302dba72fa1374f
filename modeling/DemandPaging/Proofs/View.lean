import DemandPaging.Machine
import DemandPaging.Proofs.FlatTable
import DemandPaging.Proofs.FrameView
import DemandPaging.Proofs.SlotPages

namespace DemandPaging

open Function (update)

structure Book where
  regions : Std.ExtTreeMap Addr Region
  stackBottom : Addr
  savedStack : Addr

def Space.book (sp : Space) : Book := ⟨sp.regions, sp.stackBottom, sp.savedStack⟩

theorem Space.pairwise_pages (sp : Space) : sp.pages.toList.Pairwise (·.1 ≠ ·.1) :=
  Std.ExtTreeMap.distinct_keys_toList.imp fun hne heq => hne (by simp [heq])

/-- A machine seen as a family of maps, without the way they are stored. -/
@[ext]
structure View where
  book : SpaceId → Option Book
  page : PageRef → Option Page
  entry : PageRef → Option Translation
  owner : FrameId → Option PageRef
  status : FrameId → FrameStatus
  bytes : FrameId → Contents
  clock : List FrameId
  used : Slot → Bool
  kept : Slot → Contents
  file : FileId → Option File
  nextSpace : Nat
  log : Array Event

namespace Machine

variable {m : Machine} {s : SpaceId} {sp : Space} {va : Addr}

def view (m : Machine) : View where
  book s := (m.space? s).map Space.book
  page r := (m.space? r.space).bind fun sp => sp.pages[r.va]?
  entry r := (m.space? r.space).bind fun sp =>
    if isPageAligned r.va then sp.table.translation? r.va else none
  owner := m.frames.ownerAt
  status := m.frames.status
  bytes := m.frames.bytesAt
  clock := m.frames.clock
  used := m.swap.holds
  kept := m.swap.pageOf
  file f := m.files[f.index]?
  nextSpace := m.nextSpace
  log := m.log

def page? (m : Machine) (r : PageRef) : Option Page := (m.space? r.space).bind (·.pages[r.va]?)

/-- What the stored tables have to satisfy for the view to be all there is to say. -/
structure Consistent (m : Machine) : Prop where
  frames : m.frames.Fits
  swap : m.swap.Fits
  separate : ∀ {s sp}, m.space? s = some sp → sp.table.Separate

def withSpace (m : Machine) (s : SpaceId) (f : Space → Space) : Machine :=
  { m with spaces := m.spaces.modify s.number f }

theorem space?_withSpace (m : Machine) (s r : SpaceId) (f : Space → Space) :
    (m.withSpace s f).space? r = if r = s then (m.space? s).map f else m.space? r := by
  unfold space? withSpace
  rw [Std.ExtTreeMap.getElem?_modify]
  cases s
  cases r
  simp only [SpaceId.mk.injEq, Std.LawfulEqCmp.compare_eq_iff_eq]
  split <;> split <;> simp_all

theorem withSpace_congr (hs : m.space? s = some sp) {f g : Space → Space} (h : f sp = g sp) :
    m.withSpace s f = m.withSpace s g := by
  have hspaces : m.spaces.modify s.number f = m.spaces.modify s.number g := by
    refine Std.ExtTreeMap.ext_getElem? fun k => ?_
    rw [Std.ExtTreeMap.getElem?_modify, Std.ExtTreeMap.getElem?_modify]
    split
    · rename_i hk
      obtain rfl := Std.LawfulEqCmp.eq_of_compare hk
      have hs : m.spaces[s.number]? = some sp := hs
      rw [hs, Option.map_some, Option.map_some, h]
    · rfl
  unfold withSpace
  rw [hspaces]

theorem Consistent.withSpace (h : m.Consistent) {f : Space → Space}
    (hf : ∀ {sp}, m.space? s = some sp → (f sp).table.Separate) : (m.withSpace s f).Consistent where
  frames := h.frames
  swap := h.swap
  separate {r sp} hr := by
    rw [space?_withSpace] at hr
    split at hr
    · obtain ⟨sp, hsp, rfl⟩ := Option.map_eq_some_iff.1 hr
      exact hf hsp
    · exact h.separate hr

theorem Consistent.setPage (h : m.Consistent) (s : SpaceId) (va : Addr) (p : Page) :
    (m.withSpace s (·.setPage va p)).Consistent :=
  h.withSpace fun hs => (h.separate hs :)

theorem Consistent.erasePage (h : m.Consistent) (s : SpaceId) (va : Addr) :
    (m.withSpace s (·.erasePage va)).Consistent :=
  h.withSpace fun hs => (h.separate hs :)

theorem view_withSpace (hs : m.space? s = some sp) (f : Space → Space) :
    (m.withSpace s f).view = { m.view with
      book := update m.view.book s (some (f sp).book)
      page := fun r => if r.space = s then (f sp).pages[r.va]? else m.view.page r
      entry := fun r => if r.space = s then
          if isPageAligned r.va then (f sp).table.translation? r.va else none
        else m.view.entry r } := by
  ext1
  case book =>
    funext r
    by_cases hr : r = s <;> simp [view, space?_withSpace, hr, hs]
  case page | entry =>
    funext r
    by_cases hr : r.space = s <;> simp [view, space?_withSpace, hr, hs]
  all_goals rfl

theorem page_eq (hs : m.space? s = some sp) (va : Addr) : m.view.page ⟨s, va⟩ = sp.pages[va]? := by
  simp [view, hs]

theorem mem_pages (hs : m.space? s = some sp) {x : Addr × Page} :
    x ∈ sp.pages.toList ↔ m.view.page ⟨s, x.1⟩ = some x.2 := by
  rw [page_eq hs]
  exact Std.ExtTreeMap.mem_toList_iff_getElem?_eq_some

theorem pages_eq_empty_iff (hs : m.space? s = some sp) :
    sp.pages = ∅ ↔ ∀ va, m.view.page ⟨s, va⟩ = none := by
  constructor
  · intro hnone va
    rw [page_eq hs, hnone]
    exact Std.ExtTreeMap.getElem?_empty
  · intro hnone
    refine Std.ExtTreeMap.ext_getElem? fun va => ?_
    rw [← page_eq hs, hnone]
    exact Std.ExtTreeMap.getElem?_empty.symm

theorem entry_eq (hs : m.space? s = some sp) {va : Addr} (ha : isPageAligned va = true) :
    m.view.entry ⟨s, va⟩ = sp.table.translation? va := by
  simp [view, hs, ha]

theorem entry_pageBase (hs : m.space? s = some sp) (va : Addr) :
    m.view.entry ⟨s, pageBase va⟩ = sp.table.translation? va := by
  rw [entry_eq hs (pageBase_aligned va), PageTable.translation?_pageBase]

theorem book_eq (hs : m.space? s = some sp) : m.view.book s = some sp.book := by simp [view, hs]

theorem view_withSpace_page (hs : m.space? s = some sp) {f : Space → Space} {p : Option Page}
    (hb : (f sp).book = sp.book) (ht : (f sp).table = sp.table)
    (hp : ∀ a, (f sp).pages[a]? = if a = va then p else sp.pages[a]?) :
    (m.withSpace s f).view = { m.view with page := update m.view.page ⟨s, va⟩ p } := by
  rw [view_withSpace hs]
  ext1
  case book => exact Function.update_eq_self_iff.2 (by rw [hb, book_eq hs])
  case page =>
    funext ⟨r, a⟩
    by_cases hr : r = s
    · subst hr
      simp [hp, Function.update_apply, page_eq hs]
    · simp [hr, Function.update_of_ne]
  case entry =>
    funext ⟨r, a⟩
    by_cases hr : r = s
    · subst hr
      simp [ht, view, hs]
    · simp [hr]
  all_goals rfl

theorem view_withSpace_entry (hs : m.space? s = some sp) {f : Space → Space}
    {x : Option Translation} (hb : (f sp).book = sp.book) (hp : (f sp).pages = sp.pages)
    (hx : ∀ a, (f sp).table.translation? a =
      if pageBase a = pageBase va then x else sp.table.translation? a) :
    (m.withSpace s f).view = { m.view with entry := update m.view.entry ⟨s, pageBase va⟩ x } := by
  rw [view_withSpace hs]
  ext1
  case book => exact Function.update_eq_self_iff.2 (by rw [hb, book_eq hs])
  case page =>
    funext ⟨r, a⟩
    by_cases hr : r = s
    · subst hr
      simp [hp, page_eq hs]
    · simp [hr]
  case entry =>
    funext ⟨r, a⟩
    by_cases hr : r = s
    · subst hr
      by_cases ha : isPageAligned a
      · simp [ha, hx, Function.update_apply, entry_eq hs ha, pageBase_of_aligned ha]
      · have hne : a ≠ pageBase va := fun h => ha (h ▸ pageBase_aligned va)
        simp [ha, hne, view]
    · simp [hr, Function.update_of_ne]
  all_goals rfl

theorem view_withSpace_book (hs : m.space? s = some sp) {f : Space → Space}
    (hp : (f sp).pages = sp.pages) (ht : (f sp).table = sp.table) :
    (m.withSpace s f).view = { m.view with book := update m.view.book s (some (f sp).book) } := by
  rw [view_withSpace hs]
  ext1
  case page =>
    funext ⟨r, a⟩
    by_cases hr : r = s
    · subst hr
      simp [hp, page_eq hs]
    · simp [hr]
  case entry =>
    funext ⟨r, a⟩
    by_cases hr : r = s
    · subst hr
      simp [ht, view, hs]
    · simp [hr]
  all_goals rfl

theorem view_setPage (hs : m.space? s = some sp) (va : Addr) (p : Page) :
    (m.withSpace s (·.setPage va p)).view =
      { m.view with page := update m.view.page ⟨s, pageBase va⟩ (some p) } := by
  refine view_withSpace_page hs rfl rfl fun a => ?_
  simp only [Space.setPage, Std.ExtTreeMap.getElem?_insert, Std.LawfulEqCmp.compare_eq_iff_eq]
  split <;> split <;> simp_all

theorem view_erasePage (hs : m.space? s = some sp) (va : Addr) :
    (m.withSpace s (·.erasePage va)).view =
      { m.view with page := update m.view.page ⟨s, pageBase va⟩ none } := by
  refine view_withSpace_page hs rfl rfl fun a => ?_
  simp only [Space.erasePage, Std.ExtTreeMap.getElem?_erase, Std.LawfulEqCmp.compare_eq_iff_eq]
  split <;> split <;> simp_all

end Machine

end DemandPaging
