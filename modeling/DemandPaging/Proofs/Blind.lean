import DemandPaging.Proofs.Alike
import DemandPaging.Proofs.Cells

namespace DemandPaging

open Step Machine

variable {hidden hidden' : PageRef → Prop} {m n m' n' : Machine} {s : SpaceId} {f g : FrameId}

theorem Frames.bytesAt_withContents_congr {t u : Frames} (h : t.Alike u) {c d : Contents}
    (hcd : g = f → d = c) (hg : g ≠ f → u.bytesAt g = t.bytesAt g) :
    (u.withContents f d).bytesAt g = (t.withContents f c).bytesAt g := by
  unfold bytesAt withContents
  simp only [Array.getElem?_setIfInBounds]
  by_cases hi : f.index = g.index
  · have hgf : g = f := by cases f; cases g; simp_all
    simp [hi, hcd hgf, h.size]
  · simp only [hi, if_false]
    exact hg fun hgf => hi (by rw [hgf])

theorem Frames.pin_withMemory (t : Frames) (memory : Array Contents) (f : FrameId) (r : PageRef) :
    Frames.pin { t with memory := memory } f r =
      (t.pin f r).map (Option.map fun u => { u with memory := memory }) := by
  unfold pin setPinned setOwner
  rw [show Frames.owner { t with memory := memory } f = t.owner f from rfl]
  cases t.owner f with
  | error => rfl
  | ok x =>
      by_cases hx : x = some r
      · simp only [bind, Except.bind, hx, if_true]
        by_cases hf : f.index < t.owners.size
        · simp only [hf, if_true]
          cases t.pool.setPinned f true <;> rfl
        · simp only [hf, if_false]
          rfl
      · simp [bind, Except.bind, hx, Except.map]

theorem Frames.memory_of_pin {t u : Frames} {r : PageRef} (h : t.pin f r = .ok (some u)) : u.memory = t.memory := by
  have hsame : t.pin f r = (t.pin f r).map (Option.map fun u => { u with memory := t.memory }) :=
    t.pin_withMemory t.memory f r
  rw [h] at hsame
  have hu : u = { u with memory := t.memory } := Option.some.inj (Except.ok.inj hsame)
  rw [hu]

structure Machine.Tidy (hidden : PageRef → Prop) (m n : Machine) : Prop where
  alike : m.Alike hidden n
  clean : ∀ r p f, m.view.page r = some p → p.kind = .file → p.frame = some f → n.view.bytes f = m.view.bytes f

namespace Machine

theorem page_withSpace {k : Space → Space} (hk : ∀ sp, (k sp).pages = sp.pages) :
    (m.withSpace s k).view.page = m.view.page := by
  funext r
  unfold view
  dsimp only
  rw [space?_withSpace]
  split
  · rename_i hr
    rw [hr]
    cases m.space? s with
    | none => rfl
    | some sp => simp [hk]
  · rfl

theorem Alike.cell_eq_none (h : m.Alike hidden n) (r : PageRef) :
    n.view.cell r = none ↔ m.view.cell r = none := by
  have hr := h.pageRel r
  unfold View.cell
  generalize m.view.page r = x, n.view.page r = y at hr
  cases hr with
  | none => simp
  | @some p q hpq =>
      rw [Option.bind_some, Option.bind_some, hpq.frame_eq, hpq.slot?_eq]
      cases p.frame with
      | some f => simp
      | none => simp

theorem cell_withFrames {t : Frames} (ht : t.memory = m.frames.memory) (r : PageRef) :
    (view { m with frames := t }).cell r = m.view.cell r := by
  refine View.cell_congr rfl (fun _ f _ _ => ?_) fun _ _ _ _ => rfl
  change t.bytesAt f = m.frames.bytesAt f
  unfold Frames.bytesAt
  rw [ht]

/-- A page that was just set holds the bytes of its frame. -/
theorem Alike.cell_setPage (h : m.Alike hidden n) (s : SpaceId) (va : Addr) {p : Page} (hp : p.frame = some f)
    (hf : n.view.bytes f = m.view.bytes f) :
    (n.withSpace s (·.setPage va p)).view.cell ⟨s, pageBase va⟩ =
      (m.withSpace s (·.setPage va p)).view.cell ⟨s, pageBase va⟩ := by
  have hcell (k : Machine) : (k.withSpace s (·.setPage va p)).view.cell ⟨s, pageBase va⟩ =
      (k.space? s).bind fun _ => some (k.view.bytes f) := by
    cases hs : k.space? s with
    | none => simp [View.cell, view, space?_withSpace, hs]
    | some sp => exact View.cell_of_frame (by rw [view_setPage hs]; exact Function.update_self ..) hp
  have hs := h.spaces s
  rw [hcell, hcell, hf]
  generalize m.space? s = x, n.space? s = y at hs
  cases hs <;> rfl

namespace Tidy

theorem step (h : m.Tidy hidden n) (halike : m'.Alike hidden' n')
    (hpage : ∀ r p f, m'.view.page r = some p → p.frame = some f → m.view.page r = some p)
    (hm : m'.frames.memory = m.frames.memory) (hn : n'.frames.memory = n.frames.memory) : m'.Tidy hidden' n' where
  alike := halike
  clean r p f hp hk hf := by
    have hbytes := h.clean r p f (hpage r p f hp hf) hk hf
    change n'.frames.bytesAt f = m'.frames.bytesAt f
    unfold Frames.bytesAt
    rw [hm, hn]
    exact hbytes

theorem same (h : m.Tidy hidden n) (halike : m'.Alike hidden' n') (hpage : m'.view.page = m.view.page)
    (hm : m'.frames.memory = m.frames.memory) (hn : n'.frames.memory = n.frames.memory) : m'.Tidy hidden' n' :=
  h.step halike (fun _ _ _ hp _ => hpage ▸ hp) hm hn

variable (h : m.Tidy hidden n)
include h

theorem tell (e : Event) : (m.tell e).Tidy hidden (n.tell e) := h.same (h.alike.tell e) rfl rfl rfl

theorem withTable (s : SpaceId) (k : PageTable → PageTable) :
    (m.withSpace s fun sp => { sp with table := k sp.table }).Tidy hidden
      (n.withSpace s fun sp => { sp with table := k sp.table }) :=
  h.same (h.alike.withTable s k) (page_withSpace fun _ => rfl) rfl rfl

theorem withFrames {t : Frames} (ht : t.memory = m.frames.memory) :
    Tidy hidden { m with frames := t } { n with frames := { t with memory := n.frames.memory } } :=
  h.same (h.alike.withFrames ⟨by rw [ht, h.alike.frames.size], rfl⟩) rfl ht rfl

theorem withSwap {a b : SwapArea} (hab : a.Alike b) : Tidy hidden { m with swap := a } { n with swap := b } :=
  h.same (h.alike.withSwap hab) rfl rfl rfl

theorem withFile (id : FileId) (F : File) : (m.withFile id F).Tidy hidden (n.withFile id F) :=
  h.same (h.alike.withFile id F) rfl rfl rfl

theorem withSpace {k l : Space → Space}
    (hkl : ∀ sp sq, m.space? s = some sp → n.space? s = some sq → sp.Alike (fun va => hidden ⟨s, va⟩) sq →
      (k sp).Alike (fun va => hidden ⟨s, va⟩) (l sq))
    (hk : ∀ sp, m.space? s = some sp → ∀ (va : Addr) p f, (k sp).pages[va]? = some p → p.frame = some f →
      sp.pages[va]? = some p) :
    (m.withSpace s k).Tidy hidden (n.withSpace s l) := by
  refine h.step (h.alike.withSpace hkl) (fun r p f hp hf => ?_) rfl rfl
  unfold view at hp ⊢
  dsimp only at hp ⊢
  rw [space?_withSpace] at hp
  split at hp
  · rename_i hr
    rw [hr]
    cases hs : m.space? s with
    | none => rw [hs] at hp; cases hp
    | some sp => rw [hs] at hp; exact hk sp hs r.va p f hp hf
  · exact hp

theorem setPage (s : SpaceId) (va : Addr) {p : Page} (hp : p.frame = none) :
    (m.withSpace s (·.setPage va p)).Tidy hidden (n.withSpace s (·.setPage va p)) := by
  refine h.withSpace (fun _ _ _ _ hs => hs.setPage va p) fun sp _ a q f hq hf => ?_
  simp only [Space.setPage, Std.ExtTreeMap.getElem?_insert] at hq
  split at hq
  · cases hq
    rw [hp] at hf
    cases hf
  · exact hq

theorem erasePage (s : SpaceId) (va : Addr) :
    (m.withSpace s (·.erasePage va)).Tidy hidden (n.withSpace s (·.erasePage va)) := by
  refine h.withSpace (fun _ _ _ _ hs => hs.erasePage va) fun sp _ a q f hq _ => ?_
  simp only [Space.erasePage, Std.ExtTreeMap.getElem?_erase] at hq
  split at hq
  · cases hq
  · exact hq

theorem withBytes (f : FrameId) (c : Contents) : (m.withBytes f c).Tidy hidden (n.withBytes f c) where
  alike := h.alike.withFrames (h.alike.frames.withContents f c c)
  clean r p g hp hk hg :=
    Frames.bytesAt_withContents_congr h.alike.frames (fun _ => rfl) fun _ => h.clean r p g hp hk hg

end Tidy

end Machine

namespace Vm

theorem respects_emit (e : Event) : Respects (Tidy hidden) (emit e) := ⟨fun _ _ h => ⟨rfl, h.tell e⟩⟩

theorem respects_table (s : SpaceId) (k : PageTable → PageTable) : Respects (Tidy hidden) (modifyTable s k) :=
  ⟨fun _ _ h => ⟨rfl, h.withTable s k⟩⟩

theorem respects_frames {k : Frames → Except Panic Frames} (hk : Frames.Deaf k) :
    Respects (Tidy hidden) (modifyFrames k) :=
  ⟨fun _ _ h => twins_modifyFrames h.alike hk (fun _ ht => ⟨rfl, h.withFrames ht⟩) fun _ => h⟩

theorem respects_clock (l : List FrameId) :
    Respects (Tidy hidden) (modify fun m => { m with frames := { m.frames with clock := l } } : Vm Unit) := by
  constructor
  intro m n h
  refine twins_modify.2 ⟨rfl, ?_⟩
  rw [show n.frames = { m.frames with memory := n.frames.memory } from h.alike.frames.rest]
  exact h.withFrames (t := { m.frames with clock := l }) rfl

theorem respects_free (slot : Slot) : Respects (Tidy hidden) (onSwap (SwapArea.free slot)) :=
  ⟨fun _ _ h => twins_onSwap ((h.alike.swap.free slot).mono (fun _ _ _ _ hab => ⟨rfl, h.withSwap hab⟩)
    fun _ _ _ hab => h.withSwap hab)⟩

theorem respects_save (b : Backing) (page : Contents) : Respects (Tidy hidden) (save b page) := by
  constructor
  intro m n h
  unfold save
  rw [twins_get_bind, h.alike.file_eq]
  refine twins_bind (twins_putFile.2 ?_)
  exact ((respects_emit _).bind fun _ => (respects_modular _).check _).twins _ _ (h.withFile _ _)

theorem twins_storePage (h : m.Tidy hidden n) (c d : Contents) :
    Twins (storePage c) (storePage d) m n (fun a b m n => b = a ∧ m.Tidy hidden n) fun _ m n => m.Tidy hidden n := by
  unfold storePage
  refine twins_bind (twins_onSwap ((h.alike.swap.store c d).mono ?_ fun _ _ _ hab => h.withSwap hab))
  rintro _ slot a b ⟨rfl, hab⟩
  exact twins_bind (twins_emit.2 (twins_pure.2 ⟨rfl, (h.withSwap hab).tell _⟩))

theorem twins_savePage (h : m.Tidy hidden n) (s : SpaceId) (va : Addr) (p : Page) (f : FrameId)
    (hf : p.kind = .file → n.view.bytes f = m.view.bytes f) :
    Twins (savePage s va p f) (savePage s va p f) m n (fun a b m n => b = a ∧ m.Tidy hidden n)
      fun _ m n => m.Tidy hidden n := by
  unfold savePage
  refine twins_space h.alike h fun sp sq _ _ hs => ?_
  rw [hs.table]
  have hm : (m.withSpace s fun sp => { sp with table := sp.table.unmap va }).view.bytes = m.view.bytes := rfl
  have hn : (n.withSpace s fun sp => { sp with table := sp.table.unmap va }).view.bytes = n.view.bytes := rfl
  refine twins_bind (twins_modifyTable.2 ?_)
  rw [← hm, ← hn] at hf
  replace h := h.withTable s (·.unmap va)
  generalize m.withSpace s _ = m, n.withSpace s _ = n at h hf
  have hmap {α : Type} (e : PagingError) : Respects (Tidy hidden) (do
      remap s va f p.writable
      fail e : Vm α) :=
    (respects_table s _).bind fun _ => respects_throw _
  split
  · exact twins_pure.2 ⟨rfl, h⟩
  · refine twins_bind (twins_contents h.alike ?_ h)
    refine (twins_storePage h _ _).attempt.bind ?_ fun _ _ _ => id
    rintro _ r m n ⟨rfl, h⟩
    cases r with
    | ok slot => exact twins_pure.2 ⟨rfl, h⟩
    | error e => exact (hmap e).twins m n h
  · rename_i b hst
    split
    · refine twins_bind (twins_contents h.alike ?_ h)
      rw [hf (by simp [Page.kind, hst])]
      refine ((respects_save b (m.view.bytes f)).attempt.bind fun r => ?_).twins m n h
      cases r with
      | ok => exact respects_pure _
      | error e =>
          exact (respects_table s _).bind fun _ => (respects_table s _).bind fun _ => respects_throw _
    · exact twins_pure.2 ⟨rfl, h⟩

theorem respects_vacate (s : SpaceId) (va : Addr) (f : FrameId) : Respects (Tidy hidden) (vacate s va f) := by
  constructor
  intro m n h
  unfold vacate
  refine twins_space h.alike h fun sp sq hsp _ hs => ?_
  have hfilter : (sq.page? va).filter (·.frame = some f) = (sp.page? va).filter (·.frame = some f) := by
    have hva := hs.pages (pageBase va)
    unfold Space.page?
    generalize sp.pages[pageBase va]? = x, sq.pages[pageBase va]? = y at hva
    cases hva with
    | none => rfl
    | @some p q hpq =>
        by_cases hf : p.frame = some f
        · rw [hpq.eq_of_frame hf]
        · simp [Option.filter, hpq.frame_eq, hf]
  rw [hfilter, hs.table]
  split
  · rename_i p hp
    obtain ⟨hp, hf⟩ := Option.filter_eq_some_iff.1 hp
    have hpage : m.view.page ⟨s, pageBase va⟩ = some p := by rw [page_eq hsp]; exact hp
    refine (twins_savePage h s (pageBase va) p f fun hk => h.clean _ p f hpage hk (by simpa using hf)).bind ?_
      fun _ _ _ => id
    rintro _ st m n ⟨rfl, h⟩
    exact twins_modifySpace.2 ⟨rfl, h.setPage s va rfl⟩
  · refine ((respects_emit _).bind fun _ => ?_).twins m n h
    split
    · exact respects_table s _
    · exact respects_pure _

theorem respects_testAccessed (o : Owner) : Respects (Tidy hidden) (testAccessed o) := by
  constructor
  intro m n h
  unfold testAccessed
  rw [twins_get_bind]
  have hs := h.alike.spaces o.link.space
  generalize m.space? o.link.space = x, n.space? o.link.space = y at hs
  cases hs with
  | none => exact twins_pure.2 ⟨rfl, h⟩
  | @some sp sq hs =>
      dsimp only
      rw [hs.table]
      split
      · exact ((respects_table _ _).bind fun _ => respects_pure _).twins m n h
      · exact twins_pure.2 ⟨rfl, h⟩

theorem respects_wasReferenced (f : FrameId) : Respects (Tidy hidden) (wasReferenced f) := by
  constructor
  intro m n h
  unfold wasReferenced
  rw [twins_get_bind, show n.frames.binding f = m.frames.binding f by rw [h.alike.frames.rest]; rfl]
  refine (((respects_modular _).ofPanic _).bind fun o => ?_).twins m n h
  cases o with
  | none => exact respects_pure _
  | some o =>
      refine (respects_testAccessed o).bind fun accessed => ?_
      dsimp only
      split
      · exact (respects_emit _).bind fun _ => respects_pure _
      · exact respects_pure _

theorem respects_takeVictim : Respects (Tidy hidden) takeVictim := by
  constructor
  intro m n h
  unfold takeVictim
  rw [twins_get_bind, show n.frames.clock = m.frames.clock by rw [h.alike.frames.rest]]
  have hput (f : FrameId) (rest : List FrameId) : Respects (Tidy hidden) (do
      modify fun m => { m with frames := { m.frames with clock := rest } }
      pure f : Vm FrameId) :=
    (respects_clock rest).bind fun _ => respects_pure _
  refine (((respects_modular _).sweep respects_wasReferenced [] _).bind fun c => ?_).twins m n h
  match c with
  | (some f, rest) | (none, f :: rest) => exact hput f rest
  | (none, []) => exact respects_throw _

theorem respects_saveVictim (f : FrameId) (o : Owner) : Respects (Tidy hidden) (saveVictim f o) := by
  constructor
  intro m n h
  unfold saveVictim
  rw [twins_get_bind, h.alike.space_isSome]
  split
  · refine ((respects_vacate o.link.space o.va f).attempt.bind fun r => ?_).twins m n h
    cases r with
    | ok => exact respects_pure _
    | error e =>
        exact (respects_emit _).bind fun _ =>
          (respects_frames (Frames.deaf_reinstate f o)).bind fun _ => respects_throw _
  · exact twins_pure.2 ⟨rfl, h⟩

theorem respects_evict : Respects (Tidy hidden) evict := by
  refine respects_takeVictim.bind fun f => ⟨fun m n h => ?_⟩
  rw [twins_get_bind, show n.frames.binding f = m.frames.binding f by rw [h.alike.frames.rest]; rfl]
  have hrest : Respects (Tidy hidden) (do
      modifyFrames (·.setPinned f true)
      pure f) :=
    (respects_frames (Frames.deaf_setPinned f true)).bind fun _ => respects_pure _
  refine (((respects_modular _).ofPanic _).bind fun owner =>
    (respects_frames (Frames.deaf_setOwner f none)).bind fun _ => ?_).twins m n h
  cases owner with
  | none => exact (respects_emit _).bind fun _ => hrest
  | some o => exact (respects_saveVictim f o).bind fun _ => (respects_emit _).bind fun _ => hrest

/-- Which frame can be had does not depend on the bytes in any, as long as files are written the same. -/
theorem twins_acquire (h : m.Tidy hidden n) :
    Twins acquire acquire m n (fun f g m n => g = f ∧ m.Tidy hidden n ∧ n.view.bytes f = m.view.bytes f)
      fun _ m n => m.Tidy hidden n := by
  unfold acquire
  rw [twins_get_bind, show n.frames.pool = m.frames.pool by rw [h.alike.frames.rest]]
  have hrest (f : FrameId) {m n : Machine} (h : m.Tidy hidden n) : Twins (do
      setContents f (Buffer.zero pageSize)
      emit (.frameAcquired f)
      pure f) (do
      setContents f (Buffer.zero pageSize)
      emit (.frameAcquired f)
      pure f) m n (fun f g m n => g = f ∧ m.Tidy hidden n ∧ n.view.bytes f = m.view.bytes f)
      fun _ m n => m.Tidy hidden n :=
    twins_bind (twins_setContents h.alike (twins_bind (twins_emit.2 (twins_pure.2 ⟨rfl, (h.withBytes f _).tell _,
      Frames.bytesAt_withContents_congr h.alike.frames (fun _ => rfl) fun hf => absurd rfl hf⟩))) h)
  rw [FramePool.checkedTake_eq]
  refine twins_bind (twins_pure.2 ?_)
  cases m.frames.pool.take with
  | some x =>
      refine twins_bind (twins_set.2 (hrest x.1 ?_))
      rw [show n.frames = { m.frames with memory := n.frames.memory } from h.alike.frames.rest]
      exact h.withFrames (t := { m.frames with pool := x.2 }) rfl
  | none =>
      refine (respects_evict.twins m n h).bind ?_ fun _ _ _ => id
      rintro _ f m n ⟨rfl, h⟩
      exact hrest f h

theorem twins_pin (h : m.Tidy hidden n) (f : FrameId) (o : PageRef) :
    Twins (pin f o) (pin f o) m n (fun a b m' n' => b = a ∧ m'.Tidy hidden n' ∧ m'.view.page = m.view.page)
      fun _ m n => m.Tidy hidden n := by
  have hpin : n.frames.pin f o =
      (m.frames.pin f o).map (Option.map fun t => { t with memory := n.frames.memory }) := by
    conv_lhs => rw [h.alike.frames.rest]
    exact Frames.pin_withMemory ..
  unfold pin
  rw [twins_get_bind, hpin]
  cases hm : m.frames.pin f o with
  | error p => exact twins_bind (twins_throw.2 h)
  | ok x =>
      cases x with
      | none => exact ⟨rfl, h, rfl⟩
      | some t => exact ⟨rfl, h.withFrames (Frames.memory_of_pin hm), rfl⟩

theorem twins_pinPage (h : m.Tidy hidden n) (s : SpaceId) (va : Addr) :
    Twins (pinPage s va) (pinPage s va) m n
      (fun a b m n => b = a ∧ m.Tidy hidden n ∧ a = (m.view.page ⟨s, pageBase va⟩).bind (·.frame))
      fun _ m n => m.Tidy hidden n := by
  unfold pinPage
  refine twins_space h.alike h fun sp sq hsp _ hs => ?_
  have hframe : (sq.page? va).bind (·.frame) = (sp.page? va).bind (·.frame) := by
    have hva := hs.pages (pageBase va)
    unfold Space.page?
    generalize sp.pages[pageBase va]? = x, sq.pages[pageBase va]? = y at hva
    cases hva with
    | none => rfl
    | some hpq => exact hpq.frame_eq
  have hpage : (m.view.page ⟨s, pageBase va⟩).bind (·.frame) = (sp.page? va).bind (·.frame) := by
    rw [page_eq hsp]
    rfl
  rw [hframe, ← hpage]
  generalize hg : (m.view.page ⟨s, pageBase va⟩).bind (·.frame) = g
  cases g with
  | none => exact twins_pure.2 ⟨rfl, h, hg.symm⟩
  | some f =>
      refine (twins_pin h f _).bind ?_ fun _ _ _ => id
      rintro _ b m' n' ⟨rfl, h', hsame⟩
      split
      · exact twins_pure.2 ⟨rfl, h', by rw [hsame, hg]⟩
      · exact twins_throw.2 h'

theorem respects_release (f : FrameId) : Respects (Tidy hidden) (release f) :=
  (respects_frames (Frames.deaf_release f)).bind fun _ => respects_emit _

theorem twins_flush (h : m.Tidy hidden n) (s : SpaceId) (va : Addr) (b : Backing) (f : FrameId)
    (hf : n.view.bytes f = m.view.bytes f) :
    Twins (flush s va b f) (flush s va b f) m n (fun x y m n => y = x ∧ m.Tidy hidden n)
      fun _ m n => m.Tidy hidden n := by
  unfold flush
  refine twins_space h.alike h fun sp sq _ _ hs => ?_
  rw [hs.table]
  split
  · refine twins_bind (twins_contents h.alike ?_ h)
    rw [hf]
    exact ((respects_save b _).bind fun _ => respects_table s _).twins m n h
  · exact twins_pure.2 ⟨rfl, h⟩

theorem twins_dismantle (h : m.Tidy hidden n) (s : SpaceId) (va : Addr) (p : Page) (g : Option FrameId)
    (hg : ∀ f, p.kind = .file → g = some f → n.view.bytes f = m.view.bytes f) :
    Twins (dismantle s va p g) (dismantle s va p g) m n (fun x y m n => y = x ∧ m.Tidy hidden n)
      fun _ m n => m.Tidy hidden n := by
  have hrest {x : Vm Unit} (hx : Respects (Tidy hidden) x) (r : Except PagingError Unit) :
      Respects (Tidy hidden) (do modifyTable s (·.unmap va); x; pure r) :=
    (respects_table s _).bind fun _ => hx.bind fun _ => respects_pure r
  unfold dismantle
  dsimp only
  split
  · rename_i b f hst
    have hslot : p.slot? = none := by simp [Page.slot?, hst]
    rw [hslot]
    refine (twins_flush h s va b f (hg f (by simp [Page.kind, hst]) rfl)).attempt.bind ?_ fun _ _ _ => id
    rintro _ r m n ⟨rfl, h⟩
    exact (hrest (respects_pure ()) r).twins m n h
  · cases p.slot? with
    | some slot => exact (hrest (respects_free slot) _).twins m n h
    | none => exact (hrest (respects_pure ()) _).twins m n h

theorem respects_remove (s : SpaceId) (va : Addr) : Respects (Tidy hidden) (remove s va) := by
  constructor
  intro m n h
  unfold remove
  dsimp only
  generalize pageBase va = a
  refine (twins_pinPage h s a).bind ?_ fun _ _ _ => id
  rintro _ g m n ⟨rfl, h, hg⟩
  refine twins_space h.alike h fun sp sq hsp _ hs => ?_
  have hva := hs.pages (pageBase a)
  rw [page_eq hsp] at hg
  have hclean (p : Page) (f : FrameId) (hp : sp.pages[pageBase a]? = some p) := h.clean ⟨s, pageBase a⟩ p f
    (by rw [page_eq hsp, hp])
  unfold Space.page?
  generalize sp.pages[pageBase a]? = x, sq.pages[pageBase a]? = y at hva hg hclean
  cases hva with
  | none => exact twins_fail.2 h
  | @some p q hpq =>
      have hsame : dismantle s a q g = dismantle s a p g := by cases hpq <;> rfl
      have hbytes (f : FrameId) (hk : p.kind = .file) (hf : g = some f) : n.view.bytes f = m.view.bytes f :=
        hclean p f rfl hk (hg.symm.trans hf)
      dsimp only
      rw [hsame]
      refine twins_bind (twins_modifySpace.2
        ((twins_dismantle (h.erasePage s a) s a p g hbytes).bind ?_ fun _ _ _ => id))
      rintro _ r m n ⟨rfl, h⟩
      refine Respects.twins ?_ m n h
      have hrest : Respects (Tidy hidden) (do
          emit (.pageRemoved s a)
          ofError r) :=
        (respects_emit _).bind fun _ => (respects_modular _).ofError r
      cases g with
      | some f => exact (respects_release f).bind fun _ => hrest
      | none => exact hrest

theorem twins_register (h : m.Tidy hidden n) (s : SpaceId) (va : Addr) (w : Bool) (purpose : Purpose)
    {i j : Option Filling}
    (hij : (Page.lazy w purpose i).Alike (hidden ⟨s, pageBase va⟩) (.lazy w purpose j)) :
    Twins (register s va w purpose i) (register s va w purpose j) m n (fun _ _ m n => m.Tidy hidden n)
      fun _ m n => m.Tidy hidden n := by
  unfold register
  split
  · exact twins_fail.2 h
  · dsimp only
    refine twins_bind (twins_emit.2 ?_)
    replace h := h.tell (.pageAdded s purpose (pageBase va))
    generalize m.tell _ = m, n.tell _ = n at h
    refine twins_space h.alike h fun sp sq hsp hsq hs => ?_
    have hcontains : sq.pages.contains (pageBase va) = sp.pages.contains (pageBase va) := by
      have hva := hs.pages (pageBase va)
      rw [Std.ExtTreeMap.contains_eq_isSome_getElem?, Std.ExtTreeMap.contains_eq_isSome_getElem?]
      generalize sp.pages[pageBase va]? = x, sq.pages[pageBase va]? = y at hva
      cases hva <;> rfl
    unfold Space.addPage
    rw [hcontains]
    split
    · exact twins_bind (twins_fail.2 h)
    · refine twins_bind (twins_pure.2 (twins_modifySpace.2 (h.withSpace (fun _ _ _ _ _ => ?_) ?_)))
      · refine ⟨fun a => ?_, hs.book, hs.table⟩
        simp only [Std.ExtTreeMap.getElem?_insert]
        split
        · rename_i ha
          rw [Std.LawfulEqCmp.compare_eq_iff_eq] at ha
          exact .some (ha ▸ hij)
        · exact hs.pages a
      · intro _ hsp' a p f hp hf
        cases hsp.symm.trans hsp'
        simp only [Std.ExtTreeMap.getElem?_insert] at hp
        split at hp
        · cases hp
          cases hf
        · exact hp

theorem respects_register (s : SpaceId) (va : Addr) (w : Bool) (purpose : Purpose) (filling : Option Filling) :
    Respects (Tidy hidden) (register s va w purpose filling) :=
  ⟨fun _ _ h => (twins_register h s va w purpose (.refl _)).mono (fun _ _ _ _ h => ⟨rfl, h⟩) fun _ _ _ => id⟩

theorem respects_load {k : Nat} (b : Backing) (buf : Buffer k) : Respects (Tidy hidden) (load b buf) := by
  constructor
  intro m n h
  unfold load
  rw [twins_get_bind, h.alike.file_eq]
  refine twins_bind (twins_ofPanic.2 ?_)
  split
  · exact twins_bind (twins_putFile.2 (twins_pure.2 ⟨rfl, h.withFile _ _⟩))
  · exact h

theorem twins_fetchPage (h : m.Tidy hidden n) (slot : Slot) (c d : Contents) :
    Twins (fetchPage slot c) (fetchPage slot d) m n (fun x y m n => y.failure = x.failure ∧ m.Tidy hidden n)
      fun _ m n => m.Tidy hidden n := by
  unfold fetchPage
  refine twins_bind (twins_onSwap ((h.alike.swap.fetch slot c d).mono (fun x y a b hxy => ?_)
    fun _ _ _ hab => h.withSwap hab))
  obtain ⟨hfailure, hab⟩ := hxy
  replace h := h.withSwap hab
  rw [hfailure]
  split
  · exact twins_bind (twins_emit.2 (twins_pure.2 ⟨hfailure, h.tell _⟩))
  · exact twins_pure.2 ⟨hfailure, h⟩

/-- A page that is not on a slot is filled with the same bytes, unless it is a hidden snapshot. -/
theorem twins_fillPage {secret : Prop} {p q : Page} (h : m.Tidy hidden n) (hpq : p.Alike secret q) (va : Addr)
    (c : Contents) :
    Twins (fillPage va p c) (fillPage va q c) m n
      (fun x y m n => y.failure = x.failure ∧ m.Tidy hidden n ∧
        ((secret → p.finalKind = .file) → p.kind ≠ .anon → y.bytes = x.bytes))
      fun _ m n => m.Tidy hidden n := by
  cases hpq with
  | @copied hs w purpose hpurpose =>
      refine twins_pure.2 ⟨rfl, h, fun hn => ?_⟩
      cases purpose with
      | file b => exact absurd rfl (hpurpose b)
      | anon | stack => cases hn hs
  | refl =>
      have hsame {x : Vm (Reading pageSize)} (hx : Respects (Tidy hidden) x) : Twins x x m n
          (fun x y m n => y.failure = x.failure ∧ m.Tidy hidden n ∧
            ((secret → p.finalKind = .file) → p.kind ≠ .anon → y.bytes = x.bytes))
          fun _ m n => m.Tidy hidden n := by
        refine (hx.twins m n h).mono ?_ fun _ _ _ => id
        rintro _ r m n ⟨rfl, h⟩
        exact ⟨rfl, h, fun _ _ => rfl⟩
      unfold fillPage
      split
      · unfold runFilling
        split
        · exact hsame (respects_load _ _)
        · exact hsame (respects_pure _)
        · exact hsame (respects_pure _)
      · exact hsame (respects_load _ _)
      · exact hsame (respects_pure _)
      · exact hsame (respects_pure _)
      · exact hsame (respects_pure _)
      · rename_i hst
        refine (twins_fetchPage h _ c c).mono (fun x y m n hxy => ⟨hxy.1, hxy.2, fun _ hk => ?_⟩) fun _ _ _ => id
        exact absurd (by simp [Page.kind, hst]) hk
      · exact hsame (respects_load _ _)

theorem twins_bringIn (h : m.Tidy hidden n) (s : SpaceId) (va : Addr) (f : FrameId)
    (hf : n.view.bytes f = m.view.bytes f) :
    Twins (bringIn s va f) (bringIn s va f) m n
      (fun _ _ m' n' => m'.Alike hidden n' ∧ ∀ p, m.view.page ⟨s, pageBase va⟩ = some p →
        (hidden ⟨s, pageBase va⟩ → p.finalKind = .file) → p.kind ≠ .anon →
          n'.view.cell ⟨s, pageBase va⟩ = m'.view.cell ⟨s, pageBase va⟩)
      fun _ m n => m.Alike hidden n := by
  unfold bringIn
  refine twins_space h.alike h.alike fun sp sq hsp _ hs => ?_
  have hva := hs.pages (pageBase va)
  rw [hs.table, page_eq hsp]
  unfold Space.page?
  generalize sp.pages[pageBase va]? = x, sq.pages[pageBase va]? = y at hva
  cases hva with
  | none => exact twins_fail.2 h.alike
  | @some p q hpq =>
      dsimp only
      rw [hpq.writable_eq]
      split
      · exact twins_fail.2 h.alike
      · rename_i t _
        refine twins_bind (twins_modifyTable.2 (twins_bind (twins_contents (h.alike.withTable s fun _ => t) ?_
          (h.alike.withTable s fun _ => t))))
        change Twins (fillPage va p (m.view.bytes f) >>= _) (fillPage va q (n.view.bytes f) >>= _) _ _ _ _
        rw [hf]
        refine (twins_fillPage (h.withTable s fun _ => t) hpq va _).bind ?_ fun _ _ _ h => h.alike
        rintro x y m n ⟨hfailure, h, hbytes⟩
        have hset := h.alike.withFrames (h.alike.frames.withContents f x.bytes y.bytes)
        refine twins_bind (twins_setContents h.alike ?_ h.alike)
        rw [hfailure, hpq.residentState_eq]
        cases x.failure with
        | none =>
            refine twins_bind (twins_modifySpace.2 (twins_emit.2 ⟨(hset.setPage s va _).tell _, ?_⟩))
            rintro _ ⟨⟩ hn hk
            refine hset.cell_setPage s va rfl ?_
            exact Frames.bytesAt_withContents_congr h.alike.frames (fun _ => hbytes hn hk) fun hf => absurd rfl hf
        | some e => exact twins_bind (twins_modifyTable.2 (twins_fail.2 (hset.withTable s (·.unmap va))))

theorem twins_snapshot (h : m.Tidy hidden n) (s : SpaceId) (va : Addr) :
    Twins (snapshot s va) (snapshot s va) m n (fun _ _ m n => m.Tidy hidden n) fun _ m n => m.Tidy hidden n := by
  unfold snapshot
  refine (twins_pinPage h s va).bind ?_ fun _ _ _ => id
  rintro _ g m n ⟨rfl, h, -⟩
  cases g with
  | some f =>
      refine twins_bind (twins_contents h.alike ?_ h)
      refine ((respects_frames (Frames.deaf_install f _)).twins m n h).bind ?_ fun _ _ _ => id
      rintro _ _ m n ⟨-, h⟩
      exact twins_pure.2 h
  | none =>
      have hchecked {x y : Reading pageSize} {m n : Machine} (hxy : y.failure = x.failure) (h : m.Tidy hidden n) :
          Twins (do
            check x.failure
            pure x.bytes) (do
            check y.failure
            pure y.bytes) m n (fun _ _ m n => m.Tidy hidden n) fun _ m n => m.Tidy hidden n := by
        rw [hxy]
        refine twins_bind (twins_check.2 ?_)
        split <;> exact h
      have hnothing : Twins (do
          emit (.nothingToCopy s va)
          fail (.badAddress va)) (do
          emit (.nothingToCopy s va)
          fail (.badAddress va)) m n (fun (_ _ : Contents) m n => m.Tidy hidden n) fun _ m n => m.Tidy hidden n :=
        twins_bind (twins_emit.2 (twins_fail.2 (h.tell _)))
      refine twins_space h.alike h fun sp sq _ _ hs => ?_
      have hva := hs.pages (pageBase va)
      unfold Space.state? Space.page?
      generalize sp.pages[pageBase va]? = x, sq.pages[pageBase va]? = y at hva
      cases hva with
      | none => exact hnothing
      | some hpq =>
          cases hpq with
          | copied => exact hnothing
          | refl =>
              rename_i p
              rw [Option.map_some]
              cases p.state with
              | untouched => exact hnothing
              | anon slot stack =>
                  cases slot with
                  | none => exact twins_fail.2 h
                  | some k =>
                      refine twins_bind (twins_onSwap ((h.alike.swap.peek k _ _).mono (fun x y a b hxy => ?_)
                        fun _ _ _ hab => h.withSwap hab))
                      exact hchecked hxy.1 (h.withSwap hxy.2)
              | file b =>
                  refine ((respects_load b _).twins m n h).bind ?_ fun _ _ _ => id
                  rintro _ r m n ⟨rfl, h⟩
                  exact hchecked rfl h

theorem respects_space (s : SpaceId) : Respects (Tidy fun _ => False) (space s) := by
  constructor
  intro m n h
  rw [← bind_pure (space s)]
  exact twins_space h.alike h fun _ _ _ _ hs => ⟨hs.eq, h⟩

theorem respects_book {k : Space → Space}
    (hbook : ∀ sp sq, sp.Alike (fun va => hidden ⟨s, va⟩) sq → (k sq).book = (k sp).book)
    (hpages : ∀ sp, (k sp).pages = sp.pages) (htable : ∀ sp, (k sp).table = sp.table) :
    Respects (Tidy hidden) (modifySpace s k) := by
  constructor
  intro m n h
  refine ⟨rfl, h.same (h.alike.withSpace fun sp sq _ _ hs => ⟨?_, hbook sp sq hs, ?_⟩) (page_withSpace hpages) rfl rfl⟩
  · rw [hpages, hpages]
    exact hs.pages
  · rw [htable, htable, hs.table]

theorem respects_duplicate (hd : Handle) : Respects (Tidy hidden) (duplicate hd) := by
  constructor
  intro m n h
  refine twins_modifyGet.2 ⟨?_, h.same h.alike.withHandle rfl rfl rfl⟩
  dsimp only
  rw [h.alike.nextHandle]

theorem respects_fileLength (hd : Handle) : Respects (Tidy hidden) (fileLength hd) := by
  constructor
  intro m n h
  unfold fileLength
  rw [twins_get_bind, h.alike.file_eq]
  exact twins_bind (twins_putFile.2 (twins_pure.2 ⟨rfl, h.withFile _ _⟩))

theorem respects_access (s : SpaceId) (addr : Addr) (write : Bool) :
    Respects (Tidy hidden) (access s addr write) := by
  constructor
  intro m n h
  unfold access
  refine twins_space h.alike h fun sp sq _ _ hs => ?_
  rw [hs.table, (Book.mk.inj hs.book).2.2]
  refine Respects.twins ?_ m n h
  split
  · exact (respects_table s _).bind fun _ => respects_pure _
  · exact respects_pure _

theorem respects_destroy (s : SpaceId) : Respects (Tidy hidden) (destroy s) := by
  constructor
  intro m n h
  unfold destroy
  refine twins_space h.alike h fun sp sq _ _ hs => ?_
  rw [hs.keys]
  refine Respects.twins ?_ m n h
  refine ((respects_modular _).removeAll (fun va _ => respects_remove s va) fun _ _ => respects_emit _).bind fun _ => ?_
  refine respects_book (fun sp sq hs => ?_) (fun _ => rfl) fun _ => rfl
  unfold Space.book
  rw [(Book.mk.inj hs.book).2.2]

end Vm

end DemandPaging
