import DemandPaging.Proofs.Twins

namespace DemandPaging

open Step

def Disk.Alike (d e : Disk) : Prop :=
  ∃ sectors, sectors.size = d.medium.sectors.size ∧ e = { d with medium := { d.medium with sectors := sectors } }

namespace Disk.Alike

variable {d e : Disk}

theorem refl (d : Disk) : d.Alike d := ⟨_, rfl, rfl⟩

/-- Whether a sector can be read does not depend on what it holds. -/
theorem read (h : d.Alike e) (sector : Nat) (b c : Sector) :
    ∃ d' e' x y err, d.read sector b = (d', x, err) ∧ e.read sector c = (e', y, err) ∧ d'.Alike e' := by
  obtain ⟨sectors, hsize, rfl⟩ := h
  unfold Disk.read
  dsimp only
  cases d.faults.read d.reads sector with
  | some f => exact ⟨_, _, _, _, _, rfl, rfl, sectors, hsize, rfl⟩
  | none =>
      unfold MemoryDisk.read MemoryDisk.size
      dsimp only
      rw [hsize]
      cases checkSector d.medium.sectors.size sector sectorSize with
      | error err => exact ⟨_, _, _, _, _, rfl, rfl, sectors, hsize, rfl⟩
      | ok => exact ⟨_, _, _, _, _, rfl, rfl, sectors, hsize, rfl⟩

theorem write (h : d.Alike e) (sector : Nat) (b c : Sector) :
    ∃ d' e' err, d.write sector b = (d', err) ∧ e.write sector c = (e', err) ∧ d'.Alike e' := by
  obtain ⟨sectors, hsize, rfl⟩ := h
  unfold Disk.write
  dsimp only
  cases d.faults.write d.writes sector with
  | some f => exact ⟨_, _, _, rfl, rfl, _, by simpa, rfl⟩
  | none =>
      unfold MemoryDisk.write MemoryDisk.size
      dsimp only
      rw [hsize, Vector.size_toArray, Vector.size_toArray]
      cases checkSector d.medium.sectors.size sector sectorSize with
      | error err => exact ⟨_, _, _, rfl, rfl, sectors, hsize, rfl⟩
      | ok => exact ⟨_, _, _, rfl, rfl, _, by simpa, rfl⟩

theorem readPage (h : d.Alike e) (first : Nat) (l : List Nat) (b c : Contents) :
    ∃ d' e' x y err, Disk.readPage first l d b = (d', x, err) ∧ Disk.readPage first l e c = (e', y, err) ∧
      d'.Alike e' := by
  induction l generalizing d e b c with
  | nil => exact ⟨_, _, _, _, _, rfl, rfl, h⟩
  | cons i rest ih =>
      obtain ⟨d', e', x, y, err, hd, he, h'⟩ := h.read (first + i) (b.sector i) (c.sector i)
      unfold Disk.readPage
      rw [hd, he]
      cases err with
      | none => exact ih h' _ _
      | some err => exact ⟨_, _, _, _, _, rfl, rfl, h'⟩

theorem writePage (h : d.Alike e) (first : Nat) (l : List Nat) (b c : Contents) :
    ∃ d' e' err, Disk.writePage first b l d = (d', err) ∧ Disk.writePage first c l e = (e', err) ∧ d'.Alike e' := by
  induction l generalizing d e with
  | nil => exact ⟨_, _, _, rfl, rfl, h⟩
  | cons i rest ih =>
      obtain ⟨d', e', err, hd, he, h'⟩ := h.write (first + i) (b.sector i) (c.sector i)
      unfold Disk.writePage
      rw [hd, he]
      cases err with
      | none => exact ih h'
      | some err => exact ⟨_, _, _, rfl, rfl, h'⟩

end Disk.Alike

structure SwapArea.Alike (a b : SwapArea) : Prop where
  used : b.used = a.used
  disk : a.disk.Alike b.disk

namespace SwapArea.Alike

variable {a b : SwapArea} (h : a.Alike b)
include h

theorem store (c d : Contents) :
    Twins (SwapArea.store c) (SwapArea.store d) a b (fun x y a b => y = x ∧ a.Alike b) fun _ a b => a.Alike b := by
  unfold SwapArea.store
  rw [twins_get_bind, h.used]
  refine twins_bind (twins_ofPanic.2 ?_)
  split
  · rename_i x _
    obtain ⟨found, used⟩ := x
    cases found with
    | none => exact twins_fail.2 h
    | some idx =>
        dsimp only
        refine twins_bind (twins_ofPanic.2 ?_)
        split
        · rename_i first _
          obtain ⟨d', e', err, hd, he, hdisk⟩ := h.disk.writePage first (List.range sectorsPerPage) c d
          rw [hd, he]
          cases err with
          | none => exact twins_bind (twins_set.2 (twins_pure.2 ⟨rfl, rfl, hdisk⟩))
          | some err =>
              refine twins_bind (twins_ofPanic.2 ?_)
              split
              · exact twins_bind (twins_set.2 (twins_fail.2 ⟨rfl, hdisk⟩))
              · exact h
        · exact h
  · exact h

theorem peek (slot : Slot) (c d : Contents) :
    Twins (SwapArea.peek slot c) (SwapArea.peek slot d) a b (fun x y a b => y.failure = x.failure ∧ a.Alike b)
      fun _ a b => a.Alike b := by
  unfold SwapArea.peek
  rw [twins_get_bind]
  refine twins_bind (twins_ofPanic.2 ?_)
  split
  · rename_i first _
    obtain ⟨d', e', x, y, err, hd, he, hdisk⟩ := h.disk.readPage first (List.range sectorsPerPage) c d
    rw [hd, he]
    exact twins_bind (twins_set.2 (twins_pure.2 ⟨rfl, h.used, hdisk⟩))
  · exact h

theorem free (slot : Slot) :
    Twins (SwapArea.free slot) (SwapArea.free slot) a b (fun _ _ a b => a.Alike b) fun _ a b => a.Alike b := by
  unfold SwapArea.free
  rw [twins_get_bind, h.used]
  refine twins_bind (twins_ofPanic.2 ?_)
  split
  · exact twins_set.2 ⟨rfl, h.disk⟩
  · exact h

theorem fetch (slot : Slot) (c d : Contents) :
    Twins (SwapArea.fetch slot c) (SwapArea.fetch slot d) a b (fun x y a b => y.failure = x.failure ∧ a.Alike b)
      fun _ a b => a.Alike b := by
  refine (h.peek slot c d).bind (fun x y a b hxy => ?_) fun _ _ _ => id
  obtain ⟨hfailure, hab⟩ := hxy
  rw [hfailure]
  split
  · exact (hab.free slot).bind (fun _ _ _ _ hab => twins_pure.2 ⟨hfailure, hab⟩) fun _ _ _ => id
  · exact twins_pure.2 ⟨hfailure, hab⟩

end SwapArea.Alike

structure Frames.Alike (t u : Frames) : Prop where
  size : u.memory.size = t.memory.size
  rest : u = { t with memory := u.memory }

def Frames.Deaf (g : Frames → Except Panic Frames) : Prop :=
  ∀ t memory, g { t with memory := memory } = (g t).map fun u => { u with memory := memory }

namespace Frames

variable {t u v : Frames} {g : Frames → Except Panic Frames}

theorem Alike.withContents (h : t.Alike u) (f : FrameId) (c d : Contents) :
    (t.withContents f c).Alike (u.withContents f d) := by
  refine ⟨by simpa [Frames.withContents] using h.size, ?_⟩
  unfold Frames.withContents
  rw [h.rest]

theorem Deaf.memory_eq (hg : Deaf g) (h : g t = .ok v) : v.memory = t.memory := by
  have hsame : g t = (g t).map fun u => { u with memory := t.memory } := hg t t.memory
  rw [h] at hsame
  have hv : v = { v with memory := t.memory } := Except.ok.inj hsame
  rw [hv]

theorem Deaf.alike (hg : Deaf g) (h : t.Alike u) : g u = (g t).map fun v => { v with memory := u.memory } := by
  conv_lhs => rw [h.rest]
  exact hg t u.memory

theorem Deaf.bind {k : Frames → Except Panic Frames} (hg : Deaf g) (hk : Deaf k) : Deaf fun t => g t >>= k := by
  intro t memory
  dsimp only
  rw [hg]
  cases g t with
  | error => rfl
  | ok u => exact hk u memory

theorem deaf_setOwner (f : FrameId) (o : Option Owner) : Deaf (·.setOwner f o) := by
  intro t memory
  unfold setOwner
  dsimp only
  split <;> rfl

theorem deaf_setPinned (f : FrameId) (b : Bool) : Deaf (·.setPinned f b) := by
  intro t memory
  unfold setPinned
  dsimp only
  cases t.pool.setPinned f b <;> rfl

theorem deaf_reinstate (f : FrameId) (o : Owner) : Deaf (·.reinstate f o) :=
  (deaf_setOwner f (some o)).bind fun _ _ => rfl

theorem deaf_install (f : FrameId) (o : Owner) : Deaf (·.install f o) := by
  intro t memory
  unfold install requirePinned
  dsimp only
  cases t.pool.isPinned f with
  | error p => rfl
  | ok b =>
      cases b with
      | false => rfl
      | true => exact ((deaf_setOwner f (some o)).bind ((deaf_setPinned f false).bind fun _ _ => rfl)) t memory

theorem deaf_release (f : FrameId) : Deaf (·.release f) := by
  intro t memory
  unfold release requirePinned
  dsimp only
  cases t.pool.isPinned f with
  | error p => rfl
  | ok b =>
      cases b with
      | false => rfl
      | true => cases t.pool.putBack f <;> rfl

end Frames

inductive Page.Alike (hidden : Prop) : Page → Page → Prop
  | refl (p : Page) : Alike hidden p p
  | copied (hh : hidden) (w : Bool) {purpose : Purpose} (hp : ∀ b, purpose ≠ .file b) (c d : Contents) :
      Alike hidden (.lazy w purpose (some (.snapshot c))) (.lazy w purpose (some (.snapshot d)))

namespace Page.Alike

variable {hidden hidden' : Prop} {p q : Page}

theorem mono (h : p.Alike hidden q) (hh : hidden → hidden') : p.Alike hidden' q := by
  cases h with
  | refl => exact .refl p
  | copied k w hp c d => exact .copied (hh k) w hp c d

theorem eq_of_frame {f : FrameId} (h : p.Alike hidden q) (hf : p.frame = some f) : q = p := by
  cases h with
  | refl => rfl
  | copied => cases hf

theorem eq_of_plain (h : p.Alike hidden q) (hh : ¬ hidden) : q = p := by
  cases h with
  | refl => rfl
  | copied k => exact absurd k hh

theorem frame_eq (h : p.Alike hidden q) : q.frame = p.frame := by cases h <;> rfl

theorem writable_eq (h : p.Alike hidden q) : q.writable = p.writable := by cases h <;> rfl

theorem kind_eq (h : p.Alike hidden q) : q.kind = p.kind := by cases h <;> rfl

theorem slot?_eq (h : p.Alike hidden q) : q.slot? = p.slot? := by cases h <;> rfl

theorem residentState_eq (h : p.Alike hidden q) : Vm.residentState q.state = Vm.residentState p.state := by
  cases h <;> rfl

end Page.Alike

structure Space.Alike (hidden : Addr → Prop) (sp sq : Space) : Prop where
  pages : ∀ va, Option.Rel (Page.Alike (hidden va)) sp.pages[va]? sq.pages[va]?
  book : sq.book = sp.book
  table : sq.table = sp.table

theorem Space.Alike.refl (hidden : Addr → Prop) (sp : Space) : sp.Alike hidden sp := by
  refine ⟨fun va => ?_, rfl, rfl⟩
  cases sp.pages[va]? with
  | none => exact .none
  | some p => exact .some (.refl p)

theorem Space.Alike.eq {sp sq : Space} (h : sp.Alike (fun _ => False) sq) : sq = sp := by
  have hpages : sq.pages = sp.pages := by
    refine Std.ExtTreeMap.ext_getElem? fun va => ?_
    have hva := h.pages va
    generalize sp.pages[va]? = x, sq.pages[va]? = y at hva
    cases hva with
    | none => rfl
    | some hpq => rw [hpq.eq_of_plain id]
  obtain ⟨pages, regions, table, stackBottom, savedStack⟩ := sp
  obtain ⟨_, _, _, _, _⟩ := sq
  obtain ⟨rfl, rfl, rfl⟩ := Book.mk.inj h.book
  obtain rfl := hpages
  obtain rfl := h.table
  rfl

theorem Space.Alike.setPage {hidden : Addr → Prop} {sp sq : Space} (h : sp.Alike hidden sq) (va : Addr) (p : Page) :
    (sp.setPage va p).Alike hidden (sq.setPage va p) := by
  refine ⟨fun a => ?_, h.book, h.table⟩
  simp only [Space.setPage, Std.ExtTreeMap.getElem?_insert]
  split
  · exact .some (.refl p)
  · exact h.pages a

theorem Space.Alike.erasePage {hidden : Addr → Prop} {sp sq : Space} (h : sp.Alike hidden sq) (va : Addr) :
    (sp.erasePage va).Alike hidden (sq.erasePage va) := by
  refine ⟨fun a => ?_, h.book, h.table⟩
  simp only [Space.erasePage, Std.ExtTreeMap.getElem?_erase]
  split
  · exact .none
  · exact h.pages a

theorem Space.Alike.keys {h : Addr → Prop} {sp sq : Space} (hs : sp.Alike h sq) : sq.pages.keys = sp.pages.keys := by
  rw [← Std.ExtTreeMap.keys_map (f := fun _ _ => ()), ← Std.ExtTreeMap.keys_map (t := sp.pages) (f := fun _ _ => ())]
  congr 1
  refine Std.ExtTreeMap.ext_getElem? fun va => ?_
  have hva := hs.pages va
  rw [Std.ExtTreeMap.getElem?_map, Std.ExtTreeMap.getElem?_map]
  generalize sp.pages[va]? = x, sq.pages[va]? = y at hva
  cases hva <;> rfl

/-- The same machines, but for the bytes in frames and on the disk, and in the snapshots that are hidden. -/
structure Machine.Alike (hidden : PageRef → Prop) (m n : Machine) : Prop where
  frames : m.frames.Alike n.frames
  swap : m.swap.Alike n.swap
  spaces : ∀ s, Option.Rel (Space.Alike fun va => hidden ⟨s, va⟩) (m.space? s) (n.space? s)
  files : n.files = m.files
  nextSpace : n.nextSpace = m.nextSpace
  nextHandle : n.nextHandle = m.nextHandle
  log : n.log = m.log

variable {hidden hidden' : PageRef → Prop} {m n : Machine} {s : SpaceId} {f : FrameId}

namespace Machine.Alike

variable (h : m.Alike hidden n)
include h

theorem pageRel (r : PageRef) : Option.Rel (Page.Alike (hidden r)) (m.view.page r) (n.view.page r) := by
  have hs := h.spaces r.space
  unfold view
  dsimp only
  generalize m.space? r.space = x, n.space? r.space = y at hs
  cases hs with
  | none => exact .none
  | some hs => exact hs.pages r.va

theorem page {r : PageRef} {p : Page} (hp : m.view.page r = some p) :
    ∃ q, n.view.page r = some q ∧ p.Alike (hidden r) q := by
  have hr := h.pageRel r
  rw [hp] at hr
  generalize n.view.page r = y at hr
  cases hr with
  | some hpq => exact ⟨_, rfl, hpq⟩

theorem page_of_frame {r : PageRef} {p : Page} (hp : m.view.page r = some p) (hf : p.frame = some f) :
    n.view.page r = some p := by
  obtain ⟨q, hq, hpq⟩ := h.page hp
  rw [hq, hpq.eq_of_frame hf]

theorem space_isSome (s : SpaceId) : (n.space? s).isSome = (m.space? s).isSome := by
  have hs := h.spaces s
  generalize m.space? s = x, n.space? s = y at hs
  cases hs <;> rfl

theorem live (hs : (m.view.book s).isSome) :
    (n.view.book s).isSome := by
  rwa [← space?_isSome, h.space_isSome, space?_isSome]

theorem file_eq (id : FileId) : n.file id = m.file id := by
  unfold file
  rw [h.files]

theorem mono (hh : ∀ r, hidden r → hidden' r) : m.Alike hidden' n where
  frames := h.frames
  swap := h.swap
  files := h.files
  nextSpace := h.nextSpace
  nextHandle := h.nextHandle
  log := h.log
  spaces s := by
    have hs := h.spaces s
    generalize m.space? s = x, n.space? s = y at hs
    cases hs with
    | none => exact .none
    | @some sp sq hs =>
        refine .some ⟨fun va => ?_, hs.book, hs.table⟩
        have hva := hs.pages va
        generalize sp.pages[va]? = x, sq.pages[va]? = y at hva
        cases hva with
        | none => exact .none
        | some hpq => exact .some (hpq.mono (hh _))

/-- A hidden snapshot is no matter any more once its page is in a frame or gone. -/
theorem unhide (hh : ∀ r p, hidden r → m.view.page r = some p → ∃ f, p.frame = some f) : m.Alike hidden' n where
  frames := h.frames
  swap := h.swap
  files := h.files
  nextSpace := h.nextSpace
  nextHandle := h.nextHandle
  log := h.log
  spaces s := by
    have hs := h.spaces s
    have hpage (va : Addr) := h.pageRel ⟨s, va⟩
    have hout (va : Addr) := hh ⟨s, va⟩
    unfold view at hpage hout
    dsimp only at hpage hout
    generalize m.space? s = x, n.space? s = y at hs hpage hout
    cases hs with
    | none => exact .none
    | @some sp sq hs =>
        refine .some ⟨fun va => ?_, hs.book, hs.table⟩
        have hva := hpage va
        have hout := hout va
        rw [Option.bind_some] at hva hout
        rw [Option.bind_some] at hva
        generalize sp.pages[va]? = x, sq.pages[va]? = y at hva hout
        cases hva with
        | none => exact .none
        | @some p q hpq =>
            by_cases hva : hidden ⟨s, va⟩
            · obtain ⟨f, hf⟩ := hout p hva rfl
              rw [hpq.eq_of_frame hf]
              exact .some (.refl p)
            · rw [hpq.eq_of_plain hva]
              exact .some (.refl p)

theorem tell (e : Event) : (m.tell e).Alike hidden (n.tell e) where
  frames := h.frames
  swap := h.swap
  spaces := h.spaces
  files := h.files
  nextSpace := h.nextSpace
  nextHandle := h.nextHandle
  log := congrArg (·.push e) h.log

theorem withSwap {a b : SwapArea} (hab : a.Alike b) : Alike hidden { m with swap := a } { n with swap := b } where
  frames := h.frames
  swap := hab
  spaces := h.spaces
  files := h.files
  nextSpace := h.nextSpace
  nextHandle := h.nextHandle
  log := h.log

theorem withFrames {t u : Frames} (htu : t.Alike u) : Alike hidden { m with frames := t } { n with frames := u } where
  frames := htu
  swap := h.swap
  spaces := h.spaces
  files := h.files
  nextSpace := h.nextSpace
  nextHandle := h.nextHandle
  log := h.log

theorem withFile (id : FileId) (F : File) : (m.withFile id F).Alike hidden (n.withFile id F) where
  frames := h.frames
  swap := h.swap
  spaces := h.spaces
  files := congrArg (·.setIfInBounds id.index F) h.files
  nextSpace := h.nextSpace
  nextHandle := h.nextHandle
  log := h.log

theorem withHandle :
    Alike hidden { m with nextHandle := m.nextHandle + 1 } { n with nextHandle := n.nextHandle + 1 } where
  frames := h.frames
  swap := h.swap
  spaces := h.spaces
  files := h.files
  nextSpace := h.nextSpace
  nextHandle := congrArg (· + 1) h.nextHandle
  log := h.log

theorem withSpace {g k : Space → Space}
    (hgk : ∀ sp sq, m.space? s = some sp → n.space? s = some sq → sp.Alike (fun va => hidden ⟨s, va⟩) sq →
      (g sp).Alike (fun va => hidden ⟨s, va⟩) (k sq)) : (m.withSpace s g).Alike hidden (n.withSpace s k) where
  frames := h.frames
  swap := h.swap
  files := h.files
  nextSpace := h.nextSpace
  nextHandle := h.nextHandle
  log := h.log
  spaces r := by
    rw [space?_withSpace, space?_withSpace]
    split
    · rename_i hr
      subst hr
      have hs := h.spaces r
      generalize m.space? r = x, n.space? r = y at hs hgk
      cases hs with
      | none => exact .none
      | some hs => exact .some (hgk _ _ rfl rfl hs)
    · exact h.spaces r

theorem withTable (s : SpaceId) (g : PageTable → PageTable) :
    (m.withSpace s fun sp => { sp with table := g sp.table }).Alike hidden
      (n.withSpace s fun sp => { sp with table := g sp.table }) :=
  h.withSpace fun _ _ _ _ hs => ⟨hs.pages, hs.book, congrArg g hs.table⟩

theorem setPage (s : SpaceId) (va : Addr) (p : Page) :
    (m.withSpace s (·.setPage va p)).Alike hidden (n.withSpace s (·.setPage va p)) :=
  h.withSpace fun _ _ _ _ hs => hs.setPage va p

end Machine.Alike

namespace Vm

variable {α : Type} {Q : α → α → Machine → Machine → Prop} {E : Stop → Machine → Machine → Prop}

theorem twins_emit {e : Event} {Q : Unit → Unit → Machine → Machine → Prop} :
    Twins (emit e) (emit e) m n Q E ↔ Q () () (m.tell e) (n.tell e) := Iff.rfl

theorem twins_modifySpace {g k : Space → Space} {Q : Unit → Unit → Machine → Machine → Prop} :
    Twins (modifySpace s g) (modifySpace s k) m n Q E ↔ Q () () (m.withSpace s g) (n.withSpace s k) := Iff.rfl

theorem twins_modifyTable {g : PageTable → PageTable} {Q : Unit → Unit → Machine → Machine → Prop} :
    Twins (modifyTable s g) (modifyTable s g) m n Q E ↔
      Q () () (m.withSpace s fun sp => { sp with table := g sp.table })
        (n.withSpace s fun sp => { sp with table := g sp.table }) := Iff.rfl

theorem twins_putFile {id : FileId} {F : File} {Q : Unit → Unit → Machine → Machine → Prop} :
    Twins (putFile id F) (putFile id F) m n Q E ↔ Q () () (m.withFile id F) (n.withFile id F) := Iff.rfl

theorem twins_onSwap {x y : Step SwapArea α}
    (h : Twins x y m.swap n.swap (fun a b s t => Q a b { m with swap := s } { n with swap := t })
      fun e s t => E e { m with swap := s } { n with swap := t }) : Twins (onSwap x) (onSwap y) m n Q E :=
  twins_zoom h

section

variable (h : m.Alike hidden n)
include h

theorem twins_space {g k : Space → Vm α} (hnone : E (.panic (.noSuchSpace s)) m n)
    (hsome : ∀ sp sq, m.space? s = some sp → n.space? s = some sq → sp.Alike (fun va => hidden ⟨s, va⟩) sq →
      Twins (g sp) (k sq) m n Q E) : Twins (space s >>= g) (space s >>= k) m n Q E := by
  have hs := h.spaces s
  unfold space
  refine twins_bind (twins_get_bind.2 ?_)
  generalize m.space? s = x, n.space? s = y at hs hsome
  cases hs with
  | none => exact twins_throw.2 hnone
  | some hs => exact twins_pure.2 (hsome _ _ rfl rfl hs)

theorem twins_contents {Q : Contents → Contents → Machine → Machine → Prop}
    (hok : Q (m.view.bytes f) (n.view.bytes f) m n) (hpanic : E (.panic .noSuchIndex) m n) :
    Twins (contents f) (contents f) m n Q E := by
  change Q (m.frames.bytesAt f) (n.frames.bytesAt f) m n at hok
  unfold Frames.bytesAt at hok
  unfold contents
  rw [twins_get_bind]
  unfold Frames.contents
  by_cases hlt : f.index < m.frames.memory.size
  · have hlt' : f.index < n.frames.memory.size := h.frames.size ▸ hlt
    simp only [hlt, hlt', getElem?_pos, Option.getD_some] at hok ⊢
    exact twins_pure.2 hok
  · have hlt' : ¬ f.index < n.frames.memory.size := h.frames.size ▸ hlt
    simp only [hlt, hlt', not_false_eq_true, getElem?_neg]
    exact twins_throw.2 hpanic

theorem twins_setContents {c d : Contents} {Q : Unit → Unit → Machine → Machine → Prop}
    (hok : Q () () (m.withBytes f c) (n.withBytes f d)) (hpanic : E (.panic .noSuchIndex) m n) :
    Twins (setContents f c) (setContents f d) m n Q E := by
  unfold setContents modifyFrames
  rw [twins_get_bind]
  unfold Frames.setContents
  dsimp only
  rw [h.frames.size]
  split
  · exact hok
  · exact twins_bind (twins_throw.2 hpanic)

theorem twins_modifyFrames {g : Frames → Except Panic Frames} (hg : Frames.Deaf g)
    {Q : Unit → Unit → Machine → Machine → Prop}
    (hok : ∀ t, t.memory = m.frames.memory →
      Q () () { m with frames := t } { n with frames := { t with memory := n.frames.memory } })
    (hpanic : ∀ p, E (.panic p) m n) : Twins (modifyFrames g) (modifyFrames g) m n Q E := by
  unfold modifyFrames
  rw [twins_get_bind, hg.alike h.frames]
  cases hm : g m.frames with
  | error p => exact twins_bind (twins_throw.2 (hpanic p))
  | ok t => exact hok t (hg.memory_eq hm)

end

end Vm

end DemandPaging
