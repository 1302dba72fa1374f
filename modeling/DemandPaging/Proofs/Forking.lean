import DemandPaging.Fork
import DemandPaging.Proofs.Cells
import DemandPaging.Proofs.Faulting
import DemandPaging.Proofs.Lasting

namespace DemandPaging

open Function (update)
open Step Machine

variable {m n u : Machine} {s : SpaceId} {sp : Space} {va : Addr} {f : FrameId} {p q : Page} {r : PageRef}
  {a : Act} {v w z : View} {child parent : SpaceId}

namespace View

def Copies (v : View) (r : PageRef) (c : Contents) : Prop :=
  v.cell r = some c ∨ ∃ p b, v.page r = some p ∧ p.frame = none ∧ p.state = .file b ∧
    c = b.image (v.fileAt b.handle.file)

/-- Taking the frame of a page off the clock and putting it back only turns the clock. -/
theorem Coherent.perm_turned (h : v.Coherent) (hp : v.page r = some p) (hf : p.frame = some f) :
    v.clock.Perm (v.clock.filter (some f ≠ some ·) ++ [f]) := by
  have hmem : f ∈ v.clock := (h.mem_clock_iff f).2 (by rw [h.resident hp hf]; rfl)
  have hfilter : v.clock.filter (some f ≠ some ·) = v.clock.erase f := by
    rw [h.nodup.erase_eq_filter]
    refine List.filter_congr fun g _ => ?_
    by_cases hg : f = g
    · simp [hg]
    · simp [hg, Ne.symm hg]
  rw [hfilter]
  exact (List.perm_cons_erase hmem).trans (List.perm_append_singleton f _).symm

end View

namespace Vm

def Uncopied (m : Machine) (r : PageRef) : Prop :=
  m.swap.disk.Reliable → ∀ q, m.view.page r = some q → q.kind ≠ .anon

section

variable (h : m.Sound) (hp : m.view.page r = some p)
include h hp

theorem yields_copyFrame (hf : p.frame = some f) (hn : n.Consistent) (hv : n.view = { m.view with
      owner := fun j => if some f = some j then none else m.view.owner j
      status := fun j => if some f = some j then .pinned else m.view.status j
      clock := m.view.clock.filter (some f ≠ some ·) }) :
    Yields (do
      let page ← contents f
      install f r
      pure page) n
      (fun c n => m.Leads Act.Quiet n ∧ m.view.Idles n.view ∧ m.view.Copies r c) fun _ _ => False := by
  have hpin : n.view.status f = .pinned := by
    rw [hv]
    simp
  rw [yields_bind, yields_contents hn (by simp [hpin])]
  refine (yields_install hn hpin r).bind ?_ fun _ _ => id
  rintro _ u ⟨hu, huv⟩
  have hturned : u.view = { m.view with
      clock := m.view.clock.filter (some f ≠ some ·) ++ [f] } := by
    rw [huv, hv]
    refine View.ext rfl rfl rfl ?_ ?_ rfl rfl rfl rfl rfl rfl rfl
    · funext j
      by_cases hj : j = f
      · rw [hj]
        simp [h.coherent.resident hp hf]
      · simp [hj, Ne.symm hj]
    · funext j
      by_cases hj : j = f
      · rw [hj]
        simp [(h.coherent.held_iff f).2 (by rw [h.coherent.resident hp hf]; rfl)]
      · simp [hj, Ne.symm hj]
  refine yields_pure.2 ⟨⟨⟨hu, ?_⟩, fun j => by rw [hturned]⟩, ?_, .inl ?_⟩
  · rw [hturned]
    exact (View.Step.turned (h.coherent.perm_turned hp hf)).path rfl
  · rw [hturned]
    exact View.idles_of_eq rfl rfl rfl rfl
  · rw [View.cell_of_frame hp hf, hv]

omit h hp in
/-- What was read is a copy only if the reading did not fail. -/
theorem yields_checked {res : Reading pageSize} {P : PagingError → Prop} (hn : m.Leads Act.Quiet n)
    (hidle : m.view.Idles n.view)
    (hcopy : res.failure = none → m.view.Copies r res.bytes) (hfail : ∀ e, res.failure = some e → P e) :
    Yields (do
      check res.failure
      pure res.bytes) n
      (fun c n => m.Leads Act.Quiet n ∧ m.view.Idles n.view ∧ m.view.Copies r c)
      (Failing fun e n => m.Leads Act.Quiet n ∧ m.view.Idles n.view ∧ P e) := by
  rw [yields_bind, yields_check]
  cases hr : res.failure with
  | none => exact yields_pure.2 ⟨hn, hidle, hcopy hr⟩
  | some e => exact ⟨hn, hidle, hfail e hr⟩

theorem yields_copySlot {k : Slot} (hf : p.frame = none) (hk : p.slot? = some k) (hn : n.Consistent)
    (hv : n.view = m.view) (hswap : m.swap.Same n.swap) :
    Yields (do
      let res ← onSwap (SwapArea.peek k (Buffer.zero pageSize))
      check res.failure
      pure res.bytes) n
      (fun c n => m.Leads Act.Quiet n ∧ m.view.Idles n.view ∧ m.view.Copies r c)
      (Failing fun e n => m.Leads Act.Quiet n ∧ m.view.Idles n.view ∧ e.isMissing = false ∧ Uncopied m r) := by
  have hused : n.view.used k = true := by rw [hv, h.coherent.slot_used hp hk]
  refine yields_bind.2 (yields_onSwap.2 ((hn.swap.peek (hn.swap.lt_of_holds hused) _).mono ?_
    fun _ _ => False.elim))
  rintro res b ⟨hb, hok, hmiss, hdisk⟩
  have hpeeked : Machine.view { n with swap := b } = m.view := by
    rw [view_withSwap, hb.holds_eq, hb.pageOf_eq, ← hv]
    rfl
  refine yields_checked ⟨⟨hn.withSwap hb.fits, hpeeked ▸ .refl⟩, fun j => by rw [hpeeked]⟩
    (hpeeked ▸ .refl _) (fun hr => .inl ?_) fun e he => ⟨hmiss e he, fun hm => ?_⟩
  · rw [View.cell_of_slot hp hf hk, hok hr, ← hv]
    rfl
  · rw [hdisk (hswap.disk.reliable hm)] at he
    cases he

omit h in
theorem yields_copyFile {b : Backing} (hf : p.frame = none) (hst : p.state = .file b) (hn : n.Consistent)
    (hv : n.view = m.view) :
    Yields (do
      let res ← load b (Buffer.zero pageSize)
      check res.failure
      pure res.bytes) n
      (fun c n => m.Leads Act.Quiet n ∧ m.view.Idles n.view ∧ m.view.Copies r c)
      (Failing fun e n => m.Leads Act.Quiet n ∧ m.view.Idles n.view ∧ e.isMissing = false ∧ Uncopied m r) := by
  refine (yields_load hn b).bind ?_ fun _ _ => False.elim
  rintro res u ⟨hu, huv, hok, hmiss, -⟩
  rw [hv] at huv hok
  refine yields_checked ⟨⟨hu, ?_⟩, fun j => by rw [huv]⟩ (huv ▸ View.idles_of_called _ _)
    (fun hr => .inr ⟨p, b, hp, hf, hst, hok hr⟩) fun e he => ⟨hmiss e he, fun _ q hq => ?_⟩
  · rw [huv]
    exact (View.Step.called _).path rfl
  · cases hp.symm.trans hq
    simp [Page.kind, hst]

end

theorem yields_snapshot (h : m.Sound) (hs : (m.view.book parent).isSome)
    (ha : isPageAligned va = true) :
    Yields (snapshot parent va) m
      (fun c n => m.Leads Act.Quiet n ∧ m.view.Idles n.view ∧ m.view.Copies ⟨parent, va⟩ c)
      (Failing fun e n =>
        m.Leads Act.Quiet n ∧ m.view.Idles n.view ∧ e.isMissing = false ∧ Uncopied m ⟨parent, va⟩) := by
  obtain ⟨sp, hsp⟩ := space?_of_book hs
  unfold snapshot
  refine (((steady_framed (steady_swap (fun _ => True) m.swap)).pinPage parent va).and (.refl _)
    (yields_pinPage h hsp ha)).bind ?_ fun _ _ hn => hn.1.elim
  rintro g n ⟨⟨hg, hn, hv⟩, hswap⟩
  cases g with
  | some f =>
      obtain ⟨p, hp, hf⟩ := Option.bind_eq_some_iff.1 hg.symm
      exact (yields_copyFrame h hp hf hn hv).mono (fun _ _ => id) fun _ _ => False.elim
  | none =>
      have hsame : n.view = m.view := by
        rw [hv]
        simp
      have hnothing (hx : Uncopied m ⟨parent, va⟩) : Yields (do
          emit (.nothingToCopy parent va)
          fail (.badAddress va)) n
          (fun (c : Contents) n => m.Leads Act.Quiet n ∧ m.view.Idles n.view ∧ m.view.Copies ⟨parent, va⟩ c)
          (Failing fun e n =>
            m.Leads Act.Quiet n ∧ m.view.Idles n.view ∧ e.isMissing = false ∧ Uncopied m ⟨parent, va⟩) := by
        have hlead : m.Leads Act.Quiet n := ⟨⟨hn, hsame ▸ .refl⟩, fun j => by rw [hsame]⟩
        exact yields_bind.2 (yields_emit.2 (yields_fail.2 ⟨hlead.tell Act.quiet_quiet _,
          hsame ▸ (View.Idles.refl _).tell rfl, rfl, hx⟩))
      obtain ⟨sn, hsn⟩ := space?_of_book (m := n) (s := parent) (by rw [hsame, book_eq hsp]; rfl)
      dsimp only
      rw [yields_bind, yields_space hsn, Space.state?, Space.page?, pageBase_of_aligned ha,
        ← page_eq hsn, hsame]
      cases hp : m.view.page ⟨parent, va⟩ with
      | none =>
          refine hnothing fun _ q hq => ?_
          rw [hp] at hq
          cases hq
      | some p =>
          have hother (hk : p.kind ≠ .anon) : Uncopied m ⟨parent, va⟩ := fun _ q hq => by
            cases hp.symm.trans hq
            exact hk
          rw [hp, Option.bind_some] at hg
          rw [Option.map_some]
          cases hst : p.state with
          | untouched filling purpose => exact hnothing (hother (by simp [Page.kind, hst]))
          | anon slot stack =>
              cases slot with
              | none =>
                  have hapt := h.coherent.apt hp
                  rw [View.Apt, hst, ← hg] at hapt
                  simp at hapt
              | some k => exact yields_copySlot h hp hg.symm (by simp [Page.slot?, hst]) hn hsame hswap
          | file b => exact yields_copyFile hp hg.symm hst hn hsame

end Vm

def Reopens (k : Nat) (x y : Addr × Region) : Prop :=
  y.1 = x.1 ∧ y.2.pages = x.2.pages ∧ y.2.handle.file = x.2.handle.file ∧ k ≤ y.2.handle.serial

def lastRegion? (l : List (Addr × Region)) (va : Addr) : Option (Addr × Region) :=
  (l.filter (·.1 ≤ va)).getLast?

/-- The file of the last region at or below the page, if the page lies in it, and else its own. -/
def heirFile (l : List (Addr × Region)) (va : Addr) (b : Backing) : FileId :=
  match lastRegion? l va with
  | some (start, g) => if va < start + g.pages * pageSize then g.handle.file else b.handle.file
  | none => b.handle.file

def Bounded (l : List (Addr × Region)) : Prop := ∀ x ∈ l, x.1 + x.2.pages * pageSize < wordLimit

structure Backing.Heir (k : Nat) (l : List (Addr × Region)) (va : Addr) (b b' : Backing) : Prop where
  offset : b'.offset = b.offset
  readBytes : b'.readBytes = b.readBytes
  file : b'.handle.file = heirFile l va b
  serial : k ≤ b'.handle.serial

theorem lastRegion?_reopened {k : Nat} {l l' : List (Addr × Region)} (h : List.Forall₂ (Reopens k) l l')
    (va : Addr) : Option.Rel (Reopens k) (lastRegion? l va) (lastRegion? l' va) := by
  unfold lastRegion?
  induction h with
  | nil => exact .none
  | @cons x y l l' hxy _ ih =>
      by_cases hx : x.1 ≤ va
      · have hy : y.1 ≤ va := by rwa [hxy.1]
        rw [List.filter_cons_of_pos (by simpa using hx), List.filter_cons_of_pos (by simpa using hy),
          List.getLast?_cons, List.getLast?_cons]
        generalize (l.filter _).getLast? = o, (l'.filter _).getLast? = o' at ih
        cases ih with
        | none => exact .some hxy
        | some h => exact .some h
      · have hy : ¬ y.1 ≤ va := by rwa [hxy.1]
        rw [List.filter_cons_of_neg (by simpa using hx), List.filter_cons_of_neg (by simpa using hy)]
        exact ih

theorem mem_of_lastRegion? {l : List (Addr × Region)} {va : Addr} {x : Addr × Region}
    (h : lastRegion? l va = some x) : x ∈ l :=
  (List.mem_filter.1 (List.mem_of_getLast? h)).1

namespace Vm

variable {k : Nat} {l regions : List (Addr × Region)}

theorem yields_duplicateRegions (h : m.Consistent) (l : List (Addr × Region)) (hk : Numbered k m) :
    Yields (duplicateRegions l) m
      (fun out n => List.Forall₂ (Reopens k) l out ∧ n.Consistent ∧ n.view = m.view ∧ Numbered k n)
      fun _ _ => False := by
  induction l generalizing m with
  | nil => exact yields_pure.2 ⟨.nil, h, rfl, hk⟩
  | cons x rest ih =>
      obtain ⟨start, r⟩ := x
      unfold duplicateRegions duplicate
      rw [yields_bind, yields_modifyGet]
      refine (ih (m := { m with nextHandle := m.nextHandle + 1 }) ⟨h.frames, h.swap, h.separate⟩
        (Nat.le_succ_of_le hk)).bind ?_ fun _ _ => False.elim
      rintro out n ⟨hout, hn⟩
      exact yields_pure.2 ⟨.cons ⟨rfl, rfl, rfl, hk⟩ hout, hn⟩

theorem yields_childBacking (h : m.Consistent) (hl : List.Forall₂ (Reopens k) l regions)
    (hk : Numbered k m) (va : Addr) (b : Backing) :
    Yields (childBacking regions va b) m
      (fun b' n => n.Consistent ∧ n.view = m.view ∧ Numbered k n ∧ b.Heir k l va b')
      fun e n => n.Consistent ∧ n.view = m.view ∧ e.isMissing = false ∧ ¬ Bounded l := by
  have hown (hfile : heirFile l va b = b.handle.file) :
      Yields (do pure { b with handle := ← duplicate b.handle }) m
        (fun b' n => n.Consistent ∧ n.view = m.view ∧ Numbered k n ∧ b.Heir k l va b')
        fun e n => n.Consistent ∧ n.view = m.view ∧ e.isMissing = false ∧ ¬ Bounded l := by
    unfold duplicate
    exact yields_bind.2 (yields_modifyGet.2 (yields_pure.2 ⟨⟨h.frames, h.swap, h.separate⟩, rfl,
      Nat.le_succ_of_le hk, rfl, rfl, hfile.symm, hk⟩))
  have hlast := lastRegion?_reopened hl va
  unfold childBacking
  change Yields (match lastRegion? regions va with | some (start, r) => _ | none => _) m _ _
  unfold heirFile at hown
  have hmem (x : Addr × Region) (hx : lastRegion? l va = some x) := mem_of_lastRegion? hx
  generalize hx : lastRegion? l va = x, lastRegion? regions va = y at hlast hown hmem
  cases hlast with
  | none => exact hown rfl
  | @some x y hxy =>
      obtain ⟨start, g⟩ := x
      obtain ⟨start', g'⟩ := y
      obtain ⟨rfl, hpages, hfile, hserial⟩ := hxy
      dsimp only at hpages hfile hserial hown ⊢
      rw [yields_bind, yields_word, hpages]
      split
      · by_cases hlt : va < start' + g.pages * pageSize
        · rw [if_pos hlt]
          refine yields_pure.2 ⟨h, rfl, hk, rfl, rfl, ?_, hserial⟩
          rw [hfile, heirFile, hx]
          exact (if_pos hlt).symm
        · rw [if_neg hlt] at hown ⊢
          exact hown rfl
      · rename_i hlt
        exact ⟨h, rfl, rfl, fun hb => hlt (hb _ (hmem _ rfl))⟩

end Vm

inductive Inherits (v : View) (r : PageRef) : Page → Prop
  | lazy {q : Page} {filling : Option Filling} {purpose : Purpose} (hq : v.page r = some q)
      (hs : q.state = .untouched filling purpose) (hp : ∀ b, purpose ≠ .file b) :
      Inherits v r (.lazy q.writable purpose filling)
  | lazyFile {q : Page} {filling : Option Filling} {b : Backing} (b' : Backing)
      (hq : v.page r = some q) (hs : q.state = .untouched filling (.file b)) :
      Inherits v r (.lazy q.writable (.file b') filling)
  | anon {q : Page} {slot : Option Slot} {stack : Bool} {c : Contents} (hq : v.page r = some q)
      (hs : q.state = .anon slot stack) (hc : v.cell r = some c) :
      Inherits v r (.lazy q.writable (if stack then .stack else .anon) (some (.snapshot c)))
  | file {q : Page} {b : Backing} (b' : Backing) (c : Contents) (hq : v.page r = some q)
      (hs : q.state = .file b) : Inherits v r (.lazy q.writable (.file b') (some (.snapshot c)))
  | reloaded {q : Page} {b : Backing} (b' : Backing) (hq : v.page r = some q)
      (hs : q.state = .file b) : Inherits v r (.lazy q.writable (.file b') (some (.segment b')))

theorem Inherits.same {v : View} {r : PageRef} {p q : Page} (h : Inherits v r p) (hq : v.page r = some q) :
    p.writable = q.writable ∧ p.finalKind = q.finalKind ∧ p.isStack = q.isStack := by
  cases h with
  | @lazy q' filling purpose hq' hs hp =>
      obtain rfl := Option.some.inj (hq.symm.trans hq')
      cases purpose with
      | file b => exact absurd rfl (hp b)
      | anon | stack => simp [Page.lazy, Page.finalKind, Page.isStack, hs]
  | lazyFile b' hq' hs | reloaded b' hq' hs | file b' c hq' hs =>
      obtain rfl := Option.some.inj (hq.symm.trans hq')
      simp [Page.lazy, Page.finalKind, Page.isStack, Purpose.isStack, hs]
  | @anon q' slot stack c hq' hs =>
      obtain rfl := Option.some.inj (hq.symm.trans hq')
      cases stack <;> simp [Page.lazy, Page.finalKind, Page.isStack, Purpose.isStack, hs]

abbrev IsInherited (v : View) (parent : SpaceId) (va : Addr) (p : Page) : Prop :=
  Inherits v ⟨parent, va⟩ p

namespace Machine

theorem Leads.same {P : Act → Prop} (h : m.Leads P n) (hu : u.Consistent) (hv : u.view = n.view) :
    m.Leads P u :=
  ⟨⟨hu, hv ▸ h.path⟩, fun g => by rw [hv, h.pinned]⟩

theorem Leads.marked {P : Act → Prop} (h : n.Leads P u) (hq : P .quiet) (hs : (u.view.book s).isSome)
    (va : Addr) : n.Leads P (u.withSpace s fun sp => { sp with table := sp.table.setDirty va true }) ∧
      (u.withSpace s fun sp => { sp with table := sp.table.setDirty va true }).view.page = u.view.page := by
  obtain ⟨sp, hsp⟩ := space?_of_book hs
  have hv := view_setDirty h.consistent hsp va true
  have hc : (u.withSpace s fun sp => { sp with table := sp.table.setDirty va true }).Consistent := by
    refine h.consistent.withTable (g := (·.setDirty va true)) fun ht => ?_
    rw [PageTable.setDirty_eq_rewrite]
    exact ht.rewrite _ _
  refine ⟨⟨⟨hc, ?_⟩, fun g => by rw [hv, h.pinned]⟩, by rw [hv]⟩
  cases hx : u.view.entry ⟨s, pageBase va⟩ with
  | none =>
      rw [hv, hx, Option.map_none, Function.update_eq_self_iff.2 hx.symm]
      exact h.path
  | some x =>
      rw [hv, hx]
      exact h.path.step hq (.marked x.accessed true hx fun _ => .inl rfl)

end Machine

theorem spares_makes {new : Addr → Page → Prop} (a : Act) (ha : a.Makes v s new fun _ => False) :
    a.Spares r where
  stored _ _ := by
    rintro rfl
    exact ha
  removed _ := by
    rintro rfl
    exact ha.2.2
  dropped := by
    rintro rfl
    exact ha

/-- The page `p` that is at `o` in `w` is like the page `q` that was at `r` in `v`: it will hold the
same, or it does. -/
structure View.Replica (v : View) (r : PageRef) (q : Page) (w : View) (o : PageRef) (p : Page) : Prop where
  writable : p.writable = q.writable
  finalKind : p.finalKind = q.finalKind
  isStack : p.isStack = q.isStack
  untouched : ∀ filling purpose, q.state = .untouched filling purpose →
    p.frame = none ∧ ∃ purpose', p.state = .untouched filling purpose'
  anon : q.kind = .anon → p.kind = .anon ∧ ∃ c, v.cell r = some c ∧ w.cell o = some c

structure View.Copy (v : View) (r : PageRef) (q : Page) (k : Nat) (l : List (Addr × Region)) (w : View)
    (o : PageRef) (p : Page) : Prop extends v.Replica r q w o p where
  backed : ∀ b, q.backing? = some b → ∃ b', p.backing? = some b' ∧ b.Heir k l r.va b'

namespace Inherits

variable {o : PageRef} {k : Nat} {l : List (Addr × Region)} {p₀ : Page} {filling : Option Filling}
  {purpose purpose' : Purpose} {c : Contents} {b b' : Backing}

theorem copy_untouched (h : Inherits v r (.lazy q.writable purpose' filling)) (hq : v.page r = some q)
    (hst : q.state = .untouched filling purpose)
    (hb : ∀ b, purpose = .file b → ∃ b', purpose' = .file b' ∧ b.Heir k l r.va b') :
    v.Copy r q k l w o (.lazy q.writable purpose' filling) := by
  obtain ⟨hw, hf, hs⟩ := h.same hq
  refine ⟨⟨hw, hf, hs, fun f p hq' => ?_, fun hk => ?_⟩, fun b hback => ?_⟩
  · cases hst.symm.trans hq'
    exact ⟨rfl, purpose', rfl⟩
  · simp [Page.kind, hst] at hk
  · obtain ⟨b', rfl, hheir⟩ := hb b (by cases purpose <;> simp [Page.backing?, hst] at hback ⊢; exact hback)
    exact ⟨b', rfl, hheir⟩

theorem copy_anon (h : Inherits v r p₀) (hq : v.page r = some q) (hk : q.kind = .anon) (hlike : p₀.Like p)
    (hc : v.cell r = some c) (hfill : p.finalKind = .anon → p.kind = .anon ∧ w.cell o = some c) :
    v.Copy r q k l w o p := by
  obtain ⟨hw, hf, hs⟩ := h.same hq
  obtain ⟨slot, stack, hst⟩ := Page.kind_eq_anon.1 hk
  have hfinal : p.finalKind = q.finalKind := hlike.finalKind.trans hf
  refine ⟨⟨hlike.writable.trans hw, hfinal, hlike.isStack.trans hs, fun f p hq' => ?_, fun _ => ?_⟩,
    fun b hb => ?_⟩
  · cases hst.symm.trans hq'
  · obtain ⟨hk', hcell⟩ := hfill (hfinal.trans (Page.finalKind_of_anon hk))
    exact ⟨hk', c, hc, hcell⟩
  · simp [Page.backing?, hst] at hb

theorem copy_file (h : Inherits v r p₀) (hq : v.page r = some q) (hst : q.state = .file b)
    (hlike : p₀.Like p) (hb' : b.Heir k l r.va b') (hback : p₀.backing? = some b') :
    v.Copy r q k l w o p := by
  obtain ⟨hw, hf, hs⟩ := h.same hq
  refine ⟨⟨hlike.writable.trans hw, hlike.finalKind.trans hf, hlike.isStack.trans hs, fun f p hq' => ?_,
    fun hk => ?_⟩, fun b₀ hb₀ => ?_⟩
  · cases hst.symm.trans hq'
  · simp [Page.kind, hst] at hk
  · simp only [Page.backing?, hst, Option.some.injEq] at hb₀
    exact ⟨b', hlike.backing?.trans hback, hb₀ ▸ hb'⟩

end Inherits

def Act.Begets (v w : View) (parent : SpaceId) (r : PageRef) : Act → Prop
  | .quiet => True
  | .loaded o => o = r
  | .added o p => o = r ∧ w.page r = none ∧ Inherits v ⟨parent, r.va⟩ p
  | .removed .. | .stored .. | .booked .. | .created _ | .dropped _ | .put .. => False

section

variable {o : PageRef} {k : Nat} {l regions : List (Addr × Region)} {c : Contents} {P : Act → Prop}
  {wr : Bool} {purpose : Purpose}

theorem Act.Quiet.begets (h : a.Quiet) : a.Begets v w parent r := h ▸ trivial

theorem Act.Loads.begets (h : a.Loads r) : a.Begets v w parent r := by
  rcases h with h | rfl
  · exact h.begets
  · rfl

theorem Act.Begets.makes (h : a.Begets v w parent ⟨child, va⟩) :
    a.Makes w child (IsInherited v parent) fun _ => False := by
  cases a with
  | quiet => trivial
  | loaded o => exact congrArg PageRef.space h
  | added o p =>
      obtain ⟨rfl, hnone, hp⟩ := h
      exact ⟨rfl, hnone, hp⟩
  | _ => exact h.elim

theorem Act.Begets.spares (h : a.Begets v w parent r) (o : PageRef) : a.Spares o :=
  spares_makes a h.makes

namespace View

/-- A copy stays a copy, wherever it is moved. -/
theorem Copy.later (h : Copy v r q k l w o p) (hp : w.page o = some p) (hw : w.Coherent)
    (hpath : Path P w z) (hP : ∀ a, P a → a.Spares o) (hload : ¬ P (.loaded o)) :
    ∃ p', z.page o = some p' ∧ Copy v r q k l z o p' := by
  have hremoved (saved : Bool) (ha : P (.removed o saved)) : False := (hP _ ha).removed saved rfl
  have hdropped (ha : P (.dropped o.space)) : False := (hP _ ha).dropped rfl
  obtain ⟨p', hp', hlike⟩ := hpath.like hp hremoved hdropped
  refine ⟨p', hp', ⟨hlike.writable.trans h.writable, hlike.finalKind.trans h.finalKind,
    hlike.isStack.trans h.isStack, fun filling purpose hq => ?_, fun hq => ?_⟩, fun b hb => ?_⟩
  · obtain ⟨hf, purpose', hst⟩ := h.untouched filling purpose hq
    have hkept := hpath.kept hp hf hload hremoved hdropped
    obtain rfl := Option.some.inj (hp'.symm.trans hkept)
    exact ⟨hf, purpose', hst⟩
  · obtain ⟨hk, c, hc, hcell⟩ := h.anon hq
    obtain ⟨hcell', -⟩ := hpath.cell_eq hw hP hp hk
    exact ⟨(hlike.kind (by simp [hk])).trans hk, c, hc, hcell'.trans hcell⟩
  · obtain ⟨b', hb', hheir⟩ := h.backed b hb
    exact ⟨b', hlike.backing?.trans hb', hheir⟩

/-- An anonymous page that is filled with a copy holds the copy. -/
theorem Path.filled (h : Path (Act.Loads r) v w) (hv : v.Coherent)
    (hp : v.page r = some (.lazy wr purpose (some (.snapshot c))))
    (hkind : Page.finalKind (.lazy wr purpose (some (.snapshot c))) = .anon)
    (hq : w.page r = some q) (hf : q.frame ≠ none) : q.kind = .anon ∧ w.cell r = some c := by
  have hpath := h.keeps (I := fun w => w.Coherent ∧ (w.page r = some (.lazy wr purpose (some (.snapshot c))) ∨
    ∃ q, w.page r = some q ∧ q.kind = .anon ∧ w.cell r = some c)) ⟨hv, .inl hp⟩ fun {v w a} ha hs hw => ?_
  · obtain ⟨-, hlazy | ⟨q', hq', hk, hcell⟩⟩ := hpath
    · obtain rfl := Option.some.inj (hlazy.symm.trans hq)
      exact absurd rfl hf
    · obtain rfl := Option.some.inj (hq'.symm.trans hq)
      exact ⟨hk, hcell⟩
  · obtain ⟨hc, hlazy | ⟨q', hq', hk, hcell⟩⟩ := hw
    · refine ⟨hc.step hs, ?_⟩
      rcases ha with rfl | rfl
      · exact .inl (hs.kept hlazy rfl nofun nofun nofun)
      · cases hs with
        | @loaded f _ p c' hp hf hpin hbrings =>
            obtain rfl := Option.some.inj (hlazy.symm.trans hp)
            obtain rfl : c' = c := hbrings
            refine .inr ⟨_, Function.update_self .., ?_, ?_⟩
            · rwa [kind_resident]
            · rw [cell_of_frame (f := f) (Function.update_self ..) rfl]
              exact congrArg some (Function.update_self ..)
    · obtain ⟨hcell', q'', hq'', hk'⟩ := hs.cell_eq hc (ha.spares r) hq' hk
      exact ⟨hc.step hs, .inr ⟨q'', hq'', hk', hcell'.trans hcell⟩⟩

end View

end

namespace Machine

/-- How far a fork has come when the pages `done` of the parent have been copied. -/
structure Inheriting (m : Machine) (child parent : SpaceId) (k : Nat) (l : List (Addr × Region))
    (done : List (Addr × Page)) (n : Machine) : Prop where
  makes : m.Makes child (IsInherited m.view parent) n
  book : n.view.book = m.view.book
  numbered : Numbered k n
  copied : ∀ x ∈ done, ∃ p, n.view.page ⟨child, x.1⟩ = some p ∧
    m.view.Copy ⟨parent, x.1⟩ x.2 k l n.view ⟨child, x.1⟩ p
  fresh : ∀ x ∈ done, m.view.page ⟨child, x.1⟩ = none

theorem Inheriting.start {l : List (Addr × Region)} (hm : m.Consistent) (hn : n.Consistent) (hv : n.view = m.view)
    (hk : Numbered k n) : m.Inheriting child parent k l [] n :=
  ⟨(Makes.refl hm).same hn hv, by rw [hv], hk, nofun, nofun⟩

theorem begets_book (h : n.Leads (Act.Begets v n.view parent r) u) : u.view.book = n.view.book :=
  h.path.book_eq nofun nofun nofun

structure Begotten (m : Machine) (child parent : SpaceId) (k : Nat) (l : List (Addr × Region)) (va : Addr)
    (q : Page) (n u : Machine) : Prop where
  leads : n.Leads (Act.Begets m.view n.view parent ⟨child, va⟩) u
  copied : ∃ p, u.view.page ⟨child, va⟩ = some p ∧ m.view.Copy ⟨parent, va⟩ q k l u.view ⟨child, va⟩ p
  fresh : n.view.page ⟨child, va⟩ = none

structure Unbegotten (m : Machine) (child parent : SpaceId) (l : List (Addr × Region)) (va : Addr)
    (n : Machine) (e : Stop) (u : Machine) : Prop where
  leads : n.Leads (Act.Begets m.view n.view parent ⟨child, va⟩) u
  isMissing : e.isMissing = false
  error : Bounded l → ∃ err, e = .error err

theorem unbegotten {l : List (Addr × Region)} {P : Act → Prop}
    (hP : ∀ a, P a → a.Begets m.view n.view parent ⟨child, va⟩) (e : Stop) (u : Machine)
    (hu : Failing (fun e u => n.Leads P u ∧ e.isMissing = false) e u) :
    m.Unbegotten child parent l va n e u := by
  obtain ⟨err, rfl, hu, hmiss⟩ := hu.error
  exact ⟨hu.mono hP, hmiss, fun _ => ⟨err, rfl⟩⟩

end Machine

namespace Vm

variable {k : Nat} {l regions : List (Addr × Region)} {w : Bool} {purpose : Purpose}
  {filling : Option Filling} {c : Contents}

theorem yields_bequeath (hn : n.Sound) (hc : (n.view.book child).isSome) (hz : n.Leads Act.Quiet u)
    (hbase : pageBase va = va) (hnew : Inherits v ⟨parent, va⟩ (.lazy w purpose filling)) :
    Yields (register child va w purpose filling) u
      (fun _ y => n.Leads (Act.Begets v n.view parent ⟨child, va⟩) y ∧
        y.view.page ⟨child, va⟩ = some (.lazy w purpose filling) ∧ n.view.page ⟨child, va⟩ = none)
      (Failing fun e y => n.Leads (Act.Begets v n.view parent ⟨child, va⟩) y ∧ e.isMissing = false) := by
  have hquiet : n.Leads (Act.Begets v n.view parent ⟨child, va⟩) u := hz.mono fun _ ha => ha.begets
  refine (yields_register (hz.sound hn) (hz.path.live (by simp [Act.Quiet]) hc) va w purpose filling).mono ?_ ?_
  · rintro _ y ⟨-, hnone, hadd, hv⟩
    rw [hbase] at hnone hadd hv
    have habsent : n.view.page ⟨child, va⟩ = none := by
      cases hp : n.view.page ⟨child, va⟩ with
      | none => rfl
      | some p =>
          obtain ⟨q, hq, -⟩ := hz.path.like hp (by simp [Act.Quiet]) (by simp [Act.Quiet])
          rw [hnone] at hq
          cases hq
    refine ⟨hquiet.trans (hadd.mono ?_), ?_, habsent⟩
    · rintro a (ha | rfl)
      · exact ha.begets
      · exact ⟨rfl, habsent, hnew⟩
    · rw [hv]
      exact Function.update_self ..
  · intro e y hy
    exact hy.mono fun e hy => ⟨hquiet.trans (hy.1.mono fun _ ha => ha.begets), hy.2.2.1⟩

theorem yields_implant (hn : n.Sound) (hc : (n.view.book child).isSome) (hz : n.Leads Act.Quiet u)
    (hbase : pageBase va = va)
    (hnew : Inherits v ⟨parent, va⟩ (.lazy w purpose (some (.snapshot c)))) :
    Yields (register child va w purpose (some (.snapshot c))) u
      (fun _ y => Yields (makeResident child va) y
        (fun _ z => n.Leads (Act.Begets v n.view parent ⟨child, va⟩) z ∧
          ∃ p, z.view.page ⟨child, va⟩ = some p ∧ (Page.lazy w purpose (some (.snapshot c))).Like p ∧
            (p.finalKind = .anon → p.kind = .anon ∧ z.view.cell ⟨child, va⟩ = some c) ∧
            n.view.page ⟨child, va⟩ = none)
        (Failing fun e z => n.Leads (Act.Begets v n.view parent ⟨child, va⟩) z ∧ e.isMissing = false))
      (Failing fun e z => n.Leads (Act.Begets v n.view parent ⟨child, va⟩) z ∧ e.isMissing = false) := by
  refine (yields_bequeath hn hc hz hbase hnew).mono ?_ fun _ _ => id
  rintro _ y ⟨hy, hpage, habsent⟩
  have hlive : (y.view.book child).isSome := by rwa [begets_book hy]
  refine (yields_makeResident (hy.sound hn) hlive va).mono ?_ ?_
  · rintro _ z ⟨hload, -, p, f, hp, hf⟩
    rw [hbase] at hload hp
    obtain ⟨p', hp', hlike⟩ := hload.path.like hpage (by simp [Act.Loads, Act.Quiet])
      (by simp [Act.Loads, Act.Quiet])
    obtain rfl := Option.some.inj (hp'.symm.trans hp)
    refine ⟨hy.trans (hload.mono fun _ ha => ha.begets), p', hp, hlike, fun hk => ?_, habsent⟩
    exact hload.path.filled (hy.sound hn).coherent hpage (hlike.finalKind ▸ hk) hp (by simp [hf])
  · intro e z hz
    refine hz.mono fun e hz => ⟨hy.trans (hz.1.mono fun _ ha => ha.begets), ?_⟩
    cases hmiss : e.isMissing with
    | false => rfl
    | true =>
        obtain ⟨p, hp, run, purpose, e, hst, -⟩ := hz.2.2.1 hmiss
        rw [hbase, hpage] at hp
        cases hp
        cases hst

section

variable (hm : m.Sound) (hc : (m.view.book child).isSome) (hp : (m.view.book parent).isSome)
  (h : m.Makes child (IsInherited m.view parent) n) (hq : m.view.page ⟨parent, va⟩ = some q)
  (hl : List.Forall₂ (Reopens k) l regions) (hk : Numbered k n)

include hl in
theorem yields_backed {f : Backing → Vm Unit} {Q : Unit → Machine → Prop} {b : Backing}
    (hu : n.Leads Act.Quiet u) (hku : Numbered k u)
    (hf : ∀ b' z, n.Leads Act.Quiet z → b.Heir k l va b' →
      Yields (f b') z Q (m.Unbegotten child parent l va n)) :
    Yields (childBacking regions va b >>= f) u Q (m.Unbegotten child parent l va n) := by
  refine (yields_childBacking hu.consistent hl hku va b).bind ?_ ?_
  · rintro b' z ⟨hz, hv, -, hb'⟩
    exact hf b' z (hu.same hz hv) hb'
  · rintro e z ⟨hz, hv, hmiss, hb⟩
    exact ⟨(hu.same hz hv).mono fun _ ha => ha.begets, hmiss, fun hb' => absurd hb' hb⟩

include hm hc h hq hl hk in
theorem yields_inheritUntouched (hst : q.state = .untouched filling purpose) :
    Yields (inheritPage child parent regions va q) n
      (fun _ => m.Begotten child parent k l va q n) (m.Unbegotten child parent l va n) := by
  have hbase : pageBase va = va := pageBase_of_aligned (hm.coherent.placed hq).2.1
  have hsame : n.Leads Act.Quiet n := .refl h.consistent
  have hlazy (purpose' : Purpose) (hnew : Inherits m.view ⟨parent, va⟩ (.lazy q.writable purpose' filling))
      (hb : ∀ b, purpose = .file b → ∃ b', purpose' = .file b' ∧ b.Heir k l va b') {z : Machine}
      (hz : n.Leads Act.Quiet z) :
      Yields (register child va q.writable purpose' filling) z
        (fun _ => m.Begotten child parent k l va q n) (m.Unbegotten child parent l va n) := by
    refine (yields_bequeath (h.sound hm) (h.live hc) hz hbase hnew).mono ?_ (unbegotten fun _ => id)
    rintro _ u ⟨hu, hpage, habsent⟩
    exact ⟨hu, ⟨_, hpage, hnew.copy_untouched hq hst hb⟩, habsent⟩
  rw [inheritPage, hst]
  cases purpose with
  | file b =>
      refine yields_backed hl hsame hk fun b' z hz hb' => hlazy (.file b') (.lazyFile b' hq hst) ?_ hz
      rintro _ ⟨⟩
      exact ⟨b', rfl, hb'⟩
  | anon | stack => exact hlazy _ (.lazy hq hst (by simp)) (by simp) hsame

include hm hc hp h hq in
theorem yields_inheritAnon {slot : Option Slot} {stack : Bool} (hst : q.state = .anon slot stack) :
    Yields (inheritPage child parent regions va q) n
      (fun _ => m.Begotten child parent k l va q n) (m.Unbegotten child parent l va n) := by
  obtain ⟨-, ha, -⟩ := hm.coherent.placed hq
  have hn : n.Sound := h.sound hm
  rw [inheritPage, hst]
  refine (yields_snapshot hn (h.live hp) ha).bind ?_ fun e u hu =>
    unbegotten (fun _ ha => Act.Quiet.begets ha) e u (hu.mono fun _ hu => ⟨hu.1, hu.2.2.1⟩)
  rintro c u ⟨hu, -, hcopies⟩
  have hkind : q.kind = .anon := by simp [Page.kind, hst]
  obtain ⟨hcell, q', hq', hk'⟩ := h.path.cell_eq hm.coherent spares_makes hq hkind
  have hc' : m.view.cell ⟨parent, va⟩ = some c := by
    rcases hcopies with hcopies | ⟨p, b, hpage, -, hfile, -⟩
    · rw [← hcell, hcopies]
    · obtain rfl := Option.some.inj (hq'.symm.trans hpage)
      simp [Page.kind, hfile] at hk'
  have hnew := Inherits.anon hq hst hc'
  refine yields_bind.2 ((yields_implant hn (h.live hc) hu (pageBase_of_aligned ha) hnew).mono ?_
    (unbegotten fun _ => id))
  intro _ y hy
  refine hy.mono ?_ (unbegotten fun _ => id)
  rintro _ z ⟨hz, p, hpage, hlike, hfill, habsent⟩
  exact ⟨hz, ⟨p, hpage, hnew.copy_anon hq hkind hlike hc' hfill⟩, habsent⟩

include hm hc hp h hq hl hk in
theorem yields_inheritFile {b : Backing} (hst : q.state = .file b) :
    Yields (inheritPage child parent regions va q) n
      (fun _ => m.Begotten child parent k l va q n) (m.Unbegotten child parent l va n) := by
  obtain ⟨-, ha, -⟩ := hm.coherent.placed hq
  have hbase : pageBase va = va := pageBase_of_aligned ha
  have hn : n.Sound := h.sound hm
  rw [inheritPage, hst]
  dsimp only
  split
  · obtain ⟨sp, hsp⟩ := space?_of_book (h.live hp)
    rw [yields_bind, yields_space hsp]
    have hnumbered := ((lasting_whole (lasting_numbered k)).snapshot parent va).yields n hk
    refine ((yields_snapshot hn (h.live hp) ha).and hnumbered).bind ?_
      fun e u hu => unbegotten (fun _ ha => Act.Quiet.begets ha) e u (hu.1.mono fun _ hu => ⟨hu.1, hu.2.2.1⟩)
    rintro c u ⟨⟨hu, -⟩, hku⟩
    refine yields_backed hl hu hku fun b' z hz hb' => ?_
    have hnew := Inherits.file b' c hq hst
    refine yields_bind.2 ((yields_implant hn (h.live hc) hz hbase hnew).mono ?_ (unbegotten fun _ => id))
    intro _ y hy
    refine hy.bind ?_ (unbegotten fun _ => id)
    rintro _ x ⟨hx, p, hpage, hlike, -, habsent⟩
    split
    · obtain ⟨hmarked, hsame⟩ := hx.marked trivial
        (by rw [begets_book hx]; exact h.live hc : (x.view.book child).isSome) va
      refine yields_modifyTable.2 ⟨hmarked, ⟨p, by rw [hsame, hpage], ?_⟩, habsent⟩
      exact hnew.copy_file hq hst hlike hb' rfl
    · exact yields_pure.2 ⟨hx, ⟨p, hpage, hnew.copy_file hq hst hlike hb' rfl⟩, habsent⟩
  · refine yields_backed hl (.refl h.consistent) hk fun b' z hz hb' => ?_
    have hnew := Inherits.reloaded b' hq hst
    refine (yields_bequeath hn (h.live hc) hz hbase hnew).mono ?_ (unbegotten fun _ => id)
    rintro _ u ⟨hu, hpage, habsent⟩
    exact ⟨hu, ⟨_, hpage, hnew.copy_file hq hst (.refl _) hb' rfl⟩, habsent⟩

include hm hc hp h hq hl hk in
/-- The child's page is a copy of the parent's, wherever that has been moved since the fork began. -/
theorem yields_inheritPage :
    Yields (inheritPage child parent regions va q) n
      (fun _ => m.Begotten child parent k l va q n) (m.Unbegotten child parent l va n) := by
  cases hst : q.state with
  | untouched filling purpose => exact yields_inheritUntouched hm hc h hq hl hk hst
  | anon slot stack => exact yields_inheritAnon hm hc hp h hq hst
  | file b => exact yields_inheritFile hm hc hp h hq hl hk hst

end

theorem yields_inheritNext (hm : m.Sound) (hc : (m.view.book child).isSome)
    (hp : (m.view.book parent).isSome) (hl : List.Forall₂ (Reopens k) l regions)
    (done : List (Addr × Page)) (x : Addr × Page) (hx : m.view.page ⟨parent, x.1⟩ = some x.2)
    (hne : ∀ y ∈ done, y.1 ≠ x.1) (h : m.Inheriting child parent k l done n) :
    Yields (inheritPage child parent regions x.1 x.2) n
      (fun _ u => m.Inheriting child parent k l (done ++ [x]) u)
      fun e u => m.Makes child (IsInherited m.view parent) u ∧ u.view.book = m.view.book ∧
        e.isMissing = false ∧ (Bounded l → ∃ err, e = .error err) := by
  have hstep {u : Machine} (hu : n.Leads (Act.Begets m.view n.view parent ⟨child, x.1⟩) u) :
      m.Makes child (IsInherited m.view parent) u ∧ u.view.book = m.view.book :=
    ⟨h.makes.trans (hu.mono fun _ ha => ha.makes), (begets_book hu).trans h.book⟩
  refine ((yields_inheritPage hm hc hp h.makes hx hl h.numbered).and
    (((lasting_whole (lasting_numbered k)).inheritPage child parent regions x.1 x.2).yields n h.numbered)).mono ?_ ?_
  · rintro _ u ⟨⟨hu, ⟨p, hpage, hcopy⟩, habsent⟩, hku⟩
    have hmade := hstep hu
    refine ⟨hmade.1, hmade.2, hku, fun y hy => ?_, fun y hy => ?_⟩
    · rcases List.mem_append.1 hy with hy | hy
      -- making room for this page may have put out copies that were made before
      · obtain ⟨p', hp', hcopy'⟩ := h.copied y hy
        exact hcopy'.later hp' (h.makes.sound hm).coherent hu.path (fun _ ha => ha.spares _) fun heq =>
          hne y hy (congrArg PageRef.va heq)
      · obtain rfl := List.mem_singleton.1 hy
        exact ⟨p, hpage, hcopy⟩
    · rcases List.mem_append.1 hy with hy | hy
      · exact h.fresh y hy
      · obtain rfl := List.mem_singleton.1 hy
        exact h.makes.path.makes_absent habsent
  · rintro e u ⟨⟨hu, hmiss, herr⟩, -⟩
    exact ⟨(hstep hu).1, (hstep hu).2, hmiss, herr⟩

theorem yields_inheritPages (hm : m.Sound) (hc : (m.view.book child).isSome)
    (hp : (m.view.book parent).isSome) (hl : List.Forall₂ (Reopens k) l regions)
    (done todo : List (Addr × Page)) (hpages : ∀ x ∈ todo, m.view.page ⟨parent, x.1⟩ = some x.2)
    (hnodup : (done ++ todo).Pairwise (·.1 ≠ ·.1)) (h : m.Inheriting child parent k l done n) :
    Yields (inheritPages child parent regions todo) n
      (fun _ u => m.Inheriting child parent k l (done ++ todo) u)
      fun e u => m.Makes child (IsInherited m.view parent) u ∧ u.view.book = m.view.book ∧
        e.isMissing = false ∧ (Bounded l → ∃ err, e = .error err) := by
  induction todo generalizing n done with
  | nil =>
      rw [List.append_nil]
      exact yields_pure.2 h
  | cons x rest ih =>
      have hne := (List.pairwise_append.1 hnodup).2.2
      refine (yields_inheritNext hm hc hp hl done x (hpages x (List.mem_cons_self ..))
        (fun y hy => hne y hy x (List.mem_cons_self ..)) h).bind (fun _ u hu => ?_) fun _ _ => id
      rw [← List.singleton_append, ← List.append_assoc] at hnodup ⊢
      exact ih (done ++ [x]) (fun y hy => hpages y (List.mem_cons_of_mem _ hy)) hnodup hu

end Vm

def Act.Forks (v : View) (child parent : SpaceId) (a : Act) : Prop :=
  a.Makes v child (IsInherited v parent) (fun _ => False) ∨ ∃ b, a = .booked child b

def Act.Unforks (v : View) (child parent : SpaceId) (a : Act) : Prop :=
  a.Forks v child parent ∨ ∃ va saved, a = .removed ⟨child, va⟩ saved

/-- In `w`, the child has a copy of every page that the parent had in `v`, where it had none itself,
and a book like the parent's. -/
structure View.Forked (v : View) (child parent : SpaceId) (k : Nat) (w : View) : Prop where
  copied : ∀ va q, v.page ⟨parent, va⟩ = some q → ∃ p, w.page ⟨child, va⟩ = some p ∧
    v.Copy ⟨parent, va⟩ q k (v.regions parent).toList w ⟨child, va⟩ p
  fresh : ∀ va q, v.page ⟨parent, va⟩ = some q → v.page ⟨child, va⟩ = none
  book : ∃ b opened, v.book parent = some b ∧ List.Forall₂ (Reopens k) b.regions.toList opened ∧
    w.book = update v.book child
      (some ⟨(v.regions child).insertMany opened, b.stackBottom, b.savedStack⟩)

namespace Vm

theorem yields_inherit (hm : m.Sound) (hc : (m.view.book child).isSome)
    (hp : (m.view.book parent).isSome) :
    Yields (inherit child parent) m
      (fun _ n => m.Leads (Act.Forks m.view child parent) n ∧
        m.view.Forked child parent m.nextHandle n.view)
      fun e u => m.Makes child (IsInherited m.view parent) u ∧ u.view.book = m.view.book ∧
        e.isMissing = false ∧ (Bounded (m.view.regions parent).toList → ∃ err, e = .error err) := by
  obtain ⟨sp, hsp⟩ := space?_of_book hp
  have hbook := book_eq hsp
  have hregions : m.view.regions parent = sp.regions := View.regions_eq hbook
  rw [hregions]
  unfold inherit
  rw [yields_bind, yields_space hsp]
  refine (yields_duplicateRegions hm.consistent sp.regions.toList
    (Nat.le_refl _ : Numbered m.nextHandle m)).bind ?_ fun _ _ => False.elim
  rintro regions n ⟨hl, hn, hv, hk⟩
  have hpages (x : Addr × Page) (hx : x ∈ sp.pages.toList) : m.view.page ⟨parent, x.1⟩ = some x.2 :=
    (mem_pages hsp).1 hx
  refine (yields_inheritPages hm hc hp hl [] sp.pages.toList hpages sp.pairwise_pages
    (.start hm.consistent hn hv hk)).bind ?_ fun _ _ => id
  intro _ u hu
  obtain ⟨su, hsu⟩ := space?_of_book (hu.makes.live hp)
  obtain ⟨sc, hsc⟩ := space?_of_book (hu.makes.live hc)
  have hsame : su.book = sp.book := by
    have hbu := book_eq hsu
    rw [hu.book, hbook] at hbu
    exact (Option.some.inj hbu).symm
  obtain ⟨hbooked, hview⟩ := booked hu.makes.consistent hsc (g := fun sp => { sp with
    regions := sp.regions.insertMany regions
    stackBottom := su.stackBottom
    savedStack := su.savedStack }) (fun _ => rfl) fun _ => rfl
  rw [yields_bind, yields_space hsu]
  have hmem (va : Addr) (q : Page) (hq : m.view.page ⟨parent, va⟩ = some q) : (va, q) ∈ sp.pages.toList :=
    (mem_pages hsp).2 hq
  refine yields_bind.2 (yields_modifySpace.2 (yields_emit.2 ⟨?_, ?_, fun va q hq => hu.fresh _ (hmem va q hq), ?_⟩))
  · refine Leads.tell (Leads.trans (Leads.mono hu.makes fun _ ha => .inl ha) (hbooked.mono ?_)) (.inl trivial) _
    exact fun _ ha => .inr ⟨_, ha⟩
  · intro va q hq
    rw [view_tell, hview, hregions]
    obtain ⟨p, hpage, hcopy⟩ := hu.copied (va, q) (hmem va q hq)
    exact ⟨p, hpage, ⟨hcopy.writable, hcopy.finalKind, hcopy.isStack, hcopy.untouched, hcopy.anon⟩,
      hcopy.backed⟩
  · refine ⟨sp.book, regions, hbook, hl, ?_⟩
    have hbc := book_eq hsc
    rw [hu.book] at hbc
    rw [view_tell, hview, hu.book, View.regions_eq hbc, ← hsame]
    rfl

/-- A fork makes the child a copy of the parent, or leaves it empty. -/
theorem yields_fork (hm : m.Sound) (hc : (m.view.book child).isSome)
    (hp : (m.view.book parent).isSome) :
    Yields (fork child parent) m
      (fun _ n => m.Leads (Act.Forks m.view child parent) n ∧
        m.view.Forked child parent m.nextHandle n.view)
      fun e n => e.isMissing = false ∧
        ((∃ err, e = .error err) ∧ m.Leads (Act.Unforks m.view child parent) n ∧
            (∀ va, n.view.page ⟨child, va⟩ = none) ∧
            n.view.book = update m.view.book child ((m.view.book child).map fun b =>
              { b with regions := ∅, stackBottom := stackTop }) ∨
          ¬ Bounded (m.view.regions parent).toList ∧ m.Makes child (IsInherited m.view parent) n) := by
  unfold fork
  refine yields_bind.2 (yields_attempt.2 ((yields_inherit hm hc hp).mono ?_ ?_))
  · exact fun _ u hu => yields_pure.2 hu
  · rintro (e | _ | _) u ⟨hu, hbook, hmiss, herr⟩
    · refine yields_bind.2 ((yields_destroy (hu.sound hm) (hu.live hc)).mono ?_ fun _ _ => False.elim)
      rintro _ n ⟨hn, hlost, hnb, -⟩
      refine yields_fail.2 ⟨hmiss, .inl ⟨⟨e, rfl⟩, Leads.trans (Leads.mono hu fun _ ha => .inl (.inl ha))
        (hn.mono ?_), fun va => hlost.absent _ rfl, by rw [hnb, hbook]⟩⟩
      rintro a (ha | ⟨b, rfl⟩ | ⟨va, saved, rfl, -⟩)
      · exact .inl (.inl ha.makes)
      · exact .inl (.inr ⟨b, rfl⟩)
      · exact .inr ⟨va, saved, rfl⟩
    · exact ⟨hmiss, .inr ⟨fun hb => by simpa using herr hb, hu⟩⟩
    · exact ⟨hmiss, .inr ⟨fun hb => by simpa using herr hb, hu⟩⟩

end Vm

end DemandPaging
