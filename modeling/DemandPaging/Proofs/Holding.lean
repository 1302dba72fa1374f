import DemandPaging.Proofs.Unforked

namespace DemandPaging

open Function (update)
open Step Machine

variable {m n u : Machine} {v w : View} {s child parent : SpaceId} {sp : Space} {r : PageRef} {p q : Page}
  {g : Handle} {a : Act} {P : Act → Prop} {α : Type}

theorem handles_resident (wr : Bool) (f : Option FrameId) (hg : g ∈ Page.handles ⟨wr, f, Vm.residentState p.state⟩) :
    g ∈ p.handles := by
  obtain ⟨_, _, ⟨filling, _ | _ | _⟩ | _ | _⟩ := p <;>
    simp_all [Page.handles, Vm.residentState, Purpose.state, Purpose.handles]

namespace View

theorem Step.handles_of_page (h : v.Step a w) (hq : w.page r = some q) (hg : g ∈ q.handles) :
    (∃ p, v.page r = some p ∧ g ∈ p.handles) ∨ a = .added r q := by
  cases h with
  | @swapped f r' p k stack =>
      by_cases hr : r = r'
      · subst hr
        cases (Function.update_self ..).symm.trans hq
        simp [Page.handles] at hg
      · exact .inl ⟨q, (Function.update_of_ne hr ..).symm.trans hq, hg⟩
  | @discarded f r' p b l hp hs =>
      by_cases hr : r = r'
      · subst hr
        cases (Function.update_self ..).symm.trans hq
        exact .inl ⟨p, hp, by rwa [Page.handles, hs]⟩
      · exact .inl ⟨q, (Function.update_of_ne hr ..).symm.trans hq, hg⟩
  | @loaded f r' p c hp =>
      by_cases hr : r = r'
      · subst hr
        cases (Function.update_self ..).symm.trans hq
        exact .inl ⟨p, hp, handles_resident _ _ hg⟩
      · exact .inl ⟨q, (Function.update_of_ne hr ..).symm.trans hq, hg⟩
  | @added r' =>
      by_cases hr : r = r'
      · subst hr
        cases (Function.update_self ..).symm.trans hq
        exact .inr rfl
      · exact .inl ⟨q, (Function.update_of_ne hr ..).symm.trans hq, hg⟩
  | @removed r' =>
      by_cases hr : r = r'
      · subst hr
        cases (Function.update_self ..).symm.trans hq
      · exact .inl ⟨q, (Function.update_of_ne hr ..).symm.trans hq, hg⟩
  | dropped s => exact .inl ⟨q, (Option.ite_none_left_eq_some.1 hq).2, hg⟩
  | _ => exact .inl ⟨q, hq, hg⟩

/-- Pages keep nothing open but what they kept open before, or were added with. -/
theorem Path.handles_of_page (h : Path P v w) (hq : w.page r = some q) (hg : g ∈ q.handles) :
    (∃ p, v.page r = some p ∧ g ∈ p.handles) ∨ ∃ p, P (.added r p) ∧ g ∈ p.handles := by
  refine h.keeps (I := fun w => ∀ q, w.page r = some q → g ∈ q.handles →
    (∃ p, v.page r = some p ∧ g ∈ p.handles) ∨ ∃ p, P (.added r p) ∧ g ∈ p.handles)
    (fun q hq hg => .inl ⟨q, hq, hg⟩) (fun ha hs hw q hq hg => ?_) q hq hg
  rcases hs.handles_of_page hq hg with ⟨p, hp, hg⟩ | rfl
  · exact hw p hp hg
  · exact .inr ⟨q, ha, hg⟩

theorem Step.region_of {start : Addr} {i : Region} (h : v.Step a w) (hi : (w.regions s)[start]? = some i) :
    (v.regions s)[start]? = some i ∨ ∃ b, a = .booked s b ∧ b.regions[start]? = some i := by
  unfold regions at hi ⊢
  cases h with
  | @booked t b =>
      by_cases hs : s = t
      · subst hs
        exact .inr ⟨b, rfl, by simpa using hi⟩
      · exact .inl (by simpa [Function.update_of_ne hs] using hi)
  | created =>
      by_cases hs : s = ⟨v.nextSpace⟩
      · subst hs
        simp [Space.book, Space.empty] at hi
      · exact .inl (by simpa [Function.update_of_ne hs] using hi)
  | dropped t =>
      by_cases hs : s = t
      · subst hs
        simp at hi
      · exact .inl (by simpa [Function.update_of_ne hs] using hi)
  | _ => exact .inl hi

theorem Path.region_of {start : Addr} {i : Region} (h : Path P v w) (hi : (w.regions s)[start]? = some i) :
    (v.regions s)[start]? = some i ∨ ∃ b, P (.booked s b) ∧ b.regions[start]? = some i := by
  refine h.keeps (I := fun w => (w.regions s)[start]? = some i →
    (v.regions s)[start]? = some i ∨ ∃ b, P (.booked s b) ∧ b.regions[start]? = some i)
    .inl (fun ha hs hw hi => ?_) hi
  rcases hs.region_of hi with hi | ⟨b, rfl, hi⟩
  · exact hw hi
  · exact .inr ⟨b, ha, hi⟩

/-- A page that is not touched, removed or dropped keeps open what it kept open. -/
theorem Path.handles_kept (h : Path P v w) (hv : v.Coherent) (hp : v.page r = some p) (hl : ¬ P (.loaded r))
    (hr : ∀ saved, ¬ P (.removed r saved)) (hd : ¬ P (.dropped r.space)) :
    ∃ q, w.page r = some q ∧ q.handles = p.handles := by
  by_cases hk : p.kind = .untouched
  · refine ⟨p, h.kept hp ?_ hl hr hd, rfl⟩
    have hapt := hv.apt hp
    unfold Page.kind at hk
    unfold Apt at hapt
    split at hk <;> simp_all
  · obtain ⟨q, hq, hlike⟩ := h.like hp hr hd
    exact ⟨q, hq, hlike.handles_eq (hlike.kind hk) fun hk' => absurd hk' hk⟩

theorem Path.holds_iff (h : Path P v w) (hv : v.Coherent) (hregions : w.regions s = v.regions s)
    (hl : ∀ va, ¬ P (.loaded ⟨s, va⟩)) (ha : ∀ va p, ¬ P (.added ⟨s, va⟩ p))
    (hr : ∀ va saved, ¬ P (.removed ⟨s, va⟩ saved)) (hd : ¬ P (.dropped s)) : w.Holds s g ↔ v.Holds s g := by
  unfold Holds
  rw [hregions]
  refine or_congr_right ⟨?_, ?_⟩
  · rintro ⟨va, q, hq, hg⟩
    rcases h.handles_of_page hq hg with ⟨p, hp, hg⟩ | ⟨p, hadd, -⟩
    · exact ⟨va, p, hp, hg⟩
    · exact absurd hadd (ha va p)
  · rintro ⟨va, p, hp, hg⟩
    obtain ⟨q, hq, heq⟩ := h.handles_kept hv hp (hl va) (hr va) hd
    exact ⟨va, q, hq, heq ▸ hg⟩

end View

namespace Machine

def Knows (m n : Machine) (g : Handle) : Prop :=
  (∃ s, m.view.Holds s g) ∨ m.nextHandle ≤ g.serial ∧ g.serial < n.nextHandle

theorem Knows.mono (h : m.Knows n g) (hn : n.nextHandle ≤ u.nextHandle) : m.Knows u g :=
  h.imp_right fun hg => ⟨hg.1, Nat.lt_of_lt_of_le hg.2 hn⟩

theorem knows_of_page {va : Addr} (hp : m.view.page ⟨s, va⟩ = some p) (hg : g ∈ p.handles) : m.Knows n g :=
  .inl ⟨s, .inr ⟨va, p, hp, hg⟩⟩

/-- How far the handles of a child have come, when its fork began at `m`: no space holds a handle that is not known,
and those of the regions that were opened for the child are. -/
structure Hands (m : Machine) (child parent : SpaceId) (regions : List (Addr × Region)) (n : Machine) : Prop where
  sound : n.Sound
  child : (n.view.book child).isSome
  parent : (n.view.book parent).isSome
  numbered : m.nextHandle ≤ n.nextHandle
  known : ∀ s g, n.view.Holds s g → m.Knows n g
  regions : ∀ x ∈ regions, m.Knows n x.2.handle

namespace Hands

variable {regions regions' : List (Addr × Region)}

theorem refl (h : m.Sound) (hc : (m.view.book child).isSome) (hp : (m.view.book parent).isSome) :
    m.Hands child parent [] m :=
  ⟨h, hc, hp, Nat.le_refl _, fun s _ hg => .inl ⟨s, hg⟩, nofun⟩

theorem subset (h : m.Hands child parent regions n) (hl : regions' ⊆ regions) : m.Hands child parent regions' n :=
  { h with regions := fun x hx => h.regions x (hl hx) }

theorem leads (h : m.Hands child parent regions n) (hu : n.Leads P u) (hnum : n.nextHandle ≤ u.nextHandle)
    (hbook : u.view.book = n.view.book) (hadd : ∀ r p, P (.added r p) → ∀ g ∈ p.handles, m.Knows u g) :
    m.Hands child parent regions u := by
  refine ⟨hu.sound h.sound, hbook ▸ h.child, hbook ▸ h.parent, h.numbered.trans hnum, ?_,
    fun x hx => (h.regions x hx).mono hnum⟩
  rintro s g (⟨start, r, hr, rfl⟩ | ⟨va, q, hq, hg⟩)
  · rw [View.regions, hbook] at hr
    exact (h.known s _ (.inl ⟨start, r, hr, rfl⟩)).mono hnum
  · rcases hu.path.handles_of_page hq hg with ⟨p, hp, hg⟩ | ⟨p, ha, hg⟩
    · exact (h.known s g (.inr ⟨va, p, hp, hg⟩)).mono hnum
    · exact hadd _ p ha g hg

theorem opened (h : m.Hands child parent regions n) (f : FileId) :
    m.Hands child parent regions { n with nextHandle := n.nextHandle + 1 } ∧
      m.Knows { n with nextHandle := n.nextHandle + 1 } ⟨f, n.nextHandle⟩ := by
  have hc := h.sound.consistent
  have hn : n.Leads Act.Quiet { n with nextHandle := n.nextHandle + 1 } :=
    (Leads.refl hc).same ⟨hc.frames, hc.swap, hc.separate⟩ rfl
  exact ⟨h.leads hn (Nat.le_succ _) rfl (by simp [Act.Quiet]), .inr ⟨h.numbered, Nat.lt_succ_self _⟩⟩

end Hands

end Machine

namespace Vm

variable {va : Addr} {wr : Bool} {purpose : Purpose} {filling : Option Filling} {regions : List (Addr × Region)}
  {b : Backing}

theorem hands_duplicateRegions (h : m.Hands child parent regions n) (l : List (Addr × Region)) :
    Yields (duplicateRegions l) n (fun opened u => m.Hands child parent (opened ++ regions) u) fun _ _ => False := by
  induction l generalizing n regions with
  | nil => exact yields_pure.2 h
  | cons x rest ih =>
      obtain ⟨start, r⟩ := x
      unfold duplicateRegions duplicate
      rw [yields_bind, yields_modifyGet]
      obtain ⟨hopened, hknows⟩ := h.opened r.handle.file
      have hnext : m.Hands child parent ((start, ⟨⟨r.handle.file, n.nextHandle⟩, r.pages⟩) :: regions) _ :=
        { hopened with regions := List.forall_mem_cons.2 ⟨hknows, hopened.regions⟩ }
      refine (ih hnext).bind (fun opened u hu => yields_pure.2 (hu.subset fun x hx => ?_)) fun _ _ => id
      simp only [List.mem_cons, List.mem_append] at hx ⊢
      tauto

section

variable (h : m.Hands child parent regions n)
include h

theorem hands_register (hg : ∀ g ∈ (Page.lazy wr purpose filling).handles, m.Knows n g) :
    Yields (register child va wr purpose filling) n (fun _ u => m.Hands child parent regions u) fun _ _ => True := by
  refine ((yields_register h.sound h.child va wr purpose filling).and
    (((lasting_whole (lasting_numbered n.nextHandle)).register child va wr purpose filling).yields n
      (Nat.le_refl _))).mono ?_ fun _ _ _ => trivial
  rintro _ u ⟨⟨-, -, hu, hv⟩, hnum⟩
  refine h.leads hu hnum (by rw [hv]) fun r p ha g hp => ?_
  rcases ha with ha | ha
  · cases ha
  · cases ha
    exact (hg g hp).mono hnum

theorem hands_makeResident :
    Yields (makeResident child va) n (fun _ u => m.Hands child parent regions u) fun _ _ => True := by
  refine ((yields_makeResident h.sound h.child va).and
    (((lasting_whole (lasting_numbered n.nextHandle)).paged.makeResident child va).yields n
      (Nat.le_refl _))).mono ?_ fun _ _ _ => trivial
  rintro _ u ⟨⟨hu, -⟩, hnum⟩
  exact h.leads hu hnum hu.path.loads_book (by simp [Act.Loads, Act.Quiet])

theorem hands_snapshot (ha : isPageAligned va = true) :
    Yields (snapshot parent va) n (fun _ u => m.Hands child parent regions u) fun _ _ => True := by
  refine ((yields_snapshot h.sound h.parent ha).and
    (((lasting_whole (lasting_numbered n.nextHandle)).snapshot parent va).yields n
      (Nat.le_refl _))).mono ?_ fun _ _ _ => trivial
  rintro c u ⟨⟨hu, -⟩, hnum⟩
  have hbook := hu.path.quiet_book
  exact h.leads hu hnum hbook (by simp [Act.Quiet])

theorem hands_childBacking :
    Yields (childBacking regions va b) n (fun b' u => m.Hands child parent regions u ∧ m.Knows u b'.handle)
      fun _ _ => True := by
  have hown : Yields (do pure { b with handle := ← duplicate b.handle }) n
      (fun b' u => m.Hands child parent regions u ∧ m.Knows u b'.handle) fun _ _ => True := by
    unfold duplicate
    exact yields_bind.2 (yields_modifyGet.2 (yields_pure.2 (h.opened _)))
  unfold childBacking
  split
  · rename_i start r hlast
    rw [yields_bind, yields_word]
    split
    · split
      · exact yields_pure.2 ⟨h, h.regions _ (mem_of_lastRegion? hlast)⟩
      · exact hown
    · trivial
  · exact hown

/-- A file page for the child, whose handle and whose filling's handle are known. -/
theorem hands_registerFile (hb : m.Knows n b.handle) (hf : ∀ i ∈ filling, ∀ g ∈ i.handles, m.Knows n g) :
    Yields (register child va wr (.file b) filling) n (fun _ u => m.Hands child parent regions u) fun _ _ => True := by
  refine hands_register h fun g hg => ?_
  rcases List.mem_append.1 hg with hg | hg
  · cases filling with
    | none => exact absurd hg List.not_mem_nil
    | some i => exact hf i rfl g hg
  · rw [List.mem_singleton.1 hg]
    exact hb

theorem hands_inheritPage (hm : m.Sound) (hp : m.view.page ⟨parent, va⟩ = some p) :
    Yields (inheritPage child parent regions va p) n (fun _ u => m.Hands child parent regions u) fun _ _ => True := by
  obtain ⟨-, ha, -⟩ := hm.coherent.placed hp
  have hheld (g : Handle) (hg : g ∈ p.handles) (k : Machine) : m.Knows k g := knows_of_page hp hg
  unfold inheritPage
  split
  · rename_i filling b hst
    refine (hands_childBacking h).bind (fun b' k hk => hands_registerFile hk.1 hk.2 ?_) fun _ _ => id
    rintro i rfl g hg
    exact hheld g (by rw [Page.handles, hst]; exact List.mem_append_left _ hg) k
  · rename_i filling purpose _ hst
    exact hands_register h fun g hg => hheld g (by rwa [Page.handles, hst]) n
  · refine (hands_snapshot h ha).bind (fun c k hk => ?_) fun _ _ => id
    refine (hands_register hk fun g hg => ?_).bind (fun _ z hz => hands_makeResident hz) fun _ _ => id
    split at hg <;> exact absurd hg List.not_mem_nil
  · split
    · obtain ⟨sp, hsp⟩ := space?_of_book h.parent
      rw [yields_bind, yields_space hsp]
      refine (hands_snapshot h ha).bind (fun c k hk => ?_) fun _ _ => id
      refine (hands_childBacking hk).bind (fun b' z hz => ?_) fun _ _ => id
      have hfill : ∀ i ∈ some (Filling.snapshot c), ∀ g ∈ i.handles, m.Knows z g := by
        rintro i ⟨⟩ g hg
        exact absurd hg List.not_mem_nil
      refine (hands_registerFile hz.1 hz.2 hfill).bind (fun _ y hy => ?_) fun _ _ => id
      refine (hands_makeResident hy).bind (fun _ x hx => ?_) fun _ _ => id
      split
      · obtain ⟨hmarked, -⟩ := (Leads.refl hx.sound.consistent).marked (P := Act.Quiet) rfl hx.child va
        have hbook := hmarked.path.quiet_book
        exact yields_modifyTable.2 (hx.leads hmarked (Nat.le_refl _) hbook (by simp [Act.Quiet]))
      · exact yields_pure.2 hx
    · refine (hands_childBacking h).bind (fun b' k hk => hands_registerFile hk.1 hk.2 ?_) fun _ _ => id
      rintro i ⟨⟩ g hg
      rw [List.mem_singleton.1 hg]
      exact hk.2

end

theorem hands_inheritPages (h : m.Hands child parent regions n) (hm : m.Sound) {l : List (Addr × Page)}
    (hl : ∀ x ∈ l, m.view.page ⟨parent, x.1⟩ = some x.2) :
    Yields (inheritPages child parent regions l) n (fun _ u => m.Hands child parent regions u) fun _ _ => True := by
  induction l generalizing n with
  | nil => exact yields_pure.2 h
  | cons x rest ih =>
      exact (hands_inheritPage h hm (hl x List.mem_cons_self)).bind
        (fun _ _ hu => ih hu fun y hy => hl y (List.mem_cons_of_mem _ hy)) fun _ _ => id

theorem region_of_insertMany {C : Std.ExtTreeMap Addr Region} {l : List (Addr × Region)} {start : Addr} {r : Region}
    (hr : (C.insertMany l)[start]? = some r) : (start, r) ∈ l ∨ C[start]? = some r := by
  induction l generalizing C with
  | nil => exact .inr (by simpa using hr)
  | cons x rest ih =>
      rw [Std.ExtTreeMap.insertMany_cons] at hr
      rcases ih hr with hmem | hr
      · exact .inl (List.mem_cons_of_mem _ hmem)
      · rw [Std.ExtTreeMap.getElem?_insert] at hr
        split at hr
        · rename_i heq
          cases hr
          rw [← Std.LawfulEqCmp.eq_of_compare heq]
          exact .inl List.mem_cons_self
        · exact .inr hr

theorem yields_inherit_knows (hm : m.Sound) (hc : (m.view.book child).isSome) (hp : (m.view.book parent).isSome) :
    Yields (inherit child parent) m (fun _ n => ∀ s g, n.view.Holds s g → m.Knows n g) fun _ _ => True := by
  obtain ⟨sp, hsp⟩ := space?_of_book hp
  unfold inherit
  rw [yields_bind, yields_space hsp]
  refine (hands_duplicateRegions (.refl hm hc hp) sp.regions.toList).bind ?_ fun _ _ => False.elim
  rintro opened n hn
  rw [List.append_nil] at hn
  have hpages (x : Addr × Page) (hx : x ∈ sp.pages.toList) : m.view.page ⟨parent, x.1⟩ = some x.2 :=
    (mem_pages hsp).1 hx
  refine (hands_inheritPages hn hm hpages).bind ?_ fun _ _ => id
  rintro _ u hu
  obtain ⟨su, hsu⟩ := space?_of_book hu.parent
  obtain ⟨sc, hsc⟩ := space?_of_book hu.child
  obtain ⟨-, hview⟩ := booked hu.sound.consistent hsc (g := fun sp => { sp with
    regions := sp.regions.insertMany opened
    stackBottom := su.stackBottom
    savedStack := su.savedStack }) (fun _ => rfl) fun _ => rfl
  rw [yields_bind, yields_space hsu]
  refine yields_bind.2 (yields_modifySpace.2 (yields_emit.2 ?_))
  rintro s g (⟨start, r, hr, rfl⟩ | hg)
  · rw [view_tell, hview] at hr
    simp only [View.regions, Function.update_apply] at hr
    split at hr
    · rcases region_of_insertMany hr with hmem | hr
      · exact hu.regions _ hmem
      · exact hu.known child _ (.inl ⟨start, r, by rw [View.regions_eq (book_eq hsc)]; exact hr, rfl⟩)
    · exact hu.known s _ (.inl ⟨start, r, hr, rfl⟩)
  · rw [view_tell, hview] at hg
    exact hu.known s g (.inr hg)

/-- A fork that succeeds opens handles that nobody held, or shares some that its parent holds. -/
theorem yields_fork_knows (hm : m.Sound) (hc : (m.view.book child).isSome) (hp : (m.view.book parent).isSome) :
    Yields (fork child parent) m (fun _ n => ∀ s g, n.view.Holds s g → m.Knows n g) fun _ _ => True := by
  refine yields_bind.2 (yields_attempt.2 ((yields_inherit_knows hm hc hp).mono (fun _ n hn => yields_pure.2 hn) ?_))
  rintro (e | _ | _) u -
  · exact yields_bind.2 ((yields_run_eq.2 rfl).mono (fun _ _ _ => yields_fail.2 trivial) fun _ _ _ => trivial)
  · trivial
  · trivial

end Vm

end DemandPaging
