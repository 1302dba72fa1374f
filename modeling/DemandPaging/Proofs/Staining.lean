import DemandPaging.Proofs.Soiling

namespace DemandPaging

open Function (update)
open Step Machine Vm

variable {m n u z : Machine} {s child parent : SpaceId} {sp : Space} {va : Addr} {p q : Page} {r : PageRef}
  {L S : PageRef → Prop} {w : Bool} {purpose : Purpose} {filling : Option Filling} {regions : List (Addr × Region)}
  {todo done : List (Addr × Page)}

theorem Machine.Sound.isDirty_eq (h : m.Sound) (hs : m.space? s = some sp) (hp : m.view.page ⟨s, va⟩ = some p)
    (hk : p.kind = .file) : sp.table.isDirty va = m.view.dirty ⟨s, va⟩ := by
  rw [PageTable.isDirty_eq, ← entry_eq hs (h.coherent.placed hp).2.1]
  cases hf : p.frame with
  | some f => rw [View.dirty_of_file hp hk hf]
  | none => rw [h.coherent.entry_of_out hp hf, View.dirty_of_soil (View.soil_of_out hp hf), Option.any_none]

def Marked (child parent : SpaceId) (regions : List (Addr × Region)) (n : Machine) (todo : List (Addr × Page))
    (r : PageRef) : Prop :=
  r.space = child ∧ ∃ done p rest u, todo = done ++ (r.va, p) :: rest ∧
    (inheritPages child parent regions done).run n = .ok () u ∧ u.view.dirty ⟨parent, r.va⟩ = true

def Stained (m : Machine) (child parent : SpaceId) (r : PageRef) : Prop :=
  ∃ sp regions u, m.space? parent = some sp ∧ (duplicateRegions sp.regions.toList).run m = .ok regions u ∧
    Marked child parent regions u sp.pages.toList r

namespace Marked

variable {x : Addr × Page} {rest : List (Addr × Page)}

theorem head (h : n.view.dirty ⟨parent, x.1⟩ = true) : Marked child parent regions n (x :: rest) ⟨child, x.1⟩ :=
  ⟨rfl, [], x.2, rest, n, rfl, rfl, h⟩

variable (hx : (inheritPage child parent regions x.1 x.2).run n = .ok () u)
include hx

theorem run_cons (l : List (Addr × Page)) :
    (inheritPages child parent regions (x :: l)).run n = (inheritPages child parent regions l).run u := by
  rw [inheritPages, EStateM.run_bind, hx]

theorem tail (h : Marked child parent regions u rest r) : Marked child parent regions n (x :: rest) r := by
  obtain ⟨hspace, done, p, rest, z, rfl, hrun, hdirty⟩ := h
  exact ⟨hspace, x :: done, p, rest, z, rfl, by rw [run_cons hx, hrun], hdirty⟩

theorem cons_cases (h : Marked child parent regions n (x :: rest) r) :
    r = ⟨child, x.1⟩ ∧ n.view.dirty ⟨parent, x.1⟩ = true ∨ Marked child parent regions u rest r := by
  obtain ⟨s, va⟩ := r
  obtain ⟨rfl, _ | ⟨y, done⟩, p, l, z, hlist, hrun, hdirty⟩ := h
  · cases hlist
    cases hrun
    exact .inl ⟨rfl, hdirty⟩
  · cases hlist
    rw [run_cons hx] at hrun
    exact .inr ⟨rfl, done, p, l, z, rfl, hrun, hdirty⟩

end Marked

namespace Vm

theorem treads_register (hu : u.Sound) (s : SpaceId) (va : Addr) (w : Bool) (purpose : Purpose)
    (filling : Option Filling) :
    Yields (register s va w purpose filling) u
      (fun _ z => u.Treads (Deed.Within L S) z ∧ (z.view.book s).isSome ∧
        z.view.page ⟨s, pageBase va⟩ = some (.lazy w purpose filling))
      fun _ z => u.Treads (Deed.Within L S) z := by
  cases hs : u.space? s with
  | none => exact (yields_register_dead hu hs va w purpose filling).mono (fun _ _ => False.elim) fun _ _ => id
  | some sp =>
      refine ((treading_register s va w purpose filling u hu).and
        (yields_register hu (by rw [book_eq hs]; rfl) va w purpose filling)).mono ?_ fun _ _ h => h.1
      rintro _ z ⟨hz, -, -, -, hv⟩
      refine ⟨hz, ?_, ?_⟩ <;> rw [hv]
      · rw [book_eq hs]
        rfl
      · exact Function.update_self ..

/-- A page that is registered and made resident is like the one that was registered. -/
theorem treads_instate (hu : u.Sound) (s : SpaceId) (va : Addr) (w : Bool) (purpose : Purpose)
    (filling : Option Filling) (hL : L ⟨s, pageBase va⟩) :
    Yields (register s va w purpose filling) u
      (fun _ y => Yields (makeResident s va) y
        (fun _ z => u.Treads (Deed.Within L S) z ∧ (z.view.book s).isSome ∧
          ∃ p, z.view.page ⟨s, pageBase va⟩ = some p ∧ p.writable = w ∧
            p.finalKind = (Page.lazy w purpose filling).finalKind)
        fun _ z => u.Treads (Deed.Within L S) z)
      fun _ z => u.Treads (Deed.Within L S) z := by
  refine (treads_register hu s va w purpose filling).mono ?_ fun _ _ => id
  rintro _ y ⟨hy, hlive, hpage⟩
  refine ((treading_makeResident hL y hy.sound).and (yields_makeResident hy.sound hlive va)).mono ?_
    fun _ _ hz => hy.trans hz.1
  rintro _ z ⟨hz, hload, -⟩
  obtain ⟨p, hp, hlike⟩ := hload.path.like hpage (by simp [Act.Loads, Act.Quiet]) (by simp [Act.Loads, Act.Quiet])
  exact ⟨hy.trans hz, by rwa [hload.path.loads_book], p, hp, hlike.writable, hlike.finalKind⟩

theorem treading_childBacking (regions : List (Addr × Region)) (va : Addr) (b : Backing) :
    Treading (Deed.Within L S) (childBacking regions va b) :=
  (treading_modular _).childBacking treading_duplicate regions va b

abbrev Bestows (n : Machine) (parent : SpaceId) (r : PageRef) : Deed → Prop :=
  Deed.Within (· = r) fun o => o = r ∧ n.view.dirty ⟨parent, r.va⟩ = true

section

variable (ha : isPageAligned va = true) (hu : n.Treads (Bestows n parent ⟨child, va⟩) u)
include ha hu

theorem treads_inheritLazy (w : Bool) (purpose : Purpose) (filling : Option Filling) :
    Yields (register child va w purpose filling) u
      (fun _ z => n.Treads (Bestows n parent ⟨child, va⟩) z ∧ z.view.clean ⟨child, va⟩ = false)
      fun _ z => n.Treads (Bestows n parent ⟨child, va⟩) z := by
  refine (treads_register hu.sound child va w purpose filling).mono ?_ fun _ _ hz => hu.trans hz
  rintro _ z ⟨hz, -, hpage⟩
  rw [pageBase_of_aligned ha] at hpage
  exact ⟨hu.trans hz, View.clean_of_soil (View.soil_of_out hpage rfl)⟩

/-- A file page that is copied is as dirty as its parent. -/
theorem treads_inheritResident (w : Bool) (purpose : Purpose) (filling : Option Filling) {dirty : Bool}
    (hd : dirty = n.view.dirty ⟨parent, va⟩) (hw : dirty = true → w = true) :
    Yields (do
      register child va w purpose filling
      makeResident child va
      if dirty then modifyTable child (·.setDirty va true)) u
      (fun _ z => n.Treads (Bestows n parent ⟨child, va⟩) z ∧
        (n.view.dirty ⟨parent, va⟩ = true → z.view.clean ⟨child, va⟩ = false))
      fun _ z => n.Treads (Bestows n parent ⟨child, va⟩) z := by
  refine yields_bind.2 ((treads_instate hu.sound child va w _ _ (by rw [pageBase_of_aligned ha])).mono
    (fun _ y hy => ?_) fun _ _ hz => hu.trans hz)
  refine hy.bind ?_ fun _ _ hz => hu.trans hz
  rintro _ z ⟨hz, hlive, p, hp, hpw, -⟩
  rw [pageBase_of_aligned ha] at hp
  cases dirty with
  | false => exact yields_pure.2 ⟨hu.trans hz, fun h => by rw [← hd] at h; cases h⟩
  | true =>
      obtain ⟨sp, hsp⟩ := space?_of_book hlive
      have hv := view_setDirty hz.sound.consistent hsp va true
      rw [pageBase_of_aligned ha] at hv
      have hmarked := ((Leads.refl hz.sound.consistent).marked (P := Act.Quiet) rfl hlive va).1
      rw [if_pos rfl, yields_modifyTable]
      refine ⟨(hu.trans hz).trans ⟨hmarked.sound hz.sound, ?_⟩, fun _ => ?_⟩
      · rw [hv]
        cases hx : z.view.entry ⟨child, va⟩ with
        | none =>
            rw [Option.map_none, Function.update_eq_self_iff.2 hx.symm]
            exact .refl
        | some y =>
            have hbestows : Bestows n parent ⟨child, va⟩ (.soiled ⟨child, va⟩) := ⟨rfl, hd.symm⟩
            refine (View.does_soil y (fun q hq => ?_) y.accessed).deeds (P := Bestows n parent ⟨child, va⟩) hbestows
            cases hp.symm.trans hq
            rw [hpw, hw rfl]
      · cases hs : View.soil _ _ with
        | none => exact View.clean_of_soil hs
        | some x =>
            obtain ⟨q, f, b, hq, hf, -, -⟩ := View.page_of_soil hs
            refine View.clean_of_entry ?_
            rw [hv] at hq ⊢
            obtain ⟨a, d, hx⟩ := hz.sound.coherent.entry_of_resident (r := ⟨child, va⟩) hq hf
            simp [hx]

theorem treads_inheritAnon (w stack : Bool) (filling : Option Filling) :
    Yields (do
      register child va w (if stack then .stack else .anon) filling
      makeResident child va) u
      (fun _ z => n.Treads (Bestows n parent ⟨child, va⟩) z ∧ z.view.clean ⟨child, va⟩ = false)
      fun _ z => n.Treads (Bestows n parent ⟨child, va⟩) z := by
  refine yields_bind.2 ((treads_instate hu.sound child va w _ _ (by rw [pageBase_of_aligned ha])).mono
    (fun _ y hy => ?_) fun _ _ hz => hu.trans hz)
  refine hy.mono ?_ fun _ _ hz => hu.trans hz
  rintro _ z ⟨hz, -, p, hp, -, hkind⟩
  rw [pageBase_of_aligned ha] at hp
  refine ⟨hu.trans hz, View.clean_of_soil (View.soil_of_kind hp fun hfile => ?_)⟩
  rw [Page.finalKind_eq_kind (by simp [hfile]), hfile] at hkind
  cases stack <;> cases hkind

end

/-- The child's page is dirty in the end only if its parent's was dirty at the beginning, and if it was, it is not
clean in the end. -/
theorem treads_inheritPage (hn : n.Sound) (regions : List (Addr × Region)) (hprudent : n.view.Prudent)
    (hq : n.view.page ⟨parent, va⟩ = some q) (hlike : p.Like q) :
    Yields (inheritPage child parent regions va p) n
      (fun _ z => n.Treads (Bestows n parent ⟨child, va⟩) z ∧
        (n.view.dirty ⟨parent, va⟩ = true → z.view.clean ⟨child, va⟩ = false))
      fun _ z => n.Treads (Bestows n parent ⟨child, va⟩) z := by
  obtain ⟨hlive, ha, -⟩ := hn.coherent.placed hq
  have hlazy {u : Machine} (hu : n.Treads (Bestows n parent ⟨child, va⟩) u) (purpose : Purpose)
      (filling : Option Filling) : Yields (register child va p.writable purpose filling) u
        (fun _ z => n.Treads (Bestows n parent ⟨child, va⟩) z ∧
          (n.view.dirty ⟨parent, va⟩ = true → z.view.clean ⟨child, va⟩ = false))
        fun _ z => n.Treads (Bestows n parent ⟨child, va⟩) z :=
    (treads_inheritLazy ha hu p.writable purpose filling).mono (fun _ _ hz => ⟨hz.1, fun _ => hz.2⟩) fun _ _ => id
  unfold inheritPage
  split
  · exact (treading_childBacking regions va _ n hn).bind (fun _ _ hu => hlazy hu _ _) fun _ _ => id
  · exact hlazy (.refl hn) _ _
  · refine (treading_snapshot parent ha n hn).bind (fun c u hu => ?_) fun _ _ => id
    exact (treads_inheritAnon ha hu p.writable _ _).mono (fun _ _ hz => ⟨hz.1, fun _ => hz.2⟩) fun _ _ => id
  · rename_i b hst
    have hkind : q.kind = .file := by
      have hp : p.kind = .file := by simp [Page.kind, hst]
      rw [hlike.kind (by simp [hp]), hp]
    split
    · obtain ⟨sp, hsp⟩ := space?_of_book hlive
      rw [yields_bind, yields_space hsp]
      have hd := hn.isDirty_eq hsp hq hkind
      refine (treading_snapshot parent ha n hn).bind (fun c u hu => ?_) fun _ _ => id
      refine ((treading_childBacking regions va b).mono (fun _ => id) u hu.sound).bind (fun b' y hy => ?_)
        fun _ _ hy => hu.trans hy
      refine treads_inheritResident ha (hu.trans hy) p.writable _ _ hd fun hdirty => ?_
      rw [hd] at hdirty
      rw [← hlike.writable]
      exact hprudent.writable hq hdirty
    · exact (treading_childBacking regions va b n hn).bind (fun _ _ hu => hlazy hu _ _) fun _ _ => id

abbrev Bequeaths (n : Machine) (child parent : SpaceId) (regions : List (Addr × Region)) (todo : List (Addr × Page)) :
    Deed → Prop :=
  Deed.Within (fun r => r.space = child ∧ ∃ x ∈ todo, r.va = x.1) (Marked child parent regions n todo)

theorem treads_inheritPages {k : Nat} {l : List (Addr × Region)} (hm : m.Sound) (hc : (m.view.book child).isSome)
    (hp : (m.view.book parent).isSome) (hl : List.Forall₂ (Reopens k) l regions)
    (done todo : List (Addr × Page)) (hpages : ∀ x ∈ todo, m.view.page ⟨parent, x.1⟩ = some x.2)
    (hnodup : (done ++ todo).Pairwise (·.1 ≠ ·.1)) (h : m.Inheriting child parent k l done n)
    (hprudent : n.view.Prudent) :
    Yields (inheritPages child parent regions todo) n
      (fun _ z => n.Treads (Bequeaths n child parent regions todo) z ∧
        ∀ r, Marked child parent regions n todo r → z.view.clean r = false)
      fun _ z => n.Treads (Bequeaths n child parent regions todo) z := by
  have hn : n.Sound := h.makes.sound hm
  induction todo generalizing n done with
  | nil =>
      refine yields_pure.2 ⟨.refl hn, ?_⟩
      rintro r ⟨-, done, _, _, _, hlist, -⟩
      simp at hlist
  | cons x rest ih =>
      have hx := hpages x (List.mem_cons_self ..)
      have hne := (List.pairwise_append.1 hnodup).2
      obtain ⟨q, hq, hlike⟩ := h.makes.path.like hx nofun nofun
      have hfirst {z : Machine} (hz : n.Treads (Bestows n parent ⟨child, x.1⟩) z) :
          n.Treads (Bequeaths n child parent regions (x :: rest)) z := by
        refine hz.mono fun d hd => hd.mono ?_ ?_
        · rintro _ rfl
          exact ⟨rfl, x, List.mem_cons_self .., rfl⟩
        · rintro _ ⟨rfl, hdirty⟩
          exact .head hdirty
      refine (((treads_inheritPage hn regions hprudent hq hlike).and (yields_inheritNext hm hc hp hl done x hx
        (fun y hy => hne.2 y hy x (List.mem_cons_self ..)) h)).and (yields_run_eq.2 rfl)).bind ?_
        fun _ _ hz => hfirst hz.1.1
      rintro _ u ⟨⟨⟨hu, hclean⟩, hinherits⟩, hrun⟩
      rw [← List.singleton_append, ← List.append_assoc] at hnodup
      have hrest {z : Machine} (hz : u.Treads (Bequeaths u child parent regions rest) z) :
          n.Treads (Bequeaths n child parent regions (x :: rest)) z := by
        refine (hfirst hu).trans (hz.mono fun d hd => hd.mono ?_ fun _ => .tail hrun.symm)
        rintro r ⟨hspace, y, hy, hva⟩
        exact ⟨hspace, y, List.mem_cons_of_mem _ hy, hva⟩
      refine (ih (done ++ [x]) (fun y hy => hpages y (List.mem_cons_of_mem _ hy)) hnodup hinherits
        (hu.deeds.prudent hprudent) hu.sound).mono ?_ fun _ _ => hrest
      rintro _ z ⟨hz, hmarked⟩
      refine ⟨hrest hz, fun r hr => ?_⟩
      rcases hr.cons_cases hrun.symm with ⟨rfl, hdirty⟩ | hr
      -- no page that is inherited later is the first one, so that is not loaded again
      · refine hz.deeds.unclean (fun hload => ?_) (hclean hdirty)
        obtain ⟨-, y, hy, heq⟩ := hload rfl
        exact (List.pairwise_cons.1 hne.1).1 y hy heq
      · exact hmarked r hr

theorem treads_inherit (hm : m.Sound) (hc : (m.view.book child).isSome) (hp : (m.view.book parent).isSome)
    (hprudent : m.view.Prudent) :
    Yields (inherit child parent) m
      (fun _ z => m.Treads (Deed.Within (fun _ => True) (Stained m child parent)) z ∧
        ∀ r, Stained m child parent r → z.view.clean r = false)
      fun _ z => m.Treads (Deed.Within (fun _ => True) (Stained m child parent)) z := by
  obtain ⟨sp, hsp⟩ := space?_of_book hp
  unfold inherit
  rw [yields_bind, yields_space hsp]
  refine ((yields_duplicateRegions hm.consistent sp.regions.toList
    (Nat.le_refl _ : Numbered m.nextHandle m)).and (yields_run_eq.2 rfl)).bind ?_ fun _ _ hu => hu.1.elim
  rintro regions n ⟨⟨hl, hn, hv, hk⟩, hrun⟩
  have hpages (x : Addr × Page) (hx : x ∈ sp.pages.toList) : m.view.page ⟨parent, x.1⟩ = some x.2 :=
    (mem_pages hsp).1 hx
  have hstained {r : PageRef} : Stained m child parent r ↔ Marked child parent regions n sp.pages.toList r := by
    constructor
    · rintro ⟨sp', regions', n', hsp', hrun', hr⟩
      cases hsp.symm.trans hsp'
      cases hrun.trans hrun'
      exact hr
    · exact fun hr => ⟨sp, regions, n, hsp, hrun.symm, hr⟩
  have hall {z : Machine} (hz : n.Treads (Bequeaths n child parent regions sp.pages.toList) z) :
      m.Treads (Deed.Within (fun _ => True) (Stained m child parent)) z := by
    refine ⟨hz.sound, ?_⟩
    rw [← hv]
    exact hz.deeds.mono fun d hd => hd.mono (fun _ _ => trivial) fun _ => hstained.2
  refine (treads_inheritPages hm hc hp hl [] sp.pages.toList hpages sp.pairwise_pages
    (.start hm.consistent hn hv hk) (hv ▸ hprudent)).bind ?_ fun _ _ => hall
  rintro _ u ⟨hu, hclean⟩
  have hbook : Treading Deed.Vacates (do
      let after ← space parent
      modifySpace child fun sp => { sp with
        regions := sp.regions.insertMany regions
        stackBottom := after.stackBottom
        savedStack := after.savedStack }
      emit (.forked child parent)) :=
    (treading_modular _).bind (treading_space parent) fun _ =>
      (treading_modular _).bind (treading_book child (fun _ => rfl) fun _ => rfl) fun _ => treading_emit rfl
  refine (hbook u hu.sound).mono (fun _ z hz => ⟨(hall hu).trans ⟨hz.sound, hz.deeds.within⟩, fun r hr => ?_⟩)
    fun _ z hz => (hall hu).trans ⟨hz.sound, hz.deeds.within⟩
  exact hz.deeds.unclean (fun hload => hload rfl) (hclean r (hstained.1 hr))

/-- A fork gives the child dirty pages where the parent's are dirty when it comes to them, and a fork that fails takes
them back. -/
theorem treads_fork (hm : m.Sound) (hc : (m.view.book child).isSome) (hp : (m.view.book parent).isSome)
    (hprudent : m.view.Prudent) :
    Yields (fork child parent) m
      (fun _ z => m.Treads (Deed.Within (fun _ => True) (Stained m child parent)) z ∧
        ∀ r, Stained m child parent r → z.view.clean r = false)
      fun _ z => m.Treads (Deed.Within (fun _ => True) (Stained m child parent)) z := by
  unfold fork
  refine yields_bind.2 (yields_attempt.2 ((treads_inherit hm hc hp hprudent).mono (fun _ _ hz => yields_pure.2 hz) ?_))
  intro e u hu
  cases e with
  | error e =>
      refine ((treading_paged _).destroy child u hu.sound).bind (fun _ _ hz => ?_) fun _ _ hz => hu.trans hz
      exact yields_fail.2 (hu.trans hz)
  | panic | loop => exact hu

end Vm

end DemandPaging
