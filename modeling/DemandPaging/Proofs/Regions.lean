import DemandPaging.Proofs.Runs

namespace DemandPaging

open Function (update)
open Step Machine

variable {hw : Hardware} {l : List Turn} {m n : Machine} {c : Call} {t : Turn} {a : Act} {v w : View}
  {s child parent : SpaceId} {start addr : Addr} {g : Region} {k : Nat} {P : Act → Prop}

/-- How many pages the mapping has that is in force at `start` in a space, going by what was called:
the latest that was made there or came there by a fork, if nothing has undone it since. -/
def inForce? : List Turn → SpaceId → Addr → Option Nat
  | [], _, _ => none
  | t :: l, s, start =>
      match t.call with
      | .map s' addr len _ _ _ =>
          if s' = s ∧ addr = start ∧ t.succeeds then some (pagesFor len) else inForce? l s start
      | .unmap s' addr => if s' = s ∧ pageBase addr = start then none else inForce? l s start
      | .destroy s' | .dropSpace s' => if s' = s then none else inForce? l s start
      | .fork child parent =>
          if child = s then
            if t.succeeds then (inForce? l parent start).or (inForce? l s start) else none
          else inForce? l s start
      | _ => inForce? l s start

structure Placed (start : Addr) (pages : Nat) : Prop where
  aligned : isPageAligned start = true
  pos : 0 < pages
  below : start + pages * pageSize ≤ kernelBase

theorem placed_of_isMappable {addr len offset : Nat} (h : Vm.isMappable addr len offset = true) :
    Placed addr (pagesFor len) := by
  have hpos := pagesFor_pos h
  refine ⟨aligned_of_isMappable h, hpos, ?_⟩
  simp only [Vm.isMappable, Bool.and_eq_true, decide_eq_true_eq, Bool.not_eq_true'] at h
  have hlast := h.1.2
  rw [isKernel_eq_false_iff] at hlast
  have hspan : 0 < pagesFor len * pageSize := Nat.mul_pos hpos (by decide)
  change addr + pagesFor len * pageSize ≤ 0x80000000
  omega

theorem Placed.lt (h : Placed start k) : start + k * pageSize < wordLimit :=
  Nat.lt_of_le_of_lt h.below (by decide)

theorem keys_reopened {l l' : List (Addr × Region)} (h : List.Forall₂ (Reopens k) l l') :
    l'.map Prod.fst = l.map Prod.fst := by
  induction h with
  | nil => rfl
  | cons hxy _ ih => rw [List.map_cons, List.map_cons, ih, hxy.1]

theorem mem_reopened {l l' : List (Addr × Region)} (h : List.Forall₂ (Reopens k) l l')
    (hg : (start, g) ∈ l) : ∃ g', (start, g') ∈ l' ∧ g'.pages = g.pages := by
  induction h with
  | nil => cases hg
  | @cons x y _ _ hxy _ ih =>
      rcases List.mem_cons.1 hg with rfl | hg
      · obtain ⟨start', g'⟩ := y
        obtain ⟨rfl, hpages, -⟩ := hxy
        exact ⟨g', List.mem_cons_self .., hpages⟩
      · obtain ⟨g', hg', hpages⟩ := ih hg
        exact ⟨g', List.mem_cons_of_mem _ hg', hpages⟩

theorem pages_insertMany {R C : Std.ExtTreeMap Addr Region} {opened : List (Addr × Region)}
    (h : List.Forall₂ (Reopens k) R.toList opened) (start : Addr) :
    ((C.insertMany opened)[start]?).map Region.pages =
      ((R[start]?).map Region.pages).or ((C[start]?).map Region.pages) := by
  have hkeys := keys_reopened h
  cases hg : R[start]? with
  | some g =>
      obtain ⟨g', hg', hpages⟩ := mem_reopened h (Std.ExtTreeMap.mem_toList_iff_getElem?_eq_some.2 hg)
      have hnodup : opened.Pairwise fun x y => ¬ compare x.1 y.1 = .eq := by
        have hdistinct := Std.ExtTreeMap.distinct_keys_toList (t := R)
        rw [← List.pairwise_map (f := Prod.fst) (R := fun x y => ¬ compare x y = .eq)] at hdistinct ⊢
        rwa [hkeys]
      rw [Std.ExtTreeMap.getElem?_insertMany_list_of_mem Std.ReflCmp.compare_self hnodup hg']
      simp [hpages]
  | none =>
      rw [Std.ExtTreeMap.getElem?_insertMany_list_of_contains_eq_false]
      · simp
      · rw [hkeys, Std.ExtTreeMap.map_fst_toList_eq_keys, ← Bool.not_eq_true, List.contains_iff_mem,
          Std.ExtTreeMap.mem_keys, Std.ExtTreeMap.mem_iff_isSome_getElem?, hg]
        simp

theorem inForce?_turn (c : Call) (m : Machine) (l : List Turn) (s : SpaceId) (start : Addr) :
    inForce? (c.turn m :: l) s start =
      match c with
      | .map s' addr len _ _ _ =>
          if s' = s ∧ addr = start ∧ (c.turn m).succeeds then some (pagesFor len) else inForce? l s start
      | .unmap s' addr => if s' = s ∧ pageBase addr = start then none else inForce? l s start
      | .destroy s' | .dropSpace s' => if s' = s then none else inForce? l s start
      | .fork child parent =>
          if child = s then
            if (c.turn m).succeeds then (inForce? l parent start).or (inForce? l s start) else none
          else inForce? l s start
      | _ => inForce? l s start := by
  rw [inForce?, call_turn]

theorem View.Step.regions_kept (h : v.Step a w) (hv : v.Coherent)
    (hb : ∀ b, a = .booked s b → b.regions = v.regions s) (hd : a ≠ .dropped s) :
    w.regions s = v.regions s := by
  by_cases hc : a = .created s
  · subst hc
    cases h
    have hnone : v.book ⟨v.nextSpace⟩ = none := by
      cases hbook : v.book ⟨v.nextSpace⟩ with
      | none => rfl
      | some b => exact absurd (hv.fresh (by rw [hbook]; rfl)) (Nat.lt_irrefl _)
    simp [View.regions, hnone, Space.empty, Space.book]
  · exact h.regions_eq hb hc hd

section

variable (h : m.Sound)
include h

theorem regions_kept (hc : ∀ s ∈ c.spaces, (m.space? s).isSome)
    (hb : ∀ b, c.Books m.view s b → b.regions = m.view.regions s) (hd : c ≠ .dropSpace s) :
    (c.turn m).after.view.regions s = m.view.regions s := by
  refine ((path_turn h hc).keeps (I := fun w => w.Coherent ∧ w.regions s = m.view.regions s)
    ⟨h.coherent, rfl⟩ fun {v w a} ha hs hw => ?_).2
  refine ⟨hw.1.step hs, (hs.regions_kept hw.1 (fun b heq => ?_) fun heq => hd ?_).trans hw.2⟩
  · subst heq
    rw [hw.2]
    apply hb
    have hbooks : (c.turn m).call.Books (c.turn m).before.view s b := ha
    rwa [call_turn, before_turn] at hbooks
  · subst heq
    have hdrop : (c.turn m).call = .dropSpace s := ha
    rwa [call_turn] at hdrop

variable (hs : (m.view.book s).isSome)
include hs

theorem regions_map (addr len : Nat) (wr : Bool) (hd : Handle) (offset : Nat) :
    ((Call.map s addr len wr hd offset).turn m).succeeds = false ∧
        ((Call.map s addr len wr hd offset).turn m).after.view.regions s = m.view.regions s ∨
      ((Call.map s addr len wr hd offset).turn m).succeeds = true ∧
        Vm.isMappable addr len offset = true ∧
        ((Call.map s addr len wr hd offset).turn m).after.view.regions s =
          (m.view.regions s).insert addr ⟨⟨hd.file, m.nextHandle⟩, pagesFor len⟩ := by
  refine Call.turn_cases (fun t => t.succeeds = false ∧ t.after.view.regions s = m.view.regions s ∨
    t.succeeds = true ∧ Vm.isMappable addr len offset = true ∧ t.after.view.regions s =
      (m.view.regions s).insert addr ⟨⟨hd.file, m.nextHandle⟩, pagesFor len⟩)
    ((Vm.yields_addMapping h hs addr len wr hd offset).bind ?_ ?_)
  · rintro _ n ⟨-, hok, -, -, hn, -⟩
    exact yields_pure.2 (.inr ⟨rfl, hok, hn⟩)
  · intro e n hn
    obtain ⟨err, rfl, hn, -⟩ := hn.error
    exact .inl ⟨rfl, View.Path.makes_regions hn.path⟩

/-- Undoing a mapping takes away all that is registered in its region, and nothing else is moved. -/
theorem unmap_turn (addr : Addr)
    (hg : ∀ g, (m.view.regions s)[pageBase addr]? = some g → Placed (pageBase addr) g.pages) :
    ((Call.unmap s addr).turn m).succeeds = true ∧
      m.view.Loses (m.view.InRegion s (pageBase addr)) ((Call.unmap s addr).turn m).after.view ∧
      ((Call.unmap s addr).turn m).after.view.regions s = (m.view.regions s).erase (pageBase addr) ∧
      ((m.view.regions s)[pageBase addr]? = none → ((Call.unmap s addr).turn m).after = m) := by
  refine Call.turn_cases (fun t => t.succeeds = true ∧
    m.view.Loses (m.view.InRegion s (pageBase addr)) t.after.view ∧
    t.after.view.regions s = (m.view.regions s).erase (pageBase addr) ∧
    ((m.view.regions s)[pageBase addr]? = none → t.after = m))
    ((Vm.yields_removeMapping h hs addr).bind ?_ ?_)
  · rintro _ n ⟨-, hlost, hbook, hnone⟩
    refine yields_pure.2 ⟨rfl, hlost, ?_, hnone⟩
    obtain ⟨b, hb⟩ := Option.isSome_iff_exists.1 hs
    dsimp only
    rw [View.regions, hbook, Function.update_self, View.regions_eq hb, hb]
    rfl
  · rintro e n ⟨-, -, g, hreg, hlimit⟩
    have hlt := (hg g hreg).lt
    have hle : pageBase addr + (g.pages - 1) * pageSize ≤ pageBase addr + g.pages * pageSize :=
      Nat.add_le_add_left (Nat.mul_le_mul_right _ (Nat.sub_le ..)) _
    exact absurd hlimit (Nat.not_le.2 (Nat.lt_of_le_of_lt hle hlt))

theorem regions_destroy : ((Call.destroy s).turn m).after.view.regions s = ∅ := by
  refine Call.turn_cases (fun t => t.after.view.regions s = ∅)
    ((Vm.yields_destroy h hs).bind ?_ fun _ _ => False.elim)
  rintro _ n ⟨-, -, hbook, -⟩
  obtain ⟨b, hb⟩ := Option.isSome_iff_exists.1 hs
  refine yields_pure.2 ?_
  dsimp only
  rw [View.regions, hbook, Function.update_self, hb]
  rfl

end

/-- A fork makes the child a copy of the parent, or leaves it empty and says why. -/
theorem fork_turn (h : m.Sound) (hc : (m.view.book child).isSome) (hp : (m.view.book parent).isSome)
    (hb : Bounded (m.view.regions parent).toList) :
    ((Call.fork child parent).turn m).succeeds = true ∧
        m.Leads (Act.Forks m.view child parent) ((Call.fork child parent).turn m).after ∧
        m.view.Forked child parent m.nextHandle ((Call.fork child parent).turn m).after.view ∨
      (∃ e, ((Call.fork child parent).turn m).answer = .error (.error e)) ∧
        m.Leads (Act.Unforks m.view child parent) ((Call.fork child parent).turn m).after ∧
        (∀ va, ((Call.fork child parent).turn m).after.view.page ⟨child, va⟩ = none) ∧
        ((Call.fork child parent).turn m).after.view.book = update m.view.book child
          ((m.view.book child).map fun b => { b with regions := ∅, stackBottom := stackTop }) := by
  refine Call.turn_cases (fun t => t.succeeds = true ∧ m.Leads (Act.Forks m.view child parent) t.after ∧
      m.view.Forked child parent m.nextHandle t.after.view ∨
    (∃ e, t.answer = .error (.error e)) ∧ m.Leads (Act.Unforks m.view child parent) t.after ∧
      (∀ va, t.after.view.page ⟨child, va⟩ = none) ∧ t.after.view.book = update m.view.book child
        ((m.view.book child).map fun b => { b with regions := ∅, stackBottom := stackTop }))
    ((Vm.yields_fork h hc hp).bind ?_ ?_)
  · rintro _ n ⟨hn, hforked⟩
    exact yields_pure.2 (.inl ⟨rfl, hn, hforked⟩)
  · rintro e n ⟨-, ⟨⟨e, rfl⟩, hn⟩ | ⟨hnb, -⟩⟩
    · exact .inr ⟨⟨e, rfl⟩, hn⟩
    · exact absurd hb hnb

structure Charted (l : List Turn) (v : View) : Prop where
  pages : ∀ s start, ((v.regions s)[start]?).map Region.pages = inForce? l s start
  placed : ∀ s start k, inForce? l s start = some k → Placed start k

namespace Charted

theorem region (h : Charted l v) (hg : (v.regions s)[start]? = some g) : Placed start g.pages := by
  refine h.placed s start g.pages ?_
  rw [← h.pages, hg]
  rfl

theorem bounded (h : Charted l v) (s : SpaceId) : Bounded (v.regions s).toList := by
  rintro ⟨start, g⟩ hg
  exact (h.region (Std.ExtTreeMap.mem_toList_iff_getElem?_eq_some.1 hg)).lt

theorem pages_turn (h : Charted l m.view) (hm : m.Sound) (hc : ∀ s ∈ c.spaces, (m.space? s).isSome)
    (s : SpaceId) (start : Addr) :
    (((c.turn m).after.view.regions s)[start]?).map Region.pages = inForce? (c.turn m :: l) s start := by
  have hlive {s : SpaceId} (hs : s ∈ c.spaces) : (m.view.book s).isSome := Call.live hc hs
  have hkept (hb : ∀ b, c.Books m.view s b → b.regions = m.view.regions s) (hd : c ≠ .dropSpace s) :
      (((c.turn m).after.view.regions s)[start]?).map Region.pages = inForce? l s start := by
    rw [regions_kept hm hc hb hd, h.pages]
  rw [inForce?_turn]
  -- a call changes the regions of the one space that it books or drops, and of no other
  cases c with
  | map s' addr len wr hd offset =>
      dsimp only
      by_cases hs : s' = s
      · subst hs
        rcases regions_map hm (hlive (List.mem_singleton_self s')) addr len wr hd offset with
          ⟨hfail, hr⟩ | ⟨hok, -, hr⟩
        · rw [hr, h.pages, if_neg]
          simp [hfail]
        · rw [hr, Std.ExtTreeMap.getElem?_insert, hok]
          by_cases ha : addr = start
          · simp [ha]
          · rw [if_neg (by simpa using ha), if_neg (by simp [ha]), h.pages]
      · rw [if_neg (fun heq => hs heq.1)]
        exact hkept (fun b hb => absurd hb.1.symm hs) (by simp)
  | unmap s' addr =>
      dsimp only
      by_cases hs : s' = s
      · subst hs
        obtain ⟨-, -, hr, -⟩ := unmap_turn hm (hlive (List.mem_singleton_self s')) addr
          fun g hg => h.region hg
        rw [hr, Std.ExtTreeMap.getElem?_erase]
        by_cases ha : pageBase addr = start
        · simp [ha]
        · rw [if_neg (by simpa using ha), if_neg (by simp [ha]), h.pages]
      · rw [if_neg (fun heq => hs heq.1)]
        exact hkept (fun b hb => absurd hb.1.symm hs) (by simp)
  | destroy s' =>
      dsimp only
      by_cases hs : s' = s
      · subst hs
        rw [if_pos rfl, regions_destroy hm (hlive (List.mem_singleton_self s'))]
        simp
      · rw [if_neg hs]
        exact hkept (fun b hb => absurd hb.symm hs) (by simp)
  | dropSpace s' =>
      dsimp only
      by_cases hs : s' = s
      · subst hs
        rw [if_pos rfl, View.regions, (fair_dropSpace hm s').2]
        simp
      · rw [if_neg hs]
        exact hkept (fun b => False.elim) (by rintro ⟨⟩; exact hs rfl)
  | fork child parent =>
      dsimp only
      by_cases hs : child = s
      · subst hs
        rw [if_pos rfl]
        rcases fork_turn hm (hlive (s := child) (by simp [Call.spaces]))
          (hlive (s := parent) (by simp [Call.spaces])) (h.bounded parent) with
          ⟨hok, -, hforked⟩ | ⟨⟨e, he⟩, -, -, hbook⟩
        · obtain ⟨b, opened, hb, hopened, hbook⟩ := hforked.book
          rw [if_pos hok, View.regions, hbook, Function.update_self, Option.map_some, Option.getD_some,
            pages_insertMany hopened, h.pages, ← h.pages parent, View.regions_eq hb]
        · have hfail : ((Call.fork child parent).turn m).succeeds = false := by
            rw [Turn.succeeds, he]
          rw [hfail, View.regions, hbook, Function.update_self]
          cases m.view.book child <;> simp
      · rw [if_neg hs]
        exact hkept (fun b hb => absurd hb.symm hs) (by simp)
  | newSpace | register | claim | remove | newFile | limitFile | overwrite | setFaults =>
      exact hkept (fun b => False.elim) (by simp)
  | read | write | fault | handle | segment | startStack | saveStack =>
      refine hkept (fun b hb => ?_) (by simp)
      obtain ⟨rfl, hb⟩ := hb
      exact hb

theorem placed_turn (h : Charted l m.view) (hm : m.Sound) (hc : ∀ s ∈ c.spaces, (m.space? s).isSome)
    (hk : inForce? (c.turn m :: l) s start = some k) : Placed start k := by
  rw [inForce?_turn] at hk
  cases c with
  | map s' addr len wr hd offset =>
      dsimp only at hk
      split at hk
      · rename_i hmap
        obtain ⟨rfl, rfl, hok⟩ := hmap
        have hs : (m.view.book s').isSome := Call.live hc (List.mem_singleton_self s')
        rcases regions_map hm hs addr len wr hd offset with ⟨hfail, -⟩ | ⟨-, hmap, -⟩
        · rw [hfail] at hok
          cases hok
        · obtain rfl := Option.some.inj hk
          exact placed_of_isMappable hmap
      · exact h.placed _ _ _ hk
  | unmap | destroy | dropSpace =>
      dsimp only at hk
      split at hk
      · cases hk
      · exact h.placed _ _ _ hk
  | fork child parent =>
      dsimp only at hk
      split at hk
      · split at hk
        · rcases Option.or_eq_some_iff.1 hk with hk | ⟨-, hk⟩ <;> exact h.placed _ _ _ hk
        · cases hk
      · exact h.placed _ _ _ hk
  | _ => exact h.placed _ _ _ hk

end Charted

/-- Whatever was called, the regions are those of the mappings in force. -/
theorem Runs.charted (h : Runs hw l m) : Charted l m.view := by
  induction h with
  | boot =>
      constructor
      · intro s start
        have hnone : hw.boot.view.book s = none := by
          simp [Hardware.boot, view, space?, Machine.boot]
        rw [View.regions, hnone]
        simp [inForce?]
      · intro s start k hk
        cases hk
  | turn h c hc ih => exact ⟨ih.pages_turn h.sound hc, fun s start k hk => ih.placed_turn h.sound hc hk⟩

end DemandPaging
