import DemandPaging.Proofs.Moments
import DemandPaging.Proofs.Plain

namespace DemandPaging

open Function (update)
open Step Machine

variable {m n u : Machine} {s : SpaceId} {va addr : Addr} {r : PageRef} {p q : Page} {w write : Bool}
  {purpose : Purpose} {filling : Option Filling}

theorem Machine.Copes.added (h : m.Copes n) (hd : n.view.Docile (.lazy w purpose filling))
    (hu : n.Leads (Act.Adds r (.lazy w purpose filling)) u) (hswap : n.swap.Same u.swap) (hv : u.view = { n.view with
      page := update n.view.page r (some (.lazy w purpose filling))
      log := n.view.log.push (.pageAdded r.space purpose r.va) }) : m.Copes u := by
  obtain ⟨es, hlog, hes⟩ := h.log
  have hpage : u.registered = insert r n.registered := by
    ext o
    rw [mem_registered, hv, Finset.mem_insert, mem_registered]
    by_cases ho : o = r
    · simp [ho]
    · simp [ho, Function.update_of_ne]
  refine ⟨h.ample.leads hu hswap (by simp [Act.Adds, Act.Quiet]) (by simp [Act.Adds, Act.Quiet]) ?_,
    (room_eq h.ample.sound hu hswap).trans h.room, es ++ [.pageAdded r.space purpose r.va], ?_, ?_⟩
  · rintro o q (ha | ha)
    · cases ha
    · cases ha
      exact hd
  · have hpush : u.log = n.log.push (.pageAdded r.space purpose r.va) := congrArg View.log hv
    rw [hpush, Array.toList_push, hlog, List.append_assoc]
  · rw [List.foldl_append, hes, hpage]
    rfl

def View.Admits (v : View) (r : PageRef) (write : Bool) : Prop :=
  ∃ p, v.page r = some p ∧ (write = true → p.writable = true)

theorem View.Path.admits {v w : View} {P : Act → Prop} (h : View.Path P v w) (hr : v.Admits r write)
    (hrem : ∀ saved, ¬ P (.removed r saved)) (hdrop : ¬ P (.dropped r.space)) : w.Admits r write := by
  obtain ⟨p, hp, hwr⟩ := hr
  obtain ⟨q, hq, hlike⟩ := h.like hp hrem hdrop
  exact ⟨q, hq, fun hw => hlike.writable.trans (hwr hw)⟩

theorem View.Path.makes_admits {v w : View} {new : Addr → Page → Prop}
    (h : View.Path (Act.Makes v s new fun _ => False) v w) (hr : v.Admits r write) : w.Admits r write :=
  h.admits hr (fun _ ha => ha.2.2) id

theorem View.Docile.of_state {v : View} (h : v.Docile p) (hst : q.state = p.state) : v.Docile q := by
  constructor
  · unfold Page.finalKind
    rw [hst]
    exact h.finalKind
  · rw [hst]
    exact h.sure

theorem View.Coherent.end_lt {v : View} (h : v.Coherent) {va len : Nat} (hva : va < wordLimit)
    (hp : ∀ i < len, v.Admits ⟨s, pageBase (va + i)⟩ write) : va + len < wordLimit := by
  cases len with
  | zero => exact hva
  | succ len =>
      obtain ⟨p, hp, -⟩ := hp len (Nat.lt_succ_self len)
      have huser := (h.placed hp).2.2
      rw [isKernel_pageBase] at huser
      have hroom := add_pageSize_lt huser
      rw [pageSize_eq] at hroom
      omega

namespace Vm

section

variable (h : m.Copes n) (hs : (n.view.book s).isSome)
include h hs

theorem copes_register (va : Addr) (hd : n.view.Docile (.lazy w purpose filling)) :
    Yields (register s va w purpose filling) n
      (fun _ u => m.Copes u ∧ u.view.book = n.view.book ∧ u.view.page =
        update n.view.page ⟨s, pageBase va⟩ (some (.lazy w purpose filling)))
      fun e _ => n.view.Occupied ⟨s, pageBase va⟩ ∧ e.isScarce = false := by
  refine (((lasting_whole (lasting_swap n.swap)).register ..).and (.refl _)
    (yields_register h.ample.sound hs va w purpose filling)).mono ?_ ?_
  · rintro _ u ⟨⟨-, -, hu, hv⟩, hswap⟩
    refine ⟨h.added hd hu hswap hv, ?_, ?_⟩ <;> rw [hv]
  · rintro e u ⟨hu, -⟩
    obtain ⟨e, rfl, -, -, -, hwhy⟩ := hu.error
    exact hwhy

theorem copes_makeResident (va : Addr) :
    Yields (makeResident s va) n
      (fun _ u => m.Copes u ∧ u.view.book = n.view.book)
      fun e u => m.Overfull u ∨ n.view.page ⟨s, pageBase va⟩ = none ∧ e.isScarce = false := by
  refine ((steady_makeResident (steady_still (fun _ => True) n) (fun _ => trivial) s va).and (.refl n)
    (yields_makeResident h.ample.sound hs va)).mono ?_ ?_
  · rintro _ u ⟨⟨hu, -⟩, hstill⟩
    exact ⟨h.tame hu (fun _ ha => ha.tame) hstill, hu.path.loads_book⟩
  · rintro e u ⟨hu, -⟩
    obtain ⟨e, rfl, hu, -, -, ⟨hnone, rfl⟩ | ⟨p, hp, hdenied⟩⟩ := hu.error
    · exact .inr ⟨hnone, rfl⟩
    · exact .inl ((h.overfull_of_denied hp hdenied).grows hu.path.grows)

theorem copes_claim (va : Addr) (hp : (n.view.page ⟨s, pageBase va⟩).isSome) :
    Yields (makeResident s va) n (fun _ u => m.Copes u ∧ u.view.book = n.view.book) fun _ u => m.Overfull u := by
  refine (copes_makeResident h hs va).mono (fun _ _ => id) ?_
  rintro e u (hover | ⟨hnone, -⟩)
  · exact hover
  · rw [hnone] at hp
    cases hp

theorem copes_addStackPage (va : Addr) (undone : Addr → PagingError → Event) :
    Yields (addStackPage s va undone) n (fun _ u => m.Copes u ∧ u.view.book = n.view.book)
      fun e u => m.Overfull u ∨ n.view.Occupied ⟨s, pageBase va⟩ ∧ e.isScarce = false := by
  unfold addStackPage
  refine (copes_register h hs va View.docile_stack).bind ?_ fun _ _ => .inr
  rintro _ u ⟨hu, hbook, hpage⟩
  have hlive : (u.view.book s).isSome := by rwa [hbook]
  have hpresent : (u.view.page ⟨s, pageBase va⟩).isSome := by
    rw [hpage, Function.update_self]
    rfl
  refine yields_bind.2 (yields_attempt.2 ((copes_claim hu hlive va hpresent).mono ?_ ?_))
  · rintro _ z ⟨hz, hzb⟩
    exact yields_pure.2 ⟨hz, hzb.trans hbook⟩
  · intro e z hover
    cases e with
    | error e =>
        have hwhole := lasting_whole (lasting_overfull m)
        exact ((hwhole.removeAll (l := [va]) (fun va _ => hwhole.paged.remove s va)
          fun _ _ => hwhole.tell _).yields z hover).bind
          (fun _ _ ho => yields_fail.2 (.inl ho)) fun _ _ => .inl
    | panic | loop => exact .inl hover

theorem copes_extendStack (k : Nat) :
    Yields (extendStack s k) n (fun _ u => m.Copes u ∧ (u.view.book s).isSome)
      fun e u => m.Overfull u ∨ e.isScarce = false := by
  induction k generalizing n with
  | zero => exact yields_pure.2 ⟨h, hs⟩
  | succ k ih =>
      obtain ⟨sp, hsp⟩ := space?_of_book hs
      unfold extendStack
      rw [yields_bind, yields_space hsp, yields_bind, yields_minus]
      split
      swap
      · exact .inr rfl
      generalize sp.stackBottom - pageSize = va
      refine (copes_addStackPage h hs va _).bind ?_ fun e u hu => hu.imp_right And.right
      rintro _ u ⟨hu, hbook⟩
      have hlive : (u.view.book s).isSome := by rwa [hbook]
      have hgrown : m.Copes (u.withSpace s fun sp => { sp with stackBottom := va }) :=
        hu.booked hlive (fun _ => rfl) fun _ => rfl
      refine yields_bind.2 (yields_modifySpace.2 (yields_bind.2 (yields_emit.2 (ih (hgrown.tell rfl) ?_))))
      obtain ⟨su, hsu⟩ := space?_of_book hlive
      rw [view_tell, view_withSpace_book hsu rfl rfl]
      dsimp only
      rw [Function.update_self]
      rfl

/-- A fault at a page that is there can always be resolved, if it is one that the page is not present. -/
theorem copes_resolveFault (esp addr : Addr) (user write notPresent : Bool) :
    Yields (resolveFault s esp addr user write notPresent) n (fun _ u => m.Copes u)
      fun e u => m.Overfull u ∨ e.isScarce = false ∧
        (n.view.page ⟨s, pageBase addr⟩ = none ∨ notPresent = false) := by
  obtain ⟨sp, hsp⟩ := space?_of_book hs
  have htold : m.Copes (n.tell (.faulted s addr write)) := h.tell rfl
  by_cases himproper : Improper user notPresent addr
  · refine (yields_resolveFault_improper himproper).2 (.inr ⟨rfl, himproper.imp_left fun ⟨_, hk⟩ => ?_⟩)
    -- no page is registered at an address of the kernel
    refine Option.eq_none_iff_forall_ne_some.2 fun p hp => ?_
    have huser := (h.ample.sound.coherent.placed hp).2.2
    rw [isKernel_pageBase, isKernel_iff.2 hk] at huser
    cases huser
  rw [yields_resolveFault_proper hsp himproper, Space.page?, ← page_eq hsp]
  split
  · exact (copes_makeResident htold hs addr).mono (fun _ _ => And.left)
      fun e u => Or.imp_right fun hwhy => ⟨hwhy.2, .inl hwhy.1⟩
  rename_i hnone
  rw [Option.not_isSome_iff_eq_none] at hnone
  split
  · refine (copes_extendStack htold hs _).bind ?_ fun e u hu => hu.imp_right fun hscarce => ⟨hscarce, .inl hnone⟩
    rintro _ u ⟨hu, hlive⟩
    exact (copes_makeResident hu hlive addr).mono (fun _ _ => And.left)
      fun e z => Or.imp_right fun hwhy => ⟨hwhy.2, .inl hnone⟩
  · exact .inr ⟨rfl, .inl hnone⟩

theorem copes_onFault (esp : Addr) (user write : Bool) (hp : (n.view.page ⟨s, pageBase addr⟩).isSome) :
    Yields (onFault s esp addr user write true) n
      (fun b u => (b = true → m.Copes u) ∧ (b = false → m.Overfull u)) fun _ _ => False := by
  unfold onFault
  refine yields_bind.2 (yields_attempt.2 (((yields_resolveFault h.ample.sound hs esp addr user write true).and
    (copes_resolveFault h hs esp addr user write true)).mono ?_ ?_))
  · rintro _ u ⟨-, hu⟩
    exact yields_pure.2 ⟨fun _ => hu, nofun⟩
  · rintro e u ⟨hfail, hwhy⟩
    obtain ⟨e, rfl, -⟩ := hfail.error
    have hover : m.Overfull u := hwhy.resolve_right fun ⟨_, hx⟩ => by
      rcases hx with hnone | hx
      · rw [hnone] at hp
        cases hp
      · cases hx
    exact yields_bind.2 (yields_emit.2 (yields_pure.2 ⟨nofun, fun _ => (lasting_overfull m).log _ hover⟩))

/-- Two rounds are enough for an access that the page admits. -/
theorem copes_frameFor (rounds : Nat) (hp : n.view.Admits ⟨s, pageBase addr⟩ write)
    (hr : 2 ≤ rounds ∨ rounds = 1 ∧ n.view.Resident s addr) :
    Yields (frameFor s addr write rounds) n (fun _ u => m.Copes u) fun _ u => m.Overfull u := by
  induction rounds generalizing n with
  | zero => simp at hr
  | succ rounds ih =>
      obtain ⟨sp, hsp⟩ := space?_of_book hs
      obtain ⟨p, hp', hwr⟩ := id hp
      unfold frameFor
      rw [yields_bind, yields_space hsp]
      rcases h.ample.sound.access_cases hsp addr write with ⟨f, t, ht, hmarked, -⟩ | ⟨code, hcode, hwhy⟩
      · rw [ht]
        refine yields_bind.2 (yields_modifyTable.2 (yields_pure.2 (h.tame hmarked (fun _ ha => ha.tame) ?_)))
        exact (steady_still (fun _ => True) n).space _ trivial (.refl n)
      · rw [hcode]
        dsimp only
        -- the page is not in a frame, for its protection is not in the way
        obtain ⟨hnone, hnp⟩ : p.frame = none ∧ code.notPresent = true := by
          rcases hwhy p hp' with habsent | ⟨-, hw, hro, -⟩
          · exact habsent
          · rw [hwr hw] at hro
            cases hro
        rw [hnp]
        have hpresent : (n.view.page ⟨s, pageBase addr⟩).isSome := by rw [hp']; rfl
        refine ((yields_onFault h.ample.sound hs sp.savedStack addr true write true).and
          (copes_onFault h hs sp.savedStack true write hpresent)).bind ?_ fun _ _ hu => hu.2.elim
        rintro b u ⟨⟨-, hmade⟩, hcopes, hover⟩
        cases b with
        | false => exact yields_fail.2 (hover rfl)
        | true =>
            obtain ⟨hu, hres, -⟩ := hmade rfl
            have hmore : 1 ≤ rounds := by
              rcases hr with hr | ⟨-, q, f, hq, hf⟩
              · omega
              · cases hp'.symm.trans hq
                cases hnone.symm.trans hf
            refine ih (hcopes rfl) (hu.live hs) (hu.path.makes_admits hp) ?_
            rcases Nat.eq_or_lt_of_le hmore with hone | hmore
            · exact .inr ⟨hone.symm, hres⟩
            · exact .inl hmore

theorem copes_touchPage (hp : n.view.Admits ⟨s, pageBase addr⟩ write) :
    Yields (touchPage s addr write) n (fun _ u => m.Copes u) fun _ u => m.Overfull u := by
  unfold touchPage
  refine ((yields_frameFor h.ample.sound hs addr write 2 (.inl (Nat.le_refl _))).and
    (copes_frameFor h hs 2 hp (.inl (Nat.le_refl _)))).bind ?_ fun _ _ => And.right
  rintro f u ⟨⟨hu, hopen⟩, hcopes⟩
  have hsound := hu.sound h.ample.sound
  exact yields_bind.2 ((yields_contents hsound.consistent (hsound.present_of_open hopen)).2 (yields_pure.2 hcopes))

theorem copes_readPages (k addr len : Nat) (done : Array UInt8) (hk : k ≤ pagesTouched addr len)
    (hw : addr + len < wordLimit) (hp : ∀ i < len, n.view.Admits ⟨s, pageBase (addr + i)⟩ false) :
    Yields (readPages s k addr len done) n (fun c u => c.failure = none ∨ m.Overfull u)
      fun _ u => m.Overfull u := by
  induction k generalizing n addr len done with
  | zero => exact yields_pure.2 (.inl rfl)
  | succ k ih =>
      have hlen : len ≠ 0 := by
        rintro rfl
        rw [pagesTouched_eq_zero_iff.2 rfl] at hk
        cases hk
      rw [pagesTouched_eq_succ hlen] at hk
      unfold readPages
      dsimp only
      generalize hc : min len (pageSize - pageOffset addr) = chunk at hk
      have hfirst := hp 0 (by omega)
      rw [Nat.add_zero] at hfirst
      refine yields_bind.2 (yields_attempt.2 (((yields_touchPage h.ample.sound hs addr false).and
        (copes_touchPage h hs hfirst)).mono ?_ ?_))
      · rintro ⟨f, page⟩ u ⟨⟨hu, -⟩, hcopes⟩
        dsimp only
        rw [yields_bind, yields_word, if_pos (by omega)]
        refine ih hcopes (hu.live hs) _ _ _ (Nat.le_of_succ_le_succ hk) (by omega) fun i hi => ?_
        rw [Nat.add_assoc]
        exact hu.path.makes_admits (hp _ (by omega))
      · rintro e u ⟨-, hover⟩
        cases e with
        | error e => exact yields_pure.2 (.inr hover)
        | panic | loop => exact hover

theorem copes_writePages (k addr : Nat) (data : Array UInt8) (hk : k ≤ pagesTouched addr data.size)
    (hw : addr + data.size < wordLimit)
    (hp : ∀ i < data.size, n.view.Admits ⟨s, pageBase (addr + i)⟩ true) :
    Yields (writePages s k addr data) n (fun _ _ => True) fun _ u => m.Overfull u := by
  induction k generalizing n addr data with
  | zero => trivial
  | succ k ih =>
      have hlen : data.size ≠ 0 := by
        intro hzero
        rw [hzero, pagesTouched_eq_zero_iff.2 rfl] at hk
        cases hk
      rw [pagesTouched_eq_succ hlen] at hk
      unfold writePages
      dsimp only
      generalize hc : min data.size (pageSize - pageOffset addr) = chunk at hk
      have hfirst := hp 0 (by omega)
      rw [Nat.add_zero] at hfirst
      refine ((yields_touchPage h.ample.sound hs addr true).and (copes_touchPage h hs hfirst)).bind ?_
        fun _ _ => And.right
      rintro ⟨f, page⟩ u ⟨⟨hu, hopen, hpage, hpresent⟩, hcopes⟩
      dsimp only at hopen hpage hpresent ⊢
      subst hpage
      rw [yields_bind, yields_setContents hu.consistent hpresent, yields_bind, yields_word, if_pos (by omega)]
      have hstored := stored hopen (hu.consistent.withBytes f _)
        (view_withBytes hu.consistent hpresent ((u.view.bytes f).overlay (pageOffset addr) (data.extract 0 chunk)))
      have hrest : (data.extract chunk data.size).size = data.size - chunk := by
        rw [Array.size_extract]
        omega
      refine ih (hcopes.tame hstored ?_ ?_) (hstored.path.live (by simp) (hu.live hs)) _ _ ?_ ?_ fun i hi => ?_
      · rintro _ rfl
        trivial
      · exact (steady_still (fun _ => True) u).frames _ (.refl u)
      · rw [hrest]
        exact Nat.le_of_succ_le_succ hk
      · rw [hrest]
        omega
      · rw [Nat.add_assoc]
        refine hstored.path.admits (hu.path.makes_admits (hp _ ?_)) (by simp) (by simp)
        rw [hrest] at hi
        omega

theorem copes_copyOut (va len : Nat) (hva : va < wordLimit)
    (hp : ∀ i < len, n.view.Admits ⟨s, pageBase (va + i)⟩ false) :
    Yields (copyOut s va len) n (fun c u => c.failure = none ∨ m.Overfull u) fun _ u => m.Overfull u := by
  unfold copyOut
  have hend := h.ample.sound.coherent.end_lt hva hp
  rw [if_pos hend]
  exact copes_readPages h hs _ va len #[] (Nat.le_refl _) hend hp

theorem copes_copyIn (va : Nat) (data : Array UInt8) (hva : va < wordLimit)
    (hp : ∀ i < data.size, n.view.Admits ⟨s, pageBase (va + i)⟩ true) :
    Yields (copyIn s va data) n (fun _ _ => True) fun _ u => m.Overfull u := by
  unfold copyIn
  have hend := h.ample.sound.coherent.end_lt hva hp
  rw [if_pos hend]
  exact copes_writePages h hs _ va data (Nat.le_refl _) hend hp

theorem copes_startStack :
    Yields (startStack s) n (fun _ _ => True)
      fun e u => m.Overfull u ∨ (n.view.page ⟨s, stackTop - pageSize⟩).isSome ∧ e.isScarce = false := by
  unfold startStack
  dsimp only
  have hbase : pageBase (stackTop - pageSize) = stackTop - pageSize := by decide
  refine (copes_addStackPage h hs _ _).bind ?_ fun e u hu => hu.imp_right fun ⟨hocc, hscarce⟩ => ⟨?_, hscarce⟩
  · intro _ u hu
    exact yields_bind.2 (yields_modifySpace.2 (yields_pure.2 trivial))
  · have huser : isKernel (stackTop - pageSize) = false := by decide
    rw [hbase] at hocc
    exact hocc.resolve_left fun hk => Bool.false_ne_true (huser.symm.trans hk)

theorem copes_snapshot (hp : n.view.page ⟨s, va⟩ = some p) (hk : p.kind = .anon) :
    Yields (snapshot s va) n (fun _ u => m.Copes u ∧ n.Leads Act.Quiet u) fun _ _ => False := by
  refine (((steady_framed (steady_still (fun _ => True) n)).snapshot s va).and (.refl n)
    (yields_snapshot h.ample.sound hs (h.ample.sound.coherent.placed hp).2.1)).mono ?_ ?_
  · rintro c u ⟨⟨hu, -⟩, hstill⟩
    exact ⟨h.tame hu (fun _ ha => ha.tame) hstill, hu⟩
  · rintro e u ⟨hu, -⟩
    obtain ⟨e, -, -, -, -, huncopied⟩ := hu.error
    exact huncopied h.ample.reliable p hp hk

end

section

variable {child parent : SpaceId} {k : Nat} {l regions : List (Addr × Region)}
  (hm : m.Ample) (hc : (m.view.book child).isSome) (hp : (m.view.book parent).isSome)
include hm hc hp

/-- The child is given a page like the parent's, or has one there already. -/
theorem copes_inheritPage (h : m.Copes n) (hmade : m.Makes child (IsInherited m.view parent) n)
    (hq : m.view.page ⟨parent, va⟩ = some q) :
    Yields (inheritPage child parent regions va q) n (fun _ u => m.Copes u)
      fun e u => m.Overfull u ∨ (n.view.page ⟨child, va⟩).isSome ∧ e.isScarce = false := by
  obtain ⟨-, ha, huser⟩ := hm.sound.coherent.placed hq
  have hbase : pageBase va = va := pageBase_of_aligned ha
  have hfree {v : View} (hocc : v.Occupied ⟨child, pageBase va⟩) : (v.page ⟨child, va⟩).isSome := by
    rw [hbase] at hocc
    exact hocc.resolve_left fun hk => Bool.false_ne_true (huser.symm.trans hk)
  have hdocile : n.view.Docile q := (hm.mild _ q hq).congr (hmade.path.file_same fun _ _ => id)
  have hkind := hdocile.finalKind
  cases hst : q.state with
  | untouched filling purpose =>
      have hlazy : n.view.Docile (.lazy q.writable purpose filling) := hdocile.of_state hst.symm
      rw [inheritPage, hst]
      cases purpose with
      | anon | stack =>
          exact (copes_register h (hmade.live hc) va hlazy).mono (fun _ _ => And.left)
            fun e u hwhy => .inr ⟨hfree hwhy.1, hwhy.2⟩
      | file b =>
          rw [Page.finalKind, hst] at hkind
          cases hkind
  | anon slot stack =>
      obtain ⟨-, q', hq', hk'⟩ := hmade.path.cell_eq hm.sound.coherent spares_makes hq (by simp [Page.kind, hst])
      rw [inheritPage, hst]
      refine (copes_snapshot h (hmade.live hp) hq' hk').bind ?_ fun _ _ => False.elim
      rintro c u ⟨hu, hquiet⟩
      have hlive : (u.view.book child).isSome := hquiet.path.live (by simp [Act.Quiet]) (hmade.live hc)
      refine (copes_register hu hlive va ?_).bind ?_ ?_
      · cases stack <;> exact ⟨rfl, by rintro _ _ ⟨⟩; trivial⟩
      · rintro _ y ⟨hy, hbook, hpage⟩
        have hpresent : (y.view.page ⟨child, pageBase va⟩).isSome := by
          rw [hpage, Function.update_self]
          rfl
        exact (copes_claim hy (by rwa [hbook]) va hpresent).mono (fun _ _ => And.left) fun _ _ => .inl
      · rintro e z ⟨hocc, hscarce⟩
        exact .inr ⟨hquiet.path.was_present (by simp [Act.Quiet]) (hfree hocc), hscarce⟩
  | file b =>
      rw [Page.finalKind, hst] at hkind
      cases hkind

theorem copes_inheritPages (hl : List.Forall₂ (Reopens k) l regions) (todo : List (Addr × Page))
    (hpages : ∀ x ∈ todo, m.view.page ⟨parent, x.1⟩ = some x.2) (hnodup : todo.Pairwise (·.1 ≠ ·.1))
    (h : m.Copes n) (hmade : m.Makes child (IsInherited m.view parent) n) (hk : Numbered k n) :
    Yields (inheritPages child parent regions todo) n (fun _ _ => True)
      fun e u => m.Overfull u ∨ (∃ x ∈ todo, (n.view.page ⟨child, x.1⟩).isSome) ∧ e.isScarce = false := by
  induction todo generalizing n with
  | nil => trivial
  | cons x rest ih =>
      rw [List.pairwise_cons] at hnodup
      have hq := hpages x (List.mem_cons_self ..)
      refine (((yields_inheritPage hm.sound hc hp hmade hq hl hk).and
        (((lasting_whole (lasting_numbered k)).inheritPage child parent regions x.1 x.2).yields n hk)).and
        (copes_inheritPage hm hc hp h hmade hq)).bind ?_ ?_
      · rintro _ u ⟨⟨⟨hu, -⟩, hku⟩, hcopes⟩
        refine (ih (fun y hy => hpages y (List.mem_cons_of_mem _ hy)) hnodup.2 hcopes
          (hmade.trans (hu.mono fun _ ha => ha.makes)) hku).mono (fun _ _ => id) ?_
        rintro e z (hover | ⟨⟨y, hy, hpresent⟩, hscarce⟩)
        · exact .inl hover
        · -- what the child has elsewhere was there before
          have hfirst := hu.path.was_present (fun p ha => hnodup.1 y hy (congrArg PageRef.va ha.1).symm) hpresent
          exact .inr ⟨⟨y, List.mem_cons_of_mem _ hy, hfirst⟩, hscarce⟩
      · rintro e u ⟨-, hu⟩
        exact hu.imp_right fun ⟨hpresent, hscarce⟩ => ⟨⟨x, List.mem_cons_self .., hpresent⟩, hscarce⟩

theorem copes_inherit :
    Yields (inherit child parent) m (fun _ _ => True)
      fun e u => m.Overfull u ∨ (∃ va, (m.view.page ⟨child, va⟩).isSome) ∧ e.isScarce = false := by
  obtain ⟨sp, hsp⟩ := space?_of_book hp
  unfold inherit
  rw [yields_bind, yields_space hsp]
  have hstill := steady_framed (steady_still (fun _ => True) m)
  refine ((hstill.duplicateRegions hstill.duplicate sp.regions.toList).and (.refl m)
    (yields_duplicateRegions hm.sound.consistent sp.regions.toList
      (Nat.le_refl _ : Numbered m.nextHandle m))).bind ?_ fun _ _ hu => hu.1.elim
  rintro regions n ⟨⟨hl, hn, hv, hk⟩, hstill⟩
  have hpages (x : Addr × Page) (hx : x ∈ sp.pages.toList) : m.view.page ⟨parent, x.1⟩ = some x.2 :=
    (mem_pages hsp).1 hx
  have hquiet : m.Leads Act.Quiet n := (Leads.refl hm.sound.consistent).same hn hv
  have hmade : m.Makes child (IsInherited m.view parent) n := hquiet.makes fun _ ha => ha.makes
  refine ((yields_inheritPages hm.sound hc hp hl [] sp.pages.toList hpages sp.pairwise_pages
    (.start hm.sound.consistent hn hv hk)).and (copes_inheritPages hm hc hp hl sp.pages.toList hpages sp.pairwise_pages
    ((Copes.refl hm).tame hquiet (fun _ ha => ha.tame) hstill) hmade hk)).bind ?_ ?_
  · rintro _ u ⟨hu, -⟩
    obtain ⟨su, hsu⟩ := space?_of_book (hu.makes.live hp)
    rw [yields_bind, yields_space hsu]
    exact yields_bind.2 (yields_modifySpace.2 (yields_emit.2 trivial))
  · rintro e u ⟨-, hu⟩
    refine hu.imp_right fun ⟨⟨x, _, hpresent⟩, hscarce⟩ => ⟨⟨x.1, ?_⟩, hscarce⟩
    rwa [← hv]

/-- Only pages that the child has already are in the way of a fork. -/
theorem copes_fork :
    Yields (fork child parent) m (fun _ _ => True)
      fun e u => m.Overfull u ∨ (∃ va, (m.view.page ⟨child, va⟩).isSome) ∧ e.isScarce = false := by
  unfold fork
  refine yields_bind.2 (yields_attempt.2 ((copes_inherit hm hc hp).mono (fun _ _ _ => yields_pure.2 trivial) ?_))
  rintro e u (hover | ⟨hpresent, hscarce⟩)
  · cases e with
    | error e =>
        exact (((lasting_whole (lasting_overfull m)).paged.destroy child).yields u hover).bind
          (fun _ _ ho => yields_fail.2 (.inl ho)) fun _ _ => .inl
    | panic | loop => exact .inl hover
  · cases e with
    | error e =>
        exact ((plain_destroy child).yields u).bind (fun _ _ _ => yields_fail.2 (.inr ⟨hpresent, hscarce⟩))
          fun _ _ hdestroyed => .inr ⟨hpresent, hdestroyed⟩
    | panic | loop => exact .inr ⟨hpresent, hscarce⟩

end

end Vm

end DemandPaging
