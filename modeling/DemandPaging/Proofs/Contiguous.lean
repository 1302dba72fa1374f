import DemandPaging.Proofs.Regions
import DemandPaging.Proofs.StackGrowth

namespace DemandPaging

open Function (update)
open Step Machine

variable {hw : Hardware} {l : List Turn} {m n u : Machine} {c : Call} {s child parent : SpaceId} {va addr : Addr}
  {r : PageRef} {p : Page} {v w : View} {P : Act → Prop} {B : SpaceId → Option Book} {k : Nat}

namespace Machine

structure Booked (B : SpaceId → Option Book) (m : Machine) : Prop where
  sound : m.Sound
  book : m.view.book = B

theorem Booked.leads (h : m.Booked B) (hn : m.Leads P n) (hbook : n.view.book = m.view.book) : n.Booked B :=
  ⟨hn.sound h.sound, hbook.trans h.book⟩

theorem Booked.quiet (h : m.Booked B) (hn : m.Leads Act.Quiet n) : n.Booked B :=
  h.leads hn hn.path.quiet_book

end Machine

namespace Vm

theorem booked_register (hs : (B s).isSome) (va : Addr) (wr : Bool) (purpose : Purpose) (filling : Option Filling) :
    Keeps (Booked B) (register s va wr purpose filling) := by
  constructor
  intro m h
  refine (yields_register h.sound (by rw [h.book]; exact hs) va wr purpose filling).mono ?_ fun e n hn => ?_
  · rintro _ n ⟨-, -, hn, hv⟩
    exact h.leads hn (by rw [hv])
  · obtain ⟨err, -, hn, -⟩ := hn.error
    exact h.quiet hn

theorem booked_addSegment (h : m.Sound) (hs : (m.view.book s).isSome) (hd : Handle)
    (offset addr readBytes zeroBytes : Nat) (wr : Bool) :
    Yields (addSegment s hd offset addr readBytes zeroBytes wr) m (fun _ n => n.view.book = m.view.book)
      fun _ n => n.view.book = m.view.book := by
  have hemit (e : Event) : Keeps (Booked m.view.book) (emit e) :=
    ⟨fun n hn => yields_emit.2 (hn.quiet ((Leads.refl hn.sound.consistent).tell Act.quiet_quiet e))⟩
  have hsegment := (keeps_modular _).addSegment (booked_register hs) (fun _ _ => hemit _) hd offset addr readBytes
    zeroBytes wr
  exact (hsegment.yields m ⟨h, rfl⟩).mono (fun _ _ hn => hn.book) fun _ _ hn => hn.book

theorem booked_addMapping (h : m.Sound) {b : Book} (hb : m.view.book s = some b) (addr len : Nat) (wr : Bool)
    (hd : Handle) (offset : Nat) :
    Yields (addMapping s addr len wr hd offset) m
      (fun _ n => ∃ g, n.view.book = update m.view.book s (some { b with regions := b.regions.insert addr g }))
      fun _ n => n.view.book = m.view.book := by
  refine (yields_addMapping h (by rw [hb]; rfl) addr len wr hd offset).mono ?_ fun e n hn => ?_
  · rintro _ n ⟨-, -, -, -, -, -, -, -, -, b', hb', hbook⟩
    obtain rfl := Option.some.inj (hb.symm.trans hb')
    exact ⟨_, hbook⟩
  · obtain ⟨-, -, -, -, hback, -⟩ := hn.error
    exact hback.book

end Vm

namespace View

/-- The regions of a space have a page at each of their places, none of which is a page of the stack,
and no place in common. -/
structure Filed (v : View) (s : SpaceId) : Prop where
  page : ∀ start g i, (v.regions s)[start]? = some g → i < g.pages →
    ∃ p, v.page ⟨s, start + i * pageSize⟩ = some p ∧ p.isStack = false
  apart : ∀ start g i start' g' j, (v.regions s)[start]? = some g → i < g.pages →
    (v.regions s)[start']? = some g' → j < g'.pages → start + i * pageSize = start' + j * pageSize →
    start = start'

/-- The stack of a space is in one piece, and out of the way of its regions. -/
structure Tidy (v : View) (s : SpaceId) : Prop where
  whole : v.Whole s fun _ => False
  filed : v.Filed s

theorem filed_of_empty (h : v.regions s = ∅) : v.Filed s := by
  constructor
  · intro start g i hg
    rw [h] at hg
    simp at hg
  · intro start g i start' g' j hg
    rw [h] at hg
    simp at hg

theorem tidy_of_empty {b : Book} (hb : v.book s = some b) (hr : b.regions = ∅) (ht : b.stackBottom = stackTop) :
    v.Tidy s := by
  refine ⟨fun b' hb' => ?_, filed_of_empty (by rw [regions_eq hb, hr])⟩
  obtain rfl := Option.some.inj (hb.symm.trans hb')
  rw [ht]
  exact v.stacked_top s _

theorem tidy_of_none (hb : v.book s = none) : v.Tidy s :=
  ⟨fun b hb' => absurd (hb.symm.trans hb') nofun, filed_of_empty (by rw [regions, hb]; rfl)⟩

theorem Filed.later (h : v.Filed s) (hr : w.regions s = v.regions s)
    (hlike : ∀ va p, v.page ⟨s, va⟩ = some p → ∃ q, w.page ⟨s, va⟩ = some q ∧ p.Like q) : w.Filed s := by
  refine ⟨fun start g i hg hi => ?_, fun start g i start' g' j hg hi hg' hj heq => ?_⟩
  · rw [hr] at hg
    obtain ⟨p, hp, hs⟩ := h.page start g i hg hi
    obtain ⟨q, hq, hpq⟩ := hlike _ p hp
    exact ⟨q, hq, hpq.isStack.trans hs⟩
  · rw [hr] at hg hg'
    exact h.apart start g i start' g' j hg hi hg' hj heq

theorem Tidy.later (h : v.Tidy s) (hb : w.book s = v.book s)
    (hlike : ∀ va p, v.page ⟨s, va⟩ = some p → ∃ q, w.page ⟨s, va⟩ = some q ∧ p.Like q) : w.Tidy s :=
  ⟨h.whole.later (fun b hb' => ⟨b, by rw [← hb, hb'], rfl⟩) fun va p _ hp _ => hlike va p hp,
    h.filed.later (by rw [regions, hb, regions]) hlike⟩

theorem Filed.insert {pages : Nat} {g : Region} (h : v.Filed s)
    (hr : w.regions s = (v.regions s).insert addr g) (hg : g.pages = pages)
    (hlike : ∀ va p, v.page ⟨s, va⟩ = some p → ∃ q, w.page ⟨s, va⟩ = some q ∧ p.Like q)
    (hnew : ∀ i < pages, v.page ⟨s, addr + i * pageSize⟩ = none ∧
      ∃ p, w.page ⟨s, addr + i * pageSize⟩ = some p ∧ p.isStack = false) : w.Filed s := by
  subst hg
  have hold {start : Addr} {g' : Region} (hg' : (w.regions s)[start]? = some g') :
      start = addr ∧ g' = g ∨ (v.regions s)[start]? = some g' := by
    rw [hr, Std.ExtTreeMap.getElem?_insert] at hg'
    split at hg'
    · rename_i heq
      exact .inl ⟨(Std.LawfulEqCmp.eq_of_compare heq).symm, (Option.some.inj hg').symm⟩
    · exact .inr hg'
  -- the places of the new region had no pages, and those of every other region had
  have hmixed {start : Addr} {g' : Region} {i j : Nat} (hg' : (v.regions s)[start]? = some g') (hi : i < g'.pages)
      (hj : j < g.pages) (heq : start + i * pageSize = addr + j * pageSize) : False := by
    obtain ⟨p, hp, -⟩ := h.page start g' i hg' hi
    rw [heq, (hnew j hj).1] at hp
    cases hp
  refine ⟨fun start g' i hg' hi => ?_, fun start g' i start' g'' j hg' hi hg'' hj heq => ?_⟩
  · rcases hold hg' with ⟨rfl, rfl⟩ | hg'
    · exact (hnew i hi).2
    · obtain ⟨p, hp, hs⟩ := h.page start g' i hg' hi
      obtain ⟨q, hq, hpq⟩ := hlike _ p hp
      exact ⟨q, hq, hpq.isStack.trans hs⟩
  · rcases hold hg' with ⟨rfl, rfl⟩ | hg' <;> rcases hold hg'' with ⟨rfl, rfl⟩ | hg''
    · rfl
    · exact (hmixed hg'' hj hi heq.symm).elim
    · exact (hmixed hg' hi hj heq).elim
    · exact h.apart start g' i start' g'' j hg' hi hg'' hj heq

theorem Tidy.unmapped {start : Addr} (h : v.Tidy s) (hlost : v.Loses (v.InRegion s start) w)
    (hb : w.book s = (v.book s).map fun b => { b with regions := b.regions.erase start }) : w.Tidy s := by
  have hregions : w.regions s = (v.regions s).erase start := by
    rw [regions, hb, regions]
    cases v.book s <;> simp
  refine ⟨h.whole.later (fun b hb' => ?_) fun va p _ hp hs => ?_, ⟨fun start' g i hg hi => ?_, ?_⟩⟩
  · rw [hb] at hb'
    obtain ⟨b₀, hb₀, rfl⟩ := Option.map_eq_some_iff.1 hb'
    exact ⟨b₀, hb₀, rfl⟩
  · refine ⟨p, (hlost.page _ fun hin => ?_).trans hp, .refl p⟩
    obtain ⟨g, j, hg, hj, heq⟩ := hin
    obtain ⟨q, hq, hns⟩ := h.filed.page start g j hg hj
    rw [← heq, hp] at hq
    rw [← Option.some.inj hq, hs] at hns
    cases hns
  · rw [hregions, Std.ExtTreeMap.getElem?_erase] at hg
    split at hg
    · cases hg
    · rename_i hne
      obtain ⟨p, hp, hs⟩ := h.filed.page start' g i hg hi
      refine ⟨p, (hlost.page _ fun hin => hne ?_).trans hp, hs⟩
      obtain ⟨g', j, hg', hj, heq⟩ := hin
      rw [h.filed.apart start' g i start g' j hg hi hg' hj (congrArg PageRef.va heq)]
      exact Std.ReflCmp.compare_self
  · intro start₁ g₁ i start₂ g₂ j hg₁ hi hg₂ hj heq
    rw [hregions, Std.ExtTreeMap.getElem?_erase] at hg₁ hg₂
    split at hg₁
    · cases hg₁
    split at hg₂
    · cases hg₂
    exact h.filed.apart start₁ g₁ i start₂ g₂ j hg₁ hi hg₂ hj heq

/-- A copy of a tidy space in a tidy space is tidy: it has the stack of the one, and the regions of
both, which have no place in common because no page of the one was in the way of the other's. -/
theorem Forked.tidy (h : v.Forked child parent k w) (hp : v.Tidy parent) (hc : v.Tidy child)
    (hlike : ∀ va p, v.page ⟨child, va⟩ = some p → ∃ q, w.page ⟨child, va⟩ = some q ∧ p.Like q) : w.Tidy child := by
  obtain ⟨b, opened, hb, hopened, hbook⟩ := h.book
  have hchild : w.book child = some ⟨(v.regions child).insertMany opened, b.stackBottom, b.savedStack⟩ := by
    rw [hbook, Function.update_self]
  have hcopy (va : Addr) (q : Page) (hq : v.page ⟨parent, va⟩ = some q) :
      ∃ p, w.page ⟨child, va⟩ = some p ∧ p.writable = q.writable ∧ p.isStack = q.isStack := by
    obtain ⟨p, hp, hcopy⟩ := h.copied va q hq
    exact ⟨p, hp, hcopy.writable, hcopy.isStack⟩
  have hregion {start : Addr} {g : Region} (hg : (w.regions child)[start]? = some g) :
      ∃ g', g'.pages = g.pages ∧
        ((v.regions parent)[start]? = some g' ∨ (v.regions child)[start]? = some g') := by
    have hpages := pages_insertMany (C := v.regions child) hopened start
    rw [regions_eq hchild] at hg
    dsimp only at hg
    rw [hg, ← regions_eq hb, Option.map_some, eq_comm, Option.or_eq_some_iff] at hpages
    rcases hpages with hpages | ⟨-, hpages⟩ <;> obtain ⟨g', hg', heq⟩ := Option.map_eq_some_iff.1 hpages
    · exact ⟨g', heq, .inl hg'⟩
    · exact ⟨g', heq, .inr hg'⟩
  have hmixed {start start' : Addr} {g g' : Region} {i j : Nat} (hg : (v.regions parent)[start]? = some g)
      (hi : i < g.pages) (hg' : (v.regions child)[start']? = some g') (hj : j < g'.pages)
      (heq : start + i * pageSize = start' + j * pageSize) : False := by
    obtain ⟨q, hq, -⟩ := hp.filed.page start g i hg hi
    obtain ⟨p, hpage, -⟩ := hc.filed.page start' g' j hg' hj
    rw [heq] at hq
    rw [h.fresh _ q hq] at hpage
    cases hpage
  refine ⟨fun b' hb' => ?_, fun start g i hg hi => ?_, fun start₁ g₁ i start₂ g₂ j hg₁ hi hg₂ hj heq => ?_⟩
  · obtain rfl := Option.some.inj (hchild.symm.trans hb')
    have hstacked := hp.whole b hb
    refine ⟨hstacked.aligned, hstacked.limit_le, hstacked.le_top, fun va hva ha hle hlt => ?_⟩
    obtain ⟨q, hq, hw, hs⟩ := hstacked.page va hva ha hle hlt
    obtain ⟨p, hpage, hpw, hps⟩ := hcopy va q hq
    exact ⟨p, hpage, hpw.trans hw, hps.trans hs⟩
  · obtain ⟨g', hpages, hg' | hg'⟩ := hregion hg
    · obtain ⟨q, hq, hs⟩ := hp.filed.page start g' i hg' (hpages ▸ hi)
      obtain ⟨p, hpage, -, hps⟩ := hcopy _ q hq
      exact ⟨p, hpage, hps.trans hs⟩
    · obtain ⟨p, hpage, hs⟩ := hc.filed.page start g' i hg' (hpages ▸ hi)
      obtain ⟨q, hq, hpq⟩ := hlike _ p hpage
      exact ⟨q, hq, hpq.isStack.trans hs⟩
  · obtain ⟨g₁', hpages₁, hg₁⟩ := hregion hg₁
    obtain ⟨g₂', hpages₂, hg₂⟩ := hregion hg₂
    rw [← hpages₁] at hi
    rw [← hpages₂] at hj
    rcases hg₁ with hg₁ | hg₁ <;> rcases hg₂ with hg₂ | hg₂
    · exact hp.filed.apart start₁ g₁' i start₂ g₂' j hg₁ hi hg₂ hj heq
    · exact (hmixed hg₁ hi hg₂ hj heq).elim
    · exact (hmixed hg₂ hj hg₁ hi heq.symm).elim
    · exact hc.filed.apart start₁ g₁' i start₂ g₂' j hg₁ hi hg₂ hj heq

end View

section

variable (h : m.Sound) (hc : ∀ s ∈ c.spaces, (m.space? s).isSome)
include h hc

theorem like_turn (hr : ∀ saved, c.Removes m.view (c.turn m).after.view r saved → m.view.page r = none)
    (hd : c ≠ .dropSpace r.space) (hp : m.view.page r = some p) :
    ∃ q, (c.turn m).after.view.page r = some q ∧ p.Like q := by
  refine (path_turn h hc).like hp (fun saved ha => ?_) fun ha => hd ?_
  · have hremoves := ha.2
    rw [call_turn, before_turn] at hremoves
    cases hp.symm.trans (hr saved hremoves)
  · have hdrop : (c.turn m).call = .dropSpace r.space := ha
    rwa [call_turn] at hdrop

theorem book_turn (hb : ∀ b, ¬ c.Books m.view s b) (hd : c ≠ .dropSpace s) :
    (c.turn m).after.view.book s = m.view.book s ∨ (c.turn m).after.view.book s = some Space.empty.book := by
  refine (path_turn h hc).keeps (I := fun w => w.book s = m.view.book s ∨ w.book s = some Space.empty.book)
    (.inl rfl) fun {v w a} ha hs hv => ?_
  cases hs with
  | @booked t b =>
      have ht : s ≠ t := by
        rintro rfl
        have hbooks : (c.turn m).call.Books (c.turn m).before.view s b := ha
        rw [call_turn, before_turn] at hbooks
        exact hb b hbooks
      simpa [Function.update_of_ne ht] using hv
  | created =>
      dsimp only
      rw [Function.update_apply]
      split
      · exact .inr rfl
      · exact hv
  | dropped t =>
      have ht : s ≠ t := by
        rintro rfl
        have hdrop : (c.turn m).call = .dropSpace s := ha
        exact hd (by rwa [call_turn] at hdrop)
      simpa [Function.update_of_ne ht] using hv
  | _ => exact hv

theorem tidy_elsewhere (ht : m.view.Tidy s) (hb : ∀ b, ¬ c.Books m.view s b) (hd : c ≠ .dropSpace s)
    (hr : ∀ va saved, ¬ c.Removes m.view (c.turn m).after.view ⟨s, va⟩ saved) : (c.turn m).after.view.Tidy s := by
  rcases book_turn h hc hb hd with hbook | hbook
  · exact ht.later hbook fun va p hp => like_turn h hc (fun saved ha => absurd ha (hr va saved)) hd hp
  · exact View.tidy_of_empty hbook rfl rfl

end

section

variable (h : m.Sound) (hs : (m.view.book s).isSome)
include h hs

theorem book_destroy : ((Call.destroy s).turn m).after.view.book s =
    (m.view.book s).map fun b => { b with regions := ∅, stackBottom := stackTop } := by
  refine Call.turn_cases (fun t => t.after.view.book s = _) ((Vm.yields_destroy h hs).bind ?_ fun _ _ => False.elim)
  rintro _ n ⟨-, -, hbook, -⟩
  refine yields_pure.2 ?_
  dsimp only
  rw [hbook, Function.update_self]

theorem book_saveStack (esp : Addr) : ((Call.saveStack s esp).turn m).after.view = { m.view with
    book := update m.view.book s ((m.view.book s).map fun b => { b with savedStack := esp }) } := by
  obtain ⟨sp, hsp⟩ := space?_of_book hs
  refine Call.turn_cases (fun t => t.after.view = _)
    (yields_bind.2 (Vm.yields_modifySpace.2 (yields_pure.2 ?_)))
  dsimp only
  rw [(booked h.consistent hsp (g := fun sp => { sp with savedStack := esp }) (fun _ => rfl) fun _ => rfl).2,
    book_eq hsp]
  rfl

theorem book_segment (hd : Handle) (offset addr readBytes zeroBytes : Nat) (wr : Bool) :
    ((Call.segment s hd offset addr readBytes zeroBytes wr).turn m).after.view.book = m.view.book :=
  Call.turn_cases (fun t => t.after.view.book = m.view.book)
    ((Vm.booked_addSegment h hs hd offset addr readBytes zeroBytes wr).bind (fun _ _ hn => yields_pure.2 hn)
      fun _ _ => id)

theorem book_map (addr len : Nat) (wr : Bool) (hd : Handle) (offset : Nat) :
    ((Call.map s addr len wr hd offset).turn m).after.view.book = m.view.book ∨
      ∃ b g, m.view.book s = some b ∧ ((Call.map s addr len wr hd offset).turn m).after.view.book =
        update m.view.book s (some { b with regions := b.regions.insert addr g }) := by
  obtain ⟨b, hb⟩ := Option.isSome_iff_exists.1 hs
  refine Call.turn_cases (fun t => t.after.view.book = m.view.book ∨ ∃ b g, m.view.book s = some b ∧
    t.after.view.book = update m.view.book s (some { b with regions := b.regions.insert addr g }))
    ((Vm.booked_addMapping h hb addr len wr hd offset).bind ?_ fun _ _ => .inl)
  rintro _ n ⟨g, hn⟩
  exact yields_pure.2 (.inr ⟨b, g, hb, hn⟩)

theorem book_unmap (addr : Addr)
    (hg : ∀ g, (m.view.regions s)[pageBase addr]? = some g → Placed (pageBase addr) g.pages) :
    ((Call.unmap s addr).turn m).after.view.book = update m.view.book s ((m.view.book s).map fun b =>
      { b with regions := b.regions.erase (pageBase addr) }) := by
  refine Call.turn_cases (fun t => t.after.view.book = _) ((Vm.yields_removeMapping h hs addr).bind ?_ ?_)
  · rintro _ n ⟨-, -, hbook, -⟩
    exact yields_pure.2 hbook
  · rintro e n ⟨-, -, g, hreg, hlimit⟩
    exact absurd hlimit (Nat.not_le.2 (Nat.lt_of_le_of_lt
      (Nat.add_le_add_left (Nat.mul_le_mul_right _ (Nat.sub_le ..)) _) (hg g hreg).lt))

/-- However a call that may grow the stack ends, the stack is in one piece. -/
theorem whole_turn {gone : Addr → Prop} (hc : c.Grows s) (ht : m.view.Whole s gone) :
    (c.turn m).after.view.Whole s gone := by
  have hturn {α : Type} {x : Vm α} {f : α → Answer} (hx : Keeps (Upright s gone) x)
      (hexec : c.exec = x >>= fun a => pure (f a)) : (c.turn m).after.view.Whole s gone := by
    refine Call.turn_cases (fun t => t.after.view.Whole s gone) ?_
    rw [hexec]
    exact (hx.yields m ⟨h, hs, ht⟩).bind (fun _ _ hn => yields_pure.2 hn.whole) fun _ _ hn => hn.whole
  cases c with
  | read t va len =>
      obtain rfl : s = t := hc
      exact hturn (Vm.upright_copyOut va len) (f := .copied) rfl
  | write t va data =>
      obtain rfl : s = t := hc
      exact hturn (Vm.upright_copyIn va data) (f := fun _ => .done) rfl
  | fault t esp addr user wr np =>
      obtain rfl : s = t := hc
      exact hturn (Vm.upright_resolveFault esp addr user wr np) (f := fun _ => .done) rfl
  | handle t esp addr user wr np =>
      obtain rfl : s = t := hc
      exact hturn (Vm.upright_onFault esp addr user wr np) (f := .resolved) rfl
  | startStack t =>
      obtain rfl : s = t := hc
      exact hturn Vm.upright_startStack (f := .address) rfl
  | _ => exact hc.elim


theorem tidy_grow (hc : ∀ s ∈ c.spaces, (m.space? s).isSome) (hgrows : c.Grows s) (ht : m.view.Tidy s) :
    (c.turn m).after.view.Tidy s := by
  have hmay : (∀ b, c.Books m.view s b → b.regions = m.view.regions s) ∧ c ≠ .dropSpace s ∧
      ∀ va saved, c.Removes m.view (c.turn m).after.view ⟨s, va⟩ saved → m.view.page ⟨s, va⟩ = none := by
    cases c with
    | read | write | fault | handle | startStack =>
        exact ⟨fun b hb => hb.2, nofun, fun va saved hr => hr.2⟩
    | _ => exact hgrows.elim
  exact ⟨whole_turn h hs hgrows ht.whole, ht.filed.later (regions_kept h hc hmay.1 hmay.2.1)
    fun va p hp => like_turn h hc (hmay.2.2 va) hmay.2.1 hp⟩

theorem tidy_map (ht : m.view.Tidy s) (addr len : Nat) (wr : Bool) (hd : Handle) (offset : Nat) :
    ((Call.map s addr len wr hd offset).turn m).after.view.Tidy s := by
  have hc := Call.live_of_single (c := .map s addr len wr hd offset) rfl hs
  have hlike (va : Addr) (p : Page) (hp : m.view.page ⟨s, va⟩ = some p) :=
    like_turn (r := ⟨s, va⟩) h hc (fun saved hr => hr.2) nofun hp
  refine ⟨ht.whole.later (fun b hb => ?_) fun va p _ hp _ => hlike va p hp, ?_⟩
  · rcases book_map h hs addr len wr hd offset with hbook | ⟨b₀, g, hb₀, hbook⟩
    · exact ⟨b, by rw [← hbook, hb], rfl⟩
    · rw [hbook, Function.update_self] at hb
      exact ⟨b₀, hb₀, by rw [← Option.some.inj hb]⟩
  · rcases regions_map h hs addr len wr hd offset with ⟨-, hr⟩ | ⟨hok, -, hr⟩
    · exact ht.filed.later hr hlike
    · obtain ⟨x, hx⟩ := Turn.answer_of_succeeds hok
      obtain ⟨-, serial, hmapped⟩ := (fair_map h hs addr len wr hd offset).2 x hx
      refine ht.filed.insert hr rfl hlike fun i hi => ?_
      obtain ⟨hnone, hpage⟩ := hmapped.part i hi
      exact ⟨hnone, _, hpage, rfl⟩

end

/-- Whatever is called, other than to remove a page, every space is tidy after it if all were before it. -/
theorem tidy_turn (h : m.Sound) (hcharted : Charted l m.view) (hc : ∀ s ∈ c.spaces, (m.space? s).isSome)
    (hremove : ∀ s va, c ≠ .remove s va) (ht : ∀ s, m.view.Tidy s) (s : SpaceId) :
    (c.turn m).after.view.Tidy s := by
  have hlive {s : SpaceId} (hs : s ∈ c.spaces) : (m.view.book s).isSome := Call.live hc hs
  have helse (hb : ∀ b, ¬ c.Books m.view s b) (hd : c ≠ .dropSpace s)
      (hr : ∀ va saved, ¬ c.Removes m.view (c.turn m).after.view ⟨s, va⟩ saved) :
      (c.turn m).after.view.Tidy s :=
    tidy_elsewhere h hc (ht s) hb hd hr
  -- a call concerns the pages and the book of one space, and leaves all others as they are
  cases c with
  | newSpace | register | claim | newFile | limitFile | overwrite | setFaults =>
      exact helse (fun _ => id) (by simp) fun _ _ => id
  | remove s' va => exact absurd rfl (hremove s' va)
  | dropSpace s' =>
      by_cases hs : s = s'
      · subst hs
        exact View.tidy_of_none (fair_dropSpace h s).2
      · exact helse (fun _ => id) (by rintro ⟨⟩; exact hs rfl) fun _ _ => id
  | destroy s' =>
      by_cases hs : s = s'
      · subst hs
        obtain ⟨b, hb⟩ := Option.isSome_iff_exists.1 (hlive (List.mem_singleton_self s))
        have hbook := book_destroy h (hlive (List.mem_singleton_self s))
        rw [hb] at hbook
        exact View.tidy_of_empty hbook rfl rfl
      · exact helse (fun b hb => hs hb) (by simp) fun va saved hr => hs hr.1
  | read s' | write s' | fault s' | handle s' | startStack s' =>
      by_cases hs : s = s'
      · subst hs
        exact tidy_grow h (hlive (List.mem_singleton_self s)) hc rfl (ht s)
      · exact helse (fun b hb => hs hb.1) (by simp) fun va saved hr => hs hr.1
  | saveStack s' esp =>
      by_cases hs : s = s'
      · subst hs
        have hv := book_saveStack h (hlive (List.mem_singleton_self s)) esp
        obtain ⟨b, hb⟩ := Option.isSome_iff_exists.1 (hlive (List.mem_singleton_self s))
        rw [hv, hb]
        refine ⟨(ht s).whole.later (fun b' hb' => ⟨b, hb, ?_⟩) fun va p _ hp _ => ⟨p, hp, .refl p⟩,
          (ht s).filed.later ?_ fun va p hp => ⟨p, hp, .refl p⟩⟩
        · dsimp only at hb'
          rw [Function.update_self] at hb'
          rw [← Option.some.inj hb']
        · simp [View.regions, hb]
      · exact helse (fun b hb => hs hb.1) (by simp) fun _ _ => id
  | segment s' =>
      by_cases hs : s = s'
      · subst hs
        refine (ht s).later ?_ fun va p hp => like_turn (r := ⟨s, va⟩) h hc (fun saved hr => hr.2) (by simp) hp
        rw [book_segment h (hlive (List.mem_singleton_self s))]
      · exact helse (fun b hb => hs hb.1) (by simp) fun va saved hr => hs hr.1
  | map s' addr len wr hd offset =>
      by_cases hs : s = s'
      · subst hs
        exact tidy_map h (hlive (List.mem_singleton_self s)) (ht s) addr len wr hd offset
      · exact helse (fun b hb => hs hb.1) (by simp) fun va saved hr => hs hr.1
  | unmap s' addr =>
      by_cases hs : s = s'
      · subst hs
        have hplaced (g : Region) (hg : (m.view.regions s)[pageBase addr]? = some g) : Placed (pageBase addr) g.pages :=
          hcharted.region hg
        obtain ⟨-, hlost, -, -⟩ := unmap_turn h (hlive (List.mem_singleton_self s)) addr hplaced
        refine (ht s).unmapped hlost ?_
        rw [book_unmap h (hlive (List.mem_singleton_self s)) addr hplaced, Function.update_self]
      · exact helse (fun b hb => hs hb.1) (by simp) fun va saved hr => hs hr.1
  | fork child parent =>
      by_cases hs : s = child
      · subst hs
        rcases fork_turn h (hlive (s := s) (by simp [Call.spaces])) (hlive (s := parent) (by simp [Call.spaces]))
          (hcharted.bounded parent) with ⟨-, hforks, hforked⟩ | ⟨-, -, -, hbook⟩
        · refine hforked.tidy (ht parent) (ht s) fun va p hp => hforks.path.like hp (fun saved ha => ?_) ?_
          · rcases ha with ha | ⟨b, ha⟩
            · exact ha.2.2
            · cases ha
          · rintro (ha | ⟨b, ha⟩)
            · exact ha
            · cases ha
        · obtain ⟨b, hb⟩ := Option.isSome_iff_exists.1 (hlive (s := s) (by simp [Call.spaces]))
          rw [hb] at hbook
          refine View.tidy_of_empty (b := { b with regions := ∅, stackBottom := stackTop }) ?_ rfl rfl
          rw [hbook, Function.update_self]
          rfl
      · exact helse (fun b hb => hs hb) (by simp) fun va saved hr => hs hr

theorem Runs.tidy (h : Runs hw l m) (hl : ∀ t ∈ l, ∀ s va, t.call ≠ .remove s va) (s : SpaceId) :
    m.view.Tidy s := by
  induction h generalizing s with
  | boot => exact View.tidy_of_none (by simp [Hardware.boot, view, space?, Machine.boot])
  | @turn l m h c hc ih =>
      refine tidy_turn h.sound h.charted hc (fun s va => ?_) (ih fun t ht => hl t (List.mem_cons_of_mem _ ht)) s
      have hcall := hl _ (List.mem_cons_self ..) s va
      rwa [call_turn] at hcall

/-- The stack of every space is in one piece, whatever failed on the way: its bottom is a page address
within the limit, and every address from there up to the top is on a writable page of the stack. -/
theorem Runs.contiguous_stack (h : Runs hw l m) (hl : ∀ t ∈ l, ∀ s va, t.call ≠ .remove s va) {sp : Space}
    (hs : m.space? s = some sp) :
    isPageAligned sp.stackBottom = true ∧ stackTop - maxStackSize ≤ sp.stackBottom ∧ sp.stackBottom ≤ stackTop ∧
      ∀ va, sp.stackBottom ≤ va → va < stackTop →
        ∃ p, sp.page? va = some p ∧ p.writable = true ∧ p.isStack = true := by
  have hstacked : m.view.Stacked s (fun _ => False) sp.stackBottom := (h.tidy hl s).whole _ (book_eq hs)
  refine ⟨hstacked.aligned, hstacked.limit_le, hstacked.le_top, fun va hle hlt => ?_⟩
  obtain ⟨p, hp, hw, hstack⟩ := hstacked.page (pageBase va) id (pageBase_aligned va)
    (le_pageBase hstacked.aligned hle) (Nat.lt_of_le_of_lt (pageBase_le va) hlt)
  exact ⟨p, (page_eq hs _).symm.trans hp, hw, hstack⟩

def growTooFar : List Call := [.fault ⟨1⟩ 0x7fffe000 0x7fffe000 true true true, .newSpace]

/-- What was made of the stack before the extension failed is in one piece. -/
theorem contiguous_stack_grown_too_far :
    ∃ sp, (Hardware.single.machine growTooFar).space? ⟨1⟩ = some sp ∧ sp.stackBottom = 0x7ffff000 ∧
      ∀ va, sp.stackBottom ≤ va → va < stackTop →
        ∃ p, sp.page? va = some p ∧ p.writable = true ∧ p.isStack = true := by
  have hrun : Runs .single (Hardware.single.turns growTooFar) (Hardware.single.machine growTooFar) :=
    Hardware.runs (l := growTooFar) .single (by decide +kernel)
  have hremove (t : Turn) (ht : t ∈ Hardware.single.turns growTooFar) (s : SpaceId) (va : Addr) :
      t.call ≠ .remove s va := by
    intro hcall
    have hmem := Hardware.call_of_mem_turns ht
    simp [hcall, growTooFar] at hmem
  have hbottom : ((Hardware.single.machine growTooFar).space? ⟨1⟩).map (·.stackBottom) = some 0x7ffff000 := by
    decide +kernel
  obtain ⟨sp, hsp, hb⟩ := Option.map_eq_some_iff.1 hbottom
  exact ⟨sp, hsp, hb, (hrun.contiguous_stack hremove hsp).2.2.2⟩

end DemandPaging
