import DemandPaging.Fault
import DemandPaging.Proofs.Cells
import DemandPaging.Proofs.Removing

namespace DemandPaging

open Function (update)
open Step Machine

variable {m n u : Machine} {s : SpaceId} {sp : Space} {va : Addr} {f : FrameId} {p : Page} {r : PageRef}
  {a : Act} {v w : View} {P : Act → Prop} {new : Addr → Page → Prop} {undone : Addr → Prop}

def View.regions (v : View) (s : SpaceId) : Std.ExtTreeMap Addr Region :=
  ((v.book s).map (·.regions)).getD ∅

theorem View.regions_eq {b : Book} (h : v.book s = some b) : v.regions s = b.regions := by
  rw [View.regions, h]
  rfl

theorem View.Step.regions_eq {t : SpaceId} (h : v.Step a w) (hb : ∀ b, a = .booked t b → b.regions = v.regions t)
    (hc : a ≠ .created t) (hd : a ≠ .dropped t) : w.regions t = v.regions t := by
  unfold View.regions at hb ⊢
  cases h with
  | @booked t' b hs =>
      by_cases ht : t = t'
      · subst ht
        simpa using hb b rfl
      · simp [Function.update_of_ne ht]
  | created =>
      have ht : t ≠ ⟨v.nextSpace⟩ := fun ht => hc (by rw [ht])
      simp [Function.update_of_ne ht]
  | dropped t' =>
      have ht : t ≠ t' := fun ht => hd (by rw [ht])
      simp [Function.update_of_ne ht]
  | _ => rfl

theorem Act.Loads.spares {o : PageRef} (h : a.Loads o) (r : PageRef) : a.Spares r := by
  rcases h with h | rfl
  · exact h.spares r
  · exact ⟨by simp, by simp, by simp⟩

/-- Acts that make new pages in a space, of the kind `new`, and may take those away again whose
making is `undone`. -/
def Act.Makes (v : View) (s : SpaceId) (new : Addr → Page → Prop) (undone : Addr → Prop) : Act → Prop
  | .quiet => True
  | .booked t b => t = s ∧ b.regions = v.regions s
  | .loaded r => r.space = s
  | .added r p => r.space = s ∧ v.page r = none ∧ new r.va p
  | .removed r _ => r.space = s ∧ v.page r = none ∧ undone r.va
  | .stored .. | .created _ | .dropped _ | .put .. => False

def IsStackPage (_ : Addr) (p : Page) : Prop := p = .lazy true .stack none

def View.Resident (v : View) (s : SpaceId) (addr : Addr) : Prop :=
  ∃ p f, v.page ⟨s, pageBase addr⟩ = some p ∧ p.frame = some f

namespace Machine

def Makes (m : Machine) (s : SpaceId) (new : Addr → Page → Prop) (n : Machine) : Prop :=
  m.Leads (Act.Makes m.view s new fun _ => False) n

def Falters (m : Machine) (s : SpaceId) (new : Addr → Page → Prop) (n : Machine) : Prop :=
  m.Leads (Act.Makes m.view s new fun va => n.view.page ⟨s, va⟩ = none) n

end Machine

theorem Act.Quiet.makes (h : a.Quiet) : a.Makes v s new undone := h ▸ trivial

theorem Act.Loads.makes (h : a.Loads ⟨s, va⟩) : a.Makes v s new undone := by
  rcases h with h | rfl
  · exact h.makes
  · rfl

theorem Act.Adds.makes (ha : a.Adds ⟨s, va⟩ p) (hnone : v.page ⟨s, va⟩ = none) (hnew : new va p) :
    a.Makes v s new undone := by
  rcases ha with ha | rfl
  · exact ha.makes
  · exact ⟨rfl, hnone, hnew⟩

theorem Act.Makes.mono (h : a.Makes v s new undone) {undone' : Addr → Prop}
    (hu : ∀ va, undone va → undone' va) : a.Makes v s new undone' := by
  cases a with
  | removed r saved => exact ⟨h.1, h.2.1, hu _ h.2.2⟩
  | _ => exact h

theorem View.Path.makes_present (h : View.Path (Act.Makes v s new undone) v w)
    (hr : (v.page r).isSome) : (w.page r).isSome := by
  refine h.present (fun saved ha => ?_) nofun hr
  rw [ha.2.1] at hr
  cases hr

theorem View.Path.makes_absent (h : View.Path (Act.Makes v s new undone) v w) (hr : w.page r = none) :
    v.page r = none := by
  cases hv : v.page r with
  | none => rfl
  | some p =>
      have := h.makes_present (r := r) (by rw [hv]; rfl)
      rw [hr] at this
      cases this

theorem View.Path.makes_regions (h : View.Path (Act.Makes v s new undone) v w) : w.regions s = v.regions s := by
  refine h.keeps (I := fun w => w.regions s = v.regions s) rfl fun {v' w' a} ha hs hv => ?_
  rw [hs.regions_eq (fun b heq => ?_) (fun heq => ?_) fun heq => ?_, hv]
  · rw [heq] at ha
    rw [ha.2, hv]
  · rw [heq] at ha
    exact ha
  · rw [heq] at ha
    exact ha

theorem Act.Makes.before (ha : a.Makes w s new undone) {undone' : Addr → Prop}
    (h : View.Path (Act.Makes v s new undone') v w) : a.Makes v s new undone := by
  cases a with
  | added r p => exact ⟨ha.1, h.makes_absent ha.2.1, ha.2.2⟩
  | removed r saved => exact ⟨ha.1, h.makes_absent ha.2.1, ha.2.2⟩
  | booked t b => exact ⟨ha.1, ha.2.trans h.makes_regions⟩
  | _ => exact ha

namespace Machine

theorem Leads.makes (h : m.Leads P n) (hp : ∀ a, P a → a.Makes m.view s new fun _ => False) :
    m.Makes s new n :=
  h.mono hp

theorem Makes.refl (h : m.Consistent) : m.Makes s new m := Leads.refl h

theorem Makes.trans (h : m.Makes s new n) (k : n.Makes s new u) : m.Makes s new u :=
  Leads.trans h (k.mono fun _ ha => ha.before h.path)

theorem Makes.tell (h : m.Makes s new n) (e : Event) : m.Makes s new (n.tell e) :=
  Leads.tell h trivial e

theorem Makes.live (h : m.Makes s new n) {t : SpaceId} (ht : (m.view.book t).isSome) :
    (n.view.book t).isSome :=
  h.path.live (fun ha => ha) ht

theorem Makes.falters (h : m.Makes s new n) : m.Falters s new n :=
  Leads.mono h fun _ ha => ha.mono fun _ => False.elim

theorem Makes.falters_trans (h : m.Makes s new n) (k : n.Falters s new u) : m.Falters s new u :=
  Leads.trans (Leads.mono h fun _ ha => ha.mono fun _ => False.elim)
    (k.mono fun _ ha => ha.before h.path)

theorem Falters.tell (h : m.Falters s new n) (e : Event) : m.Falters s new (n.tell e) :=
  Leads.tell h trivial e

theorem Makes.booked (h : m.Makes s new n) (hs : (m.view.book s).isSome) {g : Space → Space}
    (hp : ∀ sp, (g sp).pages = sp.pages) (ht : ∀ sp, (g sp).table = sp.table)
    (hr : ∀ sp, (g sp).regions = sp.regions) : m.Makes s new (n.withSpace s g) := by
  obtain ⟨sp, hsp⟩ := space?_of_book (h.live hs)
  obtain ⟨hbooked, -⟩ := Machine.booked h.consistent hsp (g := g) hp ht
  refine Leads.trans h (hbooked.mono ?_)
  rintro _ rfl
  refine ⟨rfl, ?_⟩
  rw [← h.path.makes_regions, View.regions, book_eq hsp]
  exact hr sp

end Machine

def Improper (user notPresent : Bool) (addr : Addr) : Prop := user = true ∧ kernelBase ≤ addr ∨ notPresent = false

def Space.stackPointer (sp : Space) (esp : Addr) : Addr := if kernelBase ≤ esp then sp.savedStack else esp

/-- The addresses at which the stack may be in use. -/
def NearStack (addr top : Addr) : Prop := top - stackWord ≤ addr ∧ stackTop - maxStackSize ≤ addr ∧ addr < stackTop

theorem touchesStack_iff {addr top : Addr} : touchesStack addr top = true ↔ NearStack addr top := by
  simp only [touchesStack, Bool.and_eq_true, decide_eq_true_eq, and_assoc]
  rfl

namespace Vm

theorem yields_makeResident_of_resident (hs : m.space? s = some sp) (h : m.view.Resident s addr) :
    Yields (makeResident s addr) m (fun _ n => n = m) fun _ _ => False := by
  obtain ⟨p, f, hp, hf⟩ := h
  unfold makeResident
  dsimp only
  rw [yields_bind, yields_space hs, Space.page?, pageBase_pageBase, ← page_eq hs, hp]
  dsimp only
  unfold Page.isResident
  rw [hf]
  exact yields_pure.2 rfl

theorem yields_addStackPage (h : m.Sound) (hs : (m.view.book s).isSome) (va : Addr)
    (undone : Addr → PagingError → Event) :
    Yields (addStackPage s va undone) m
      (fun _ n => m.Makes s IsStackPage n ∧ n.view.book = m.view.book ∧
        ∃ p, n.view.page ⟨s, pageBase va⟩ = some p ∧ (Page.lazy true .stack none).Like p)
      (Failing fun e n => m.Falters s IsStackPage n ∧ e.isMissing = false ∧ n.view.book = m.view.book) := by
  unfold addStackPage
  refine (yields_register h hs va true .stack none).bind ?_ ?_
  · rintro _ n ⟨-, hnone, hadd, hv⟩
    have hfirst : m.Makes s IsStackPage n := hadd.makes fun _ ha => ha.makes hnone rfl
    refine yields_bind.2 ((yields_makeResident (hfirst.sound h) (hfirst.live hs) va).attempt ?_ ?_)
    · rintro _ u ⟨hu, -⟩
      refine yields_pure.2 ⟨hfirst.trans (hu.makes fun _ ha => ha.makes), ?_, ?_⟩
      · rw [hu.path.loads_book, hv]
      · exact hu.path.like (by rw [hv]; exact Function.update_self ..) (by simp [Act.Loads, Act.Quiet])
          (by simp [Act.Loads, Act.Quiet])
    · rintro e u ⟨hu, -, hmiss, -⟩
      have hsecond : m.Makes s IsStackPage u := hfirst.trans (hu.makes fun _ ha => ha.makes)
      refine yields_bind.2 ((yields_removeAll (hsecond.sound h) (hsecond.live hs) undone [va]).mono
        ?_ fun _ _ => False.elim)
      rintro _ z ⟨hz, hgone, -⟩
      refine yields_fail.2 ⟨Leads.trans (Leads.mono hsecond fun _ ha => ha.mono fun _ => False.elim)
        (hz.mono ?_), ?_, ?_⟩
      · rintro a (ha | ⟨b, hb, saved, rfl, -⟩)
        · exact ha.makes
        · rw [List.mem_singleton.1 hb]
          exact ⟨rfl, hnone, hgone.absent _ ⟨va, List.mem_singleton_self va, rfl⟩⟩
      · cases hm : e.isMissing with
        | false => rfl
        | true =>
            obtain ⟨p, hp, run, purpose, e, hst, -⟩ := hmiss hm
            rw [hv] at hp
            cases (Function.update_self ..).symm.trans hp
            cases hst
      · rw [hz.path.clears_book, hu.path.quiet_book, hv]
  · refine fun e n hn => hn.mono fun e hn => ⟨(hn.1.makes fun _ ha => ha.makes).falters, hn.2.2.1, ?_⟩
    exact hn.1.path.quiet_book

/-- However far the stack is extended, only pages of the stack are new. -/
theorem yields_extendStack (h : m.Sound) (hs : (m.view.book s).isSome) (k : Nat)
    (hroom : ∀ b, m.view.book s = some b → k * pageSize ≤ b.stackBottom) :
    Yields (extendStack s k) m (fun _ u => m.Makes s IsStackPage u)
      (Failing fun e u => m.Falters s IsStackPage u ∧ e.isMissing = false) := by
  induction k generalizing m with
  | zero => exact yields_pure.2 (.refl h.consistent)
  | succ k ih =>
      obtain ⟨sp, hsp⟩ := space?_of_book hs
      have hbook := book_eq hsp
      have hleft : (k + 1) * pageSize ≤ sp.stackBottom := hroom _ hbook
      rw [Nat.add_mul, Nat.one_mul] at hleft
      unfold extendStack
      rw [yields_bind, yields_space hsp, yields_bind, yields_minus, if_pos (by omega)]
      generalize hva : sp.stackBottom - pageSize = va
      refine (yields_addStackPage h hs va _).bind ?_ fun e u hu => hu.mono fun _ hu => ⟨hu.1, hu.2.1⟩
      rintro _ u ⟨hu, hub, -⟩
      obtain ⟨su, hsu⟩ := space?_of_book (hu.live hs)
      have hv := (booked hu.consistent hsu (g := fun x => { x with stackBottom := va })
        (fun _ => rfl) fun _ => rfl).2
      have hgrown : m.Makes s IsStackPage _ :=
        (hu.booked hs (g := fun x => { x with stackBottom := va }) (fun _ => rfl) (fun _ => rfl)
          fun _ => rfl).tell (.stackGrown s va)
      refine yields_bind.2 (yields_modifySpace.2 (yields_bind.2 (yields_emit.2 ?_)))
      refine (ih (hgrown.sound h) (hgrown.live hs) fun b hb => ?_).mono ?_ ?_
      · rw [view_tell, hv] at hb
        cases (Function.update_self ..).symm.trans hb
        rw [← hva]
        exact Nat.le_sub_of_add_le hleft
      · exact fun _ z hz => hgrown.trans hz
      · exact fun e z hz => hz.mono fun e hz => ⟨hgrown.falters_trans hz.1, hz.2⟩

variable {esp addr : Addr} {user write notPresent : Bool} {Q : Unit → Machine → Prop} {E : Stop → Machine → Prop}

theorem yields_resolveFault_improper (h : Improper user notPresent addr) :
    Yields (resolveFault s esp addr user write notPresent) m Q E ↔
      E (.error (.badAddress addr)) (m.tell (.faulted s addr write)) := by
  unfold resolveFault
  rw [yields_bind, yields_emit]
  rcases h with ⟨rfl, hk⟩ | rfl
  · rw [if_pos (by simpa using isKernel_iff.2 hk), yields_fail]
  · split <;> exact yields_fail

theorem notPresent_of_proper (h : ¬ Improper user notPresent addr) : notPresent = true :=
  Bool.ne_false_iff.1 fun hnp => h (.inr hnp)

section

variable (hs : m.space? s = some sp) (h : ¬ Improper user notPresent addr)
include hs h

theorem yields_resolveFault_proper : Yields (resolveFault s esp addr user write notPresent) m Q E ↔
    if (sp.page? addr).isSome then Yields (makeResident s addr) (m.tell (.faulted s addr write)) Q E
    else if touchesStack addr (sp.stackPointer esp) then
      Yields (extendStack s (pagesFor (sp.stackBottom - pageBase addr)) >>= fun _ => makeResident s addr)
        (m.tell (.faulted s addr write)) Q E
    else E (.error (.badAddress addr)) (m.tell (.faulted s addr write)) := by
  have huser : (user && isKernel addr) = false := by
    rw [Bool.and_eq_false_imp]
    exact fun hu => Bool.eq_false_iff.2 fun hk => h (.inl ⟨hu, isKernel_iff.1 hk⟩)
  unfold resolveFault
  rw [yields_bind, yields_emit, if_neg (by rw [huser]; exact Bool.false_ne_true),
    if_neg (by rw [notPresent_of_proper h]; nofun), yields_bind, yields_space (m := m.tell _) hs]
  split
  · exact Iff.rfl
  have htop : (if isKernel esp = true then sp.savedStack else esp) = sp.stackPointer esp := by
    simp only [Space.stackPointer, isKernel, decide_eq_true_eq]
  dsimp only
  rw [htop]
  split
  · exact Iff.rfl
  · exact yields_fail

end

/-- A fault that is resolved leaves its page resident. It was no fault of protection. -/
theorem yields_resolveFault (h : m.Sound) (hs : (m.view.book s).isSome)
    (esp addr : Addr) (user write notPresent : Bool) :
    Yields (resolveFault s esp addr user write notPresent) m
      (fun _ n => m.Makes s IsStackPage n ∧ n.view.Resident s addr ∧ notPresent = true)
      (Failing fun e n => m.Falters s IsStackPage n ∧ (e.isMissing = true →
        ∃ p, m.view.page ⟨s, pageBase addr⟩ = some p ∧ p.Blames)) := by
  obtain ⟨sp, hsp⟩ := space?_of_book hs
  have htold : m.Makes s IsStackPage (m.tell (.faulted s addr write)) :=
    (Makes.refl h.consistent).tell _
  have hlast (u : Machine) (hu : m.Makes s IsStackPage u) (hnp : notPresent = true) :
      Yields (makeResident s addr) u
        (fun _ n => m.Makes s IsStackPage n ∧ n.view.Resident s addr ∧ notPresent = true)
        (Failing fun e n => m.Falters s IsStackPage n ∧ (e.isMissing = true →
          ∃ p, m.view.page ⟨s, pageBase addr⟩ = some p ∧ p.Blames)) := by
    refine (yields_makeResident (hu.sound h) (hu.live hs) addr).mono ?_ ?_
    · rintro _ n ⟨hn, -, hres⟩
      exact ⟨hu.trans (hn.makes fun _ ha => ha.makes), hres, hnp⟩
    · refine fun e n hn => hn.mono fun e ⟨hn, _, hblame, _⟩ => ?_
      refine ⟨(hu.trans (hn.makes fun _ ha => ha.makes)).falters, fun hm => ?_⟩
      obtain ⟨p, hp, hb⟩ := hblame hm
      obtain ⟨run, purpose, e', hst, -⟩ := id hb
      rcases hu.path.untouched hp (by simp [Page.kind, hst]) with hv | hadd
      · exact ⟨p, hv, hb⟩
      · obtain ⟨-, -, rfl⟩ := hadd
        cases hst
  have hsaid : m.Falters s IsStackPage (m.tell (.faulted s addr write)) ∧
      ((PagingError.badAddress addr).isMissing = true → ∃ p, m.view.page ⟨s, pageBase addr⟩ = some p ∧ p.Blames) :=
    ⟨htold.falters, fun he => absurd he Bool.false_ne_true⟩
  by_cases himproper : Improper user notPresent addr
  · exact (yields_resolveFault_improper himproper).2 hsaid
  have hnp := notPresent_of_proper himproper
  rw [yields_resolveFault_proper hsp himproper]
  split
  · exact hlast _ htold hnp
  split
  · refine (yields_extendStack (htold.sound h) (htold.live hs) _ fun b hb => ?_).bind ?_ ?_
    · obtain rfl := Option.some.inj ((book_eq hsp).symm.trans hb)
      exact pagesFor_room (touchesStack_iff.1 ‹_›).2.1 _
    · exact fun _ u hu => hlast u (htold.trans hu) hnp
    · refine fun e u hu => hu.mono fun e hu => ⟨htold.falters_trans hu.1, fun hm => ?_⟩
      rw [hu.2] at hm
      cases hm
  · exact hsaid

theorem yields_onFault (h : m.Sound) (hs : (m.view.book s).isSome)
    (esp addr : Addr) (user write notPresent : Bool) :
    Yields (onFault s esp addr user write notPresent) m
      (fun b n => m.Falters s IsStackPage n ∧
        (b = true → m.Makes s IsStackPage n ∧ n.view.Resident s addr ∧ notPresent = true))
      fun _ _ => False := by
  unfold onFault
  refine yields_bind.2 ((yields_resolveFault h hs esp addr user write notPresent).attempt ?_ ?_)
  · exact fun _ n hn => yields_pure.2 ⟨hn.1.falters, fun _ => hn⟩
  · exact fun e n hn => yields_bind.2 (yields_emit.2 (yields_pure.2 ⟨hn.1.tell _, nofun⟩))

theorem yields_startStack (h : m.Sound) (hs : (m.view.book s).isSome) :
    Yields (startStack s) m (fun _ n => m.Makes s IsStackPage n)
      (Failing fun e n => m.Falters s IsStackPage n ∧ e.isMissing = false) := by
  unfold startStack
  dsimp only
  generalize stackTop - pageSize = va
  refine (yields_addStackPage h hs va _).bind ?_ fun e u hu => hu.mono fun _ hu => ⟨hu.1, hu.2.1⟩
  rintro _ u ⟨hu, -⟩
  exact yields_bind.2 (yields_modifySpace.2 (yields_pure.2 (hu.booked hs (fun _ => rfl) (fun _ => rfl) fun _ => rfl)))

end Vm

end DemandPaging
