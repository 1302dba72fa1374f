import DemandPaging.Proofs.Contiguous
import DemandPaging.Proofs.Growing

namespace DemandPaging

open Function (update)
open Step Machine

variable {hw : Hardware} {l : List Turn} {m n : Machine} {t : Turn} {c : Call} {s : SpaceId} {esp addr : Addr}
  {user write notPresent : Bool} {sp : Space}

theorem bottom_turn {b : Book} (h : m.Sound) (hcharted : Charted l m.view)
    (hc : ∀ s ∈ c.spaces, (m.space? s).isSome) (hgrows : ¬ c.Grows s) (hb : (c.turn m).after.view.book s = some b) :
    b.stackBottom = stackTop ∨ ∃ s' b', m.view.book s' = some b' ∧ b'.stackBottom = b.stackBottom := by
  have hlive {s : SpaceId} (hs : s ∈ c.spaces) : (m.view.book s).isSome := Call.live hc hs
  have hsame {b' : Book} (hb' : m.view.book s = some b') (heq : b'.stackBottom = b.stackBottom) :
      b.stackBottom = stackTop ∨ ∃ s' b', m.view.book s' = some b' ∧ b'.stackBottom = b.stackBottom :=
    .inr ⟨s, b', hb', heq⟩
  have hsame' (hbook : (c.turn m).after.view.book s = m.view.book s) :
      b.stackBottom = stackTop ∨ ∃ s' b', m.view.book s' = some b' ∧ b'.stackBottom = b.stackBottom :=
    hsame (hbook ▸ hb) rfl
  have helse (hbooks : ∀ b, ¬ c.Books m.view s b) (hd : c ≠ .dropSpace s) :
      b.stackBottom = stackTop ∨ ∃ s' b', m.view.book s' = some b' ∧ b'.stackBottom = b.stackBottom := by
    rcases book_turn h hc hbooks hd with hbook | hbook
    · exact hsame' hbook
    · obtain rfl := Option.some.inj (hb.symm.trans hbook)
      exact .inl rfl
  -- Besides growth, only a fork writes where a stack ends, and it takes that from the parent.
  cases c with
  | newSpace | register | claim | newFile | limitFile | overwrite | setFaults | remove =>
      exact helse (fun _ => id) (by simp)
  | dropSpace s' =>
      by_cases hs : s = s'
      · subst hs
        rw [(fair_dropSpace h s).2] at hb
        cases hb
      · exact helse (fun _ => id) (by rintro ⟨⟩; exact hs rfl)
  | destroy s' =>
      by_cases hs : s = s'
      · subst hs
        rw [book_destroy h (hlive (List.mem_singleton_self s))] at hb
        obtain ⟨b', -, rfl⟩ := Option.map_eq_some_iff.1 hb
        exact .inl rfl
      · exact helse (fun _ hb => hs hb) (by simp)
  | read s' | write s' | fault s' | handle s' | startStack s' =>
      exact helse (fun b hb => hgrows hb.1) (by simp)
  | saveStack s' esp =>
      by_cases hs : s = s'
      · subst hs
        rw [book_saveStack h (hlive (List.mem_singleton_self s)) esp] at hb
        dsimp only at hb
        rw [Function.update_self] at hb
        obtain ⟨b', hb', rfl⟩ := Option.map_eq_some_iff.1 hb
        exact hsame hb' rfl
      · exact helse (fun b hb => hs hb.1) (by simp)
  | segment s' =>
      by_cases hs : s = s'
      · subst hs
        exact hsame' (by rw [book_segment h (hlive (List.mem_singleton_self s))])
      · exact helse (fun b hb => hs hb.1) (by simp)
  | map s' addr len wr hd offset =>
      by_cases hs : s = s'
      · subst hs
        rcases book_map h (hlive (List.mem_singleton_self s)) addr len wr hd offset with hbook | ⟨b', g, hb', hbook⟩
        · exact hsame' (by rw [hbook])
        · rw [hbook, Function.update_self] at hb
          exact hsame hb' (by rw [← Option.some.inj hb])
      · exact helse (fun b hb => hs hb.1) (by simp)
  | unmap s' addr =>
      by_cases hs : s = s'
      · subst hs
        rw [book_unmap h (hlive (List.mem_singleton_self s)) addr fun g hg => hcharted.region hg,
          Function.update_self] at hb
        obtain ⟨b', hb', rfl⟩ := Option.map_eq_some_iff.1 hb
        exact hsame hb' rfl
      · exact helse (fun b hb => hs hb.1) (by simp)
  | fork child parent =>
      by_cases hs : s = child
      · subst hs
        rcases fork_turn h (hlive (s := s) (by simp [Call.spaces])) (hlive (s := parent) (by simp [Call.spaces]))
          (hcharted.bounded parent) with ⟨-, -, hforked⟩ | ⟨-, -, -, hbook⟩
        · obtain ⟨b', opened, hb', -, hbook⟩ := hforked.book
          rw [hbook, Function.update_self] at hb
          exact .inr ⟨parent, b', hb', by rw [← Option.some.inj hb]⟩
        · rw [hbook, Function.update_self] at hb
          obtain ⟨b', -, rfl⟩ := Option.map_eq_some_iff.1 hb
          exact .inl rfl
      · exact helse (fun b hb => hs hb) (by simp)

theorem View.Stacked.elsewhere {v w : View} {bottom : Addr} {s' : SpaceId} (h : v.Stacked s' (fun _ => True) bottom) :
    w.Stacked s (fun _ => True) bottom :=
  ⟨h.aligned, h.limit_le, h.le_top, fun _ hva => absurd trivial hva⟩

/-- Whatever pages were removed, every stack ends at a page address between the limit and the top. -/
theorem Runs.bottoms (h : Runs hw l m) (s : SpaceId) : m.view.Whole s fun _ => True := by
  induction h generalizing s with
  | boot =>
      intro b hb
      have hnone : hw.boot.view.book s = none := by simp [Hardware.boot, view, space?, Machine.boot]
      cases hnone.symm.trans hb
  | @turn l m h c hc ih =>
      by_cases hgrows : c.Grows s
      · refine whole_turn h.sound (Call.live hc ?_) hgrows (ih s)
        cases c with
        | read | write | fault | handle | startStack =>
            obtain rfl : s = _ := hgrows
            exact List.mem_singleton_self s
        | _ => exact hgrows.elim
      · intro b hb
        rcases bottom_turn h.sound h.charted hc hgrows hb with htop | ⟨s', b', hb', heq⟩
        · rw [htop]
          exact View.stacked_top _ s _
        · rw [← heq]
          exact (ih s' b' hb').elsewhere

namespace Vm

theorem yields_growth (h : m.Sound) (hs : m.space? s = some sp) (ha : isPageAligned sp.stackBottom = true)
    (htop : sp.stackBottom ≤ stackTop) (hlimit : stackLimit ≤ addr) (hlt : addr < sp.stackBottom) :
    Yields (extendStack s (pagesFor (sp.stackBottom - pageBase addr)) >>= fun _ => makeResident s addr) m
      (fun _ n => m.view.Lengthened s sp.book (pageBase addr) n.view ∧ n.view.Resident s addr)
      (Failing fun e n => ∃ va, isPageAligned va = true ∧ pageBase addr ≤ va ∧ va < sp.stackBottom ∧
        m.view.Lengthened s sp.book (va + pageSize) n.view ∧ m.Obstructs s va e) := by
  have hroom := pagesFor_room hlimit sp.stackBottom
  have hend : sp.stackBottom - pagesFor (sp.stackBottom - pageBase addr) * pageSize = pageBase addr :=
    sub_pagesFor ha hlt
  have hne : pagesFor (sp.stackBottom - pageBase addr) ≠ 0 := by
    intro hzero
    rw [hzero, Nat.zero_mul, Nat.sub_zero] at hend
    exact absurd (hend ▸ pageBase_le addr) (Nat.not_le.2 hlt)
  refine (yields_extendStack_exact h (book_eq hs) ha htop _ hroom).bind ?_ ?_
  · rintro _ u ⟨hu, hres⟩
    rw [show sp.book.stackBottom - _ = pageBase addr from hend] at hu hres
    have hres : u.view.Resident s addr := by
      have hres := hres (.inl hne)
      rwa [View.Resident, pageBase_pageBase] at hres
    obtain ⟨su, hsu⟩ := space?_of_book (m := u) (s := s) (by rw [hu.book, Function.update_self]; rfl)
    refine (yields_makeResident_of_resident hsu hres).mono ?_ fun _ _ => False.elim
    rintro _ _ rfl
    exact ⟨hu, hres⟩
  · refine fun e n hn => hn.mono ?_
    rintro e ⟨va, hva, hle, hlt, hn, hwhy⟩
    refine ⟨va, hva, ?_, hlt, hn, hwhy⟩
    rw [← hend]
    exact Nat.sub_le_iff_le_add.2 hle

end Vm

/-- What a fault at `addr` comes to: whether it is refused, is a claim of the page that is there, or extends the stack
from where it ended down to the page that is asked for, or to the page above the one that cannot be added. -/
structure Decided (t : Turn) (s : SpaceId) (sp : Space) (esp addr : Addr) (user write notPresent : Bool) : Prop where
  refused : Improper user notPresent addr ∨ sp.page? addr = none ∧ ¬ NearStack addr (sp.stackPointer esp) →
    t.answer = .error (.error (.badAddress addr)) ∧ t.after = t.before.tell (.faulted s addr write)
  claimed : ¬ Improper user notPresent addr → (sp.page? addr).isSome →
    t.answer = ((Call.claim s addr).turn (t.before.tell (.faulted s addr write))).answer ∧
      t.after = ((Call.claim s addr).turn (t.before.tell (.faulted s addr write))).after
  missing : ¬ Improper user notPresent addr → sp.page? addr = none → NearStack addr (sp.stackPointer esp) →
    sp.stackBottom ≤ addr → t.answer = .error (.error (.badAddress (pageBase addr))) ∧
      t.after = t.before.tell (.faulted s addr write)
  grown : ¬ Improper user notPresent addr → sp.page? addr = none → NearStack addr (sp.stackPointer esp) →
    addr < sp.stackBottom →
      t.answer = .ok .done ∧ t.before.view.Lengthened s sp.book (pageBase addr) t.after.view ∧
          t.after.view.Resident s addr ∨
        ∃ e va, t.answer = .error (.error e) ∧ isPageAligned va = true ∧ pageBase addr ≤ va ∧ va < sp.stackBottom ∧
          t.before.view.Lengthened s sp.book (va + pageSize) t.after.view ∧ t.before.Obstructs s va e

theorem decided_turn (h : m.Sound) (hs : m.space? s = some sp) (ha : isPageAligned sp.stackBottom = true)
    (htop : sp.stackBottom ≤ stackTop) :
    Decided ((Call.fault s esp addr user write notPresent).turn m) s sp esp addr user write notPresent := by
  have htold : (m.tell (.faulted s addr write)).Sound :=
    ((Leads.refl h.consistent).tell Act.quiet_quiet _).sound h
  have hstold : (m.tell (.faulted s addr write)).space? s = some sp := hs
  have hturn {K : Turn → Prop} (hK : Yields (Vm.resolveFault s esp addr user write notPresent) m
      (fun _ n => K ⟨.fault s esp addr user write notPresent, m, .ok .done, n⟩)
      fun e n => K ⟨.fault s esp addr user write notPresent, m, .error e, n⟩) :
      K ((Call.fault s esp addr user write notPresent).turn m) :=
    Call.turn_cases K (yields_bind.2 hK)
  have hgrow {K : Unit → Machine → Prop} {E : Stop → Machine → Prop} (hproper : ¬ Improper user notPresent addr)
      (hp : sp.page? addr = none) (hnear : NearStack addr (sp.stackPointer esp))
      (hK : Yields (Vm.extendStack s (pagesFor (sp.stackBottom - pageBase addr)) >>= fun _ => Vm.makeResident s addr)
        (m.tell (.faulted s addr write)) K E) : Yields (Vm.resolveFault s esp addr user write notPresent) m K E := by
    rw [Vm.yields_resolveFault_proper hs hproper, hp, if_neg (by simp), if_pos (touchesStack_iff.2 hnear)]
    exact hK
  constructor
  · intro hrefused
    refine hturn (K := fun t => t.answer = _ ∧ t.after = t.before.tell _) ?_
    by_cases himproper : Improper user notPresent addr
    · exact (Vm.yields_resolveFault_improper himproper).2 ⟨rfl, rfl⟩
    · obtain ⟨hp, hfar⟩ := hrefused.resolve_left himproper
      rw [Vm.yields_resolveFault_proper hs himproper, hp, if_neg (by simp), if_neg (mt touchesStack_iff.1 hfar)]
      exact ⟨rfl, rfl⟩
  · intro hproper hp
    rw [before_turn]
    generalize hu : (Call.claim s addr).turn (m.tell (.faulted s addr write)) = u
    refine hturn (K := fun t => t.answer = u.answer ∧ t.after = u.after) ?_
    rw [Vm.yields_resolveFault_proper hs hproper, if_pos hp, ← hu]
    unfold Call.turn Call.exec
    rw [EStateM.run_bind]
    unfold Yields
    cases (Vm.makeResident s addr).run (m.tell (.faulted s addr write)) <;> exact ⟨rfl, rfl⟩
  · intro hproper hp hnear hle
    refine hturn (K := fun t => t.answer = _ ∧ t.after = t.before.tell _) (hgrow hproper hp hnear ?_)
    rw [pagesFor_eq_zero ha hle]
    refine yields_bind.2 (yields_pure.2 ?_)
    unfold Vm.makeResident
    dsimp only
    rw [yields_bind, Vm.yields_space hstold, Space.page?, pageBase_pageBase, ← Space.page?, hp]
    exact ⟨rfl, rfl⟩
  · intro hproper hp hnear hlt
    refine hturn (K := fun t => t.answer = .ok .done ∧ t.before.view.Lengthened s sp.book (pageBase addr) t.after.view ∧
      t.after.view.Resident s addr ∨ ∃ e va, t.answer = .error (.error e) ∧ isPageAligned va = true ∧
        pageBase addr ≤ va ∧ va < sp.stackBottom ∧
        t.before.view.Lengthened s sp.book (va + pageSize) t.after.view ∧ t.before.Obstructs s va e)
      (hgrow hproper hp hnear ((Vm.yields_growth htold hstold ha htop hnear.2.1 hlt).mono ?_ ?_))
    · exact fun _ n hn => .inl ⟨rfl, hn.1.before rfl rfl, hn.2⟩
    · intro e n hn
      obtain ⟨e, rfl, va, hva, hle, hlt, hn, hwhy⟩ := hn.error
      exact .inr ⟨e, va, rfl, hva, hle, hlt, hn.before rfl rfl,
        hwhy.before ((Makes.refl h.consistent).tell _) (.of_page rfl) id⟩

/-- Every fault of every run is refused, answered as a claim of the page that is there, or met by an extension of the
stack, as the access, the address and the pages that are there decide. -/
theorem Runs.fault_decided (h : Runs hw (t :: l) m) (hcall : t.call = .fault s esp addr user write notPresent)
    (hs : t.before.space? s = some sp) : Decided t s sp esp addr user write notPresent := by
  obtain ⟨n, rfl, rfl, hn, -⟩ := h.last hcall
  rw [before_turn] at hs
  have hstacked := hn.bottoms s _ (book_eq hs)
  exact decided_turn hn.sound hs hstacked.aligned hstacked.le_top

/-- The stack is extended by the page for which there is a frame, and no further. -/
theorem fault_decided_of_too_few_frames :
    ∃ sp e va, (Hardware.single.machine [.newSpace]).space? ⟨1⟩ = some sp ∧
      ((Call.fault ⟨1⟩ 0x7fffe000 0x7fffe000 true true true).turn (Hardware.single.machine [.newSpace])).answer =
        .error (.error e) ∧ 0x7fffe000 ≤ va ∧ va < stackTop ∧
      (Hardware.single.machine [.newSpace]).view.Lengthened ⟨1⟩ sp.book (va + pageSize)
        (Hardware.single.machine growTooFar).view ∧
      (Hardware.single.machine [.newSpace]).Obstructs ⟨1⟩ va e := by
  have hrun : Runs .single (Hardware.single.turns growTooFar) (Hardware.single.machine growTooFar) :=
    Hardware.runs (l := growTooFar) .single (by decide +kernel)
  have hspace : ((Hardware.single.machine [.newSpace]).space? ⟨1⟩).map
      (fun sp => (sp.stackBottom, (sp.page? 0x7fffe000).isNone)) = some (stackTop, true) := by decide +kernel
  obtain ⟨sp, hsp, hmap⟩ := Option.map_eq_some_iff.1 hspace
  obtain ⟨hbottom, hnone⟩ := Prod.mk.injEq .. ▸ hmap
  have hdecided := hrun.fault_decided (call_turn ..) (by rwa [before_turn])
  have hproper : ¬ Improper true true 0x7fffe000 := by
    simp [Improper, kernelBase]
  have hnear : NearStack 0x7fffe000 (sp.stackPointer 0x7fffe000) := by
    rw [Space.stackPointer, if_neg (by decide)]
    exact ⟨by decide, by decide, by decide⟩
  rcases hdecided.grown hproper (Option.isNone_iff_eq_none.1 hnone) hnear (by rw [hbottom]; decide) with
    ⟨hok, -⟩ | ⟨e, va, he, -, hle, hlt, hgrown, hwhy⟩
  · have hfails : Turn.succeeds ((Call.fault ⟨1⟩ 0x7fffe000 0x7fffe000 true true true).turn
        (Hardware.single.machine [.newSpace])) = false := by decide +kernel
    simp [Turn.succeeds, hok] at hfails
  · rw [before_turn] at hgrown hwhy
    exact ⟨sp, e, va, hsp, he, hle, hbottom ▸ hlt, hgrown, hwhy⟩

end DemandPaging
