import DemandPaging.Proofs.Coping

namespace DemandPaging

open Step Machine

variable {hw : Hardware} {l : List Turn} {m n : Machine} {c : Call} {t : Turn} {s : SpaceId} {p : Page}
  {α : Type} {x : Vm α} {f : α → Answer}

def Answer.failure? : Answer → Option PagingError
  | copied c => c.failure
  | done | space _ | address _ | resolved _ | file _ | count _ => none

def Turn.Starves (t : Turn) : Prop :=
  match t.answer with
  | .ok x => ∃ e, x.failure? = some e ∧ e.isScarce = true
  | .error e => e.isScarce = true

/-- A turn that makes no device fail, drops no space with pages in it, leaves only pages that are or will
be anonymous and whose fillings do not fail, and has at most `k` pages at every moment. -/
structure Turn.Modest (k : Nat) (t : Turn) : Prop where
  harmless : ∀ faults, t.call = .setFaults faults → faults.Harmless
  tidy : t.Tidy
  mild : t.after.view.Mild
  few : ∀ S ∈ t.before.moments t.after, S.card ≤ k

structure Turn.Thrives (t : Turn) : Prop where
  fed : ¬ t.Starves
  claim : ∀ s va, t.call = .claim s va → (t.before.page? ⟨s, pageBase va⟩).isSome → t.succeeds = true
  read : ∀ s va len, t.call = .read s va len → va < wordLimit →
    (∀ i < len, (t.before.page? ⟨s, pageBase (va + i)⟩).isSome) → t.readsAll = true
  write : ∀ s va data, t.call = .write s va data → va < wordLimit →
    (∀ i < data.size, ∃ p, t.before.page? ⟨s, pageBase (va + i)⟩ = some p ∧ p.writable = true) →
      t.succeeds = true
  startStack : ∀ s, t.call = .startStack s → t.before.page? ⟨s, stackTop - pageSize⟩ = none →
    t.succeeds = true
  fork : ∀ child parent, t.call = .fork child parent → (∀ va, t.before.page? ⟨child, va⟩ = none) →
    t.succeeds = true

section

variable {k : Nat} (hpos : 0 < hw.frames) (hle : hw.frames ≤ 2 ^ 20) (hdisk : hw.disk.Reliable)
  (h : Runs hw l m) (hl : ∀ t ∈ l, t.Modest k)
include hpos hle hdisk h hl

theorem Runs.ample : m.Ample := by
  have hsize : m.frames.pool.size = hw.frames := h.pool_size
  have hmild : m.view.Mild := by
    cases h with
    | boot =>
        intro r p hp
        rw [page_boot] at hp
        cases hp
    | turn => exact (hl _ (List.mem_cons_self ..)).mild
  exact ⟨h.sound, h.not_pinned, h.recorded fun t ht => (hl t ht).tidy, h.housed fun t ht => (hl t ht).tidy, hmild,
    (h.swap hdisk fun t ht => (hl t ht).harmless).2, hsize ▸ hpos, hsize ▸ hle⟩

omit hpos hle in
theorem Runs.room : m.room = hw.frames + hw.disk.size / sectorsPerPage := by
  rw [Machine.room, h.pool_size, (h.swap hdisk fun t ht => (hl t ht).harmless).1]

end

theorem fed_of_yields (hexec : c.exec = x >>= fun a => pure (f a)) (hf : ∀ a, (f a).failure? = none)
    (hx : Yields x m (fun _ _ => True) fun e n => m.Overfull n ∨ e.isScarce = false) :
    m.Overfull (c.turn m).after ∨ ¬ (c.turn m).Starves := by
  apply Call.turn_cases (fun t => m.Overfull t.after ∨ ¬ t.Starves)
  rw [hexec]
  refine hx.bind (fun a n _ => yields_pure.2 (.inr ?_)) fun e n he => he.imp_right fun hscarce => ?_
  · rintro ⟨e, he, -⟩
    rw [hf] at he
    cases he
  · exact Bool.eq_false_iff.1 hscarce

theorem fed_of_plain (hexec : c.exec = x >>= fun a => pure (f a)) (hf : ∀ a, (f a).failure? = none) (hx : Plain x) :
    m.Overfull (c.turn m).after ∨ ¬ (c.turn m).Starves :=
  fed_of_yields hexec hf ((hx.yields m).mono (fun _ _ => id) fun _ _ => .inr)

theorem succeeds_of_yields (hexec : c.exec = x >>= fun a => pure (f a))
    (hx : Yields x m (fun _ _ => True) fun _ n => m.Overfull n) :
    m.Overfull (c.turn m).after ∨ (c.turn m).succeeds = true := by
  apply Call.turn_cases (fun t => m.Overfull t.after ∨ t.succeeds = true)
  rw [hexec]
  exact hx.bind (fun _ _ _ => yields_pure.2 (.inr rfl)) fun _ _ => .inl

section

variable (h : m.Ample) (hs : (m.view.book s).isSome)
include h hs

theorem fed_remove (va : Addr) :
    m.Overfull ((Call.remove s va).turn m).after ∨ ¬ ((Call.remove s va).turn m).Starves := by
  refine fed_of_yields rfl (fun _ => rfl) ((Vm.yields_remove h.sound hs va).mono (fun _ _ _ => trivial) ?_)
  intro e n he
  obtain ⟨e, rfl, -, -, -, -, -, rfl | ⟨p, hp, hk⟩⟩ := he.error
  · exact .inr rfl
  · have hkind := (h.mild _ p hp).finalKind
    rw [Page.finalKind_eq_kind (by simp [hk]), hk] at hkind
    cases hkind

/-- A read is cut short only where there is no page. -/
theorem fed_read (va len : Nat) :
    m.Overfull ((Call.read s va len).turn m).after ∨ ¬ ((Call.read s va len).turn m).Starves := by
  refine Call.turn_cases (fun t => m.Overfull t.after ∨ ¬ t.Starves)
    ((Vm.yields_copyOut h.sound hs va len).bind ?_ fun _ _ => False.elim)
  rintro cp n ⟨-, next, -, -, hfail, -⟩
  refine yields_pure.2 (.inr ?_)
  rintro ⟨e, he, hscarce⟩
  rw [hfail e he] at hscarce
  cases hscarce

theorem fed_write (va : Nat) (data : Array UInt8) :
    m.Overfull ((Call.write s va data).turn m).after ∨ ¬ ((Call.write s va data).turn m).Starves := by
  refine fed_of_yields rfl (fun _ => rfl) ((Vm.yields_copyIn h.sound hs va data).mono (fun _ _ _ => trivial) ?_)
  intro e n he
  obtain ⟨e, rfl, -, -, -, rfl⟩ := he.error
  exact .inr rfl

end

/-- Whatever is called, nothing is lacking unless there are too many pages. -/
theorem fed_turn (h : m.Ample) (hc : ∀ s ∈ c.spaces, (m.space? s).isSome) :
    m.Overfull (c.turn m).after ∨ ¬ (c.turn m).Starves := by
  have hlive {s : SpaceId} (hs : s ∈ c.spaces) : (m.view.book s).isSome := Call.live hc hs
  have hone {s : SpaceId} (hs : c.spaces = [s]) : (m.view.book s).isSome :=
    hlive (hs ▸ List.mem_singleton_self s)
  have hstart : m.Copes m := .refl h
  cases c with
  | newSpace => exact fed_of_plain rfl (fun _ => rfl) (plain_modifyGet _)
  | dropSpace => exact fed_of_plain rfl (fun _ => rfl) (plain_modify _)
  | register => exact fed_of_plain rfl (fun _ => rfl) (Vm.plain_register ..)
  | claim s va =>
      exact fed_of_yields rfl (fun _ => rfl) ((Vm.copes_makeResident hstart (hone rfl) va).mono
        (fun _ _ _ => trivial) fun _ _ => Or.imp_right And.right)
  | remove s va => exact fed_remove h (hone rfl) va
  | destroy s => exact fed_of_plain rfl (fun _ => rfl) (Vm.plain_destroy s)
  | read s va len => exact fed_read h (hone rfl) va len
  | write s va data => exact fed_write h (hone rfl) va data
  | saveStack => exact fed_of_plain rfl (fun _ => rfl) (plain_modify _)
  | fault s =>
      exact fed_of_yields rfl (fun _ => rfl) ((Vm.copes_resolveFault hstart (hone rfl) ..).mono
        (fun _ _ _ => trivial) fun _ _ => Or.imp_right And.left)
  | handle s =>
      exact fed_of_yields rfl (fun _ => rfl) ((Vm.yields_onFault h.sound (hone rfl) ..).mono
        (fun _ _ _ => trivial) fun _ _ => False.elim)
  | map => exact fed_of_plain rfl (fun _ => rfl) (Vm.plain_addMapping ..)
  | unmap => exact fed_of_plain rfl (fun _ => rfl) (Vm.plain_removeMapping ..)
  | segment => exact fed_of_plain rfl (fun _ => rfl) (Vm.plain_addSegment ..)
  | startStack s =>
      exact fed_of_yields rfl (fun _ => rfl) ((Vm.copes_startStack hstart (hone rfl)).mono
        (fun _ _ => id) fun _ _ => Or.imp_right And.right)
  | fork child parent =>
      exact fed_of_yields rfl (fun _ => rfl) ((Vm.copes_fork h (hlive (by simp [Call.spaces]))
        (hlive (by simp [Call.spaces]))).mono (fun _ _ => id) fun _ _ => Or.imp_right And.right)
  | newFile => exact fed_of_plain rfl (fun _ => rfl) (plain_modifyGet _)
  | limitFile => exact fed_of_plain rfl (fun _ => rfl) (plain_get.bind fun _ => plain_modify _)
  | overwrite =>
      exact fed_of_plain rfl (fun _ => rfl)
        (plain_get.bind fun _ => (plain_modify _).bind fun _ => plain_pure _)
  | setFaults =>
      exact fed_of_yields (x := Vm.setFaults _) rfl (fun _ => rfl) (Vm.yields_onSwap.2 (yields_modify.2 trivial))

section

variable (h : m.Ample) (hs : (m.view.book s).isSome)
include h hs

theorem claim_succeeds (va : Addr) (hp : (m.page? ⟨s, pageBase va⟩).isSome) :
    m.Overfull ((Call.claim s va).turn m).after ∨ ((Call.claim s va).turn m).succeeds = true :=
  succeeds_of_yields rfl ((Vm.copes_claim (.refl h) hs va hp).mono (fun _ _ _ => trivial) fun _ _ => id)

theorem read_succeeds (va len : Nat) (hva : va < wordLimit)
    (hp : ∀ i < len, (m.page? ⟨s, pageBase (va + i)⟩).isSome) :
    m.Overfull ((Call.read s va len).turn m).after ∨ ((Call.read s va len).turn m).readsAll = true := by
  have hadmits (i : Nat) (hi : i < len) : m.view.Admits ⟨s, pageBase (va + i)⟩ false := by
    obtain ⟨p, hp⟩ := Option.isSome_iff_exists.1 (hp i hi)
    exact ⟨p, hp, nofun⟩
  refine Call.turn_cases (fun t => m.Overfull t.after ∨ t.readsAll = true)
    ((Vm.copes_copyOut (.refl h) hs va len hva hadmits).bind ?_ fun _ _ => .inl)
  rintro cp n (hnone | hover)
  · refine yields_pure.2 (.inr ?_)
    change cp.failure.isNone = true
    rw [hnone]
    rfl
  · exact yields_pure.2 (.inl hover)

theorem write_succeeds (va : Nat) (data : Array UInt8) (hva : va < wordLimit)
    (hp : ∀ i < data.size, ∃ p, m.page? ⟨s, pageBase (va + i)⟩ = some p ∧ p.writable = true) :
    m.Overfull ((Call.write s va data).turn m).after ∨ ((Call.write s va data).turn m).succeeds = true := by
  refine succeeds_of_yields rfl (Vm.copes_copyIn (.refl h) hs va data hva fun i hi => ?_)
  obtain ⟨p, hp, hw⟩ := hp i hi
  exact ⟨p, hp, fun _ => hw⟩

theorem startStack_succeeds (hp : m.page? ⟨s, stackTop - pageSize⟩ = none) :
    m.Overfull ((Call.startStack s).turn m).after ∨ ((Call.startStack s).turn m).succeeds = true := by
  refine succeeds_of_yields rfl ((Vm.copes_startStack (.refl h) hs).mono (fun _ _ => id) fun e n he => ?_)
  refine he.resolve_right fun ⟨hpresent, _⟩ => ?_
  change (m.page? _).isSome at hpresent
  rw [hp] at hpresent
  cases hpresent

end

theorem fork_succeeds {child parent : SpaceId} (h : m.Ample) (hc : (m.view.book child).isSome)
    (hp : (m.view.book parent).isSome) (hnone : ∀ va, m.page? ⟨child, va⟩ = none) :
    m.Overfull ((Call.fork child parent).turn m).after ∨ ((Call.fork child parent).turn m).succeeds = true := by
  refine succeeds_of_yields rfl ((Vm.copes_fork h hc hp).mono (fun _ _ => id) fun e n he => ?_)
  refine he.resolve_right fun ⟨⟨va, hpresent⟩, _⟩ => ?_
  change (m.page? _).isSome at hpresent
  rw [hnone] at hpresent
  cases hpresent

/-- Unless there are too many pages at some moment, what can be done is done. -/
theorem thrives_turn (h : m.Ample) (hc : ∀ s ∈ c.spaces, (m.space? s).isSome)
    (hfew : ¬ m.Overfull (c.turn m).after) : (c.turn m).Thrives := by
  have hlive {s : SpaceId} (hs : s ∈ c.spaces) : (m.view.book s).isSome := Call.live hc hs
  refine ⟨(fed_turn h hc).resolve_left hfew, ?_, ?_, ?_, ?_, ?_⟩ <;> rw [call_turn, before_turn]
  · rintro s va rfl hp
    exact (claim_succeeds h (hlive (List.mem_singleton_self s)) va hp).resolve_left hfew
  · rintro s va len rfl hva hp
    exact (read_succeeds h (hlive (List.mem_singleton_self s)) va len hva hp).resolve_left hfew
  · rintro s va data rfl hva hp
    exact (write_succeeds h (hlive (List.mem_singleton_self s)) va data hva hp).resolve_left hfew
  · rintro s rfl hp
    exact (startStack_succeeds h (hlive (List.mem_singleton_self s)) hp).resolve_left hfew
  · rintro child parent rfl hp
    exact (fork_succeeds h (hlive (by simp [Call.spaces])) (hlive (by simp [Call.spaces])) hp).resolve_left hfew

/-- With `n` frames and `c` slots on a device that never fails, nothing is ever lacking as long as there are
no more than `n + c - 1` pages, all anonymous. A slot has to be left over: a page goes out before the slot
of the one that comes in is given back. -/
theorem Runs.plenty (h : Runs hw l m) (hpos : 0 < hw.frames) (hle : hw.frames ≤ 2 ^ 20) (hdisk : hw.disk.Reliable)
    (hl : ∀ t ∈ l, t.Modest (hw.frames + hw.disk.size / sectorsPerPage - 1)) : ∀ t ∈ l, t.Thrives := by
  induction h with
  | boot => exact List.forall_mem_nil _
  | @turn l m h c hc ih =>
      have hrest := fun t ht => hl t (List.mem_cons_of_mem _ ht)
      refine List.forall_mem_cons.2 ⟨thrives_turn (h.ample hpos hle hdisk hrest) hc ?_, ih hrest⟩
      rintro ⟨S, hS, hcard⟩
      have hfew := (hl _ (List.mem_cons_self ..)).few
      rw [before_turn] at hfew
      rw [h.room hdisk hrest] at hcard
      exact absurd (hcard.trans (hfew S hS)) (Nat.not_le.2 (Nat.sub_one_lt (Nat.add_pos_left hpos _).ne'))

/-- Whatever has to go out for it, a claim makes no page come or go. -/
theorem claim_modest {k : Nat} (h : m.Ample) (hs : (m.view.book s).isSome) (va : Addr)
    (hk : m.registered.card ≤ k) : ((Call.claim s va).turn m).Modest k := by
  have hafter : m.Still ((Call.claim s va).turn m).after ∧ ((Call.claim s va).turn m).after.view.Mild := by
    refine Call.turn_cases (fun t => m.Still t.after ∧ t.after.view.Mild)
      (((Vm.steady_makeResident (steady_still (fun _ => True) m) (fun _ => trivial) s va).and (.refl m)
        (Vm.yields_makeResident h.sound hs va)).bind ?_ ?_)
    · rintro _ n ⟨⟨hn, -⟩, hstill⟩
      exact yields_pure.2 ⟨hstill, ((Copes.refl h).tame hn (fun _ ha => ha.tame) hstill).ample.mild⟩
    · rintro e n ⟨hn, hstill⟩
      obtain ⟨e, rfl, hn, -⟩ := hn.error
      exact ⟨hstill, ((Copes.refl h).tame hn (fun _ ha => ha.tame) hstill).ample.mild⟩
  have hcall : ((Call.claim s va).turn m).call = .claim s va := call_turn ..
  refine ⟨?_, ?_, hafter.2, ?_⟩
  · rw [hcall]
    nofun
  · intro s' sp heq
    cases hcall.symm.trans heq
  · rw [before_turn]
    intro S hS
    rwa [hafter.1.moments hS]

def twoPages : List Call := .register ⟨1⟩ 0x2000 true .anon none :: claimOne

def claimSecond : Turn := (Call.claim ⟨1⟩ 0x2000).turn (Hardware.small.machine twoPages)

/-- The page in the only frame makes room for the one that is claimed. -/
theorem plenty_claims_second_page : claimSecond.before.frames.freeFrames = 0 ∧ claimSecond.succeeds = true := by
  have hrun : Runs .small (Hardware.small.turns twoPages) (Hardware.small.machine twoPages) :=
    Hardware.small.runs (by decide +kernel)
  have hdisk : Hardware.small.disk.Reliable := ⟨by decide +kernel, fun _ _ => rfl, fun _ _ => rfl⟩
  have hpos : 0 < Hardware.small.frames := by decide
  have hle : Hardware.small.frames ≤ 2 ^ 20 := by decide
  have hbound : Hardware.small.frames + Hardware.small.disk.size / sectorsPerPage - 1 = 2 := by decide
  have hplain : ∀ t ∈ Hardware.small.turns twoPages, (∀ x ∈ t.after.allPages, x.2.isPlain = true) ∧
      ∀ S ∈ t.before.moments t.after, S.card ≤ 2 := by
    decide +kernel
  have hmodest : ∀ t ∈ Hardware.small.turns twoPages, t.Modest 2 := by
    intro t ht
    have hcall := Hardware.call_of_mem_turns ht
    refine ⟨?_, ?_, ?_, (hplain t ht).2⟩
    · intro faults heq
      simp [heq, twoPages, claimOne] at hcall
    · intro s sp heq
      simp [heq, twoPages, claimOne] at hcall
    · intro r p hp
      exact docile_of_isPlain ((hplain t ht).1 (r, p) (mem_allPages.2 hp))
  have hlive : ((Hardware.small.machine twoPages).space? ⟨1⟩).isSome := by decide +kernel
  have hlast : claimSecond.Modest 2 :=
    claim_modest (hrun.ample hpos hle hdisk hmodest) (by rwa [← space?_isSome]) _ (by decide +kernel)
  have hruns : Runs .small (claimSecond :: Hardware.small.turns twoPages) claimSecond.after :=
    hrun.turn (.claim ⟨1⟩ 0x2000) fun s hs => by rwa [List.mem_singleton.1 hs]
  have hthrives : ∀ t ∈ claimSecond :: Hardware.small.turns twoPages, t.Thrives :=
    hruns.plenty hpos hle hdisk (hbound.symm ▸ List.forall_mem_cons.2 ⟨hlast, hmodest⟩)
  have hbefore : claimSecond.before = Hardware.small.machine twoPages := before_turn ..
  constructor
  · rw [hbefore]
    decide +kernel
  · apply (hthrives _ (List.mem_cons_self ..)).claim _ _ (call_turn ..)
    rw [hbefore]
    decide +kernel

end DemandPaging
