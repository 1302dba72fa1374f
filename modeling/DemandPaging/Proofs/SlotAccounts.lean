import DemandPaging.Proofs.Runs

namespace DemandPaging

open Function (update)
open Step Machine

variable {hw : Hardware} {l : List Turn} {m n : Machine} {s : SpaceId} {sp : Space} {va : Addr}
  {v w : View} {a : Act} {P : Act → Prop} {c : Call} {t : Turn} {r : PageRef} {p : Page} {k : Slot}

namespace View

def Recorded (v : View) : Prop := ∀ k, v.used k = true → ∃ r p, v.page r = some p ∧ p.slot? = some k

/-- A slot is lost only with a space that is dropped while it has pages. -/
theorem Step.recorded (h : v.Step a w) (hv : v.used k = true → ∃ r p, v.page r = some p ∧ p.slot? = some k)
    (hd : ∀ s, a = .dropped s → ∀ va, v.page ⟨s, va⟩ = none) (hk : w.used k = true) :
    ∃ r p, w.page r = some p ∧ p.slot? = some k := by
  have hsame (r : PageRef) (p : Page) (hp : v.page r = some p) (hpk : p.slot? = some k)
      (hw : w.page r = v.page r) : ∃ r p, w.page r = some p ∧ p.slot? = some k :=
    ⟨r, p, hw.trans hp, hpk⟩
  cases h with
  | @swapped f r p k' stack l hp hs =>
      by_cases hkk : k = k'
      · subst hkk
        exact ⟨r, _, Function.update_self .., rfl⟩
      · obtain ⟨r', p', hp', hpk⟩ := hv (by simpa [Function.update_of_ne hkk] using hk)
        refine hsame r' p' hp' hpk (Function.update_of_ne ?_ ..)
        rintro rfl
        rw [hp] at hp'
        cases hp'
        simp [Page.slot?, hs] at hpk
  | @discarded f r p b l hp hs =>
      obtain ⟨r', p', hp', hpk⟩ := hv hk
      refine hsame r' p' hp' hpk (Function.update_of_ne ?_ ..)
      rintro rfl
      rw [hp] at hp'
      cases hp'
      simp [Page.slot?, hs] at hpk
  | @loaded f r p c hp | @removed r p saved hp =>
      simp only [usedWithout, Bool.and_eq_true, decide_eq_true_eq] at hk
      obtain ⟨r', p', hp', hpk⟩ := hv hk.1
      refine hsame r' p' hp' hpk (Function.update_of_ne ?_ ..)
      rintro rfl
      rw [hp] at hp'
      cases hp'
      exact hk.2 hpk
  | @added r w' purpose filling hp =>
      obtain ⟨r', p', hp', hpk⟩ := hv hk
      refine hsame r' p' hp' hpk (Function.update_of_ne ?_ ..)
      rintro rfl
      rw [hp] at hp'
      cases hp'
  | dropped s =>
      obtain ⟨r', p', hp', hpk⟩ := hv hk
      refine hsame r' p' hp' hpk (if_neg ?_)
      rintro rfl
      rw [hd _ rfl] at hp'
      cases hp'
  | _ =>
      obtain ⟨r', p', hp', hpk⟩ := hv hk
      exact hsame r' p' hp' hpk rfl

end View

def Turn.Tidy (t : Turn) : Prop :=
  ∀ s sp, t.call = .dropSpace s → t.before.space? s = some sp → sp.pages.isEmpty = true

theorem page_eq_none_of_isEmpty (h : ∀ sp, m.space? s = some sp → sp.pages.isEmpty = true) (va : Addr) :
    m.view.page ⟨s, va⟩ = none := by
  cases hs : m.space? s with
  | none => simp [view, hs]
  | some sp => exact (pages_eq_empty_iff hs).1 (Std.ExtTreeMap.isEmpty_iff.1 (h sp hs)) va

theorem Turn.Fair.keeps {I : View → Prop} (h : t.Fair) (ht : t.Tidy) (hI : I t.before.view)
    (hstep : ∀ {v w a}, v.Step a w → (∀ s, a = .dropped s → ∀ va, v.page ⟨s, va⟩ = none) → I v → I w) :
    I t.after.view := by
  have hnone (s : SpaceId) (hs : t.call = .dropSpace s) (va : Addr) :
      t.before.view.page ⟨s, va⟩ = none :=
    page_eq_none_of_isEmpty (fun sp hsp => ht s sp hs hsp) va
  refine (h.leads.path.keeps (I := fun w => I w ∧
    ∀ s, t.call = .dropSpace s → ∀ va, w.page ⟨s, va⟩ = none) ⟨hI, hnone⟩ fun {v w a} ha hs hw => ?_).1
  refine ⟨hstep hs (fun s heq => ?_) hw.1, fun s hcall va => ?_⟩
  · rw [heq] at ha
    exact hw.2 s ha
  · refine hs.absent (fun p heq => ?_) (hw.2 s hcall va)
    rw [heq] at ha
    obtain ⟨-, hreg⟩ := ha
    rw [hcall] at hreg
    exact hreg

theorem Turn.Fair.recorded (h : t.Fair) (ht : t.Tidy) (hv : t.before.view.Recorded) :
    t.after.view.Recorded :=
  h.keeps ht hv fun hs hd hv k => hs.recorded (hv k) hd

/-- Every used slot is recorded by a page, as long as no space is dropped with pages in it. -/
theorem Runs.recorded (h : Runs hw l m) (hl : ∀ t ∈ l, t.Tidy) : m.view.Recorded := by
  induction h with
  | boot =>
      intro k hk
      change SwapArea.holds (.ofDisk hw.disk) k = true at hk
      rw [SwapArea.holds_ofDisk] at hk
      cases hk
  | turn h c hc ih =>
      refine (fair h.sound hc).recorded (hl _ (List.mem_cons_self ..)) ?_
      rw [before_turn]
      exact ih fun t ht => hl t (List.mem_cons_of_mem _ ht)

/-- A turn that registers no page whose filling itself says the page is nowhere to be found. -/
def Turn.Honest (t : Turn) : Prop :=
  ∀ s va w purpose run e, t.call = .register s va w purpose (some (.custom run)) →
    (run (Buffer.zero _)).failure = some e → e.isMissing = false

theorem not_blames_of_registers (ht : t.Honest) (h : ∀ r p, v.page r = some p → ¬ p.Blames)
    (hreg : t.call.Registers v r p) : ¬ p.Blames := by
  rintro ⟨run, purpose, e, hst, he, hm⟩
  cases hc : t.call with
  | register s va w purpose' filling =>
      rw [hc] at hreg
      obtain ⟨rfl, rfl⟩ := hreg
      cases hst
      rw [ht _ _ _ _ _ _ hc he] at hm
      cases hm
  | read | write | fault | handle | startStack =>
      rw [hc] at hreg
      obtain ⟨-, rfl⟩ := hreg
      cases hst
  | map =>
      rw [hc] at hreg
      obtain ⟨-, serial, j, -, rfl⟩ := hreg
      cases hst
  | segment =>
      rw [hc] at hreg
      obtain ⟨-, j, -, rfl⟩ := hreg
      cases hst
  | fork child parent =>
      rw [hc] at hreg
      obtain ⟨-, hinh⟩ := hreg
      cases hinh with
      | lazy hq hs hp | lazyFile b' hq hs =>
          cases hst
          exact h _ _ hq ⟨run, _, e, hs, he, hm⟩
      | anon | file | reloaded => cases hst
  | _ =>
      rw [hc] at hreg
      exact hreg

theorem Runs.not_blames (h : Runs hw l m) (hl : ∀ t ∈ l, t.Honest) (r : PageRef) (p : Page)
    (hp : m.view.page r = some p) : ¬ p.Blames := by
  induction h generalizing r p with
  | boot =>
      rw [page_boot] at hp
      cases hp
  | turn h c hc ih =>
      intro hb
      have ih := ih fun t ht => hl t (List.mem_cons_of_mem _ ht)
      rcases (path_turn h.sound hc).untouched hp (by obtain ⟨run, purpose, e, hst, -⟩ := hb; simp [Page.kind, hst]) with
        hp | ⟨-, hreg⟩
      · exact ih r p hp hb
      · rw [before_turn] at hreg
        exact not_blames_of_registers (hl _ (List.mem_cons_self ..)) ih hreg hb

/-- No call answers that a page is nowhere to be found. -/
theorem Runs.not_misses (h : Runs hw l m) (hl : ∀ t ∈ l, t.Honest) : ∀ t ∈ l, ¬ t.Misses := by
  induction h with
  | boot => exact fun t ht => absurd ht List.not_mem_nil
  | turn h c hc ih =>
      have hrest (t : Turn) (ht : t ∈ _) : t.Honest := hl t (List.mem_cons_of_mem _ ht)
      intro t ht
      rcases List.mem_cons.1 ht with rfl | ht
      · intro hm
        obtain ⟨r, p, hp, hb⟩ := (fair h.sound hc).misses hm
        rw [before_turn] at hp
        exact h.not_blames hrest r p hp hb
      · exact ih hrest t ht

namespace Machine

def allPages (m : Machine) : List (PageRef × Page) :=
  m.spaces.toList.flatMap fun x => x.2.pages.toList.map fun y => (⟨⟨x.1⟩, y.1⟩, y.2)

theorem mem_allPages : (r, p) ∈ m.allPages ↔ m.view.page r = some p := by
  obtain ⟨⟨i⟩, va⟩ := r
  simp only [allPages, List.mem_flatMap, List.mem_map, Prod.exists, Prod.mk.injEq, PageRef.mk.injEq,
    SpaceId.mk.injEq, Std.ExtTreeMap.mem_toList_iff_getElem?_eq_some]
  constructor
  · rintro ⟨j, sp, hs, a, q, hq, ⟨rfl, rfl⟩, rfl⟩
    rw [page_eq (s := ⟨j⟩) hs, hq]
  · intro hp
    obtain ⟨sp, hs⟩ := Machine.space?_of_page hp
    rw [page_eq hs] at hp
    exact ⟨i, sp, hs, va, p, hp, ⟨rfl, rfl⟩, rfl⟩

theorem nodup_allPages (m : Machine) : (m.allPages.map (·.1)).Nodup := by
  unfold allPages List.Nodup
  rw [List.map_flatMap, List.pairwise_flatMap]
  refine ⟨fun x _ => ?_, ?_⟩
  · rw [List.map_map, List.pairwise_map]
    refine x.2.pairwise_pages.imp fun hne heq => hne ?_
    simpa using heq
  · refine Std.ExtTreeMap.distinct_keys_toList.imp fun hne r hr r' hr' heq => hne ?_
    simp only [List.map_map, List.mem_map] at hr hr'
    obtain ⟨y, -, rfl⟩ := hr
    obtain ⟨y', -, rfl⟩ := hr'
    simpa using congrArg (·.space.number) heq

def evicted (m : Machine) : List (PageRef × Page) :=
  m.allPages.filter fun x => x.2.kind = .anon && !x.2.isResident

end Machine

theorem Page.kind_of_slot (h : p.slot? = some k) : p.kind = .anon := by
  obtain ⟨_, _, _ | _ | _⟩ := p <;> simp [slot?, kind] at h ⊢

theorem Page.slot?_isSome_iff (h : View.Apt p) :
    p.slot?.isSome ↔ (p.kind = .anon ∧ p.isResident = false) := by
  obtain ⟨w, f, st⟩ := p
  cases st with
  | anon slot stack =>
      rw [View.Apt] at h
      cases slot <;> cases f <;> simp [slot?, kind, isResident] at h ⊢
  | untouched | file => simp [slot?, kind]

namespace Machine

def usedSlots (m : Machine) : List Slot := ((List.range m.swap.used.len).filter m.swap.used.bit).map Slot.mk

theorem nodup_usedSlots (m : Machine) : m.usedSlots.Nodup :=
  (List.nodup_range.filter _).map fun _ _ => Slot.mk.inj

theorem Sound.mem_usedSlots (h : m.Sound) : k ∈ m.usedSlots ↔ m.view.used k = true := by
  simp only [usedSlots, List.mem_map, List.mem_filter, List.mem_range]
  constructor
  · rintro ⟨i, hi, rfl⟩
    exact hi.2
  · exact fun hk => ⟨k.index, ⟨h.consistent.swap.lt_of_holds hk, hk⟩, rfl⟩

theorem Sound.usedCount_eq_length (h : m.Sound) {ks : List Slot} (hnodup : ks.Nodup)
    (hmem : ∀ k, k ∈ ks ↔ m.view.used k = true) : m.swap.usedCount = ks.length := by
  have hperm : m.usedSlots.Perm ks :=
    (List.perm_ext_iff_of_nodup m.nodup_usedSlots hnodup).2 fun k => h.mem_usedSlots.trans (hmem k).symm
  rw [SwapArea.usedCount, h.consistent.swap.trim.count_true, List.countP_eq_length_filter, ← hperm.length_eq,
    usedSlots, List.length_map]

def evictedSlots (m : Machine) : List Slot := m.evicted.filterMap (·.2.slot?)

theorem Sound.length_evictedSlots (h : m.Sound) : m.evictedSlots.length = m.evicted.length := by
  rw [evictedSlots, List.length_filterMap_eq_countP, List.countP_eq_length]
  intro x hx
  obtain ⟨hmem, hx⟩ := List.mem_filter.1 hx
  simp only [Bool.and_eq_true, decide_eq_true_eq, Bool.not_eq_true'] at hx
  exact (Page.slot?_isSome_iff (h.coherent.apt (mem_allPages.1 hmem))).2 hx

theorem Sound.mem_evictedSlots (h : m.Sound) :
    k ∈ m.evictedSlots ↔ ∃ r p, m.view.page r = some p ∧ p.slot? = some k := by
  rw [evictedSlots, List.mem_filterMap]
  constructor
  · rintro ⟨⟨r, p⟩, hx, hk⟩
    exact ⟨r, p, mem_allPages.1 (List.mem_filter.1 hx).1, hk⟩
  · rintro ⟨r, p, hp, hpk⟩
    have hout := (Page.slot?_isSome_iff (h.coherent.apt hp)).1 (by rw [hpk]; rfl)
    exact ⟨(r, p), List.mem_filter.2 ⟨mem_allPages.2 hp, by simp [hout]⟩, hpk⟩

theorem Sound.nodup_evictedSlots (h : m.Sound) : m.evictedSlots.Nodup := by
  unfold evictedSlots List.Nodup
  rw [List.pairwise_filterMap]
  have hrefs : (m.evicted.map (·.1)).Nodup := m.nodup_allPages.sublist (List.filter_sublist.map _)
  rw [List.Nodup, List.pairwise_map] at hrefs
  refine hrefs.imp_of_mem fun {x y} hx hy hne j hj k hk heq => hne ?_
  exact h.coherent.slot_inj (mem_allPages.1 (List.mem_filter.1 hx).1)
    (mem_allPages.1 (List.mem_filter.1 hy).1) hj (heq ▸ hk)

/-- As many slots are used as pages are out. -/
theorem Sound.usedCount (h : m.Sound) (hr : m.view.Recorded) : m.swap.usedCount = m.evicted.length := by
  rw [h.usedCount_eq_length h.nodup_evictedSlots fun k => ?_, h.length_evictedSlots]
  rw [h.mem_evictedSlots]
  exact ⟨fun ⟨r, p, hp, hk⟩ => h.coherent.slot_used hp hk, hr k⟩

end Machine

/-- Slots and pages tell one story: a slot is in use for exactly one page that is out on it. -/
structure SlotAccounts (m : Machine) : Prop where
  used_iff : ∀ k : Slot, m.swap.isUsed k = .ok true ↔ ∃ r p, m.page? r = some p ∧ p.slot? = some k
  unshared : ∀ (r r' : PageRef) (p p' : Page) (k : Slot), m.page? r = some p → m.page? r' = some p' →
    p.slot? = some k → p'.slot? = some k → r = r'
  recorded : ∀ (r : PageRef) (p : Page), m.page? r = some p →
    (p.slot?.isSome = true ↔ p.kind = .anon ∧ p.isResident = false)
  usedCount : m.swap.usedCount = m.evicted.length
  empty : (∀ s sp, m.space? s = some sp → sp.pages.isEmpty = true) → m.swap.usedCount = 0

theorem Machine.Sound.isUsed_iff (h : m.Sound) : m.swap.isUsed k = .ok true ↔ m.view.used k = true := by
  rw [SwapArea.isUsed, Bitmap.get]
  by_cases hlt : k.index < m.swap.used.len
  · rw [if_pos hlt]
    exact ⟨Except.ok.inj, congrArg _⟩
  · rw [if_neg hlt]
    exact ⟨nofun, fun hk => absurd (h.consistent.swap.lt_of_holds hk) hlt⟩

theorem Machine.Sound.slotAccounts (h : m.Sound) (hr : m.view.Recorded) : SlotAccounts m := by
  refine ⟨fun k => ?_, fun r r' p p' k hp hp' hk hk' => h.coherent.slot_inj hp hp' hk hk',
    fun r p hp => Page.slot?_isSome_iff (h.coherent.apt hp), h.usedCount hr, fun hnone => ?_⟩
  · rw [h.isUsed_iff]
    exact ⟨hr k, fun ⟨r, p, hp, hk⟩ => h.coherent.slot_used hp hk⟩
  · rw [h.usedCount hr, List.length_eq_zero_iff, List.eq_nil_iff_forall_not_mem]
    rintro ⟨⟨s, va⟩, p⟩ hx
    have hp := mem_allPages.1 (List.mem_filter.1 hx).1
    rw [page_eq_none_of_isEmpty (hnone s)] at hp
    cases hp

theorem isEmpty_of_page_eq_none (hs : m.space? s = some sp) (hnone : ∀ va, m.view.page ⟨s, va⟩ = none) :
    sp.pages.isEmpty = true := by
  rw [Std.ExtTreeMap.isEmpty_iff]
  refine Std.ExtTreeMap.ext_getElem? fun va => ?_
  rw [← page_eq hs, hnone]
  exact Std.ExtTreeMap.getElem?_empty.symm

/-- A claim that nothing stands in the way of makes the page resident. -/
theorem Machine.Sound.claimed (h : m.Sound) (va : Addr) (hp : m.view.page ⟨s, pageBase va⟩ = some p)
    (hgranted : ¬ Vm.Denied m p) :
    m.Leads (Act.Loads ⟨s, pageBase va⟩) ((Call.claim s va).turn m).after ∧
      ∃ q f, ((Call.claim s va).turn m).after.view.page ⟨s, pageBase va⟩ = some q ∧ q.frame = some f := by
  refine Call.turn_cases (fun t => m.Leads (Act.Loads ⟨s, pageBase va⟩) t.after ∧
    ∃ q f, t.after.view.page ⟨s, pageBase va⟩ = some q ∧ q.frame = some f)
    ((Vm.yields_makeResident h (h.coherent.placed hp).1 va).bind ?_ ?_)
  · rintro _ n ⟨hn, -, hresident⟩
    exact yields_pure.2 ⟨hn, hresident⟩
  · intro e n hn
    obtain ⟨err, rfl, -, -, -, ⟨hnone, -⟩ | ⟨p', hp', hdenied⟩⟩ := hn.error
    · cases hp.symm.trans hnone
    · cases hp.symm.trans hp'
      exact absurd hdenied hgranted

/-- With a single frame, a page is out while another one is in. -/
theorem Machine.Sound.out_of_single {r o : PageRef} {p q : Page} {f : FrameId} (h : m.Sound)
    (hsize : m.frames.pool.size = 1) (hp : m.view.page r = some p) (hf : p.frame = some f)
    (hq : m.view.page o = some q) (ho : o ≠ r) : q.isResident = false := by
  have honly {o : PageRef} {q : Page} {g : FrameId} (hq : m.view.page o = some q) (hg : q.frame = some g) :
      g = ⟨0⟩ := by
    have hheld : m.view.status g = .held := (h.coherent.held_iff g).2 (by rw [h.coherent.resident hq hg]; rfl)
    have hlt := Nat.lt_of_not_le (mt FramePool.status_eq_absent_iff.2 (ne_of_eq_of_ne hheld nofun))
    rw [hsize, Nat.lt_one_iff] at hlt
    exact congrArg FrameId.mk hlt
  cases hg : q.frame with
  | none => rw [Page.isResident, hg]; rfl
  | some g =>
      have howner := h.coherent.resident hq hg
      rw [honly hq hg, ← honly hp hf, h.coherent.resident hp hf] at howner
      exact absurd (Option.some.inj howner).symm ho

/-- With a single frame, a page goes out on a slot for another one that is claimed. -/
theorem Machine.Sound.slot_of_claim {r : PageRef} {p q : Page} (h : m.Sound) (va : Addr)
    (hsize : m.frames.pool.size = 1) (hp : m.view.page r = some p) (hk : p.kind = .anon)
    (hq : m.view.page ⟨s, pageBase va⟩ = some q) (hgranted : ¬ Vm.Denied m q)
    (hne : r ≠ ⟨s, pageBase va⟩) :
    0 < ((Call.claim s va).turn m).after.swap.usedCount := by
  obtain ⟨hn, q', f, hq', hf⟩ := h.claimed va hq hgranted
  have hsound := hn.sound h
  obtain ⟨p', hp', hlike⟩ := hn.path.like hp (by simp [Act.Loads, Act.Quiet]) (by simp [Act.Loads, Act.Quiet])
  have hout := hsound.out_of_single ((hn.pool_size h).trans hsize) hq' hf hp' hne
  have hkind : p'.kind = .anon := (hlike.kind (by simp [hk])).trans hk
  obtain ⟨k, hslot⟩ := Option.isSome_iff_exists.1 ((Page.slot?_isSome_iff (hsound.coherent.apt hp')).2 ⟨hkind, hout⟩)
  have hmem := hsound.mem_usedSlots.2 (hsound.coherent.slot_used hp' hslot)
  rw [hsound.usedCount_eq_length (nodup_usedSlots _) fun _ => hsound.mem_usedSlots]
  exact List.length_pos_of_mem hmem

/-- The accounts of the slots are right after every call of every run that drops no space with
pages in it, no call of such a run misses a page that was put on a slot, and what is destroyed has
no pages. -/
theorem Runs.slot_accounts (h : Runs hw l m) (hl : ∀ t ∈ l, t.Tidy) :
    SlotAccounts m ∧ ((∀ t ∈ l, t.Honest) → ∀ t ∈ l, ¬ t.Misses) ∧
      ∀ s, (m.space? s).isSome = true → ∀ sp, ((Call.destroy s).turn m).after.space? s = some sp →
        sp.pages.isEmpty = true := by
  refine ⟨h.sound.slotAccounts (h.recorded hl), h.not_misses, fun s hs sp hsp => ?_⟩
  rw [space?_isSome] at hs
  exact isEmpty_of_page_eq_none hsp (fair_destroy h.sound hs).2

/-- One page is in the only frame, and another is registered. -/
def claimFirst : List Call :=
  [.register ⟨1⟩ 0x2000 true .anon none, .claim ⟨1⟩ 0x1000,
    .register ⟨1⟩ 0x1000 true .anon (some (.custom fun page => ⟨page, none⟩)), .newSpace]

theorem runs_claimFirst : Runs .small (Hardware.small.turns claimFirst) (Hardware.small.machine claimFirst) :=
  Hardware.runs .small (by decide +kernel)

/-- The frame can be had for the other page: the first is anonymous, and there is a slot for it. -/
theorem claimFirst_grants {q : Page} (hq : (Hardware.small.machine claimFirst).view.page ⟨⟨1⟩, 0x2000⟩ = some q) :
    ¬ Vm.Denied (Hardware.small.machine claimFirst) q := by
  have hdisk := (runs_claimFirst.swap ⟨by decide +kernel, fun _ _ => rfl, fun _ _ => rfl⟩ fun t ht faults hc => by
    simpa [hc, claimFirst] using Hardware.call_of_mem_turns ht).2
  have hrun := runs_claimFirst
  generalize hm : Hardware.small.machine claimFirst = m at hq hdisk hrun ⊢
  have hfacts : m.frames.clock ≠ [] ∧ m.frames.pool.size = 1 ∧ (m.swap.holds ⟨0⟩ = false ∧ 0 < m.swap.capacity) ∧
      (m.view.page ⟨⟨1⟩, 0x2000⟩).map Page.isPlain = some true ∧
      ∀ x ∈ m.allPages, x.2.isResident = true → x.2.kind = .anon := by
    rw [← hm]
    decide +kernel
  obtain ⟨hclock, hsize, ⟨hfree, hcapacity⟩, hplain, hanon⟩ := hfacts
  rw [hq] at hplain
  rintro (⟨-, hstuck⟩ | hindex)
  · rcases hstuck (fun r p f hp hf => hanon (r, p) (mem_allPages.2 hp) (by rw [Page.isResident, hf]; rfl)) hdisk
      with hnil | hfull
    · exact hclock hnil
    · cases hfree.symm.trans (hfull ⟨0⟩ hcapacity)
  · obtain ⟨f, hf, hge⟩ := hindex (docile_of_isPlain (Option.some.inj hplain)).ready hdisk
    exact hf (FramePool.status_eq_absent_iff.2 (by omega))

def claimOther : Turn := (Call.claim ⟨1⟩ 0x2000).turn (Hardware.small.machine claimFirst)

def destroyBoth : Turn := (Call.destroy ⟨1⟩).turn claimOther.after

theorem runs_claimOther : Runs .small (claimOther :: Hardware.small.turns claimFirst) claimOther.after :=
  runs_claimFirst.turn (.claim ⟨1⟩ 0x2000) (Call.live_of_single rfl (by decide +kernel))

theorem claimOther_leads :
    (Hardware.small.machine claimFirst).Leads (Act.Loads ⟨⟨1⟩, 0x2000⟩) claimOther.after := by
  have hother : ((Hardware.small.machine claimFirst).view.page ⟨⟨1⟩, 0x2000⟩).isSome := by decide +kernel
  obtain ⟨q, hq⟩ := Option.isSome_iff_exists.1 hother
  rw [claimOther]
  exact (runs_claimFirst.sound.claimed 0x2000 hq (claimFirst_grants hq)).1

theorem claimOther_uses_slot : 0 < claimOther.after.swap.usedCount := by
  have hfirst : ((Hardware.small.machine claimFirst).view.page ⟨⟨1⟩, 0x1000⟩).map Page.kind = some .anon := by
    decide +kernel
  have hother : ((Hardware.small.machine claimFirst).view.page ⟨⟨1⟩, 0x2000⟩).isSome := by decide +kernel
  obtain ⟨p, hp, hk⟩ := Option.map_eq_some_iff.1 hfirst
  obtain ⟨q, hq⟩ := Option.isSome_iff_exists.1 hother
  rw [claimOther]
  exact runs_claimFirst.sound.slot_of_claim 0x2000 (by decide +kernel) hp hk hq (claimFirst_grants hq) (by decide)

theorem claimOther_lives : (claimOther.after.view.book ⟨1⟩).isSome := by
  rw [claimOther_leads.path.loads_book]
  decide +kernel

theorem runs_destroyBoth :
    Runs .small (destroyBoth :: claimOther :: Hardware.small.turns claimFirst) destroyBoth.after :=
  runs_claimOther.turn (.destroy ⟨1⟩) (Call.live_of_single rfl claimOther_lives)

theorem call_of_mem_destroyBoth {t : Turn} (ht : t ∈ destroyBoth :: claimOther :: Hardware.small.turns claimFirst) :
    t.call ∈ [.destroy ⟨1⟩, .claim ⟨1⟩ 0x2000] ++ claimFirst := by
  rcases List.mem_cons.1 ht with heq | ht
  · simp [heq, destroyBoth, call_turn]
  · rcases List.mem_cons.1 ht with heq | ht
    · simp [heq, claimOther, call_turn]
    · exact List.mem_append_right _ (Hardware.call_of_mem_turns ht)

theorem destroyBoth_empties (s : SpaceId) (va : Addr) : destroyBoth.after.view.page ⟨s, va⟩ = none := by
  obtain ⟨hfair, hgone⟩ := fair_destroy runs_claimOther.sound claimOther_lives
  by_cases hone : s = ⟨1⟩
  · exact hone ▸ hgone va
  · have hplaces : ∀ x ∈ (Hardware.small.machine claimFirst).allPages, x.1.space = ⟨1⟩ := by decide +kernel
    have hnone : (Hardware.small.machine claimFirst).view.page ⟨s, va⟩ = none := by
      by_contra hsome
      obtain ⟨x, hx⟩ := Option.ne_none_iff_exists'.1 hsome
      exact hone (hplaces (⟨s, va⟩, x) (mem_allPages.2 hx))
    refine hfair.leads.path.absent (fun x hx => ?_) ?_
    · rw [Turn.May, call_turn] at hx
      exact hx.2
    · rw [before_turn]
      exact claimOther_leads.path.absent (by simp [Act.Loads, Act.Quiet]) hnone

/-- The first page is put on a slot to make room for the other, no call misses it, and once its space is destroyed no
slot is in use. -/
theorem slot_accounts_of_destroy :
    0 < claimOther.after.swap.usedCount ∧ SlotAccounts destroyBoth.after ∧ destroyBoth.after.swap.usedCount = 0 ∧
      ∀ t ∈ destroyBoth :: claimOther :: Hardware.small.turns claimFirst, ¬ t.Misses := by
  obtain ⟨haccounts, hmisses, -⟩ := runs_destroyBoth.slot_accounts fun t ht s sp hc => by
    simpa [hc, claimFirst] using call_of_mem_destroyBoth ht
  refine ⟨claimOther_uses_slot, haccounts,
    haccounts.empty fun s sp hs => isEmpty_of_page_eq_none hs (destroyBoth_empties s), hmisses ?_⟩
  intro t ht s va w purpose run e hc hfail
  have hcall := call_of_mem_destroyBoth ht
  rw [hc] at hcall
  simp only [claimFirst, List.cons_append, List.nil_append, List.mem_cons, List.not_mem_nil, reduceCtorEq,
    Call.register.injEq, Option.some.injEq, Filling.custom.injEq, and_false, false_or, or_false] at hcall
  rw [hcall.2.2.2.2] at hfail
  cases hfail

end DemandPaging
