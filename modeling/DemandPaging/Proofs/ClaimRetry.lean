import DemandPaging.Proofs.FlatMemory
import DemandPaging.Proofs.Growing
import DemandPaging.Proofs.OneToOne
import DemandPaging.Proofs.SlotAccounts

namespace DemandPaging

open Function (update)
open Step Machine

variable {hw : Hardware} {k l : List Turn} {m n : Machine} {t u : Turn} {s : SpaceId} {va : Addr} {r : PageRef}
  {p : Page} {c : Contents}

/-- Nothing is in the way of a claim of the page `p` at `r`: it is registered, what it is to be read from can be read,
and unless it has a frame there is one to be had that a page table can name. -/
structure Machine.Permits (m : Machine) (r : PageRef) (p : Page) : Prop where
  page : m.page? r = some p
  ready : m.view.Ready p
  device : p.slot?.isSome → m.swap.disk.Reliable
  frame : p.frame = none → ∃ f n, Vm.acquire.run m = .ok f n ∧ f.index < 0x100000

theorem Vm.makeResident_of_permits (h : m.Sound) (hp : m.Permits ⟨s, pageBase va⟩ p) :
    Yields (makeResident s va) m (fun _ _ => True) fun _ _ => False := by
  have hpage : m.view.page ⟨s, pageBase va⟩ = some p := hp.page
  obtain ⟨sp, hsp⟩ := space?_of_page hpage
  unfold makeResident
  dsimp only
  rw [yields_bind, yields_space hsp, Space.page?, pageBase_pageBase, ← page_eq hsp, hpage]
  dsimp only
  unfold Page.isResident
  cases hf : p.frame with
  | some f => exact yields_pure.2 trivial
  | none =>
      obtain ⟨f, n, hrun, hlt⟩ := hp.frame hf
      -- What is evicted for the frame may fill slots, but the device is no less reliable for it.
      obtain ⟨⟨hn, hz⟩, hswap⟩ := ((steady_acquire (steady_swap _ m.swap) fun _ => trivial).and (.refl _)
        (yields_acquire_grants h)).of_ok hrun
      have hpn : n.view.page ⟨s, pageBase va⟩ = some p := by
        rw [hn.path.page_eq, hpage]
        rw [hpage]
        rintro _ ⟨⟩
        exact hf
      refine yields_bind.2 (yields_of_ok hrun (yields_bind.2
        ((yields_bringIn (hn.toGoes.sound h) hpn hf hn.status_eq hz).attempt ?_ ?_)))
      · rintro _ u ⟨hu, -, v, c, -, -, hstatus, -, hview⟩
        have hpin : u.view.status f = .pinned := by rw [hview, hstatus, hn.status_eq]
        exact (yields_install hu hpin ⟨s, pageBase va⟩).mono (fun _ _ _ => trivial) fun _ _ => id
      · rintro e u ⟨-, -, -, hindex⟩
        have hready : n.view.Ready p := hp.ready.congr (hn.path.file_same (by simp [Act.Quiet]))
        exact absurd hlt (Nat.not_lt.2 (hindex hready fun hk => hswap.disk.reliable (hp.device hk)))

/-- A failed claim of the page at `r` left it and its slot as they were, lost no frame, and did nothing to any page
but to put it elsewhere. -/
structure Unclaimed (m n : Machine) (r : PageRef) : Prop where
  page : n.page? r = m.page? r
  frame : ∀ p, m.page? r = some p → p.frame = none
  unmapped : ∀ sp, n.space? r.space = some sp → sp.table.isMapped r.va = false
  slot : ∀ p i, m.page? r = some p → p.slot? = some i →
    n.swap.isUsed i = .ok true ∧ n.swap.pageOf i = m.swap.pageOf i
  frames : n.frames.freeFrames + n.frames.clock.length = m.frames.freeFrames + m.frames.clock.length
  stays : ∀ o p, m.page? o = some p → ∃ q, n.page? o = some q ∧ p.Stays q
  absent : ∀ o, m.page? o = none → n.page? o = none
  cell : ∀ o p, m.page? o = some p → p.kind = .anon → n.view.cell o = m.view.cell o

theorem unclaimed_of_leads (h : m.Sound) (hpin : ∀ f, m.view.status f ≠ .pinned) (hn : m.Leads Act.Quiet n)
    (ha : isPageAligned r.va = true) (hout : ∀ p, m.view.page r = some p → p.frame = none) : Unclaimed m n r := by
  have hsound := hn.sound h
  have hpin' (f : FrameId) : n.view.status f ≠ .pinned := by
    rw [Ne, hn.pinned]
    exact hpin f
  have habsent (o : PageRef) (ho : m.view.page o = none) : n.view.page o = none := by
    rw [hn.path.absent (by simp [Act.Quiet]) ho]
  have hpage : n.view.page r = m.view.page r := by
    cases hp : m.view.page r with
    | none => exact habsent r hp
    | some p => exact hn.path.kept hp (hout p hp) (by simp [Act.Quiet]) (by simp [Act.Quiet]) (by simp [Act.Quiet])
  have hcell {o : PageRef} {p : Page} (hp : m.view.page o = some p) (hk : p.kind = .anon) :
      n.view.cell o = m.view.cell o :=
    (hn.path.cell_eq h.coherent (fun _ ha => ha.spares o) hp hk).1
  refine ⟨hpage, hout, fun sp hsp => ?_, fun p i hp hi => ?_, ?_, fun o p hp => ?_, habsent,
    fun o p hp hk => hcell hp hk⟩
  · rw [← Bool.not_eq_true]
    intro hmapped
    obtain ⟨x, p, -, hp, hf, -⟩ := page_of_mapped hsound.coherent hsp hmapped
    have hpr : m.view.page r = some p := by
      rw [← hpage, page_eq hsp, ← hp, Space.page?, pageBase_of_aligned ha]
    rw [hout p hpr] at hf
    cases hf
  · have hpn : n.view.page r = some p := hpage.trans hp
    have hk := Page.kind_of_slot hi
    refine ⟨hsound.isUsed_iff.2 (hsound.coherent.slot_used hpn hi), ?_⟩
    have hsame := hcell hp hk
    rw [View.cell_of_slot hpn (hout p hp) hi, View.cell_of_slot (show m.view.page r = some p from hp) (hout p hp) hi]
      at hsame
    exact Option.some.inj hsame
  · rw [(hsound.oneToOne hpin').total, (h.oneToOne hpin).total, hn.pool_size h]
  · exact hn.path.quiet_stays h.coherent hp

/-- What an anonymous page holds stays as it is over turns that do not remove the page and store nothing in it. -/
theorem Runs.cell_kept (h : Runs hw (k ++ t :: l) m) (hp : t.after.view.page r = some p) (hk : p.kind = .anon)
    (hc : t.after.view.cell r = some c)
    (hkeep : ∀ x ∈ k, (x.after.page? r).isSome ∧ ∀ i < pageSize, x.stored? r i = none) :
    ∃ q, m.view.page r = some q ∧ q.kind = .anon ∧ m.view.cell r = some c := by
  induction k generalizing m with
  | nil =>
      cases h
      exact ⟨p, hp, hk, hc⟩
  | cons x k ih =>
      rw [List.cons_append] at h
      cases h with
      | @turn _ n h c hlive =>
          obtain ⟨q, hq, hqk, hqc⟩ := ih h fun x hx => hkeep x (List.mem_cons_of_mem _ hx)
          obtain ⟨hstays, hstored⟩ := hkeep _ (List.mem_cons_self ..)
          obtain ⟨o, ho⟩ := Option.isSome_iff_exists.1 hstays
          have hl := leaves_of_present h.sound hlive ho
          have hpath := path_turn h.sound hlive
          obtain ⟨y, hy, hxy⟩ := hpath.cell_changes h.sound.coherent hl hq hqk hqc
          obtain ⟨o', ho', hok⟩ := hpath.kind_eq hl hq (by simp [hqk])
          refine ⟨o', ho', hok.trans hqk, ?_⟩
          rw [hy]
          refine congrArg some (Vector.ext fun i hi => ?_)
          exact (hxy i hi).resolve_right (by simp [hstored i hi])

theorem unclaimed_turn (h : m.Sound) (hs : (m.view.book s).isSome) (hpin : ∀ f, m.view.status f ≠ .pinned)
    (hfails : ((Call.claim s va).turn m).succeeds = false) :
    (∃ e, ((Call.claim s va).turn m).answer = .error (.error e)) ∧
      Unclaimed m ((Call.claim s va).turn m).after ⟨s, pageBase va⟩ := by
  obtain ⟨sp, hsp⟩ := space?_of_book hs
  refine Call.turn_cases (c := .claim s va) (m := m) (fun t => t.succeeds = false →
    (∃ e, t.answer = .error (.error e)) ∧ Unclaimed m t.after ⟨s, pageBase va⟩) ?_ hfails
  by_cases hres : m.view.Resident s va
  · exact (Vm.yields_makeResident_of_resident hsp hres).bind (fun _ _ _ => yields_pure.2 nofun) fun _ _ => False.elim
  · refine (Vm.yields_makeResident h hs va).bind (fun _ _ _ => yields_pure.2 nofun) fun e n hn _ => ?_
    obtain ⟨e, rfl, hn, -⟩ := hn.error
    refine ⟨⟨e, rfl⟩, unclaimed_of_leads h hpin hn (pageBase_aligned va) fun p hp => ?_⟩
    rw [Option.eq_none_iff_forall_ne_some]
    exact fun f hf => hres ⟨p, f, hp, hf⟩

theorem permitted_turn (h : m.Sound) (hp : m.Permits ⟨s, pageBase va⟩ p) :
    ((Call.claim s va).turn m).succeeds = true ∧
      m.Leads (Act.Loads ⟨s, pageBase va⟩) ((Call.claim s va).turn m).after ∧
      ((Call.claim s va).turn m).after.view.Resident s va := by
  have hs : (m.view.book s).isSome := (h.coherent.placed (r := ⟨s, pageBase va⟩) hp.page).1
  exact Call.turn_cases (fun t => t.succeeds = true ∧ m.Leads (Act.Loads ⟨s, pageBase va⟩) t.after ∧
    t.after.view.Resident s va) (((Vm.makeResident_of_permits h hp).and (Vm.yields_makeResident h hs va)).bind
      (fun _ _ hn => yields_pure.2 ⟨rfl, hn.2.1, hn.2.2.2⟩) fun _ _ hn => hn.1.elim)

/-- A claim that fails leaves all as it was. Once nothing is in the way any more, another makes the page resident; if it
was out on a slot, with the bytes that the slot held, unless something was stored in it in between. -/
theorem Runs.failed_claim (h : Runs hw (t :: l) m) (hcall : t.call = .claim s va) (hfails : t.succeeds = false) :
    (∃ e, t.answer = .error (.error e)) ∧ Unclaimed t.before m ⟨s, pageBase va⟩ ∧
      ∀ k u n p, Runs hw (u :: (k ++ t :: l)) n → u.call = .claim s va →
        u.before.Permits ⟨s, pageBase va⟩ p → u.succeeds = true ∧
        ∃ q f, n.page? ⟨s, pageBase va⟩ = some q ∧ q.frame = some f ∧
          ∀ q₀ i, t.before.page? ⟨s, pageBase va⟩ = some q₀ → q₀.slot? = some i →
            (∀ x ∈ k, (x.after.page? ⟨s, pageBase va⟩).isSome ∧
              ∀ j < pageSize, x.stored? ⟨s, pageBase va⟩ j = none) →
            n.view.bytes f = t.before.swap.pageOf i := by
  obtain ⟨m₀, rfl, rfl, h₀, hlive⟩ := h.last hcall
  rw [before_turn]
  obtain ⟨herr, hun⟩ := unclaimed_turn h₀.sound (hlive s (List.mem_singleton_self s)) h₀.not_pinned hfails
  refine ⟨herr, hun, fun k u n p hu hucall hpermits => ?_⟩
  obtain ⟨m₁, rfl, rfl, h₁, -⟩ := hu.last hucall
  rw [before_turn] at hpermits
  obtain ⟨hok, hleads, q, f, hq, hf⟩ := permitted_turn h₁.sound hpermits
  refine ⟨hok, q, f, hq, hf, fun q₀ i hq₀ hi hkeep => ?_⟩
  -- The slot is followed as the cell of its page, which the turns in between and the second claim leave alone.
  have hk := Page.kind_of_slot hi
  have hcell := View.cell_of_slot (show m₀.view.page ⟨s, pageBase va⟩ = some q₀ from hq₀) (hun.frame q₀ hq₀) hi
  rw [← hun.cell _ q₀ hq₀ hk] at hcell
  obtain ⟨q₁, hq₁, hk₁, hcell₁⟩ := h₁.cell_kept (hun.page.trans hq₀) hk hcell hkeep
  have hlast := (hleads.path.cell_eq h₁.sound.coherent (fun _ ha => ha.spares _) hq₁ hk₁).1
  rw [hcell₁, View.cell_of_frame hq hf] at hlast
  exact Option.some.inj hlast

def claimInVain : List Call := [.claim ⟨1⟩ 0x2000, .register ⟨1⟩ 0x2000 true .anon none, .claim ⟨1⟩ 0x1000,
  .register ⟨1⟩ 0x1000 true .anon none, .newSpace]

def makeRoom : List Call := .remove ⟨1⟩ 0x1000 :: claimInVain

theorem failed_claim_for_want_of_frame :
    (∃ e, ((Call.claim ⟨1⟩ 0x2000).turn (Hardware.single.machine claimInVain.tail)).answer = .error (.error e)) ∧
      Unclaimed (Hardware.single.machine claimInVain.tail) (Hardware.single.machine claimInVain) ⟨⟨1⟩, 0x2000⟩ ∧
      ((Call.claim ⟨1⟩ 0x2000).turn (Hardware.single.machine makeRoom)).succeeds = true := by
  have hrun : Runs .single (Hardware.single.turns claimInVain) (Hardware.single.machine claimInVain) :=
    Hardware.runs (l := claimInVain) .single (by decide +kernel)
  have hagain : Runs .single (Hardware.single.turns (.claim ⟨1⟩ 0x2000 :: makeRoom))
      (Hardware.single.machine (.claim ⟨1⟩ 0x2000 :: makeRoom)) :=
    Hardware.runs (l := .claim ⟨1⟩ 0x2000 :: makeRoom) .single (by decide +kernel)
  obtain ⟨herr, hun, hretry⟩ := hrun.failed_claim (call_turn ..) (by decide +kernel)
  rw [before_turn] at hun
  refine ⟨herr, hun, ?_⟩
  have hpage : ((Hardware.single.machine makeRoom).page? ⟨⟨1⟩, 0x2000⟩).map (fun p => (p.isPlain, p.slot?)) =
      some (true, none) := by decide +kernel
  obtain ⟨p, hp, hplain⟩ := Option.map_eq_some_iff.1 hpage
  obtain ⟨hplain, hslot⟩ := Prod.mk.injEq .. ▸ hplain
  have hframe : (Vm.acquire.value? (Hardware.single.machine makeRoom)).map (·.index) = some 0 := by decide +kernel
  obtain ⟨f, hf, hindex⟩ := Option.map_eq_some_iff.1 hframe
  refine (hretry [(Call.remove ⟨1⟩ 0x1000).turn (Hardware.single.machine claimInVain)] _ _ p hagain (call_turn ..) ?_).1
  rw [before_turn]
  exact ⟨hp, (docile_of_isPlain hplain).ready, by simp [hslot], fun _ => ⟨f, _, run_eq_ok hf, by simp [hindex]⟩⟩

end DemandPaging
