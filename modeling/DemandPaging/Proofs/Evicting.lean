import DemandPaging.Proofs.Saving

namespace DemandPaging

open Function (update)
open Step Machine

variable {m n u : Machine} {f : FrameId} {o : PageRef} {p : Page} {e : PagingError} {l : List FrameId}

def View.without (v : View) (f : FrameId) (spared left : List FrameId) : View := { v.spare spared with
  clock := left
  owner := update v.owner f none }

namespace Vm

/-- What becomes of a machine when frame `f` is reclaimed. The frame is pinned; its page, if the page's space is still
there, is saved and out of it. -/
inductive Reclaims (m : Machine) (f : FrameId) (n : Machine) : Prop
  | orphaned {o : PageRef} {spared left : List FrameId}
      (hchosen : Clock.Chooses m.view.referenced m.frames.clock f spared left) (ho : m.view.owner f = some o)
      (hs : m.view.book o.space = none) (hswap : n.swap = m.swap) (hfiles : n.files = m.files)
      (hview : n.view = { m.view.without f spared left with
        status := update m.view.status f .pinned
        log := (m.view.spare spared).log.push (.evicted o.va o.space f) })
  | saved {o : PageRef} {p : Page} {st : PageState} {w : View} {spared left : List FrameId}
      (hchosen : Clock.Chooses m.view.referenced m.frames.clock f spared left) (ho : m.view.owner f = some o)
      (hp : m.view.page o = some p) (hf : p.frame = some f) (hsaved : Saved (m.view.without f spared left) o p f st w)
      (htransfer : Transfers m p ((m.view.entry o).any (·.dirty)) (m.view.bytes f) n none)
      (hview : n.view = { w with
        page := update m.view.page o (some ⟨p.writable, none, st⟩)
        status := update m.view.status f .pinned
        log := w.log.push (.evicted o.va o.space f) })

/-- What becomes of a machine when no frame can be reclaimed: there was none, or the page in the one that was chosen
could not be saved and was put back. -/
inductive Refuses (m : Machine) (e : PagingError) (n : Machine) : Prop
  | bare (he : e = .noFrame) (hclock : m.frames.clock = []) (hn : n = m)
  | unsaved {f : FrameId} {o : PageRef} {p : Page} {w : View} {spared left : List FrameId}
      (hchosen : Clock.Chooses m.view.referenced m.frames.clock f spared left) (ho : m.view.owner f = some o)
      (hp : m.view.page o = some p) (hf : p.frame = some f) (hunsaved : Unsaved (m.view.without f spared left) o p f w)
      (htransfer : Transfers m p ((m.view.entry o).any (·.dirty)) (m.view.bytes f) n (some e))
      (hview : n.view = { w with
        owner := m.view.owner
        clock := f :: left
        log := w.log.push (.evictionFailed o.va f e) })

theorem yields_hold (h : n.Consistent) (hf : n.view.status f = .held) :
    Yields (do
      modifyFrames (·.setPinned f true)
      pure f) n
      (fun g u => g = f ∧ u.Consistent ∧ u.swap = n.swap ∧ u.files = n.files ∧
        u.view = { n.view with status := update n.view.status f .pinned }) fun _ _ => False := by
  obtain ⟨q, hq, hcount, hsize, hstatus⟩ := h.frames.setPinned (.inr hf) true
  rw [yields_bind, yields_modifyFrames,
    show n.frames.setPinned f true = .ok { n.frames with pool := q } from hq _ _ _]
  refine yields_pure.2 ⟨rfl, h.withFrames (h.frames.withPool hcount hsize), rfl, rfl, ?_⟩
  rw [view_withFrames]
  exact View.ext rfl rfl rfl rfl hstatus rfl rfl rfl rfl rfl rfl rfl

def unclocked (m : Machine) (f : FrameId) (l : List FrameId) : Machine :=
  { m with frames := { m.frames with clock := l }.withOwner f none }

theorem unclocked_consistent (h : m.Consistent) (hf : m.view.status f ≠ .absent) (l : List FrameId) :
    (unclocked m f l).Consistent :=
  h.withFrames ((h.frames.withClock l).withOwner hf nofun)

theorem unclocked_view (h : m.Consistent) (hf : m.view.status f ≠ .absent) (l : List FrameId) :
    (unclocked m f l).view = { m.view with clock := l, owner := update m.view.owner f none } := by
  rw [unclocked, view_withFrames, Frames.ownerAt_update ((h.frames.withClock l).bound_withOwner hf none)]
  rfl

theorem reinstated (h : n.Consistent) (hf : n.view.status f ≠ .absent) (o : PageRef) :
    n.frames.reinstate f o = .ok (n.frames.reinstated f o) ∧
      Consistent { n with frames := n.frames.reinstated f o } ∧
      view { n with frames := n.frames.reinstated f o } = { n.view with
        owner := update n.view.owner f (some o)
        clock := f :: n.view.clock } := by
  refine ⟨h.frames.reinstate_eq hf _, h.withFrames (h.frames.reinstated hf o), ?_⟩
  rw [view_withFrames]
  exact View.ext rfl rfl rfl (Frames.ownerAt_update (h.frames.bound_withOwner hf _)) rfl rfl rfl rfl rfl rfl rfl rfl

/-- Saving the victim's page leaves a gone space alone, or saves the page, or puts it back. -/
theorem yields_saveVictim (h : m.Sound) (ho : m.view.owner f = some o) :
    Yields (saveVictim f o) (unclocked m f l)
      (fun _ n => m.view.book o.space = none ∧ n = unclocked m f l ∨
        ∃ p st w, m.view.page o = some p ∧ p.frame = some f ∧ n.Consistent ∧
          Saved { m.view with clock := l, owner := update m.view.owner f none } o p f st w ∧
          n.view = { w with page := update m.view.page o (some ⟨p.writable, none, st⟩) } ∧
          Transfers m p ((m.view.entry o).any (·.dirty)) (m.view.bytes f) n none)
      (Failing fun e n => n.Consistent ∧ ∃ p w, m.view.page o = some p ∧ p.frame = some f ∧
        Unsaved { m.view with clock := l, owner := update m.view.owner f none } o p f w ∧
        n.view = { w with
          owner := m.view.owner
          clock := f :: l
          log := w.log.push (.evictionFailed o.va f e) } ∧
        Transfers m p ((m.view.entry o).any (·.dirty)) (m.view.bytes f) n (some e)) := by
  have hheld : m.view.status f = .held := (h.coherent.held_iff f).2 (by rw [ho]; rfl)
  have hpresent : m.view.status f ≠ .absent := by simp [hheld]
  have hc := unclocked_consistent h.consistent hpresent l
  have hv := unclocked_view h.consistent hpresent l
  have hspace : (unclocked m f l).space? o.space = m.space? o.space := rfl
  unfold saveVictim
  rw [yields_bind, yields_get, hspace]
  cases hs : m.space? o.space with
  | none => exact yields_pure.2 (.inl ⟨by simp [view, hs], rfl⟩)
  | some sp =>
      obtain ⟨p, hp, hf⟩ := h.coherent.owned ho (by rw [book_eq hs]; rfl)
      obtain ⟨-, ha, hu⟩ := h.coherent.placed hp
      obtain ⟨a, d, hx⟩ := h.coherent.entry_of_resident hp hf
      have hvacate := yields_vacate hc ha hu (by rw [hv]; exact hp) hf (h.coherent.apt hp) (by rw [hv]; exact hx) rfl
        (by rw [hv]; exact hpresent)
      rw [hv] at hvacate
      refine yields_bind.2 (hvacate.attempt ?_ ?_)
      · rintro _ n ⟨hn, ⟨st, w, hsaved, hview⟩, htransfer⟩
        exact yields_pure.2 (.inr ⟨p, st, w, hp, hf, hn, hsaved, hview, htransfer.congr rfl rfl⟩)
      · rintro e n ⟨hn, hunsaved, htransfer⟩
        have hpr : (n.tell (.evictionFailed o.va f e)).view.status f ≠ .absent := by
          rw [view_tell, hunsaved.status_eq]
          exact hpresent
        obtain ⟨hback, hcn, hvn⟩ := reinstated (hn.tell (.evictionFailed o.va f e)) hpr o
        rw [yields_bind, yields_emit, yields_bind, yields_modifyFrames, hback]
        refine yields_fail.2 ⟨hcn, p, _, hp, hf, hunsaved, ?_, (htransfer.congr (m := m) rfl rfl).after rfl rfl⟩
        have howner : update n.view.owner f (some o) = m.view.owner := by
          rw [hunsaved.owner_eq]
          exact (Function.update_idem ..).trans (Function.update_eq_self_iff.2 ho.symm)
        have hclock : n.view.clock = l := hunsaved.clock_eq
        rw [hvn, view_tell]
        dsimp only
        rw [howner, hclock]

theorem yields_evict (h : m.Sound) :
    Yields evict m (fun f n => n.Consistent ∧ Reclaims m f n)
      (Failing fun e n => n.Consistent ∧ Refuses m e n) := by
  unfold evict
  refine (yields_takeVictim h).bind (fun f n hn => ?_) fun e n hn => hn.mono ?_
  swap
  · rintro e ⟨rfl, hclock, rfl⟩
    exact ⟨h.consistent, .bare rfl hclock rfl⟩
  obtain ⟨u, spared, left, hchosen, hspares, rfl⟩ := hn
  have hu := hspares.sound h
  have hf : f ∈ u.view.clock := by
    rw [hspares.view]
    exact hchosen.perm.mem_iff.2 List.mem_cons_self
  obtain ⟨o, ho⟩ := Option.isSome_iff_exists.1 ((hu.coherent.mem_clock_iff f).1 hf)
  have hheld : u.view.status f = .held := (hu.coherent.held_iff f).2 (by rw [ho]; rfl)
  have hpresent : u.view.status f ≠ .absent := by simp [hheld]
  have hmo : m.view.owner f = some o := hspares.owner_eq ▸ ho
  have hwithout : { u.view with clock := left, owner := update u.view.owner f none } =
      m.view.without f spared left := by
    rw [hspares.view]
    rfl
  have hsave := yields_saveVictim (l := left) hu ho
  rw [hspares.any_dirty, hspares.bytes_eq, hspares.page_eq, hspares.book_eq, hwithout] at hsave
  rw [yields_bind, yields_get, yields_bind, yields_ofPanic,
    (hu.consistent.frames.withClock left).binding_eq ho]
  dsimp only
  rw [yields_bind, yields_modifyFrames, (hu.consistent.frames.withClock left).setOwner_eq hpresent]
  have hheld (n : Machine) (hn : n.view.status = m.view.status) : n.view.status f = .held := by
    rw [hn, ← hspares.status_eq, hheld]
  refine hsave.bind (fun _ n hn => ?_) fun e n hn => hn.mono ?_
  · rw [yields_bind, yields_emit]
    rcases hn with ⟨hs, rfl⟩ | ⟨p, st, w, hp, hpf, hn, hsaved, hv, htransfer⟩
    · have hv := (unclocked_view hu.consistent hpresent left).trans hwithout
      refine (yields_hold ((unclocked_consistent hu.consistent hpresent left).tell _)
        (hheld (tell _ _) (by rw [view_tell, hv]; rfl))).mono ?_ fun _ _ => False.elim
      rintro _ n ⟨rfl, hn, hswap, hfiles, hvn⟩
      refine ⟨hn, .orphaned hchosen hmo hs (hswap.trans hspares.swap) (hfiles.trans hspares.files) ?_⟩
      rw [hvn, view_tell, hv]
      rfl
    · have hstatus : n.view.status = m.view.status := by rw [hv]; exact hsaved.status_eq
      refine (yields_hold (hn.tell _) (hheld (n.tell _) hstatus)).mono ?_ fun _ _ => False.elim
      rintro _ k ⟨rfl, hk, hswap, hfiles, hvk⟩
      refine ⟨hk, .saved hchosen hmo hp hpf hsaved
        ((htransfer.congr hspares.swap hspares.files).after hswap hfiles) ?_⟩
      rw [hvk, view_tell]
      dsimp only
      rw [hstatus, hv]
  · rintro e ⟨hn, p, w, hp, hpf, hunsaved, hv, htransfer⟩
    rw [hspares.owner_eq] at hv
    exact ⟨hn, .unsaved hchosen hmo hp hpf hunsaved (htransfer.congr hspares.swap hspares.files) hv⟩

structure Grants (m : Machine) (f : FrameId) (n : Machine) : Prop extends Goes m Act.Quiet n where
  deeds : View.Deeds Deed.Vacates m.view n.view
  spare : m.view.status f ≠ .pinned
  pinned : ∀ g, n.view.status g = .pinned ↔ g = f ∨ m.view.status g = .pinned

def Stuck (m : Machine) : Prop :=
  (∀ r p f, m.view.page r = some p → p.frame = some f → p.kind = .anon) → m.swap.disk.Reliable →
    m.frames.clock = [] ∨ m.swap.Full

theorem grants_of_surrenders {spared : List FrameId} {w : View} (hm : m.Sound) (hn : n.Consistent)
    (ho : m.view.owner f = some o)
    (hpath : View.Path Act.Quiet (m.view.spare spared) { w with status := update m.view.status f .pinned })
    (hgiven : (m.view.spare spared).Surrenders o w) (hview : n.view = { w with
      status := update m.view.status f .pinned
      log := w.log.push (.evicted o.va o.space f) }) : Grants m f n := by
  refine ⟨⟨hn, (hm.coherent.path_spare spared).trans ?_⟩, (m.view.idles_spare spared).within.trans ?_, ?_, fun g => ?_⟩
  · rw [hview]
    exact hpath.step rfl (.told _)
  · rw [hview]
    exact View.Does.deeds (P := Deed.Vacates) (hgiven.given (.inl ⟨f, rfl⟩) rfl rfl rfl) trivial
  · rw [(hm.coherent.held_iff f).2 (by rw [ho]; rfl)]
    nofun
  · rw [hview]
    by_cases hg : g = f <;> simp [hg]

theorem Reclaims.grants (h : Reclaims m f n) (hm : m.Sound) (hn : n.Consistent) : Grants m f n := by
  cases h with
  | @orphaned o spared left hchosen ho hs hswap hfiles hview =>
      have hnone : m.view.page o = none := by
        cases hp : m.view.page o with
        | none => rfl
        | some p => simpa [hs] using (hm.coherent.placed hp).1
      have hpath : View.Path Act.Quiet (m.view.spare spared) _ :=
        (View.Step.orphaned (v := m.view.spare spared) ho hs hchosen.perm).path rfl
      have hgiven : (m.view.spare spared).Surrenders o (m.view.without f spared left) :=
        View.surrenders_of_none hnone rfl rfl rfl rfl
      exact grants_of_surrenders hm hn ho hpath hgiven hview
  | @saved o p st w spared left hchosen ho hp hf hsaved htransfer hview =>
      obtain ⟨a, d, hx⟩ := (hm.coherent.spare spared).entry_of_resident hp hf
      exact grants_of_surrenders hm hn ho (hsaved.path (v := m.view.spare spared) hp hf hx hchosen.perm)
        (hsaved.surrenders (v := m.view.spare spared) hp hf) hview

theorem Refuses.isMissing (h : Refuses m e n) (hm : m.Consistent) : e.isMissing = false := by
  cases h with
  | bare he => rw [he]; rfl
  | unsaved _ _ _ _ _ htransfer => exact htransfer.isMissing hm

theorem Refuses.stuck (h : Refuses m e n) (hm : m.Consistent) : Stuck m := by
  intro hanon hdisk
  cases h with
  | bare _ hclock => exact .inl hclock
  | unsaved _ _ hp hf _ htransfer => exact .inr (htransfer.full hm (hanon _ _ _ hp hf) hdisk)

/-- If no frame can be reclaimed, nothing is done that could be told. -/
theorem Refuses.leads (h : Refuses m e n) (hm : m.Sound) (hn : n.Consistent) :
    m.Leads Act.Quiet n ∧ View.Deeds Deed.Vacates m.view n.view := by
  cases h with
  | bare _ _ hn =>
      rw [hn]
      exact ⟨.refl hm.consistent, (View.Idles.refl _).within⟩
  | @unsaved f o p w spared left hchosen ho hp hf hunsaved htransfer hview =>
      obtain ⟨a, d, hx⟩ := (hm.coherent.spare spared).entry_of_resident hp hf
      have hback := hunsaved.path (v := m.view.spare spared) hp hf hx rfl ho hchosen.perm
      have howner : update w.owner f (some o) = m.view.owner := by
        rw [hunsaved.owner_eq]
        exact (Function.update_idem ..).trans (Function.update_eq_self_iff.2 ho.symm)
      rw [howner] at hback
      refine ⟨⟨⟨hn, (hm.coherent.path_spare spared).trans ?_⟩, fun g => ?_⟩,
        (m.view.idles_spare spared).within.trans ?_⟩
      · rw [hview]
        exact hback.step rfl (.told _)
      · rw [hview]
        exact Iff.of_eq (congrArg (· g = _) hunsaved.status_eq)
      · rw [hview]
        exact View.Does.deeds (P := Deed.Vacates)
          (hunsaved.kept (v := m.view.spare spared) hp hf rfl rfl rfl rfl) trivial

theorem take_view (h : m.Consistent) {q : FramePool} (ht : m.frames.pool.take = some (f, q)) :
    m.view.status f = .free ∧ Consistent { m with frames := { m.frames with pool := q } } ∧
      view { m with frames := { m.frames with pool := q } } =
        { m.view with status := update m.view.status f .pinned } := by
  obtain ⟨hfree, hfits, hstatus⟩ := h.frames.take ht
  refine ⟨hfree, h.withFrames hfits, ?_⟩
  rw [view_withFrames]
  exact View.ext rfl rfl rfl rfl hstatus rfl rfl rfl rfl rfl rfl rfl

inductive Acquires (m : Machine) (f : FrameId) (n : Machine) : Prop
  | taken {q : FramePool} (ht : m.frames.pool.take = some (f, q))
      (hn : n = (withBytes { m with frames := { m.frames with pool := q } } f (Buffer.zero _)).tell (.frameAcquired f))
  | reclaimed {u : Machine} (ht : m.frames.pool.take = none) (hu : u.Consistent) (hr : Reclaims m f u)
      (hn : n = (u.withBytes f (Buffer.zero _)).tell (.frameAcquired f))

theorem yields_acquire (h : m.Sound) :
    Yields acquire m (fun f n => Acquires m f n)
      (Failing fun e n => n.Consistent ∧ m.frames.pool.take = none ∧ Refuses m e n) := by
  have hrest (f : FrameId) (u : Machine) (hc : u.Consistent) (hf : u.view.status f = .pinned)
      (hu : Acquires m f ((u.withBytes f (Buffer.zero _)).tell (.frameAcquired f))) :
      Yields (do
        setContents f (Buffer.zero pageSize)
        emit (.frameAcquired f)
        pure f) u (fun f n => Acquires m f n)
        (Failing fun e n => n.Consistent ∧ m.frames.pool.take = none ∧ Refuses m e n) := by
    rw [yields_bind, yields_setContents hc (by simp [hf]), yields_bind, yields_emit]
    exact yields_pure.2 hu
  unfold acquire
  rw [yields_bind, yields_get, FramePool.checkedTake_eq, yields_bind, yields_ofPanic]
  dsimp only
  cases ht : m.frames.pool.take with
  | none =>
      rw [ht] at hrest
      refine (yields_evict h).bind ?_ fun e n hn => hn.mono fun e hn => ⟨hn.1, rfl, hn.2⟩
      rintro f u ⟨hu, hr⟩
      exact hrest f u hu ((hr.grants h hu).pinned f |>.2 (.inl rfl)) (.reclaimed ht hu hr rfl)
  | some c =>
      rw [ht] at hrest
      obtain ⟨-, hc, hv⟩ := take_view (f := c.1) (q := c.2) h.consistent ht
      exact yields_bind.2 (yields_set.2 (hrest c.1 _ hc (by simp [hv]) (.taken ht rfl)))

theorem Grants.status_eq (h : Grants m f n) : n.view.status f = .pinned := (h.pinned f).2 (.inl rfl)

/-- A frame that is pinned is zeroed before it is handed out. -/
theorem cleared (h : n.Consistent) (hf : n.view.status f = .pinned) :
    let u := (n.withBytes f (Buffer.zero _)).tell (.frameAcquired f)
    u.Consistent ∧ u.view = { n.view with
      bytes := update n.view.bytes f (Buffer.zero _)
      log := n.view.log.push (.frameAcquired f) } := by
  refine ⟨(h.withBytes _ _).tell _, ?_⟩
  rw [view_tell, view_withBytes h (by simp [hf])]

theorem Grants.cleared (h : Grants m f n) :
    let u := (n.withBytes f (Buffer.zero _)).tell (.frameAcquired f)
    Grants m f u ∧ u.view.bytes f = Buffer.zero _ := by
  obtain ⟨hn, hv⟩ := Vm.cleared h.consistent h.status_eq
  refine ⟨⟨⟨hn, ?_⟩, h.deeds.trans ?_, h.spare, fun g => ?_⟩, ?_⟩
  · rw [hv]
    exact (h.path.step rfl (.scribbled _ h.status_eq)).step rfl (.told _)
  · rw [hv]
    exact View.Idles.within (View.idles_of_push rfl rfl rfl rfl rfl)
  · rw [hv]
    exact h.pinned g
  · rw [hv]
    exact Function.update_self ..

theorem Acquires.grants (h : Acquires m f n) (hm : m.Sound) : Grants m f n ∧ n.view.bytes f = Buffer.zero _ := by
  cases h with
  | reclaimed ht hu hr hn => exact hn ▸ (hr.grants hm hu).cleared
  | taken ht hn =>
      obtain ⟨hfree, hc, hv⟩ := take_view hm.consistent ht
      refine hn ▸ Grants.cleared ⟨⟨hc, ?_⟩, ?_, by simp [hfree], fun g => ?_⟩
      · rw [hv]
        exact (View.Step.taken hfree).path rfl
      · rw [hv]
        exact View.Idles.within (View.idles_of_eq rfl rfl rfl rfl)
      · rw [hv]
        by_cases hg : g = f <;> simp [hg]

/-- What those need to know of a frame who ask for one. -/
theorem yields_acquire_grants (h : m.Sound) :
    Yields acquire m (fun f n => Grants m f n ∧ n.view.bytes f = Buffer.zero _)
      (Failing fun e n => e.isMissing = false ∧ m.Leads Act.Quiet n ∧ View.Deeds Deed.Vacates m.view n.view ∧
        m.frames.pool.take = none ∧ Stuck m) := by
  refine (yields_acquire h).mono (fun f n hn => hn.grants h) fun e n hn => hn.mono ?_
  rintro e ⟨hn, ht, hr⟩
  exact ⟨hr.isMissing h.consistent, (hr.leads h hn).1, (hr.leads h hn).2, ht, hr.stuck h.consistent⟩

end Vm

end DemandPaging
