import DemandPaging.Proofs.Hiding
import DemandPaging.Proofs.Shares
import DemandPaging.Proofs.Stores

namespace DemandPaging

open Step Machine

variable {m n u : Machine} {s child parent : SpaceId} {va : Addr} {r : PageRef} {p : Page} {b : Backing}
  {purpose : Purpose} {P : Act → Prop} {α : Type} {c : Call}

theorem Backing.Within.congr {F G : File} (h : b.Within F) (hsize : G.bytes.size = F.bytes.size) : b.Within G :=
  fun i hi => hsize ▸ h i hi

/-- From `m` to `n` no file changed its size, and if the page at `r` was yet to be filled from a file it is so still,
unless the file has all that the page has of it. -/
structure Machine.Feeds (r : PageRef) (m n : Machine) : Prop where
  sound : n.Sound
  size : ∀ id, (n.file id).bytes.size = (m.file id).bytes.size
  page : ∀ p b purpose, m.view.page r = some p → p.state = .untouched (some (.segment b)) purpose →
    n.view.page r = some p ∨ b.Within (m.file b.handle.file)

namespace Machine.Feeds

theorem refl (h : m.Sound) : m.Feeds r m := ⟨h, fun _ => rfl, fun _ _ _ hp _ => .inl hp⟩

theorem trans (h : m.Feeds r n) (k : n.Feeds r u) : m.Feeds r u where
  sound := k.sound
  size id := (k.size id).trans (h.size id)
  page p b purpose hp hst := by
    rcases h.page p b purpose hp hst with hp | hin
    · exact (k.page p b purpose hp hst).imp_right fun hin => hin.congr (h.size _).symm
    · exact .inr hin

theorem of_goes (h : m.Sound) (hn : m.Goes P n) (hput : ∀ id g, ¬ P (.put id g))
    (hpage : (m.view.page r).isSome → ¬ P (.loaded r) ∧ (∀ saved, ¬ P (.removed r saved)) ∧ ¬ P (.dropped r.space)) :
    m.Feeds r n where
  sound := hn.sound h
  size id := (hn.path.file_same hput id).size
  page p b purpose hp hst := by
    obtain ⟨hl, hr, hd⟩ := hpage (by rw [hp]; rfl)
    exact .inl (hn.path.kept hp (h.coherent.frame_of_untouched hp hst) hl hr hd)

theorem of_slight (h : m.Sound) (hn : m.Goes Act.Slight n) : m.Feeds r n :=
  .of_goes h hn (fun _ _ => id) fun _ => ⟨id, fun _ => id, id⟩

end Machine.Feeds

namespace Vm

def Feeding (r : PageRef) (x : Vm α) : Prop :=
  ∀ m : Machine, m.Sound → Yields x m (fun _ n => m.Feeds r n) fun _ n => m.Feeds r n

theorem Going.feeding {x : Vm α} (h : Going Act.Slight x) : Feeding r x := fun m hm =>
  (h m hm).mono (fun _ _ => .of_slight hm) fun _ _ => .of_slight hm

theorem feeding_modular (r : PageRef) : Modular fun _ => Feeding r where
  pure _ _ hm := .refl hm
  throw _ _ hm := .refl hm
  bind hx hf m hm := (hx m hm).bind (fun a n hn => (hf a n hn.sound).mono (fun _ _ hu => hn.trans hu)
    fun _ _ hu => hn.trans hu) fun _ _ => id
  attempt hx m hm := yields_attempt.2 ((hx m hm).mono (fun _ _ => id) fun e n hn => by cases e <;> exact hn)

theorem feeding_makeResident (r : PageRef) (s : SpaceId) (va : Addr) : Feeding r (makeResident s va) := by
  intro m hm
  cases hs : m.space? s with
  | none => exact (yields_dead hs).2 (.refl hm)
  | some sp =>
      refine (yields_makeResident hm (by rw [book_eq hs]; rfl) va).run_eq.mono ?_ ?_
      · rintro _ n ⟨hrun, hn, -⟩
        have hput (id : FileId) (g : File → File) : ¬ Act.Loads ⟨s, pageBase va⟩ (.put id g) := by
          simp [Act.Loads, Act.Quiet]
        refine ⟨hn.sound hm, fun id => (hn.path.file_same hput id).size, fun p b purpose hp hst => ?_⟩
        by_cases hr : r = ⟨s, pageBase va⟩
        · subst hr
          obtain ⟨f, u, hacquire, -, hread, -⟩ := (yields_makeResident_segment hm hp hst).of_ok hrun
          have hu := ((yields_acquire_grants hm).of_ok hacquire).1
          exact .inr ((Backing.within_of_returned hread).congr
            ((hu.path.file_same (by simp [Act.Quiet]) b.handle.file).size).symm)
        · refine .inl (hn.path.kept hp (hm.coherent.frame_of_untouched hp hst) ?_ ?_ ?_)
          · simpa [Act.Loads, Act.Quiet] using hr
          · simp [Act.Loads, Act.Quiet]
          · simp [Act.Loads, Act.Quiet]
      · rintro e n ⟨-, hn⟩
        obtain ⟨e, -, hn, -⟩ := hn.error
        exact .of_slight hm (hn.toGoes.mono fun _ => Act.Quiet.slight)

/-- What is taken back when a stack does not grow was not there before. -/
theorem feeding_addStackPage (r : PageRef) (s : SpaceId) (va : Addr) (undone : Addr → PagingError → Event) :
    Feeding r (addStackPage s va undone) := by
  intro m hm
  have hregister := (going_register s va true .stack none).feeding (r := r) m hm
  cases hs : m.space? s with
  | none =>
      have hdead := yields_register_dead (L := fun _ => True) (S := fun _ => True) hm hs va true .stack none
      exact (hdead.and hregister).bind (fun _ _ h => h.1.elim) fun _ _ h => h.2
  | some sp =>
      refine (hregister.and (yields_register hm (by rw [book_eq hs]; rfl) va true .stack none)).bind ?_ fun _ _ h => h.1
      rintro _ n ⟨hn, -, hnone, -⟩
      refine yields_bind.2 (yields_attempt.2 ((feeding_makeResident r s va n hn.sound).mono ?_ ?_))
      · exact fun _ u hu => yields_pure.2 (hn.trans hu)
      · intro e u hu
        cases e with
        | panic | loop => exact hn.trans hu
        | error e =>
            have hback (z : Machine) (hz : u.Goes (Act.Drops ⟨s, pageBase va⟩) z) : m.Feeds r z := by
              have hput (id : FileId) (g : File → File) : ¬ Act.Drops ⟨s, pageBase va⟩ (.put id g) := by
                simp [Act.Drops, Act.Slight]
              by_cases hr : r = ⟨s, pageBase va⟩
              · refine ⟨hz.sound hu.sound, fun id => ?_, fun p b purpose hp => ?_⟩
                · exact (hz.path.file_same hput id).size.trans ((hn.trans hu).size id)
                · rw [hr, hnone] at hp
                  cases hp
              · refine (hn.trans hu).trans (.of_goes hu.sound hz hput fun _ => ?_)
                simpa [Act.Drops, Act.Slight] using hr
            have hundo : Going (Act.Drops ⟨s, pageBase va⟩) (do
                removeAll s undone [va]
                fail e : Vm Unit) := by
              refine (going_modular _).bind ((going_modular _).removeAll (fun a ha => ?_) fun _ _ => ?_)
                fun _ => (going_modular _).fail e
              · rw [List.mem_singleton.1 ha]
                exact going_remove s va
              · exact (going_emit _).mono fun _ => .inl
            exact (hundo u hu.sound).mono (fun _ => hback) fun _ => hback

theorem feeding_growing (r : PageRef) : Growing fun _ => Feeding r where
  toModular := feeding_modular r
  space _ := (going_space _).feeding
  emit _ := (going_emit _).feeding
  book _ _ hp ht := (going_book hp ht).feeding
  addStackPage s va undone _ := feeding_addStackPage r s va undone

theorem feeding_touchPage (r : PageRef) (s : SpaceId) (addr : Addr) (write : Bool) :
    Feeding r (touchPage s addr write) :=
  (feeding_growing r).touchPage (feeding_makeResident r s addr) (going_access s addr write).feeding
    fun _ _ hm => yields_bind.2 (yields_get.2 ((feeding_modular r).ofPanic _ _ hm))

theorem feeding_setContents (r : PageRef) (f : FrameId) (page : Contents) : Feeding r (setContents f page) := by
  intro m hm
  refine yields_modifyFrames.2 ?_
  cases hset : m.frames.setContents f page with
  | error => exact .refl hm
  | ok t =>
      obtain rfl := Frames.eq_of_setContents hset
      have hcoherent : (m.withBytes f page).view.Coherent :=
        View.coherent_of_same hm.coherent rfl rfl (fun _ => rfl) rfl (.inl rfl) (.refl _) rfl rfl
      exact ⟨⟨hm.consistent.withBytes f page, hcoherent⟩, fun _ => rfl, fun _ _ _ hp _ => .inl hp⟩

theorem feeding_snapshot (r : PageRef) (s : SpaceId) (ha : isPageAligned va = true) : Feeding r (snapshot s va) := by
  intro m hm
  cases hs : m.space? s with
  | none => exact yields_bind.2 ((yields_dead hs).2 (.refl hm))
  | some sp =>
      refine (yields_snapshot hm (by rw [book_eq hs]; rfl) ha).mono ?_ ?_
      · rintro _ n ⟨hn, -⟩
        exact .of_slight hm (hn.toGoes.mono fun _ => Act.Quiet.slight)
      · intro e n hn
        obtain ⟨e, -, hn, -⟩ := hn.error
        exact .of_slight hm (hn.toGoes.mono fun _ => Act.Quiet.slight)

theorem feeding_inheritPages (r : PageRef) (child : SpaceId) (regions : List (Addr × Region)) {l : List (Addr × Page)}
    (hl : ∀ x ∈ l, isPageAligned x.1 = true) : Feeding r (inheritPages child parent regions l) := by
  refine (feeding_modular r).inheritPages fun x hx => ?_
  exact (feeding_modular r).inheritPage (going_space parent).feeding
    ((feeding_modular r).childBacking (fun hd => (going_duplicate hd).feeding) regions x.1)
    (feeding_snapshot r parent (hl x hx))
    (fun w purpose filling => (going_register child x.1 w purpose filling).feeding)
    (feeding_makeResident r child x.1) (going_setDirty child x.1).feeding x.2

theorem feeding_inherit (r : PageRef) (child parent : SpaceId) : Feeding r (inherit child parent) := by
  have hmodular := feeding_modular r
  intro m hm
  cases hs : m.space? parent with
  | none => exact (yields_dead hs).2 (.refl hm)
  | some sp =>
      have hl (x : Addr × Page) (hx : x ∈ sp.pages.toList) : isPageAligned x.1 = true :=
        (hm.coherent.placed ((mem_pages hs).1 hx)).2.1
      unfold inherit
      rw [yields_bind, yields_space hs]
      refine hmodular.bind (hmodular.duplicateRegions (fun hd => (going_duplicate hd).feeding) _) ?_ m hm
      intro regions
      apply hmodular.bind (feeding_inheritPages r child regions hl)
      intro _
      apply hmodular.bind (going_space parent).feeding
      intro after
      refine hmodular.bind (Going.feeding (going_book ?_ ?_)) fun _ => (going_emit _).feeding
      · exact fun _ => rfl
      · exact fun _ => rfl

theorem feeds_fork (hm : m.Sound) (r : PageRef) (child parent : SpaceId) :
    Yields (fork child parent) m (fun _ n => m.Feeds r n) fun _ n => m.Feeds r n ∨ n.view.page r = none := by
  have hinherit := feeding_inherit r child parent m hm
  refine yields_bind.2 (yields_attempt.2 (hinherit.mono (fun _ n hn => yields_pure.2 hn) fun e n hn => ?_))
  cases e with
  | panic | loop => exact .inl hn
  | error e =>
      cases hs : n.space? child with
      | none => exact yields_bind.2 ((yields_dead hs).2 (.inl hn))
      | some sp =>
          refine (yields_destroy hn.sound (by rw [book_eq hs]; rfl)).bind ?_ fun _ _ => False.elim
          rintro _ u ⟨hu, hlost, -⟩
          by_cases hr : r.space = child
          · exact yields_fail.2 (.inr (hlost.absent r hr))
          · refine yields_fail.2 (.inl (hn.trans (.of_goes hn.sound hu.toGoes ?_ fun _ => ⟨?_, ?_, ?_⟩)))
            · rintro id g (ha | ⟨b, ha⟩ | ⟨va, saved, ha, -⟩) <;> cases ha
            · rintro (ha | ⟨b, ha⟩ | ⟨va, saved, ha, -⟩) <;> cases ha
            · rintro saved (ha | ⟨b, ha⟩ | ⟨va, saved, ha, -⟩)
              · cases ha
              · cases ha
              · cases ha
                exact hr rfl
            · rintro (ha | ⟨b, ha⟩ | ⟨va, saved, ha, -⟩) <;> cases ha

end Vm

/-- No page is loaded by a turn that does not name its space. -/
theorem kept_of_unnamed (h : m.Sound) (hc : ∀ s ∈ c.spaces, (m.space? s).isSome) (hp : m.view.page r = some p)
    (hf : p.frame = none) (hr : r.space ∉ c.spaces) (hpresent : ((c.turn m).after.view.page r).isSome) :
    (c.turn m).after.view.page r = some p := by
  obtain ⟨q, hq⟩ := Option.isSome_iff_exists.1 hpresent
  have hl := leaves_of_present h hc hq
  refine (path_turn h hc).kept hp hf (fun ha => hr ?_) hl.removed hl.dropped
  rwa [Turn.May, call_turn] at ha

def Machine.Awaits (m : Machine) (r : PageRef) (p : Page) (b : Backing) : Prop :=
  (m.view.page r).isSome → m.view.page r = some p ∨ b.Within (m.file b.handle.file)

theorem Machine.Feeds.awaits (h : m.Feeds r n) (hp : m.view.page r = some p)
    (hst : p.state = .untouched (some (.segment b)) purpose) : n.Awaits r p b := fun _ =>
  (h.page p b purpose hp hst).imp_right fun hin => hin.congr (h.size _)

/-- Whatever a turn does, a page that is yet to be filled from a file is left so, unless the file has all that the
page has of it. -/
theorem awaits_turn (h : m.Sound) (hc : ∀ s ∈ c.spaces, (m.space? s).isSome) (hp : m.view.page r = some p)
    (hst : p.state = .untouched (some (.segment b)) purpose) : (c.turn m).after.Awaits r p b := by
  have hf : p.frame = none := h.coherent.frame_of_untouched hp hst
  by_cases hr : r.space ∈ c.spaces
  swap
  · exact fun hpresent => .inl (kept_of_unnamed h hc hp hf hr hpresent)
  have hlive {s : SpaceId} (hs : s ∈ c.spaces) : (m.view.book s).isSome := Call.live hc hs
  suffices hmade : Yields c.exec m (fun _ n => n.Awaits r p b) fun _ n => n.Awaits r p b from
    Call.turn_cases (fun t => t.after.Awaits r p b) hmade
  have hfeeding {β : Type} {x : Vm β} (hx : Vm.Feeding r x) {f : β → Answer} :
      Yields (x >>= fun a => pure (f a)) m (fun _ n => n.Awaits r p b) fun _ n => n.Awaits r p b :=
    ((Vm.feeding_modular r).bind hx (fun a => (Vm.feeding_modular r).pure (f a)) m h).mono
      (fun _ _ hn => hn.awaits hp hst) fun _ _ hn => hn.awaits hp hst
  have hlost {gone : PageRef → Prop} {n : Machine} (hn : m.view.Loses gone n.view) : n.Awaits r p b := by
    intro hpresent
    by_cases hg : gone r
    · simp [hn.absent r hg] at hpresent
    · exact .inl ((hn.page r hg).trans hp)
  have hgrowing := Vm.feeding_growing r
  cases c with
  | register s va w q filling => exact hfeeding (Vm.going_register s va w q filling).feeding
  | claim s va => exact hfeeding (Vm.feeding_makeResident r s va)
  | read s va len =>
      exact hfeeding (hgrowing.toModular.copyOut (fun addr => Vm.feeding_touchPage r s addr false) va len)
  | write s va data =>
      exact hfeeding (hgrowing.toModular.copyIn (fun addr => Vm.feeding_touchPage r s addr true)
        (Vm.feeding_setContents r) va data)
  | saveStack s esp =>
      refine hfeeding (x := Vm.saveStackPointer s esp) (Vm.going_book ?_ ?_).feeding
      · exact fun _ => rfl
      · exact fun _ => rfl
  | fault s esp addr user w np =>
      exact hfeeding (hgrowing.resolveFault (Vm.feeding_makeResident r s addr) esp user w np)
  | handle s esp addr user w np => exact hfeeding (hgrowing.onFault (Vm.feeding_makeResident r s addr) esp user w np)
  | startStack s => exact hfeeding (hgrowing.startStack s)
  | segment s hd offset addr readBytes zeroBytes w =>
      exact hfeeding ((Vm.going_modular _).addSegment (Vm.going_register s) (fun _ _ => Vm.going_emit _) hd offset addr
        readBytes zeroBytes w).feeding
  | fork child parent =>
      refine (Vm.feeds_fork h r child parent).bind (fun _ n hn => yields_pure.2 (hn.awaits hp hst)) ?_
      rintro e n (hn | hnone)
      · exact hn.awaits hp hst
      · intro hpresent
        simp [hnone] at hpresent
  | remove s va =>
      refine (Vm.yields_remove h (hlive (List.mem_singleton_self s)) va).bind (fun _ n hn => yields_pure.2 ?_)
        fun e n hn => ?_
      · exact hlost hn.2.2.1
      · obtain ⟨e, -, -, -, -, hn, -⟩ := hn.error
        exact hlost hn
  | destroy s =>
      refine (Vm.yields_destroy h (hlive (List.mem_singleton_self s))).bind (fun _ n hn => yields_pure.2 ?_)
        fun _ _ => False.elim
      exact hlost hn.2.1
  | map s addr len w hd offset =>
      refine (Vm.yields_addMapping h (hlive (List.mem_singleton_self s)) addr len w hd offset).bind
        (fun _ n hn => yields_pure.2 fun _ => ?_) fun e n hn _ => ?_
      · obtain ⟨-, -, -, hmapped, -, hothers, -⟩ := hn
        refine .inl ((hothers r fun j hj heq => ?_).trans hp)
        rw [heq, (hmapped.part j hj).1] at hp
        cases hp
      · obtain ⟨e, -, -, -, hback, -⟩ := hn.error
        exact .inl ((congrFun hback.page r).trans hp)
  | unmap s addr =>
      have hkept {n : Machine} (hn : m.Leads (Act.Unmaps m.view n.view s (pageBase addr)) n) : n.Awaits r p b := by
        intro hpresent
        refine .inl (hn.path.kept hp hf ?_ ?_ ?_)
        · rintro (ha | ⟨b, ha, -⟩ | ⟨g, j, saved, -, -, ha, -⟩) <;> cases ha
        · rintro saved (ha | ⟨b, ha, -⟩ | ⟨g, j, saved, -, -, ha, hnone, -⟩)
          · cases ha
          · cases ha
          · cases ha
            simp [hnone] at hpresent
        · rintro (ha | ⟨b, ha, -⟩ | ⟨g, j, saved, -, -, ha, -⟩) <;> cases ha
      exact (Vm.yields_removeMapping h (hlive (List.mem_singleton_self s)) addr).bind
        (fun _ n hn => yields_pure.2 (hkept hn.1)) fun _ n hn => hkept hn.1
  | dropSpace s =>
      refine (Vm.yields_dropSpace h.consistent s).bind (fun _ n hn => yields_pure.2 fun hpresent => ?_)
        fun _ _ => False.elim
      obtain ⟨q, hq⟩ := Option.isSome_iff_exists.1 hpresent
      have hbook := ((hn.1.sound h).coherent.placed hq).1
      rw [hn.2, List.mem_singleton.1 hr, Function.update_self] at hbook
      cases hbook
  | newSpace | newFile | limitFile | overwrite | setFaults => cases hr

end DemandPaging
