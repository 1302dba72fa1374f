import DemandPaging.Proofs.Calls

namespace DemandPaging

open Step

namespace Step

variable {σ α β : Type} {I : σ → Prop} {x : Step σ α}

structure Guards (I : σ → Prop) (x : Step σ α) : Prop where
  yields : ∀ s, I s → Yields x s (fun _ => I) fun e t => (∃ err, e = .error err) → I t

theorem Keeps.guards (h : Keeps I x) : Guards I x :=
  ⟨fun s hs => (h.yields s hs).mono (fun _ _ => id) fun _ _ ht _ => ht⟩

theorem Guards.bind {f : α → Step σ β} (hx : Guards I x) (hf : ∀ a, Guards I (f a)) : Guards I (x >>= f) := by
  constructor
  intro s hs
  exact (hx.yields s hs).bind (fun a t ht => (hf a).yields t ht) fun _ _ => id

theorem Guards.attempt (hx : Guards I x) : Guards I (attempt x) := by
  constructor
  intro s hs
  refine yields_attempt.2 ((hx.yields s hs).mono (fun _ _ => id) fun e t ht => ?_)
  cases e with
  | error e => exact ht ⟨e, rfl⟩
  | panic | loop => exact nofun

def Returns (x : Step σ α) (s t : σ) : Prop := (∃ a, x.run s = .ok a t) ∨ ∃ e, x.run s = .error (.error e) t

theorem Guards.returns {s t : σ} (h : Guards I x) (hs : I s) (hx : Returns x s t) : I t := by
  have hy := h.yields s hs
  unfold Yields at hy
  rcases hx with ⟨a, hx⟩ | ⟨e, hx⟩ <;> rw [hx] at hy
  · exact hy
  · exact hy ⟨e, rfl⟩

end Step

namespace Frames

variable {t u : Frames} {f : FrameId} {r : PageRef} {l : List FrameId} {k : Nat}

inductive Stands (t : Frames) (f : FrameId) : FrameStatus → Prop
  | free {e : FrameFlags} (he : t.pool.entry f = .ok e) (ha : e.allocated = false)
      (ho : t.owner f = .ok none) (hc : f ∉ t.clock) : Stands t f .free
  | pinned {e : FrameFlags} (he : t.pool.entry f = .ok e) (ha : e.allocated = true) (hp : e.pinned = true)
      (ho : t.owner f = .ok none) (hc : f ∉ t.clock) : Stands t f .pinned
  | held {e : FrameFlags} {o : PageRef} (he : t.pool.entry f = .ok e) (ha : e.allocated = true)
      (hp : e.pinned = false) (ho : t.owner f = .ok (some o)) (hc : t.clock.count f = 1) : Stands t f .held

theorem Stands.status_eq {st : FrameStatus} (h : t.Stands f st) : t.status f = st := by
  cases h with
  | free he ha => simp [status, FramePool.status_of_entry he, FrameFlags.status, ha]
  | pinned he ha hp => simp [status, FramePool.status_of_entry he, FrameFlags.status, ha, hp]
  | held he ha hp => simp [status, FramePool.status_of_entry he, FrameFlags.status, ha, hp]

/-- Each of the `k` frames is free, pinned, or held by a page and on the clock. -/
structure Parted (k : Nat) (t : Frames) : Prop where
  sized : t.Sized
  size_eq : t.pool.size = k
  nodup : t.clock.Nodup
  mem_clock : ∀ f, f ∈ t.clock ↔ t.status f = .held
  owned : ∀ f, (t.ownerAt f).isSome ↔ t.status f = .held

theorem parted_ofSize (k : Nat) : (ofSize k).Parted k where
  sized := sized_ofSize k
  size_eq := by simp [ofSize, FramePool.ofSize, FramePool.size]
  nodup := List.nodup_nil
  mem_clock f := by
    change f ∈ [] ↔ FramePool.status (.ofSize k) f = _
    rw [FramePool.status_ofSize]
    split <;> simp
  owned f := by
    rw [ownerAt_ofSize]
    change _ ↔ FramePool.status (.ofSize k) f = _
    rw [FramePool.status_ofSize]
    split <;> simp

namespace Parted

theorem capacity_eq (h : t.Parted k) : t.capacity = k := h.sized.memory_size.trans h.size_eq

theorem stands (h : t.Parted k) (hf : f.index < k) : t.Stands f (t.status f) := by
  have hlt : f.index < t.pool.size := h.size_eq ▸ hf
  obtain ⟨e, he, hs⟩ := FramePool.entry_of_lt hlt
  have howner : t.owner f = .ok (t.ownerAt f) := by
    apply h.sized.owner
    exact fun ha => absurd (FramePool.status_eq_absent_iff.1 ha) (Nat.not_le.2 hlt)
  have hmem := h.mem_clock f
  have hown := h.owned f
  change e.status = t.status f at hs
  rw [← hs] at hmem hown ⊢
  cases hst : e.status with
  | absent =>
      unfold FrameFlags.status at hst
      split at hst
      · split at hst <;> cases hst
      · cases hst
  | free =>
      rw [hst] at hmem hown
      refine .free he (FrameFlags.not_allocated_of_status hst) ?_ (by simp [hmem])
      rw [howner, Option.not_isSome_iff_eq_none.1 (mt hown.1 (by simp))]
  | pinned =>
      rw [hst] at hmem hown
      have ha := FrameFlags.allocated_of_status (.inl hst)
      refine .pinned he ha ?_ ?_ (by simp [hmem])
      · simpa [FrameFlags.status, ha] using hst
      · rw [howner, Option.not_isSome_iff_eq_none.1 (mt hown.1 (by simp))]
  | held =>
      rw [hst] at hmem hown
      have ha := FrameFlags.allocated_of_status (.inr hst)
      obtain ⟨o, ho⟩ := Option.isSome_iff_exists.1 (hown.2 rfl)
      refine .held he ha ?_ (howner.trans (congrArg _ ho)) (List.count_eq_one_of_mem h.nodup (hmem.2 rfl))
      simpa [FrameFlags.status, ha] using hst

/-- No frame is in two states, and each is in one. -/
theorem existsUnique_stands (h : t.Parted k) (hf : f.index < k) : ∃! st, t.Stands f st :=
  ⟨_, h.stands hf, fun _ hst => hst.status_eq.symm⟩

theorem stands_iff (h : t.Parted k) {st : FrameStatus} (hst : st ≠ .absent) : t.Stands f st ↔ t.status f = st := by
  refine ⟨Stands.status_eq, fun heq => ?_⟩
  rw [← heq] at hst ⊢
  apply h.stands
  rw [← h.size_eq]
  exact Nat.lt_of_not_le (mt FramePool.status_eq_absent_iff.2 hst)

theorem update (h : t.Parted k) (hu : u.Sized) (hsize : u.pool.size = t.pool.size) (hnodup : u.clock.Nodup)
    {x : Option Owner} {st : FrameStatus} (hx : x.isSome ↔ st = .held) (ho : u.bound = Function.update t.bound f x)
    (hs : u.status = Function.update t.status f st)
    (hc : ∀ g, g ∈ u.clock ↔ g = f ∧ st = .held ∨ g ≠ f ∧ g ∈ t.clock) : u.Parted k where
  sized := hu
  size_eq := hsize.trans h.size_eq
  nodup := hnodup
  mem_clock g := by
    have hg := h.mem_clock g
    rw [hc, hs, Function.update_apply]
    grind
  owned g := by
    have hg := h.owned g
    rw [ownerAt_update ho, hs, Function.update_apply, Function.update_apply]
    cases x <;> grind

theorem withStatus (h : t.Parted k) (hu : u.Sized) (hsize : u.pool.size = t.pool.size) {st : FrameStatus}
    (hf : t.status f ≠ .held) (hst : st ≠ .held) (ho : u.bound = t.bound)
    (hs : u.status = Function.update t.status f st) (hc : u.clock = t.clock) :
    u.Parted k := by
  have hnone : t.bound f = none := by simpa [hf, ownerAt] using mt (h.owned f).1
  refine h.update hu hsize (hc ▸ h.nodup) (x := none) (by simp [hst]) ?_ hs fun g => ?_
  · rw [ho, ← hnone, Function.update_eq_self]
  · have hmem := h.mem_clock f
    rw [hc]
    grind

theorem take (h : t.Parted k) {p : FramePool} (ht : t.pool.take = some (f, p)) :
    t.status f = .free ∧ Parted k { t with pool := p } ∧ p.status f = .pinned := by
  obtain ⟨hfree, hsized, hsize, hstatus⟩ := h.sized.take ht
  refine ⟨hfree, h.withStatus hsized hsize (by simp [hfree]) (by simp) rfl hstatus rfl, ?_⟩
  rw [hstatus, Function.update_self]

theorem release (h : t.Parted k) (hf : t.status f = .pinned) : ∃ u, t.release f = .ok u ∧ u.Parted k := by
  obtain ⟨u, hu, hsized, hsize, ho, hs, -, hc⟩ := h.sized.release hf
  exact ⟨u, hu, h.withStatus hsized hsize (by simp [hf]) (by simp) ho hs hc⟩

theorem install (h : t.Parted k) (hf : t.status f = .pinned) (o : Owner) :
    ∃ u, t.install f o = .ok u ∧ u.Parted k := by
  obtain ⟨u, hu, hsized, hsize, ho, hs, -, hc⟩ := h.sized.install hf o
  have hout : f ∉ t.clock := by simp [h.mem_clock, hf]
  refine ⟨u, hu, h.update hsized hsize ?_ (by simp) ho hs fun g => ?_⟩
  · rw [hc]
    exact h.nodup.append (List.nodup_singleton f) (by simpa using hout)
  · rw [hc, List.mem_append, List.mem_singleton]
    grind

theorem pin (h : t.Parted k) (ho : t.ownerAt f = some r) : ∃ u, t.pin f r = .ok (some u) ∧ u.Parted k := by
  have hf : t.status f = .held := (h.owned f).1 (by simp [ho])
  obtain ⟨u, hu, hsized, hsize, ho, hs, -, hc⟩ := h.sized.pin hf ho
  refine ⟨u, hu, h.update hsized hsize (hc ▸ h.nodup.filter _) (by simp) ho hs fun g => ?_⟩
  rw [hc, List.mem_filter]
  grind

theorem requirePinned_eq_error (h : t.Parted k) (hf : t.status f ≠ .pinned) : ∃ p, t.requirePinned f = .error p := by
  unfold Frames.requirePinned FramePool.isPinned
  cases he : t.pool.entry f with
  | error p => exact ⟨p, rfl⟩
  | ok e =>
      have hst : e.status ≠ .pinned := fun hst => hf ((FramePool.status_of_entry he).trans hst)
      have hmem : e ∈ t.pool.entries := by
        unfold FramePool.entry at he
        split at he <;> cases he
        exact Array.mem_of_getElem? ‹_›
      have hpin : e.pinned = false := by
        rw [Ne, FrameFlags.status_eq_pinned_iff (h.sized.counted.allocated_of_pinned e hmem)] at hst
        exact Bool.eq_false_iff.2 hst
      exact ⟨.notPinned, by simp [Except.map, bind, Except.bind, hpin]⟩

theorem install_eq_error (h : t.Parted k) (hf : t.status f ≠ .pinned) (o : Owner) : ∃ p, t.install f o = .error p := by
  obtain ⟨p, hp⟩ := h.requirePinned_eq_error hf
  exact ⟨p, by simp [Frames.install, hp, bind, Except.bind]⟩

theorem release_eq_error (h : t.Parted k) (hf : t.status f ≠ .pinned) : ∃ p, t.release f = .error p := by
  obtain ⟨p, hp⟩ := h.requirePinned_eq_error hf
  exact ⟨p, by simp [Frames.release, hp, bind, Except.bind]⟩

theorem withContents (h : t.Parted k) (page : Contents) : (t.withContents f page).Parted k :=
  ⟨h.sized.withContents page, h.size_eq, h.nodup, h.mem_clock, h.owned⟩

/-- The frame taken off the clock can be pinned; put back, it is the oldest. -/
theorem victim (h : t.Parted k) (hl : t.clock.Perm (f :: l)) :
    ∃ v, Frames.setOwner { t with clock := l } f none = .ok v ∧
      (∃ u, v.setPinned f true = .ok u ∧ u.Parted k ∧ u.status f = .pinned) ∧
      ∀ o, ∃ u, v.reinstate f o = .ok u ∧ u.Parted k := by
  have hf : t.status f = .held := (h.mem_clock f).1 (hl.mem_iff.2 List.mem_cons_self)
  have hpresent : t.status f ≠ .absent := by simp [hf]
  have hnodup := hl.nodup_iff.1 h.nodup
  obtain ⟨hout, hrest⟩ := List.nodup_cons.1 hnodup
  have hsized : Sized { t with clock := l } := ⟨h.sized.counted, h.sized.owners_size, h.sized.memory_size⟩
  have hnone := hsized.withOwner (f := f) none
  have howner := hsized.bound_withOwner hpresent none
  refine ⟨_, hsized.setOwner_eq hpresent none, ?_, ?_⟩
  · obtain ⟨p, hp, hcount, hsize, hstatus⟩ := hnone.setPinned (.inr hf) true
    refine ⟨_, hp _ _ _, h.update (hnone.withPool hcount hsize) hsize hrest (by simp) howner hstatus fun g => ?_,
      (congrFun hstatus f).trans (Function.update_self ..)⟩
    have hperm := hl.mem_iff (a := g)
    change g ∈ l ↔ _
    grind
  · intro o
    have hback := hnone.bound_withOwner (f := f) hpresent (some o)
    rw [howner, Function.update_idem] at hback
    refine ⟨_, hnone.reinstate_eq hpresent o, ?_⟩
    refine h.update ⟨h.sized.counted, (hnone.withOwner (some o)).owners_size, h.sized.memory_size⟩ rfl hnodup (by simp)
      hback (hf ▸ (Function.update_eq_self f t.status).symm) fun g => ?_
    have hperm := hl.mem_iff (a := g)
    change g ∈ f :: l ↔ _
    grind

end Parted

theorem pin_refused (hr : t.owner f ≠ .ok (some r)) : t.pin f r = .ok none ∨ ∃ p, t.pin f r = .error p := by
  unfold pin
  cases howner : t.owner f with
  | error p => exact .inr ⟨p, rfl⟩
  | ok x =>
      have hx : x ≠ some r := fun hx => hr (howner.trans (congrArg _ hx))
      exact .inl (by simp [bind, Except.bind, hx])

end Frames

namespace Vm

variable {m : Machine} {k : Nat}

theorem basic_frames (J : Frames → Prop) : Basic (fun _ => True) fun _ => Keeps fun m => J m.frames where
  pure := keeps_pure
  throw := keeps_throw
  bind := Keeps.bind
  attempt := Keeps.attempt
  get := keeps_get
  emit _ := ⟨fun _ => id⟩
  modifySpace _ _ := ⟨fun _ => id⟩
  store _ := keeps_zoom (R := fun _ _ => True) (fun _ => by unfold Yields; split <;> trivial) fun _ _ h _ => h
  peek _ _ := keeps_zoom (R := fun _ _ => True) (fun _ => by unfold Yields; split <;> trivial) fun _ _ h _ => h
  fetch _ _ := keeps_zoom (R := fun _ _ => True) (fun _ => by unfold Yields; split <;> trivial) fun _ _ h _ => h
  free _ := keeps_zoom (R := fun _ _ => True) (fun _ => by unfold Yields; split <;> trivial) fun _ _ h _ => h
  load _ _ := keeps_get.bind fun _ => (keeps_ofPanic _).bind fun _ => Keeps.bind ⟨fun _ => id⟩ fun _ => keeps_pure _
  save _ _ := keeps_get.bind fun _ => Keeps.bind ⟨fun _ => id⟩ fun _ => Keeps.bind ⟨fun _ => id⟩ fun _ => keeps_check _
  duplicate _ := ⟨fun _ => id⟩

theorem takeVictim_perm (m : Machine) :
    Yields takeVictim m (fun f n => ∃ l, m.frames.clock.Perm (f :: l) ∧ n.frames = { m.frames with clock := l })
      fun _ n => n.frames = m.frames := by
  have hsweep := yields_sweep (m := m) (I := fun n => n.frames = m.frames) (E := fun _ n => n.frames = m.frames)
    m.frames.clock [] (fun f _ => ((basic_frames (· = m.frames)).wasReferenced (fun _ => trivial) f).yields) rfl
  unfold takeVictim
  rw [yields_bind, yields_get]
  refine Yields.bind hsweep (fun c n hn => ?_) fun _ _ => id
  obtain ⟨hn, hperm⟩ := hn
  have hclock (f : FrameId) (rest : List FrameId) (hp : m.frames.clock.Perm (f :: rest)) :
      Yields (do
        modify fun m : Machine => { m with frames := { m.frames with clock := rest } }
        pure f) n
        (fun f u => ∃ l, m.frames.clock.Perm (f :: l) ∧ u.frames = { m.frames with clock := l })
        fun _ u => u.frames = m.frames :=
    yields_bind.2 (yields_modify.2 (yields_pure.2 ⟨rest, hp, by rw [hn]⟩))
  match c with
  | (some f, rest) | (none, f :: rest) => exact hclock f rest hperm
  | (none, []) => exact hn

theorem saveVictim_frames (m : Machine) (f : FrameId) (o : Owner) :
    Yields (saveVictim f o) m (fun _ n => n.frames = m.frames)
      fun e n => (∃ err, e = .error err) → m.frames.reinstate f o = .ok n.frames := by
  have hvacate := ((basic_frames (· = m.frames)).vacate (s := o.link.space) trivial o.va f).yields m rfl
  unfold saveVictim
  rw [yields_bind, yields_get]
  split
  · refine yields_bind.2 (yields_attempt.2 (hvacate.mono (fun _ n hn => yields_pure.2 hn) fun e n hn => ?_))
    cases e with
    | error e =>
        refine yields_bind.2 (yields_emit.2 (yields_bind.2 (yields_modifyFrames.2 ?_)))
        rw [show (n.tell (.evictionFailed o.va f e)).frames = m.frames from hn]
        cases hback : m.frames.reinstate f o with
        | ok => exact yields_fail.2 fun _ => rfl
        | error => exact nofun
    | panic | loop => exact nofun
  · exact yields_pure.2 rfl

/-- The frame that is reclaimed was held, and no frame is lost if that fails. -/
theorem parted_evict (h : m.frames.Parted k) :
    Yields evict m
      (fun f n => n.frames.Parted k ∧ m.frames.status f = .held ∧ n.frames.status f = .pinned)
      fun e n => (∃ err, e = .error err) → n.frames.Parted k := by
  refine (takeVictim_perm m).bind (fun f n hn => ?_) fun _ _ hn _ => hn ▸ h
  obtain ⟨l, hperm, hn⟩ := hn
  have hheld : m.frames.status f = .held := (h.mem_clock f).1 (hperm.mem_iff.2 List.mem_cons_self)
  obtain ⟨x, hx, ⟨u, hu, huparted, hupinned⟩, hback⟩ := h.victim hperm
  obtain ⟨r, hr⟩ := Option.isSome_iff_exists.1 ((h.owned f).2 hheld)
  obtain ⟨o, ho, -⟩ := Option.map_eq_some_iff.1 hr
  have hbinding : n.frames.binding f = .ok (some o) := by
    rw [hn, ← ho]
    exact h.sized.binding (by simp [hheld])
  rw [yields_bind, yields_get, yields_bind, yields_ofPanic, hbinding]
  dsimp only
  rw [yields_bind, yields_modifyFrames, hn, hx]
  refine (saveVictim_frames _ f o).bind (fun _ v hv => ?_) fun _ v hv he => ?_
  · have hpin : (v.tell (.evicted o.va o.link.id f)).frames.setPinned f true = .ok u := by
      change v.frames.setPinned f true = _
      rw [hv, ← hu]
    refine yields_bind.2 (yields_emit.2 (yields_bind.2 (yields_modifyFrames.2 ?_)))
    rw [hpin]
    exact yields_pure.2 ⟨huparted, hheld, hupinned⟩
  · obtain ⟨w, hw, hparted⟩ := hback o
    rw [Except.ok.inj ((hv he).symm.trans hw)]
    exact hparted

/-- A frame that was pinned is not handed out. -/
theorem parted_acquire (h : m.frames.Parted k) :
    Yields acquire m
      (fun f n => n.frames.Parted k ∧ m.frames.status f ≠ .pinned ∧ n.frames.status f = .pinned)
      fun e n => (∃ err, e = .error err) → n.frames.Parted k := by
  have hzeroed (f : FrameId) (n : Machine) (hn : n.frames.Parted k) (hout : m.frames.status f ≠ .pinned)
      (hin : n.frames.status f = .pinned) :
      Yields (do
        setContents f (Buffer.zero pageSize)
        emit (.frameAcquired f)
        pure f) n
        (fun f n => n.frames.Parted k ∧ m.frames.status f ≠ .pinned ∧ n.frames.status f = .pinned)
        fun e n => (∃ err, e = .error err) → n.frames.Parted k := by
    unfold setContents
    rw [yields_bind, yields_modifyFrames, hn.sized.setContents_eq (Frames.ne_absent_of_pinned hin)]
    exact yields_bind.2 (yields_emit.2 (yields_pure.2 ⟨hn.withContents _, hout, hin⟩))
  unfold acquire
  rw [yields_bind, yields_get]
  dsimp only
  rw [FramePool.checkedTake_eq, yields_bind, yields_ofPanic]
  cases htake : m.frames.pool.take with
  | none =>
      exact (parted_evict h).bind (fun f n hn => hzeroed f n hn.1 (by simp [hn.2.1]) hn.2.2) fun _ _ => id
  | some x =>
      obtain ⟨hfree, hparted, hpinned⟩ := h.take htake
      exact yields_bind.2 (yields_set.2 (hzeroed x.1 _ hparted (by simp [hfree]) hpinned))

theorem guards_setContents (f : FrameId) (page : Contents) :
    Guards (fun m => m.frames.Parted k) (setContents f page) := by
  constructor
  intro m h
  refine yields_modifyFrames.2 ?_
  cases hset : m.frames.setContents f page with
  | error => exact nofun
  | ok u =>
      obtain rfl := Frames.eq_of_setContents hset
      exact h.withContents page

theorem guards_install (f : FrameId) (o : Owner) : Guards (fun m => m.frames.Parted k) (install f o) := by
  constructor
  intro m h
  refine yields_modifyFrames.2 ?_
  by_cases hf : m.frames.status f = .pinned
  · obtain ⟨u, hu, hparted⟩ := h.install hf o
    rw [hu]
    exact hparted
  · obtain ⟨p, hp⟩ := h.install_eq_error hf o
    rw [hp]
    exact nofun

theorem guards_release (f : FrameId) : Guards (fun m => m.frames.Parted k) (release f) := by
  constructor
  intro m h
  refine yields_bind.2 (yields_modifyFrames.2 ?_)
  by_cases hf : m.frames.status f = .pinned
  · obtain ⟨u, hu, hparted⟩ := h.release hf
    rw [hu]
    exact yields_emit.2 hparted
  · obtain ⟨p, hp⟩ := h.release_eq_error hf
    rw [hp]
    exact nofun

theorem guards_pin (f : FrameId) (r : PageRef) : Guards (fun m => m.frames.Parted k) (pin f r) := by
  constructor
  intro m h
  unfold pin
  rw [yields_bind, yields_get, yields_bind, yields_ofPanic]
  by_cases ho : m.frames.owner f = .ok (some r)
  · obtain ⟨u, hu, hparted⟩ := h.pin (Frames.owner_eq_ok_iff.1 ho)
    rw [hu]
    exact yields_bind.2 (yields_modify.2 (yields_pure.2 hparted))
  · obtain hp | ⟨p, hp⟩ := Frames.pin_refused ho
    · rw [hp]
      exact yields_pure.2 h
    · rw [hp]
      exact nofun

/-- Whatever is done with a machine, its frames stay parted unless it breaks off. -/
theorem parted_whole : Whole fun _ => Guards fun m => m.frames.Parted k where
  pure a := (keeps_pure a).guards
  throw e := (keeps_throw e).guards
  bind := Guards.bind
  attempt := Guards.attempt
  get := keeps_get.guards
  emit _ := Keeps.guards ⟨fun _ => id⟩
  modifySpace _ _ := Keeps.guards ⟨fun _ => id⟩
  store page := ((basic_frames (Frames.Parted k)).store page).guards
  peek slot page := ((basic_frames (Frames.Parted k)).peek slot page).guards
  fetch slot page := ((basic_frames (Frames.Parted k)).fetch slot page).guards
  free slot := ((basic_frames (Frames.Parted k)).free slot).guards
  load b buf := ((basic_frames (Frames.Parted k)).load b buf).guards
  save b page := ((basic_frames (Frames.Parted k)).save b page).guards
  duplicate _ := Keeps.guards ⟨fun _ => id⟩
  setContents := guards_setContents
  install f r := guards_install f r
  pin := guards_pin
  release := guards_release
  tell _ := Keeps.guards ⟨fun _ => id⟩
  acquire := ⟨fun _ h => (parted_acquire h).mono (fun _ _ hn => hn.1) fun _ _ => id⟩
  putFile _ _ := Keeps.guards ⟨fun _ => id⟩
  newFile _ := Keeps.guards ⟨fun _ => id⟩
  newSpace := Keeps.guards ⟨fun _ => id⟩
  dropSpace _ := Keeps.guards ⟨fun _ => id⟩

end Vm

/-- What a machine may come to if, among calls, its frames and page tables are used in ways that no call would
use them. What breaks off is not among them. -/
inductive Mishandled (frames : Nat) (disk : Disk) : Machine → Prop
  | boot : Mishandled frames disk (.boot frames disk)
  | call {m n : Machine} (h : Mishandled frames disk m) (c : Call) (hr : Returns c.exec m n) :
      Mishandled frames disk n
  | acquire {m n : Machine} (h : Mishandled frames disk m) (hr : Returns Vm.acquire m n) : Mishandled frames disk n
  | install {m n : Machine} (h : Mishandled frames disk m) (f : FrameId) (o : Owner)
      (hr : Returns (Vm.install f o) m n) : Mishandled frames disk n
  | pin {m n : Machine} (h : Mishandled frames disk m) (f : FrameId) (r : PageRef)
      (hr : Returns (Vm.pin f r) m n) : Mishandled frames disk n
  | release {m n : Machine} (h : Mishandled frames disk m) (f : FrameId) (hr : Returns (Vm.release f) m n) :
      Mishandled frames disk n
  | table {m n : Machine} (h : Mishandled frames disk m) (s : SpaceId) (g : PageTable → PageTable)
      (hr : Returns (Vm.modifyTable s g) m n) : Mishandled frames disk n

theorem Mishandled.parted {frames : Nat} {disk : Disk} {m : Machine} (h : Mishandled frames disk m) :
    m.frames.Parted frames := by
  induction h with
  | boot => exact Frames.parted_ofSize frames
  | @call m n _ c hr ih =>
      by_cases hc : ∃ faults, c = .setFaults faults
      · obtain ⟨faults, rfl⟩ := hc
        have hfaults : Guards (fun m => m.frames.Parted frames) (Call.setFaults faults).exec :=
          Keeps.guards ⟨fun _ => id⟩
        exact hfaults.returns ih hr
      · exact (Vm.parted_whole.exec fun faults heq => hc ⟨faults, heq⟩).returns ih hr
  | acquire _ hr ih => exact Vm.parted_whole.acquire.returns ih hr
  | install _ f o hr ih => exact (Vm.guards_install f o).returns ih hr
  | pin _ f r hr ih => exact (Vm.guards_pin f r).returns ih hr
  | release _ f hr ih => exact (Vm.guards_release f).returns ih hr
  | table _ s g hr ih => exact (Vm.parted_whole.modifyTable (s := s) trivial g).returns ih hr

/-- Free, pinned and held frames part the `k` frames of a machine between them, and using one in a state that it is
not in changes nothing. -/
structure Partition (k : Nat) (m : Machine) : Prop where
  capacity : m.frames.capacity = k
  existsUnique : ∀ f : FrameId, f.index < k → ∃! st, m.frames.Stands f st
  free : ∃ l : List FrameId, l.Nodup ∧ (∀ f, f ∈ l ↔ m.frames.Stands f .free) ∧ m.frames.freeFrames = l.length
  nodup : m.frames.clock.Nodup
  mem_clock : ∀ f, f ∈ m.frames.clock ↔ m.frames.Stands f .held
  acquired : ∀ f n, Vm.acquire.run m = .ok f n → ¬ m.frames.Stands f .pinned ∧ n.frames.Stands f .pinned
  install : ∀ f o, ¬ m.frames.Stands f .pinned → ∃ p, (Vm.install f o).run m = .error (.panic p) m
  release : ∀ f, ¬ m.frames.Stands f .pinned → ∃ p, (Vm.release f).run m = .error (.panic p) m
  pin : ∀ f r, m.frames.owner f ≠ .ok (some r) →
    (Vm.pin f r).run m = .ok false m ∨ ∃ p, (Vm.pin f r).run m = .error (.panic p) m

theorem Frames.Parted.exists_free {k : Nat} {t : Frames} (h : t.Parted k) :
    ∃ l : List FrameId, l.Nodup ∧ (∀ f, f ∈ l ↔ t.Stands f .free) ∧ t.freeFrames = l.length := by
  refine ⟨((List.range t.pool.size).filter fun i => t.status ⟨i⟩ = .free).map FrameId.mk, ?_, ?_, ?_⟩
  · refine (List.nodup_range.filter _).map fun i j hij => ?_
    exact FrameId.mk.inj hij
  · intro f
    rw [h.stands_iff (by simp), List.mem_map]
    constructor
    · rintro ⟨i, hi, rfl⟩
      simpa using (List.mem_filter.1 hi).2
    · intro hf
      refine ⟨f.index, List.mem_filter.2 ⟨List.mem_range.2 ?_, by simpa using hf⟩, rfl⟩
      refine Nat.lt_of_not_le (mt FramePool.status_eq_absent_iff.2 fun ha => ?_)
      cases hf.symm.trans ha
  · rw [List.length_map, ← List.countP_eq_length_filter]
    exact h.sized.counted.freeFrames_eq

theorem Vm.run_pin_refused {m : Machine} {f : FrameId} {r : PageRef} (hr : m.frames.owner f ≠ .ok (some r)) :
    (pin f r).run m = .ok false m ∨ ∃ p, (pin f r).run m = .error (.panic p) m := by
  unfold pin
  obtain hp | ⟨p, hp⟩ := Frames.pin_refused hr
  · left
    apply yields_run_eq.1
    rw [yields_bind, yields_get, yields_bind, yields_ofPanic, hp]
    exact yields_pure.2 rfl
  · refine .inr ⟨p, ?_⟩
    apply yields_run_eq.1
    rw [yields_bind, yields_get, yields_bind, yields_ofPanic, hp]

theorem Frames.Parted.split {k : Nat} {m : Machine} (h : m.frames.Parted k) : Partition k m where
  capacity := h.capacity_eq
  existsUnique _ := h.existsUnique_stands
  free := h.exists_free
  nodup := h.nodup
  mem_clock f := (h.mem_clock f).trans (h.stands_iff (by simp)).symm
  acquired f n hrun := by
    obtain ⟨hparted, hout, hin⟩ := (Vm.parted_acquire h).of_ok hrun
    exact ⟨mt Stands.status_eq hout, (hparted.stands_iff (by simp)).2 hin⟩
  install f o hf := by
    obtain ⟨p, hp⟩ := h.install_eq_error (mt (h.stands_iff (by simp)).2 hf) o
    exact ⟨p, yields_run_eq.1 (Vm.yields_modifyFrames.2 (by rw [hp]))⟩
  release f hf := by
    obtain ⟨p, hp⟩ := h.release_eq_error (mt (h.stands_iff (by simp)).2 hf)
    exact ⟨p, yields_run_eq.1 (yields_bind.2 (Vm.yields_modifyFrames.2 (by rw [hp])))⟩
  pin _ _ := Vm.run_pin_refused

/-- Every frame is free, pinned or held, however the frames are used. -/
theorem Mishandled.partition {frames : Nat} {disk : Disk} {m : Machine} (h : Mishandled frames disk m) :
    Partition frames m :=
  h.parted.split

/-- The only frame, installed for a space that is gone and says it is another, and then handed out again. -/
def reacquired : Machine :=
  Vm.acquire.last ((Vm.install ⟨0⟩ ⟨⟨⟨7⟩, ⟨8⟩⟩, 0x1000⟩).last (Vm.acquire.last (.boot 1 (.blank 0 16))))

theorem partition_of_reacquired : Partition 1 reacquired ∧ reacquired.frames.Stands ⟨0⟩ .pinned :=
  have hparted : Mishandled 1 (.blank 0 16) reacquired :=
    .acquire (.install (.acquire .boot (.inl ⟨_, rfl⟩)) ⟨0⟩ ⟨⟨⟨7⟩, ⟨8⟩⟩, 0x1000⟩ (.inl ⟨_, rfl⟩)) (.inl ⟨_, rfl⟩)
  ⟨hparted.partition, (hparted.parted.stands_iff (by decide)).2 (by decide +kernel)⟩

end DemandPaging
