import DemandPaging.Proofs.Calls
import DemandPaging.Proofs.Outside

namespace DemandPaging

open Step Machine Vm

variable {m n : Machine} {s : SpaceId} {c : Call} {t : Turn} {a : Act} {e : Stop} {x : Answer}
  {P : Act → Prop} {new : Addr → Page → Prop}

theorem Call.turn_cases (K : Turn → Prop)
    (h : Yields c.exec m (fun x n => K ⟨c, m, .ok x, n⟩) fun e n => K ⟨c, m, .error e, n⟩) :
    K (c.turn m) := by
  unfold Yields at h
  unfold Call.turn
  split <;> simp_all

theorem Act.Quiet.may (ha : a.Quiet) : t.May a := by
  rw [ha]
  trivial

theorem Act.Makes.may (ha : a.Makes t.before.view s new fun va => t.after.view.page ⟨s, va⟩ = none)
    (hs : s ∈ t.call.spaces)
    (hnew : ∀ r p, r.space = s → new r.va p → t.call.Registers t.before.view r p)
    (hundone : ∀ r saved, r.space = s → t.before.view.page r = none →
      t.call.Removes t.before.view t.after.view r saved)
    (hbook : ∀ b, b.regions = t.before.view.regions s → t.call.Books t.before.view s b) : t.May a := by
  cases a with
  | quiet => trivial
  | loaded r =>
      obtain rfl : r.space = s := ha
      exact hs
  | added r p => exact ⟨ha.2.1, hnew r p ha.1 ha.2.2⟩
  | removed r saved =>
      obtain ⟨hr, hnone, hgone⟩ := ha
      refine ⟨?_, hundone r saved hr hnone⟩
      rw [← hgone, ← hr]
  | booked s' b =>
      obtain ⟨rfl, hb⟩ := ha
      exact hbook b hb
  | stored | created | dropped | put => exact ha.elim

theorem Act.Makes.may_grow
    (ha : a.Makes t.before.view s IsStackPage fun va => t.after.view.page ⟨s, va⟩ = none)
    (hc : t.call.Grows s) : t.May a := by
  cases hcall : t.call with
  | read | write | fault | handle | startStack =>
      rw [hcall] at hc
      obtain rfl : s = _ := hc
      refine ha.may ?_ ?_ ?_ ?_ <;> rw [hcall]
      · exact List.mem_singleton_self s
      · exact fun r p hr hp => ⟨hr, hp⟩
      · exact fun r _ hr hp => ⟨hr, hp⟩
      · exact fun b hb => ⟨rfl, hb⟩
  | _ =>
      rw [hcall] at hc
      exact hc.elim

theorem Act.Destroys.may (ha : a.Destroys t.before.view t.after.view s) (hs : t.call = .destroy s)
    (hgone : ∀ va, t.after.view.page ⟨s, va⟩ = none) : t.May a := by
  rcases ha with ha | ⟨b, rfl⟩ | ⟨va, saved, rfl, hl⟩
  · exact ha.may
  · simp [Turn.May, Call.Books, hs]
  · exact ⟨hgone va, by rw [hs]; exact ⟨rfl, hl⟩⟩

theorem Act.Unmaps.may {addr : Addr} (ha : a.Unmaps t.before.view t.after.view s (pageBase addr))
    (hs : t.call = .unmap s addr) : t.May a := by
  rcases ha with ha | ⟨b, rfl, hb⟩ | ⟨g, j, saved, hg, hj, rfl, hnone, hl⟩
  · exact ha.may
  · simp [Turn.May, Call.Books, hs, hb]
  · exact ⟨hnone, by rw [hs]; exact ⟨rfl, ⟨g, j, hg, hj, rfl⟩, hl⟩⟩

namespace Turn

/-- What every turn does: its acts are among those it may do, and a page is nowhere to be found only
where a filling says so. -/
structure Fair (t : Turn) : Prop where
  leads : t.before.Leads t.May t.after
  misses : t.Misses → ∃ r p, t.before.view.page r = some p ∧ p.Blames

theorem fair_of_done (h : m.Leads P n) (hp : ∀ a, P a → Turn.May ⟨c, m, .ok x, n⟩ a)
    (hx : ∀ cp, x ≠ .copied cp) : Fair ⟨c, m, .ok x, n⟩ := by
  refine ⟨h.mono hp, fun hm => ?_⟩
  cases x with
  | copied cp => exact absurd rfl (hx cp)
  | _ => exact hm.elim

theorem fair_of_stop (h : m.Leads P n) (hp : ∀ a, P a → Turn.May ⟨c, m, .error e, n⟩ a)
    (he : e.isMissing = false) : Fair ⟨c, m, .error e, n⟩ := by
  refine ⟨h.mono hp, fun hm => ?_⟩
  rw [show e.isMissing = true from hm] at he
  cases he

theorem fair_of_failing {Q : Machine → Prop}
    (h : Failing (fun err n => Q n ∧ err.isMissing = false) e n) (hq : Q n → m.Leads P n)
    (hp : ∀ a, P a → Turn.May ⟨c, m, .error e, n⟩ a) : Fair ⟨c, m, .error e, n⟩ := by
  obtain ⟨err, rfl, hn, hmiss⟩ := h.error
  exact fair_of_stop (hq hn) hp hmiss

end Turn

open Turn

section

variable (h : m.Sound) (hs : (m.view.book s).isSome)
include h

theorem fair_newSpace : (Call.newSpace.turn m).Fair := by
  refine Call.turn_cases Fair ((yields_newSpace h).bind ?_ fun _ _ => False.elim)
  refine fun s n hn => yields_pure.2 (fair_of_done hn ?_ nofun)
  rintro _ rfl
  rfl

theorem fair_dropSpace (s : SpaceId) :
    ((Call.dropSpace s).turn m).Fair ∧ ((Call.dropSpace s).turn m).after.view.book s = none := by
  refine Call.turn_cases (fun t => t.Fair ∧ t.after.view.book s = none)
    ((yields_dropSpace h.consistent s).bind ?_ fun _ _ => False.elim)
  rintro _ n ⟨hn, hbook⟩
  refine yields_pure.2 ⟨fair_of_done hn ?_ nofun, ?_⟩
  · rintro _ rfl
    rfl
  · rw [hbook]
    exact Function.update_self ..

include hs

theorem fair_register (va : Addr) (w : Bool) (purpose : Purpose) (filling : Option Filling) :
    ((Call.register s va w purpose filling).turn m).Fair := by
  refine Call.turn_cases Fair ((yields_register h hs va w purpose filling).bind ?_ ?_)
  · rintro _ n ⟨-, hnone, hadd, -⟩
    refine yields_pure.2 (fair_of_done hadd ?_ nofun)
    rintro a (ha | rfl)
    · exact ha.may
    · exact ⟨hnone, rfl, rfl⟩
  · intro e n hn
    obtain ⟨err, rfl, hn, -, hmiss, -⟩ := hn.error
    exact fair_of_stop hn (fun _ ha => Act.Quiet.may ha) hmiss

theorem fair_claim (va : Addr) : ((Call.claim s va).turn m).Fair := by
  refine Call.turn_cases Fair ((yields_makeResident h hs va).bind ?_ ?_)
  · rintro _ n ⟨hn, -⟩
    refine yields_pure.2 (fair_of_done hn ?_ nofun)
    rintro a (ha | rfl)
    · exact ha.may
    · simp [Turn.May, Call.spaces]
  · intro e n hn
    obtain ⟨err, rfl, hn, -, hmiss, -⟩ := hn.error
    exact ⟨hn.mono fun _ ha => Act.Quiet.may ha, fun hm => ⟨_, hmiss hm⟩⟩

theorem fair_remove (va : Addr) : ((Call.remove s va).turn m).Fair := by
  have hmay (t : Turn) (ht : t.call = .remove s va) (saved : Bool)
      (hgone : t.after.view.page ⟨s, pageBase va⟩ = none) (a : Act)
      (ha : a.Removes ⟨s, pageBase va⟩ saved) : t.May a := by
    rcases ha with ha | rfl
    · exact ha.may
    · exact ⟨hgone, by rw [ht]; rfl⟩
  refine Call.turn_cases Fair ((yields_remove h hs va).bind ?_ ?_)
  · rintro _ n ⟨hn, -, hgone, -⟩
    exact yields_pure.2 (fair_of_done hn (hmay _ rfl true (hgone.absent _ rfl)) nofun)
  · intro e n hn
    obtain ⟨err, rfl, hn, -, hmiss, hgone, -⟩ := hn.error
    exact fair_of_stop hn (hmay _ rfl false (hgone.absent _ rfl)) hmiss

theorem fair_destroy : ((Call.destroy s).turn m).Fair ∧
    ∀ va, ((Call.destroy s).turn m).after.view.page ⟨s, va⟩ = none := by
  refine Call.turn_cases (fun t => t.Fair ∧ ∀ va, t.after.view.page ⟨s, va⟩ = none)
    ((yields_destroy h hs).bind ?_ fun _ _ => False.elim)
  rintro _ n ⟨hn, hlost, -⟩
  have hgone (va : Addr) : n.view.page ⟨s, va⟩ = none := hlost.absent _ rfl
  exact yields_pure.2 ⟨fair_of_done hn (fun _ ha => Act.Destroys.may ha rfl hgone) nofun, hgone⟩

/-- What a read brings was seen in memory while it went on. -/
theorem fair_read (va len : Nat) : ((Call.read s va len).turn m).Fair ∧
    ∀ cp, ((Call.read s va len).turn m).answer = .ok (.copied cp) →
      (cp.failure = none → cp.bytes.size = len) ∧ ∀ (i : Nat) b, cp.bytes[i]? = some b →
        View.Seen ((Call.read s va len).turn m).May m.view ((Call.read s va len).turn m).after.view s
          (va + i) b := by
  refine Call.turn_cases (fun t => t.Fair ∧ ∀ cp, t.answer = .ok (.copied cp) →
    (cp.failure = none → cp.bytes.size = len) ∧ ∀ (i : Nat) b, cp.bytes[i]? = some b →
      View.Seen t.May m.view t.after.view s (va + i) b)
    ((yields_copyOut h hs va len).bind ?_ fun _ _ => False.elim)
  rintro cp n ⟨hn, next, hbytes, hsize, hfail, hseen⟩
  rw [Array.empty_append] at hbytes
  subst hbytes
  have hmay (a : Act) (ha : a.Reads m.view n.view s) :
      Turn.May ⟨.read s va len, m, .ok (.copied cp), n⟩ a :=
    Act.Makes.may_grow ha rfl
  refine yields_pure.2 ⟨⟨hn.mono hmay, ?_⟩, ?_⟩
  · rintro ⟨err, he, hm⟩
    rw [hfail err he] at hm
    cases hm
  · rintro _ ⟨⟩
    exact ⟨hsize, fun i b hi => (hseen i b hi).mono hmay⟩

/-- What a write stored was seen in memory. -/
theorem fair_write (va : Nat) (data : Array UInt8) : ((Call.write s va data).turn m).Fair ∧
    ∀ s' va' d, ((Call.write s va data).turn m).written = some (s', va', d) →
      ∀ (i : Nat) b, d[i]? = some b → View.Seen ((Call.write s va data).turn m).May m.view
        ((Call.write s va data).turn m).after.view s' (va' + i) b := by
  have hmay (t : Turn) (ht : t.call = .write s va data) (d : Array UInt8)
      (hd : t.written = some (s, va, d)) (a : Act)
      (ha : a.Writes t.before.view s va d fun va => t.after.view.page ⟨s, va⟩ = none) : t.May a := by
    rcases ha with ha | ⟨k, len, hlen, hoff, rfl⟩
    · exact ha.may_grow (by rw [ht]; rfl)
    · exact ⟨s, va, d, k, len, hd, hlen, hoff, rfl, rfl, rfl⟩
  have hseen (t : Turn) (ht : t.call = .write s va data) (d : Array UInt8)
      (hd : t.written = some (s, va, d)) (hwrote : Wrote t.before t.after s va d) :
      ∀ s' va' d', t.written = some (s', va', d') → ∀ (i : Nat) b, d'[i]? = some b →
        View.Seen t.May t.before.view t.after.view s' (va' + i) b := by
    intro s' va' d' hd' i b hi
    cases hd.symm.trans hd'
    exact (hwrote.seen i b hi).mono (hmay t ht d hd)
  refine Call.turn_cases (fun t => t.Fair ∧ ∀ s' va' d, t.written = some (s', va', d) →
    ∀ (i : Nat) b, d[i]? = some b → View.Seen t.May m.view t.after.view s' (va' + i) b)
    ((yields_copyIn h hs va data).bind ?_ ?_)
  · exact fun _ n hn => yields_pure.2 ⟨fair_of_done hn.leads (hmay ⟨_, m, _, n⟩ rfl _ rfl) nofun,
      hseen ⟨_, m, _, n⟩ rfl _ rfl hn⟩
  · intro e n hn
    obtain ⟨err, rfl, done, -, hwrote, rfl⟩ := hn.error
    have hd : Turn.written ⟨.write s va data, m, .error (.error (.badAddress (va + done))), n⟩ =
        some (s, va, data.extract 0 done) := by
      simp [Turn.written]
    exact ⟨fair_of_stop hwrote.leads (hmay ⟨_, m, _, n⟩ rfl _ hd) rfl, hseen ⟨_, m, _, n⟩ rfl _ hd hwrote⟩

theorem fair_saveStack (esp : Addr) : ((Call.saveStack s esp).turn m).Fair := by
  obtain ⟨sp, hsp⟩ := space?_of_book hs
  obtain ⟨hbooked, -⟩ := booked h.consistent hsp (g := fun sp => { sp with savedStack := esp })
    (fun _ => rfl) fun _ => rfl
  refine Call.turn_cases Fair (yields_bind.2 (yields_modifySpace.2 (yields_pure.2
    (fair_of_done hbooked ?_ nofun))))
  rintro _ rfl
  refine ⟨rfl, ?_⟩
  rw [View.regions, book_eq hsp]
  rfl

theorem fair_fault (esp addr : Addr) (user w np : Bool) :
    ((Call.fault s esp addr user w np).turn m).Fair := by
  refine Call.turn_cases Fair ((yields_resolveFault h hs esp addr user w np).bind ?_ ?_)
  · exact fun _ n hn => yields_pure.2 (fair_of_done hn.1.falters (fun _ ha => ha.may_grow rfl) nofun)
  · intro e n hn
    obtain ⟨err, rfl, hn, hmiss⟩ := hn.error
    exact ⟨Leads.mono hn fun _ ha => ha.may_grow rfl, fun hm => ⟨_, hmiss hm⟩⟩

theorem fair_handle (esp addr : Addr) (user w np : Bool) :
    ((Call.handle s esp addr user w np).turn m).Fair := by
  refine Call.turn_cases Fair ((yields_onFault h hs esp addr user w np).bind ?_ fun _ _ => False.elim)
  exact fun _ n hn => yields_pure.2 (fair_of_done hn.1 (fun _ ha => ha.may_grow rfl) nofun)

theorem fair_map (addr len : Nat) (w : Bool) (hd : Handle) (offset : Nat) :
    ((Call.map s addr len w hd offset).turn m).Fair ∧
      ∀ x, ((Call.map s addr len w hd offset).turn m).answer = .ok x →
        isMappable addr len offset = true ∧ ∃ serial, Mapped m.view
          ((Call.map s addr len w hd offset).turn m).after.view s addr len w ⟨hd.file, serial⟩ offset := by
  have hmay (t : Turn) (ht : t.call = .map s addr len w hd offset) (hb : t.before = m) (a : Act)
      (ha : a.Makes m.view s (IsPart addr (mappingPage w ⟨hd.file, m.nextHandle⟩ offset
        (m.view.fileAt hd.file).length len)) fun va => t.after.view.page ⟨s, va⟩ = none) : t.May a := by
    subst hb
    refine ha.may ?_ ?_ ?_ ?_ <;> rw [ht]
    · simp [Call.spaces]
    · exact fun r p hr hp => ⟨hr, _, hp⟩
    · exact fun r _ hr hp => ⟨hr, hp⟩
    · exact fun b hb => ⟨rfl, .inl hb⟩
  refine Call.turn_cases (fun t => t.Fair ∧ ∀ x, t.answer = .ok x → isMappable addr len offset = true ∧
    ∃ serial, Mapped m.view t.after.view s addr len w ⟨hd.file, serial⟩ offset)
    ((yields_addMapping h hs addr len w hd offset).bind ?_ ?_)
  · rintro _ n ⟨-, hok, ⟨u, hu, hn⟩, hmapped, -⟩
    refine yields_pure.2 ⟨fair_of_done (Leads.trans (Leads.mono hu fun _ ha =>
      hmay ⟨_, m, _, n⟩ rfl rfl _ (ha.mono fun _ => False.elim)) (hn.mono ?_)) (fun _ => id) nofun,
      fun _ _ => ⟨hok, _, hmapped⟩⟩
    rintro a (ha | ⟨b, rfl, hb⟩)
    · exact ha.may
    · have hfirst := (hmapped.part 0 (pagesFor_pos hok)).1
      rw [Nat.zero_mul, Nat.add_zero] at hfirst
      exact ⟨rfl, .inr ⟨hfirst, _, hb⟩⟩
  · intro e n hn
    obtain ⟨err, rfl, hn, hmiss, -⟩ := hn.error
    exact ⟨fair_of_stop hn (hmay ⟨_, m, _, n⟩ rfl rfl) hmiss, nofun⟩

theorem fair_unmap (addr : Addr) : ((Call.unmap s addr).turn m).Fair ∧
    ∀ g, (m.view.regions s)[pageBase addr]? = some g →
      pageBase addr + (g.pages - 1) * pageSize < wordLimit → ∀ j < g.pages,
        ((Call.unmap s addr).turn m).after.view.page ⟨s, pageBase addr + j * pageSize⟩ = none := by
  refine Call.turn_cases (fun t => t.Fair ∧ ∀ g, (m.view.regions s)[pageBase addr]? = some g →
    pageBase addr + (g.pages - 1) * pageSize < wordLimit → ∀ j < g.pages,
      t.after.view.page ⟨s, pageBase addr + j * pageSize⟩ = none)
    ((yields_removeMapping h hs addr).bind ?_ ?_)
  · exact fun _ n hn => yields_pure.2 ⟨fair_of_done hn.1 (fun _ ha => Act.Unmaps.may ha rfl) nofun,
      fun g hg _ j hj => hn.2.1.absent _ ⟨g, j, hg, hj, rfl⟩⟩
  · rintro e n ⟨hn, hmiss, g, hg, hlimit⟩
    refine ⟨fair_of_stop hn (fun _ ha => Act.Unmaps.may ha rfl) hmiss, fun g' hg' hlt => ?_⟩
    cases hg.symm.trans hg'
    exact absurd hlt (Nat.not_lt.2 hlimit)

theorem fair_segment (hd : Handle) (offset addr readBytes zeroBytes : Nat) (w : Bool) :
    ((Call.segment s hd offset addr readBytes zeroBytes w).turn m).Fair := by
  have hmay (t : Turn) (ht : t.call = .segment s hd offset addr readBytes zeroBytes w) (a : Act)
      (ha : a.Makes t.before.view s (IsPart addr (segmentPage w hd offset readBytes))
        fun va => t.after.view.page ⟨s, va⟩ = none) : t.May a := by
    refine ha.may ?_ ?_ ?_ ?_ <;> rw [ht]
    · simp [Call.spaces]
    · exact fun r p hr hp => ⟨hr, hp⟩
    · exact fun r _ hr hp => ⟨hr, hp⟩
    · exact fun b hb => ⟨rfl, hb⟩
  refine Call.turn_cases Fair ((yields_addSegment h hs hd offset addr readBytes zeroBytes w).bind ?_ ?_)
  · exact fun _ n hn => yields_pure.2 (fair_of_done hn.falters (hmay ⟨_, m, _, n⟩ rfl) nofun)
  · exact fun e n hn => fair_of_stop hn.1 (hmay ⟨_, m, _, n⟩ rfl) hn.2.1

theorem fair_startStack : ((Call.startStack s).turn m).Fair := by
  refine Call.turn_cases Fair ((yields_startStack h hs).bind ?_ ?_)
  · exact fun _ n hn => yields_pure.2 (fair_of_done hn.falters (fun _ ha => ha.may_grow rfl) nofun)
  · exact fun e n hn => fair_of_failing hn id fun _ ha => ha.may_grow rfl

end

theorem fair_fork {child parent : SpaceId} (h : m.Sound) (hc : (m.view.book child).isSome)
    (hp : (m.view.book parent).isSome) : ((Call.fork child parent).turn m).Fair := by
  have hmay (t : Turn) (ht : t.call = .fork child parent) (hb : t.before = m) (a : Act)
      (ha : a.Makes m.view child (IsInherited m.view parent) fun _ => False) : t.May a := by
    subst hb
    refine (ha.mono fun _ => False.elim).may ?_ ?_ ?_ ?_ <;> rw [ht]
    · simp [Call.spaces]
    · exact fun r p hr hp => ⟨hr, hp⟩
    · exact fun r _ hr _ => hr
    · exact fun b _ => rfl
  have hforks (t : Turn) (ht : t.call = .fork child parent) (hb : t.before = m) (a : Act)
      (ha : a.Forks m.view child parent) : t.May a := by
    rcases ha with ha | ⟨b, rfl⟩
    · exact hmay t ht hb a ha
    · simp [Turn.May, Call.Books, ht]
  refine Call.turn_cases Fair ((yields_fork h hc hp).bind ?_ ?_)
  · rintro _ n ⟨hn, -⟩
    exact yields_pure.2 (fair_of_done hn (hforks ⟨_, m, _, n⟩ rfl rfl) nofun)
  · rintro e n ⟨hmiss, ⟨-, hn, hgone, -⟩ | ⟨-, hn⟩⟩
    · refine fair_of_stop hn ?_ hmiss
      rintro a (ha | ⟨va, saved, rfl⟩)
      · exact hforks ⟨_, m, _, n⟩ rfl rfl a ha
      · exact ⟨hgone va, rfl⟩
    · exact fair_of_stop hn (hmay ⟨_, m, _, n⟩ rfl rfl) hmiss

theorem fair_newFile (h : m.Sound) (bytes : Array UInt8) : ((Call.newFile bytes).turn m).Fair := by
  refine Call.turn_cases Fair ((yields_newFile h.consistent bytes).bind ?_ fun _ _ => False.elim)
  rintro id n ⟨hnone, hn⟩
  refine yields_pure.2 (fair_of_done hn ?_ nofun)
  rintro _ rfl
  exact ⟨hnone, rfl⟩

theorem fair_limitFile (h : m.Sound) (f : FileId) (limits : Nat → FileLimits) :
    ((Call.limitFile f limits).turn m).Fair := by
  refine Call.turn_cases Fair (yields_bind.2 (yields_bind.2 (yields_get.2
    ((yields_replaceFile h.consistent f fun F => { F with limits := limits }).bind ?_
      fun _ _ => False.elim))))
  refine fun _ n hn => yields_pure.2 (fair_of_done hn ?_ nofun)
  rintro _ rfl
  exact ⟨rfl, rfl⟩

theorem fair_overwrite (h : m.Sound) (f : FileId) (offset : Nat) (data : Array UInt8) :
    ((Call.overwrite f offset data).turn m).Fair := by
  refine Call.turn_cases Fair (yields_bind.2 (yields_bind.2 (yields_get.2 (yields_bind.2
    ((yields_replaceFile h.consistent f fun F => (F.overwrite offset data).2).mono ?_
      fun _ _ => False.elim)))))
  refine fun _ n hn => yields_pure.2 (yields_pure.2 (fair_of_done hn ?_ nofun))
  rintro _ rfl
  exact ⟨rfl, rfl⟩

theorem fair_setFaults (h : m.Sound) (faults : Faults) : ((Call.setFaults faults).turn m).Fair := by
  refine Call.turn_cases Fair ((yields_setFaults h.consistent faults).bind ?_ fun _ _ => False.elim)
  rintro _ n ⟨hn, hv⟩
  exact yields_pure.2 (fair_of_done (P := Act.Quiet) ⟨⟨hn, hv ▸ .refl⟩, fun g => by rw [hv]⟩
    (fun _ ha => ha.may) nofun)

/-- Every call keeps to what it may do, on any machine that is sound. -/
theorem fair (h : m.Sound) (hc : ∀ s ∈ c.spaces, (m.space? s).isSome) : (c.turn m).Fair := by
  have hlive {s : SpaceId} (hs : s ∈ c.spaces) : (m.view.book s).isSome := Call.live hc hs
  cases c with
  | newSpace => exact fair_newSpace h
  | dropSpace s => exact (fair_dropSpace h s).1
  | register s va w purpose filling => exact fair_register h (hlive (List.mem_singleton_self s)) ..
  | claim s => exact fair_claim h (hlive (List.mem_singleton_self s)) ..
  | remove s => exact fair_remove h (hlive (List.mem_singleton_self s)) ..
  | destroy s => exact (fair_destroy h (hlive (List.mem_singleton_self s))).1
  | read s => exact (fair_read h (hlive (List.mem_singleton_self s)) ..).1
  | write s => exact (fair_write h (hlive (List.mem_singleton_self s)) ..).1
  | saveStack s => exact fair_saveStack h (hlive (List.mem_singleton_self s)) ..
  | fault s => exact fair_fault h (hlive (List.mem_singleton_self s)) ..
  | handle s => exact fair_handle h (hlive (List.mem_singleton_self s)) ..
  | map s => exact (fair_map h (hlive (List.mem_singleton_self s)) ..).1
  | unmap s => exact (fair_unmap h (hlive (List.mem_singleton_self s)) ..).1
  | segment s => exact fair_segment h (hlive (List.mem_singleton_self s)) ..
  | startStack s => exact fair_startStack h (hlive (List.mem_singleton_self s))
  | fork child parent =>
      exact fair_fork h (hlive (by simp [Call.spaces])) (hlive (by simp [Call.spaces]))
  | newFile => exact fair_newFile h ..
  | limitFile => exact fair_limitFile h ..
  | overwrite => exact fair_overwrite h ..
  | setFaults => exact fair_setFaults h ..

theorem path_turn (h : m.Sound) (hc : ∀ s ∈ c.spaces, (m.space? s).isSome) :
    View.Path (c.turn m).May m.view (c.turn m).after.view := by
  have hpath := (fair h hc).leads.path
  rwa [before_turn] at hpath

theorem sound_turn (h : m.Sound) (hc : ∀ s ∈ c.spaces, (m.space? s).isSome) : (c.turn m).after.Sound :=
  (fair h hc).leads.sound ((before_turn c m).symm ▸ h)

variable {hw : Hardware} {l : List Turn} {r : PageRef} {p : Page} {I : Machine → Prop}

theorem page_boot (r : PageRef) : hw.boot.view.page r = none := by
  simp [Hardware.boot, view, space?, Machine.boot]

/-- Whatever was called, the machine is sound. -/
theorem Runs.sound (h : Runs hw l m) : m.Sound := by
  induction h with
  | boot => exact sound_boot hw.frames_lt hw.disk_lt
  | turn _ c hc ih => exact sound_turn ih hc

/-- Every page that is there was registered by a call. -/
theorem Runs.registered (h : Runs hw l m) (hp : m.view.page r = some p) :
    ∃ t ∈ l, ∃ q, t.call.Registers t.before.view r q := by
  induction h generalizing p with
  | boot =>
      rw [page_boot] at hp
      cases hp
  | @turn l m h c hc ih =>
      cases hq : m.view.page r with
      | some q =>
          obtain ⟨t, ht, hreg⟩ := ih hq
          exact ⟨t, List.mem_cons_of_mem _ ht, hreg⟩
      | none =>
          by_contra hnone
          refine Option.some_ne_none p (hp.symm.trans ((path_turn h.sound hc).absent (fun q ha => ?_) hq))
          exact hnone ⟨_, List.mem_cons_self .., q, ha.2⟩

theorem Lasting.turn (h : Lasting I) (hm : I m) (hc : ∀ faults, c ≠ .setFaults faults) : I (c.turn m).after :=
  Call.turn_cases (fun t => I t.after) (((Vm.lasting_whole h).exec hc).yields m hm)

def Faults.Harmless (f : Faults) : Prop :=
  (∀ count sector, f.read count sector = .none) ∧ ∀ count sector, f.write count sector = .none

theorem Runs.swap (h : Runs hw l m) (hdisk : hw.disk.Reliable)
    (hl : ∀ t ∈ l, ∀ faults, t.call = .setFaults faults → faults.Harmless) :
    m.swap.capacity = hw.disk.size / sectorsPerPage ∧ m.swap.disk.Reliable := by
  induction h with
  | boot => exact ⟨rfl, hdisk⟩
  | @turn l m h c hc ih =>
      obtain ⟨hcap, hrel⟩ := ih fun t ht => hl t (List.mem_cons_of_mem _ ht)
      by_cases hfaults : ∃ faults, c = .setFaults faults
      · obtain ⟨faults, rfl⟩ := hfaults
        obtain ⟨hread, hwrite⟩ := hl _ (List.mem_cons_self ..) faults (call_turn ..)
        exact ⟨hcap, hrel.size_le, hread, hwrite⟩
      · have hsame : m.swap.Same (c.turn m).after.swap :=
          (lasting_swap m.swap).turn (.refl _) fun faults heq => hfaults ⟨faults, heq⟩
        exact ⟨hsame.capacity.trans hcap, hsame.disk.reliable hrel⟩

end DemandPaging
