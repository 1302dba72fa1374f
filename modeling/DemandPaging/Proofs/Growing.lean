import DemandPaging.Proofs.Mappings

namespace DemandPaging

open Function (update)
open Step Machine

variable {m n : Machine} {s : SpaceId} {va : Addr} {r : PageRef} {p q : Page} {u v w z : View} {P : Act → Prop}
  {new new' : Addr → Prop} {b : Book}

structure Page.Stays (p q : Page) : Prop extends p.Like q where
  kind_eq : q.kind = p.kind

theorem Page.Stays.trans {o : Page} (h : p.Stays q) (k : q.Stays o) : p.Stays o :=
  ⟨h.toLike.trans k.toLike, k.kind_eq.trans h.kind_eq⟩

theorem Page.Stays.refl (p : Page) : p.Stays p := ⟨.refl p, rfl⟩

namespace View

theorem Path.stays (h : Path P v w) (hv : v.Coherent) (hp : v.page r = some p) (hl : ¬ P (.loaded r))
    (hr : ∀ saved, ¬ P (.removed r saved)) (hd : ¬ P (.dropped r.space)) : ∃ q, w.page r = some q ∧ p.Stays q := by
  -- An untouched page is left alone; one with contents keeps its kind wherever they go.
  by_cases hk : p.kind = .untouched
  · obtain ⟨filling, purpose, hst⟩ : ∃ filling purpose, p.state = .untouched filling purpose := by
      cases hst : p.state <;> simp [Page.kind, hst] at hk
      exact ⟨_, _, rfl⟩
    have hf : p.frame = none := hv.frame_of_untouched hp hst
    exact ⟨p, h.kept hp hf hl hr hd, .refl p⟩
  · obtain ⟨q, hq, hlike⟩ := h.like hp hr hd
    exact ⟨q, hq, hlike, hlike.kind hk⟩

theorem Path.quiet_stays (h : Path Act.Quiet v w) (hv : v.Coherent) (hp : v.page r = some p) :
    ∃ q, w.page r = some q ∧ p.Stays q :=
  h.stays hv hp nofun nofun nofun

/-- From `v` to `w`, pages of the stack of a space were added at the addresses `new`, where there had been none. All
other pages that are registered are those that were. -/
structure Extends (v : View) (s : SpaceId) (new : Addr → Prop) (w : View) : Prop where
  added : ∀ va, new va → v.page ⟨s, va⟩ = none ∧
    ∃ p, w.page ⟨s, va⟩ = some p ∧ p.writable = true ∧ p.isStack = true ∧ p.kind = .anon
  stays : ∀ r p, v.page r = some p → ∃ q, w.page r = some q ∧ p.Stays q
  absent : ∀ r, v.page r = none → (r.space = s → ¬ new r.va) → w.page r = none

namespace Extends

theorem was_absent (h : v.Extends s new w) (hr : w.page r = none) : v.page r = none := by
  cases hp : v.page r with
  | none => rfl
  | some p =>
      obtain ⟨q, hq, -⟩ := h.stays r p hp
      rw [hr] at hq
      cases hq

theorem trans (h : v.Extends s new w) (k : w.Extends s new' z) : v.Extends s (fun va => new va ∨ new' va) z where
  added va hva := by
    rcases hva with hva | hva
    · obtain ⟨hnone, p, hp, hw, hs, hk⟩ := h.added va hva
      obtain ⟨q, hq, hpq⟩ := k.stays _ p hp
      exact ⟨hnone, q, hq, hpq.writable.trans hw, hpq.isStack.trans hs, hpq.kind_eq.trans hk⟩
    · obtain ⟨hnone, hadded⟩ := k.added va hva
      exact ⟨h.was_absent hnone, hadded⟩
  stays r p hp := by
    obtain ⟨q, hq, hpq⟩ := h.stays r p hp
    obtain ⟨o, ho, hqo⟩ := k.stays r q hq
    exact ⟨o, ho, hpq.trans hqo⟩
  absent r hr hnew :=
    k.absent r (h.absent r hr fun hs hva => hnew hs (.inl hva)) fun hs hva => hnew hs (.inr hva)

theorem of_iff (h : v.Extends s new w) (hnew : ∀ va, new' va ↔ new va) : v.Extends s new' w := by
  rwa [funext fun va => propext (hnew va)]

theorem congr (h : v.Extends s new w) (hz : z.page = w.page) : v.Extends s new z := by
  refine ⟨fun va hva => ?_, fun r p hp => ?_, fun r hr hnew => ?_⟩ <;> rw [hz]
  · exact h.added va hva
  · exact h.stays r p hp
  · exact h.absent r hr hnew

theorem of_page (h : w.page = v.page) : v.Extends s (fun _ => False) w where
  added _ := False.elim
  stays r p hp := ⟨p, by rw [h, hp], .refl p⟩
  absent r hr _ := by rw [h, hr]

end Extends

section

variable (hnone : v.page ⟨s, va⟩ = none) (hadd : w.page = update v.page ⟨s, va⟩ (some (.lazy true .stack none)))
  (hw : w.Coherent)
include hnone hadd hw

/-- A page that was registered for the stack, and then claimed, was added. -/
theorem Path.extends_claimed {f : FrameId} (h : Path (Act.Loads ⟨s, va⟩) w z) (hz : z.Coherent)
    (hp : z.page ⟨s, va⟩ = some p) (hf : p.frame = some f) : v.Extends s (· = va) z where
  added a ha := by
    rw [ha]
    have hnew : w.page ⟨s, va⟩ = some (.lazy true .stack none) := by rw [hadd, Function.update_self]
    obtain ⟨q, hq, hlike⟩ := h.like hnew (by simp [Act.Loads, Act.Quiet]) (by simp [Act.Loads, Act.Quiet])
    obtain rfl := Option.some.inj (hp.symm.trans hq)
    have hk := Page.finalKind_eq_kind (hz.kind_ne_untouched hp hf)
    exact ⟨hnone, p, hp, hlike.writable, hlike.isStack, hk.symm.trans hlike.finalKind⟩
  stays r q hq := by
    have hne : r ≠ ⟨s, va⟩ := fun heq => by simp [heq, hnone] at hq
    exact h.stays hw (by rw [hadd, Function.update_of_ne hne, hq]) (by simp [Act.Loads, Act.Quiet, hne])
      (by simp [Act.Loads, Act.Quiet]) (by simp [Act.Loads, Act.Quiet])
  absent r hr hnew := by
    have hne : r ≠ ⟨s, va⟩ := fun heq => hnew (by rw [heq]) (by rw [heq])
    exact h.absent (by simp [Act.Loads, Act.Quiet]) (by rw [hadd, Function.update_of_ne hne, hr])

/-- A page that was registered and is taken away again was not added, whatever else was evicted in between. -/
theorem Path.extends_undone (h : Path Act.Quiet w u) (hgone : z.page ⟨s, va⟩ = none)
    (hkept : ∀ r, r ≠ ⟨s, va⟩ → z.page r = u.page r) : v.Extends s (fun _ => False) z where
  added _ := False.elim
  stays r q hq := by
    have hne : r ≠ ⟨s, va⟩ := fun heq => by simp [heq, hnone] at hq
    rw [hkept r hne]
    exact h.quiet_stays hw (by rw [hadd, Function.update_of_ne hne, hq])
  absent r hr _ := by
    by_cases heq : r = ⟨s, va⟩
    · rw [heq, hgone]
    · rw [hkept r heq]
      exact h.absent (by simp [Act.Quiet]) (by rw [hadd, Function.update_of_ne heq, hr])

end

end View

inductive Machine.Obstructs (m : Machine) (s : SpaceId) (va : Addr) : PagingError → Prop
  | taken (hp : (m.view.page ⟨s, va⟩).isSome) : m.Obstructs s va (.pageExists va)
  | unclaimed {u n : Machine} {e : PagingError} (hp : m.view.page ⟨s, va⟩ = none) (hu : m.Makes s IsStackPage u)
      (hnew : u.view.page ⟨s, va⟩ = some (.lazy true .stack none))
      (hclaim : (Vm.makeResident s va).run u = .error (.error e) n) : m.Obstructs s va e

namespace Vm

theorem yields_addStackPage_exact (h : m.Sound) (hs : (m.view.book s).isSome) (ha : isPageAligned va = true)
    (hu : isKernel va = false) (undone : Addr → PagingError → Event) :
    Yields (addStackPage s va undone) m
      (fun _ n => m.view.Extends s (· = va) n.view ∧ n.view.Resident s va)
      (Failing fun e n => m.view.Extends s (fun _ => False) n.view ∧ m.Obstructs s va e) := by
  have hbase : pageBase va = va := pageBase_of_aligned ha
  unfold addStackPage
  refine (yields_registerPart h hs va true .stack none).bind ?_ ?_
  · rintro _ n ⟨-, hnone, hadd, hv⟩
    rw [hbase] at hnone hadd hv
    have hmade : m.Makes s IsStackPage n := hadd.makes fun _ ha => ha.makes hnone rfl
    have hn := hadd.sound h
    have hpage : n.view.page = update m.view.page ⟨s, va⟩ (some (.lazy true .stack none)) := by rw [hv]
    refine yields_bind.2 ((yields_attempt.2 ((yields_makeResident hn (hmade.live hs) va).run_eq.mono ?_ ?_)))
    · rintro _ u ⟨-, hu, -, p, f, hp, hf⟩
      rw [hbase] at hu hp
      exact yields_pure.2 ⟨hu.path.extends_claimed hnone hpage hn.coherent (hu.sound hn).coherent hp hf, p, f,
        by rwa [hbase], hf⟩
    · rintro _ u ⟨hclaim, hfail⟩
      obtain ⟨e, rfl, hu, -⟩ := hfail.error
      have hsecond : m.Makes s IsStackPage u := hmade.trans (hu.makes fun _ ha => ha.makes)
      refine (yields_removeAll (hsecond.sound h) (hsecond.live hs) undone [va]).bind ?_ fun _ _ => False.elim
      rintro _ z ⟨-, hgone, -⟩
      refine yields_fail.2 ⟨hu.path.extends_undone hnone hpage hn.coherent
        (hgone.absent _ ⟨va, List.mem_singleton_self va, by rw [hbase]⟩) fun r hr => hgone.page r ?_,
        .unclaimed hnone hmade (by rw [hpage, Function.update_self]) hclaim⟩
      rintro ⟨a, ha, rfl⟩
      rw [List.mem_singleton.1 ha, hbase] at hr
      exact hr rfl
  · refine fun e n hn => hn.mono ?_
    rintro e ⟨-, -, ⟨log, hlog⟩, hwhy⟩
    obtain ⟨rfl, hp⟩ := hwhy.of_user hu
    rw [hbase] at hp ⊢
    exact ⟨.of_page (by rw [hlog]), .taken hp⟩

end Vm

/-- The stack of `s`, whose book was `b`, was lengthened down to `bottom`. -/
structure View.Lengthened (v : View) (s : SpaceId) (b : Book) (bottom : Addr) (w : View) : Prop where
  pages : v.Extends s (fun va => isPageAligned va = true ∧ bottom ≤ va ∧ va < b.stackBottom) w
  book : w.book = update v.book s (some { b with stackBottom := bottom })

theorem View.Lengthened.none (hb : v.book s = some b) (hpage : v.Extends s (fun _ => False) w)
    (hbook : w.book = v.book) : v.Lengthened s b b.stackBottom w where
  pages := hpage.of_iff fun va => iff_of_false (fun h => Nat.not_lt.2 h.2.1 h.2.2) id
  book := by rw [hbook, eq_comm, Function.update_eq_self_iff, hb]

theorem View.Lengthened.push {bottom : Addr} (ha : isPageAligned b.stackBottom = true)
    (hva : va + pageSize = b.stackBottom) (h : v.Extends s (· = va) w)
    (hbook : w.book = update v.book s (some { b with stackBottom := va })) (hbottom : bottom ≤ va)
    (k : w.Lengthened s { b with stackBottom := va } bottom z) : v.Lengthened s b bottom z where
  pages := by
    have hsub : b.stackBottom - pageSize = va := Nat.sub_eq_of_eq_add hva.symm
    have hlt : va < b.stackBottom := hva ▸ Nat.lt_add_of_pos_right (by decide)
    refine (h.trans k.pages).of_iff fun a => ⟨?_, ?_⟩
    · rintro ⟨haligned, hlow, htop⟩
      by_cases hle : va ≤ a
      · exact .inl (hsub ▸ eq_sub_pageSize haligned ha (hsub.symm ▸ hle) htop)
      · exact .inr ⟨haligned, hlow, Nat.lt_of_not_le hle⟩
    · rintro (heq | ⟨haligned, hlow, htop⟩)
      · rw [heq]
        exact ⟨hsub ▸ aligned_sub ha, hbottom, hlt⟩
      · exact ⟨haligned, hlow, Nat.lt_trans htop hlt⟩
  book := by rw [k.book, hbook, Function.update_idem]

theorem View.Lengthened.before {bottom : Addr} (h : w.Lengthened s b bottom z) (hp : w.page = v.page)
    (hb : w.book = v.book) : v.Lengthened s b bottom z where
  pages := ((Extends.of_page hp).trans h.pages).of_iff fun _ => (or_iff_right id).symm
  book := by rw [h.book, hb]

theorem Machine.Obstructs.before {e : PagingError} (h : n.Obstructs s va e) (hn : m.Makes s IsStackPage n)
    (hext : m.view.Extends s new n.view) (hva : ¬ new va) : m.Obstructs s va e := by
  cases h with
  | taken hp =>
      refine .taken (Option.isSome_iff_ne_none.2 fun hnone => ?_)
      rw [hext.absent _ hnone fun _ => hva] at hp
      cases hp
  | unclaimed hp hu hnew hclaim => exact .unclaimed (hext.was_absent hp) (hn.trans hu) hnew hclaim

theorem Machine.Makes.lowered {u : Machine} (hu : m.Makes s IsStackPage u) (hb : m.view.book s = some b)
    (hub : u.view.book = m.view.book) (va : Addr) :
    let z := (u.withSpace s fun sp => { sp with stackBottom := va }).tell (.stackGrown s va)
    m.Makes s IsStackPage z ∧ z.view.book = update m.view.book s (some { b with stackBottom := va }) ∧
      z.view.page = u.view.page := by
  have hs : (m.view.book s).isSome := by rw [hb]; rfl
  obtain ⟨sp, hsp⟩ := space?_of_book (hu.live hs)
  obtain rfl : sp.book = b := Option.some.inj ((book_eq hsp).symm.trans (hub ▸ hb))
  have hv := (Machine.booked hu.consistent hsp (g := fun x => { x with stackBottom := va }) (fun _ => rfl)
    fun _ => rfl).2
  have hmade := hu.booked hs (g := fun x => { x with stackBottom := va }) (fun _ => rfl) (fun _ => rfl) fun _ => rfl
  refine ⟨hmade.tell _, ?_, ?_⟩
  · rw [view_tell, hv, ← hub]
    rfl
  · rw [view_tell, hv]

namespace Vm

/-- The stack is extended page by page, down to where it should end or down to the page above the first that
cannot be added. -/
theorem yields_extendStack_exact (h : m.Sound) (hb : m.view.book s = some b) (ha : isPageAligned b.stackBottom = true)
    (htop : b.stackBottom ≤ stackTop) (k : Nat) (hroom : k * pageSize ≤ b.stackBottom) :
    Yields (extendStack s k) m
      (fun _ n => m.view.Lengthened s b (b.stackBottom - k * pageSize) n.view ∧
        (k ≠ 0 ∨ m.view.Resident s b.stackBottom → n.view.Resident s (b.stackBottom - k * pageSize)))
      (Failing fun e n => ∃ va, isPageAligned va = true ∧ b.stackBottom ≤ va + k * pageSize ∧ va < b.stackBottom ∧
        m.view.Lengthened s b (va + pageSize) n.view ∧ m.Obstructs s va e) := by
  -- On the pages left to add: the next round begins with the machine and the book that this one leaves.
  induction k generalizing m b with
  | zero =>
      rw [Nat.zero_mul, Nat.sub_zero]
      exact yields_pure.2 ⟨.none hb (.of_page rfl) rfl, fun hk => hk.resolve_left (absurd rfl)⟩
  | succ k ih =>
      obtain ⟨sp, hsp⟩ := space?_of_book (m := m) (s := s) (by rw [hb]; rfl)
      obtain rfl : sp.book = b := Option.some.inj ((book_eq hsp).symm.trans hb)
      have hs : (m.view.book s).isSome := by rw [hb]; rfl
      have hleft : k * pageSize + pageSize ≤ sp.stackBottom := by rwa [Nat.add_mul, Nat.one_mul] at hroom
      have hone : pageSize ≤ sp.stackBottom := Nat.le_trans (Nat.le_add_left ..) hleft
      have hlow : isPageAligned (sp.stackBottom - pageSize) = true := aligned_sub ha
      unfold extendStack
      rw [yields_bind, yields_space hsp, yields_bind, yields_minus, if_pos hone]
      generalize hva : sp.stackBottom - pageSize = va at hlow
      have hnext : va + pageSize = sp.book.stackBottom := hva ▸ Nat.sub_add_cancel hone
      have hlt : va < sp.book.stackBottom := hnext ▸ Nat.lt_add_of_pos_right (by decide)
      have hroom : k * pageSize ≤ va := hva ▸ Nat.le_sub_of_add_le hleft
      refine ((yields_addStackPage h hs va _).and (yields_addStackPage_exact h hs hlow
        (isKernel_eq_false_iff.2 (Nat.lt_of_lt_of_le hlt htop)) _)).bind ?_ ?_
      · rintro _ u ⟨⟨hu, hub, -⟩, hext, hres⟩
        refine yields_bind.2 (yields_modifySpace.2 (yields_bind.2 (yields_emit.2 ?_)))
        obtain ⟨hmade, hzb, hzp⟩ := hu.lowered hb hub va
        generalize (u.withSpace s fun x => { x with stackBottom := va }).tell (.stackGrown s va) = z at hmade hzb hzp
        have hext : m.view.Extends s (· = va) z.view := hext.congr hzp
        have hres : z.view.Resident s va := by rwa [View.Resident, hzp]
        have hzs : z.view.book s = some { sp.book with stackBottom := va } := by rw [hzb, Function.update_self]
        refine (ih (hmade.sound h) hzs hlow (Nat.le_trans (Nat.le_of_lt hlt) htop) hroom).mono ?_ ?_
        · rintro _ n ⟨hn, hnres⟩
          have hfinal : sp.book.stackBottom - (k + 1) * pageSize = va - k * pageSize := by
            rw [← hnext, Nat.add_mul, Nat.one_mul, Nat.add_sub_add_right]
          rw [hfinal]
          exact ⟨.push ha hnext hext hzb (Nat.sub_le ..) hn, fun _ => hnres (.inr hres)⟩
        · refine fun e n hn => hn.mono ?_
          rintro e ⟨low, halow, hle, hlow', hn, hwhy⟩
          refine ⟨low, halow, ?_, Nat.lt_trans hlow' hlt, ?_, ?_⟩
          · rw [← hnext, Nat.add_mul, Nat.one_mul, ← Nat.add_assoc]
            exact Nat.add_le_add_right hle _
          · exact .push ha hnext hext hzb (add_pageSize_le halow hlow hlow') hn
          · exact hwhy.before hmade hext (Nat.ne_of_lt hlow')
      · rintro e n ⟨hfail, hn⟩
        obtain ⟨_, -, -, -, hbook⟩ := hfail.error
        refine hn.mono ?_
        rintro e ⟨hext, hwhy⟩
        refine ⟨va, hlow, ?_, hlt, ?_, hwhy⟩
        · rw [← hnext, Nat.add_mul, Nat.one_mul, Nat.add_comm (k * pageSize)]
          exact Nat.add_le_add_left (Nat.le_add_right ..) _
        · rw [hnext]
          exact .none hb hext hbook

end Vm

end DemandPaging
