import DemandPaging.Proofs.Keeping
import DemandPaging.Proofs.UserBytes

namespace DemandPaging

open Step Machine

variable {m n : Machine} {s : SpaceId} {va addr : Addr} {p : Page} {r : PageRef} {v w : View} {P : Act → Prop}
  {new : Addr → Page → Prop} {undone : Addr → Prop}

theorem View.Path.makes_like (h : View.Path (Act.Makes v s new undone) v w) (hp : v.page r = some p) :
    ∃ q, w.page r = some q ∧ p.Like q := by
  refine h.like hp (fun saved ha => ?_) id
  rw [ha.2.1] at hp
  cases hp

namespace View

/-- From `bottom` up to where stacks begin, a space has a writable page of the stack at every page
address, save where the page may be gone. -/
structure Stacked (v : View) (s : SpaceId) (gone : Addr → Prop) (bottom : Addr) : Prop where
  aligned : isPageAligned bottom = true
  limit_le : stackLimit ≤ bottom
  le_top : bottom ≤ stackTop
  page : ∀ va, ¬ gone va → isPageAligned va = true → bottom ≤ va → va < stackTop →
    ∃ p, v.page ⟨s, va⟩ = some p ∧ p.writable = true ∧ p.isStack = true

/-- The stack of a space is in one piece, down to the bottom that its book says, save where a page of it may be
gone. -/
def Whole (v : View) (s : SpaceId) (gone : Addr → Prop) : Prop :=
  ∀ b, v.book s = some b → v.Stacked s gone b.stackBottom

theorem stacked_top (v : View) (s : SpaceId) (gone : Addr → Prop) : v.Stacked s gone stackTop :=
  ⟨rfl, by decide, Nat.le_refl _, fun _ _ _ hle hlt => absurd hlt (Nat.not_lt.2 hle)⟩

variable {gone : Addr → Prop} {bottom : Addr}

theorem Stacked.later (h : v.Stacked s gone bottom)
    (hlike : ∀ va p, ¬ gone va → v.page ⟨s, va⟩ = some p → p.isStack = true →
      ∃ q, w.page ⟨s, va⟩ = some q ∧ p.Like q) :
    w.Stacked s gone bottom := by
  refine ⟨h.aligned, h.limit_le, h.le_top, fun va hva ha hle hlt => ?_⟩
  obtain ⟨p, hp, hw, hs⟩ := h.page va hva ha hle hlt
  obtain ⟨q, hq, hpq⟩ := hlike va p hva hp hs
  exact ⟨q, hq, hpq.writable.trans hw, hpq.isStack.trans hs⟩

/-- One more page below the bottom is the new bottom. -/
theorem Stacked.push (h : v.Stacked s gone bottom) (hroom : stackLimit + pageSize ≤ bottom)
    (hp : v.page ⟨s, bottom - pageSize⟩ = some p) (hw : p.writable = true) (hs : p.isStack = true) :
    v.Stacked s gone (bottom - pageSize) := by
  refine ⟨aligned_sub h.aligned, Nat.le_sub_of_add_le hroom, Nat.le_trans (Nat.sub_le ..) h.le_top, ?_⟩
  intro va hgone ha hle hlt
  by_cases hva : bottom ≤ va
  · exact h.page va hgone ha hva hlt
  · exact ⟨p, by rw [eq_sub_pageSize ha h.aligned hle (Nat.lt_of_not_le hva), hp], hw, hs⟩

/-- The stack of a space stays in one piece as long as its pages stay what they are and the bottom
where it is. -/
theorem Whole.later (h : v.Whole s gone)
    (hb : ∀ b, w.book s = some b → ∃ b₀, v.book s = some b₀ ∧ b₀.stackBottom = b.stackBottom)
    (hlike : ∀ va p, ¬ gone va → v.page ⟨s, va⟩ = some p → p.isStack = true →
      ∃ q, w.page ⟨s, va⟩ = some q ∧ p.Like q) :
    w.Whole s gone := by
  intro b hw
  obtain ⟨b₀, hv, hbottom⟩ := hb b hw
  rw [← hbottom]
  exact (h b₀ hv).later hlike

end View

structure Machine.Upright (s : SpaceId) (gone : Addr → Prop) (m : Machine) : Prop where
  sound : m.Sound
  live : (m.view.book s).isSome
  whole : m.view.Whole s gone

variable {gone : Addr → Prop}

namespace Machine

theorem Upright.leads (h : m.Upright s gone) (hn : m.Leads P n) (hbook : n.view.book = m.view.book)
    (hlike : ∀ va p, m.view.page ⟨s, va⟩ = some p → ∃ q, n.view.page ⟨s, va⟩ = some q ∧ p.Like q) :
    n.Upright s gone :=
  ⟨hn.sound h.sound, by rw [hbook]; exact h.live,
    h.whole.later (fun b hb => ⟨b, by rw [← hbook, hb], rfl⟩) fun va p _ hp _ => hlike va p hp⟩

theorem Upright.loads (h : m.Upright s gone) (hn : m.Leads (Act.Loads r) n) : n.Upright s gone :=
  h.leads hn hn.path.loads_book fun _ _ hp =>
    hn.path.like hp (by simp [Act.Loads, Act.Quiet]) (by simp [Act.Loads, Act.Quiet])

theorem Upright.quiet (h : m.Upright s gone) (hn : m.Leads Act.Quiet n) : n.Upright s gone :=
  h.loads (r := ⟨s, 0⟩) (hn.mono fun _ => .inl)

theorem Upright.tell (h : m.Upright s gone) (e : Event) : (m.tell e).Upright s gone :=
  h.quiet ((Leads.refl h.sound.consistent).tell Act.quiet_quiet e)

theorem Upright.rebooked (h : m.Upright s gone) {g : Space → Space} (hp : ∀ sp, (g sp).pages = sp.pages)
    (ht : ∀ sp, (g sp).table = sp.table) (hg : ∀ sp, m.view.Stacked s gone (g sp).stackBottom) :
    (m.withSpace s g).Upright s gone ∧ ∀ b, (m.withSpace s g).view.book s = some b → ∃ sp, b = (g sp).book := by
  obtain ⟨sp, hsp⟩ := space?_of_book h.live
  obtain ⟨hbooked, hv⟩ := booked h.sound.consistent hsp hp ht
  have hbook : (m.withSpace s g).view.book s = some (g sp).book := by
    rw [hv]
    exact Function.update_self ..
  refine ⟨⟨hbooked.sound h.sound, by rw [hbook]; rfl, fun b hb => ?_⟩, fun b hb => ⟨sp, ?_⟩⟩
  · obtain rfl := Option.some.inj (hbook.symm.trans hb)
    exact (hg sp).later fun va p _ hp _ => ⟨p, by rw [hv]; exact hp, .refl p⟩
  · exact Option.some.inj (hb.symm.trans hbook)

end Machine

namespace Vm

theorem upright_emit (e : Event) : Keeps (Upright s gone) (emit e) := ⟨fun _ h => h.tell e⟩

theorem upright_makeResident (va : Addr) : Keeps (Upright s gone) (makeResident s va) :=
  ⟨fun _ h => (yields_makeResident h.sound h.live va).mono (fun _ _ hn => h.loads hn.1) fun _ _ hn => by
    obtain ⟨e, -, hn, -⟩ := hn.error
    exact h.quiet hn⟩

theorem upright_addStackPage (h : m.Upright s gone) (va : Addr) (undone : Addr → PagingError → Event) :
    Yields (addStackPage s va undone) m
      (fun _ n => n.Upright s gone ∧ n.view.book = m.view.book ∧
        ∃ p, n.view.page ⟨s, pageBase va⟩ = some p ∧ p.writable = true ∧ p.isStack = true)
      fun _ n => n.Upright s gone := by
  refine (yields_addStackPage h.sound h.live va undone).mono ?_ fun e n hn => ?_
  · rintro _ n ⟨hn, hbook, p, hp, hlike⟩
    exact ⟨h.leads hn hbook fun _ _ hp => hn.path.makes_like hp, hbook, p, hp, hlike.writable, hlike.isStack⟩
  · obtain ⟨err, -, hn, -, hbook⟩ := hn.error
    exact h.leads hn hbook fun _ _ hp => hn.path.makes_like hp

/-- However far an extension of the stack gets, the stack is in one piece down to the last page that
was made. -/
theorem upright_extendStack (h : m.Upright s gone) (k : Nat)
    (hroom : ∀ b, m.view.book s = some b → stackLimit + k * pageSize ≤ b.stackBottom) :
    Yields (extendStack s k) m (fun _ => Upright s gone) fun _ => Upright s gone := by
  induction k generalizing m with
  | zero => exact yields_pure.2 h
  | succ k ih =>
      obtain ⟨sp, hsp⟩ := space?_of_book h.live
      obtain ⟨hone, hmore⟩ : stackLimit + pageSize ≤ sp.stackBottom ∧
          stackLimit + k * pageSize ≤ sp.stackBottom - pageSize := room_of_succ (hroom _ (book_eq hsp))
      unfold extendStack
      rw [yields_bind, yields_space hsp, yields_bind, yields_minus,
        if_pos (Nat.le_trans (Nat.le_add_left ..) hone)]
      generalize hva : sp.stackBottom - pageSize = va at hmore
      refine (upright_addStackPage h va _).bind ?_ fun _ _ => id
      rintro _ u ⟨hu, hbook, p, hp, hw, hs⟩
      have hub : u.view.Stacked s gone sp.stackBottom := hu.whole _ (by rw [hbook, book_eq hsp])
      have ha : isPageAligned va = true := hva ▸ aligned_sub hub.aligned
      rw [pageBase_of_aligned ha, ← hva] at hp
      have hgrown : u.view.Stacked s gone va := hva ▸ hub.push hone hp hw hs
      obtain ⟨hnext, hbook⟩ := hu.rebooked (g := fun x => { x with stackBottom := va }) (fun _ => rfl)
        (fun _ => rfl) fun _ => hgrown
      refine yields_bind.2 (yields_modifySpace.2 (yields_bind.2 (yields_emit.2 (ih (hnext.tell _) ?_))))
      intro b hb
      obtain ⟨sp', rfl⟩ := hbook b hb
      exact hmore

theorem upright_resolveFault (esp addr : Addr) (user write notPresent : Bool) :
    Keeps (Upright s gone) (resolveFault s esp addr user write notPresent) := by
  constructor
  intro m h
  obtain ⟨sp, hsp⟩ := space?_of_book h.live
  have htold : (m.tell (.faulted s addr write)).Upright s gone := h.tell _
  have hstacked : m.view.Stacked s gone sp.stackBottom := h.whole _ (book_eq hsp)
  by_cases himproper : Improper user notPresent addr
  · exact (yields_resolveFault_improper himproper).2 htold
  rw [yields_resolveFault_proper hsp himproper]
  split
  · exact (upright_makeResident addr).yields _ htold
  split
  · refine (upright_extendStack htold _ fun b hb => ?_).bind
      (fun _ u hu => (upright_makeResident addr).yields u hu) fun _ _ => id
    obtain rfl := Option.some.inj ((book_eq hsp).symm.trans hb)
    exact pagesFor_within (touchesStack_iff.1 ‹_›).2.1 hstacked.aligned hstacked.limit_le
  · exact htold

theorem upright_onFault (esp addr : Addr) (user write notPresent : Bool) :
    Keeps (Upright s gone) (onFault s esp addr user write notPresent) := by
  apply (upright_resolveFault ..).attempt.bind
  intro r
  split
  · exact keeps_pure _
  · exact (upright_emit _).bind fun _ => keeps_pure _

theorem upright_startStack : Keeps (Upright s gone) (startStack s) := by
  constructor
  intro m h
  refine (upright_addStackPage h _ _).bind ?_ fun _ _ => id
  rintro _ u ⟨hu, -, p, hp, hw, hs⟩
  have hfirst := (u.view.stacked_top s gone).push (by decide) hp hw hs
  have hnext := (hu.rebooked (g := fun x => { x with stackBottom := stackTop - pageSize, savedStack := stackTop })
    (fun _ => rfl) (fun _ => rfl) fun _ => hfirst).1
  exact yields_bind.2 (yields_modifySpace.2 (yields_pure.2 hnext))

theorem upright_frameFor (addr : Addr) (write : Bool) (rounds : Nat) :
    Keeps (Upright s gone) (frameFor s addr write rounds) := by
  induction rounds with
  | zero => exact keeps_throw _
  | succ rounds ih =>
      constructor
      intro m h
      obtain ⟨sp, hsp⟩ := space?_of_book h.live
      unfold frameFor
      rw [yields_bind, yields_space hsp]
      rcases h.sound.access_cases hsp addr write with ⟨f, t, ht, hmarked, -⟩ | ⟨code, hcode, -⟩
      · rw [ht]
        exact yields_bind.2 (yields_modifyTable.2 (yields_pure.2 (h.quiet hmarked)))
      · rw [hcode]
        refine ((upright_onFault sp.savedStack addr true write code.notPresent).bind fun b => ?_).yields m h
        split
        · exact ih
        · exact keeps_fail _

theorem upright_touchPage (addr : Addr) (write : Bool) : Keeps (Upright s gone) (touchPage s addr write) :=
  (upright_frameFor addr write 2).bind fun f => (keeps_contents f).bind fun _ => keeps_pure _

theorem upright_stored {f : FrameId} (h : n.Upright s gone) (hopen : n.view.Open r f true) (offset : Nat)
    (data : Array UInt8) : (n.withBytes f ((n.view.bytes f).overlay offset data)).Upright s gone := by
  have hv := view_withBytes h.sound.consistent (h.sound.present_of_open hopen) ((n.view.bytes f).overlay offset data)
  refine h.leads (stored hopen (h.sound.consistent.withBytes ..) hv) (by rw [hv]) fun _ q hq => ⟨q, ?_, .refl q⟩
  rw [hv]
  exact hq

theorem upright_copyOut (va len : Nat) : Keeps (Upright s gone) (copyOut s va len) := by
  constructor
  intro m h
  refine (yields_copyOut_exact h.sound h.live h (fun _ => upright_touchPage ..) va len).mono ?_ fun _ _ => False.elim
  rintro c n (⟨-, -, rfl⟩ | ⟨-, u, hu, -, ⟨-, -, rfl⟩ | ⟨e, -, hcut⟩⟩)
  · exact h
  · exact hu
  · exact ((upright_touchPage ..).yields u hu).of_error hcut.fails

theorem upright_copyIn (va : Addr) (data : Array UInt8) : Keeps (Upright s gone) (copyIn s va data) := by
  constructor
  intro m h
  refine (yields_copyIn_exact h.sound h.live h (fun _ => upright_touchPage ..)
    (fun offset data hn hopen => upright_stored hn hopen offset data) va data).mono (fun _ n hn => hn.2.1) ?_
  rintro e n hn
  obtain ⟨e, rfl, ⟨-, -, rfl⟩ | ⟨-, u, count, hu, -, hcut⟩⟩ := hn.error
  · exact h
  · exact ((upright_touchPage ..).yields u hu).of_error hcut.fails

end Vm

end DemandPaging
