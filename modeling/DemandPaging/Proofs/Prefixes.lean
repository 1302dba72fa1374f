import DemandPaging.Proofs.FaultDecision
import DemandPaging.Proofs.FlatMemory

namespace DemandPaging

open Function (update)
open Step Machine

variable {hw : Hardware} {l : List Turn} {m n u : Machine} {t : Turn} {s : SpaceId} {va addr : Addr} {write : Bool}
  {sp : Space} {p q : Page} {r : PageRef}

/-- Why user memory cannot be accessed at `addr`: it is the kernel's, no page is registered there and the stack does
not reach it, its page may not be written, or the page cannot be made resident. -/
inductive Machine.Barred (m : Machine) (s : SpaceId) (addr : Addr) (write : Bool) : Prop
  | kernel (hk : kernelBase ≤ addr)
  | astray {sp : Space} (hs : m.space? s = some sp) (hp : sp.page? addr = none)
      (hfar : ¬ NearStack addr sp.savedStack ∨ sp.stackBottom ≤ addr)
  | obstructed {sp : Space} {va : Addr} {e : PagingError} (hs : m.space? s = some sp) (hp : sp.page? addr = none)
      (hle : pageBase addr ≤ va) (hlt : va < sp.stackBottom) (hwhy : m.Obstructs s va e)
  | readOnly {p : Page} (hp : m.page? ⟨s, pageBase addr⟩ = some p) (hwrite : write = true)
      (hreadOnly : p.writable = false)
  | unclaimed {e : PagingError} {n : Machine} (hp : (m.page? ⟨s, pageBase addr⟩).isSome)
      (hclaim : (Vm.makeResident s addr).run (m.tell (.faulted s addr write)) = .error (.error e) n)

def View.Usable (v : View) (s : SpaceId) (addr : Addr) (write : Bool) : Prop :=
  ∃ p f, v.page ⟨s, pageBase addr⟩ = some p ∧ p.frame = some f ∧ (write = true → p.writable = true)

namespace Vm

theorem yields_frameFor_usable (h : m.Sound) (hp : m.view.Usable s addr write) (rounds : Nat) :
    Yields (frameFor s addr write (rounds + 1)) m (fun _ _ => True) fun _ _ => False := by
  obtain ⟨p, f, hp, hf, hw⟩ := hp
  obtain ⟨sp, hsp⟩ := space?_of_page hp
  unfold frameFor
  rw [yields_bind, yields_space hsp]
  rcases h.access_cases hsp addr write with ⟨f, t, ht, -⟩ | ⟨code, -, hwhy⟩
  · rw [ht]
    exact yields_bind.2 (yields_modifyTable.2 (yields_pure.2 trivial))
  · rcases hwhy p hp with ⟨hnone, -⟩ | ⟨-, hwrite, hreadOnly, -⟩
    · rw [hf] at hnone
      cases hnone
    · rw [hw hwrite] at hreadOnly
      cases hreadOnly

theorem yields_resolveFault_user (h : m.Upright s fun _ => True) (hs : m.space? s = some sp) (hu : addr < kernelBase)
    (hw : ∀ p, m.view.page ⟨s, pageBase addr⟩ = some p → write = true → p.writable = true) :
    Yields (resolveFault s sp.savedStack addr true write true) m
      (fun _ n => n.view.Usable s addr write) (Failing fun _ _ => m.Barred s addr write) := by
  have hproper : ¬ Improper true true addr := by
    rintro (⟨-, hk⟩ | hnp)
    · exact absurd hu (Nat.not_lt.2 hk)
    · cases hnp
  have htold : (m.tell (.faulted s addr write)).Sound := (h.tell _).sound
  have hstacked : m.view.Stacked s (fun _ => True) sp.stackBottom := h.whole _ (book_eq hs)
  have hpage : m.view.page ⟨s, pageBase addr⟩ = sp.page? addr := page_eq hs _
  rw [yields_resolveFault_proper hs hproper]
  split
  · rename_i hp
    obtain ⟨p, hp⟩ := Option.isSome_iff_exists.1 (hpage ▸ hp)
    refine (yields_makeResident htold h.live addr).run_eq.mono ?_ ?_
    · rintro _ n ⟨-, hn, -, q, f, hq, hf⟩
      obtain ⟨q', hq', hlike⟩ :=
        hn.path.like (p := p) hp (by simp [Act.Loads, Act.Quiet]) (by simp [Act.Loads, Act.Quiet])
      cases hq.symm.trans hq'
      exact ⟨q, f, hq, hf, fun hwrite => hlike.writable.trans (hw p hp hwrite)⟩
    · rintro e n ⟨hrun, hn⟩
      obtain ⟨e, rfl, -⟩ := hn.error
      exact .unclaimed (Option.isSome_iff_exists.2 ⟨p, hp⟩) hrun
  rename_i hp
  replace hp := Option.not_isSome_iff_eq_none.1 hp
  rw [Space.stackPointer, ite_self]
  split
  swap
  · exact .astray hs hp (.inl (mt touchesStack_iff.2 ‹_›))
  rename_i hnear
  replace hnear := touchesStack_iff.1 hnear
  by_cases hlt : addr < sp.stackBottom
  · refine (yields_growth htold (show (m.tell _).space? s = some sp from hs) hstacked.aligned hstacked.le_top hnear.2.1
      hlt).mono ?_ fun e n hn => hn.mono ?_
    · rintro _ n ⟨hgrown, q, f, hq, hf⟩
      obtain ⟨-, q', hq', hwritable, -⟩ := hgrown.pages.added (pageBase addr)
        ⟨pageBase_aligned addr, Nat.le_refl _, Nat.lt_of_le_of_lt (pageBase_le addr) hlt⟩
      cases hq.symm.trans hq'
      exact ⟨q, f, hq, hf, fun _ => hwritable⟩
    · rintro e ⟨va, -, hle, hlt, -, hwhy⟩
      exact .obstructed hs hp hle hlt (hwhy.before ((Makes.refl h.sound.consistent).tell _) (.of_page rfl) id)
  · rw [pagesFor_eq_zero hstacked.aligned (Nat.le_of_not_lt hlt)]
    refine yields_bind.2 (yields_pure.2 ((yields_makeResident htold h.live addr).mono ?_ fun e n hn =>
      hn.mono fun _ _ => .astray hs hp (.inr (Nat.le_of_not_lt hlt))))
    rintro _ n ⟨hn, -, q, f, hq, -⟩
    rw [hn.path.absent (by simp [Act.Loads, Act.Quiet]) (hpage.trans hp)] at hq
    cases hq

theorem yields_touchPage_user (h : m.Upright s fun _ => True) (addr : Addr) (write : Bool) :
    Yields (touchPage s addr write) m (fun _ _ => True) fun _ _ => m.Barred s addr write := by
  by_cases hk : kernelBase ≤ addr
  · exact yields_any.mono (fun _ _ => id) fun _ _ _ => .kernel hk
  by_cases hw : ∀ p, m.view.page ⟨s, pageBase addr⟩ = some p → write = true → p.writable = true
  swap
  · simp only [not_forall, Bool.not_eq_true] at hw
    obtain ⟨p, hp, hwrite, hreadOnly⟩ := hw
    exact yields_any.mono (fun _ _ => id) fun _ _ _ => .readOnly hp hwrite hreadOnly
  obtain ⟨sp, hsp⟩ := space?_of_book h.live
  have hframe : Yields (frameFor s addr write 2) m (fun _ _ => True) fun _ _ => m.Barred s addr write := by
    unfold frameFor
    rw [yields_bind, yields_space hsp]
    cases hcode : sp.table.access addr write true with
    | ok c => exact yields_bind.2 (yields_modifyTable.2 (yields_pure.2 trivial))
    | error code =>
        -- The address is the user's and the page may be accessed so: only that it is not there is left.
        have hpresent : code.notPresent = true := by
          rcases h.sound.access_denied hsp hcode with huser | ⟨-, hpresent⟩ | ⟨p, hp, -, hwrite, hreadOnly, -⟩
          · exact absurd (isKernel_iff.1 huser) hk
          · exact hpresent
          · rw [hw p hp hwrite] at hreadOnly
            cases hreadOnly
        dsimp only
        rw [hpresent, yields_bind]
        unfold onFault
        refine yields_bind.2 (yields_attempt.2 (((upright_resolveFault ..).and h
          (yields_resolveFault_user h hsp (Nat.lt_of_not_le hk) hw)).mono ?_ ?_))
        · rintro _ n ⟨husable, hn⟩
          exact yields_pure.2 ((yields_frameFor_usable hn.sound husable 0).mono (fun _ _ => id) fun _ _ => False.elim)
        · rintro e n ⟨hn, -⟩
          obtain ⟨e, rfl, hbarred⟩ := hn.error
          exact yields_bind.2 (yields_emit.2 (yields_pure.2 (yields_fail.2 hbarred)))
  refine (hframe.and (yields_frameFor h.sound h.live addr write 2 (.inl (Nat.le_refl _)))).bind ?_ fun _ _ => And.left
  rintro f n ⟨-, hn, hopen⟩
  have hsn := hn.sound h.sound
  exact yields_bind.2 ((yields_contents hsn.consistent (hsn.present_of_open hopen)).2 (yields_pure.2 trivial))

theorem CutOff.barred {len count : Nat} {e : PagingError} (h : CutOff s addr len write u count e n)
    (hu : u.Upright s fun _ => True) : u.Barred s (addr + count) write :=
  (yields_touchPage_user hu _ write).of_error h.fails

end Vm

/-- A read brings a prefix of what it was asked for, and all of it unless the page that comes next is barred. -/
structure ReadsPrefix (t : Turn) (s : SpaceId) (va len : Nat) (c : Copied) : Prop where
  overflow : wordLimit ≤ va + len → c = ⟨#[], some (.badAddress va)⟩ ∧ t.after = t.before
  copied : va + len < wordLimit → ∃ u, Vm.Gathers t.before u s va c.bytes ∧
    (c.failure = none ∧ c.bytes.size = len ∧ t.after = u ∨ ∃ e, c.failure = some e ∧
      Vm.CutOff s va len false u c.bytes.size e t.after ∧ u.Barred s (va + c.bytes.size) false)

structure ReadsExactly (t : Turn) (s : SpaceId) (va len : Nat) (c : Copied) : Prop
    extends ReadsPrefix t s va len c where
  held : ∀ (i : Nat) b, c.bytes[i]? = some b → ∃ p, t.after.page? ⟨s, pageBase (va + i)⟩ = some p ∧
    (p.finalKind = .anon → ∃ x, t.after.view.cell ⟨s, pageBase (va + i)⟩ = some x ∧
      x[pageOffset (va + i)]? = some b)

/-- A write stores a prefix of what it was given, and all of it unless the page that comes next is barred. -/
structure WritesPrefix (t : Turn) (s : SpaceId) (va : Nat) (data : Array UInt8) : Prop where
  overflow : wordLimit ≤ va + data.size → t.answer = .error (.error (.badAddress va)) ∧ t.after = t.before
  copied : va + data.size < wordLimit →
    t.answer = .ok .done ∧ Vm.Scatters t.before t.after s va data ∨
      ∃ u count e, t.answer = .error (.error e) ∧ Vm.Scatters t.before u s va (data.extract 0 count) ∧
        Vm.CutOff s va data.size true u count e t.after ∧ u.Barred s (va + count) true

structure WritesExactly (t : Turn) (s : SpaceId) (va : Nat) (data : Array UInt8) : Prop
    extends WritesPrefix t s va data where
  held : ∀ r p, t.before.page? r = some p → p.kind = .anon → ∃ x y, t.before.view.cell r = some x ∧
    t.after.view.cell r = some y ∧ ∀ k (hk : k < pageSize), y[k] = (t.stored? r k).getD x[k]

section

variable (h : m.Upright s fun _ => True)
include h

theorem readsPrefix_turn (va len : Nat) : ∃ c, ((Call.read s va len).turn m).answer = .ok (.copied c) ∧
    ReadsPrefix ((Call.read s va len).turn m) s va len c := by
  refine Call.turn_cases (fun t => ∃ c, t.answer = .ok (.copied c) ∧ ReadsPrefix t s va len c)
    ((Vm.yields_copyOut_exact h.sound h.live h (fun _ => Vm.upright_touchPage ..) va len).bind ?_ fun _ _ => False.elim)
  rintro c n (⟨hover, hc, hn⟩ | ⟨hfits, u, hu, hgathers, hend⟩)
  · exact yields_pure.2 ⟨c, rfl, fun _ => ⟨hc, hn⟩, fun hfits => absurd hfits (Nat.not_lt.2 hover)⟩
  · refine yields_pure.2 ⟨c, rfl, fun hover => absurd hfits (Nat.not_lt.2 hover), fun _ => ⟨u, hgathers, ?_⟩⟩
    refine hend.imp_right ?_
    rintro ⟨e, hfail, hcut⟩
    exact ⟨e, hfail, hcut, hcut.barred hu⟩

theorem readsExactly_turn (va len : Nat) : ∃ c, ((Call.read s va len).turn m).answer = .ok (.copied c) ∧
    ReadsExactly ((Call.read s va len).turn m) s va len c := by
  obtain ⟨c, hanswer, hcopied⟩ := readsPrefix_turn h va len
  refine ⟨c, hanswer, hcopied, fun i b hi => ?_⟩
  obtain ⟨p, hp, hbyte⟩ := h.sound.read_byte h.live hanswer hi
  exact ⟨p, hp, fun hfinal => (hbyte hfinal).2⟩

theorem writesPrefix_turn (va : Nat) (data : Array UInt8) :
    WritesPrefix ((Call.write s va data).turn m) s va data := by
  refine Call.turn_cases (fun t => WritesPrefix t s va data)
    ((Vm.yields_copyIn_exact h.sound h.live h (fun _ => Vm.upright_touchPage ..)
      (fun offset data hn hopen => Vm.upright_stored hn hopen offset data) va data).bind ?_ ?_)
  · rintro _ n ⟨hfits, -, hn⟩
    exact yields_pure.2 ⟨fun hover => absurd hfits (Nat.not_lt.2 hover), fun _ => .inl ⟨rfl, hn⟩⟩
  · rintro e n hn
    obtain ⟨e, rfl, ⟨hover, rfl, rfl⟩ | ⟨hfits, u, count, hu, hscatters, hcut⟩⟩ := hn.error
    · exact ⟨fun _ => ⟨rfl, rfl⟩, fun hfits => absurd hfits (Nat.not_lt.2 hover)⟩
    · exact ⟨fun hover => absurd hfits (Nat.not_lt.2 hover),
        fun _ => .inr ⟨u, count, e, rfl, hscatters, hcut, hcut.barred hu⟩⟩

theorem writesExactly_turn (va : Nat) (data : Array UInt8) :
    WritesExactly ((Call.write s va data).turn m) s va data := by
  have hc := Call.live_of_single (c := .write s va data) rfl h.live
  refine ⟨writesPrefix_turn h va data, fun r p hp hk => ?_⟩
  rw [before_turn] at hp ⊢
  obtain ⟨q, hq, hlike⟩ := like_turn h.sound hc (fun saved hr => hr.2) (by simp) hp
  obtain ⟨x, hx⟩ := h.sound.coherent.cell_anon hp hk
  obtain ⟨y, hy, hxy⟩ := View.Path.cell_changes (path_turn h.sound hc) h.sound.coherent
    (leaves_of_present h.sound hc hq) hp hk hx
  exact ⟨x, y, hx, hy, fun k hk' =>
    getElem_turn h.sound hc hq ((hlike.kind (by simp [hk])).trans hk) hy hxy hk'⟩

end

/-- Whatever was called before, and whatever is evicted on the way, a copy out of user memory or into it transfers all
the bytes that it is asked to, or those before the address that it fails with, and nothing else. -/
theorem Runs.exact_prefix (h : Runs hw (t :: l) m) :
    (∀ s va len, t.call = .read s va len → ∃ c, t.answer = .ok (.copied c) ∧ ReadsExactly t s va len c) ∧
      ∀ s va data, t.call = .write s va data → WritesExactly t s va data := by
  refine ⟨fun s va len hcall => ?_, fun s va data hcall => ?_⟩ <;> obtain ⟨n, rfl, -, hn, hlive⟩ := h.last hcall
  · exact readsExactly_turn ⟨hn.sound, hlive s (List.mem_singleton_self s), hn.bottoms s⟩ va len
  · exact writesExactly_turn ⟨hn.sound, hlive s (List.mem_singleton_self s), hn.bottoms s⟩ va data


def registerBelow : List Call := [.register ⟨1⟩ 0x1000 true .anon none, .newSpace]

/-- Of two bytes written across a page boundary the first is stored, though the second has no page to go to. -/
theorem exact_prefix_of_write_too_far :
    ((Call.write ⟨1⟩ 0x1fff #[7, 8]).turn (Hardware.small.machine registerBelow)).answer =
        .error (.error (.badAddress 0x2000)) ∧
      ∃ u, Vm.Scatters (Hardware.small.machine registerBelow) u ⟨1⟩ 0x1fff #[7] ∧ u.Barred ⟨1⟩ 0x2000 true := by
  have hrun := Hardware.runs (l := .write ⟨1⟩ 0x1fff #[7, 8] :: registerBelow) .small (by decide +kernel)
  have hwritten : ((Call.write ⟨1⟩ 0x1fff #[7, 8]).turn (Hardware.small.machine registerBelow)).written =
      some (⟨1⟩, 0x1fff, #[7]) := by decide +kernel
  rw [Turn.written, call_turn] at hwritten
  rcases (hrun.exact_prefix.2 _ _ _ (call_turn ..)).copied (by decide) with
    ⟨hok, -⟩ | ⟨u, count, e, he, hu, hcut, hbarred⟩
  · rw [hok] at hwritten
    cases hwritten
  · rw [before_turn] at hu
    rw [hcut.error_eq] at he
    rw [he] at hwritten
    dsimp only at hwritten
    rw [Nat.add_sub_cancel_left] at hwritten
    obtain rfl : count = 1 := by
      have hlt : count < 2 := hcut.lt
      have hsize := congrArg (Option.map fun x => x.2.2.size) hwritten
      simp at hsize
      omega
    exact ⟨he, u, hu, hbarred⟩

end DemandPaging
