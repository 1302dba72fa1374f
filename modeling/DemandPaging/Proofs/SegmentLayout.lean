import DemandPaging.Proofs.Runs
import DemandPaging.Proofs.Shares

namespace DemandPaging

open Step Machine

variable {m n : Machine} {s : SpaceId} {va : Addr} {e : PagingError} {addr offset total readBytes pages j k : Nat}
  {wr : Bool} {hd : Handle}

/-- What is asked of a segment, wherever there are pages: it is made of whole pages, which begin at page addresses
both in memory and in the file, and its length and its end in the file are words. -/
structure Loadable (offset addr total : Nat) : Prop where
  total_lt : total < wordLimit
  total_aligned : total % 4096 = 0
  addr_aligned : addr % 4096 = 0
  offset_aligned : offset % 4096 = 0
  end_lt : offset + total < wordLimit

theorem loadable_iff : Loadable offset addr total ↔ Vm.isLoadable offset addr total = true := by
  simp only [Vm.isLoadable, Bool.and_eq_true, decide_eq_true_eq, beq_iff_eq, isPageAligned_iff, pageSize_eq]
  constructor
  · rintro ⟨htotal, hwhole, haddr, hoffset, hend⟩
    exact ⟨⟨⟨⟨htotal, haddr⟩, hoffset⟩, hwhole⟩, hend⟩
  · rintro ⟨⟨⟨⟨htotal, haddr⟩, hoffset⟩, hwhole⟩, hend⟩
    exact ⟨htotal, hwhole, haddr, hoffset, hend⟩

def Machine.Taken (m : Machine) (s : SpaceId) (va : Addr) : Prop := kernelBase ≤ va ∨ (m.page? ⟨s, va⟩).isSome

def refusal (va : Addr) : PagingError := if kernelBase ≤ va then .badAddress va else .pageExists va

theorem bars_iff (ha : isPageAligned va = true) : m.view.Bars s va e ↔ m.Taken s va ∧ e = refusal va := by
  unfold View.Bars Taken refusal
  rw [pageBase_of_aligned ha]
  by_cases hk : kernelBase ≤ va
  · simp [isKernel, hk]
  · simp only [isKernel, hk, decide_false, false_or, if_false, true_and, Bool.false_eq_true, false_and]
    rfl

structure Machine.FirstTaken (m : Machine) (s : SpaceId) (addr pages j : Nat) : Prop where
  lt : j < pages
  taken : m.Taken s (addr + j * 4096)
  free : ∀ i < j, ¬ m.Taken s (addr + i * 4096)

theorem Machine.FirstTaken.unique (h : m.FirstTaken s addr pages j) (h' : m.FirstTaken s addr pages k) : j = k := by
  rcases Nat.lt_trichotomy j k with hlt | heq | hlt
  · exact absurd h.taken (h'.free j hlt)
  · exact heq
  · exact absurd h'.taken (h.free k hlt)

/-- Between `m` and `n`, the first `j` pages of a segment were registered, each to be read from its part of the file
when it is first touched, and nothing else was done, but that it was told. -/
structure Lays (m n : Machine) (s : SpaceId) (hd : Handle) (offset addr readBytes : Nat) (wr : Bool) (j : Nat) :
    Prop where
  part : ∀ i < j, m.page? ⟨s, addr + i * 4096⟩ = none ∧
    n.page? ⟨s, addr + i * 4096⟩ = some (segmentPage wr hd offset readBytes i)
  others : ∀ r, (∀ i < j, r ≠ ⟨s, addr + i * 4096⟩) → n.page? r = m.page? r
  book : n.view.book = m.view.book
  entry : n.view.entry = m.view.entry
  rest : n = { m with spaces := n.spaces, log := n.log }

namespace Vm

theorem keeps_addSegment (m : Machine) (s : SpaceId) (hd : Handle) (offset addr readBytes zeroBytes : Nat) (wr : Bool) :
    Keeps (fun n => n = { m with spaces := n.spaces, log := n.log })
      (addSegment s hd offset addr readBytes zeroBytes wr) := by
  have hmodular := keeps_modular fun n => n = { m with spaces := n.spaces, log := n.log }
  have htell (e : Event) : Keeps (fun n => n = { m with spaces := n.spaces, log := n.log }) (emit e) :=
    ⟨fun n hn => yields_emit.2 (congrArg (·.tell e) hn)⟩
  refine hmodular.addSegment (fun va w purpose filling => ?_) (fun _ _ => htell _) hd offset addr readBytes zeroBytes wr
  unfold register
  split
  · exact keeps_fail _
  · refine (htell _).bind fun _ => Keeps.bind ?_ fun sp => (hmodular.ofError _).bind fun sp' => ?_
    · exact keeps_get.bind fun _ => by split <;> exact ⟨fun _ => id⟩
    · exact ⟨fun n hn => yields_modifySpace.2 (congrArg (·.withSpace s fun _ => sp') hn)⟩

end Vm

theorem Laid.lays (h : Laid m.view n.view s addr (segmentPage wr hd offset readBytes) j)
    (ha : isPageAligned addr = true) (hrest : n = { m with spaces := n.spaces, log := n.log }) :
    Lays m n s hd offset addr readBytes wr j where
  part i hi := by
    have hpart := h.part i hi
    rwa [pageBase_of_aligned (aligned_add ha i)] at hpart
  others r hr := h.others r fun i hi => by
    rw [pageBase_of_aligned (aligned_add ha i)]
    exact hr i hi
  book := h.book
  entry := h.unmoved.entry
  rest := hrest

inductive Turn.SegmentOutcome (t : Turn) (s : SpaceId) (hd : Handle) (offset addr readBytes zeroBytes : Nat)
    (wr : Bool) : Prop
  | laid (hanswer : t.answer = .ok .done) (hok : Loadable offset addr (readBytes + zeroBytes))
      (hfree : ∀ i < (readBytes + zeroBytes) / 4096, ¬ t.before.Taken s (addr + i * 4096))
      (hlays : Lays t.before t.after s hd offset addr readBytes wr ((readBytes + zeroBytes) / 4096))
  | refused (hanswer : t.answer = .error (.error (.badAddress addr)))
      (hbad : ¬ Loadable offset addr (readBytes + zeroBytes)) (hsame : t.after = t.before)
  | stopped (j : Nat) (hanswer : t.answer = .error (.error (refusal (addr + j * 4096))))
      (hok : Loadable offset addr (readBytes + zeroBytes))
      (hfirst : t.before.FirstTaken s addr ((readBytes + zeroBytes) / 4096) j)
      (hlays : Lays t.before t.after s hd offset addr readBytes wr j)

theorem segmentOutcome (h : m.Sound) (hs : (m.view.book s).isSome) (hd : Handle) (offset readBytes zeroBytes : Nat)
    (wr : Bool) (haddr : addr < wordLimit) :
    ((Call.segment s hd offset addr readBytes zeroBytes wr).turn m).SegmentOutcome s hd offset addr readBytes zeroBytes
      wr := by
  refine Call.turn_cases (fun t => t.SegmentOutcome s hd offset addr readBytes zeroBytes wr) ?_
  by_cases hok : Vm.isLoadable offset addr (readBytes + zeroBytes) = true
  · have hload := loadable_iff.2 hok
    have ha : isPageAligned addr = true := isPageAligned_iff.2 hload.addr_aligned
    have hfree {k : Nat} {part : Nat → Page} {n : Machine} (hlaid : Laid m.view n.view s addr part k)
        (huser : ∀ i < k, isKernel (addr + i * pageSize) = false) (i : Nat) (hi : i < k) :
        ¬ m.Taken s (addr + i * 4096) := by
      have hnone := (hlaid.part i hi).1
      rw [pageBase_of_aligned (aligned_add ha i)] at hnone
      rintro (hk | hp)
      · exact absurd hk (Nat.not_le.2 (isKernel_eq_false_iff.1 (huser i hi)))
      · rw [show m.page? ⟨s, addr + i * 4096⟩ = none from hnone] at hp
        cases hp
    refine (((Vm.keeps_addSegment m s hd offset addr readBytes zeroBytes wr).and rfl
      (Vm.yields_addSegment_loadable h hs hd wr hok haddr))).bind ?_ ?_
    · rintro _ n ⟨⟨-, hlaid, huser⟩, hrest⟩
      exact yields_pure.2 (.laid rfl hload (hfree hlaid huser) (hlaid.lays ha hrest))
    · rintro e n ⟨hn, hrest⟩
      obtain ⟨e, rfl, -, -, j, hj, hlaid, huser, hbars⟩ := hn.error
      obtain ⟨htaken, rfl⟩ := (bars_iff (aligned_add ha j)).1 hbars
      exact .stopped j rfl hload ⟨hj, htaken, hfree hlaid huser⟩ (hlaid.lays ha hrest)
  · refine yields_bind.2 ?_
    unfold Vm.addSegment
    dsimp only
    rw [if_neg hok]
    exact yields_fail.2 (.refused rfl (fun hload => hok (loadable_iff.1 hload)) rfl)

end DemandPaging
