import DemandPaging.Proofs.SegmentBytes

namespace DemandPaging

open Step Machine

variable {hw : Hardware} {k l : List Turn} {m n : Machine} {t x : Turn} {s : SpaceId} {r : PageRef} {hd : Handle}
  {addr offset readBytes zeroBytes j pos : Nat} {wr : Bool} {id : FileId}

/-- A byte of a file that a turn changes is changed by the call itself, past all pages, or from a page that is backed by
it, which no page of a segment is. -/
theorem Runs.segment_spares (h : Runs hw (x :: (k ++ t :: l)) n)
    (hne : (n.file id).bytes[pos]? ≠ (x.before.file id).bytes[pos]?) :
    (∃ g, x.call.Puts x.before.view id g) ∨ ∃ u r p b, View.Path x.May x.before.view u ∧
      View.Path x.May u n.view ∧ u.page r = some p ∧ p.state = .file b ∧ b.Covers id pos ∧
      ∀ wr hd offset readBytes j, t.after.page? r = some (segmentPage wr hd offset readBytes j) →
        ¬ ∀ y ∈ k, (y.after.page? r).isSome := by
  have hbefore := h.before
  have hpath : View.Path x.May x.before.view n.view := by
    cases h with
    | turn h c hc =>
        have hpath := path_turn h.sound hc
        rwa [before_turn]
  rw [← fileAt_view, ← fileAt_view] at hne
  refine (hpath.file_changed hne).imp_right ?_
  rintro ⟨u, r, p, b, hu, hlast, hp, hst, hcov⟩
  refine ⟨u, r, p, b, hu, hlast, hp, hst, hcov, fun wr hd offset readBytes j hpage hstays => ?_⟩
  obtain ⟨q, hq, hnone⟩ := hbefore.segment_unbacked hpage hstays
  have hbacked : p.backing? = some b := by rw [Page.backing?, hst]
  -- The page is like the one that was there before the turn, as nothing is added where there is a page.
  rcases hu.was_like hp with ⟨q', hq', hlike⟩ | ⟨q', hadded, -⟩
  · obtain rfl := Option.some.inj (hq.symm.trans hq')
    rw [hlike.backing?, hnone] at hbacked
    cases hbacked
  · rw [hadded.1] at hq
    cases hq

/-- What a call that registers a segment comes to, and what becomes of the pages it registers. -/
structure SegmentExact (hw : Hardware) (l : List Turn) (t : Turn) (m : Machine) (s : SpaceId) (hd : Handle)
    (offset addr readBytes zeroBytes : Nat) (wr : Bool) : Prop where
  /-- It succeeds exactly if the segment can be loaded and no page of its range is in the way. -/
  accepted : t.answer = .ok .done ↔ Loadable offset addr (readBytes + zeroBytes) ∧
    ∀ i < (readBytes + zeroBytes) / 4096, ¬ t.before.Taken s (addr + i * 4096)
  refused : ¬ Loadable offset addr (readBytes + zeroBytes) →
    t.answer = .error (.error (.badAddress addr)) ∧ m = t.before
  /-- If there are pages in the way the first of them is named, and those before it are registered. -/
  stopped : ∀ j, Loadable offset addr (readBytes + zeroBytes) →
    t.before.FirstTaken s addr ((readBytes + zeroBytes) / 4096) j →
      t.answer = .error (.error (refusal (addr + j * 4096))) ∧ Lays t.before m s hd offset addr readBytes wr j
  laid : t.answer = .ok .done → Lays t.before m s hd offset addr readBytes wr ((readBytes + zeroBytes) / 4096)
  /-- A page that is yet to be filled is made resident once the file returns the page's share of it. -/
  materialized : ∀ (z : Machine) va j, z.Sound → z.page? ⟨s, va⟩ = some (segmentPage wr hd offset readBytes j) →
    z.Materializes s va hd offset readBytes wr j
  /-- Whatever was called since, a page that is still there is yet to be filled, or was filled in one of the calls with
  the bytes that the file had then, and zeroes after them. -/
  filled : t.answer = .ok .done → ∀ j < (readBytes + zeroBytes) / 4096, ∀ k n, Runs hw (k ++ t :: l) n →
    (∀ x ∈ k, (x.after.page? ⟨s, addr + j * 4096⟩).isSome) →
      n.page? ⟨s, addr + j * 4096⟩ = some (segmentPage wr hd offset readBytes j) ∨
        (∃ q, n.page? ⟨s, addr + j * 4096⟩ = some q ∧ q.kind = .anon) ∧ ∃ x ∈ k, ∃ v w c,
          x.FirstLoads ⟨s, addr + j * 4096⟩ (segmentPage wr hd offset readBytes j) v w ∧
            w.cell ⟨s, addr + j * 4096⟩ = some c ∧ SegmentPart (v.fileAt hd.file) offset readBytes j c
  /-- A byte of a file changes by the call itself, or from a page that is none of the segment's. -/
  spared : t.answer = .ok .done → ∀ k x n id pos, Runs hw (x :: (k ++ t :: l)) n →
    (n.file id).bytes[pos]? ≠ (x.before.file id).bytes[pos]? → (∃ g, x.call.Puts x.before.view id g) ∨
      ∃ u r p b, View.Path x.May x.before.view u ∧ View.Path x.May u n.view ∧ u.page r = some p ∧
        p.state = .file b ∧ b.Covers id pos ∧ ∀ j < (readBytes + zeroBytes) / 4096,
          (∀ y ∈ k, (y.after.page? ⟨s, addr + j * 4096⟩).isSome) → r ≠ ⟨s, addr + j * 4096⟩

/-- A segment is laid out byte for byte. -/
theorem Runs.segment_exact (h : Runs hw (t :: l) m) (hcall : t.call = .segment s hd offset addr readBytes zeroBytes wr)
    (haddr : addr < wordLimit) : SegmentExact hw l t m s hd offset addr readBytes zeroBytes wr := by
  obtain ⟨n₀, rfl, rfl, h₀, hlive⟩ := h.last hcall
  have hcases := segmentOutcome h₀.sound (hlive s (List.mem_singleton_self s)) hd offset readBytes zeroBytes wr haddr
  generalize (Call.segment s hd offset addr readBytes zeroBytes wr).turn n₀ = t at h hcall hcases ⊢
  have hlaid (hanswer : t.answer = .ok .done) :
      Lays t.before t.after s hd offset addr readBytes wr ((readBytes + zeroBytes) / 4096) := by
    cases hcases with
    | laid _ _ _ hlays => exact hlays
    | refused heq | stopped _ heq =>
        rw [hanswer] at heq
        cases heq
  constructor
  case accepted =>
    cases hcases with
    | laid hanswer hok hfree => exact iff_of_true hanswer ⟨hok, hfree⟩
    | refused hanswer hbad => exact iff_of_false (by rw [hanswer]; nofun) fun hok => hbad hok.1
    | stopped j hanswer _ hfirst =>
        exact iff_of_false (by rw [hanswer]; nofun) fun hok => hok.2 j hfirst.lt hfirst.taken
  case refused =>
    intro hbad
    cases hcases with
    | laid _ hok | stopped _ _ hok => exact absurd hok hbad
    | refused hanswer _ hsame => exact ⟨hanswer, hsame⟩
  case stopped =>
    intro j hok hfirst
    cases hcases with
    | laid _ _ hfree => exact absurd hfirst.taken (hfree j hfirst.lt)
    | refused _ hbad => exact absurd hok hbad
    | stopped i hanswer _ hfirst' hlays =>
        rw [hfirst.unique hfirst']
        exact ⟨hanswer, hlays⟩
  case laid => exact hlaid
  case materialized => exact fun z va j hz hp => materializes hz hp
  case filled => exact fun hanswer j hj k n hn hstays => hn.segment_page ((hlaid hanswer).part j hj).2 hstays
  case spared =>
    intro hanswer k x n id pos hn hne
    refine (hn.segment_spares hne).imp_right ?_
    rintro ⟨u, r, p, b, hu, hlast, hp, hst, hcov, hspares⟩
    refine ⟨u, r, p, b, hu, hlast, hp, hst, hcov, fun j hj hstays heq => ?_⟩
    subst heq
    exact hspares _ _ _ _ _ ((hlaid hanswer).part j hj).2 hstays

def loadThree : Turn := (Call.segment ⟨1⟩ ⟨⟨0⟩, 0⟩ 0 0x1000 3 4093 true).turn
  (Hardware.small.machine [.newSpace, .newFile #[1, 2, 3]])

def claimThree : Turn := (Call.claim ⟨1⟩ 0x1000).turn loadThree.after

/-- The segment is registered, and its page holds the three bytes once it is claimed. -/
theorem segment_exact_of_claim : loadThree.answer = .ok .done ∧ ∃ v w c,
    claimThree.FirstLoads ⟨⟨1⟩, 0x1000⟩ (segmentPage true ⟨⟨0⟩, 0⟩ 0 3 0) v w ∧ w.cell ⟨⟨1⟩, 0x1000⟩ = some c ∧
      SegmentPart (v.fileAt ⟨0⟩) 0 3 0 c := by
  have hrun : Runs .small (claimThree :: loadThree :: Hardware.small.turns [.newSpace, .newFile #[1, 2, 3]])
      claimThree.after :=
    Hardware.runs (l := [.claim ⟨1⟩ 0x1000, .segment ⟨1⟩ ⟨⟨0⟩, 0⟩ 0 0x1000 3 4093 true, .newSpace, .newFile #[1, 2, 3]])
      .small (by decide +kernel)
  have hsegment : Runs .small (loadThree :: Hardware.small.turns [.newSpace, .newFile #[1, 2, 3]]) loadThree.after := by
    have h := hrun.before
    rwa [claimThree, before_turn] at h
  have hexact := hsegment.segment_exact (call_turn ..) (by decide)
  have hanswer : loadThree.answer = .ok .done := by
    refine hexact.accepted.2 ⟨⟨by decide, by decide, by decide, by decide, by decide⟩, fun i hi => ?_⟩
    obtain rfl : i = 0 := by omega
    unfold Taken
    decide +kernel
  refine ⟨hanswer, ?_⟩
  have hkind : (claimThree.after.page? ⟨⟨1⟩, 0x1000⟩).map (·.kind) = some .anon := by decide +kernel
  obtain ⟨q, hq, hk⟩ := Option.map_eq_some_iff.1 hkind
  rcases hexact.filled hanswer 0 (by decide) [claimThree] _ hrun (by simp [hq]) with hlazy | ⟨-, x, hx, hfilled⟩
  · obtain rfl := Option.some.inj (hq.symm.trans hlazy)
    cases hk
  · rw [List.mem_singleton.1 hx] at hfilled
    exact hfilled

end DemandPaging
