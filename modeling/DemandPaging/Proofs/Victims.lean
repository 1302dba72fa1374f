import DemandPaging.Proofs.Forked
import DemandPaging.Proofs.FileBytes
import DemandPaging.Proofs.Partition

namespace DemandPaging

open Function (update)
open Step Machine Vm

variable {hw : Hardware} {l : List Turn} {m n u : Machine} {f : FrameId} {o r : PageRef} {p : Page} {e : PagingError}

/-- What a machine may come to by calls, with frames handed out, or not, and given back in between. -/
inductive Reaches (hw : Hardware) : Machine → Prop
  | boot : Reaches hw hw.boot
  | call {m : Machine} (h : Reaches hw m) (c : Call) (hc : ∀ s ∈ c.spaces, (m.space? s).isSome) :
      Reaches hw (c.turn m).after
  | acquire {m : Machine} (h : Reaches hw m) : Reaches hw (Vm.acquire.last m)
  | release {m : Machine} (h : Reaches hw m) (f : FrameId) (hf : m.view.status f = .pinned) :
      Reaches hw ((Vm.release f).last m)

theorem Runs.reaches (h : Runs hw l m) : Reaches hw m := by
  induction h with
  | boot => exact .boot
  | turn _ c hc ih => exact ih.call c hc

theorem Reaches.sound (h : Reaches hw m) : m.Sound := by
  induction h with
  | boot => exact sound_boot hw.frames_lt hw.disk_lt
  | call _ c hc ih => exact sound_turn ih hc
  | acquire _ ih =>
      refine Yields.last ((yields_acquire_grants ih).mono (fun f n hn => hn.1.toGoes.sound ih) fun e n hn => ?_)
      obtain ⟨-, -, -, hleads, -⟩ := hn.error
      exact hleads.sound ih
  | @release m _ f hf ih =>
      refine Yields.last ((yields_release ih.consistent hf).mono (fun _ n hn => ?_) fun _ _ => False.elim)
      obtain ⟨hn, hv⟩ := hn
      have hpath : View.Path Act.Quiet m.view _ := (View.Step.released hf).path rfl
      refine Goes.sound (P := Act.Quiet) ⟨hn, ?_⟩ ih
      rw [hv]
      exact hpath.step rfl (.told _)

theorem FramePool.Counted.freeFrames_eq_zero_iff {q : FramePool} (h : q.Counted) :
    q.freeFrames = 0 ↔ q.take = none := by
  rw [h.freeFrames_eq, List.countP_eq_zero]
  constructor
  · intro hnone
    cases ht : q.take with
    | none => rfl
    | some c =>
        obtain ⟨hfree, -⟩ := h.take (f := c.1) (q := c.2) ht
        have hlt : c.1.index < q.size := by
          refine Nat.lt_of_not_le fun hle => ?_
          rw [status_eq_absent_iff.2 hle] at hfree
          cases hfree
        exact absurd (by simpa using hfree) (hnone c.1.index (List.mem_range.2 hlt))
  · intro ht i _
    simpa using take_eq_none ht ⟨i⟩

inductive Leaves (m : Machine) (f : FrameId) (o : PageRef) (n : Machine) : Prop
  | orphan (hs : m.space? o.space = none) (hpage : n.view.page = m.view.page) (hswap : n.swap = m.swap)
      (hfiles : n.files = m.files)
  | swapped {p : Page} {stack : Bool} {k : Slot} (hp : m.page? o = some p) (hs : p.state = .anon none stack)
      (hpage : n.view.page = update m.view.page o (some ⟨p.writable, none, .anon (some k) stack⟩))
      (hfree : m.view.used k = false) (hused : n.view.used = update m.view.used k true)
      (hkept : n.view.kept = update m.view.kept k (m.view.bytes f)) (hfiles : n.files = m.files)
  | written {p : Page} {b : Backing} (hp : m.page? o = some p) (hs : p.state = .file b)
      (hdirty : (m.view.entry o).any (·.dirty) = true)
      (hpage : n.view.page = update m.view.page o (some ⟨p.writable, none, .file b⟩)) (hswap : n.swap = m.swap)
      (hfiles : n.files = m.files.setIfInBounds b.handle.file.index
        (b.save (m.view.bytes f) (m.file b.handle.file)).2)
      (hbytes : ∀ k < b.expected,
        (b.save (m.view.bytes f) (m.file b.handle.file)).2.bytes[b.offset + k]? = (m.view.bytes f)[k]?)
  | clean {p : Page} {b : Backing} (hp : m.page? o = some p) (hs : p.state = .file b)
      (hclean : (m.view.entry o).any (·.dirty) = false)
      (hpage : n.view.page = update m.view.page o (some ⟨p.writable, none, .file b⟩)) (hswap : n.swap = m.swap)
      (hfiles : n.files = m.files)

theorem Leaves.congr (h : Leaves m f o u) (hpage : n.view.page = u.view.page) (hswap : n.swap = u.swap)
    (hfiles : n.files = u.files) : Leaves m f o n := by
  have hused : n.view.used = u.view.used := congrArg SwapArea.holds hswap
  have hkept : n.view.kept = u.view.kept := congrArg SwapArea.pageOf hswap
  cases h with
  | orphan hs hp hs' hf => exact .orphan hs (hpage.trans hp) (hswap.trans hs') (hfiles.trans hf)
  | swapped hp hs hp' hfree hu hk hf =>
      exact .swapped hp hs (hpage.trans hp') hfree (hused.trans hu) (hkept.trans hk) (hfiles.trans hf)
  | written hp hs hd hp' hs' hf hb =>
      exact .written hp hs hd (hpage.trans hp') (hswap.trans hs') (hfiles.trans hf) hb
  | clean hp hs hd hp' hs' hf => exact .clean hp hs hd (hpage.trans hp') (hswap.trans hs') (hfiles.trans hf)

/-- The machine `n` that is left when frame `f` was handed out on `m`. -/
structure Acquired (m : Machine) (f : FrameId) (n : Machine) : Prop where
  status : n.view.status = update m.view.status f .pinned
  owner : n.view.owner = update m.view.owner f none
  bytes : n.view.bytes = update m.view.bytes f (Buffer.zero _)
  not_listed : f ∉ n.frames.clock
  book : n.view.book = m.view.book
  free : m.frames.freeFrames ≠ 0 → m.view.status f = .free ∧ n.view.owner = m.view.owner ∧
    n.spaces = m.spaces ∧ n.frames.clock = m.frames.clock ∧ n.swap = m.swap ∧ n.files = m.files
  reclaimed : m.frames.freeFrames = 0 → ∃ o spared,
    Clock.Chooses m.referenced m.frames.clock f spared n.frames.clock ∧ m.frames.owner f = .ok (some o) ∧
      Leaves m f o n ∧ ∀ r, n.view.entry r = if r = o then none else
        (m.view.entry r).map fun x => if x.frame ∈ spared then { x with accessed := false } else x

/-- A frame that is reclaimed loses its page, and every page that was spared its mark. -/
theorem Vm.Reclaims.leaves (h : Reclaims m f u) (hm : m.Sound) :
    u.view.status = update m.view.status f .pinned ∧ u.view.owner = update m.view.owner f none ∧
      u.view.bytes = m.view.bytes ∧ f ∉ u.frames.clock ∧ u.view.book = m.view.book ∧ ∃ o spared,
        Clock.Chooses m.referenced m.frames.clock f spared u.frames.clock ∧ m.frames.owner f = .ok (some o) ∧
          Leaves m f o u ∧ ∀ r, u.view.entry r = if r = o then none else
            (m.view.entry r).map fun x => if x.frame ∈ spared then { x with accessed := false } else x := by
  have hout {spared left : List FrameId} (hchosen : Clock.Chooses m.view.referenced m.frames.clock f spared left) :
      f ∉ left :=
    (List.nodup_cons.1 (hchosen.perm.nodup_iff.1 hm.coherent.nodup)).1
  have hspared {o : PageRef} {spared : List FrameId} (r : PageRef) : update (m.view.spare spared).entry o none r =
      if r = o then none else
        (m.view.entry r).map fun x => if x.frame ∈ spared then { x with accessed := false } else x :=
    Function.update_apply ..
  have hreferenced : m.referenced = m.view.referenced := funext hm.referenced_eq
  have hclock : u.frames.clock = u.view.clock := rfl
  rw [hreferenced, hclock]
  cases h with
  | @orphaned o spared left hchosen ho hs hswap hfiles hview =>
      have hentry : (m.view.spare spared).entry o = none := by
        cases hx : (m.view.spare spared).entry o with
        | none => rfl
        | some x =>
            obtain ⟨p, hp, -⟩ := (hm.coherent.spare spared).page_of_entry hx
            simpa [hs] using (hm.coherent.placed hp).1
      have hspace : m.space? o.space = none := by
        rw [← Option.not_isSome_iff_eq_none, space?_isSome, hs]
        simp
      rw [hview]
      refine ⟨rfl, rfl, rfl, hout hchosen, rfl, o, spared, hchosen, Frames.owner_eq_ok_iff.2 ho,
        .orphan hspace (by rw [hview]; rfl) hswap hfiles, fun r => ?_⟩
      rw [← hspared, ← hentry, Function.update_eq_self]
      rfl
  | @saved o p st w spared left hchosen ho hp hf hsaved htransfer hview =>
      have howner := Frames.owner_eq_ok_iff.2 ho
      cases hsaved with
      | @swapped k stack hs hk =>
          obtain ⟨hfiles, -⟩ := htransfer.of_anon hs
          rw [hview]
          exact ⟨rfl, rfl, rfl, hout hchosen, rfl, o, spared, hchosen, howner,
            .swapped hp hs (by rw [hview]) hk (by rw [hview]; rfl) (by rw [hview]; rfl) hfiles, hspared⟩
      | @clean b hs hx =>
          rw [show ((m.view.without f spared left).entry o).any (·.dirty) = _ from View.any_dirty_spare ..] at hx
          obtain ⟨hswap, hfile⟩ := htransfer.of_file hs
          rw [hx, if_neg Bool.false_ne_true] at hfile
          rw [hview]
          exact ⟨rfl, rfl, rfl, hout hchosen, rfl, o, spared, hchosen, howner,
            .clean hp hs hx (by rw [hview, hs]) hswap hfile.1, hspared⟩
      | @written b hs hx hc =>
          rw [show ((m.view.without f spared left).entry o).any (·.dirty) = _ from View.any_dirty_spare ..] at hx
          obtain ⟨hswap, hfile⟩ := htransfer.of_file hs
          rw [hx, if_pos rfl] at hfile
          rw [hview]
          exact ⟨rfl, rfl, rfl, hout hchosen, rfl, o, spared, hchosen, howner,
            .written hp hs hx (by rw [hview, hs]) hswap hfile.1 fun _ => Backing.byte_save hc, hspared⟩

theorem Acquired.of_acquires (h : Acquires m f n) (hm : m.Sound) : Acquired m f n := by
  have hnone := hm.consistent.frames.counted.freeFrames_eq_zero_iff
  have hfreeFrames : m.frames.freeFrames = m.frames.pool.freeFrames := rfl
  cases h with
  | @taken q ht hn =>
      obtain ⟨hfree, hc, hv⟩ := take_view hm.consistent ht
      have hcleared := (cleared hc (by rw [hv]; exact Function.update_self ..)).2
      have hidle : ¬ (m.view.owner f).isSome := by
        rw [← hm.coherent.held_iff, hfree]
        simp
      have howner : m.view.owner f = none := Option.not_isSome_iff_eq_none.1 hidle
      rw [← hn, hv] at hcleared
      have hsame : update m.view.owner f none = m.view.owner := by rw [← howner, Function.update_eq_self]
      refine ⟨by rw [hcleared], by rw [hcleared, hsame], by rw [hcleared], ?_, by rw [hcleared], fun _ => ?_,
        fun hzero => ?_⟩
      · rw [hn]
        exact (hm.coherent.mem_clock_iff f).not.2 hidle
      · exact ⟨hfree, by rw [hcleared], by rw [hn]; rfl, by rw [hn]; rfl, by rw [hn]; rfl, by rw [hn]; rfl⟩
      · rw [hfreeFrames, hnone, ht] at hzero
        cases hzero
  | @reclaimed u ht hu hr hn =>
      obtain ⟨hstatus, howner, hbytes, hout, hbook, o, spared, hchosen, ho, hleaves, hentry⟩ := hr.leaves hm
      have hcleared := (cleared hu (by rw [hstatus]; exact Function.update_self ..)).2
      rw [← hn] at hcleared
      refine ⟨by rw [hcleared, hstatus], by rw [hcleared, howner], by rw [hcleared, hbytes], ?_,
        by rw [hcleared, hbook], fun hzero => ?_, fun _ => ⟨o, spared, ?_, ho, ?_, fun r => ?_⟩⟩
      · rw [hn]
        exact hout
      · exact absurd (hnone.2 ht) hzero
      · rw [hn]
        exact hchosen
      · exact hleaves.congr (by rw [hcleared]) (by rw [hn]; rfl) (by rw [hn]; rfl)
      · rw [hcleared]
        exact hentry r

/-- A free frame is handed out if there is one, and nothing else is touched then. Otherwise one is reclaimed, and its
page, if it is anybody's, is kept. -/
theorem Reaches.acquired (h : Reaches hw m) (hrun : Vm.acquire.run m = .ok f n) : Acquired m f n :=
  .of_acquires ((yields_acquire h.sound).of_ok hrun) h.sound

def readAndClaim : List Call :=
  [.claim ⟨1⟩ 0x2000, .map ⟨1⟩ 0x2000 3 true ⟨⟨0⟩, 0⟩ 0, .newFile #[1, 2, 3], .read ⟨1⟩ 0x1000 1,
    .register ⟨1⟩ 0x1000 true .anon none, .newSpace]

def twoClaimed : Machine := Hardware.pair.machine readAndClaim

/-- The page that was read is older but spared; the file page, which was only claimed, leaves its frame. -/
theorem acquired_second_frame : Acquired twoClaimed ⟨1⟩ (Vm.acquire.last twoClaimed) ∧
    twoClaimed.frames.clock = [⟨0⟩, ⟨1⟩] ∧ (Vm.acquire.last twoClaimed).frames.clock = [⟨0⟩] := by
  have hrun : Runs .pair _ twoClaimed := Hardware.runs .pair (by decide +kernel)
  have hvalue : (Vm.acquire.value? twoClaimed == some ⟨1⟩) = true := by decide +kernel
  exact ⟨hrun.reaches.acquired (run_eq_ok (eq_of_beq hvalue)), by decide +kernel, by decide +kernel⟩

end DemandPaging
