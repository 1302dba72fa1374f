import DemandPaging.Proofs.Victims

namespace DemandPaging

open Function (update)
open Step Machine Vm

variable {hw : Hardware} {m n u w : Machine} {f g : FrameId} {o r : PageRef} {p : Page} {e : PagingError}
  {page : Contents}

/-- Each byte of a file that a page was saved to, in full or not, is what it was or comes from the page. -/
theorem Backing.byte_save_or (b : Backing) (page : Contents) (F : File) (pos : Nat) :
    (b.save page F).2.bytes[pos]? = F.bytes[pos]? ∨
      ∃ k < b.expected, pos = b.offset + k ∧ (b.save page F).2.bytes[pos]? = page[k]? := by
  rw [save_eq]
  generalize hd : (Buffer.slice page 0 b.expected).extract 0
    (capped (F.limits F.calls).write (Buffer.slice page 0 b.expected).size) = d
  by_cases hin : b.offset ≤ pos ∧ pos < b.offset + d.size ∧ pos < F.bytes.size
  · obtain ⟨k, rfl⟩ := Nat.exists_eq_add_of_le hin.1
    have hk : k < d.size := by omega
    have hbyte := File.byte_overwrite_inside (F := { F with calls := F.calls + 1 }) hk hin.2.2
    rw [← hd, Array.size_extract, size_slice_expected] at hk
    refine .inr ⟨k, by omega, rfl, hbyte.trans ?_⟩
    rw [← hd, Array.getElem?_extract_of_lt (by rw [size_slice_expected]; omega), ← Array.getElem?_eq_getElem,
      Nat.zero_add, page.getElem?_slice (by rw [Nat.zero_add]; exact b.expected_le) (by omega), Nat.zero_add]
  · left
    by_cases hsize : pos < F.bytes.size
    · exact File.byte_overwrite_outside (F := { F with calls := F.calls + 1 }) (by omega)
    · rw [Array.getElem?_eq_none (by rw [File.size_overwrite]; exact Nat.not_lt.1 hsize),
        Array.getElem?_eq_none (Nat.not_lt.1 hsize)]

inductive Fails (m : Machine) (p : Page) (page : Contents) (e : PagingError) (n : Machine) : Prop
  | swap {stack : Bool} (hs : p.state = .anon none stack)
      (hstore : (SwapArea.store page).run m.swap = .error (.error e) n.swap) (hspoils : m.swap.Spoils n.swap)
      (hfiles : n.files = m.files)
  | file {b : Backing} (hs : p.state = .file b)
      (he : b.written (b.save page (m.file b.handle.file)).1 = some e) (hswap : n.swap = m.swap)
      (hfiles : n.files = m.files.setIfInBounds b.handle.file.index (b.save page (m.file b.handle.file)).2)
      (hbytes : ∀ pos, (b.save page (m.file b.handle.file)).2.bytes[pos]? = (m.file b.handle.file).bytes[pos]? ∨
        ∃ k < b.expected, pos = b.offset + k ∧ (b.save page (m.file b.handle.file)).2.bytes[pos]? = page[k]?)

def Machine.Takes (m : Machine) (p : Page) (page : Contents) : Prop :=
  match p.state with
  | .anon _ _ => m.swap.disk.Reliable ∧ ¬ m.swap.Full
  | .file b => (b.save page (m.file b.handle.file)).1 = b.expected
  | .untouched _ _ => False

/-- The page `p` at `o` was to leave frame `f` and could not be saved because of `e`. It is where it was, but no longer
counts as referenced; the oldest frame is its own. It leaves the frame with its bytes when a frame is asked for again
and there is where it can go, whatever was done to other pages in between. -/
structure Stays (hw : Hardware) (m : Machine) (f : FrameId) (o : PageRef) (p : Page) (e : PagingError) (n : Machine) :
    Prop where
  owner : m.frames.owner f = .ok (some o)
  page : m.page? o = some p
  frame : p.frame = some f
  chosen : ∃ spared left, Clock.Chooses m.referenced m.frames.clock f spared left ∧ n.frames.clock = f :: left ∧
    ∀ r, n.view.entry r = if r = o then some ⟨f, p.writable, false, p.kind = .file⟩ else
      (m.view.entry r).map fun x => if x.frame ∈ spared then { x with accessed := false } else x
  dirty : p.kind = .file → (m.view.entry o).any (·.dirty) = true
  fails : Fails m p (m.view.bytes f) e n
  retried : ∀ u, Reaches hw u → u.frames = n.frames → u.page? o = n.page? o → u.view.entry o = n.view.entry o →
    (u.Takes p (m.view.bytes f) → ∃ w, Vm.acquire.run u = .ok f w) ∧
      ∀ g w, Vm.acquire.run u = .ok g w → g = f ∧ u.view.bytes f = m.view.bytes f ∧ Leaves u f o w

/-- The machine `n` that is left when no frame could be handed out on `m` because of `e`. -/
structure Refused (hw : Hardware) (m : Machine) (e : PagingError) (n : Machine) : Prop where
  freeFrames : m.frames.freeFrames = 0 ∧ n.frames.freeFrames = 0
  status : n.view.status = m.view.status
  owner : n.view.owner = m.view.owner
  bytes : n.view.bytes = m.view.bytes
  clock : m.frames.clock.IsRotated n.frames.clock
  book : n.view.book = m.view.book
  page : n.view.page = m.view.page
  mapped : ∀ r, (n.view.entry r).map (fun x => (x.frame, x.writable)) =
    (m.view.entry r).map fun x => (x.frame, x.writable)
  dirty : ∀ r p, m.page? r = some p → p.kind = .file →
    (n.view.entry r).any (·.dirty) = (m.view.entry r).any (·.dirty)
  used : n.view.used = m.view.used
  kept : ∀ k, m.view.used k = true → n.view.kept k = m.view.kept k
  noFrame_iff : e = .noFrame ↔ m.frames.clock = []
  bare : e = .noFrame → n = m
  stays : e ≠ .noFrame → ∃ f o p, Stays hw m f o p e n

theorem Vm.Transfers.fails {dirty : Bool} (h : Transfers m p dirty page n (some e)) (hm : m.Consistent) :
    Fails m p page e n ∧ (p.kind = .file → dirty = true) := by
  generalize he : some e = x at h
  cases h with
  | refused hs hstore hfiles =>
      cases he
      refine ⟨.swap hs hstore ((hm.swap.store page).of_error hstore).2.2.2.1 hfiles, fun hk => ?_⟩
      simp [Page.kind, hs] at hk
  | written hs hd hswap hfiles => exact ⟨.file hs he.symm hswap hfiles fun _ => Backing.byte_save_or .., fun _ => hd⟩
  | stored | clean => cases he

theorem Vm.Transfers.not_takes {dirty : Bool} (h : Transfers m p dirty page n (some e)) (hm : m.Consistent) :
    ¬ m.Takes p page := by
  intro ht
  unfold Machine.Takes at ht
  cases (h.fails hm).1 with
  | swap hs =>
      rw [hs] at ht
      exact ht.2 (h.full hm (by rw [Page.kind, hs]) ht.1)
  | file hs he =>
      rw [hs] at ht
      exact Backing.ne_expected_of_written he ht

/-- The oldest frame, if its page was not referenced, is the one that is reclaimed. -/
theorem Machine.Sound.acquire_oldest {left : List FrameId} (hu : u.Sound) (hfree : u.frames.freeFrames = 0)
    (hclock : u.frames.clock = f :: left) (ho : u.view.owner f = some o) (hp : u.view.page o = some p)
    (href : u.view.referenced f = false) :
    (u.Takes p (u.view.bytes f) → ∃ w, Vm.acquire.run u = .ok f w) ∧
      ∀ g w, Vm.acquire.run u = .ok g w → g = f ∧ Leaves u f o w := by
  have hok (g : FrameId) (w : Machine) (hrun : Vm.acquire.run u = .ok g w) : g = f ∧ Leaves u f o w := by
    obtain ⟨o', spared, hchosen, ho', hleaves, -⟩ :=
      (Acquired.of_acquires ((yields_acquire hu).of_ok hrun) hu).reclaimed hfree
    rw [hclock] at hchosen
    obtain ⟨rfl, -⟩ := hchosen.eq_head ((hu.referenced_eq f).trans href)
    rw [Frames.owner_eq_ok_iff] at ho'
    cases ho.symm.trans ho'
    exact ⟨rfl, hleaves⟩
  refine ⟨fun ht => ?_, hok⟩
  cases hrun : Vm.acquire.run u with
  | ok g w =>
      obtain ⟨rfl, -⟩ := hok g w hrun
      exact ⟨w, rfl⟩
  | error e w =>
      obtain ⟨err, rfl, -, -, hrefuses⟩ := ((yields_acquire hu).of_error hrun).error
      cases hrefuses with
      | bare _ hnil =>
          rw [hclock] at hnil
          cases hnil
      | unsaved hchosen ho' hp' _ _ htransfer =>
          rw [hclock] at hchosen
          obtain ⟨rfl, -⟩ := hchosen.eq_head href
          cases ho.symm.trans ho'
          cases hp.symm.trans hp'
          exact absurd ht (htransfer.not_takes hu.consistent)

/-- A page that could not be saved is mapped as before, unmarked, and dirty if it is a file's. -/
theorem Vm.Unsaved.entry_eq {v w : View} (h : Unsaved v o p f w) :
    w.entry = update v.entry o (some ⟨f, p.writable, false, p.kind = .file⟩) := by
  cases h with
  | full hs => simp [Page.kind, hs, Translation.fresh]
  | cut hs => simp [Page.kind, hs, Translation.fresh]

theorem Vm.Unsaved.rest_eq {v w : View} (h : Unsaved v o p f w) :
    w.book = v.book ∧ w.page = v.page ∧ w.bytes = v.bytes ∧ w.used = v.used ∧
      ∀ k, v.used k = true → w.kept k = v.kept k := by
  cases h with
  | full _ hk => exact ⟨rfl, rfl, rfl, rfl, hk⟩
  | cut => exact ⟨rfl, rfl, rfl, rfl, fun _ _ => rfl⟩

theorem Vm.Unsaved.any_dirty {v w : View} (h : Unsaved v o p f w) (hk : p.kind = .file) :
    (v.entry o).any (·.dirty) = true := by
  cases h with
  | full hs => simp [Page.kind, hs] at hk
  | cut _ hx => exact hx

/-- When no page can be saved everything is left as it was, but for the marks of the frames that were spared. -/
theorem Refused.of_refuses (h : Refuses m e n) (hm : m.Sound) (hn : n.Consistent) (ht : m.frames.pool.take = none) :
    Refused hw m e n := by
  have hnone (f : FrameId) : m.view.status f ≠ .free := FramePool.take_eq_none ht f
  have hfreeFrames {u : Machine} (hu : u.Consistent) (hs : u.view.status = m.view.status) :
      u.frames.freeFrames = 0 := by
    refine hu.frames.counted.freeFrames_eq_zero_iff.2 ?_
    cases hq : u.frames.pool.take with
    | none => rfl
    | some c => exact absurd (hs ▸ (hu.frames.counted.take (f := c.1) (q := c.2) hq).1) (hnone c.1)
  cases h with
  | bare he hclock hn =>
      subst hn
      exact ⟨⟨hfreeFrames hn rfl, hfreeFrames hn rfl⟩, rfl, rfl, rfl, .refl _, rfl, rfl, fun _ => rfl,
        fun _ _ _ _ => rfl, rfl, fun _ _ => rfl, ⟨fun _ => hclock, fun _ => he⟩, fun _ => rfl, fun hne => absurd he hne⟩
  | @unsaved f o p w spared left hchosen ho hp hf hunsaved htransfer hview =>
      obtain ⟨hbook, hpage, hbytes, hused, hkept⟩ := hunsaved.rest_eq
      obtain ⟨a, d, hx⟩ := hm.coherent.entry_of_resident hp hf
      have hentry (r : PageRef) : n.view.entry r = if r = o then some ⟨f, p.writable, false, p.kind = .file⟩ else
          (m.view.entry r).map fun x => if x.frame ∈ spared then { x with accessed := false } else x := by
        rw [hview]
        exact (congrFun hunsaved.entry_eq r).trans (Function.update_apply ..)
      have hstatus : n.view.status = m.view.status := by
        rw [hview]
        exact hunsaved.status_eq
      have hclock : n.view.clock = f :: left := by rw [hview]
      have howner : n.view.owner = m.view.owner := by rw [hview]
      have hpages : n.view.page = m.view.page := by
        rw [hview]
        exact hpage
      have hcause : e ≠ .noFrame := by
        rintro rfl
        rcases htransfer.cause hm.consistent with h | ⟨_, h⟩ <;> cases h
      have hdirty (hk : p.kind = .file) : (m.view.entry o).any (·.dirty) = true :=
        (View.any_dirty_spare ..).symm.trans (hunsaved.any_dirty hk)
      have hcons : m.frames.clock ≠ [] := fun hnil => by
        have hperm := hchosen.perm
        rw [hnil] at hperm
        exact List.cons_ne_nil _ _ (List.nil_perm.1 hperm)
      refine ⟨⟨hfreeFrames hm.consistent rfl, hfreeFrames hn hstatus⟩, hstatus, howner, ?_, ?_, ?_, hpages, fun r => ?_,
        fun r q hq hk => ?_, ?_, fun k hk => ?_, ⟨fun he => absurd he hcause, fun hnil => absurd hnil hcons⟩,
        fun he => absurd he hcause, fun _ => ⟨f, o, p, ?_⟩⟩
      · rw [hview]
        exact hbytes
      · rw [show n.frames.clock = f :: left from hclock]
        exact hchosen.isRotated
      · rw [hview]
        exact hbook
      · rw [hentry]
        split
        · subst r
          rw [hx]
          rfl
        · rw [Option.map_map]
          congr 1
          funext x
          simp only [Function.comp_apply]
          split <;> rfl
      · rw [hentry]
        split
        · subst r
          cases hp.symm.trans hq
          rw [hdirty hk]
          simpa using hk
        · exact View.any_dirty_spare m.view spared r
      · rw [hview]
        exact hused
      · rw [hview]
        exact hkept k hk
      · refine ⟨Frames.owner_eq_ok_iff.2 ho, hp, hf, ⟨spared, left, ?_, hclock, hentry⟩, hdirty,
          (htransfer.fails hm.consistent).1, fun u hu hframes hup hux => ?_⟩
        · rwa [funext hm.referenced_eq]
        · have hubytes : u.view.bytes f = m.view.bytes f := by
            rw [show u.view.bytes = n.view.bytes from congrArg Frames.bytesAt hframes, hview]
            exact congrFun hbytes f
          have huowner : u.view.owner f = some o := by
            rw [show u.view.owner = n.view.owner from congrArg Frames.ownerAt hframes, howner, ho]
          have hupage : u.view.page o = some p := hup.trans ((congrFun hpages o).trans hp)
          have huref : u.view.referenced f = false := by
            rw [View.referenced, huowner, Option.bind_some, hux, hentry, if_pos rfl]
            rfl
          have huclock : u.frames.clock = f :: left := by rw [hframes]; exact hclock
          have hufree : u.frames.freeFrames = 0 := by rw [hframes]; exact hfreeFrames hn hstatus
          obtain ⟨htakes, hok⟩ := hu.sound.acquire_oldest hufree huclock huowner hupage huref
          rw [← hubytes]
          exact ⟨htakes, fun g w hrun => ⟨(hok g w hrun).1, rfl, (hok g w hrun).2⟩⟩

/-- If no frame can be had, nothing is lost: at most a page is where it was that was to leave its frame. -/
theorem Reaches.refused {e : Stop} (h : Reaches hw m) (hrun : Vm.acquire.run m = .error e n) :
    ∃ err, e = .error err ∧ Refused hw m err n := by
  obtain ⟨err, he, hn, ht, hrefuses⟩ := ((yields_acquire h.sound).of_error hrun).error
  exact ⟨err, he, .of_refuses hrefuses h.sound hn ht⟩

def claimedAnon : Machine :=
  Hardware.single.machine [.claim ⟨1⟩ 0x1000, .register ⟨1⟩ 0x1000 true .anon none, .newSpace]

/-- The only frame has a page that there is no slot for. -/
theorem refused_without_slots : ∃ err, err ≠ .noFrame ∧
    Vm.acquire.run claimedAnon = .error (.error err) (Vm.acquire.last claimedAnon) ∧
    Refused .single claimedAnon err (Vm.acquire.last claimedAnon) := by
  have hrun : Runs .single _ claimedAnon := Hardware.runs .single (by decide +kernel)
  have hvalue : (Vm.acquire.value? claimedAnon).isNone = true := by decide +kernel
  obtain ⟨e, he⟩ := run_eq_error (Option.isNone_iff_eq_none.1 hvalue)
  obtain ⟨err, rfl, hrefused⟩ := hrun.reaches.refused he
  refine ⟨err, fun hnone => ?_, he, hrefused⟩
  have hclock : claimedAnon.frames.clock.isEmpty = false := by decide +kernel
  rw [hrefused.noFrame_iff.1 hnone] at hclock
  cases hclock

end DemandPaging
