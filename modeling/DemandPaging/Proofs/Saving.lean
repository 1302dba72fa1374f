import DemandPaging.Proofs.Sweeping

namespace DemandPaging

open Function (update)

theorem Backing.written_eq_none_iff {b : Backing} {count : Nat} : b.written count = none ↔ count = b.expected := by
  unfold written
  split <;> simp_all

theorem Backing.ne_expected_of_written {b : Backing} {count : Nat} {e : PagingError} (h : b.written count = some e) :
    count ≠ b.expected := by
  intro hc
  rw [written_eq_none_iff.2 hc] at h
  cases h

theorem Backing.isMissing_of_written {b : Backing} {count : Nat} {e : PagingError} (h : b.written count = some e) :
    e.isMissing = false := by
  unfold written at h
  split at h
  · cases h
  · cases h
    rfl

namespace Machine

def wroteBack (m : Machine) (b : Backing) (page : Contents) : Machine :=
  (m.withFile b.handle.file (b.save page (m.file b.handle.file)).2).tell
    (.writtenBack (b.save page (m.file b.handle.file)).1 b.offset)

theorem Consistent.wroteBack {m : Machine} (h : m.Consistent) (b : Backing) (page : Contents) :
    (m.wroteBack b page).Consistent :=
  (h.withFile _ _).tell _

theorem view_wroteBack (m : Machine) (b : Backing) (page : Contents) :
    (m.wroteBack b page).view = { m.view with
      file := update m.view.file b.handle.file
        ((m.view.file b.handle.file).map fun F => (b.save page F).2)
      log := m.view.log.push (.writtenBack (b.save page (m.view.fileAt b.handle.file)).1 b.offset) } := by
  rw [wroteBack, view_tell, view_withFile]
  cases hF : m.view.file b.handle.file with
  | none => rfl
  | some F => rw [Option.map_some, Option.map_some, ← fileAt_view, View.fileAt, hF, Option.getD_some]

def unmapped (m : Machine) (s : SpaceId) (va : Addr) : Machine :=
  m.withSpace s fun sp => { sp with table := sp.table.unmap va }

theorem Consistent.unmapped {m : Machine} (h : m.Consistent) (s : SpaceId) (va : Addr) : (m.unmapped s va).Consistent :=
  h.withTable (g := (·.unmap va)) fun ht => ht.unmap va

theorem view_unmapped {m : Machine} {s : SpaceId} {sp : Space} {va : Addr} (h : m.Consistent)
    (hs : m.space? s = some sp) (ha : isPageAligned va = true) :
    (m.unmapped s va).view = { m.view with entry := update m.view.entry ⟨s, va⟩ none } := by
  conv_rhs => rw [← pageBase_of_aligned ha]
  exact view_unmap h hs va

end Machine

namespace Vm

open Step Machine

variable {m n : Machine} {s : SpaceId} {va : Addr} {f : FrameId} {o r : PageRef} {p : Page}
  {x : Translation} {sp : Space} {E : Stop → Machine → Prop}

theorem yields_save {b : Backing} {page : Contents} :
    Yields (save b page) m
      (fun _ n => n = m.wroteBack b page ∧ (b.save page (m.view.fileAt b.handle.file)).1 = b.expected)
      (Failing fun e n => n = m.wroteBack b page ∧
        b.written (b.save page (m.view.fileAt b.handle.file)).1 = some e) := by
  have hsave : Yields (save b page) m = Yields (do
      putFile b.handle.file (b.save page (m.file b.handle.file)).2
      emit (.writtenBack (b.save page (m.file b.handle.file)).1 b.offset)
      check (b.written (b.save page (m.file b.handle.file)).1)) m := rfl
  rw [hsave, yields_bind, yields_putFile, yields_bind, yields_emit, yields_check, fileAt_view]
  split <;> rename_i hw
  · exact ⟨rfl, Backing.written_eq_none_iff.1 hw⟩
  · exact ⟨rfl, hw⟩

theorem yields_storePage (h : m.Consistent) (page : Contents) :
    Yields (storePage page) m
      (fun k n => n.Consistent ∧ m.view.used k = false ∧ (SwapArea.store page).run m.swap = .ok k n.swap ∧
        n.files = m.files ∧ n.view = { m.view with
          used := update m.view.used k true
          kept := update m.view.kept k page
          log := m.view.log.push (.slotWritten k) })
      (Failing fun e n => n.Consistent ∧ (SwapArea.store page).run m.swap = .error (.error e) n.swap ∧
        n.files = m.files ∧
        ∃ kept : Slot → Contents, (∀ k, m.view.used k = true → kept k = m.view.kept k) ∧
          n.view = { m.view with kept := kept }) := by
  unfold storePage
  rw [yields_bind, yields_onSwap]
  refine (h.swap.store page).run_eq.mono (fun k a ha => ?_) fun e a ha => ?_
  · obtain ⟨hrun, hfits, hfree, hholds, hpage⟩ := ha
    refine yields_bind.2 (yields_emit.2 (yields_pure.2 ⟨(h.withSwap hfits).tell _, hfree, hrun, rfl, ?_⟩))
    rw [view_tell, view_withSwap, hholds, hpage]
    rfl
  · obtain ⟨hrun, ha⟩ := ha
    obtain ⟨err, rfl, hfits, -, hholds, hspoils, -⟩ := ha.error
    refine ⟨h.withSwap hfits, hrun, rfl, _, fun k => hspoils.pageOf_eq, ?_⟩
    rw [view_withSwap, hholds]
    rfl

/-- What saving a page whose bytes are `page` does to the swap area and the files, and the error that stops it, if
one does. -/
inductive Transfers (m : Machine) (p : Page) (dirty : Bool) (page : Contents) (n : Machine) :
    Option PagingError → Prop
  | stored {stack : Bool} {k : Slot} (hs : p.state = .anon none stack)
      (hstore : (SwapArea.store page).run m.swap = .ok k n.swap) (hfiles : n.files = m.files) :
      Transfers m p dirty page n none
  | refused {stack : Bool} {e : PagingError} (hs : p.state = .anon none stack)
      (hstore : (SwapArea.store page).run m.swap = .error (.error e) n.swap) (hfiles : n.files = m.files) :
      Transfers m p dirty page n (some e)
  | clean {b : Backing} (hs : p.state = .file b) (hd : dirty = false) (hswap : n.swap = m.swap)
      (hfiles : n.files = m.files) : Transfers m p dirty page n none
  | written {b : Backing} (hs : p.state = .file b) (hd : dirty = true) (hswap : n.swap = m.swap)
      (hfiles : n.files = (m.wroteBack b page).files) :
      Transfers m p dirty page n (b.written (b.save page (m.view.fileAt b.handle.file)).1)

namespace Transfers

variable {dirty : Bool} {page : Contents} {e : PagingError}

theorem of_anon {stack : Bool} {o : Option PagingError} (h : Transfers m p dirty page n o)
    (hs : p.state = .anon none stack) : n.files = m.files ∧
      ((∃ k, o = none ∧ (SwapArea.store page).run m.swap = .ok k n.swap) ∨
        ∃ e, o = some e ∧ (SwapArea.store page).run m.swap = .error (.error e) n.swap) := by
  cases h with
  | stored _ hstore hfiles => exact ⟨hfiles, .inl ⟨_, rfl, hstore⟩⟩
  | refused _ hstore hfiles => exact ⟨hfiles, .inr ⟨_, rfl, hstore⟩⟩
  | clean hs' | written hs' => cases hs.symm.trans hs'

theorem of_file {b : Backing} {o : Option PagingError} (h : Transfers m p dirty page n o) (hs : p.state = .file b) :
    n.swap = m.swap ∧ if dirty then
      n.files = (m.wroteBack b page).files ∧ o = b.written (b.save page (m.view.fileAt b.handle.file)).1
    else n.files = m.files ∧ o = none := by
  cases h with
  | stored hs' | refused hs' => cases hs.symm.trans hs'
  | clean hs' hd hswap hfiles =>
      rw [hd]
      exact ⟨hswap, hfiles, rfl⟩
  | written hs' hd hswap hfiles =>
      cases hs.symm.trans hs'
      rw [hd]
      exact ⟨hswap, hfiles, rfl⟩

/-- A transfer fails for the device's sake, or the file's, or for want of a slot. -/
theorem cause (h : Transfers m p dirty page n (some e)) (hm : m.Consistent) :
    e = .swapFull ∨ ∃ t, e = .storage t := by
  generalize he : some e = o at h
  cases h with
  | refused hs hstore =>
      cases he
      exact ((hm.swap.store page).of_error hstore).2.1.imp_right fun ⟨d, hd⟩ => ⟨_, hd⟩
  | written hs hd hswap =>
      unfold Backing.written at he
      split at he
      · cases he
      · cases he
        exact .inr ⟨_, rfl⟩
  | stored | clean => cases he

theorem after {o : Option PagingError} {u : Machine} (h : Transfers m p dirty page n o) (hswap : u.swap = n.swap)
    (hfiles : u.files = n.files) : Transfers m p dirty page u o := by
  cases h with
  | stored hs hstore hn => exact .stored hs (hswap ▸ hstore) (hfiles.trans hn)
  | refused hs hstore hn => exact .refused hs (hswap ▸ hstore) (hfiles.trans hn)
  | clean hs hd hn hn' => exact .clean hs hd (hswap.trans hn) (hfiles.trans hn')
  | written hs hd hn hn' => exact .written hs hd (hswap.trans hn) (hfiles.trans hn')

/-- It is all the same where the page was before. -/
theorem congr {o : Option PagingError} {u : Machine} (h : Transfers u p dirty page n o) (hswap : u.swap = m.swap)
    (hfiles : u.files = m.files) : Transfers m p dirty page n o := by
  cases h with
  | stored hs hstore hn => exact .stored hs (hswap ▸ hstore) (hn.trans hfiles)
  | refused hs hstore hn => exact .refused hs (hswap ▸ hstore) (hn.trans hfiles)
  | clean hs hd hn hn' => exact .clean hs hd (hn.trans hswap) (hn'.trans hfiles)
  | @written b hs hd hn hn' =>
      have hat : u.view.fileAt b.handle.file = m.view.fileAt b.handle.file := by
        rw [fileAt_view, fileAt_view, file, hfiles, file]
      rw [hat]
      refine .written hs hd (hn.trans hswap) (hn'.trans ?_)
      rw [wroteBack, wroteBack, ← fileAt_view, hat, fileAt_view]
      exact congrArg (Array.setIfInBounds · _ _) hfiles

theorem isMissing (h : Transfers m p dirty page n (some e)) (hm : m.Consistent) : e.isMissing = false := by
  rcases h.cause hm with rfl | ⟨t, rfl⟩ <;> rfl

/-- A reliable device refuses a page only if all slots are taken. -/
theorem full (h : Transfers m p dirty page n (some e)) (hm : m.Consistent) (hp : p.kind = .anon)
    (hdisk : m.swap.disk.Reliable) : m.swap.Full := by
  generalize he : some e = o at h
  cases h with
  | refused hs hstore => exact ((hm.swap.store page).of_error hstore).2.2.2.2 hdisk
  | written hs => simp [Page.kind, hs] at hp
  | stored | clean => cases he

end Transfers

theorem yields_remap (h : m.Consistent) (hs : (m.view.book s).isSome) (ha : isPageAligned va = true)
    (hu : isKernel va = false) (hf : f.index < 0x100000) (hx : m.view.entry ⟨s, va⟩ = none) (w : Bool) :
    Yields (remap s va f w) m
      (fun _ n => n.Consistent ∧ n.swap = m.swap ∧ n.files = m.files ∧
        n.view = { m.view with entry := update m.view.entry ⟨s, va⟩ (some (.fresh f w)) })
      fun _ _ => False := by
  obtain ⟨sp, hsp⟩ := space?_of_book hs
  obtain ⟨-, t, ht, hn, hv⟩ | ⟨hge, -⟩ := h.map_cases hsp ha hu hx (hf.trans (by decide)) w
  · refine yields_modifyTable.2 ?_
    rw [withSpace_congr hsp (g := fun sp => { sp with table := t }) (by rw [ht, Option.getD_some])]
    exact ⟨hn, rfl, rfl, hv⟩
  · omega

theorem yields_markDirty (h : m.Consistent) (hs : (m.view.book s).isSome) (ha : isPageAligned va = true) :
    Yields (modifyTable s (·.setDirty va true)) m
      (fun _ n => n.Consistent ∧ n.swap = m.swap ∧ n.files = m.files ∧ n.view = { m.view with
        entry := update m.view.entry ⟨s, va⟩ ((m.view.entry ⟨s, va⟩).map ({ · with dirty := true })) })
      fun _ _ => False := by
  obtain ⟨sp, hsp⟩ := space?_of_book hs
  have hv := view_setDirty h hsp va true
  rw [pageBase_of_aligned ha] at hv
  refine yields_modifyTable.2 ⟨h.withTable (g := (·.setDirty va true)) fun ht => ?_, rfl, rfl, hv⟩
  rw [PageTable.setDirty_eq_rewrite]
  exact ht.rewrite _ _

inductive Saved (v : View) (r : PageRef) (p : Page) (f : FrameId) : PageState → View → Prop
  | swapped {k : Slot} {stack : Bool} (hs : p.state = .anon none stack) (hk : v.used k = false) :
      Saved v r p f (.anon (some k) stack) { v with
        entry := update v.entry r none
        used := update v.used k true
        kept := update v.kept k (v.bytes f)
        log := v.log.push (.slotWritten k) }
  | clean {b : Backing} (hs : p.state = .file b) (hx : (v.entry r).any (·.dirty) = false) :
      Saved v r p f p.state { v with entry := update v.entry r none }
  | written {b : Backing} (hs : p.state = .file b) (hx : (v.entry r).any (·.dirty) = true)
      (hc : (b.save (v.bytes f) (v.fileAt b.handle.file)).1 = b.expected) :
      Saved v r p f p.state { v with
        entry := update v.entry r none
        file := update v.file b.handle.file
          ((v.file b.handle.file).map fun F => (b.save (v.bytes f) F).2)
        log := v.log.push (.writtenBack b.expected b.offset) }

inductive Unsaved (v : View) (r : PageRef) (p : Page) (f : FrameId) : View → Prop
  | full {kept : Slot → Contents} {stack : Bool} (hs : p.state = .anon none stack)
      (hk : ∀ k, v.used k = true → kept k = v.kept k) :
      Unsaved v r p f { v with
        entry := update v.entry r (some (.fresh f p.writable))
        kept := kept }
  | cut {b : Backing} (hs : p.state = .file b) (hx : (v.entry r).any (·.dirty) = true) :
      Unsaved v r p f { v with
        entry := update v.entry r (some { Translation.fresh f p.writable with dirty := true })
        file := update v.file b.handle.file
          ((v.file b.handle.file).map fun F => (b.save (v.bytes f) F).2)
        log := v.log.push (.writtenBack (b.save (v.bytes f) (v.fileAt b.handle.file)).1 b.offset) }

def Saves (m : Machine) (r : PageRef) (p : Page) (f : FrameId) (st : PageState) (n : Machine) : Prop :=
  n.Consistent ∧ Saved m.view r p f st n.view ∧
    Transfers m p ((m.view.entry r).any (·.dirty)) (m.view.bytes f) n none

def Unsaves (m : Machine) (r : PageRef) (p : Page) (f : FrameId) (e : PagingError) (n : Machine) : Prop :=
  n.Consistent ∧ Unsaved m.view r p f n.view ∧
    Transfers m p ((m.view.entry r).any (·.dirty)) (m.view.bytes f) n (some e)

theorem yields_savePage_anon (h : m.Consistent) (hs : m.space? s = some sp) (ha : isPageAligned va = true)
    (hu : isKernel va = false) (hlt : f.index < 0x100000) (hpresent : m.view.status f ≠ .absent) {stack : Bool}
    (hst : p.state = .anon none stack) :
    Yields (savePage s va p f) m (Saves m ⟨s, va⟩ p f) (Failing (Unsaves m ⟨s, va⟩ p f)) := by
  have hun := view_unmapped h hs ha
  have hcon := h.unmapped s va
  have hbook : (m.view.book s).isSome := by simp [book_eq hs]
  unfold savePage
  rw [yields_bind, yields_space hs, yields_bind, yields_modifyTable, hst]
  refine yields_bind.2 ((yields_contents hcon (by rwa [hun])).2 (yields_bind.2 ?_))
  rw [hun]
  refine (yields_storePage hcon _).attempt (fun k n hn => ?_) fun e n hn => ?_
  · obtain ⟨hn, hk, hstore, hfiles, hv⟩ := hn
    rw [hun] at hk hv
    refine yields_pure.2 ⟨hn, ?_, .stored hst hstore hfiles⟩
    rw [hv]
    exact .swapped hst hk
  · obtain ⟨hn, hstore, hfiles, kept, hk, hv⟩ := hn
    rw [hun] at hk hv
    refine yields_bind.2 ((yields_remap hn (by rwa [hv]) ha hu hlt
      (by rw [hv]; exact Function.update_self ..) _).mono ?_ fun _ _ => False.elim)
    rintro - u ⟨hu, hswap, hkept, huv⟩
    refine yields_fail.2 ⟨hu, ?_, .after (.refused hst hstore hfiles) hswap hkept⟩
    rw [huv, hv]
    dsimp only
    rw [Function.update_idem]
    exact .full hst hk

theorem yields_savePage_file (h : m.Consistent) (hs : m.space? s = some sp) (ha : isPageAligned va = true)
    (hu : isKernel va = false) (hlt : f.index < 0x100000) (hpresent : m.view.status f ≠ .absent) {b : Backing}
    (hst : p.state = .file b) :
    Yields (savePage s va p f) m (Saves m ⟨s, va⟩ p f) (Failing (Unsaves m ⟨s, va⟩ p f)) := by
  have hun := view_unmapped h hs ha
  have hcon := h.unmapped s va
  have hbook : (m.view.book s).isSome := by simp [book_eq hs]
  have hdirty : sp.table.isDirty va = (m.view.entry ⟨s, va⟩).any (·.dirty) := by
    rw [PageTable.isDirty_eq, entry_eq hs ha]
  unfold savePage
  rw [yields_bind, yields_space hs, yields_bind, yields_modifyTable, hst]
  dsimp only
  rw [hdirty]
  split
  · rename_i hd
    have hfile : (m.unmapped s va).view.fileAt b.handle.file = m.view.fileAt b.handle.file := by
      rw [hun]
      rfl
    have hv := view_wroteBack (m.unmapped s va) b (m.view.bytes f)
    have hsaved : Yields (save b (m.view.bytes f)) (m.unmapped s va) _ _ := yields_save
    rw [hfile] at hv hsaved
    rw [hun] at hv
    refine yields_bind.2 ((yields_contents hcon (by rwa [hun])).2 (yields_bind.2 ?_))
    rw [hun]
    refine hsaved.attempt (fun _ n hn => ?_) fun e n hn => ?_
    · obtain ⟨rfl, hc⟩ := hn
      refine yields_pure.2 ⟨hcon.wroteBack .., ?_,
        Backing.written_eq_none_iff.2 hc ▸ Transfers.written hst hd rfl rfl⟩
      rw [hv, hc, ← hst]
      exact .written hst hd hc
    · obtain ⟨hnw, he⟩ := hn
      have hn : n.Consistent := hnw ▸ hcon.wroteBack b (m.view.bytes f)
      rw [← hnw] at hv
      refine yields_bind.2 ((yields_remap hn (by rwa [hv]) ha hu hlt
        (by rw [hv]; exact Function.update_self ..) _).mono ?_ fun _ _ => False.elim)
      rintro - u ⟨hcu, huswap, hufiles, huv⟩
      refine yields_bind.2 ((yields_markDirty hcu (by rwa [huv, hv]) ha).mono ?_ fun _ _ => False.elim)
      rintro - w ⟨hw, hwswap, hwfiles, hwv⟩
      refine yields_fail.2 ⟨hw, ?_, he ▸ .after (.written hst hd (hnw ▸ rfl) (hnw ▸ rfl)) (hwswap.trans huswap)
        (hwfiles.trans hufiles)⟩
      rw [hwv, huv, hv]
      simpa only [Function.update_idem, Function.update_self, Option.map_some] using Unsaved.cut hst hd
  · rename_i hd
    refine yields_pure.2 ⟨hcon, ?_, .clean hst (by simpa using hd) rfl rfl⟩
    change Saved m.view _ p f _ (m.unmapped s va).view
    rw [hun, ← hst]
    exact .clean hst (by simpa using hd)

/-- A page is unmapped and its bytes are kept, or it is mapped as it was. -/
theorem yields_savePage (h : m.Consistent) (ha : isPageAligned va = true) (hu : isKernel va = false)
    (hp : m.view.page ⟨s, va⟩ = some p) (hf : p.frame = some f) (hapt : View.Apt p)
    (hx : m.view.entry ⟨s, va⟩ = some x) (hxf : x.frame = f) (hpresent : m.view.status f ≠ .absent) :
    Yields (savePage s va p f) m (Saves m ⟨s, va⟩ p f) (Failing (Unsaves m ⟨s, va⟩ p f)) := by
  obtain ⟨sp, hsp⟩ := space?_of_page hp
  dsimp only at hsp
  have hlt : f.index < 0x100000 := by
    rw [entry_eq hsp ha] at hx
    exact hxf ▸ PageTable.translation?_frame_lt hx
  rw [View.Apt, hf] at hapt
  cases hst : p.state with
  | untouched =>
      rw [hst] at hapt
      cases hapt
  | anon slot stack =>
      rw [hst] at hapt
      obtain rfl : slot = none := hapt.2 rfl
      exact yields_savePage_anon h hsp ha hu hlt hpresent hst
  | file b => exact yields_savePage_file h hsp ha hu hlt hpresent hst

theorem Saved.book_eq {v w : View} {st : PageState} (h : Saved v r p f st w) : w.book = v.book := by
  cases h <;> rfl

theorem Saved.page_eq {v w : View} {st : PageState} (h : Saved v r p f st w) : w.page = v.page := by
  cases h <;> rfl

theorem Saved.status_eq {v w : View} {st : PageState} (h : Saved v r p f st w) :
    w.status = v.status := by
  cases h <;> rfl

theorem Unsaved.status_eq {v w : View} (h : Unsaved v r p f w) : w.status = v.status := by
  cases h <;> rfl

theorem Unsaved.owner_eq {v w : View} (h : Unsaved v r p f w) : w.owner = v.owner := by
  cases h <;> rfl

theorem Unsaved.clock_eq {v w : View} (h : Unsaved v r p f w) : w.clock = v.clock := by
  cases h <;> rfl

theorem yields_vacate (h : m.Consistent) (ha : isPageAligned va = true) (hu : isKernel va = false)
    (hp : m.view.page ⟨s, va⟩ = some p) (hf : p.frame = some f) (hapt : View.Apt p)
    (hx : m.view.entry ⟨s, va⟩ = some x) (hxf : x.frame = f) (hpresent : m.view.status f ≠ .absent) :
    Yields (vacate s va f) m
      (fun _ n => n.Consistent ∧ (∃ st w, Saved m.view ⟨s, va⟩ p f st w ∧ n.view = { w with
          page := update m.view.page ⟨s, va⟩ (some ⟨p.writable, none, st⟩) }) ∧
        Transfers m p ((m.view.entry ⟨s, va⟩).any (·.dirty)) (m.view.bytes f) n none)
      (Failing fun e n => n.Consistent ∧ Unsaved m.view ⟨s, va⟩ p f n.view ∧
        Transfers m p ((m.view.entry ⟨s, va⟩).any (·.dirty)) (m.view.bytes f) n (some e)) := by
  obtain ⟨sp, hsp⟩ := space?_of_page hp
  dsimp only at hsp
  have hfound : (sp.page? va).filter (·.frame = some f) = some p := by
    rw [Space.page?, pageBase_of_aligned ha, ← page_eq hsp, hp]
    simp [hf]
  unfold vacate
  rw [yields_bind, yields_space hsp, hfound]
  dsimp only
  rw [pageBase_of_aligned ha]
  refine (yields_savePage h ha hu hp hf hapt hx hxf hpresent).bind (fun st n hn => ?_) fun _ _ => id
  obtain ⟨hn, hsaved, htransfer⟩ := hn
  obtain ⟨sn, hsn⟩ := space?_of_book (m := n) (s := s) (by rw [hsaved.book_eq, book_eq hsp]; rfl)
  refine yields_modifySpace.2 ⟨hn.setPage s _ _, ⟨st, _, hsaved, ?_⟩, htransfer.after rfl rfl⟩
  rw [view_setPage hsn, pageBase_of_aligned ha, hsaved.page_eq]

theorem Saved.path {v w : View} {st : PageState} {l : List FrameId} (hp : v.page r = some p)
    (hf : p.frame = some f) (hx : v.entry r = some x) (hl : v.clock.Perm (f :: l))
    (h : Saved { v with clock := l, owner := update v.owner f none } r p f st w) :
    View.Path Act.Quiet v { w with
      page := update v.page r (some ⟨p.writable, none, st⟩)
      status := update v.status f .pinned } := by
  cases h with
  | @swapped k stack hs hk =>
      have htold : View.Path Act.Quiet v _ := (View.Step.told (.slotWritten k)).path rfl
      exact htold.step rfl (.swapped hp hs hf hk hl)
  | clean hs hx =>
      rw [hs]
      exact (View.Step.discarded hp hs hf hx hl).path rfl
  | @written b hs _ hc =>
      rw [hs]
      have hflushed : View.Path Act.Quiet v _ := (View.Step.flushed hp hs hf hx hc).path rfl
      have htold := hflushed.step rfl (.told (.writtenBack b.expected b.offset))
      have hgone := htold.step rfl (.discarded hp hs hf (by simp) hl)
      simpa only [Function.update_idem] using hgone

/-- A page that could not be saved is where it was, and its frame is the oldest. -/
theorem Unsaved.path {v w : View} {l : List FrameId} (hp : v.page r = some p)
    (hf : p.frame = some f) (hx : v.entry r = some x) (hxf : x = ⟨f, p.writable, x.accessed, x.dirty⟩)
    (ho : v.owner f = some r) (hl : v.clock.Perm (f :: l))
    (h : Unsaved { v with clock := l, owner := update v.owner f none } r p f w) :
    View.Path Act.Quiet v { w with owner := update w.owner f (some r), clock := f :: l } := by
  have hturned : View.Path Act.Quiet v _ := (View.Step.turned hl).path rfl
  have howner : update (update v.owner f none) f (some r) = v.owner := by
    rw [Function.update_idem, Function.update_eq_self_iff, ho]
  cases h with
  | full hs hk =>
      have hspoilt := hturned.step rfl (.spoilt hk)
      have hmarked := hspoilt.step rfl (.marked false false hx fun _ =>
        .inr ⟨p, hp, by simp [Page.kind, hs]⟩)
      rw [hxf] at hmarked
      rw [howner]
      exact hmarked
  | @cut b hs hd =>
      have hcut := hturned.step rfl (.cut hp hs hf hd)
      have htold := hcut.step rfl (.told (.writtenBack (b.save (v.bytes f) (v.fileAt b.handle.file)).1 b.offset))
      have hmarked := htold.step rfl (.marked false true hx fun _ => .inl rfl)
      rw [hxf] at hmarked
      rw [howner]
      exact hmarked

theorem Saved.surrenders {v w : View} {st : PageState} {l : List FrameId} (hp : v.page r = some p)
    (hf : p.frame = some f) (h : Saved { v with clock := l, owner := update v.owner f none } r p f st w) :
    v.Surrenders r { w with page := update v.page r (some ⟨p.writable, none, st⟩) } := by
  have hsoil {w : View} (hx : w.entry = update v.entry r none) :
      View.soil { w with page := update v.page r (some ⟨p.writable, none, st⟩) } = update v.soil r none := by
    funext o
    by_cases ho : o = r
    · subst ho
      rw [Function.update_self]
      exact View.soil_of_out (Function.update_self ..) rfl
    · rw [Function.update_of_ne ho]
      exact View.soil_congr (Function.update_of_ne ho ..) (by simp only [hx, Function.update_of_ne ho])
  cases h with
  | @swapped k stack hs hk =>
      have hkind : p.kind ≠ .file := by simp [Page.kind, hs]
      refine ⟨hsoil rfl, (View.writeBack_of_kind hp hkind _).symm, ?_⟩
      rw [View.receipt_of_not_dirty (View.dirty_of_soil (View.soil_of_kind hp hkind))]
      exact (View.Tells.refl v).push_light rfl rfl
  | clean hs hx =>
      refine ⟨hsoil rfl, (View.writeBack_of_clean (v := v) hx _).symm, ?_⟩
      rw [View.receipt_of_not_dirty ((View.dirty_of_file hp (by simp [Page.kind, hs]) hf).trans hx)]
      exact (View.Tells.refl v).congr rfl rfl
  | @written b hs hx hc =>
      have hcount : (b.save (v.bytes f) (v.fileAt b.handle.file)).1 = b.expected := hc
      refine ⟨hsoil rfl, (View.writeBack_of_dirty hp hf hs hx _).symm, ?_⟩
      rw [View.receipt_of_dirty hp hf hs hx, hcount]
      exact (View.Tells.refl v).push rfl rfl

/-- A page that cannot be saved is as dirty as it was. -/
theorem Unsaved.kept {v w u : View} {l : List FrameId} {e : PagingError} (hp : v.page r = some p)
    (hf : p.frame = some f) (h : Unsaved { v with clock := l, owner := update v.owner f none } r p f w)
    (hpage : u.page = w.page) (hentry : u.entry = w.entry) (hfile : u.file = w.file)
    (hlog : u.log = w.log.push (.evictionFailed r.va f e)) : v.Does (.kept r) u := by
  have hothers (hw : ∃ x, w.entry = update v.entry r x) (o : PageRef) (ho : o ≠ r) : u.entry o = v.entry o := by
    obtain ⟨x, hw⟩ := hw
    rw [hentry, hw, Function.update_of_ne ho]
  cases h with
  | full hs hk =>
      have hkind : p.kind ≠ .file := by simp [Page.kind, hs]
      have hnone := View.soil_of_kind hp hkind
      have hr : u.soil r = v.soil r := by
        rw [hnone]
        exact View.soil_of_kind ((congrFun hpage r).trans hp) hkind
      refine .kept (f := f) (e := e) (View.soil_of_others hpage (hothers ⟨_, rfl⟩) hr)
        (hfile.trans (View.writeBack_of_kind hp hkind _).symm) ?_
      rw [View.receipt_of_not_dirty (View.dirty_of_soil hnone)]
      exact (View.Tells.refl v).push rfl hlog
  | cut hs hx =>
      have hkind : p.kind = .file := by simp [Page.kind, hs]
      have hr : u.soil r = v.soil r := by
        refine View.soil_congr (congrFun hpage r) ?_
        rw [hentry]
        simpa using Eq.symm hx
      refine .kept (f := f) (e := e) (View.soil_of_others hpage (hothers ⟨_, rfl⟩) hr)
        (hfile.trans (View.writeBack_of_dirty hp hf hs hx _).symm) ?_
      rw [View.receipt_of_dirty hp hf hs hx]
      exact ((View.Tells.refl v).push rfl rfl).push rfl hlog

end Vm

end DemandPaging
