import DemandPaging.Proofs.Freeing
import DemandPaging.Proofs.Loading

namespace DemandPaging

open Function (update)
open Step Machine

variable {m n : Machine} {s : SpaceId} {sp : Space} {va : Addr} {f : FrameId} {p : Page} {r o : PageRef}

def Act.Removes (r : PageRef) (saved : Bool) (a : Act) : Prop := a.Quiet ∨ a = .removed r saved

def Act.Clears (s : SpaceId) (l : List Addr) (lost : Addr → Prop) (a : Act) : Prop :=
  a.Quiet ∨ ∃ va ∈ l, ∃ saved, a = .removed ⟨s, pageBase va⟩ saved ∧ (saved = false → lost va)

theorem View.Path.clears_book {v w : View} {l : List Addr} {lost : Addr → Prop}
    (h : View.Path (Act.Clears s l lost) v w) : w.book = v.book :=
  h.book_eq (by simp [Act.Clears, Act.Quiet]) (by simp [Act.Clears, Act.Quiet]) (by simp [Act.Clears, Act.Quiet])

def Act.Adds (r : PageRef) (p : Page) (a : Act) : Prop := a.Quiet ∨ a = .added r p

namespace Vm

theorem yields_pin (h : m.Consistent) (hf : m.view.status f = .held) (ho : m.view.owner f = some o) :
    Yields (pin f o) m
      (fun b n => b = true ∧ n.Consistent ∧ n.view = { m.view with
        owner := update m.view.owner f none
        status := update m.view.status f .pinned
        clock := m.view.clock.filter (· ≠ f) })
      fun _ _ => False := by
  obtain ⟨t, ht, hfits, howner, hstatus, hbytes, hclock⟩ := h.frames.pin hf ho
  unfold pin
  rw [yields_bind, yields_get, yields_bind, yields_ofPanic, ht]
  refine yields_bind.2 (yields_modify.2 (yields_pure.2 ⟨rfl, h.withFrames hfits, ?_⟩))
  rw [view_withFrames]
  exact View.ext rfl rfl rfl howner hstatus hbytes hclock rfl rfl rfl rfl rfl

/-- Pinning a page takes its frame off the clock. A page that is not resident has none. -/
theorem yields_pinPage (h : m.Sound) (hs : m.space? s = some sp) (ha : isPageAligned va = true) :
    Yields (pinPage s va) m
      (fun g n => g = (m.view.page ⟨s, va⟩).bind (·.frame) ∧ n.Consistent ∧ n.view = { m.view with
        owner := fun j => if g = some j then none else m.view.owner j
        status := fun j => if g = some j then .pinned else m.view.status j
        clock := m.view.clock.filter (g ≠ some ·) })
      fun _ _ => False := by
  unfold pinPage
  rw [yields_bind, yields_space hs, Space.page?, pageBase_of_aligned ha, ← page_eq hs]
  cases hg : (m.view.page ⟨s, va⟩).bind (·.frame) with
  | none =>
      refine yields_pure.2 ⟨rfl, h.consistent, ?_⟩
      simp
  | some f =>
      obtain ⟨p, hp, hf⟩ := Option.bind_eq_some_iff.1 hg
      have ho := h.coherent.resident hp hf
      have hheld : m.view.status f = .held := (h.coherent.held_iff f).2 (by rw [ho]; rfl)
      refine (yields_pin h.consistent hheld ho).bind ?_ fun _ _ => False.elim
      rintro _ n ⟨rfl, hn, hv⟩
      refine yields_pure.2 ⟨rfl, hn, ?_⟩
      rw [hv]
      refine View.ext rfl rfl rfl ?_ ?_ rfl ?_ rfl rfl rfl rfl rfl
      · funext j
        simp [Function.update_apply, eq_comm]
      · funext j
        simp [Function.update_apply, eq_comm]
      · refine List.filter_congr fun j _ => ?_
        simp [eq_comm]

inductive Flushed (v : View) (r : PageRef) (b : Backing) (f : FrameId) :
    Except PagingError Unit → View → Prop
  | clean (hx : (v.entry r).any (·.dirty) = false) : Flushed v r b f (.ok ()) v
  | written (hx : (v.entry r).any (·.dirty) = true)
      (hc : (b.save (v.bytes f) (v.fileAt b.handle.file)).1 = b.expected) :
      Flushed v r b f (.ok ()) { v with
        entry := update v.entry r ((v.entry r).map fun x => { x with dirty := false })
        file := update v.file b.handle.file
          ((v.file b.handle.file).map fun F => (b.save (v.bytes f) F).2)
        log := v.log.push (.writtenBack b.expected b.offset) }
  | cut {e : PagingError} (hx : (v.entry r).any (·.dirty) = true)
      (he : e.isMissing = false)
      (hc : (b.save (v.bytes f) (v.fileAt b.handle.file)).1 ≠ b.expected) :
      Flushed v r b f (.error e) { v with
        file := update v.file b.handle.file
          ((v.file b.handle.file).map fun F => (b.save (v.bytes f) F).2)
        log := v.log.push (.writtenBack (b.save (v.bytes f) (v.fileAt b.handle.file)).1 b.offset) }

theorem yields_flush (h : m.Consistent) (hs : m.space? s = some sp) (ha : isPageAligned va = true)
    (hf : m.view.status f ≠ .absent) (b : Backing) :
    Yields (attempt (flush s va b f)) m
      (fun res n => n.Consistent ∧ Flushed m.view ⟨s, va⟩ b f res n.view) fun _ _ => False := by
  have hdirty : sp.table.isDirty va = (m.view.entry ⟨s, va⟩).any (·.dirty) := by
    rw [PageTable.isDirty_eq, entry_eq hs ha]
  refine Yields.attempt (Q := fun _ n => n.Consistent ∧ Flushed m.view ⟨s, va⟩ b f (.ok ()) n.view)
    (P := fun e n => n.Consistent ∧ Flushed m.view ⟨s, va⟩ b f (.error e) n.view)
    ?_ (fun _ _ => id) fun _ _ => id
  unfold flush
  rw [yields_bind, yields_space hs, hdirty]
  split
  · rename_i hd
    refine yields_bind.2 ((yields_contents h hf).2 ?_)
    have hn := h.wroteBack b (m.view.bytes f)
    have hv := view_wroteBack m b (m.view.bytes f)
    refine yields_save.bind ?_ ?_
    · rintro _ _ ⟨rfl, hc⟩
      obtain ⟨sn, hsn⟩ := space?_of_book (m := m.wroteBack b (m.view.bytes f)) (s := s) (by rw [hv, book_eq hs]; rfl)
      have hvd := view_setDirty hn hsn va false
      rw [pageBase_of_aligned ha, hv, hc] at hvd
      refine yields_modifyTable.2 ⟨hn.withTable (g := (·.setDirty va false)) fun ht => ?_, ?_⟩
      · rw [PageTable.setDirty_eq_rewrite]
        exact ht.rewrite _ _
      · rw [hvd]
        exact .written hd hc
    · intro e n hsave
      refine hsave.mono ?_
      rintro e ⟨rfl, he⟩
      refine ⟨hn, ?_⟩
      rw [hv]
      exact .cut hd (Backing.isMissing_of_written he) (Backing.ne_expected_of_written he)
  · rename_i hd
    exact yields_pure.2 ⟨h, .clean (by simpa using hd)⟩

inductive Settled (v : View) (r : PageRef) (p : Page) : Except PagingError Unit → View → Prop
  | file {b : Backing} {f : FrameId} {res : Except PagingError Unit} {w : View} (hs : p.state = .file b)
      (hf : p.frame = some f) (h : Flushed v r b f res w) : Settled v r p res w
  | other (h : p.frame = none ∨ p.kind ≠ .file) : Settled v r p (.ok ()) v

theorem Settled.frame_eq {v w : View} {res : Except PagingError Unit} (h : Settled v r p res w) :
    w.book = v.book ∧ w.page = v.page ∧ w.used = v.used := by
  cases h with
  | file hs hf h => cases h <;> exact ⟨rfl, rfl, rfl⟩
  | other => exact ⟨rfl, rfl, rfl⟩

theorem yields_unlink {res : Except PagingError Unit} (hs : m.space? s = some sp)
    (ha : isPageAligned va = true) (hused : ∀ k, p.slot? = some k → m.view.used k = true)
    (hn : n.Consistent) (hset : Settled m.view ⟨s, va⟩ p res n.view) :
    Yields (do
      modifyTable s (·.unmap va)
      match p.slot? with
      | some slot => onSwap (SwapArea.free slot)
      | none => pure ()
      pure res) n
      (fun res n => n.Consistent ∧ ∃ w, Settled m.view ⟨s, va⟩ p res w ∧ n.view = { w with
        entry := update w.entry ⟨s, va⟩ none
        used := w.usedWithout p })
      fun _ _ => False := by
  obtain ⟨hbook, -, hu⟩ := hset.frame_eq
  obtain ⟨sn, hsn⟩ := space?_of_book (m := n) (s := s) (by rw [hbook, book_eq hs]; rfl)
  have hv := view_unmap hn hsn va
  rw [pageBase_of_aligned ha] at hv
  have hc := hn.withTable (s := s) (g := (·.unmap va)) fun ht => ht.unmap va
  refine yields_bind.2 (yields_modifyTable.2 ?_)
  generalize n.withSpace s (fun sp => { sp with table := sp.table.unmap va }) = u at hv hc
  cases hslot : p.slot? with
  | none =>
      refine yields_pure.2 ⟨hc, n.view, hset, ?_⟩
      rw [hv, View.usedWithout_of_none hslot]
  | some k =>
      have hk : u.view.used k = true := by
        rw [hv, hu]
        exact hused k hslot
      refine yields_bind.2 (yields_onSwap.2 ((hc.swap.free (hc.swap.lt_of_holds hk)).mono ?_
        fun _ _ => False.elim))
      rintro _ a ⟨hfits, hholds, hpage⟩
      refine yields_pure.2 ⟨hc.withSwap hfits, n.view, hset, ?_⟩
      rw [view_withSwap, hholds, hpage, View.usedWithout_of_some hslot, hv,
        show u.swap.holds = u.view.used from rfl, show u.swap.pageOf = u.view.kept from rfl, hv]

theorem yields_dismantle (h : m.Consistent) (hs : m.space? s = some sp) (ha : isPageAligned va = true)
    (hf : ∀ f, p.frame = some f → m.view.status f ≠ .absent)
    (hused : ∀ k, p.slot? = some k → m.view.used k = true) :
    Yields (dismantle s va p p.frame) m
      (fun res n => n.Consistent ∧ ∃ w, Settled m.view ⟨s, va⟩ p res w ∧ n.view = { w with
        entry := update w.entry ⟨s, va⟩ none
        used := w.usedWithout p })
      fun _ _ => False := by
  unfold dismantle
  cases hst : p.state with
  | file b =>
      cases hfr : p.frame with
      | some f =>
          refine (yields_flush h hs ha (hf f hfr) b).bind ?_ fun _ _ => False.elim
          rintro res n ⟨hn, hfl⟩
          exact yields_unlink hs ha hused hn (.file hst hfr hfl)
      | none => exact yields_unlink hs ha hused h (.other (.inl hfr))
  | untouched | anon => exact yields_unlink hs ha hused h (.other (.inr (by simp [Page.kind, hst])))

end Vm

structure View.Settles (v : View) (r : PageRef) (p : Page) (res : Except PagingError Unit) (u : View) :
    Prop where
  path : View.Path Act.Quiet v u
  owner : u.owner = v.owner
  status : u.status = v.status
  clock : u.clock = v.clock
  page : u.page = v.page
  bytes : u.bytes = v.bytes
  kept : u.kept = v.kept
  used : u.used = v.used
  file : u.file = v.writeBack v.file r
  tells : v.Tells u (v.receipt r)
  entry : ∀ o, o ≠ r → u.entry o = v.entry o
  clean : res = .ok () → p.kind = .file → (u.entry r).any (·.dirty) = false
  balks : ∀ e, res = .error e → e.isMissing = false ∧ u.Balks p

namespace Vm

/-- Settling a page of a coherent view takes quiet steps there too, whatever became of its frame
and its registration in between. -/
theorem Settled.settles {v w : View} {owner : FrameId → Option PageRef} {status : FrameId → FrameStatus}
    {clock : List FrameId} {page : PageRef → Option Page} {res : Except PagingError Unit}
    (hv : v.Coherent) (hp : v.page r = some p)
    (h : Settled { v with owner := owner, status := status, clock := clock, page := page } r p res w) :
    ∃ u, v.Settles r p res u ∧
      w = { u with owner := owner, status := status, clock := clock, page := page } := by
  cases h with
  | other h =>
      have hnone : v.soil r = none := h.elim (View.soil_of_out hp) (View.soil_of_kind hp)
      have hclean := View.dirty_of_soil hnone
      refine ⟨v, ⟨.refl, rfl, rfl, rfl, rfl, rfl, rfl, rfl, (View.writeBack_of_not_dirty hclean _).symm, ?_,
        fun _ _ => rfl, fun _ hk => ?_, by simp⟩, rfl⟩
      · rw [View.receipt_of_not_dirty hclean]
        exact .refl v
      · rcases h with h | h
        · simp [hv.entry_of_out hp h]
        · exact absurd hk h
  | @file b f _ _ hs hf h =>
      obtain ⟨a, d, hx⟩ := hv.entry_of_resident hp hf
      cases h with
      | clean hd =>
          have hclean := (View.dirty_of_file hp (by simp [Page.kind, hs]) hf).trans hd
          refine ⟨v, ⟨.refl, rfl, rfl, rfl, rfl, rfl, rfl, rfl, (View.writeBack_of_not_dirty hclean _).symm, ?_,
            fun _ _ => rfl, fun _ _ => hd, by simp⟩, rfl⟩
          rw [View.receipt_of_not_dirty hclean]
          exact .refl v
      | written hd hc =>
          have hflushed : View.Path Act.Quiet v _ := (View.Step.flushed hp hs hf hx hc).path rfl
          have hcount : (b.save (v.bytes f) (v.fileAt b.handle.file)).1 = b.expected := hc
          refine ⟨_, ⟨hflushed.step rfl (.told (.writtenBack b.expected b.offset)), rfl, rfl, rfl, rfl, rfl, rfl,
            rfl, (View.writeBack_of_dirty hp hf hs hd _).symm, ?_, fun o ho => Function.update_of_ne ho ..,
            fun _ _ => ?_, by simp⟩, ?_⟩
          · rw [View.receipt_of_dirty hp hf hs hd, hcount]
            exact (View.Tells.refl v).push rfl rfl
          · simp
          · simp only [hx, Option.map_some]
      | @cut e hd he hc =>
          have hcut : View.Path Act.Quiet v _ := (View.Step.cut hp hs hf hd).path rfl
          refine ⟨_, ⟨hcut.step rfl (.told (.writtenBack (b.save (v.bytes f) (v.fileAt b.handle.file)).1 b.offset)),
            rfl, rfl, rfl, rfl, rfl, rfl, rfl, (View.writeBack_of_dirty hp hf hs hd _).symm, ?_, fun _ _ => rfl,
            by simp, ?_⟩, rfl⟩
          · rw [View.receipt_of_dirty hp hf hs hd]
            exact (View.Tells.refl v).push rfl rfl
          rintro _ ⟨⟩
          refine ⟨he, b, f, v.fileAt b.handle.file, hs, hf, ?_, ?_, hc⟩ <;>
            cases hF : v.file b.handle.file <;>
              simp [View.fileAt, hF, Backing.save, File.write, File.overwrite, File.empty]

end Vm

structure View.Loses (v : View) (gone : PageRef → Prop) (w : View) : Prop where
  page : ∀ r, ¬ gone r → w.page r = v.page r
  absent : ∀ r, gone r → w.page r = none
  entry : ∀ r, ¬ gone r → w.entry r = v.entry r
  bytes : w.bytes = v.bytes
  kept : w.kept = v.kept

namespace View.Loses

variable {v w u : View} {gone gone' : PageRef → Prop}

theorem trans (h : v.Loses gone w) (k : w.Loses gone' u) : v.Loses (fun r => gone r ∨ gone' r) u where
  page r hr := by
    rw [not_or] at hr
    rw [k.page r hr.2, h.page r hr.1]
  absent r hr := by
    by_cases hk : gone' r
    · exact k.absent r hk
    · rw [k.page r hk, h.absent r (hr.resolve_right hk)]
  entry r hr := by
    rw [not_or] at hr
    rw [k.entry r hr.2, h.entry r hr.1]
  bytes := k.bytes.trans h.bytes
  kept := k.kept.trans h.kept

theorem of_iff (h : v.Loses gone w) (hg : ∀ r, gone' r ↔ gone r) : v.Loses gone' w := by
  rwa [funext fun r => propext (hg r)]

end View.Loses

def View.Occupied (v : View) (r : PageRef) : Prop := isKernel r.va = true ∨ (v.page r).isSome = true

def View.Resists (v : View) (r : PageRef) (e : PagingError) : Prop :=
  e = .badAddress r.va ∨ ∃ p, v.page r = some p ∧ p.kind = .file

namespace Vm

theorem yields_tellRemoved (h : m.Sound) (hp : m.view.page ⟨s, va⟩ = some p) {y : View}
    {res : Except PagingError Unit} (hy : m.view.Settles ⟨s, va⟩ p res y) (hn : n.Consistent)
    {log : Array Event} (hlog : View.Path Act.Quiet y { y with log := log })
    (hlight : y.Tells { y with log := log } []) (hv : n.view = { y with
      page := update m.view.page ⟨s, va⟩ none
      entry := update y.entry ⟨s, va⟩ none
      owner := fun g => if p.frame = some g then none else m.view.owner g
      status := fun g => if p.frame = some g then .free else m.view.status g
      clock := m.view.clock.filter (p.frame ≠ some ·)
      used := y.usedWithout p
      log := log }) :
    Yields (do
      emit (.pageRemoved s va)
      ofError res) n
      (fun _ n => m.Leads (Act.Removes ⟨s, va⟩ true) n ∧ View.Deeds Deed.Vacates m.view n.view ∧
        m.view.Loses (· = ⟨s, va⟩) n.view ∧ m.view.Frees [⟨s, va⟩] n.view)
      (Failing fun e n => m.Leads (Act.Removes ⟨s, va⟩ false) n ∧ View.Deeds Deed.Vacates m.view n.view ∧
        e.isMissing = false ∧ m.view.Loses (· = ⟨s, va⟩) n.view ∧ m.view.Frees [⟨s, va⟩] n.view ∧
        m.view.Resists ⟨s, va⟩ e) := by
  have hpy : View.page { y with log := log.push (.pageRemoved s va) } ⟨s, va⟩ = some p := by
    rw [← hp, ← hy.page]
  have hpre : View.Path Act.Quiet m.view { y with log := log.push (.pageRemoved s va) } :=
    (hy.path.trans hlog).step rfl (.told _)
  have hlost : m.view.Loses (· = ⟨s, va⟩) (n.tell (.pageRemoved s va)).view := by
    rw [view_tell, hv]
    refine ⟨fun r hr => Function.update_of_ne hr .., fun r hr => ?_, fun r hr => ?_, hy.bytes, hy.kept⟩
    · rw [hr]
      exact Function.update_self ..
    · exact (Function.update_of_ne hr ..).trans (hy.entry r hr)
  have hfreed : m.view.Frees [⟨s, va⟩] (n.tell (.pageRemoved s va)).view := by
    rw [view_tell, hv]
    refine .single hp rfl rfl rfl ?_ hy.file
    funext k
    simp only [View.usedWithout, hy.used]
  have hpinned (g : FrameId) : (n.tell (.pageRemoved s va)).view.status g = .pinned ↔
      m.view.status g = .pinned := by
    rw [view_tell, hv]
    dsimp only
    split
    · rename_i hg
      have hheld := (h.coherent.held_iff g).2 (by rw [h.coherent.resident hp hg]; rfl)
      simp [hheld]
    · rfl
  have hleads (saved : Bool) (hclean : saved = true → p.kind = .file →
      (y.entry ⟨s, va⟩).any (·.dirty) = false) (hbalks : saved = false → y.Balks p) :
      m.Leads (Act.Removes ⟨s, va⟩ saved) (n.tell (.pageRemoved s va)) := by
    refine ⟨⟨hn.tell _, (hpre.mono fun _ => .inl).step (.inr rfl) ?_⟩, hpinned⟩
    rw [view_tell, hv, ← hy.page, ← hy.owner, ← hy.status, ← hy.clock]
    exact .removed hpy hclean hbalks
  have hdeeds : View.Deeds Deed.Vacates m.view (n.tell (.pageRemoved s va)).view := by
    have hsoil : (n.tell (.pageRemoved s va)).view.soil = update m.view.soil ⟨s, va⟩ none := by
      funext r
      by_cases hr : r = ⟨s, va⟩
      · rw [View.soil_of_none (hlost.absent r hr), hr, Function.update_self]
      · rw [Function.update_of_ne hr]
        exact View.soil_congr (hlost.page r hr) (by rw [hlost.entry r hr])
    have htells : m.view.Tells n.view (m.view.receipt ⟨s, va⟩) := by
      rw [← List.append_nil (m.view.receipt _)]
      exact hy.tells.trans (hlight.congr rfl (by rw [hv]))
    refine View.Does.deeds (P := Deed.Vacates) (.given (.inr rfl) hsoil hfreed.file (htells.push rfl ?_)) trivial
    rw [view_tell]
  refine yields_bind.2 (yields_emit.2 (yields_ofError.2 ?_))
  cases res with
  | ok => exact ⟨hleads true (fun _ => hy.clean rfl) (by simp), hdeeds, hlost, hfreed⟩
  | error e =>
      obtain ⟨hmiss, hbalks⟩ := hy.balks e rfl
      obtain ⟨b, -, -, hst, -⟩ := id hbalks
      exact ⟨hleads false (by simp) fun _ => hbalks, hdeeds, hmiss, hlost, hfreed,
        .inr ⟨p, hp, by rw [Page.kind, hst]⟩⟩

/-- Removing a page leaves nothing of it, whether or not it could be written back. -/
theorem yields_remove (h : m.Sound) (hs : (m.view.book s).isSome) (va : Addr) :
    Yields (remove s va) m
      (fun _ n => m.Leads (Act.Removes ⟨s, pageBase va⟩ true) n ∧ View.Deeds Deed.Vacates m.view n.view ∧
        m.view.Loses (· = ⟨s, pageBase va⟩) n.view ∧ m.view.Frees [⟨s, pageBase va⟩] n.view)
      (Failing fun e n => m.Leads (Act.Removes ⟨s, pageBase va⟩ false) n ∧
        View.Deeds Deed.Vacates m.view n.view ∧ e.isMissing = false ∧
        m.view.Loses (· = ⟨s, pageBase va⟩) n.view ∧ m.view.Frees [⟨s, pageBase va⟩] n.view ∧
        m.view.Resists ⟨s, pageBase va⟩ e) := by
  obtain ⟨sp, hsp⟩ := space?_of_book hs
  have ha := pageBase_aligned va
  unfold remove
  dsimp only
  generalize pageBase va = a at ha
  refine (yields_pinPage h hsp ha).bind ?_ fun _ _ => False.elim
  rintro g n ⟨hg, hn, hv⟩
  obtain ⟨sn, hsn⟩ := space?_of_book (m := n) (s := s) (by rw [hv, book_eq hsp]; rfl)
  have hpage : n.view.page ⟨s, a⟩ = m.view.page ⟨s, a⟩ := by rw [hv]
  rw [yields_bind, yields_space hsn, Space.page?, pageBase_of_aligned ha, ← page_eq hsn, hpage]
  cases hp : m.view.page ⟨s, a⟩ with
  | none =>
      rw [hp] at hg
      subst hg
      have hsame : n.view = m.view := by
        rw [hv]
        simp
      refine yields_fail.2 ⟨⟨⟨hn, hsame ▸ .refl⟩, fun g => by rw [hsame]⟩, ?_⟩
      rw [hsame]
      exact ⟨.refl, rfl, ⟨fun _ _ => rfl, fun r hr => hr ▸ hp, fun _ _ => rfl, rfl, rfl⟩, .absent hp, .inl rfl⟩
  | some p =>
      rw [hp, Option.bind_some] at hg
      subst hg
      refine yields_bind.2 (yields_modifySpace.2 ?_)
      have hve := view_erasePage hsn a
      have hce := hn.erasePage s a
      have hse := space?_withSpace_self hsn (·.erasePage a)
      rw [pageBase_of_aligned ha, hv] at hve
      generalize n.withSpace s (·.erasePage a) = u at hve hce hse
      refine (yields_dismantle (p := p) hce hse ha (fun f hf => ?_) fun k hk => ?_).bind ?_
        fun _ _ => False.elim
      · rw [hve]
        simp [hf]
      · rw [hve]
        exact h.coherent.slot_used hp hk
      · rintro res w ⟨hw, z, hset, hwv⟩
        rw [hve] at hset
        obtain ⟨y, hy, rfl⟩ := hset.settles h.coherent hp
        cases hf : p.frame with
        | none =>
            have hlog : View.Path Act.Quiet y { y with log := y.log } := .refl
            refine yields_tellRemoved h hp hy hw hlog (.refl y) ?_
            rw [hwv, hf]
            simp
            rfl
        | some f =>
            refine (yields_release hw (f := f) (by rw [hwv]; simp [hf])).bind ?_ fun _ _ => False.elim
            rintro _ x ⟨hx, hxv⟩
            refine yields_tellRemoved h hp hy hx ((View.Step.told (.frameReleased f)).path rfl)
              ((View.Tells.refl y).push_light (e := .frameReleased f) rfl rfl) ?_
            rw [hxv, hwv, hf]
            refine View.ext rfl rfl rfl rfl ?_ rfl rfl rfl rfl rfl rfl rfl
            funext g
            by_cases hg : g = f
            · simp [hg]
            · simp [Function.update_of_ne hg, Ne.symm hg]

theorem yields_register (h : m.Sound) (hs : (m.view.book s).isSome) (va : Addr) (w : Bool)
    (purpose : Purpose) (filling : Option Filling) :
    Yields (register s va w purpose filling) m
      (fun _ n => isKernel va = false ∧ m.view.page ⟨s, pageBase va⟩ = none ∧
        m.Leads (Act.Adds ⟨s, pageBase va⟩ (.lazy w purpose filling)) n ∧ n.view = { m.view with
          page := update m.view.page ⟨s, pageBase va⟩ (some (.lazy w purpose filling))
          log := m.view.log.push (.pageAdded s purpose (pageBase va)) })
      (Failing fun e n => m.Leads Act.Quiet n ∧ m.view.Idles n.view ∧ e.isMissing = false ∧
        m.view.Occupied ⟨s, pageBase va⟩ ∧ e.isScarce = false) := by
  obtain ⟨sp, hsp⟩ := space?_of_book hs
  have ha := pageBase_aligned va
  have hk := isKernel_pageBase va
  unfold register
  split
  · rename_i hu
    exact yields_fail.2 ⟨.refl h.consistent, .refl _, rfl, .inl (hk.trans hu), rfl⟩
  · rename_i hu
    rw [Bool.not_eq_true] at hu
    rw [hu] at hk
    dsimp only
    generalize pageBase va = a at ha hk
    have hst : (m.tell (.pageAdded s purpose a)).space? s = some sp := hsp
    rw [yields_bind, yields_emit, yields_bind, yields_space hst]
    unfold Space.addPage
    cases hp : m.view.page ⟨s, a⟩ with
    | some p =>
        have hc : sp.pages.contains a = true := by
          rw [page_eq hsp] at hp
          rw [Std.ExtTreeMap.contains_eq_isSome_getElem?, hp]
          rfl
        rw [if_pos hc]
        exact yields_bind.2 (yields_fail.2
          ⟨(Leads.refl h.consistent).tell Act.quiet_quiet _, (View.Idles.refl _).tell rfl, rfl,
            .inr (by rw [hp]; rfl), rfl⟩)
    | none =>
        have hc : ¬ sp.pages.contains a = true := by
          rw [page_eq hsp] at hp
          rw [Std.ExtTreeMap.contains_eq_isSome_getElem?, hp]
          simp
        rw [if_neg hc]
        have hv : ((m.tell (.pageAdded s purpose a)).withSpace s fun _ =>
            { sp with pages := sp.pages.insert a (.lazy w purpose filling) }).view = { m.view with
              page := update m.view.page ⟨s, a⟩ (some (.lazy w purpose filling))
              log := m.view.log.push (.pageAdded s purpose a) } := by
          refine view_withSpace_page (m := m.tell _) hst rfl rfl fun b => ?_
          simp only [Std.ExtTreeMap.getElem?_insert, Std.LawfulEqCmp.compare_eq_iff_eq]
          by_cases hb : b = a
          · rw [if_pos hb, if_pos hb.symm]
          · rw [if_neg hb, if_neg (Ne.symm hb)]
        refine yields_bind.2 (yields_ofError.2 (yields_modifySpace.2 ⟨by simpa using hu, rfl, ?_, hv⟩))
        refine ⟨⟨(h.consistent.tell _).withSpace fun _ => (h.consistent.separate hsp :), ?_⟩,
          fun g => by rw [hv]⟩
        rw [hv]
        exact (View.Step.added w purpose filling hp hs ha hk).path (.inr rfl)

/-- Removing pages one by one goes through to the end, and tells what it could not save. -/
theorem yields_removeAll (h : m.Sound) (hs : (m.view.book s).isSome)
    (failed : Addr → PagingError → Event) (l : List Addr) :
    Yields (removeAll s failed l) m
      (fun _ n => m.Leads (Act.Clears s l fun va => ∃ e, m.view.Told n.view (failed va e)) n ∧
        m.view.Loses (fun r => ∃ va ∈ l, r = ⟨s, pageBase va⟩) n.view ∧
        ((l.map pageBase).Nodup → m.view.Frees (l.map fun va => ⟨s, pageBase va⟩) n.view))
      fun _ _ => False := by
  induction l generalizing m with
  | nil =>
      refine yields_pure.2 ⟨.refl h.consistent, ⟨fun _ _ => rfl, ?_, fun _ _ => rfl, rfl, rfl⟩,
        fun _ => .nil m.view⟩
      rintro r ⟨va, hva, -⟩
      cases hva
  | cons va rest ih =>
      have hrest (saved : Bool) (n : Machine) (hn : m.Leads (Act.Removes ⟨s, pageBase va⟩ saved) n)
          (hp : m.view.Loses (· = ⟨s, pageBase va⟩) n.view) (hf : m.view.Frees [⟨s, pageBase va⟩] n.view)
          (hlost : saved = false → ∃ e, m.view.Told n.view (failed va e)) :
          Yields (removeAll s failed rest) n
            (fun _ n => m.Leads (Act.Clears s (va :: rest)
                fun va => ∃ e, m.view.Told n.view (failed va e)) n ∧
              m.view.Loses (fun r => ∃ b ∈ va :: rest, r = ⟨s, pageBase b⟩) n.view ∧
              (((va :: rest).map pageBase).Nodup →
                m.view.Frees ((va :: rest).map fun b => ⟨s, pageBase b⟩) n.view))
            fun _ _ => False := by
        refine (ih (hn.sound h) (hn.path.live (by simp [Act.Removes, Act.Quiet]) hs)).mono ?_ fun _ _ => id
        rintro _ u ⟨hu, hgone, hfreed⟩
        refine ⟨(hn.mono ?_).trans (hu.mono ?_), (hp.trans hgone).of_iff fun r => ?_, fun hnodup => ?_⟩
        · rintro a (ha | rfl)
          · exact .inl ha
          · refine .inr ⟨va, List.mem_cons_self .., saved, rfl, fun hl => ?_⟩
            obtain ⟨e, he⟩ := hlost hl
            exact ⟨e, he.after hu.path.grows⟩
        · rintro a (ha | ⟨b, hb, saved, rfl, hl⟩)
          · exact .inl ha
          · refine .inr ⟨b, List.mem_cons_of_mem _ hb, saved, rfl, fun hsaved => ?_⟩
            obtain ⟨e, he⟩ := hl hsaved
            exact ⟨e, he.before hn.path.grows⟩
        · rw [List.exists_mem_cons_iff]
        · rw [List.map_cons, List.nodup_cons] at hnodup
          have hne {o : PageRef} (ho : o ∈ rest.map fun b => (⟨s, pageBase b⟩ : PageRef)) :
              ¬ o = ⟨s, pageBase va⟩ := by
            rintro rfl
            obtain ⟨b, hb, heq⟩ := List.mem_map.1 ho
            exact hnodup.1 (List.mem_map.2 ⟨b, hb, congrArg PageRef.va heq⟩)
          exact hf.cons (hfreed hnodup.2) (fun o ho => hp.page o (hne ho)) (fun o ho => hp.entry o (hne ho)) hp.bytes
      refine yields_bind.2 ((yields_remove h hs va).attempt ?_ ?_)
      · rintro _ n ⟨hn, -, hp, hf⟩
        exact hrest true n hn hp hf fun heq => absurd heq.symm Bool.false_ne_true
      · rintro e n ⟨hn, -, -, hp, hf, -⟩
        refine yields_bind.2 (yields_emit.2 (hrest false _ (hn.tell (.inl rfl) _)
          ⟨hp.page, hp.absent, hp.entry, hp.bytes, hp.kept⟩
          ⟨hf.owner, hf.status, hf.clock, hf.used, hf.file⟩ fun _ => ⟨e, ?_⟩))
        exact (View.told_push n.view _).before hn.path.grows

end Vm

def Act.Destroys (v w : View) (s : SpaceId) (a : Act) : Prop :=
  a.Quiet ∨ (∃ b, a = .booked s b) ∨ ∃ va saved, a = .removed ⟨s, va⟩ saved ∧
    (saved = false → ∃ e, v.Told w (.destroyFailed s va e))

namespace Vm

theorem yields_destroy (h : m.Sound) (hs : (m.view.book s).isSome) :
    Yields (destroy s) m
      (fun _ n => m.Leads (Act.Destroys m.view n.view s) n ∧ m.view.Loses (·.space = s) n.view ∧
        n.view.book = update m.view.book s
          ((m.view.book s).map fun b => { b with regions := ∅, stackBottom := stackTop }) ∧
        ∀ sp, m.space? s = some sp → m.view.Frees (sp.pages.keys.map (⟨s, ·⟩)) n.view)
      fun _ _ => False := by
  obtain ⟨sp, hsp⟩ := space?_of_book hs
  have hkeys (va : Addr) : va ∈ sp.pages.keys ↔ (m.view.page ⟨s, va⟩).isSome := by
    rw [page_eq hsp, Std.ExtTreeMap.mem_keys, Std.ExtTreeMap.mem_iff_isSome_getElem?]
  have haligned {va : Addr} (hva : (m.view.page ⟨s, va⟩).isSome) : pageBase va = va := by
    obtain ⟨p, hp⟩ := Option.isSome_iff_exists.1 hva
    exact pageBase_of_aligned (h.coherent.placed hp).2.1
  unfold destroy
  rw [yields_bind, yields_space hsp]
  refine (yields_removeAll h hs (.destroyFailed s) sp.pages.keys).bind ?_ fun _ _ => False.elim
  rintro _ n ⟨hn, hlost, hfreed⟩
  have hbook : n.view.book = m.view.book := hn.path.clears_book
  obtain ⟨sn, hsn⟩ := space?_of_book (m := n) (s := s) (by rw [hbook]; exact hs)
  obtain ⟨hbooked, hv⟩ := booked hn.consistent hsn
    (g := fun sp => { sp with regions := ∅, stackBottom := stackTop }) (fun _ => rfl) fun _ => rfl
  refine yields_modifySpace.2
    ⟨(hn.mono ?_).trans (hbooked.mono fun _ ha => .inr (.inl ⟨_, ha⟩)), ?_, ?_, ?_⟩
  · rintro a (ha | ⟨va, hva, saved, rfl, hl⟩)
    · exact .inl ha
    · rw [haligned ((hkeys va).1 hva)]
      refine .inr (.inr ⟨va, saved, rfl, fun hsaved => ?_⟩)
      obtain ⟨e, he⟩ := hl hsaved
      exact ⟨e, he.after hbooked.path.grows⟩
  · have hkeep (r : PageRef) (hr : r.space ≠ s) : ¬ ∃ va ∈ sp.pages.keys, r = ⟨s, pageBase va⟩ := by
      rintro ⟨va, -, rfl⟩
      exact hr rfl
    rw [hv]
    refine ⟨fun r hr => hlost.page r (hkeep r hr), ?_, fun r hr => hlost.entry r (hkeep r hr),
      hlost.bytes, hlost.kept⟩
    rintro ⟨t, va⟩ (rfl : t = s)
    cases hp : m.view.page ⟨t, va⟩ with
    | none =>
        refine hn.path.absent (fun p hpa => ?_) hp
        simp [Act.Clears, Act.Quiet] at hpa
    | some p =>
        have hva : (m.view.page ⟨t, va⟩).isSome := by rw [hp]; rfl
        exact hlost.absent _ ⟨va, (hkeys va).2 hva, by rw [haligned hva]⟩
  · have hbn := book_eq hsn
    rw [hbook] at hbn
    rw [hv, hbook, hbn]
    rfl
  · intro sp' hsp'
    cases hsp.symm.trans hsp'
    have hbase {va : Addr} (hva : va ∈ sp.pages.keys) : pageBase va = va := haligned ((hkeys va).1 hva)
    have hsame : sp.pages.keys.map pageBase = sp.pages.keys :=
      (List.map_congr_left fun _ => hbase).trans (List.map_id' _)
    have hplaces : sp.pages.keys.map (fun va => (⟨s, pageBase va⟩ : PageRef)) = sp.pages.keys.map (⟨s, ·⟩) :=
      List.map_congr_left fun va hva => by rw [hbase hva]
    have hfreed := hfreed (by rw [hsame]; exact Std.ExtTreeMap.nodup_keys)
    rw [hplaces] at hfreed
    rw [hv]
    exact ⟨hfreed.owner, hfreed.status, hfreed.clock, hfreed.used, hfreed.file⟩

end Vm

end DemandPaging
