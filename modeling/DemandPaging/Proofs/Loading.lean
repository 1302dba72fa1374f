import DemandPaging.Proofs.Fillings

namespace DemandPaging

open Function (update)
open Step Machine

variable {m n : Machine} {s : SpaceId} {sp : Space} {va : Addr} {f : FrameId} {p : Page} {o : PageRef}

theorem Backing.expected_le (b : Backing) : b.expected ≤ pageSize := Nat.min_le_right _ _

/-- Reading a page into an empty buffer gives its image, if nothing was cut short. -/
theorem Backing.load_zero (b : Backing) (F : File) :
    ∃ r, b.load F (Buffer.zero pageSize) = .ok (r, { F with calls := F.calls + 1 }) ∧
      (r.failure = none → r.bytes = b.image F) ∧ (∀ e, r.failure = some e → e.isMissing = false) ∧
      (b.Readable F → r.failure = none) := by
  have hle : ¬ pageSize < b.expected := Nat.not_lt.2 b.expected_le
  unfold Backing.load
  rw [if_neg hle]
  dsimp only [File.read]
  split
  · rename_i hsize
    refine ⟨_, rfl, fun _ => ?_, fun e he => absurd he.symm (Option.some_ne_none e), fun _ => rfl⟩
    ext i hi
    have hlen := hsize
    simp only [File.slice, Array.size_extract] at hlen
    simp only [Buffer.clearFrom, Backing.image, Vector.getElem_ofFn, Fin.getElem_fin]
    by_cases hb : b.expected ≤ i
    · rw [if_pos hb, if_neg (by omega)]
    · rw [if_neg hb, if_pos (by omega), Buffer.getElem_overlay]
      have hin : b.offset + i < F.bytes.size := by omega
      simp only [File.slice, Nat.zero_le, if_true, Nat.sub_zero]
      rw [Array.getElem?_extract_of_lt (by omega), Array.getElem?_eq_getElem hin]
      rfl
  · rename_i hsize
    refine ⟨_, rfl, fun hnone => absurd hnone (Option.some_ne_none _), fun e he => ?_,
      fun hb => absurd (hb F.calls) hsize⟩
    cases he
    rfl

theorem Backing.image_congr (b : Backing) {F G : File} (h : F.bytes = G.bytes) :
    b.image F = b.image G := by
  unfold image
  rw [h]

/-- The page was given a filling that itself says the page is nowhere to be found. -/
def Page.Blames (p : Page) : Prop :=
  ∃ run purpose e, p.state = .untouched (some (.custom run)) purpose ∧
    (run (Buffer.zero _)).failure = some e ∧ e.isMissing = true

namespace Vm

theorem yields_load (h : m.Consistent) (b : Backing) :
    Yields (load b (Buffer.zero pageSize)) m
      (fun r n => n.Consistent ∧ n.view = { m.view with
          file := update m.view.file b.handle.file
            ((m.view.file b.handle.file).map fun F => { F with calls := F.calls + 1 }) } ∧
        (r.failure = none → r.bytes = b.image (m.view.fileAt b.handle.file)) ∧
        (∀ e, r.failure = some e → e.isMissing = false) ∧
        (b.Readable (m.view.fileAt b.handle.file) → r.failure = none))
      fun _ _ => False := by
  obtain ⟨r, hr, hok, hmiss, hread⟩ := b.load_zero (m.file b.handle.file)
  unfold load
  rw [yields_bind, yields_get, yields_bind, yields_ofPanic, hr]
  refine yields_bind.2 (yields_putFile.2 (yields_pure.2 ⟨h.withFile _ _, ?_, hok, hmiss, hread⟩))
  rw [view_withFile]
  cases hf : m.view.file b.handle.file with
  | none => rfl
  | some F => simp [← fileAt_view, View.fileAt, hf]

/-- What reading a page into a frame amounts to: `file` and `log` are those after the read. The
rest of the view, page tables included, plays no part. -/
structure Read (v : View) (p : Page) (file : FileId → Option File) (log : Array Event)
    (r : Reading pageSize) (w : View) : Prop where
  path : ∀ entry, View.Path Act.Quiet { v with entry := entry }
    { v with entry := entry, file := file, log := log }
  bytes : ∀ id, (View.fileAt { v with file := file } id).bytes = (v.fileAt id).bytes
  tells : v.Tells { v with log := log } []
  filled : r.failure = none → View.Brings { v with file := file, log := log } p r.bytes ∧
    w = { v with file := file, log := log, used := v.usedWithout p }
  failed : ∀ e, r.failure = some e →
    (e.isMissing = true → p.Blames) ∧ w = { v with file := file, log := log }

variable {u : Machine} {file : FileId → Option File} {log : Array Event} {r : Reading pageSize} {x : Translation}
  {e : PagingError}

theorem Read.book_eq {v w : View} (h : Read v p file log r w) : w.book = v.book := by
  cases hr : r.failure with
  | none => simp [(h.filled hr).2]
  | some e => simp [(h.failed e hr).2]

theorem Read.status_eq {v w : View} (h : Read v p file log r w) : w.status = v.status := by
  cases hr : r.failure with
  | none => simp [(h.filled hr).2]
  | some e => simp [(h.failed e hr).2]

theorem read_of_quiet {v : View} (hp : p.slot? = none)
    (hr : r.failure = none → v.Brings p r.bytes)
    (hmiss : ∀ e, r.failure = some e → e.isMissing = true → p.Blames) :
    Read v p v.file v.log r v where
  path _ := .refl
  bytes _ := rfl
  tells := .refl v
  filled hn := ⟨hr hn, by rw [View.usedWithout_of_none hp]⟩
  failed e he := ⟨hmiss e he, rfl⟩

theorem read_of_load {v : View} (b : Backing) (hp : p.slot? = none)
    (hb : ∀ w : View, ∀ c, c = b.image (w.fileAt b.handle.file) → w.Brings p c)
    (hr : r.failure = none → r.bytes = b.image (v.fileAt b.handle.file))
    (hmiss : ∀ e, r.failure = some e → e.isMissing = false) :
    Read v p (update v.file b.handle.file
        ((v.file b.handle.file).map fun F => { F with calls := F.calls + 1 })) v.log r { v with
      file := update v.file b.handle.file
        ((v.file b.handle.file).map fun F => { F with calls := F.calls + 1 }) } where
  path entry := (View.Step.called (v := { v with entry := entry }) _).path rfl
  bytes := (View.idles_of_called v b.handle.file).bytes
  tells := .refl v
  filled hn := by
    refine ⟨hb _ _ ?_, by rw [View.usedWithout_of_none hp]⟩
    rw [hr hn]
    refine b.image_congr ?_
    simp only [View.fileAt, Function.update_self]
    cases v.file b.handle.file <;> rfl
  failed e he := ⟨fun hm => by simp [hmiss e he] at hm, rfl⟩

/-- A page out on a slot comes back from it, and the slot is free again. -/
theorem yields_fetchPage (h : m.Consistent) {k : Slot} {stack : Bool} (hp : p.state = .anon (some k) stack)
    (hk : m.view.used k = true) (page : Contents) :
    Yields (fetchPage k page) m
      (fun r n => n.Consistent ∧ (∃ file log, Read m.view p file log r n.view) ∧
        (m.swap.disk.Reliable → r.failure = none))
      fun _ _ => False := by
  have hslot : p.slot? = some k := by simp [Page.slot?, hp]
  unfold fetchPage
  rw [yields_bind, yields_onSwap]
  refine (h.swap.fetch (h.swap.lt_of_holds hk) page).mono (fun r a ha => ?_) fun _ _ => id
  obtain ⟨hfits, hpage, hok, hfail, hdisk⟩ := ha
  have hc := h.withSwap hfits
  cases hr : r.failure with
  | none =>
      obtain ⟨hbytes, hholds⟩ := hok hr
      refine yields_bind.2 (yields_emit.2 (yields_pure.2 ⟨hc.tell _, ⟨m.view.file, m.view.log.push (.slotRead k),
        fun entry => (View.Step.told (v := { m.view with entry := entry }) _).path rfl, fun _ => rfl,
        (View.Tells.refl m.view).push_light rfl rfl, fun _ => ⟨?_, ?_⟩, ?_⟩, fun _ => hr⟩))
      · rw [View.Brings, hp]
        exact ⟨k, rfl, hbytes⟩
      · rw [view_tell, view_withSwap, hpage, hholds, View.usedWithout_of_some hslot]
        rfl
      · simp [hr]
  | some e =>
      refine yields_bind.2 (yields_pure.2 (yields_pure.2
        ⟨hc, ⟨m.view.file, m.view.log, fun _ => .refl, fun _ => rfl, .refl m.view, ?_, ?_⟩, hdisk⟩))
      · simp [hr]
      · intro e he
        obtain ⟨hmiss, hholds⟩ := hfail e he
        refine ⟨fun hm => by simp [hmiss] at hm, ?_⟩
        rw [view_withSwap, hpage, hholds]
        rfl

theorem yields_fillPage (h : m.Consistent) (hused : ∀ k, p.slot? = some k → m.view.used k = true)
    (hslot : ∀ stack, p.state ≠ .anon none stack) :
    Yields (fillPage va p (Buffer.zero pageSize)) m
      (fun r n => n.Consistent ∧ (∃ file log, Read m.view p file log r n.view) ∧
        (m.view.Ready p → (p.slot?.isSome → m.swap.disk.Reliable) → r.failure = none))
      fun _ _ => False := by
  have hload (b : Backing) (hp : p.slot? = none)
      (hb : ∀ w : View, ∀ c, c = b.image (w.fileAt b.handle.file) → w.Brings p c)
      (hsure : m.view.Ready p → m.view.Sure (.segment b)) :
      Yields (load b (Buffer.zero pageSize)) m
        (fun r n => n.Consistent ∧ (∃ file log, Read m.view p file log r n.view) ∧
          (m.view.Ready p → (p.slot?.isSome → m.swap.disk.Reliable) → r.failure = none))
        fun _ _ => False := by
    refine (yields_load h b).mono (fun r n hn => ?_) fun _ _ => id
    obtain ⟨hn, hview, hok, hmiss, hread⟩ := hn
    rw [hview]
    exact ⟨hn, ⟨_, _, read_of_load b hp hb hok hmiss⟩, fun hready _ => hread (hsure hready)⟩
  have hpure (r : Reading pageSize) (hp : p.slot? = none) (hr : r.failure = none → m.view.Brings p r.bytes)
      (hmiss : ∀ e, r.failure = some e → e.isMissing = true → p.Blames)
      (hsure : m.view.Ready p → r.failure = none) :
      Yields (pure r) m
        (fun r n => n.Consistent ∧ (∃ file log, Read m.view p file log r n.view) ∧
          (m.view.Ready p → (p.slot?.isSome → m.swap.disk.Reliable) → r.failure = none))
        fun _ _ => False :=
    yields_pure.2 ⟨h, ⟨_, _, read_of_quiet hp hr hmiss⟩, fun hready _ => hsure hready⟩
  unfold fillPage
  obtain ⟨w, frame, st⟩ := p
  cases st with
  | untouched filling purpose =>
      cases filling with
      | none =>
          cases purpose with
          | anon | stack => exact hpure _ rfl (fun _ => rfl) nofun fun _ => rfl
          | file b => exact hload b rfl (fun _ _ => id) id
      | some i =>
          cases i with
          | segment b => exact hload b rfl (fun _ _ => id) id
          | snapshot copy => exact hpure _ rfl (fun _ => rfl) nofun fun _ => rfl
          | custom run =>
              refine hpure _ rfl (fun hr => ?_) (fun e he hm => ⟨run, purpose, e, rfl, he, hm⟩)
                fun hready => hready _
              change run (Buffer.zero _) = _
              rw [← hr]
  | anon slot stack =>
      cases slot with
      | none => exact absurd rfl (hslot stack)
      | some k =>
          refine (yields_fetchPage (p := ⟨w, frame, .anon (some k) stack⟩) h rfl (hused k rfl) _).mono ?_ fun _ _ => id
          exact fun r n hn => ⟨hn.1, hn.2.1, fun _ hdisk => hn.2.2 (hdisk rfl)⟩
  | file b => exact hload b rfl (fun _ _ => id) id

def Seated (m : Machine) (r : PageRef) (p : Page) (f : FrameId) (n : Machine) : Prop :=
  n.Consistent ∧ View.Deeds (m.view.Fetches r) m.view n.view ∧
    ∃ v c, View.Path Act.Quiet m.view v ∧ v.page = m.view.page ∧ v.status = m.view.status ∧
    (v.Brings p c ∧ ∀ id, (v.fileAt id).bytes = (m.view.fileAt id).bytes) ∧ n.view = { v with
      page := update v.page r (some ⟨p.writable, some f, residentState p.state⟩)
      entry := update v.entry r (some (.fresh f p.writable))
      bytes := update v.bytes f c
      used := v.usedWithout p }

theorem Read.seated
    (hread : Read { m.view with entry := update m.view.entry ⟨s, va⟩ (some (.fresh f p.writable)) } p file log r u.view)
    (hr : r.failure = none) (hu : u.Consistent) (hs : (u.space? s).isSome) (ha : isPageAligned va = true)
    (hp : m.view.page ⟨s, va⟩ = some p) (hf : p.frame = none) (hpresent : m.view.status f ≠ .absent) :
    Seated m ⟨s, va⟩ p f (((u.withBytes f r.bytes).withSpace s
      (·.setPage va ⟨p.writable, some f, residentState p.state⟩)).tell (.pageResident s va f)) := by
  obtain ⟨hbrings, hw⟩ := hread.filled hr
  obtain ⟨su, hsu⟩ := Option.isSome_iff_exists.1 hs
  have hset := view_withBytes hu (f := f) (by rwa [hw]) r.bytes
  have hsu' : (u.withBytes f r.bytes).space? s = some su := hsu
  have hview : (((u.withBytes f r.bytes).withSpace s
      (·.setPage va ⟨p.writable, some f, residentState p.state⟩)).tell (.pageResident s va f)).view = { m.view with
        page := update m.view.page ⟨s, va⟩ (some ⟨p.writable, some f, residentState p.state⟩)
        entry := update m.view.entry ⟨s, va⟩ (some (.fresh f p.writable))
        bytes := update m.view.bytes f r.bytes
        used := m.view.usedWithout p
        file := file
        log := log.push (.pageResident s va f) } := by
    rw [view_tell, view_setPage hsu', hset, hw, pageBase_of_aligned ha]
    rfl
  have hpath : View.Path Act.Quiet m.view { m.view with file := file, log := log } := hread.path m.view.entry
  refine ⟨((hu.withBytes f r.bytes).setPage s _ _).tell _, ?_,
    { m.view with file := file, log := log.push (.pageResident s va f) }, r.bytes,
    hpath.step rfl (.told _), rfl, rfl, ⟨hbrings.congr rfl rfl, hread.bytes⟩, hview⟩
  refine View.fetched (f := f) hp hf ?_ ?_ ?_ ?_ <;> rw [hview]
  · exact hread.bytes
  · exact hread.tells.push (e := .pageResident s va f) rfl rfl

theorem Read.abandoned
    (hread : Read { m.view with entry := update m.view.entry ⟨s, va⟩ (some x) } p file log r u.view)
    (hr : r.failure = some e) (hu : u.Consistent) (hs : (u.space? s).isSome) (ha : isPageAligned va = true)
    (hentry : m.view.entry ⟨s, va⟩ = none) (hpin : m.view.status f = .pinned) :
    m.Leads Act.Quiet ((u.withBytes f r.bytes).unmapped s va) ∧
      m.view.Idles ((u.withBytes f r.bytes).unmapped s va).view := by
  obtain ⟨-, hw⟩ := hread.failed e hr
  obtain ⟨su, hsu⟩ := Option.isSome_iff_exists.1 hs
  have hset := view_withBytes hu (f := f) (by simp [hw, hpin]) r.bytes
  have hsu' : (u.withBytes f r.bytes).space? s = some su := hsu
  have hun := view_unmapped (hu.withBytes f r.bytes) hsu' ha
  have hsame : update m.view.entry ⟨s, va⟩ none = m.view.entry := Function.update_eq_self_iff.2 hentry.symm
  rw [hset, hw] at hun
  simp only [Function.update_idem, hsame] at hun
  have hpath : View.Path Act.Quiet m.view { m.view with file := file, log := log } := hread.path m.view.entry
  refine ⟨⟨⟨(hu.withBytes f r.bytes).unmapped s va, ?_⟩, fun g => by rw [hun]⟩, ?_⟩
  · exact hun ▸ hpath.step rfl (.scribbled _ hpin)
  · exact hun ▸ ⟨rfl, hread.bytes, hread.tells⟩

/-- Bringing a page into a pinned frame leaves it ready to be installed there, or changes nothing
that counts. -/
theorem yields_bringIn (h : m.Sound) (hp : m.view.page ⟨s, va⟩ = some p) (hf : p.frame = none)
    (hpin : m.view.status f = .pinned) (hz : m.view.bytes f = Buffer.zero _) :
    Yields (bringIn s va f) m (fun _ => Seated m ⟨s, va⟩ p f)
      (Failing fun e n => (e.isMissing = true → p.Blames) ∧ m.Leads Act.Quiet n ∧ m.view.Idles n.view ∧
        (m.view.Ready p → (p.slot?.isSome → m.swap.disk.Reliable) → 0x100000 ≤ f.index)) := by
  obtain ⟨sp, hsp⟩ := space?_of_page hp
  obtain ⟨-, ha, huser⟩ := h.coherent.placed hp
  dsimp only at hsp ha huser
  have hpresent : m.view.status f ≠ .absent := by simp [hpin]
  have hentry : m.view.entry ⟨s, va⟩ = none := h.coherent.entry_of_out hp hf
  unfold bringIn
  rw [yields_bind, yields_space hsp, Space.page?, pageBase_of_aligned ha, ← page_eq hsp, hp]
  dsimp only
  obtain ⟨-, t, ht, hc, hv⟩ | ⟨hge, hnone⟩ :=
    h.consistent.map_cases hsp ha huser hentry (h.consistent.index_lt hpresent) p.writable
  · rw [ht]
    have hswap : (m.withSpace s fun sp => { sp with table := t }).swap = m.swap := rfl
    refine yields_bind.2 (yields_modifyTable.2 ?_)
    generalize m.withSpace s (fun sp => { sp with table := t }) = n at hc hv hswap
    rw [yields_bind, yields_contents hc (by rwa [hv]), yields_bind, hv]
    dsimp only
    rw [hz]
    refine (yields_fillPage hc (fun k hk => ?_) fun stack hst => ?_).mono (fun r u hr => ?_)
      fun _ _ => False.elim
    · rw [hv]
      exact h.coherent.slot_used hp hk
    · have hapt := h.coherent.apt hp
      rw [View.Apt, hst, hf] at hapt
      simp at hapt
    · obtain ⟨hu, ⟨file, log, hread⟩, hsure⟩ := hr
      rw [hv] at hread
      rw [hswap] at hsure
      have hfiles (id : FileId) : (m.view.fileAt id).Same (n.view.fileAt id) := by
        rw [hv]
        exact .refl _
      have hs : (u.space? s).isSome := by
        rw [space?_isSome, hread.book_eq, book_eq hsp]
        rfl
      rw [yields_bind, yields_setContents hu (by rwa [hread.status_eq])]
      cases hfail : r.failure with
      | none => exact yields_bind.2 (yields_modifySpace.2 (yields_emit.2
          (hread.seated hfail hu hs ha hp hf hpresent)))
      | some e =>
          obtain ⟨hleads, hidle⟩ := hread.abandoned hfail hu hs ha hentry hpin
          refine yields_bind.2 (yields_modifyTable.2 (yields_fail.2
            ⟨(hread.failed e hfail).1, hleads, hidle, fun hready hdisk => ?_⟩))
          rw [hsure (hready.congr hfiles) hdisk] at hfail
          cases hfail
  · rw [hnone]
    refine yields_fail.2 ⟨fun he => absurd he Bool.false_ne_true, .refl h.consistent, .refl _, fun _ _ => hge⟩

theorem yields_install (h : n.Consistent) (hf : n.view.status f = .pinned) (o : PageRef) :
    Yields (install f o) n
      (fun _ w => w.Consistent ∧ w.view = { n.view with
        owner := update n.view.owner f (some o)
        status := update n.view.status f .held
        clock := n.view.clock ++ [f] })
      fun _ _ => False := by
  obtain ⟨t, ht, hfits, howner, hstatus, hbytes, hclock⟩ := h.frames.install hf o
  unfold install
  rw [yields_modifyFrames, ht]
  refine ⟨h.withFrames hfits, ?_⟩
  rw [view_withFrames]
  exact View.ext rfl rfl rfl howner hstatus hbytes hclock rfl rfl rfl rfl rfl

theorem yields_release (h : n.Consistent) (hf : n.view.status f = .pinned) :
    Yields (release f) n
      (fun _ w => w.Consistent ∧ w.view = { n.view with
        status := update n.view.status f .free
        log := n.view.log.push (.frameReleased f) })
      fun _ _ => False := by
  obtain ⟨t, ht, hfits, howner, hstatus, hbytes, hclock⟩ := h.frames.release hf
  unfold release
  rw [yields_bind, yields_modifyFrames, ht]
  refine yields_emit.2 ⟨(h.withFrames hfits).tell _, ?_⟩
  rw [view_tell, view_withFrames]
  exact View.ext rfl rfl rfl howner hstatus hbytes hclock rfl rfl rfl rfl rfl

end Vm

def Act.Loads (r : PageRef) (a : Act) : Prop := a.Quiet ∨ a = .loaded r

theorem View.Path.loads_book {v w : View} (h : View.Path (Act.Loads o) v w) : w.book = v.book :=
  h.book_eq (by simp [Act.Loads, Act.Quiet]) (by simp [Act.Loads, Act.Quiet]) (by simp [Act.Loads, Act.Quiet])

namespace Vm

/-- What is lacking when the page `p` cannot be given a frame: a frame to have or to reclaim, or else a
way to read the page or a frame that a page table can name. -/
def Denied (m : Machine) (p : Page) : Prop :=
  m.frames.pool.take = none ∧ Stuck m ∨
    (m.view.Ready p → m.swap.disk.Reliable → ∃ f, m.view.status f ≠ .absent ∧ 0x100000 ≤ f.index)

/-- Making a page resident loads at most that page; if it fails nothing is loaded. -/
theorem yields_makeResident (h : m.Sound) (hs : (m.view.book s).isSome) (va : Addr) :
    Yields (makeResident s va) m
      (fun _ n => m.Leads (Act.Loads ⟨s, pageBase va⟩) n ∧
        View.Deeds (m.view.Fetches ⟨s, pageBase va⟩) m.view n.view ∧
        ∃ p f, n.view.page ⟨s, pageBase va⟩ = some p ∧ p.frame = some f)
      (Failing fun e n => m.Leads Act.Quiet n ∧ View.Deeds Deed.Vacates m.view n.view ∧
        (e.isMissing = true → ∃ p, m.view.page ⟨s, pageBase va⟩ = some p ∧ p.Blames) ∧
        (m.view.page ⟨s, pageBase va⟩ = none ∧ e = .badAddress (pageBase va) ∨
          ∃ p, m.view.page ⟨s, pageBase va⟩ = some p ∧ Denied m p)) := by
  obtain ⟨sp, hsp⟩ := space?_of_book hs
  unfold makeResident
  dsimp only
  rw [yields_bind, yields_space hsp, Space.page?, pageBase_pageBase, ← page_eq hsp]
  generalize hr : pageBase va = a
  cases hp : m.view.page ⟨s, a⟩ with
  | none =>
      exact yields_fail.2 ⟨.refl h.consistent, .refl, fun he => absurd he Bool.false_ne_true, .inl ⟨rfl, rfl⟩⟩
  | some p =>
      dsimp only
      unfold Page.isResident
      cases hf : p.frame with
      | some f => exact yields_pure.2 ⟨.refl h.consistent, .refl, p, f, hp, hf⟩
      | none =>
          refine ((steady_acquire (steady_swap _ m.swap) fun _ => trivial).and (.refl _)
            (yields_acquire_grants h)).bind (fun f n hn => ?_) fun e n hn => ?_
          · obtain ⟨⟨hn, hz⟩, hswap⟩ := hn
            have hsound := hn.toGoes.sound h
            have hpn : n.view.page ⟨s, a⟩ = some p := by
              rw [hn.path.page_eq, hp]
              rw [hp]
              rintro _ ⟨⟩
              exact hf
            refine yields_bind.2 ((yields_bringIn hsound hpn hf hn.status_eq hz).attempt ?_ ?_)
            · rintro _ u ⟨hu, hdeeds, v, c, hpath, hpage, hstatus, ⟨hbrings, -⟩, hview⟩
              have hpin : v.status f = .pinned := by rw [hstatus, hn.status_eq]
              have hpv : v.page ⟨s, a⟩ = some p := by rw [hpage, hpn]
              refine (yields_install hu (by rw [hview]; exact hpin) ⟨s, a⟩).mono ?_ fun _ _ => False.elim
              rintro _ w ⟨hw, hwview⟩
              have hidle : u.view.Idles w.view := by
                rw [hwview]
                exact View.idles_of_eq rfl rfl rfl rfl
              rw [hview] at hwview
              have hstep : v.Step (.loaded ⟨s, a⟩) w.view := hwview ▸ .loaded hpv hf hpin hbrings
              refine ⟨⟨⟨hw, ?_⟩, fun g => ?_⟩, (hn.deeds.within.trans (hdeeds.mono ?_)).trans hidle.within,
                ⟨p.writable, some f, residentState p.state⟩, f, ?_, rfl⟩
              · exact ((hn.path.trans hpath).mono fun _ => .inl).step (.inr rfl) hstep
              · rw [hwview]
                dsimp only
                by_cases hg : g = f
                · subst hg
                  simp [hn.spare]
                · rw [Function.update_of_ne hg, hstatus, hn.pinned]
                  simp [hg]
              · rw [View.Fetches, hpn, ← hp]
                exact fun _ => id
              · rw [hwview]
                exact Function.update_self ..
            · rintro e u ⟨hmiss, hlead, hidle, hindex⟩
              have hpin : u.view.status f = .pinned := (hlead.pinned f).2 hn.status_eq
              refine (yields_release hlead.consistent hpin).bind ?_ fun _ _ => False.elim
              rintro _ w ⟨hw, hwview⟩
              have hidle' : u.view.Idles w.view := by
                rw [hwview]
                exact View.idles_of_push rfl rfl rfl rfl rfl
              refine yields_fail.2 ⟨⟨⟨hw, ?_⟩, fun g => ?_⟩, hn.deeds.trans (hidle.trans hidle').within,
                fun hm => ⟨p, rfl, hmiss hm⟩,
                .inr ⟨p, rfl, .inr fun hready hdisk =>
                  ⟨f, ?_, hindex (hready.congr ?_) fun _ => hswap.disk.reliable hdisk⟩⟩⟩
              · rw [hwview]
                exact ((hn.path.trans hlead.path).step rfl (.released hpin)).step rfl (.told _)
              · rw [hwview]
                dsimp only
                by_cases hg : g = f
                · subst hg
                  simp [hn.spare]
                · rw [Function.update_of_ne hg, hlead.pinned, hn.pinned]
                  simp [hg]
              · rw [Ne, ← hn.path.absent_iff h.coherent, hn.status_eq]
                simp
              · exact hn.path.file_same (by simp [Act.Quiet])
          · refine hn.1.mono ?_
            rintro e ⟨hmiss, hlead, hdeeds, hnone⟩
            exact ⟨hlead, hdeeds, fun hm => by simp [hmiss] at hm, .inr ⟨p, rfl, .inl hnone⟩⟩

end Vm

end DemandPaging
