import DemandPaging.UserCopy
import DemandPaging.Proofs.Faulting

namespace DemandPaging

open Function (update)
open Step Machine

variable {m n u : Machine} {s : SpaceId} {sp : Space} {va addr : Addr} {f : FrameId} {p : Page} {r : PageRef}
  {a : Act} {v w : View}

def Act.Writes (v : View) (s : SpaceId) (va : Addr) (data : Array UInt8) (undone : Addr → Prop)
    (a : Act) : Prop :=
  a.Makes v s IsStackPage undone ∨ ∃ k len, k + len ≤ data.size ∧ pageOffset (va + k) + len ≤ pageSize ∧
    a = .stored ⟨s, pageBase (va + k)⟩ (pageOffset (va + k)) (data.extract k (k + len))

theorem View.Path.writes_present {data : Array UInt8} {undone : Addr → Prop}
    (h : View.Path (Act.Writes v s va data undone) v w) (hr : (v.page r).isSome) :
    (w.page r).isSome := by
  refine h.present (fun saved ha => ?_) (fun ha => ?_) hr
  · rcases ha with ha | ⟨k, len, -, -, heq⟩
    · rw [ha.2.1] at hr
      cases hr
    · cases heq
  · rcases ha with ha | ⟨k, len, -, -, heq⟩
    · exact ha
    · cases heq

theorem Act.Makes.before_writes {data : Array UInt8} {new : Addr → Page → Prop} {undone undone' : Addr → Prop}
    (ha : a.Makes w s new undone) (h : View.Path (Act.Writes v s va data undone') v w) : a.Makes v s new undone := by
  have habsent {r : PageRef} (hr : w.page r = none) : v.page r = none := by
    rw [← Option.not_isSome_iff_eq_none] at hr ⊢
    exact mt h.writes_present hr
  have hregions : w.regions s = v.regions s := by
    refine h.keeps (I := fun w => w.regions s = v.regions s) rfl fun {v' w' a} ha hs hv => ?_
    rw [hs.regions_eq ?_ ?_ ?_, hv]
    · rintro b rfl
      rw [hv]
      rcases ha with ha | ⟨k, len, -, -, heq⟩
      · exact ha.2
      · cases heq
    all_goals
      rintro rfl
      rcases ha with ha | ⟨k, len, -, -, heq⟩
      · exact ha
      · cases heq
  cases a with
  | added r p => exact ⟨ha.1, habsent ha.2.1, ha.2.2⟩
  | removed r saved => exact ⟨ha.1, habsent ha.2.1, ha.2.2⟩
  | booked t b => exact ⟨ha.1, ha.2.trans hregions⟩
  | _ => exact ha

def Act.Reads (v w : View) (s : SpaceId) : Act → Prop :=
  Act.Makes v s IsStackPage fun va => w.page ⟨s, va⟩ = none

namespace View

def Shows (v : View) (r : PageRef) (i : Nat) (b : UInt8) : Prop :=
  ∃ p f, v.page r = some p ∧ p.frame = some f ∧ (v.bytes f)[i]? = some b

def Open (v : View) (r : PageRef) (f : FrameId) (write : Bool) : Prop :=
  ∃ p, v.page r = some p ∧ p.frame = some f ∧ (write = true → (v.entry r).any (·.dirty) = true)

/-- On the way from `v` to `w`, the byte at `addr` of a space was seen to be `b`, and its page is
still there in the end. -/
structure Seen (P : Act → Prop) (v w : View) (s : SpaceId) (addr : Addr) (b : UInt8) : Prop where
  shown : ∃ u, Path P v u ∧ Path P u w ∧ u.Shows ⟨s, pageBase addr⟩ (pageOffset addr) b
  stays : (w.page ⟨s, pageBase addr⟩).isSome

theorem Seen.mono {P Q : Act → Prop} {b : UInt8} (h : Seen P v w s addr b) (hpq : ∀ a, P a → Q a) :
    Seen Q v w s addr b := by
  obtain ⟨⟨u, hv, hw, hs⟩, hstays⟩ := h
  exact ⟨⟨u, hv.mono hpq, hw.mono hpq, hs⟩, hstays⟩

theorem Seen.before {P : Act → Prop} {b : UInt8} {u : View} (h : Seen P w u s addr b)
    (hv : Path P v w) : Seen P v u s addr b := by
  obtain ⟨⟨z, hw, hu, hs⟩, hstays⟩ := h
  exact ⟨⟨z, hv.trans hw, hu, hs⟩, hstays⟩

end View

theorem Machine.Sound.access_denied {write : Bool} {code : FaultCode} (h : m.Sound) (hsp : m.space? s = some sp)
    (hcode : sp.table.access addr write true = .error code) : isKernel addr = true ∨
      (∀ p, m.view.page ⟨s, pageBase addr⟩ = some p → p.frame = none) ∧ code.notPresent = true ∨
      ∃ p, m.view.page ⟨s, pageBase addr⟩ = some p ∧ p.frame.isSome ∧ write = true ∧ p.writable = false ∧
        code.notPresent = false := by
  have hentry := entry_pageBase hsp addr
  obtain ⟨x, t, -, -, -, ht, -⟩ | ⟨code', hcode', hwhy⟩ := (h.consistent.separate hsp).access_eq addr write
  · cases hcode.symm.trans ht
  cases hcode.symm.trans hcode'
  rcases hwhy with hk | ⟨hnone, hpresent⟩ | ⟨x, hx, hwr, hxw, hpresent⟩
  · exact .inl hk
  · refine .inr (.inl ⟨fun p hp => ?_, hpresent⟩)
    cases hf : p.frame with
    | none => rfl
    | some f =>
        obtain ⟨a, d, hx⟩ := h.coherent.entry_of_resident hp hf
        cases hnone.symm.trans (hentry.symm.trans hx)
  · obtain ⟨p, hp, hf, hpw⟩ := h.coherent.page_of_entry (hentry.trans hx)
    exact .inr (.inr ⟨p, hp, by rw [hf]; rfl, hwr, hpw.trans hxw, hpresent⟩)

/-- An access goes through, and marks the page, or it fails because of where the page is or of its
protection. -/
theorem Machine.Sound.access_cases (h : m.Sound) (hsp : m.space? s = some sp) (addr : Addr) (write : Bool) :
    (∃ f t, sp.table.access addr write true = .ok (f, t) ∧
        m.Leads Act.Quiet (m.withSpace s fun sp => { sp with table := t }) ∧
        (m.withSpace s fun sp => { sp with table := t }).view.Open ⟨s, pageBase addr⟩ f write ∧
        View.Deeds (View.Marks ⟨s, pageBase addr⟩ write) m.view
          (m.withSpace s fun sp => { sp with table := t }).view) ∨
      ∃ code, sp.table.access addr write true = .error code ∧ ∀ p, m.view.page ⟨s, pageBase addr⟩ = some p →
        p.frame = none ∧ code.notPresent = true ∨
          p.frame.isSome ∧ write = true ∧ p.writable = false ∧ code.notPresent = false := by
  have hentry := entry_pageBase hsp addr
  obtain ⟨x, t, hx, hu, hw, ht, hsep, htr⟩ | ⟨code, hcode, -⟩ :=
    (h.consistent.separate hsp).access_eq addr write
  · have hv : (m.withSpace s fun sp => { sp with table := t }).view = { m.view with
        entry := Function.update m.view.entry ⟨s, pageBase addr⟩
          (some { x with accessed := true, dirty := x.dirty || write }) } :=
      view_withSpace_entry hsp rfl rfl htr
    rw [hx] at hentry
    obtain ⟨p, hp, hf, hpw⟩ := h.coherent.page_of_entry hentry
    refine .inl ⟨_, t, ht, ?_, ⟨p, ?_, hf, fun hwr => ?_⟩, ?_⟩
    · refine (Leads.refl h.consistent).step (a := .quiet)
        (h.consistent.withSpace fun _ => hsep) rfl ?_ fun g => by rw [hv]
      rw [hv]
      exact .marked true (x.dirty || write) hentry fun hd => .inl (by simp [hd])
    · rw [hv, hp]
    · rw [hv]
      simp [hwr]
    · rw [hv]
      cases write with
      | false =>
          rw [Bool.or_false]
          exact (View.idles_of_marked hentry true).within
      | true =>
          rw [Bool.or_true]
          refine View.Does.deeds (P := View.Marks ⟨s, pageBase addr⟩ true)
            (View.does_soil _ (fun q hq => ?_) true) ⟨rfl, rfl⟩
          cases hp.symm.trans hq
          rw [hpw, hw rfl]
  · refine .inr ⟨code, hcode, fun p hp => ?_⟩
    rcases h.access_denied hsp hcode with hk | ⟨hnone, hpresent⟩ | ⟨q, hq, hwhy⟩
    · have huser := (h.coherent.placed hp).2.2
      rw [isKernel_pageBase, hk] at huser
      cases huser
    · exact .inl ⟨hnone p hp, hpresent⟩
    · cases hp.symm.trans hq
      exact .inr hwhy

theorem Machine.Sound.present_of_open {write : Bool} (h : m.Sound) (hopen : m.view.Open r f write) :
    m.view.status f ≠ .absent := by
  obtain ⟨p, hp, hf, -⟩ := hopen
  rw [(h.coherent.held_iff f).2 (by rw [h.coherent.resident hp hf]; rfl)]
  nofun

/-- Once a page is resident, only its protection can be in the way of an access. -/
theorem Machine.Sound.access_resident (h : m.Sound) (hsp : m.space? s = some sp)
    (hres : m.view.Resident s addr) (write : Bool) :
    (∃ f t, sp.table.access addr write true = .ok (f, t)) ∨
      ∃ code, sp.table.access addr write true = .error code ∧ code.notPresent = false := by
  obtain ⟨p, f, hp, hf⟩ := hres
  rcases h.access_cases hsp addr write with ⟨f, t, ht, -, -⟩ | ⟨code, hcode, hwhy⟩
  · exact .inl ⟨f, t, ht⟩
  · rcases hwhy p hp with ⟨hnone, -⟩ | ⟨-, -, -, hpresent⟩
    · rw [hf] at hnone
      cases hnone
    · exact .inr ⟨code, hcode, hpresent⟩

namespace Vm

/-- Two rounds are enough for an access: once the page is resident, only its protection can be in
the way, and that is no fault that could be resolved. -/
theorem yields_frameFor (h : m.Sound) (hs : (m.view.book s).isSome) (addr : Addr) (write : Bool)
    (rounds : Nat) (hr : 2 ≤ rounds ∨ rounds = 1 ∧ m.view.Resident s addr) :
    Yields (frameFor s addr write rounds) m
      (fun f n => m.Makes s IsStackPage n ∧ n.view.Open ⟨s, pageBase addr⟩ f write)
      (Failing fun e n => m.Falters s IsStackPage n ∧ e = .badAddress addr) := by
  induction rounds generalizing m with
  | zero => simp at hr
  | succ rounds ih =>
      obtain ⟨sp, hsp⟩ := space?_of_book hs
      unfold frameFor
      rw [yields_bind, yields_space hsp]
      rcases h.access_cases hsp addr write with ⟨f, t, ht, hmarked, hopen, -⟩ | ⟨code, hcode, -⟩
      · rw [ht]
        exact yields_bind.2 (yields_modifyTable.2 (yields_pure.2 ⟨hmarked.makes fun _ ha => ha.makes, hopen⟩))
      · rw [hcode]
        refine (yields_onFault h hs _ _ _ _ _).bind ?_ fun _ _ => False.elim
        rintro b n ⟨hn, hok⟩
        split
        swap
        · exact yields_fail.2 ⟨hn, rfl⟩
        obtain ⟨hn, hres, hnp⟩ := hok ‹_›
        have hmore : 1 ≤ rounds := by
          rcases hr with hr | ⟨hr, hfirst⟩
          · omega
          · obtain ⟨f, t, ht⟩ | ⟨code', hcode', hnp'⟩ := h.access_resident hsp hfirst write
            · cases hcode.symm.trans ht
            · cases hcode.symm.trans hcode'
              cases hnp.symm.trans hnp'
        refine (ih (hn.sound h) (hn.live hs) ?_).mono ?_ ?_
        · rcases Nat.eq_or_lt_of_le hmore with hone | hmore
          · exact .inr ⟨hone.symm, hres⟩
          · exact .inl hmore
        · exact fun f u hu => ⟨hn.trans hu.1, hu.2⟩
        · exact fun e u hu => hu.mono fun e hu => ⟨hn.falters_trans hu.1, hu.2⟩

theorem yields_touchPage (h : m.Sound) (hs : (m.view.book s).isSome) (addr : Addr) (write : Bool) :
    Yields (touchPage s addr write) m
      (fun c n => m.Makes s IsStackPage n ∧ n.view.Open ⟨s, pageBase addr⟩ c.1 write ∧
        c.2 = n.view.bytes c.1 ∧ n.view.status c.1 ≠ .absent)
      (Failing fun e n => m.Falters s IsStackPage n ∧ e = .badAddress addr) := by
  unfold touchPage
  refine (yields_frameFor h hs addr write 2 (.inl (Nat.le_refl _))).bind ?_ fun _ _ => id
  rintro f n ⟨hn, hopen⟩
  have hsn := hn.sound h
  have hpresent := hsn.present_of_open hopen
  exact yields_bind.2 ((yields_contents hsn.consistent hpresent).2
    (yields_pure.2 ⟨hn, hopen, rfl, hpresent⟩))

structure Gathers (m n : Machine) (s : SpaceId) (addr : Nat) (data : Array UInt8) : Prop where
  makes : m.Makes s IsStackPage n
  seen : ∀ (i : Nat) b, data[i]? = some b →
    View.Seen (Act.Makes m.view s IsStackPage fun _ => False) m.view n.view s (addr + i) b

/-- A copy of `len` bytes ends, with `count` of them copied, because the page that comes next cannot be accessed: it is
the first, or begins where the copy ends. -/
structure CutOff (s : SpaceId) (addr len : Nat) (write : Bool) (u : Machine) (count : Nat) (e : PagingError)
    (n : Machine) : Prop where
  lt : count < len
  place : count = 0 ∨ isPageAligned (addr + count) = true
  error_eq : e = .badAddress (addr + count)
  fails : (touchPage s (addr + count) write).run u = .error (.error e) n

theorem CutOff.chunk {len chunk count : Nat} {write : Bool} {e : PagingError}
    (hc : min len (pageSize - pageOffset addr) = chunk) (h : CutOff s (addr + chunk) (len - chunk) write u count e n) :
    CutOff s addr len write u (chunk + count) e n := by
  have hlt := h.lt
  have hplace : isPageAligned (addr + (chunk + count)) = true := by
    rw [← Nat.add_assoc]
    rcases h.place with rfl | hplace
    · rw [isPageAligned_iff]
      rw [pageSize_eq, pageOffset_eq] at hc
      omega
    · exact hplace
  refine ⟨by omega, .inr hplace, ?_, ?_⟩ <;> rw [← Nat.add_assoc]
  · exact h.error_eq
  · exact h.fails

theorem Gathers.chunk {data : Array UInt8} {chunk : Nat} {z : Machine} (hn : m.Makes s IsStackPage n)
    (hopen : n.view.Open ⟨s, pageBase addr⟩ f false) (hend : pageOffset addr + chunk ≤ pageSize)
    (hz : Gathers n z s (addr + chunk) data) :
    Gathers m z s addr (Buffer.slice (n.view.bytes f) (pageOffset addr) chunk ++ data) := by
  obtain ⟨p, hp, hf, -⟩ := hopen
  have hslice := (n.view.bytes f).size_slice hend
  refine ⟨hn.trans hz.makes, fun i b hi => ?_⟩
  rw [Array.getElem?_append, hslice] at hi
  split at hi
  · rename_i hlt
    have hin : pageOffset addr + i < pageSize := by omega
    refine ⟨⟨n.view, hn.path, hz.makes.path.mono fun _ ha => ha.before hn.path, p, f, ?_, hf, ?_⟩, ?_⟩
    · rw [pageBase_add hin]
      exact hp
    · rw [pageOffset_add hin, ← hi, (n.view.bytes f).getElem?_slice hend hlt]
    · rw [pageBase_add hin]
      exact hz.makes.path.makes_present (by rw [hp]; rfl)
  · rename_i hge
    have hadd : addr + chunk + (i - chunk) = addr + i := by
      rw [Nat.add_assoc, Nat.add_sub_cancel' (Nat.le_of_not_lt hge)]
    rw [← hadd]
    exact ((hz.seen _ _ hi).mono fun _ ha => Act.Makes.before ha hn.path).before hn.path

section

variable {I : Machine → Prop} {write : Bool} (hI : ∀ addr, Keeps I (touchPage s addr write))
include hI

theorem yields_touchFirst (h : m.Sound) (hs : (m.view.book s).isSome) (hm : I m) (addr : Addr) {len : Nat}
    (hlen : len ≠ 0) : Yields (touchPage s addr write) m
      (fun c n => I n ∧ m.Makes s IsStackPage n ∧ n.view.Open ⟨s, pageBase addr⟩ c.1 write ∧
        c.2 = n.view.bytes c.1 ∧ n.view.status c.1 ≠ .absent)
      (Failing fun e n => CutOff s addr len write m 0 e n) := by
  refine (((hI addr).yields m hm).and (yields_touchPage h hs addr write)).run_eq.mono (fun _ _ => And.right) ?_
  rintro e n ⟨hrun, -, hn⟩
  obtain ⟨e, rfl, -, he⟩ := hn.error
  exact ⟨Nat.pos_of_ne_zero hlen, .inl rfl, he, hrun⟩

end

/-- What is read on from `addr` was seen there, as far as it goes. -/
theorem yields_readPages {I : Machine → Prop} (hI : ∀ addr, Keeps I (touchPage s addr false)) (h : m.Sound)
    (hs : (m.view.book s).isSome) (hm : I m) (k addr len : Nat) (done : Array UInt8)
    (hk : pagesTouched addr len = k) (hw : addr + len < wordLimit) :
    Yields (readPages s k addr len done) m
      (fun c n => ∃ u next, I u ∧ c.bytes = done ++ next ∧ Gathers m u s addr next ∧
        (c.failure = none ∧ next.size = len ∧ n = u ∨
          ∃ e, c.failure = some e ∧ CutOff s addr len false u next.size e n))
      fun _ _ => False := by
  induction k generalizing m addr len done with
  | zero =>
      have hlen := pagesTouched_eq_zero_iff.1 hk
      exact yields_pure.2 ⟨m, #[], hm, (Array.append_empty ..).symm, ⟨.refl h.consistent, by simp⟩,
        .inl ⟨rfl, hlen.symm, rfl⟩⟩
  | succ k ih =>
      have hlen : len ≠ 0 := fun hzero => by simp [pagesTouched_eq_zero_iff.2 hzero] at hk
      have hnext := Nat.succ.inj ((pagesTouched_eq_succ hlen).symm.trans hk)
      unfold readPages
      dsimp only
      generalize hc : min len (pageSize - pageOffset addr) = chunk at hnext
      refine yields_bind.2 ((yields_touchFirst hI h hs hm addr hlen).attempt ?_ ?_)
      · rintro ⟨f, page⟩ n ⟨hIn, hn, hopen, hpage, -⟩
        dsimp only at hpage ⊢
        subst hpage
        have hend : pageOffset addr + chunk ≤ pageSize := by
          have := pageOffset_lt addr
          omega
        rw [yields_bind, yields_word, if_pos (by omega)]
        -- The chunk goes before what the rest brings, so the prefix grows at its front.
        refine (ih (hn.sound h) (hn.live hs) hIn _ _ _ hnext (by omega)).mono ?_ fun _ _ => id
        rintro c z ⟨u, next, hIu, hbytes, hu, hend'⟩
        refine ⟨u, _ ++ next, hIu, by rw [hbytes, Array.append_assoc], .chunk hn hopen hend hu, ?_⟩
        rw [Array.size_append, (n.view.bytes f).size_slice hend]
        rcases hend' with ⟨hfail, hsize, rfl⟩ | ⟨e, hfail, hcut⟩
        · exact .inl ⟨hfail, by omega, rfl⟩
        · exact .inr ⟨e, hfail, hcut.chunk hc⟩
      · exact fun e n hn => yields_pure.2 ⟨m, #[], hm, (Array.append_empty ..).symm, ⟨.refl h.consistent, by simp⟩,
          .inr ⟨e, rfl, hn⟩⟩

/-- From `m` to `n`, by faults that were resolved and by what was stored, all of `data` went to user memory from `addr`
on, and nothing else did. -/
structure Scatters (m n : Machine) (s : SpaceId) (addr : Addr) (data : Array UInt8) : Prop where
  leads : m.Leads (Act.Writes m.view s addr data fun _ => False) n
  seen : ∀ (i : Nat) b, data[i]? = some b →
    View.Seen (Act.Writes m.view s addr data fun _ => False) m.view n.view s (addr + i) b

theorem Scatters.nothing (h : m.Consistent) (addr : Addr) : Scatters m m s addr #[] :=
  ⟨.refl h, by simp⟩

theorem stored (hopen : n.view.Open r f true) {offset : Nat} {data : Array UInt8} (hu : u.Consistent)
    (huv : u.view = { n.view with
      bytes := update n.view.bytes f ((n.view.bytes f).overlay offset data) }) :
    n.Leads (· = .stored r offset data) u := by
  obtain ⟨p, hp, hf, hd⟩ := hopen
  refine ⟨⟨hu, View.Step.path (a := .stored r offset data) ?_ rfl⟩, fun g => by rw [huv]⟩
  rw [huv]
  exact .stored _ _ hp hf (hd rfl)

theorem Scatters.chunk {data : Array UInt8} {chunk : Nat} {z : Machine}
    (hn : m.Makes s IsStackPage n) (hopen : n.view.Open ⟨s, pageBase addr⟩ f true)
    (hchunk : chunk ≤ data.size) (hend : pageOffset addr + chunk ≤ pageSize)
    (hu : u.Consistent) (huv : u.view = { n.view with
      bytes := update n.view.bytes f
        ((n.view.bytes f).overlay (pageOffset addr) (data.extract 0 chunk)) })
    (hz : Scatters u z s (addr + chunk) (data.extract chunk data.size)) : Scatters m z s addr data := by
  have hstored : m.Leads (Act.Writes m.view s addr data fun _ => False) u := by
    refine (Leads.mono hn fun _ ha => .inl ha).trans ((stored hopen hu huv).mono ?_)
    rintro _ rfl
    exact .inr ⟨0, chunk, by omega, by simpa using hend, by simp⟩
  obtain ⟨p, hp, hf, -⟩ := hopen
  have hlater (a : Act) (ha : a.Writes u.view s (addr + chunk) (data.extract chunk data.size) fun _ => False) :
      a.Writes m.view s addr data fun _ => False := by
    rcases ha with ha | ⟨k, len, hlen, hoff, rfl⟩
    · have ha' : a.Makes n.view s IsStackPage fun _ => False := by
        rw [huv] at ha
        cases a <;> exact ha
      exact .inl (ha'.before hn.path)
    · rw [Array.size_extract] at hlen
      refine .inr ⟨chunk + k, len, by omega, by rwa [← Nat.add_assoc], ?_⟩
      rw [Array.extract_extract, Nat.add_assoc addr, Nat.min_eq_left (by omega), Nat.add_assoc chunk]
  refine ⟨hstored.trans (hz.leads.mono hlater), fun i b hi => ?_⟩
  obtain ⟨hsize, rfl⟩ := Array.getElem?_eq_some_iff.1 hi
  by_cases hlt : i < chunk
  · have hin : pageOffset addr + i < pageSize := by omega
    refine ⟨⟨u.view, hstored.path, hz.leads.path.mono hlater, p, f, ?_, hf, ?_⟩, ?_⟩
    · rw [pageBase_add hin, huv]
      exact hp
    · rw [pageOffset_add hin, huv, Vector.getElem?_eq_getElem hin]
      simp only [Function.update_self, Buffer.getElem_overlay, Nat.le_add_right, if_true,
        Nat.add_sub_cancel_left]
      rw [Array.getElem?_extract_of_lt (by omega)]
      simp
    · rw [pageBase_add hin]
      refine hz.leads.path.writes_present ?_
      rw [huv]
      exact Option.isSome_iff_exists.2 ⟨p, hp⟩
  · have hsub : chunk + (i - chunk) = i := by omega
    have hrest : (data.extract chunk data.size)[i - chunk]? = some data[i] := by
      rw [Array.getElem?_extract_of_lt (by omega)]
      simp only [hsub]
    have hadd : addr + chunk + (i - chunk) = addr + i := by rw [Nat.add_assoc, hsub]
    rw [← hadd]
    exact ((hz.seen _ _ hrest).mono hlater).before hstored.path

/-- What is written on from `addr` is there, as far as it goes. -/
theorem yields_writePages {I : Machine → Prop} (hI : ∀ addr, Keeps I (touchPage s addr true))
    (hset : ∀ {n : Machine} {r f} offset data, I n → n.view.Open r f true →
      I (n.withBytes f ((n.view.bytes f).overlay offset data)))
    (h : m.Sound) (hs : (m.view.book s).isSome) (hm : I m) (k addr : Nat) (data : Array UInt8)
    (hk : pagesTouched addr data.size = k) (hw : addr + data.size < wordLimit) :
    Yields (writePages s k addr data) m (fun _ n => I n ∧ Scatters m n s addr data)
      (Failing fun e n => ∃ u count, I u ∧ Scatters m u s addr (data.extract 0 count) ∧
        CutOff s addr data.size true u count e n) := by
  induction k generalizing m addr data with
  | zero =>
      have hlen := pagesTouched_eq_zero_iff.1 hk
      rw [Array.size_eq_zero_iff.1 hlen]
      exact yields_pure.2 ⟨hm, .nothing h.consistent addr⟩
  | succ k ih =>
      have hlen : data.size ≠ 0 := fun hzero => by simp [pagesTouched_eq_zero_iff.2 hzero] at hk
      have hnext := Nat.succ.inj ((pagesTouched_eq_succ hlen).symm.trans hk)
      have hoff := pageOffset_lt addr
      unfold writePages
      dsimp only
      generalize hc : min data.size (pageSize - pageOffset addr) = chunk at hnext
      refine (yields_touchFirst hI h hs hm addr hlen).bind ?_ ?_
      · rintro ⟨f, page⟩ n ⟨hIn, hn, hopen, hpage, hpresent⟩
        dsimp only at hpage hpresent hopen ⊢
        subst hpage
        have hu := hn.consistent.withBytes f
          ((n.view.bytes f).overlay (pageOffset addr) (data.extract 0 chunk))
        have huv := view_withBytes hn.consistent hpresent
          ((n.view.bytes f).overlay (pageOffset addr) (data.extract 0 chunk))
        have hIu := hset (pageOffset addr) (data.extract 0 chunk) hIn hopen
        rw [yields_bind, yields_setContents hn.consistent hpresent, yields_bind, yields_word, if_pos (by omega)]
        generalize n.withBytes f ((n.view.bytes f).overlay (pageOffset addr) (data.extract 0 chunk)) = u
          at hu huv hIu
        have hstored := stored hopen hu huv
        have hwhole {z : Machine} {d : Array UInt8} (hd : chunk ≤ d.size)
            (hsame : data.extract 0 chunk = d.extract 0 chunk)
            (hz : Scatters u z s (addr + chunk) (d.extract chunk d.size)) : Scatters m z s addr d :=
          hz.chunk hn hopen hd (by omega) hu (hsame ▸ huv)
        have hrest : (data.extract chunk data.size).size = data.size - chunk := by
          rw [Array.size_extract]
          omega
        refine (ih (hstored.sound (hn.sound h)) (hstored.path.live nofun (hn.live hs)) hIu _ _ ?_ ?_).mono ?_ ?_
        · rwa [hrest]
        · rw [hrest]
          omega
        · exact fun _ z hz => ⟨hz.1, hwhole (by omega) rfl hz.2⟩
        · refine fun e z hz => hz.mono fun e ⟨v, count, hIv, hv, hcut⟩ => ⟨v, chunk + count, hIv, ?_, ?_⟩
          · have hle := hcut.lt
            rw [hrest] at hle
            have hsize : (data.extract 0 (chunk + count)).size = chunk + count := by
              rw [Array.size_extract]
              omega
            refine hwhole ?_ ?_ ?_
            · omega
            · rw [Array.extract_extract, Nat.min_eq_left (by omega), Nat.zero_add, Nat.zero_add]
            · rw [Array.extract_extract, Nat.min_eq_left (by omega)] at hv
              rwa [hsize, Array.extract_extract, Nat.zero_add, Nat.zero_add, Nat.min_self]
          · rw [hrest] at hcut
            exact hcut.chunk hc
      · exact fun e n hn => hn.mono fun e hn =>
          ⟨m, 0, hm, by simpa using Scatters.nothing h.consistent addr, hn⟩

section

variable {I : Machine → Prop} (h : m.Sound) (hs : (m.view.book s).isSome) (hm : I m)
include h hs hm

theorem yields_copyOut_exact (hI : ∀ addr, Keeps I (touchPage s addr false)) (va len : Nat) :
    Yields (copyOut s va len) m
      (fun c n => wordLimit ≤ va + len ∧ c = ⟨#[], some (.badAddress va)⟩ ∧ n = m ∨
        va + len < wordLimit ∧ ∃ u, I u ∧ Gathers m u s va c.bytes ∧
          (c.failure = none ∧ c.bytes.size = len ∧ n = u ∨
            ∃ e, c.failure = some e ∧ CutOff s va len false u c.bytes.size e n))
      fun _ _ => False := by
  unfold copyOut
  split
  · refine (yields_readPages hI h hs hm _ va len #[] rfl ‹_›).mono ?_ fun _ _ => id
    rintro c n ⟨u, next, hIu, hbytes, hu, hend⟩
    rw [Array.empty_append] at hbytes
    rw [hbytes]
    exact .inr ⟨‹_›, u, hIu, hu, hend⟩
  · exact yields_pure.2 (.inl ⟨Nat.le_of_not_lt ‹_›, rfl, rfl⟩)

theorem yields_copyIn_exact (hI : ∀ addr, Keeps I (touchPage s addr true))
    (hset : ∀ {n : Machine} {r f} offset data, I n → n.view.Open r f true →
      I (n.withBytes f ((n.view.bytes f).overlay offset data)))
    (va : Nat) (data : Array UInt8) : Yields (copyIn s va data) m
      (fun _ n => va + data.size < wordLimit ∧ I n ∧ Scatters m n s va data)
      (Failing fun e n => wordLimit ≤ va + data.size ∧ e = .badAddress va ∧ n = m ∨
        va + data.size < wordLimit ∧ ∃ u count, I u ∧ Scatters m u s va (data.extract 0 count) ∧
          CutOff s va data.size true u count e n) := by
  unfold copyIn
  split
  · exact (yields_writePages hI hset h hs hm _ va data rfl ‹_›).mono (fun _ _ hn => ⟨‹_›, hn⟩)
      fun _ _ hn => hn.mono fun _ hn => .inr ⟨‹_›, hn⟩
  · exact yields_fail.2 (.inl ⟨Nat.le_of_not_lt ‹_›, rfl, rfl⟩)

end

structure Brought (m n : Machine) (s : SpaceId) (addr len : Nat) (done : Array UInt8) (c : Copied) :
    Prop where
  leads : m.Falters s IsStackPage n
  bytes : ∃ next, c.bytes = done ++ next ∧ (c.failure = none → next.size = len) ∧
    (∀ e, c.failure = some e → e = .badAddress (addr + next.size)) ∧ ∀ (i : Nat) b,
      next[i]? = some b → View.Seen (Act.Reads m.view n.view s) m.view n.view s (addr + i) b

structure Wrote (m n : Machine) (s : SpaceId) (addr : Addr) (data : Array UInt8) : Prop where
  leads : m.Leads (Act.Writes m.view s addr data fun va => n.view.page ⟨s, va⟩ = none) n
  seen : ∀ (i : Nat) b, data[i]? = some b →
    View.Seen (Act.Writes m.view s addr data fun va => n.view.page ⟨s, va⟩ = none) m.view n.view s
      (addr + i) b

section

variable {data : Array UInt8} {i : Nat} {b : UInt8} (hn : u.Falters s IsStackPage n)
include hn

theorem Gathers.reads (h : Gathers m u s addr data) (hi : data[i]? = some b) :
    View.Seen (Act.Reads m.view n.view s) m.view n.view s (addr + i) b := by
  obtain ⟨⟨w, hv, hw, hshows⟩, hstays⟩ := h.seen i b hi
  have hbefore (a : Act) (ha : a.Makes m.view s IsStackPage fun _ => False) : a.Reads m.view n.view s :=
    ha.mono fun _ => False.elim
  exact ⟨⟨w, hv.mono hbefore, (hw.mono hbefore).trans (hn.path.mono fun _ ha => ha.before h.makes.path), hshows⟩,
    hn.path.makes_present hstays⟩

theorem Scatters.wrote (h : Scatters m u s addr data) : Wrote m n s addr data := by
  have hbefore (a : Act) (ha : a.Writes m.view s addr data fun _ => False) :
      a.Writes m.view s addr data fun va => n.view.page ⟨s, va⟩ = none :=
    ha.imp_left fun ha => ha.mono fun _ => False.elim
  have hlater : u.Leads (Act.Writes m.view s addr data fun va => n.view.page ⟨s, va⟩ = none) n :=
    Leads.mono hn fun _ ha => .inl (ha.before_writes h.leads.path)
  refine ⟨(h.leads.mono hbefore).trans hlater, fun i b hi => ?_⟩
  obtain ⟨⟨w, hv, hw, hshows⟩, hstays⟩ := h.seen i b hi
  exact ⟨⟨w, hv.mono hbefore, (hw.mono hbefore).trans hlater.path, hshows⟩, hn.path.makes_present hstays⟩

end

theorem CutOff.falters {len count : Nat} {write : Bool} {e : PagingError} (hc : CutOff s addr len write u count e n)
    (h : u.Sound) (hs : (u.view.book s).isSome) : u.Falters s IsStackPage n :=
  ((yields_touchPage h hs _ write).of_error hc.fails).1

theorem yields_copyOut (h : m.Sound) (hs : (m.view.book s).isSome) (va len : Nat) :
    Yields (copyOut s va len) m (fun c n => Brought m n s va len #[] c) fun _ _ => False := by
  refine (yields_copyOut_exact (I := fun _ => True) h hs trivial (fun _ => ⟨fun _ _ => yields_any⟩) va len).mono ?_
    fun _ _ => id
  rintro c n (⟨-, rfl, rfl⟩ | ⟨-, u, -, hu, ⟨hfail, hsize, rfl⟩ | ⟨e, hfail, hcut⟩⟩)
  · exact ⟨(Makes.refl h.consistent).falters, #[], rfl, nofun, by simp, by simp⟩
  · have hn : n.Falters s IsStackPage n := (Makes.refl hu.makes.consistent).falters
    refine ⟨hu.makes.falters, c.bytes, (Array.empty_append ..).symm, fun _ => hsize, ?_, fun i b => hu.reads hn⟩
    simp [hfail]
  · have hn := hcut.falters (hu.makes.sound h) (hu.makes.live hs)
    refine ⟨hu.makes.falters_trans hn, c.bytes, (Array.empty_append ..).symm, ?_, ?_, fun i b => hu.reads hn⟩
    · simp [hfail]
    · rw [hfail]
      rintro _ ⟨⟩
      exact hcut.error_eq

theorem yields_copyIn (h : m.Sound) (hs : (m.view.book s).isSome) (va : Nat) (data : Array UInt8) :
    Yields (copyIn s va data) m (fun _ n => Wrote m n s va data)
      (Failing fun e n => ∃ done ≤ data.size, Wrote m n s va (data.extract 0 done) ∧
        e = .badAddress (va + done)) := by
  refine (yields_copyIn_exact (I := fun _ => True) h hs trivial (fun _ => ⟨fun _ _ => yields_any⟩)
    (fun _ _ _ _ => trivial) va data).mono ?_ ?_
  · exact fun _ n ⟨_, _, hn⟩ => hn.wrote (Makes.refl hn.leads.consistent).falters
  · refine fun e n hn => hn.mono fun e hn => ?_
    rcases hn with ⟨-, rfl, rfl⟩ | ⟨-, u, count, -, hu, hcut⟩
    · have hnone := (Scatters.nothing h.consistent (s := s) va).wrote (Makes.refl h.consistent).falters
      exact ⟨0, Nat.zero_le _, by simpa using hnone, rfl⟩
    · have hn := hcut.falters (hu.leads.sound h) (hu.leads.path.live (by simp [Act.Writes, Act.Makes]) hs)
      exact ⟨count, Nat.le_of_lt hcut.lt, hu.wrote hn, hcut.error_eq⟩

end Vm

end DemandPaging
