import DemandPaging.Proofs.Feeding
import DemandPaging.Proofs.FileBytes
import DemandPaging.Proofs.SegmentLayout

namespace DemandPaging

open Function (update)
open Step Machine

variable {hw : Hardware} {k l : List Turn} {m n : Machine} {t : Turn} {c : Call} {v w : View} {s : SpaceId} {va : Addr}
  {r : PageRef} {p : Page} {a : Act} {P : Act → Prop} {hd : Handle} {offset readBytes j pos : Nat} {wr : Bool}
  {id : FileId} {F : File}

def segmentBacking (hd : Handle) (offset readBytes j : Nat) : Backing :=
  ⟨hd, offset + j * pageSize, min (readBytes - j * pageSize) pageSize⟩

theorem state_segmentPage (wr : Bool) (hd : Handle) (offset readBytes j : Nat) :
    (segmentPage wr hd offset readBytes j).state =
      .untouched (some (.segment (segmentBacking hd offset readBytes j))) .anon :=
  rfl

theorem expected_segmentBacking (hd : Handle) (offset readBytes j : Nat) :
    (segmentBacking hd offset readBytes j).expected = min (readBytes - j * 4096) 4096 := by
  simp only [segmentBacking, Backing.expected, pageSize_eq]
  omega

def SegmentPart (F : File) (offset readBytes j : Nat) (page : Contents) : Prop :=
  ∀ i (hi : i < pageSize),
    if j * 4096 + i < readBytes then F.bytes[offset + (j * 4096 + i)]? = some page[i] else page[i] = 0

theorem segmentPart_image (h : (segmentBacking hd offset readBytes j).Within F) :
    SegmentPart F offset readBytes j ((segmentBacking hd offset readBytes j).image F) := by
  intro i hi
  have hexpected := expected_segmentBacking hd offset readBytes j
  have hi' : i < 4096 := hi
  rw [Backing.getElem_image]
  split
  · rename_i hin
    have hlt : i < (segmentBacking hd offset readBytes j).expected := by omega
    have hsize : offset + (j * 4096 + i) < F.bytes.size := by
      rw [← Nat.add_assoc]
      exact h i hlt
    have hplace : (segmentBacking hd offset readBytes j).offset + i = offset + (j * 4096 + i) := Nat.add_assoc ..
    rw [if_pos hlt, hplace, Array.getElem?_eq_getElem hsize, Option.getD_some]
  · rw [if_neg (by omega)]

/-- Page `j` of a segment is made resident exactly if there is a frame that a page table can name, and the file then
returns the page's share of the segment's bytes. It holds its part of the segment then, and is anonymous. That too few
bytes were read is said exactly if the file returns less than the share. Whatever is said, the page is as it was. -/
structure Machine.Materializes (m : Machine) (s : SpaceId) (va : Addr) (hd : Handle) (offset readBytes : Nat)
    (wr : Bool) (j : Nat) : Prop where
  ok_iff : (∃ n, (Vm.makeResident s va).run m = .ok () n) ↔ ∃ f z, Vm.acquire.run m = .ok f z ∧ f.index < 0x100000 ∧
    ((z.file hd.file).read (offset + j * 4096) (min (readBytes - j * 4096) 4096)).1.size =
      min (readBytes - j * 4096) 4096
  short_iff : ∀ want got, (∃ n, (Vm.makeResident s va).run m = .error (.error (.storage (.shortRead want got))) n) ↔
    want = min (readBytes - j * 4096) 4096 ∧ got < want ∧ ∃ f z, Vm.acquire.run m = .ok f z ∧ f.index < 0x100000 ∧
      got = ((z.file hd.file).read (offset + j * 4096) want).1.size
  filled : ∀ n, (Vm.makeResident s va).run m = .ok () n → ∃ f z, Vm.acquire.run m = .ok f z ∧
    n.page? ⟨s, va⟩ = some ⟨wr, some f, .anon none false⟩ ∧
    SegmentPart (z.file hd.file) offset readBytes j (n.view.bytes f)
  lazy : ∀ e n, (Vm.makeResident s va).run m = .error e n → n.page? ⟨s, va⟩ = m.page? ⟨s, va⟩

theorem returned_segmentBacking (hd : Handle) (offset readBytes j : Nat) (F : File) :
    (segmentBacking hd offset readBytes j).returned F =
      (F.read (offset + j * 4096) (min (readBytes - j * 4096) 4096)).1.size := by
  rw [Backing.returned, expected_segmentBacking]
  rfl

theorem materializes (h : m.Sound) (hp : m.page? ⟨s, va⟩ = some (segmentPage wr hd offset readBytes j)) :
    m.Materializes s va hd offset readBytes wr j := by
  obtain ⟨hlive, ha, -⟩ := h.coherent.placed (r := ⟨s, va⟩) hp
  have hpage : m.view.page ⟨s, pageBase va⟩ = some (segmentPage wr hd offset readBytes j) := by
    rwa [pageBase_of_aligned ha]
  have hst := state_segmentPage wr hd offset readBytes j
  have hmade := Vm.yields_makeResident_segment h hpage hst
  rw [pageBase_of_aligned ha] at hmade
  -- The share of the page, and what the file returns of it, are those of its backing.
  have hexpected := expected_segmentBacking hd offset readBytes j
  have hreturned := returned_segmentBacking hd offset readBytes j
  refine ⟨⟨?_, ?_⟩, fun want got => ⟨?_, ?_⟩, fun n hn => ?_, fun e n hn => ?_⟩
  · rintro ⟨n, hn⟩
    obtain ⟨f, z, hz, hindex, hread, -⟩ := hmade.of_ok hn
    rw [hreturned, hexpected] at hread
    exact ⟨f, z, hz, hindex, hread⟩
  · rintro ⟨f, z, hz, hindex, hread⟩
    rw [← hreturned, ← hexpected] at hread
    cases hrun : (Vm.makeResident s va).run m with
    | ok _ n => exact ⟨n, rfl⟩
    | error e n =>
        obtain ⟨e', -, hwhy⟩ := Vm.shortfall_of_error h hpage hst hz hindex hrun
        exact absurd hread (Nat.ne_of_lt (Backing.shortfall_eq_some_iff.1 hwhy).1)
  · rintro ⟨n, hn⟩
    obtain ⟨rfl, hlt, f, z, hz, hindex, rfl⟩ := Vm.acquired_of_shortRead h hpage hst hn
    refine ⟨hexpected, hlt, f, z, hz, hindex, ?_⟩
    rw [hexpected]
    exact hreturned _
  · rintro ⟨rfl, hlt, f, z, hz, hindex, rfl⟩
    rw [← hreturned, ← hexpected] at hlt ⊢
    cases hrun : (Vm.makeResident s va).run m with
    | ok _ n =>
        obtain ⟨f', z', hacquire, -, hread, -⟩ := hmade.of_ok hrun
        rw [hz] at hacquire
        cases hacquire
        exact absurd hread (Nat.ne_of_lt hlt)
    | error e n =>
        obtain ⟨e', rfl, hwhy⟩ := Vm.shortfall_of_error h hpage hst hz hindex hrun
        exact ⟨n, by rw [(Backing.shortfall_eq_some_iff.1 hwhy).2]; rfl⟩
  · obtain ⟨f, z, hz, -, hread, hfilled, hbytes⟩ := hmade.of_ok hn
    refine ⟨f, z, hz, hfilled, ?_⟩
    rw [hbytes]
    exact segmentPart_image (Backing.within_of_returned hread)
  · obtain ⟨e, rfl, hleads, -⟩ := ((Vm.yields_makeResident h hlive va).of_error hn).error
    refine hleads.path.page_eq fun q hq => ?_
    obtain rfl := Option.some.inj (hq.symm.trans hp)
    exact h.coherent.frame_of_untouched hq hst

/-- In the turn `t`, the page `p` at `r` comes into a frame for the first time, between `v` and `w`. -/
structure Turn.FirstLoads (t : Turn) (r : PageRef) (p : Page) (v w : View) : Prop where
  named : r.space ∈ t.call.spaces
  before : View.Path t.May t.before.view v
  page : v.page r = some p
  load : v.Step (.loaded r) w
  after : View.Path t.May w t.after.view

theorem View.Path.first_load (h : View.Path t.May v w) (hl : t.Leaves r) (hp : v.page r = some p)
    (hf : p.frame = none) : w.page r = some p ∨ ∃ u z, t.May (.loaded r) ∧ View.Path t.May v u ∧
      u.page r = some p ∧ u.Step (.loaded r) z ∧ View.Path t.May z w := by
  induction h with
  | refl => exact .inl hp
  | @tail u w hu hs ih =>
      obtain ⟨a, ha, hs⟩ := hs
      rcases ih with hpu | ⟨x, z, hmay, hx, hpx, hload, hz⟩
      · by_cases hload : a = .loaded r
        · subst hload
          exact .inr ⟨u, w, ha, hu, hpu, hs, .refl⟩
        · refine .inl (hs.kept hpu hf hload ?_ ?_)
          · rintro saved rfl
            exact hl.removed saved ha
          · rintro rfl
            exact hl.dropped ha
      · exact .inr ⟨x, z, hmay, hx, hpx, hload, hz.step ha hs⟩

theorem Call.spaces_of_puts {g : File → File} (h : c.Puts v id g) : c.spaces = [] := by
  cases c with
  | newFile | limitFile | overwrite => rfl
  | _ => exact h.elim

theorem segment_turn (h : m.Sound) (hc : ∀ s ∈ c.spaces, (m.space? s).isSome)
    (hp : m.view.page r = some (segmentPage wr hd offset readBytes j))
    (hpresent : ((c.turn m).after.view.page r).isSome) :
    (c.turn m).after.view.page r = some (segmentPage wr hd offset readBytes j) ∨
      (∃ q, (c.turn m).after.view.page r = some q ∧ q.kind = .anon) ∧
        ∃ v w b, (c.turn m).FirstLoads r (segmentPage wr hd offset readBytes j) v w ∧ w.cell r = some b ∧
          SegmentPart (v.fileAt hd.file) offset readBytes j b := by
  obtain ⟨q, hq⟩ := Option.isSome_iff_exists.1 hpresent
  have hl := leaves_of_present h hc hq
  have hpath := path_turn h hc
  rcases awaits_turn h hc hp (state_segmentPage ..) hpresent with hlazy | hwithin
  · exact .inl hlazy
  rcases hpath.first_load hl hp rfl with hlazy | ⟨v, w, hmay, hv, hpv, hload, hw⟩
  · exact .inl hlazy
  -- The turn names the space of the page, so it is none that changes files past all pages: no file changes its size.
  have hnamed : r.space ∈ (c.turn m).call.spaces := hmay
  have hput (id : FileId) (g : File → File) : ¬ (c.turn m).May (.put id g) := by
    intro hputs
    rw [Call.spaces_of_puts hputs] at hnamed
    cases hnamed
  have hsize : (v.fileAt hd.file).bytes.size = ((c.turn m).after.view.fileAt hd.file).bytes.size :=
    (hv.file_same hput hd.file).size.trans (hpath.file_same hput hd.file).size.symm
  have hloaded : ∃ f, w.page r = some ⟨wr, some f, .anon none false⟩ ∧
      w.bytes f = (segmentBacking hd offset readBytes j).image (v.fileAt hd.file) := by
    cases hload with
    | @loaded f _ p b hpv' _ _ hb =>
        obtain rfl := Option.some.inj (hpv.symm.trans hpv')
        exact ⟨f, Function.update_self .., (Function.update_self ..).trans hb⟩
  obtain ⟨f, hpw, hbytes⟩ := hloaded
  have hfirst : (c.turn m).FirstLoads r (segmentPage wr hd offset readBytes j) v w :=
    ⟨hnamed, by rwa [before_turn], hpv, hload, hw⟩
  refine .inr ⟨hw.kind_eq hl hpw nofun, v, w, w.bytes f, hfirst, View.cell_of_frame hpw rfl, ?_⟩
  rw [hbytes]
  exact segmentPart_image (hwithin.congr (hsize.trans (by rw [fileAt_view]; rfl)))

/-- A page of a segment that is never removed is still to be filled, or was filled with its part of the segment in one
of the turns since, and is anonymous. -/
theorem Runs.segment_page (h : Runs hw (k ++ t :: l) m)
    (hp : t.after.view.page r = some (segmentPage wr hd offset readBytes j))
    (hstays : ∀ x ∈ k, (x.after.page? r).isSome) :
    m.view.page r = some (segmentPage wr hd offset readBytes j) ∨
      (∃ q, m.view.page r = some q ∧ q.kind = .anon) ∧
        ∃ x ∈ k, ∃ v w b, x.FirstLoads r (segmentPage wr hd offset readBytes j) v w ∧ w.cell r = some b ∧
          SegmentPart (v.fileAt hd.file) offset readBytes j b := by
  induction k generalizing m with
  | nil =>
      cases h
      exact .inl hp
  | cons x k ih =>
      rw [List.cons_append] at h
      cases h with
      | @turn _ n h c hlive =>
          have hpresent := hstays _ (List.mem_cons_self ..)
          rcases ih h fun x hx => hstays x (List.mem_cons_of_mem _ hx) with hlazy | ⟨⟨q, hq, hqk⟩, x, hx, hfirst⟩
          · exact (segment_turn h.sound hlive hlazy hpresent).imp_right fun ⟨hanon, hfirst⟩ =>
              ⟨hanon, _, List.mem_cons_self .., hfirst⟩
          · obtain ⟨o, ho⟩ := Option.isSome_iff_exists.1 hpresent
            have hl := leaves_of_present h.sound hlive ho
            obtain ⟨q', hq', hk⟩ := (path_turn h.sound hlive).kind_eq hl hq (by simp [hqk])
            exact .inr ⟨⟨q', hq', hk.trans hqk⟩, x, List.mem_cons_of_mem _ hx, hfirst⟩

namespace View

theorem Step.file_changed (h : v.Step a w) (hne : (w.fileAt id).bytes[pos]? ≠ (v.fileAt id).bytes[pos]?) :
    (∃ g, a = .put id g) ∨ ∃ r p b, v.page r = some p ∧ p.state = .file b ∧ b.Covers id pos := by
  cases h with
  | called i =>
      refine absurd ?_ hne
      by_cases hid : i = id
      · subst hid
        simp only [fileAt, Function.update_self]
        cases v.file i <;> rfl
      · simp only [fileAt, Function.update_of_ne (Ne.symm hid)]
  | flushed hp hs | cut hp hs =>
      exact .inr ⟨_, _, _, hp, hs, by_contra fun hcov => hne (byte_of_save rfl hcov)⟩
  | put i g =>
      by_cases hid : i = id
      · subst hid
        exact .inl ⟨g, rfl⟩
      · exact absurd (by simp only [fileAt, Function.update_of_ne (Ne.symm hid)]) hne
  | _ => exact absurd rfl hne

theorem Path.file_changed (h : Path P v w) (hne : (w.fileAt id).bytes[pos]? ≠ (v.fileAt id).bytes[pos]?) :
    (∃ g, P (.put id g)) ∨
      ∃ u r p b, Path P v u ∧ Path P u w ∧ u.page r = some p ∧ p.state = .file b ∧ b.Covers id pos := by
  induction h with
  | refl => exact absurd rfl hne
  | @tail u w hu hs ih =>
      obtain ⟨a, ha, hs⟩ := hs
      have hlast : Path P u w := hs.path ha
      by_cases heq : (u.fileAt id).bytes[pos]? = (v.fileAt id).bytes[pos]?
      · rcases hs.file_changed (heq ▸ hne) with ⟨g, rfl⟩ | ⟨r, p, b, hp, hst, hcov⟩
        · exact .inl ⟨g, ha⟩
        · exact .inr ⟨u, r, p, b, hu, hlast, hp, hst, hcov⟩
      · exact (ih heq).imp_right fun ⟨z, r, p, b, hz, hzu, hp⟩ => ⟨z, r, p, b, hz, hzu.trans hlast, hp⟩

end View

/-- A page of a segment is never backed by a file to be written to. -/
theorem Runs.segment_unbacked (h : Runs hw (k ++ t :: l) m)
    (hp : t.after.view.page r = some (segmentPage wr hd offset readBytes j))
    (hstays : ∀ x ∈ k, (x.after.page? r).isSome) : ∃ q, m.view.page r = some q ∧ q.backing? = none := by
  rcases h.segment_page hp hstays with hlazy | ⟨⟨q, hq, hk⟩, -⟩
  · exact ⟨_, hlazy, rfl⟩
  · refine ⟨q, hq, ?_⟩
    cases hst : q.state <;> simp [Page.kind, Page.backing?, hst] at hk ⊢

end DemandPaging
