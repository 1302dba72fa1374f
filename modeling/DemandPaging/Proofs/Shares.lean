import DemandPaging.Proofs.Loading

namespace DemandPaging

open Step Machine

variable {m n : Machine} {s : SpaceId} {va : Addr} {f : FrameId} {p : Page} {b : Backing} {F : File}
  {purpose : Purpose} {r : PageRef} {e : PagingError}

namespace Backing

def returned (b : Backing) (F : File) : Nat := (F.read b.offset b.expected).1.size

def shortfall (b : Backing) (F : File) : Option PagingError :=
  if b.returned F = b.expected then none else some (.storage (.shortRead b.expected (b.returned F)))

def Within (b : Backing) (F : File) : Prop := ∀ i < b.expected, b.offset + i < F.bytes.size

theorem shortfall_eq_none_iff : b.shortfall F = none ↔ b.returned F = b.expected := by
  unfold shortfall
  split <;> simp_all

theorem capped_le (limit : Option Nat) (n : Nat) : capped limit n ≤ n := by
  unfold capped
  cases limit with
  | none => exact Nat.le_refl n
  | some k => exact Nat.min_le_right k n

theorem returned_le (b : Backing) (F : File) : b.returned F ≤ b.expected := by
  have hcap := capped_le (F.limits F.calls).read b.expected
  simp only [returned, File.read, File.slice, File.reach, Array.size_extract]
  split <;> omega

theorem within_of_returned (h : b.returned F = b.expected) : b.Within F := by
  intro i hi
  have hcap := capped_le (F.limits F.calls).read b.expected
  simp only [returned, File.read, File.slice, File.reach, Array.size_extract] at h
  split at h <;> omega

theorem shortfall_eq_some_iff : b.shortfall F = some e ↔
    b.returned F < b.expected ∧ e = .storage (.shortRead b.expected (b.returned F)) := by
  have hle := b.returned_le F
  unfold shortfall
  split
  · exact iff_of_false nofun fun h => by omega
  · rw [Option.some_inj, eq_comm]
    exact (and_iff_right (by omega)).symm

theorem load_failure (b : Backing) (F : File) : ∃ r, b.load F (Buffer.zero pageSize) =
    .ok (r, { F with calls := F.calls + 1 }) ∧ r.failure = b.shortfall F := by
  unfold load
  rw [if_neg (Nat.not_lt.2 b.expected_le)]
  dsimp only
  split
  · exact ⟨_, rfl, (shortfall_eq_none_iff.2 ‹_›).symm⟩
  · exact ⟨_, rfl, (if_neg ‹_›).symm⟩

end Backing

namespace Vm

theorem yields_load_failure (h : m.Consistent) (b : Backing) :
    Yields (load b (Buffer.zero pageSize)) m
      (fun r n => n.Consistent ∧ n.frames = m.frames ∧ r.failure = b.shortfall (m.file b.handle.file))
      fun _ _ => False := by
  obtain ⟨r, hr, hfail⟩ := b.load_failure (m.file b.handle.file)
  unfold load
  rw [yields_bind, yields_get, yields_bind, yields_ofPanic, hr]
  exact yields_bind.2 (yields_putFile.2 (yields_pure.2 ⟨h.withFile _ _, rfl, hfail⟩))

theorem yields_bringIn_segment (h : m.Sound) (hp : m.view.page ⟨s, va⟩ = some p)
    (hst : p.state = .untouched (some (.segment b)) purpose) (hpin : m.view.status f = .pinned)
    (hz : m.view.bytes f = Buffer.zero _) :
    Yields (bringIn s va f) m
      (fun _ _ => f.index < 0x100000 ∧ b.returned (m.file b.handle.file) = b.expected)
      (Failing fun e _ => if f.index < 0x100000 then b.shortfall (m.file b.handle.file) = some e
        else e = .badAddress va) := by
  obtain ⟨sp, hsp⟩ := space?_of_page hp
  obtain ⟨-, ha, huser⟩ := h.coherent.placed hp
  have hf : p.frame = none := h.coherent.frame_of_untouched hp hst
  have hpresent : m.view.status f ≠ .absent := by simp [hpin]
  unfold bringIn
  rw [yields_bind, yields_space hsp, Space.page?, pageBase_of_aligned ha, ← page_eq hsp, hp]
  dsimp only
  obtain ⟨hindex, t, ht, hc, -⟩ | ⟨hge, hnone⟩ := h.consistent.map_cases hsp ha huser
    (h.coherent.entry_of_out hp hf) (h.consistent.index_lt hpresent) p.writable
  · rw [ht]
    have hframes : (m.withSpace s fun sp => { sp with table := t }).frames = m.frames := rfl
    have hfiles : (m.withSpace s fun sp => { sp with table := t }).file b.handle.file = m.file b.handle.file := rfl
    refine yields_bind.2 (yields_modifyTable.2 ?_)
    generalize m.withSpace s (fun sp => { sp with table := t }) = n at hc hframes hfiles
    have hbytes : n.view.bytes f = Buffer.zero _ := by rw [← hz, view, view, hframes]
    rw [yields_bind, yields_contents hc (by rwa [view, hframes]), hbytes]
    simp only [fillPage, hst, runFilling, if_pos hindex]
    refine yields_bind.2 ((yields_load_failure hc b).mono (fun r u hr => ?_) fun _ _ => False.elim)
    obtain ⟨hu, huframes, hr⟩ := hr
    rw [hfiles] at hr
    rw [yields_bind, yields_setContents hu (by rwa [view, huframes, hframes])]
    cases hfail : r.failure with
    | none => exact yields_bind.2 (yields_modifySpace.2 (yields_emit.2
        ⟨hindex, Backing.shortfall_eq_none_iff.1 (hr.symm.trans hfail)⟩))
    | some e => exact yields_bind.2 (yields_modifyTable.2 (yields_fail.2 (hr.symm.trans hfail)))
  · rw [hnone]
    refine yields_fail.2 ?_
    change if f.index < 0x100000 then _ else _
    rw [if_neg (Nat.not_lt.2 hge)]

theorem Transfers.ne_shortRead {dirty : Bool} {page : Contents} (h : Transfers m p dirty page n (some e))
    (hm : m.Consistent) (want got : Nat) : e ≠ .storage (.shortRead want got) := by
  rintro rfl
  generalize he : some (PagingError.storage (.shortRead want got)) = o at h
  cases h with
  | refused hs hstore =>
      cases he
      rcases ((hm.swap.store page).of_error hstore).2.1 with hfull | ⟨d, hd⟩
      · cases hfull
      · cases hd
  | written =>
      unfold Backing.written at he
      split at he <;> cases he
  | stored | clean => cases he

/-- Nothing is read from a file to find a frame. -/
theorem Refuses.ne_shortRead (h : Refuses m e n) (hm : m.Consistent) (want got : Nat) :
    e ≠ .storage (.shortRead want got) := by
  cases h with
  | bare he => simp [he]
  | unsaved _ _ _ _ _ htransfer => exact htransfer.ne_shortRead hm want got

/-- A page that is filled from a file is made resident once there is a frame, if a page table can name the frame and
the file returns all that the page has of it. -/
theorem yields_makeResident_segment (h : m.Sound) (hp : m.view.page ⟨s, pageBase va⟩ = some p)
    (hst : p.state = .untouched (some (.segment b)) purpose) :
    Yields (makeResident s va) m
      (fun _ u => ∃ f n, acquire.run m = .ok f n ∧ f.index < 0x100000 ∧
        b.returned (n.file b.handle.file) = b.expected ∧
        u.view.page ⟨s, pageBase va⟩ = some ⟨p.writable, some f, purpose.state⟩ ∧
        u.view.bytes f = b.image (n.file b.handle.file))
      (Failing fun e u => (acquire.run m = .error (.error e) u ∧ ∀ want got, e ≠ .storage (.shortRead want got)) ∨
        ∃ f n, acquire.run m = .ok f n ∧ if f.index < 0x100000 then b.shortfall (n.file b.handle.file) = some e
          else e = .badAddress (pageBase va)) := by
  obtain ⟨sp, hsp⟩ := space?_of_page hp
  have hf : p.frame = none := h.coherent.frame_of_untouched hp hst
  unfold makeResident
  dsimp only
  rw [yields_bind, yields_space hsp, Space.page?, pageBase_pageBase, ← page_eq hsp, hp]
  dsimp only
  rw [Page.isResident, hf]
  generalize pageBase va = a at hp
  refine ((yields_acquire h).and (yields_acquire_grants h)).run_eq.bind ?_ ?_
  · rintro f n ⟨hrun, -, hn, hz⟩
    have hsound := hn.toGoes.sound h
    have hpn : n.view.page ⟨s, a⟩ = some p := by
      rw [hn.path.page_eq, hp]
      rw [hp]
      rintro _ ⟨⟩
      exact hf
    have hbring := (yields_bringIn_segment hsound hpn hst hn.status_eq hz).and
      (yields_bringIn hsound hpn hf hn.status_eq hz)
    refine yields_bind.2 (yields_attempt.2 (hbring.mono ?_ ?_))
    · rintro _ u ⟨⟨hindex, hread⟩, hu, -, v, c, -, -, hstatus, ⟨hbrings, hsame⟩, hview⟩
      refine (yields_install hu (by rw [hview, hstatus]; exact hn.status_eq) ⟨s, a⟩).mono ?_ fun _ _ => False.elim
      rintro _ z ⟨-, hz⟩
      rw [hz, hview]
      refine ⟨f, n, hrun, hindex, hread, (Function.update_self ..).trans ?_, (Function.update_self ..).trans ?_⟩
      · rw [hst, residentState]
      · rw [View.Brings, hst] at hbrings
        exact Eq.trans hbrings (b.image_congr (hsame _))
    · rintro e u ⟨he, hu⟩
      obtain ⟨err, rfl, he⟩ := he.error
      refine (yields_release hu.2.1.consistent ((hu.2.1.pinned f).2 hn.status_eq)).bind ?_ fun _ _ => False.elim
      exact fun _ _ _ => yields_fail.2 (.inr ⟨f, n, hrun, he⟩)
  · rintro e n ⟨hrun, hrefused, -⟩
    obtain ⟨err, rfl, -, -, hrefused⟩ := hrefused.error
    exact .inl ⟨hrun, hrefused.ne_shortRead h.consistent⟩

section

variable (h : m.Sound) (hp : m.view.page ⟨s, pageBase va⟩ = some p)
  (hst : p.state = .untouched (some (.segment b)) purpose)
include h hp hst

/-- Once there is a frame that a page table can name, only the file keeps the page from being made resident. -/
theorem shortfall_of_error {stop : Stop} {z : Machine} (hz : acquire.run m = .ok f z) (hindex : f.index < 0x100000)
    (hn : (makeResident s va).run m = .error stop n) :
    ∃ e, stop = .error e ∧ b.shortfall (z.file b.handle.file) = some e := by
  obtain ⟨e, rfl, ⟨hacquire, -⟩ | ⟨f', z', hacquire, hwhy⟩⟩ :=
    ((yields_makeResident_segment h hp hst).of_error hn).error
  · rw [hz] at hacquire
    cases hacquire
  · rw [hz] at hacquire
    cases hacquire
    rw [if_pos hindex] at hwhy
    exact ⟨e, rfl, hwhy⟩

theorem acquired_of_shortRead {want got : Nat}
    (hn : (makeResident s va).run m = .error (.error (.storage (.shortRead want got))) n) :
    want = b.expected ∧ got < want ∧ ∃ f z, acquire.run m = .ok f z ∧ f.index < 0x100000 ∧
      got = b.returned (z.file b.handle.file) := by
  obtain ⟨e, heq, ⟨-, hne⟩ | ⟨f, z, hacquire, hwhy⟩⟩ := ((yields_makeResident_segment h hp hst).of_error hn).error
  · cases heq
    exact absurd rfl (hne want got)
  · cases heq
    split at hwhy
    · obtain ⟨hlt, heq⟩ := Backing.shortfall_eq_some_iff.1 hwhy
      cases heq
      exact ⟨rfl, hlt, f, z, hacquire, ‹_›, rfl⟩
    · cases hwhy

end

end Vm

end DemandPaging
