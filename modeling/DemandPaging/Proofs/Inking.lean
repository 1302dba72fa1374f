import DemandPaging.Proofs.Soiling

namespace DemandPaging

open Function (update)
open Step Machine

variable {m n u z : Machine} {s child parent : SpaceId} {sp : Space} {addr va : Addr} {f : FrameId} {p q : Page}
  {r : PageRef} {total done : Nat} {L S : PageRef → Prop}

def Touched (s : SpaceId) (addr : Addr) (len : Nat) (r : PageRef) : Prop :=
  r.space = s ∧ ∃ i < len, r.va = pageBase (addr + i)

theorem Touched.after {chunk : Nat} (h : Touched s (addr + chunk) done r) : Touched s addr (chunk + done) r := by
  obtain ⟨hs, i, hi, hva⟩ := h
  exact ⟨hs, chunk + i, by omega, by rw [hva, Nat.add_assoc]⟩

namespace Machine

/-- The first `done` of `total` bytes were written from `addr` on, and every page that they went through is dirty if it
is a file page that is still in a frame. -/
structure Inks (m : Machine) (s : SpaceId) (addr : Addr) (total done : Nat) (n : Machine) : Prop where
  treads : m.Treads (Deed.Within (Touched s addr total) (Touched s addr done)) n
  unclean : ∀ r, Touched s addr done r → n.view.clean r = false

theorem Inks.nothing (h : m.Treads (Deed.Within (Touched s addr total) fun _ => False) n) : m.Inks s addr total 0 n :=
  ⟨h.mono fun _ hd => hd.mono (fun _ => id) fun _ => False.elim, by
    rintro r ⟨-, i, hi, -⟩
    exact absurd hi (Nat.not_lt_zero i)⟩

/-- Once a page was written to, the rest of the write does not load it again. -/
theorem Inks.chunk {chunk : Nat} (hpos : 0 < chunk) (hend : pageOffset addr + chunk ≤ pageSize) (htotal : chunk ≤ total)
    (hmore : chunk < total → pageOffset addr + chunk = pageSize)
    (hn : m.Treads (Deed.Within (Touched s addr total) (· = ⟨s, pageBase addr⟩)) n)
    (hclean : n.view.clean ⟨s, pageBase addr⟩ = false) (hz : n.Inks s (addr + chunk) (total - chunk) done z) :
    m.Inks s addr total (chunk + done) z where
  treads := by
    refine (hn.mono fun d hd => hd.mono (fun _ => id) ?_).trans (hz.treads.mono fun d hd => hd.mono ?_ fun _ => .after)
    · rintro _ rfl
      exact ⟨rfl, 0, by omega, rfl⟩
    · intro o ho
      have hafter := ho.after
      rwa [Nat.add_sub_cancel' htotal] at hafter
  unclean := by
    rintro ⟨t, b⟩ ⟨rfl, i, hi, hb⟩
    dsimp only at hb
    by_cases hlt : i < chunk
    · rw [pageBase_add (by omega)] at hb
      subst hb
      refine hz.treads.deeds.unclean (fun hload => ?_) hclean
      obtain ⟨-, j, hj, heq⟩ := hload rfl
      have hfull := hmore (by omega)
      simp only [pageBase_eq, pageOffset_eq, pageSize_eq] at heq hfull
      dsimp only [Addr] at heq hfull
      omega
    · refine hz.unclean _ ⟨rfl, i - chunk, by omega, ?_⟩
      rw [Nat.add_assoc, Nat.add_sub_cancel' (Nat.not_lt.1 hlt)]
      exact hb

end Machine

namespace Vm

/-- A page that was touched to be written is open; one that could not be touched is not dirty for it. -/
theorem treads_touchPage (h : m.Sound) (hs : (m.view.book s).isSome) (addr : Addr) (hL : L ⟨s, pageBase addr⟩) :
    Yields (touchPage s addr true) m
      (fun c n => m.Treads (Deed.Within L (· = ⟨s, pageBase addr⟩)) n ∧ (n.view.book s).isSome ∧
        n.view.Open ⟨s, pageBase addr⟩ c.1 true ∧ c.2 = n.view.bytes c.1)
      (Failing fun e n => m.Treads (Deed.Within L fun _ => False) n ∧ e = .badAddress addr) := by
  unfold touchPage
  refine ((treads_frameFor h hL true 2).and (yields_frameFor h hs addr true 2 (.inl (Nat.le_refl _)))).bind ?_ ?_
  · rintro f n ⟨hn, hmakes, hopen⟩
    refine yields_bind.2 ((yields_contents hn.sound.consistent (hn.sound.present_of_open hopen)).2 (yields_pure.2
      ⟨hn.mono fun d hd => hd.mono (fun _ => id) fun _ => And.right, hmakes.live hs, hopen, rfl⟩))
  · rintro e n ⟨hn, he⟩
    obtain ⟨e, rfl, -, rfl⟩ := he.error
    exact ⟨hn, rfl⟩

theorem inks_writePages (h : m.Sound) (hs : (m.view.book s).isSome) (k addr : Nat) (data : Array UInt8)
    (hk : pagesTouched addr data.size = k) (hw : addr + data.size < wordLimit) :
    Yields (writePages s k addr data) m (fun _ n => m.Inks s addr data.size data.size n)
      (Failing fun e n => ∃ done ≤ data.size, m.Inks s addr data.size done n ∧ e = .badAddress (addr + done)) := by
  induction k generalizing m addr data with
  | zero =>
      rw [pagesTouched_eq_zero_iff.1 hk]
      exact yields_pure.2 (.nothing (.refl h))
  | succ k ih =>
      have hsize : data.size ≠ 0 := fun hz => by
        rw [pagesTouched_eq_zero_iff.2 hz] at hk
        cases hk
      rw [pagesTouched_eq_succ hsize, Nat.add_right_cancel_iff] at hk
      have hoff := pageOffset_lt addr
      unfold writePages
      dsimp only
      generalize hc : min data.size (pageSize - pageOffset addr) = chunk at hk
      refine (treads_touchPage (L := Touched s addr data.size) h hs addr ⟨rfl, 0, by omega, rfl⟩).bind ?_ ?_
      · rintro ⟨f, page⟩ n ⟨hn, hlive, hopen, hpage⟩
        dsimp only at hpage hopen ⊢
        subst hpage
        have hpresent := hn.sound.present_of_open hopen
        have hu := hn.sound.consistent.withBytes f
          ((n.view.bytes f).overlay (pageOffset addr) (data.extract 0 chunk))
        have huv := view_withBytes hn.sound.consistent hpresent
          ((n.view.bytes f).overlay (pageOffset addr) (data.extract 0 chunk))
        rw [yields_bind, yields_setContents hn.sound.consistent hpresent, yields_bind, yields_word, if_pos (by omega)]
        generalize n.withBytes f ((n.view.bytes f).overlay (pageOffset addr) (data.extract 0 chunk)) = u at hu huv
        have hstored := stored hopen hu huv
        have hsound := hstored.sound hn.sound
        have hfirst : m.Treads (Deed.Within (Touched s addr data.size) (· = ⟨s, pageBase addr⟩)) u := by
          refine hn.trans (.idle hsound ?_)
          rw [huv]
          exact View.idles_of_eq rfl rfl rfl rfl
        have hclean : u.view.clean ⟨s, pageBase addr⟩ = false := by
          obtain ⟨-, -, -, hd⟩ := hopen
          refine View.clean_of_entry ?_
          rw [huv]
          exact hd rfl
        have hrest : (data.extract chunk data.size).size = data.size - chunk := by
          rw [Array.size_extract]
          omega
        have hwhole {done : Nat} {z : Machine} (hz : u.Inks s (addr + chunk) (data.size - chunk) done z) :
            m.Inks s addr data.size (chunk + done) z :=
          hz.chunk (by omega) (by omega) (by omega) (by omega) hfirst hclean
        refine (ih hsound (hstored.path.live (by simp) hlive) _ _ (by rwa [hrest]) (by rw [hrest]; omega)).mono ?_ ?_
        · intro _ z hz
          rw [hrest] at hz
          have hall := hwhole hz
          rwa [Nat.add_sub_cancel' (by omega)] at hall
        · refine fun e z hz => hz.mono fun e hz => ?_
          obtain ⟨done, hdone, hz, he⟩ := hz
          rw [hrest] at hdone hz
          exact ⟨chunk + done, by omega, hwhole hz, by rw [he, Nat.add_assoc]⟩
      · exact fun e n hn => hn.mono fun e hn => ⟨0, Nat.zero_le _, .nothing hn.1, hn.2⟩

theorem inks_copyIn (h : m.Sound) (hs : (m.view.book s).isSome) (va : Nat) (data : Array UInt8) :
    Yields (copyIn s va data) m (fun _ n => m.Inks s va data.size data.size n)
      (Failing fun e n => ∃ done ≤ data.size, m.Inks s va data.size done n ∧ e = .badAddress (va + done)) := by
  unfold copyIn
  split
  · exact inks_writePages h hs _ va data rfl ‹_›
  · exact yields_fail.2 ⟨0, Nat.zero_le _, .nothing (.refl h), rfl⟩

end Vm

end DemandPaging
