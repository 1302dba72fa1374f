import DemandPaging.Proofs.Regions

namespace DemandPaging

open Machine

variable {hw : Hardware} {l : List Turn} {m : Machine} {t : Turn} {v w : View} {s : SpaceId} {start addr : Addr}
  {r : PageRef} {k : Nat}

theorem pages_between {a b : Nat} (ha : isPageAligned a = true) (hb : isPageAligned b = true) (h : a ≤ b) :
    ∃ j, b = a + j * pageSize := by
  rw [isPageAligned_iff] at ha hb
  refine ⟨(b - a) / 4096, ?_⟩
  rw [pageSize_eq]
  omega

structure Spans (s : SpaceId) (start : Addr) (k : Nat) (r : PageRef) : Prop where
  space : r.space = s
  le : start ≤ r.va
  lt : r.va < start + k * pageSize

theorem View.InRegion.spans (h : v.InRegion s start r) (hc : Charted l v) (hk : inForce? l s start = some k) :
    Spans s start k r := by
  obtain ⟨g, j, hg, hj, rfl⟩ := h
  rw [← hc.pages, hg] at hk
  obtain rfl := Option.some.inj hk
  exact ⟨rfl, Nat.le_add_right .., Nat.add_lt_add_left (Nat.mul_lt_mul_of_pos_right hj (by decide)) _⟩

theorem Spans.inRegion (h : Spans s start k r) (hc : Charted l v) (hk : inForce? l s start = some k)
    (hr : isPageAligned r.va = true) : v.InRegion s start r := by
  have ha := (hc.placed s start k hk).aligned
  rw [← hc.pages] at hk
  obtain ⟨g, hg, rfl⟩ := Option.map_eq_some_iff.1 hk
  obtain ⟨s', va⟩ := r
  obtain ⟨rfl, hle, hlt⟩ := h
  obtain ⟨j, rfl⟩ := pages_between ha hr hle
  exact ⟨g, j, hg, Nat.lt_of_mul_lt_mul_right (Nat.lt_of_add_lt_add_left hlt), rfl⟩

theorem View.Loses.cell {gone : PageRef → Prop} (h : v.Loses gone w) (hr : ¬ gone r) : w.cell r = v.cell r :=
  View.cell_congr (h.page r hr) (fun _ _ _ _ => by rw [h.bytes]) fun _ _ _ _ => by rw [h.kept]

/-- Undoing a mapping takes away the pages at its places, whoever registered them, and leaves every
other page where it is. If no mapping is in force there, nothing happens. -/
theorem Runs.unmap_spans (h : Runs hw (t :: l) m) (hcall : t.call = .unmap s addr) :
    t.succeeds = true ∧ (inForce? l s (pageBase addr) = none → m = t.before) ∧
      ∀ k, inForce? l s (pageBase addr) = some k →
        (∀ r, Spans s (pageBase addr) k r → m.page? r = none) ∧
        ∀ r, ¬ Spans s (pageBase addr) k r → m.page? r = t.before.page? r ∧
          m.view.entry r = t.before.view.entry r ∧ m.view.cell r = t.before.view.cell r := by
  have hafter := h.sound
  obtain ⟨n, rfl, rfl, hn, hlive⟩ := h.last hcall
  obtain ⟨hok, hlost, -, hnone⟩ := unmap_turn hn.sound (hlive s (List.mem_singleton_self s)) addr
    fun g hg => hn.charted.region hg
  rw [before_turn]
  refine ⟨hok, fun hk => hnone ?_, fun k hk => ⟨fun r hr => ?_, fun r hr => ?_⟩⟩
  · rwa [← hn.charted.pages, Option.map_eq_none_iff] at hk
  · change ((Call.unmap s addr).turn n).after.view.page r = none
    by_cases ha : isPageAligned r.va = true
    · exact hlost.absent r (hr.inRegion hn.charted hk ha)
    · cases hp : ((Call.unmap s addr).turn n).after.view.page r with
      | none => rfl
      | some p => exact absurd (hafter.coherent.placed hp).2.1 ha
  · have hout : ¬ n.view.InRegion s (pageBase addr) r := fun hin => hr (hin.spans hn.charted hk)
    exact ⟨hlost.page r hout, hlost.entry r hout, hlost.cell hout⟩

def mapThree : List Call := [.map ⟨1⟩ 0x1000 3 true ⟨⟨0⟩, 0⟩ 0, .newFile #[1, 2, 3], .newSpace]

def unmapThree : Turn := (Call.unmap ⟨1⟩ 0x1000).turn (Hardware.small.machine mapThree)

theorem unmap_takes_out_mapping :
    (unmapThree.before.page? ⟨⟨1⟩, 0x1000⟩).isSome ∧ unmapThree.after.page? ⟨⟨1⟩, 0x1000⟩ = none := by
  have hrun : Runs .small (unmapThree :: Hardware.small.turns mapThree) unmapThree.after :=
    Hardware.runs (l := .unmap ⟨1⟩ 0x1000 :: mapThree) .small (by decide +kernel)
  have hforce : inForce? (Hardware.small.turns mapThree) ⟨1⟩ (pageBase 0x1000) = some 1 := by decide +kernel
  obtain ⟨-, -, hgone⟩ := hrun.unmap_spans (call_turn ..)
  exact ⟨by decide +kernel, (hgone 1 hforce).1 _ ⟨rfl, by decide +kernel, by decide +kernel⟩⟩

/-- A file is mapped, its page is removed, and an anonymous page is registered in its place. -/
def mapThenReplace : List Call :=
  .register ⟨1⟩ 0x1000 true .anon none :: .remove ⟨1⟩ 0x1000 :: mapThree

/-- The page that was put in the place of the mapping's own is taken away with it. -/
theorem unmap_takes_out_anonymous_page :
    Hardware.small.allows (.unmap ⟨1⟩ 0x1000 :: mapThenReplace) = true ∧
      ((Hardware.small.machine mapThenReplace).page? ⟨⟨1⟩, 0x1000⟩).map Page.finalKind = some .anon ∧
      ((Hardware.small.machine (.unmap ⟨1⟩ 0x1000 :: mapThenReplace)).page? ⟨⟨1⟩, 0x1000⟩).isNone := by
  decide +kernel

end DemandPaging
