import DemandPaging.Proofs.Runs

namespace DemandPaging

open Function (update)
open Machine

variable {m : Machine} {c : Call} {t : Turn} {v w : View} {r : PageRef} {p : Page} {a : Act} {k : Nat}
  {x y z : Contents} {s : SpaceId} {addr : Addr} {b : UInt8}

def Turn.stored? (t : Turn) (r : PageRef) (k : Nat) : Option UInt8 :=
  match t.written with
  | some (s, va, d) => if s = r.space ∧ va ≤ r.va + k then d[r.va + k - va]? else none
  | none => none

theorem Turn.stored?_eq_none (h : ∀ s va d, t.call ≠ .write s va d) (r : PageRef) (k : Nat) :
    t.stored? r k = none := by
  have hw : t.written = none := by
    unfold written
    split
    · exact absurd ‹_› (h _ _ _)
    · exact absurd ‹_› (h _ _ _)
    · rfl
  rw [stored?, hw]

/-- The byte that was last stored at `k` in the page at `r` since the page was registered. The latest
turn comes first. -/
def lastStored : List Turn → PageRef → Nat → Option UInt8
  | [], _, _ => none
  | t :: l, r, k =>
      (t.stored? r k).or (if (t.before.page? r).isSome then lastStored l r k else none)

theorem lastStored_turn {l : List Turn} (hp : (m.page? r).isSome) :
    lastStored (c.turn m :: l) r k = ((c.turn m).stored? r k).or (lastStored l r k) := by
  rw [lastStored, before_turn, if_pos hp]

structure Turn.Leaves (t : Turn) (r : PageRef) : Prop where
  removed : ∀ saved, ¬ t.May (.removed r saved)
  dropped : ¬ t.May (.dropped r.space)

theorem leaves_of_present (h : m.Sound) (hc : ∀ s ∈ c.spaces, (m.space? s).isSome)
    (hp : (c.turn m).after.view.page r = some p) : (c.turn m).Leaves r where
  removed saved ha := by
    rw [ha.1] at hp
    cases hp
  dropped ha := by
    have hlive := (sound_turn h hc).coherent.placed hp
    have hcall : c = .dropSpace r.space := (call_turn c m).symm.trans ha
    rw [hcall, (fair_dropSpace h r.space).2] at hlive
    cases hlive.1

def Turn.Changes (t : Turn) (r : PageRef) (x y : Contents) : Prop :=
  ∀ k (hk : k < pageSize), y[k] = x[k] ∨ t.stored? r k = some y[k]

theorem Turn.Changes.refl (t : Turn) (r : PageRef) (x : Contents) : t.Changes r x x :=
  fun _ _ => .inl rfl

theorem Turn.Changes.trans (h : t.Changes r x y) (h' : t.Changes r y z) : t.Changes r x z := by
  intro k hk
  rcases h' k hk with hy | hs
  · rw [hy]
    exact h k hk
  · exact .inr hs

theorem changes_stored {offset : Nat} {data : Array UInt8} (ha : t.May (.stored r offset data))
    (x : Contents) : t.Changes r x (x.overlay offset data) := by
  obtain ⟨s, va, d, i, len, hw, hlen, hoff, rfl, rfl, rfl⟩ := ha
  intro k hk
  rw [Buffer.getElem_overlay]
  split
  swap
  · exact .inl rfl
  rename_i hle
  have hbase := pageBase_add_pageOffset (va + i)
  by_cases hlt : k - pageOffset (va + i) < len
  · have hindex : pageBase (va + i) + k - va = i + (k - pageOffset (va + i)) := by
      dsimp only [Addr] at *
      omega
    have hin : i + (k - pageOffset (va + i)) < d.size := by omega
    have hva : va ≤ pageBase (va + i) + k := by
      dsimp only [Addr] at *
      omega
    refine .inr ?_
    rw [Turn.stored?, hw]
    simp only [true_and, hva, if_true, hindex]
    rw [Array.getElem?_extract_of_lt (by omega)]
    simp
  · rw [Array.getElem?_eq_none (by rw [Array.size_extract]; omega)]
    exact .inl rfl

theorem seen_of_stored (h : m.Sound) (hc : ∀ s ∈ c.spaces, (m.space? s).isSome)
    (hb : (c.turn m).stored? r k = some b) :
    View.Seen (c.turn m).May m.view (c.turn m).after.view r.space (r.va + k) b := by
  cases c with
  | write s va data =>
      have hs : (m.view.book s).isSome := Call.live hc (List.mem_singleton_self s)
      unfold Turn.stored? at hb
      split at hb
      · rename_i s' va' d hd
        split at hb
        · rename_i heq
          obtain ⟨rfl, hle⟩ := heq
          have hseen := (fair_write h hs va data).2 _ _ _ hd _ _ hb
          rwa [show va' + (r.va + k - va') = r.va + k by omega] at hseen
        · cases hb
      · cases hb
  | _ => simp [Turn.stored?, Turn.written, call_turn] at hb

namespace View

theorem Path.kind_eq (h : Path t.May v w) (hl : t.Leaves r) (hp : v.page r = some p)
    (hk : p.kind ≠ .untouched) : ∃ q, w.page r = some q ∧ q.kind = p.kind := by
  refine h.keeps (I := fun w => ∃ q, w.page r = some q ∧ q.kind = p.kind) ⟨p, hp, rfl⟩ fun ha hs hw => ?_
  obtain ⟨q, hq, hqk⟩ := hw
  rw [← hqk]
  refine hs.kind_eq hq (hqk ▸ hk) ?_ ?_
  · rintro saved rfl
    exact hl.removed saved ha
  · rintro rfl
    exact hl.dropped ha

/-- A turn changes an anonymous page only by what it stores. -/
theorem Path.cell_changes (h : Path t.May v w) (hv : v.Coherent) (hl : t.Leaves r)
    (hp : v.page r = some p) (hk : p.kind = .anon) (hx : v.cell r = some x) :
    ∃ y, w.cell r = some y ∧ t.Changes r x y := by
  refine (h.keeps (I := fun w => w.Coherent ∧ (∃ q, w.page r = some q ∧ q.kind = .anon) ∧
    ∃ y, w.cell r = some y ∧ t.Changes r x y) ⟨hv, ⟨p, hp, hk⟩, x, hx, .refl t r x⟩
    fun {v w a} ha hs hw => ?_).2.2
  obtain ⟨hc, ⟨q, hq, hqk⟩, y, hy, hxy⟩ := hw
  have hremoved (saved : Bool) : a ≠ .removed r saved := by
    rintro rfl
    exact hl.removed saved ha
  have hdropped : a ≠ .dropped r.space := by
    rintro rfl
    exact hl.dropped ha
  refine ⟨hc.step hs, ?_, ?_⟩
  · obtain ⟨q', hq', hk'⟩ := hs.kind_eq hq (by simp [hqk]) hremoved hdropped
    exact ⟨q', hq', hk'.trans hqk⟩
  · by_cases hst : ∃ offset data, a = .stored r offset data
    · obtain ⟨offset, data, rfl⟩ := hst
      cases hs with
      | stored _ _ hp' hf =>
          refine ⟨_, cell_of_frame hp' hf, hxy.trans ?_⟩
          rw [cell_of_frame hp' hf] at hy
          obtain rfl := Option.some.inj hy
          dsimp only
          rw [Function.update_self]
          exact changes_stored ha _
    · refine ⟨y, ?_, hxy⟩
      have hspares : a.Spares r := ⟨fun o d heq => hst ⟨o, d, heq⟩, hremoved, hdropped⟩
      rw [(hs.cell_eq hc hspares hq hqk).1, hy]

/-- What a turn saw in an anonymous page is what the page holds after it, unless the turn stored
something else there. -/
theorem Seen.cell (h : Seen t.May v w r.space (r.va + k) b) (ha : isPageAligned r.va = true)
    (hk : k < pageSize) (hv : v.Coherent) (hl : t.Leaves r) (hp : w.page r = some p)
    (hfinal : p.finalKind = .anon) :
    p.kind = .anon ∧ ∃ x, w.cell r = some x ∧ (x[k] = b ∨ t.stored? r k = some x[k]) := by
  obtain ⟨⟨u, hvu, huw, q, f, hq, hf, hb⟩, -⟩ := h
  rw [pageBase_aligned_add ha hk] at hq
  rw [pageOffset_aligned_add ha hk, Vector.getElem?_eq_getElem hk] at hb
  have hu : u.Coherent := hvu.coherent hv
  have hqk := hu.kind_ne_untouched hq hf
  obtain ⟨p', hp', hpk⟩ := huw.kind_eq hl hq hqk
  obtain rfl := Option.some.inj (hp.symm.trans hp')
  have hanon : p.kind = .anon := by
    cases hst : p.state <;> simp [Page.kind, Page.finalKind, hst] at hfinal hqk hpk ⊢
    exact hqk hpk.symm
  obtain ⟨x, hx, hchange⟩ := huw.cell_changes hu hl hq (hpk ▸ hanon) (cell_of_frame hq hf)
  refine ⟨hanon, x, hx, ?_⟩
  rw [← Option.some.inj hb]
  exact hchange k hk

end View

end DemandPaging
