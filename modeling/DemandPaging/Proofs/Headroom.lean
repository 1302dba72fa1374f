import DemandPaging.Proofs.OneToOne
import DemandPaging.Proofs.SlotAccounts

namespace DemandPaging

open Function (update)
open Step Machine

variable {hw : Hardware} {l : List Turn} {m n : Machine} {v w : View} {a : Act} {t : Turn} {r : PageRef}
  {p : Page} {f g : FrameId}

namespace View

def Housed (v : View) : Prop := ∀ f r, v.owner f = some r → (v.book r.space).isSome

theorem owner_of_update {x : Option PageRef} (h : update v.owner g x f = some r) :
    x = some r ∨ v.owner f = some r := by
  by_cases hf : f = g
  · rw [hf, Function.update_self] at h
    exact .inl h
  · rw [Function.update_of_ne hf] at h
    exact .inr h

/-- A frame loses its home only with a space that is dropped while it has pages. -/
theorem Step.housed (h : v.Step a w) (hv : v.Coherent) (hh : v.Housed)
    (hd : ∀ s, a = .dropped s → ∀ va, v.page ⟨s, va⟩ = none) : w.Housed := by
  intro f r ho
  cases h with
  | orphaned | swapped | discarded => exact hh f r ((owner_of_update ho).resolve_left nofun)
  | loaded hp =>
      rcases owner_of_update ho with heq | ho
      · rw [← Option.some.inj heq]
        exact (hv.placed hp).1
      · exact hh f r ho
  | @removed o p saved hp =>
      dsimp only at ho
      split at ho
      · cases ho
      · exact hh f r ho
  | booked b hs =>
      exact Step.live (.booked b hs) nofun (hh f r ho)
  | created => exact Step.live .created nofun (hh f r ho)
  | dropped s =>
      apply Step.live (.dropped s) _ (hh f r ho)
      intro heq
      obtain ⟨p, hp, -⟩ := hv.owned ho (hh f r ho)
      rw [hd r.space heq] at hp
      cases hp
  | _ => exact hh f r ho

end View

theorem Turn.Fair.housed (h : t.Fair) (ht : t.Tidy) (hm : t.before.Sound) (hv : t.before.view.Housed) :
    t.after.view.Housed :=
  (h.keeps (I := fun w => w.Coherent ∧ w.Housed) ht ⟨hm.coherent, hv⟩
    fun hs hd hv => ⟨hv.1.step hs, hs.housed hv.1 hv.2 hd⟩).2

theorem Runs.housed (h : Runs hw l m) (hl : ∀ t ∈ l, t.Tidy) : m.view.Housed := by
  induction h with
  | boot =>
      intro f r ho
      change Frames.ownerAt (.ofSize hw.frames) f = some r at ho
      rw [Frames.ownerAt_ofSize] at ho
      cases ho
  | turn h c hc ih =>
      apply (fair h.sound hc).housed (hl _ (List.mem_cons_self ..))
      · rw [before_turn]
        exact h.sound
      · rw [before_turn]
        exact ih fun t ht => hl t (List.mem_cons_of_mem _ ht)

namespace Machine

def pageFrames (m : Machine) : List FrameId := m.allPages.filterMap (·.2.frame)

theorem mem_pageFrames : f ∈ m.pageFrames ↔ ∃ r p, m.view.page r = some p ∧ p.frame = some f := by
  simp only [pageFrames, List.mem_filterMap, Prod.exists, mem_allPages]

theorem Sound.nodup_pageFrames (h : m.Sound) : m.pageFrames.Nodup := by
  unfold pageFrames List.Nodup
  rw [List.pairwise_filterMap]
  have hrefs := m.nodup_allPages
  rw [List.Nodup, List.pairwise_map] at hrefs
  apply hrefs.imp_of_mem
  rintro ⟨r, p⟩ ⟨r', p'⟩ hx hy hne f hf f' hf' rfl
  have hr := h.coherent.resident (mem_allPages.1 hx) hf
  rw [h.coherent.resident (mem_allPages.1 hy) hf'] at hr
  exact hne (Option.some.inj hr).symm

theorem Sound.length_clock (h : m.Sound) (hh : m.view.Housed) :
    m.frames.clock.length = m.allPages.countP (·.2.isResident) := by
  have hperm : m.pageFrames.Perm m.frames.clock := by
    apply (List.perm_ext_iff_of_nodup h.nodup_pageFrames h.coherent.nodup).2
    intro f
    rw [mem_pageFrames, h.coherent.mem_clock_iff]
    constructor
    · rintro ⟨r, p, hp, hf⟩
      rw [h.coherent.resident hp hf]
      rfl
    · intro ho
      obtain ⟨r, ho⟩ := Option.isSome_iff_exists.1 ho
      obtain ⟨p, hp, hf⟩ := h.coherent.owned ho (hh f r ho)
      exact ⟨r, p, hp, hf⟩
  rw [← hperm.length_eq, pageFrames, List.length_filterMap_eq_countP]
  rfl

/-- Frames on the clock and slots in use are for different pages. -/
theorem Sound.clock_add_usedCount_le (h : m.Sound) (hr : m.view.Recorded) (hh : m.view.Housed) :
    m.frames.clock.length + m.swap.usedCount ≤ m.allPages.length := by
  have hout : m.evicted.length ≤ m.allPages.countP (fun x => ¬ x.2.isResident = true) := by
    rw [evicted, ← List.countP_eq_length_filter]
    apply List.countP_mono_left
    intro x _ hx
    simp only [Bool.and_eq_true, Bool.not_eq_true'] at hx
    simp [hx.2]
  rw [h.length_clock hh, h.usedCount hr, m.allPages.length_eq_countP_add_countP (·.2.isResident)]
  exact Nat.add_le_add_left hout _

theorem Sound.usedCount_of_full (h : m.Sound) (hfull : m.swap.Full) : m.swap.usedCount = m.swap.capacity := by
  have hnodup : ((List.range m.swap.capacity).map Slot.mk).Nodup := List.nodup_range.map fun _ _ => Slot.mk.inj
  rw [h.usedCount_eq_length hnodup, List.length_map, List.length_range]
  rintro ⟨i⟩
  simp only [List.mem_map, List.mem_range, Slot.mk.injEq, exists_eq_right]
  exact ⟨fun hi => hfull ⟨i⟩ hi, fun hi => h.consistent.swap.lt_of_holds hi⟩

theorem Sound.length_clock_of_take (h : m.Sound) (hpin : ∀ f, m.view.status f ≠ .pinned)
    (htake : m.frames.pool.take = none) : m.frames.clock.length = m.frames.pool.size := by
  have hmem (f : FrameId) : f ∈ m.frames.clock ↔ f.index < m.frames.pool.size := by
    have hheld : f ∈ m.frames.clock ↔ m.view.status f = .held :=
      (h.coherent.mem_clock_iff f).trans (h.coherent.held_iff f).symm
    have habsent : m.view.status f = .absent ↔ m.frames.pool.size ≤ f.index := FramePool.status_eq_absent_iff
    have hfree : m.view.status f ≠ .free := FramePool.take_eq_none htake f
    rw [hheld, ← Nat.not_le, ← habsent]
    cases hstatus : m.view.status f with
    | free => exact absurd hstatus hfree
    | pinned => exact absurd hstatus (hpin f)
    | absent | held => simp
  have hperm : m.frames.clock.Perm ((List.range m.frames.pool.size).map FrameId.mk) := by
    apply (List.perm_ext_iff_of_nodup h.coherent.nodup (List.nodup_range.map fun _ _ => FrameId.mk.inj)).2
    rintro ⟨i⟩
    simp only [List.mem_map, List.mem_range, FrameId.mk.injEq, exists_eq_right]
    exact hmem ⟨i⟩
  rw [hperm.length_eq, List.length_map, List.length_range]

def room (m : Machine) : Nat := m.frames.pool.size + m.swap.capacity

/-- Nothing keeps a page out of a frame but the number of pages that there are. -/
structure Ample (m : Machine) : Prop where
  sound : m.Sound
  unpinned : ∀ f, m.view.status f ≠ .pinned
  recorded : m.view.Recorded
  housed : m.view.Housed
  mild : m.view.Mild
  reliable : m.swap.disk.Reliable
  pos : 0 < m.frames.pool.size
  size_le : m.frames.pool.size ≤ 0x100000

theorem Ample.kind (h : m.Ample) (hp : m.view.page r = some p) (hf : p.frame = some f) : p.kind = .anon := by
  rw [← Page.finalKind_eq_kind, (h.mild r p hp).finalKind]
  intro hk
  have hapt := h.sound.coherent.apt hp
  unfold View.Apt at hapt
  unfold Page.kind at hk
  split at hk <;> simp_all

/-- Unless there are more pages than can be had at one time, a page is not denied a frame. -/
theorem Ample.granted (h : m.Ample) (hroom : m.allPages.length < m.room) (hp : m.view.page r = some p) :
    ¬ Vm.Denied m p := by
  rintro (⟨htake, hstuck⟩ | hindex)
  · have hlen := h.sound.length_clock_of_take h.unpinned htake
    have hle := h.sound.clock_add_usedCount_le h.recorded h.housed
    rcases hstuck (fun r p f => h.kind) h.reliable with hnil | hfull
    · rw [hnil] at hlen
      exact absurd hlen.symm (Nat.ne_of_gt h.pos)
    · rw [h.sound.usedCount_of_full hfull, hlen] at hle
      exact absurd hroom (Nat.not_lt.2 hle)
  · obtain ⟨f, hf, hle⟩ := hindex (h.mild r p hp).ready h.reliable
    have hlt := Nat.lt_of_not_le (mt FramePool.status_eq_absent_iff.2 hf)
    exact absurd (Nat.lt_of_lt_of_le hlt h.size_le) (Nat.not_lt.2 hle)

end Machine

end DemandPaging
