import DemandPaging.Proofs.Runs

namespace DemandPaging

open Function (update)
open Step Machine

variable {hw : Hardware} {l : List Turn} {m : Machine} {s : SpaceId} {sp : Space} {va : Addr} {f : FrameId}

theorem Runs.pool_size (h : Runs hw l m) : m.frames.pool.size = hw.frames := by
  induction h with
  | boot => exact Array.size_replicate
  | turn h c hc ih =>
      have hfair := (fair h.sound hc).leads
      rw [before_turn] at hfair
      rw [hfair.pool_size h.sound, ih]

/-- Between calls no frame is pinned. -/
theorem Runs.not_pinned (h : Runs hw l m) (f : FrameId) : m.view.status f ≠ .pinned := by
  induction h with
  | boot =>
      change FramePool.status (.ofSize hw.frames) f ≠ .pinned
      rw [FramePool.status_ofSize]
      split <;> simp
  | turn h c hc ih =>
      have hfair := (fair h.sound hc).leads
      rw [before_turn] at hfair
      rwa [ne_eq, hfair.pinned]

namespace Frames

/-- In a pool without pinned frames, as many frames are taken as there are on the clock. -/
theorem Fits.freeFrames_add_length {t : Frames} (h : t.Fits) (hnodup : t.clock.Nodup)
    (hmem : ∀ f, f ∈ t.clock ↔ t.status f = .held) (hpin : ∀ f, t.status f ≠ .pinned) :
    t.freeFrames + t.clock.length = t.pool.size := by
  have hallocated (i : Nat) (hi : i < t.pool.entries.size) :
      t.pool.entries[i].allocated = true ↔ (⟨i⟩ : FrameId) ∈ t.clock := by
    have hstatus : t.status ⟨i⟩ = t.pool.entries[i].status := by simp [status, FramePool.status, hi]
    have hp := hpin ⟨i⟩
    rw [hstatus, FrameFlags.status] at hp
    rw [hmem, hstatus, FrameFlags.status]
    cases ha : t.pool.entries[i].allocated <;> cases hpin : t.pool.entries[i].pinned <;>
      simp [ha, hpin] at hp ⊢
  have hcount : t.pool.allocated = ((List.range t.pool.size).filter fun i => ⟨i⟩ ∈ t.clock).length := by
    rw [h.counted.allocated_eq, ← List.countP_eq_length_filter]
    have hlist : t.pool.entries.toList = (List.range t.pool.size).map fun i => (t.pool.entries[i]?).getD .free := by
      refine List.ext_getElem (by simp [FramePool.size]) fun i hi _ => ?_
      simp only [Array.length_toList] at hi
      simp [hi]
    rw [hlist, List.countP_map]
    refine List.countP_congr fun i hi => ?_
    have hi : i < t.pool.entries.size := List.mem_range.1 hi
    simp [hi, hallocated i hi]
  have hperm : ((List.range t.pool.size).filter fun i => ⟨i⟩ ∈ t.clock).Perm (t.clock.map (·.index)) := by
    refine (List.perm_ext_iff_of_nodup (List.nodup_range.filter _) (hnodup.map ?_)).2 fun i => ?_
    · rintro ⟨i⟩ ⟨j⟩ rfl
      rfl
    · simp only [List.mem_filter, List.mem_range, decide_eq_true_eq, List.mem_map]
      constructor
      · exact fun hi => ⟨⟨i⟩, hi.2, rfl⟩
      · rintro ⟨g, hg, rfl⟩
        refine ⟨?_, hg⟩
        refine Nat.lt_of_not_le fun hle => ?_
        have habsent : t.status g = .absent := FramePool.status_eq_absent_iff.2 hle
        rw [(hmem g).1 hg] at habsent
        cases habsent
  have hle : t.clock.length ≤ t.pool.size := by
    rw [← List.length_map (f := (·.index)), ← hperm.length_eq]
    exact (List.length_filter_le ..).trans (by simp)
  rw [freeFrames, FramePool.freeFrames, hcount, hperm.length_eq, List.length_map]
  omega

end Frames

/-- The pages, the page tables, the owners of the frames and the clock of a machine with `n` frames
all say which page is in which frame, and say the same. -/
structure OneToOne (m : Machine) (n : Nat) : Prop where
  page_iff_table : ∀ (s : SpaceId) (sp : Space) (va : Addr) (f : FrameId), m.space? s = some sp →
    isPageAligned va = true →
    ((sp.pages[va]?).bind (·.frame) = some f ↔ sp.table.lookup va = some f)
  page_iff_owner : ∀ (s : SpaceId) (sp : Space) (va : Addr) (f : FrameId), m.space? s = some sp →
    isPageAligned va = true →
    ((sp.pages[va]?).bind (·.frame) = some f ↔ m.frames.owner f = .ok (some ⟨s, va⟩))
  page_iff_clock : ∀ (s : SpaceId) (sp : Space) (va : Addr) (f : FrameId), m.space? s = some sp →
    isPageAligned va = true →
    ((sp.pages[va]?).bind (·.frame) = some f ↔
      f ∈ m.frames.clock ∧ m.frames.owner f = .ok (some ⟨s, va⟩))
  mapped : ∀ (s : SpaceId) (sp : Space) (va : Addr), m.space? s = some sp →
    sp.table.isMapped va = true →
    va < kernelBase ∧ ∃ p, sp.page? va = some p ∧ sp.table.isWritable va = p.writable
  placed : ∀ (s : SpaceId) (sp : Space) (va : Addr) (p : Page), m.space? s = some sp →
    sp.pages[va]? = some p → isPageAligned va = true ∧ va < kernelBase
  untouched : ∀ (s : SpaceId) (sp : Space) (va : Addr) (p : Page), m.space? s = some sp →
    sp.pages[va]? = some p → p.kind = .untouched → p.isResident = false
  free_or_listed : ∀ f : FrameId, f.index < n →
    m.frames.status f = .free ∧ f ∉ m.frames.clock ∨
      m.frames.status f = .held ∧ m.frames.clock.count f = 1
  listed_lt : ∀ f ∈ m.frames.clock, f.index < n
  total : m.frames.freeFrames + m.frames.clock.length = n

namespace Machine

theorem entry_of_mapped (hs : m.space? s = some sp) (hx : sp.table.isMapped va = true) :
    ∃ x, m.view.entry ⟨s, pageBase va⟩ = some x ∧ sp.table.translation? va = some x := by
  rw [PageTable.isMapped, Option.isSome_iff_exists] at hx
  obtain ⟨e, he⟩ := hx
  have htr : sp.table.translation? va = some e.translation := by rw [PageTable.translation?, he]; rfl
  exact ⟨_, (entry_pageBase hs va).trans htr, htr⟩

theorem page_of_mapped (h : m.view.Coherent) (hs : m.space? s = some sp)
    (hx : sp.table.isMapped va = true) :
    ∃ x p, sp.table.translation? va = some x ∧ sp.page? va = some p ∧ p.frame = some x.frame ∧
      p.writable = x.writable := by
  obtain ⟨x, hx, htr⟩ := entry_of_mapped hs hx
  obtain ⟨p, hp, hf, hw⟩ := h.page_of_entry hx
  exact ⟨x, p, htr, by rwa [page_eq hs] at hp, hf, hw⟩

end Machine

/-- In a sound machine without pinned frames, residency is one to one. -/
theorem Machine.Sound.oneToOne (h : m.Sound) (hpin : ∀ f, m.view.status f ≠ .pinned) :
    OneToOne m m.frames.pool.size := by
  have hmem (f : FrameId) : f ∈ m.frames.clock ↔ m.frames.status f = .held :=
    (h.coherent.mem_clock_iff f).trans (h.coherent.held_iff f).symm
  have howner {s : SpaceId} {sp : Space} {va : Addr} {f : FrameId} (hs : m.space? s = some sp) :
      (sp.pages[va]?).bind (·.frame) = some f ↔ m.frames.owner f = .ok (some ⟨s, va⟩) := by
    rw [← page_eq hs, Frames.owner_eq_ok_iff, Option.bind_eq_some_iff]
    constructor
    · rintro ⟨p, hp, hf⟩
      exact h.coherent.resident hp hf
    · exact fun ho => h.coherent.owned ho (by rw [book_eq hs]; rfl)
  refine ⟨fun s sp va f hs ha => ?_, fun s sp va f hs _ => howner hs, fun s sp va f hs _ => ?_,
    fun s sp va hs hx => ?_, fun s sp va p hs hp => ?_, fun s sp va p hs hp hk => ?_,
    fun f hf => ?_, fun f hf => ?_, h.consistent.frames.freeFrames_add_length h.coherent.nodup hmem hpin⟩
  · have hmap := h.coherent.mapped ⟨s, va⟩
    rw [entry_eq hs ha, page_eq hs] at hmap
    rw [PageTable.lookup_eq]
    cases hx : sp.table.translation? va <;> cases hp : sp.pages[va]? <;> rw [hx, hp] at hmap
    · simp
    · rename_i p
      cases hf : p.frame <;> simp [hf] at hmap ⊢
    · simp at hmap
    · rename_i x p
      cases hf : p.frame <;> simp [hf] at hmap ⊢
      rw [hmap.1]
  · rw [howner hs]
    refine ⟨fun ho => ⟨(h.coherent.mem_clock_iff f).2 ?_, ho⟩, And.right⟩
    exact Option.isSome_iff_exists.2 ⟨_, Frames.owner_eq_ok_iff.1 ho⟩
  · obtain ⟨x, p, htr, hp, -, hw⟩ := page_of_mapped h.coherent hs hx
    refine ⟨?_, p, hp, by rw [PageTable.isWritable_eq, htr, hw]; rfl⟩
    rw [Space.page?, ← page_eq hs] at hp
    have hk := (h.coherent.placed hp).2.2
    rw [isKernel_pageBase] at hk
    exact isKernel_eq_false_iff.1 hk
  · rw [← page_eq hs] at hp
    obtain ⟨-, ha, hk⟩ := h.coherent.placed hp
    exact ⟨ha, isKernel_eq_false_iff.1 hk⟩
  · rw [← page_eq hs] at hp
    have hapt := h.coherent.apt hp
    unfold View.Apt at hapt
    unfold Page.kind at hk
    split at hk <;> simp_all [Page.isResident]
  · have hpresent : m.frames.status f ≠ .absent := fun habsent =>
      absurd (FramePool.status_eq_absent_iff.1 habsent) (Nat.not_le.2 hf)
    have hp := hpin f
    cases hst : m.frames.status f with
    | absent => exact absurd hst hpresent
    | pinned => exact absurd hst hp
    | free =>
        refine .inl ⟨rfl, fun hmem' => ?_⟩
        rw [(hmem f).1 hmem'] at hst
        cases hst
    | held => exact .inr ⟨rfl, List.count_eq_one_of_mem h.coherent.nodup ((hmem f).2 hst)⟩
  · refine Nat.lt_of_not_le fun hle => ?_
    have habsent : m.frames.status f = .absent := FramePool.status_eq_absent_iff.2 hle
    rw [(hmem f).1 hf] at habsent
    cases habsent

/-- Residency is one to one after every call of every run. -/
theorem Runs.residency (h : Runs hw l m) : OneToOne m hw.frames :=
  h.pool_size ▸ h.sound.oneToOne h.not_pinned

def claimOne : List Call := [.claim ⟨1⟩ 0x1000, .register ⟨1⟩ 0x1000 true .anon none, .newSpace]

/-- The page that was claimed is the one that the only frame belongs to. -/
theorem residency_of_claim : OneToOne (Hardware.small.machine claimOne) 1 ∧
    (Hardware.small.machine claimOne).frames.clock = [⟨0⟩] :=
  ⟨(Hardware.runs (l := claimOne) .small (by decide +kernel)).residency, by decide +kernel⟩

end DemandPaging
