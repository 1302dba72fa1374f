import DemandPaging.Proofs.Ledger
import DemandPaging.Proofs.Primitives
import Mathlib.Data.List.Rotate

namespace DemandPaging

open Function (update)
open Step Machine

variable {v : View} {m n u : Machine} {f g : FrameId} {r : PageRef} {x : Translation} {fs gs l left : List FrameId}
  {E : Stop → Machine → Prop}

def Machine.referenced (m : Machine) (f : FrameId) : Bool :=
  match m.frames.binding f with
  | .ok (some o) => ((m.space? o.link.space).map fun sp => sp.table.isAccessed o.va).getD false
  | .ok none | .error _ => false

namespace Clock

variable {referenced : FrameId → Bool} {spared : List FrameId}

/-- Which frame of a clock is to be reclaimed: the first that was not referenced, or else the oldest. The frames
that are spared are no longer referenced then; the last list is the clock that is left. -/
inductive Chooses (referenced : FrameId → Bool) :
    List FrameId → FrameId → List FrameId → List FrameId → Prop
  | first {spared rest : List FrameId} {f : FrameId} (hs : ∀ g ∈ spared, referenced g = true)
      (hf : referenced f = false) : Chooses referenced (spared ++ f :: rest) f spared (rest ++ spared)
  | oldest {rest : List FrameId} {f : FrameId} (hs : ∀ g ∈ f :: rest, referenced g = true) :
      Chooses referenced (f :: rest) f (f :: rest) rest

theorem Chooses.perm (h : Chooses referenced l f spared left) : l.Perm (f :: left) := by
  cases h with
  | first => exact List.perm_middle.trans (.cons _ List.perm_append_comm)
  | oldest => exact .refl _

/-- With the chosen frame put back in front, the clock is only turned. -/
theorem Chooses.isRotated (h : Chooses referenced l f spared left) : l.IsRotated (f :: left) := by
  cases h with
  | first => exact List.isRotated_append
  | oldest => exact .refl _

theorem Chooses.eq_head {g : FrameId} (h : Chooses referenced (f :: l) g spared left) (hf : referenced f = false) :
    g = f ∧ spared = [] ∧ left = l := by
  have hreferenced {l' : List FrameId} (hs : ∀ g ∈ f :: l', referenced g = true) : False := by
    rw [hs f List.mem_cons_self] at hf
    cases hf
  generalize hl : f :: l = clock at h
  cases h with
  | @first spared rest g hs =>
      cases spared with
      | nil =>
          cases hl
          exact ⟨rfl, rfl, List.append_nil _⟩
      | cons f' spared =>
          cases hl
          exact (hreferenced hs).elim
  | oldest hs =>
      cases hl
      exact (hreferenced hs).elim

end Clock

namespace View

def referenced (v : View) (f : FrameId) : Bool := ((v.owner f).bind v.entry).any (·.accessed)

def spare (v : View) (fs : List FrameId) : View := { v with
  entry := fun r => (v.entry r).map fun x => if x.frame ∈ fs then { x with accessed := false } else x
  log := v.log ++ (fs.map Event.frameSpared).toArray }

theorem spare_nil (v : View) : v.spare [] = v := by simp [spare]

theorem spare_append (v : View) (fs gs : List FrameId) : v.spare (fs ++ gs) = (v.spare fs).spare gs := by
  unfold spare
  ext1
  case entry =>
    funext r
    simp only [Option.map_map]
    congr 1
    funext x
    simp only [Function.comp_apply, List.mem_append]
    by_cases hf : x.frame ∈ fs
    · by_cases hg : x.frame ∈ gs <;> simp [hf, hg]
    · simp [hf]
  case log => simp
  all_goals rfl

theorem Coherent.owner_of_entry (h : v.Coherent) (hx : v.entry r = some x) : v.owner x.frame = some r := by
  obtain ⟨p, hp, hf, -⟩ := h.page_of_entry hx
  exact h.resident hp hf

theorem Coherent.frame_of_entry (h : v.Coherent) (ho : v.owner f = some r) (hx : v.entry r = some x) :
    x.frame = f := by
  obtain ⟨p, hp, hf, -⟩ := h.page_of_entry hx
  obtain ⟨q, hq, hqf⟩ := h.owned ho (h.placed hp).1
  cases hp.symm.trans hq
  exact Option.some.inj (hf.symm.trans hqf)

theorem Coherent.spare_singleton (h : v.Coherent) (hx : v.entry r = some x) :
    v.spare [x.frame] = { v with
      entry := update v.entry r (some { x with accessed := false })
      log := v.log.push (.frameSpared x.frame) } := by
  unfold spare
  ext1
  case entry =>
    funext o
    by_cases ho : o = r
    · simp [ho, hx]
    · simp only [Function.update_of_ne ho]
      cases hy : v.entry o with
      | none => rfl
      | some y =>
          have hne : y.frame ≠ x.frame := fun heq => ho (by
            have howner := h.owner_of_entry hy
            rw [heq, h.owner_of_entry hx] at howner
            exact (Option.some.inj howner).symm)
          simp [hne]
  case log => simp
  all_goals rfl

/-- The frames that are not spared are as referenced as before. -/
theorem Coherent.referenced_spare (h : v.Coherent) (hf : f ∉ fs) : (v.spare fs).referenced f = v.referenced f := by
  unfold referenced
  change ((v.owner f).bind (v.spare fs).entry).any _ = _
  cases ho : v.owner f with
  | none => rfl
  | some o =>
      rw [Option.bind_some, Option.bind_some]
      cases hx : v.entry o with
      | none => simp [spare, hx]
      | some x => simp [spare, hx, h.frame_of_entry ho hx, hf]

theorem Coherent.spare (h : v.Coherent) (fs : List FrameId) : (v.spare fs).Coherent := by
  refine coherent_of_same h rfl rfl (fun r => ?_) rfl (.inl rfl) (.refl _) rfl rfl
  simp only [View.spare, Option.map_map]
  congr 1
  funext x
  simp only [Function.comp_apply]
  split <;> rfl

/-- Sparing a frame that no page table has is only telling of it. -/
theorem spare_of_unmapped (h : ∀ r x, v.entry r = some x → x.frame ≠ f) :
    v.spare [f] = { v with log := v.log.push (.frameSpared f) } := by
  unfold spare
  ext1
  case entry =>
    funext r
    cases hx : v.entry r with
    | none => simp only [hx, Option.map_none]
    | some x => simp only [hx, Option.map_some, List.mem_singleton, if_neg (h r x hx)]
  case log => simp
  all_goals rfl

theorem Coherent.path_spare (h : v.Coherent) (fs : List FrameId) : Path Act.Quiet v (v.spare fs) := by
  induction fs generalizing v with
  | nil =>
      rw [spare_nil]
      exact .refl
  | cons f fs ih =>
      rw [← List.singleton_append, spare_append]
      refine Path.trans ?_ (ih (h.spare [f]))
      by_cases hf : ∃ r x, v.entry r = some x ∧ x.frame = f
      · obtain ⟨r, x, hx, rfl⟩ := hf
        rw [h.spare_singleton hx]
        have hmarked : Path Act.Quiet v _ := (Step.marked false x.dirty hx .inl).path rfl
        exact hmarked.step rfl (.told _)
      · rw [spare_of_unmapped fun r x hx heq => hf ⟨r, x, hx, heq⟩]
        exact (Step.told _).path rfl

theorem any_dirty_spare (v : View) (fs : List FrameId) (r : PageRef) :
    ((v.spare fs).entry r).any (·.dirty) = (v.entry r).any (·.dirty) := by
  cases hx : v.entry r with
  | none => simp [View.spare, hx]
  | some x =>
      simp only [View.spare, hx, Option.map_some, Option.any_some]
      split <;> rfl

/-- Marks that say nothing of dirt are idle. -/
theorem idles_spare (v : View) (fs : List FrameId) : v.Idles (v.spare fs) where
  soil := funext fun r => soil_congr rfl (any_dirty_spare v fs r)
  bytes _ := rfl
  tells := ⟨fs.map .frameSpared, by simp [View.spare], by simp [List.filter_eq_nil_iff, Event.weighs]⟩

end View

namespace Machine

theorem Sound.referenced_eq (h : m.Sound) (f : FrameId) : m.referenced f = m.view.referenced f := by
  unfold referenced View.referenced
  cases ho : m.view.owner f with
  | none =>
      split
      · rename_i o hbinding
        have howner : m.view.owner f = some o.page := congrArg (Option.map _) (Frames.binding_eq_ok_iff.1 hbinding)
        rw [ho] at howner
        cases howner
      · rfl
      · rfl
  | some o =>
      rw [h.consistent.frames.binding_eq ho, Option.bind_some]
      dsimp only
      cases hs : m.space? o.space with
      | none => simp [view, hs]
      | some sp =>
          obtain ⟨p, hp, -⟩ := h.coherent.owned ho (by rw [book_eq hs]; rfl)
          rw [Option.map_some, Option.getD_some, PageTable.isAccessed_eq,
            entry_eq (s := o.space) hs (h.coherent.placed hp).2.1]

structure Spares (m : Machine) (fs : List FrameId) (n : Machine) : Prop where
  consistent : n.Consistent
  frames : n.frames = m.frames
  swap : n.swap = m.swap
  files : n.files = m.files
  nextHandle : n.nextHandle = m.nextHandle
  view : n.view = m.view.spare fs

theorem Spares.refl (h : m.Consistent) : m.Spares [] m := ⟨h, rfl, rfl, rfl, rfl, m.view.spare_nil.symm⟩

theorem Spares.trans (h : m.Spares fs n) (k : n.Spares gs u) : m.Spares (fs ++ gs) u where
  consistent := k.consistent
  frames := k.frames.trans h.frames
  swap := k.swap.trans h.swap
  files := k.files.trans h.files
  nextHandle := k.nextHandle.trans h.nextHandle
  view := by rw [k.view, h.view, View.spare_append]

theorem Spares.page_eq (h : m.Spares fs n) : n.view.page = m.view.page := by rw [h.view]; rfl

theorem Spares.book_eq (h : m.Spares fs n) : n.view.book = m.view.book := by rw [h.view]; rfl

theorem Spares.status_eq (h : m.Spares fs n) : n.view.status = m.view.status := by rw [h.view]; rfl

theorem Spares.owner_eq (h : m.Spares fs n) : n.view.owner = m.view.owner := by rw [h.view]; rfl

theorem Spares.bytes_eq (h : m.Spares fs n) : n.view.bytes = m.view.bytes := by rw [h.view]; rfl

theorem Spares.any_dirty (h : m.Spares fs n) (r : PageRef) :
    (n.view.entry r).any (·.dirty) = (m.view.entry r).any (·.dirty) := by
  rw [h.view, View.any_dirty_spare]

theorem Spares.leads (h : m.Spares fs n) (hm : m.Sound) : m.Leads Act.Quiet n :=
  ⟨⟨h.consistent, h.view ▸ hm.coherent.path_spare fs⟩, fun _ => by rw [h.view]; rfl⟩

theorem Spares.sound (h : m.Spares fs n) (hm : m.Sound) : n.Sound := (h.leads hm).sound hm

end Machine

namespace Vm

/-- A frame is spared by clearing the mark of its page and telling so. -/
theorem spares_cleared {sp : Space} {o : PageRef} (h : m.Sound) (ho : m.view.owner f = some o)
    (hs : m.space? o.space = some sp) (hacc : sp.table.isAccessed o.va = true) :
    m.Spares [f] ((m.withSpace o.space fun sp => { sp with table := sp.table.setAccessed o.va false }).tell
      (.frameSpared f)) := by
  obtain ⟨p, hp, hpf⟩ := h.coherent.owned ho (by rw [book_eq hs]; rfl)
  have hbase : pageBase o.va = o.va := pageBase_of_aligned (h.coherent.placed hp).2.1
  rw [PageTable.isAccessed_eq, ← entry_eq hs (h.coherent.placed hp).2.1, Option.any_eq_true] at hacc
  obtain ⟨x, hx, -⟩ := hacc
  have hv := view_setAccessed h.consistent hs o.va false
  rw [hbase, hx, Option.map_some] at hv
  have hc := h.consistent.withTable (s := o.space) (g := (·.setAccessed o.va false)) fun ht => by
    rw [PageTable.setAccessed_eq_rewrite]
    exact ht.rewrite _ _
  refine ⟨hc.tell _, rfl, rfl, rfl, rfl, ?_⟩
  obtain rfl := h.coherent.frame_of_entry ho hx
  rw [view_tell, hv]
  exact (h.coherent.spare_singleton hx).symm

theorem yields_wasReferenced (h : m.Sound) (hf : f ∈ m.view.clock) :
    Yields (wasReferenced f) m
      (fun b n => b = m.view.referenced f ∧ m.Spares (if b then [f] else []) n) fun _ _ => False := by
  obtain ⟨o, ho⟩ := Option.isSome_iff_exists.1 ((h.coherent.mem_clock_iff f).1 hf)
  have howner := h.consistent.frames.binding_eq ho
  have href := h.referenced_eq f
  unfold referenced at href
  rw [howner] at href
  unfold wasReferenced
  rw [yields_bind, yields_get, yields_bind, yields_ofPanic, howner]
  dsimp only at href ⊢
  rw [← href, yields_bind]
  unfold testAccessed
  rw [yields_bind, yields_get]
  cases hs : m.space? o.space with
  | none => exact ⟨rfl, .refl h.consistent⟩
  | some sp =>
      rw [hs] at href
      dsimp only [Option.map_some, Option.getD_some]
      split
      · rename_i hacc
        refine yields_bind.2 (yields_modifyTable.2 (yields_pure.2 ?_))
        rw [if_pos hacc]
        refine yields_bind.2 (yields_emit.2 (yields_pure.2 ⟨rfl, ?_⟩))
        rw [if_pos hacc]
        exact spares_cleared h ho hs hacc
      · rename_i hacc
        refine yields_pure.2 ?_
        rw [if_neg hacc]
        refine yields_pure.2 ⟨rfl, ?_⟩
        rw [if_neg hacc]
        exact .refl h.consistent

theorem yields_sweep {I : Machine → Prop} {referenced : FrameId → Vm Bool} (l spared : List FrameId)
    (href : ∀ f ∈ l, ∀ m, I m → Yields (referenced f) m (fun _ n => I n) E) (hm : I m) :
    Yields (Clock.sweep referenced spared l) m
      (fun c n => I n ∧ match c with
        | (some f, rest) => (spared ++ l).Perm (f :: rest)
        | (none, rest) => (spared ++ l).Perm rest) E := by
  induction l generalizing m spared with
  | nil =>
      refine yields_pure.2 ⟨hm, ?_⟩
      simp [spared.reverse_perm.symm]
  | cons f rest ih =>
      refine (href f (List.mem_cons_self ..) m hm).bind (fun b n hn => ?_) fun _ _ => id
      cases b with
      | true =>
          refine (ih (f :: spared) (fun g hg => href g (List.mem_cons_of_mem _ hg)) hn).mono
            (fun c u hc => ⟨hc.1, ?_⟩) fun _ _ => id
          have hperm : (spared ++ f :: rest).Perm (f :: spared ++ rest) := List.perm_middle
          obtain ⟨_ | g, rest'⟩ := c
          · exact hperm.trans hc.2
          · exact hperm.trans hc.2
      | false =>
          refine yields_pure.2 ⟨hn, ?_⟩
          refine List.perm_middle.trans (.cons _ ?_)
          exact List.perm_append_comm.trans (.append_left _ spared.reverse_perm.symm)

/-- A sweep ends at the first frame that was not referenced, or when all are spared. -/
theorem yields_sweep_spares (h : m.Sound) (hl : (fs ++ l).Nodup) (hclock : ∀ g ∈ l, g ∈ m.view.clock)
    (hn : m.Spares fs n) (hfs : ∀ g ∈ fs, m.view.referenced g = true) :
    Yields (Clock.sweep wasReferenced fs.reverse l) n
      (fun c u => ∃ spared, m.Spares spared u ∧ (∀ g ∈ spared, m.view.referenced g = true) ∧
        match c with
        | (some f, rest) => m.view.referenced f = false ∧ ∃ rest', fs ++ l = spared ++ f :: rest' ∧
            rest = rest' ++ spared
        | (none, rest) => spared = fs ++ l ∧ rest = fs ++ l)
      fun _ _ => False := by
  induction l generalizing fs n with
  | nil => exact yields_pure.2 ⟨fs, hn, hfs, by simp⟩
  | cons f rest ih =>
      have hfresh : f ∉ fs := fun hf => (List.nodup_append.1 hl).2.2 f hf f List.mem_cons_self rfl
      have hf : f ∈ n.view.clock := by
        rw [hn.view]
        exact hclock f List.mem_cons_self
      refine (yields_wasReferenced (hn.sound h) hf).bind (fun b u hu => ?_) fun _ _ => False.elim
      obtain ⟨hb, hu⟩ := hu
      rw [hn.view, h.coherent.referenced_spare hfresh] at hb
      cases b with
      | true =>
          have hassoc : fs ++ f :: rest = fs ++ [f] ++ rest := by simp
          rw [hassoc] at hl ⊢
          have hrest := ih hl (fun g hg => hclock g (List.mem_cons_of_mem _ hg)) (hn.trans hu) fun g hg => by
            rcases List.mem_append.1 hg with hg | hg
            · exact hfs g hg
            · rw [List.mem_singleton.1 hg, ← hb]
          rwa [List.reverse_append] at hrest
      | false =>
          refine yields_pure.2 ⟨fs, ?_, hfs, hb.symm, rest, rfl, by rw [List.reverse_reverse]⟩
          simpa using hn.trans hu

/-- A victim is chosen by what was referenced, and only an empty clock has none. -/
theorem yields_takeVictim (h : m.Sound) :
    Yields takeVictim m
      (fun f n => ∃ u spared left, Clock.Chooses m.view.referenced m.frames.clock f spared left ∧ m.Spares spared u ∧
        n = { u with frames := { u.frames with clock := left } })
      (Failing fun e n => e = .noFrame ∧ m.frames.clock = [] ∧ n = m) := by
  have hnodup : ([] ++ m.frames.clock).Nodup := h.coherent.nodup
  have hsweep := yields_sweep_spares h hnodup (fun _ => id) (.refl h.consistent) (by simp)
  unfold takeVictim
  rw [yields_bind, yields_get, yields_bind]
  cases hclock : m.frames.clock with
  | nil => exact show PagingError.noFrame = .noFrame ∧ _ from ⟨rfl, rfl, rfl⟩
  | cons first others =>
      rw [hclock] at hsweep
      refine hsweep.mono (fun c u hu => ?_) fun _ _ => False.elim
      obtain ⟨spared, hspares, href, hu⟩ := hu
      match c, hu with
      | (some f, left), hu =>
          obtain ⟨hf, rest', heq, hrest⟩ := hu
          refine yields_bind.2 (yields_modify.2 (yields_pure.2 ⟨u, spared, left, ?_, hspares, rfl⟩))
          rw [hrest, show first :: others = spared ++ f :: rest' from heq]
          exact .first href hf
      | (none, left), hu =>
          obtain ⟨heq, hrest⟩ := hu
          obtain rfl : left = first :: others := hrest
          obtain rfl : spared = first :: others := heq
          exact yields_bind.2 (yields_modify.2 (yields_pure.2 ⟨u, _, others, .oldest href, hspares, rfl⟩))

end Vm

end DemandPaging
