import DemandPaging.Proofs.Coherence

namespace DemandPaging

open Function (update)

variable {v w u : View} {r : PageRef} {p q : Page} {c : Contents} {a : Act} {P : Act → Prop}

theorem Page.kind_eq_anon : p.kind = .anon ↔ ∃ slot stack, p.state = .anon slot stack := by
  unfold Page.kind
  split <;> simp_all

theorem Page.finalKind_eq_kind (h : p.kind ≠ .untouched) : p.finalKind = p.kind := by
  unfold kind at h ⊢
  unfold finalKind
  split at h <;> simp_all

theorem Page.finalKind_of_anon (h : p.kind = .anon) : p.finalKind = .anon := by
  rw [finalKind_eq_kind (by simp [h]), h]

theorem finalKind_resident (w : Bool) (f : Option FrameId) (p : Page) :
    Page.finalKind ⟨w, f, Vm.residentState p.state⟩ = p.finalKind := by
  obtain ⟨_, _, ⟨_, _ | _ | _⟩ | _ | _⟩ := p <;> rfl

theorem kind_resident (w : Bool) (f : Option FrameId) (p : Page) :
    Page.kind ⟨w, f, Vm.residentState p.state⟩ = p.finalKind := by
  obtain ⟨_, _, ⟨_, _ | _ | _⟩ | _ | _⟩ := p <;> rfl

def Page.backing? (p : Page) : Option Backing :=
  match p.state with
  | .untouched _ (.file b) | .file b => some b
  | .untouched _ .anon | .untouched _ .stack | .anon _ _ => none

theorem backing?_resident (wr : Bool) (f : Option FrameId) (p : Page) :
    Page.backing? ⟨wr, f, Vm.residentState p.state⟩ = p.backing? := by
  obtain ⟨_, _, ⟨_, _ | _ | _⟩ | _ | _⟩ := p <;> rfl

/-- What is the same about a page as long as it is registered. -/
structure Page.Like (p q : Page) : Prop where
  writable : q.writable = p.writable
  finalKind : q.finalKind = p.finalKind
  isStack : q.isStack = p.isStack
  backing? : q.backing? = p.backing?
  kind : p.kind ≠ .untouched → q.kind = p.kind

namespace Page.Like

theorem refl (p : Page) : p.Like p := ⟨rfl, rfl, rfl, rfl, fun _ => rfl⟩

theorem trans {u : Page} (h : p.Like q) (k : q.Like u) : p.Like u where
  writable := k.writable.trans h.writable
  finalKind := k.finalKind.trans h.finalKind
  isStack := k.isStack.trans h.isStack
  backing? := k.backing?.trans h.backing?
  kind hp := (k.kind (by rwa [h.kind hp])).trans (h.kind hp)

theorem resident (f : Option FrameId) (p : Page) : p.Like ⟨p.writable, f, Vm.residentState p.state⟩ := by
  refine ⟨rfl, finalKind_resident .., ?_, backing?_resident .., fun hp => ?_⟩
  · obtain ⟨_, _, ⟨_, _ | _ | _⟩ | _ | _⟩ := p <;> rfl
  · rw [kind_resident]
    cases hst : p.state <;> simp [Page.kind, Page.finalKind, hst] at hp ⊢

end Page.Like

namespace View

/-- What a page holds, in its frame or on its slot; a page that is only in a file holds nothing. -/
def cell (v : View) (r : PageRef) : Option Contents :=
  (v.page r).bind fun p =>
    match p.frame with
    | some f => some (v.bytes f)
    | none => p.slot?.map v.kept

theorem cell_of_frame {f : FrameId} (hp : v.page r = some p) (hf : p.frame = some f) :
    v.cell r = some (v.bytes f) := by
  simp [cell, hp, hf]

theorem cell_of_slot {k : Slot} (hp : v.page r = some p) (hf : p.frame = none) (hk : p.slot? = some k) :
    v.cell r = some (v.kept k) := by
  simp [cell, hp, hf, hk]

theorem cell_congr (hp : w.page r = v.page r)
    (hb : ∀ p f, v.page r = some p → p.frame = some f → w.bytes f = v.bytes f)
    (hk : ∀ p k, v.page r = some p → p.slot? = some k → w.kept k = v.kept k) :
    w.cell r = v.cell r := by
  unfold cell
  rw [hp]
  cases hvp : v.page r with
  | none => rfl
  | some p =>
      simp only [Option.bind_some]
      cases hf : p.frame with
      | some f => simp [hb p f hvp hf]
      | none =>
          cases hs : p.slot? with
          | none => rfl
          | some k => simp [hk p k hvp hs]

theorem Coherent.cell_anon (h : v.Coherent) (hp : v.page r = some p) (hk : p.kind = .anon) :
    ∃ c, v.cell r = some c := by
  obtain ⟨slot, stack, hst⟩ := Page.kind_eq_anon.1 hk
  cases hf : p.frame with
  | some f => exact ⟨_, cell_of_frame hp hf⟩
  | none =>
      have hapt := h.apt hp
      rw [Apt, hst, hf] at hapt
      cases slot with
      | none => simp at hapt
      | some k => exact ⟨_, cell_of_slot (k := k) hp hf (by simp [Page.slot?, hst])⟩

theorem Coherent.kind_ne_untouched (h : v.Coherent) {f : FrameId} (hp : v.page r = some p)
    (hf : p.frame = some f) : p.kind ≠ .untouched := by
  intro hk
  have hapt := h.apt hp
  cases hst : p.state <;> simp [Page.kind, hst] at hk
  rw [Apt, hst, hf] at hapt
  cases hapt

theorem Coherent.frame_ne (h : v.Coherent) {f g : FrameId} (hf : v.status f = .pinned)
    (hp : v.page r = some p) (hg : p.frame = some g) : g ≠ f := by
  rintro rfl
  have := (h.held_iff g).2 (by rw [h.resident hp hg]; rfl)
  rw [hf] at this
  cases this

theorem Coherent.frame_inj (h : v.Coherent) {r' : PageRef} {f : FrameId} (hp : v.page r = some p)
    (hf : p.frame = some f) (hq : v.page r' = some q) (hg : q.frame = some f) : r = r' := by
  have := (h.resident hp hf).symm.trans (h.resident hq hg)
  exact Option.some.inj this

end View

namespace View

theorem Step.like (h : v.Step a w) (hp : v.page r = some p) (hr : ∀ saved, a ≠ .removed r saved)
    (hd : a ≠ .dropped r.space) : ∃ q, w.page r = some q ∧ p.Like q := by
  have hsame (hpage : w.page r = v.page r) : ∃ q, w.page r = some q ∧ p.Like q :=
    ⟨p, hpage.trans hp, .refl p⟩
  cases h with
  | @swapped f r' p' k stack l hp' hs | @discarded f r' p' b l hp' hs =>
      by_cases heq : r = r'
      · subst heq
        obtain rfl := Option.some.inj (hp.symm.trans hp')
        refine ⟨_, Function.update_self .., rfl, ?_, ?_, ?_, fun _ => ?_⟩ <;>
          simp [Page.finalKind, Page.isStack, Page.backing?, Page.kind, hs]
      · exact hsame (Function.update_of_ne heq ..)
  | @loaded f r' p' c hp' =>
      by_cases heq : r = r'
      · subst heq
        obtain rfl := Option.some.inj (hp.symm.trans hp')
        exact ⟨_, Function.update_self .., .resident ..⟩
      · exact hsame (Function.update_of_ne heq ..)
  | @added r' _ _ _ hnone =>
      refine hsame (Function.update_of_ne ?_ ..)
      rintro rfl
      rw [hp] at hnone
      cases hnone
  | @removed r' =>
      refine hsame (Function.update_of_ne ?_ ..)
      rintro rfl
      exact hr _ rfl
  | dropped s =>
      refine hsame (if_neg ?_)
      rintro rfl
      exact hd rfl
  | _ => exact hsame rfl

theorem Path.like (h : Path P v w) (hp : v.page r = some p) (hr : ∀ saved, ¬ P (.removed r saved))
    (hd : ¬ P (.dropped r.space)) : ∃ q, w.page r = some q ∧ p.Like q := by
  refine h.keeps (I := fun w => ∃ q, w.page r = some q ∧ p.Like q) ⟨p, hp, .refl p⟩ fun ha hs hw => ?_
  obtain ⟨q, hq, hlike⟩ := hw
  obtain ⟨q', hq', hlike'⟩ := hs.like hq (fun saved heq => hr saved (heq ▸ ha)) fun heq => hd (heq ▸ ha)
  exact ⟨q', hq', hlike.trans hlike'⟩

theorem Step.was_like (h : v.Step a w) (hq : w.page r = some q) (ha : a ≠ .added r q) :
    ∃ p, v.page r = some p ∧ p.Like q := by
  by_cases hadd : ∃ p, a = .added r p
  · obtain ⟨p, rfl⟩ := hadd
    cases h
    cases (Function.update_self ..).symm.trans hq
    exact absurd rfl ha
  · cases hp : v.page r with
    | none =>
        rw [h.absent (fun p heq => hadd ⟨p, heq⟩) hp] at hq
        cases hq
    | some p =>
        have hremoved (saved : Bool) : a ≠ .removed r saved := by
          rintro rfl
          cases h
          cases (Function.update_self ..).symm.trans hq
        have hdropped : a ≠ .dropped r.space := by
          rintro rfl
          cases h
          cases (if_pos rfl).symm.trans hq
        obtain ⟨q', hq', hlike⟩ := h.like hp hremoved hdropped
        cases hq.symm.trans hq'
        exact ⟨p, rfl, hlike⟩

/-- A page is like the one that was there before, or like one that was added on the way. -/
theorem Path.was_like (h : Path P v w) (hq : w.page r = some q) :
    (∃ p, v.page r = some p ∧ p.Like q) ∨ ∃ p, P (.added r p) ∧ p.Like q := by
  refine h.keeps (I := fun w => ∀ q, w.page r = some q →
    (∃ p, v.page r = some p ∧ p.Like q) ∨ ∃ p, P (.added r p) ∧ p.Like q)
    (fun q hq => .inl ⟨q, hq, .refl q⟩) (fun {u w a} ha hs hu q hq => ?_) q hq
  by_cases hadd : a = .added r q
  · exact .inr ⟨q, hadd ▸ ha, .refl q⟩
  · obtain ⟨p, hp, hlike⟩ := hs.was_like hq hadd
    exact (hu p hp).imp (fun ⟨o, ho, hlike'⟩ => ⟨o, ho, hlike'.trans hlike⟩) fun ⟨o, ho, hlike'⟩ =>
      ⟨o, ho, hlike'.trans hlike⟩

theorem Step.kind_eq (h : v.Step a w) (hp : v.page r = some p) (hk : p.kind ≠ .untouched)
    (hr : ∀ saved, a ≠ .removed r saved) (hd : a ≠ .dropped r.space) :
    ∃ q, w.page r = some q ∧ q.kind = p.kind := by
  obtain ⟨q, hq, hlike⟩ := h.like hp hr hd
  exact ⟨q, hq, hlike.kind hk⟩

end View

def Act.Leaves (r : PageRef) (a : Act) : Prop := a ≠ .loaded r ∧ ∀ offset data, a ≠ .stored r offset data

structure Act.Spares (r : PageRef) (a : Act) : Prop where
  stored : ∀ offset data, a ≠ .stored r offset data
  removed : ∀ saved, a ≠ .removed r saved
  dropped : a ≠ .dropped r.space

theorem Act.Quiet.spares (h : a.Quiet) (r : PageRef) : a.Spares r := by
  cases h
  exact ⟨by simp, by simp, by simp⟩

namespace View

/-- A page holds what it held until it is written to or first loaded, or else it holds nothing any more. -/
theorem Step.cell_or (h : v.Step a w) (hv : v.Coherent) (hs : ∀ offset data, a ≠ .stored r offset data)
    (hl : a = .loaded r → ∃ p, v.page r = some p ∧ p.kind = .anon) (hq : w.page r = some q) :
    w.cell r = none ∨ w.cell r = v.cell r ∧ ∃ p, v.page r = some p ∧ p.Like q := by
  have hsame (hpage : w.page r = v.page r) (hcell : w.cell r = v.cell r) :
      w.cell r = none ∨ w.cell r = v.cell r ∧ ∃ p, v.page r = some p ∧ p.Like q :=
    .inr ⟨hcell, q, hpage.symm.trans hq, .refl q⟩
  cases h with
  | spoilt hkept =>
      exact hsame rfl (cell_congr rfl (fun _ _ _ _ => rfl) fun p k hp hk => hkept k (hv.slot_used hp hk))
  | scribbled c hf =>
      refine hsame rfl (cell_congr rfl (fun p g hp hg => ?_) fun _ _ _ _ => rfl)
      exact Function.update_of_ne (hv.frame_ne hf hp hg) ..
  | @swapped f r' p k stack l hp hst hf hk hl =>
      by_cases hr : r = r'
      · subst hr
        replace hq : update v.page r (some ⟨p.writable, none, .anon (some k) stack⟩) r = some q := hq
        rw [Function.update_self] at hq
        cases hq
        refine .inr ⟨?_, p, hp, rfl, ?_, ?_, ?_, fun _ => ?_⟩
        · rw [cell_of_frame hp hf, cell_of_slot (k := k) (Function.update_self ..) rfl rfl]
          exact congrArg some (Function.update_self ..)
        all_goals simp [Page.finalKind, Page.isStack, Page.backing?, Page.kind, hst]
      · refine hsame (Function.update_of_ne hr ..)
          (cell_congr (Function.update_of_ne hr ..) (fun _ _ _ _ => rfl) fun p j hp hj => ?_)
        refine Function.update_of_ne ?_ ..
        rintro rfl
        rw [hv.slot_used hp hj] at hk
        cases hk
  | @discarded f r' p b l hp hst =>
      by_cases hr : r = r'
      · subst hr
        exact .inl (by simp [cell, Page.slot?])
      · exact hsame (Function.update_of_ne hr ..)
          (cell_congr (Function.update_of_ne hr ..) (fun _ _ _ _ => rfl) fun _ _ _ _ => rfl)
  | @loaded f r' p c hp hf hpin hc =>
      by_cases hr : r = r'
      · subst hr
        obtain ⟨p', hp', hk⟩ := hl rfl
        obtain rfl := Option.some.inj (hp.symm.trans hp')
        obtain ⟨slot, stack, hst⟩ := Page.kind_eq_anon.1 hk
        rw [Brings, hst] at hc
        obtain ⟨k, rfl, rfl⟩ := hc
        replace hq : update v.page r (some ⟨p.writable, some f, Vm.residentState p.state⟩) r = some q := hq
        rw [Function.update_self] at hq
        cases hq
        refine .inr ⟨?_, p, hp, .resident ..⟩
        rw [cell_of_slot (k := k) hp hf (by simp [Page.slot?, hst]),
          cell_of_frame (f := f) (Function.update_self ..) rfl]
        exact congrArg some (Function.update_self ..)
      · refine hsame (Function.update_of_ne hr ..)
          (cell_congr (Function.update_of_ne hr ..) (fun p' g hp' hg => ?_) fun _ _ _ _ => rfl)
        exact Function.update_of_ne (hv.frame_ne hpin hp' hg) ..
  | @added r' _ _ _ hnone =>
      by_cases hr : r = r'
      · subst hr
        exact .inl (by simp [cell, Page.slot?, Page.lazy])
      · exact hsame (Function.update_of_ne hr ..)
          (cell_congr (Function.update_of_ne hr ..) (fun _ _ _ _ => rfl) fun _ _ _ _ => rfl)
  | @removed r' p' saved =>
      have hr : r ≠ r' := by
        rintro rfl
        cases (Function.update_self ..).symm.trans hq
      exact hsame (Function.update_of_ne hr ..)
        (cell_congr (Function.update_of_ne hr ..) (fun _ _ _ _ => rfl) fun _ _ _ _ => rfl)
  | @stored f r' p' offset data hp' hf =>
      refine hsame rfl (cell_congr rfl (fun p g hp hg => Function.update_of_ne ?_ ..) fun _ _ _ _ => rfl)
      rintro rfl
      exact hs offset data (by rw [hv.frame_inj hp hg hp' hf])
  | dropped s =>
      have hr : r.space ≠ s := by
        intro hr
        cases (if_pos hr).symm.trans hq
      exact hsame (if_neg hr) (cell_congr (if_neg hr) (fun _ _ _ _ => rfl) fun _ _ _ _ => rfl)
  | _ => exact hsame rfl rfl

theorem Step.cell_eq (h : v.Step a w) (hv : v.Coherent) (ha : a.Spares r) (hp : v.page r = some p)
    (hk : p.kind = .anon) : w.cell r = v.cell r ∧ ∃ q, w.page r = some q ∧ q.kind = .anon := by
  obtain ⟨q, hq, hqk⟩ := h.kind_eq hp (by simp [hk]) ha.removed ha.dropped
  rw [hk] at hqk
  refine ⟨?_, q, hq, hqk⟩
  rcases h.cell_or hv ha.stored (fun _ => ⟨p, hp, hk⟩) hq with hnone | ⟨hcell, -⟩
  · obtain ⟨c, hc⟩ := (hv.step h).cell_anon hq hqk
    rw [hnone] at hc
    cases hc
  · exact hcell

/-- Unless it is loaded or written to on the way, a page holds what it held, or nothing. -/
theorem Path.cell_or (h : Path P v w) (hv : v.Coherent)
    (hP : ∀ a, P a → a.Leaves r) (hq : w.page r = some q) :
    w.cell r = none ∨ w.cell r = v.cell r ∧ ∃ p, v.page r = some p ∧ p.Like q := by
  refine (h.keeps (I := fun w => w.Coherent ∧ ∀ q, w.page r = some q →
    w.cell r = none ∨ w.cell r = v.cell r ∧ ∃ p, v.page r = some p ∧ p.Like q)
    ⟨hv, fun q hq => .inr ⟨rfl, q, hq, .refl q⟩⟩ fun ha hs hw => ⟨hw.1.step hs, fun q hq => ?_⟩).2 q hq
  rcases hs.cell_or hw.1 (hP _ ha).2 (fun heq => absurd heq (hP _ ha).1) hq with hnone | ⟨hcell, p, hp, hlike⟩
  · exact .inl hnone
  · rw [hcell]
    exact (hw.2 p hp).imp_right fun ⟨hcell, p', hp', hlike'⟩ => ⟨hcell, p', hp', hlike'.trans hlike⟩

theorem Path.cell_eq (h : Path P v w) (hv : v.Coherent) (hP : ∀ a, P a → a.Spares r)
    (hp : v.page r = some p) (hk : p.kind = .anon) :
    w.cell r = v.cell r ∧ ∃ q, w.page r = some q ∧ q.kind = .anon := by
  refine (h.keeps (I := fun w => w.Coherent ∧ w.cell r = v.cell r ∧ ∃ q, w.page r = some q ∧ q.kind = .anon)
    ⟨hv, rfl, p, hp, hk⟩ fun ha hs hw => ?_).2
  obtain ⟨hc, hcell, q, hq, hqk⟩ := hw
  obtain ⟨hcell', hpage⟩ := hs.cell_eq hc (hP _ ha) hq hqk
  exact ⟨hc.step hs, hcell'.trans hcell, hpage⟩

end View

end DemandPaging
