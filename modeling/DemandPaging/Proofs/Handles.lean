import DemandPaging.Proofs.Dropped
import DemandPaging.Proofs.Holding

namespace DemandPaging

open Step Machine

variable {hw : Hardware} {l : List Turn} {m n : Machine} {t : Turn} {c : Call} {v : View} {s : SpaceId} {r : PageRef}
  {p : Page} {f : FileId} {g : Handle} {held : List Handle}

namespace Machine

def opened (m : Machine) (held : List Handle) (f : FileId) : Finset Handle :=
  ((held ++ m.spaces.toList.flatMap (·.2.handles)).filter (·.file = f)).toFinset

def openHandles (m : Machine) (held : List Handle) (f : FileId) : Nat := (m.opened held f).card

theorem mem_opened : g ∈ m.opened held f ↔ (g ∈ held ∨ ∃ s, m.view.Holds s g) ∧ g.file = f := by
  have hspaces : (∃ x ∈ m.spaces.toList, g ∈ x.2.handles) ↔ ∃ s, m.view.Holds s g := by
    constructor
    · rintro ⟨⟨i, sp⟩, hx, hg⟩
      exact ⟨⟨i⟩, (mem_handles (Std.ExtTreeMap.mem_toList_iff_getElem?_eq_some.1 hx)).1 hg⟩
    · rintro ⟨s, hg⟩
      cases hs : m.space? s with
      | none => simp [View.Holds, View.regions, view, hs] at hg
      | some sp =>
          exact ⟨(s.number, sp), Std.ExtTreeMap.mem_toList_iff_getElem?_eq_some.2 hs, (mem_handles hs).2 hg⟩
  simp only [opened, List.mem_toFinset, List.mem_filter, List.mem_append, List.mem_flatMap, hspaces, decide_eq_true_eq]

theorem openHandles_congr (h : ∀ s g, n.view.Holds s g ↔ m.view.Holds s g) (held : List Handle) (f : FileId) :
    n.openHandles held f = m.openHandles held f := by
  refine congrArg Finset.card (Finset.ext fun g => ?_)
  simp only [mem_opened, h]

theorem openHandles_mono (h : ∀ s g, n.view.Holds s g → m.view.Holds s g) (held : List Handle) (f : FileId) :
    n.openHandles held f ≤ m.openHandles held f := by
  refine Finset.card_le_card fun g hg => ?_
  rw [mem_opened] at hg ⊢
  exact ⟨hg.1.imp_right fun ⟨s, hs⟩ => ⟨s, h s g hs⟩, hg.2⟩

theorem openHandles_insert (hnew : ∃ s, n.view.Holds s g) (hheld : g ∉ held) (hfresh : ∀ s, ¬ m.view.Holds s g)
    (honly : ∀ s g', n.view.Holds s g' → m.view.Holds s g' ∨ g' = g)
    (hkept : ∀ s g', m.view.Holds s g' → n.view.Holds s g') (f : FileId) :
    n.openHandles held f = m.openHandles held f + if f = g.file then 1 else 0 := by
  have hholds (g' : Handle) : (∃ s, n.view.Holds s g') ↔ (∃ s, m.view.Holds s g') ∨ g' = g := by
    constructor
    · rintro ⟨s, hs⟩
      exact (honly s g' hs).imp_left fun hs => ⟨s, hs⟩
    · rintro (⟨s, hs⟩ | rfl)
      · exact ⟨s, hkept s g' hs⟩
      · exact hnew
  unfold openHandles
  by_cases hf : f = g.file
  · rw [if_pos hf]
    have hopened : n.opened held f = insert g (m.opened held f) := by
      ext g'
      simp only [Finset.mem_insert, mem_opened, hholds]
      constructor
      · rintro ⟨hg | hg | rfl, hfile⟩
        · exact .inr ⟨.inl hg, hfile⟩
        · exact .inr ⟨.inr hg, hfile⟩
        · exact .inl rfl
      · rintro (rfl | ⟨hg, hfile⟩)
        · exact ⟨.inr (.inr rfl), hf.symm⟩
        · exact ⟨hg.imp_right .inl, hfile⟩
    rw [hopened, Finset.card_insert_of_notMem]
    simp [mem_opened, hheld, hfresh]
  · rw [if_neg hf, Nat.add_zero]
    refine congrArg Finset.card (Finset.ext fun g' => ?_)
    simp only [mem_opened, hholds]
    refine and_congr_left fun hfile => or_congr_right (or_iff_left ?_)
    rintro rfl
    exact hf hfile.symm

/-- The handles that are counted are those that spaces hold and the one that the file came with. -/
theorem handleCount_eq (m : Machine) (f : FileId) : m.handleCount f = m.openHandles [⟨f, 0⟩] f := by
  have hopened : m.opened [⟨f, 0⟩] f = insert ⟨f, 0⟩ (m.duplicates f).toFinset := by
    ext g
    simp only [mem_opened, Finset.mem_insert, List.mem_toFinset, mem_duplicates, List.mem_singleton]
    constructor
    · rintro ⟨hg | hg, rfl⟩
      · exact .inl hg
      · by_cases hserial : g.serial = 0
        · exact .inl (by rw [← hserial])
        · exact .inr ⟨hg, rfl, hserial⟩
    · rintro (rfl | ⟨hg, rfl, -⟩)
      · exact ⟨.inl rfl, rfl⟩
      · exact ⟨.inr hg, rfl⟩
  have hserials : ((m.duplicates f).map (·.serial)).eraseDups.length = (m.duplicates f).toFinset.card := by
    have himage : ((m.duplicates f).map (·.serial)).eraseDups.toFinset =
        (m.duplicates f).toFinset.image (·.serial) := by
      ext i
      simp
    rw [← List.toFinset_card_of_nodup (nodup_eraseDups _), himage, Finset.card_image_of_injOn]
    intro g hg g' hg' heq
    have hfile := (mem_duplicates.1 (List.mem_toFinset.1 hg)).2.1
    have hfile' := (mem_duplicates.1 (List.mem_toFinset.1 hg')).2.1
    obtain ⟨file, serial⟩ := g
    obtain ⟨file', serial'⟩ := g'
    obtain rfl : file = file' := hfile.trans hfile'.symm
    exact congrArg (Handle.mk file) heq
  rw [handleCount, openHandles, hopened, Finset.card_insert_of_notMem (by simp [mem_duplicates]), hserials,
    Nat.add_comm]

end Machine

namespace Call

def handles : Call → List Handle
  | register _ _ writable purpose filling => (Page.lazy writable purpose filling).handles
  | map _ _ _ _ h _ | segment _ h .. => [h]
  | newSpace | dropSpace _ | claim .. | remove .. | destroy _ | read .. | write .. | saveStack .. | fault .. |
    handle .. | unmap .. | startStack _ | fork .. | newFile _ | limitFile .. | overwrite .. | setFaults _ => []

def gives : Call → Bool
  | register .. | map .. | segment .. | fork .. => true
  | newSpace | dropSpace _ | claim .. | remove .. | destroy _ | read .. | write .. | saveStack .. | fault .. |
    handle .. | unmap .. | startStack _ | newFile _ | limitFile .. | overwrite .. | setFaults _ => false

theorem handles_of_not_gives (h : c.gives = false) : c.handles = [] := by
  cases c <;> first | rfl | cases h

theorem Removes.mem_spaces {w : View} {saved : Bool} (h : c.Removes v w r saved) : r.space ∈ c.spaces := by
  cases c with
  | remove => exact List.mem_singleton.2 (congrArg PageRef.space h)
  | fork => exact List.mem_cons.2 (.inl h)
  | destroy | unmap | read | write | fault | handle | startStack | map | segment => exact List.mem_singleton.2 h.1
  | _ => exact h.elim

theorem Books.mem_spaces {b : Book} (h : c.Books v s b) : s ∈ c.spaces := by
  cases c with
  | fork => exact List.mem_cons.2 (.inl h)
  | destroy => exact List.mem_singleton.2 h
  | map | unmap | read | write | fault | handle | segment | startStack | saveStack => exact List.mem_singleton.2 h.1
  | _ => exact h.elim

theorem Registers.handles (h : c.Registers v r p) (hmap : ∀ s addr len w hd offset, c ≠ .map s addr len w hd offset)
    (hfork : ∀ child parent, c ≠ .fork child parent) (hg : g ∈ p.handles) : g ∈ c.handles := by
  cases c with
  | register =>
      obtain ⟨-, rfl⟩ := h
      exact hg
  | segment =>
      obtain ⟨-, i, -, rfl⟩ := h
      exact hg
  | read | write | fault | handle | startStack =>
      obtain ⟨-, rfl⟩ := h
      exact hg
  | map => exact (hmap _ _ _ _ _ _ rfl).elim
  | fork => exact (hfork _ _ rfl).elim
  | _ => exact h.elim

theorem Books.region {b : Book} {start : Addr} {i : Region} (h : c.Books v s b)
    (hmap : ∀ s addr len w hd offset, c ≠ .map s addr len w hd offset)
    (hfork : ∀ child parent, c ≠ .fork child parent) (hdestroy : c ≠ .destroy s) (hi : b.regions[start]? = some i) :
    (v.regions s)[start]? = some i := by
  cases c with
  | unmap =>
      obtain ⟨rfl, hb⟩ := h
      rw [hb, Std.ExtTreeMap.getElem?_erase] at hi
      exact (Option.ite_none_left_eq_some.1 hi).2
  | read | write | fault | handle | segment | startStack | saveStack =>
      obtain ⟨rfl, hb⟩ := h
      rwa [← hb]
  | destroy =>
      obtain rfl : s = _ := h
      exact absurd rfl hdestroy
  | map => exact (hmap _ _ _ _ _ _ rfl).elim
  | fork => exact (hfork _ _ rfl).elim
  | _ => exact h.elim

end Call

section

variable (h : m.Sound) (hc : ∀ s ∈ c.spaces, (m.space? s).isSome)
include h hc

theorem holds_outside (hs : s ∉ c.spaces) (g : Handle) : (c.turn m).after.view.Holds s g ↔ m.view.Holds s g := by
  have hregions : (c.turn m).after.view.regions s = m.view.regions s :=
    regions_kept h hc (fun b hb => absurd hb.mem_spaces hs) fun heq => hs (heq ▸ List.mem_singleton_self s)
  have hcall : (c.turn m).call = c := call_turn ..
  refine (path_turn h hc).holds_iff h.coherent hregions ?_ ?_ ?_ ?_
  · intro va ha
    have hmem : s ∈ (c.turn m).call.spaces := ha
    rw [hcall] at hmem
    exact hs hmem
  · intro va p ha
    have hmem : s ∈ (c.turn m).call.spaces := Call.Registers.mem_spaces ha.2
    rw [hcall] at hmem
    exact hs hmem
  · intro va saved ha
    have hmem : s ∈ (c.turn m).call.spaces := Call.Removes.mem_spaces ha.2
    rw [hcall] at hmem
    exact hs hmem
  · intro ha
    have hdrop : (c.turn m).call = .dropSpace s := ha
    rw [hcall] at hdrop
    exact hs (hdrop ▸ List.mem_singleton_self s)

/-- Spaces come to hold handles only when one is passed, or a file is mapped or a space copied. -/
theorem holds_turn (hmap : ∀ s addr len w hd offset, c ≠ .map s addr len w hd offset)
    (hfork : ∀ child parent, c ≠ .fork child parent) (hg : (c.turn m).after.view.Holds s g) :
    m.view.Holds s g ∨ g ∈ c.handles := by
  have hpath := path_turn h hc
  have hcall : (c.turn m).call = c := call_turn ..
  have hbefore : (c.turn m).before = m := before_turn ..
  rcases hg with ⟨start, i, hi, rfl⟩ | ⟨va, q, hq, hg⟩
  · by_cases hdestroy : c = .destroy s
    · subst hdestroy
      rw [regions_destroy h (Call.live hc (List.mem_singleton_self s))] at hi
      simp at hi
    · rcases hpath.region_of hi with hi | ⟨b, hb, hi⟩
      · exact .inl (.inl ⟨start, i, hi, rfl⟩)
      · have hbooks : (c.turn m).call.Books (c.turn m).before.view s b := hb
        rw [hcall, hbefore] at hbooks
        exact .inl (.inl ⟨start, i, hbooks.region hmap hfork hdestroy hi, rfl⟩)
  · rcases hpath.handles_of_page hq hg with ⟨p, hp, hg⟩ | ⟨p, ha, hg⟩
    · exact .inl (.inr ⟨va, p, hp, hg⟩)
    · have hregisters : (c.turn m).call.Registers (c.turn m).before.view ⟨s, va⟩ p := ha.2
      rw [hcall, hbefore] at hregisters
      exact .inr (hregisters.handles hmap hfork hg)

theorem holds_of_not_gives (hgives : c.gives = false) (hg : (c.turn m).after.view.Holds s g) : m.view.Holds s g := by
  refine (holds_turn h hc ?_ ?_ hg).resolve_right ?_
  · rintro s addr len w hd offset rfl
    cases hgives
  · rintro child parent rfl
    cases hgives
  · rw [Call.handles_of_not_gives hgives]
    exact List.not_mem_nil

end

theorem nextHandle_turn (c : Call) (m : Machine) : m.nextHandle ≤ (c.turn m).after.nextHandle := by
  by_cases hf : ∃ faults, c = .setFaults faults
  · obtain ⟨faults, rfl⟩ := hf
    exact Nat.le_refl _
  · have hkeeps := (Vm.lasting_whole (lasting_numbered m.nextHandle)).exec fun faults heq => hf ⟨faults, heq⟩
    exact Call.turn_cases (fun t => Numbered m.nextHandle t.after) (hkeeps.yields m (Nat.le_refl _))

section

variable (h : m.Sound) (hs : (m.view.book s).isSome) (addr len : Nat) (wr : Bool) (hd : Handle) (offset : Nat)
include h hs

/-- A mapping that fails leaves pages and regions as they were. One that is made has pages and a region of its own, and
a handle that was not numbered before. -/
theorem map_turn :
    ((Call.map s addr len wr hd offset).turn m).succeeds = false ∧
        ((Call.map s addr len wr hd offset).turn m).after.view.page = m.view.page ∨
      ((Call.map s addr len wr hd offset).turn m).succeeds = true ∧
        Mapped m.view ((Call.map s addr len wr hd offset).turn m).after.view s addr len wr
          ⟨hd.file, m.nextHandle⟩ offset ∧
        (∀ r, (∀ j < pagesFor len, r ≠ ⟨s, addr + j * pageSize⟩) →
          ((Call.map s addr len wr hd offset).turn m).after.view.page r = m.view.page r) ∧
        m.nextHandle < ((Call.map s addr len wr hd offset).turn m).after.nextHandle := by
  refine Call.turn_cases (c := .map s addr len wr hd offset) (m := m)
    (fun t => t.succeeds = false ∧ t.after.view.page = m.view.page ∨
    t.succeeds = true ∧ Mapped m.view t.after.view s addr len wr ⟨hd.file, m.nextHandle⟩ offset ∧
      (∀ r, (∀ j < pagesFor len, r ≠ ⟨s, addr + j * pageSize⟩) → t.after.view.page r = m.view.page r) ∧
      m.nextHandle < t.after.nextHandle)
    ((Vm.yields_addMapping h hs addr len wr hd offset).bind ?_ ?_)
  · rintro _ n ⟨-, -, -, hmapped, -, hpage, hnext, -⟩
    exact yields_pure.2 (.inr ⟨rfl, hmapped, hpage, hnext⟩)
  · intro e n hn
    obtain ⟨err, rfl, -, -, hback, -⟩ := hn.error
    exact .inl ⟨rfl, hback.page⟩

theorem holds_map_failed (hfail : ((Call.map s addr len wr hd offset).turn m).succeeds = false) (s' : SpaceId)
    (g : Handle) : ((Call.map s addr len wr hd offset).turn m).after.view.Holds s' g ↔ m.view.Holds s' g := by
  by_cases hs' : s' = s
  · subst hs'
    obtain ⟨-, hpage⟩ := (map_turn h hs addr len wr hd offset).resolve_right (by simp [hfail])
    obtain ⟨-, hregions⟩ := (regions_map h hs addr len wr hd offset).resolve_right (by simp [hfail])
    simp only [View.Holds, hpage, hregions]
  · exact holds_outside h (Call.live_of_single rfl hs) (fun hmem => hs' (List.mem_singleton.1 hmem)) g

theorem holds_map (hok : ((Call.map s addr len wr hd offset).turn m).succeeds = true) :
    m.nextHandle < ((Call.map s addr len wr hd offset).turn m).after.nextHandle ∧
      (∃ s', ((Call.map s addr len wr hd offset).turn m).after.view.Holds s' ⟨hd.file, m.nextHandle⟩) ∧
      (∀ s' g, ((Call.map s addr len wr hd offset).turn m).after.view.Holds s' g →
        m.view.Holds s' g ∨ g = ⟨hd.file, m.nextHandle⟩) ∧
      ((m.view.regions s)[addr]? = none → ∀ s' g, m.view.Holds s' g →
        ((Call.map s addr len wr hd offset).turn m).after.view.Holds s' g) := by
  have hc := Call.live_of_single (c := .map s addr len wr hd offset) rfl hs
  have houtside (s' : SpaceId) (hs' : s' ≠ s) (g : Handle) := holds_outside h hc (s := s')
    (fun hmem => hs' (List.mem_singleton.1 hmem)) g
  obtain ⟨-, hmapped, hpage, hnext⟩ := (map_turn h hs addr len wr hd offset).resolve_left (by simp [hok])
  obtain ⟨-, -, hregions⟩ := (regions_map h hs addr len wr hd offset).resolve_left (by simp [hok])
  generalize ((Call.map s addr len wr hd offset).turn m).after = n at *
  refine ⟨hnext, ⟨s, .inl ⟨addr, _, hmapped.region, rfl⟩⟩, fun s' g hg => ?_, fun hnone s' g hg => ?_⟩
  · by_cases hs' : s' = s
    swap
    · exact .inl ((houtside s' hs' g).1 hg)
    subst hs'
    rcases hg with ⟨start, i, hi, rfl⟩ | ⟨va, q, hq, hg⟩
    · rw [hregions, Std.ExtTreeMap.getElem?_insert] at hi
      split at hi
      · cases hi
        exact .inr rfl
      · exact .inl (.inl ⟨start, i, hi, rfl⟩)
    · by_cases hpart : ∃ j < pagesFor len, (⟨s', va⟩ : PageRef) = ⟨s', addr + j * pageSize⟩
      · obtain ⟨j, hj, heq⟩ := hpart
        rw [heq, (hmapped.part j hj).2] at hq
        cases hq
        exact .inr (by simpa [Page.handles, mappingPage, Page.lazy, Filling.handles, Purpose.handles,
          mappingBacking] using hg)
      · push Not at hpart
        rw [hpage _ hpart] at hq
        exact .inl (.inr ⟨va, q, hq, hg⟩)
  · by_cases hs' : s' = s
    swap
    · exact (houtside s' hs' g).2 hg
    subst hs'
    rcases hg with ⟨start, i, hi, rfl⟩ | ⟨va, q, hq, hg⟩
    · refine .inl ⟨start, i, ?_, rfl⟩
      rw [hregions, Std.ExtTreeMap.getElem?_insert, if_neg, hi]
      intro heq
      rw [Std.LawfulEqCmp.eq_of_compare heq, hi] at hnone
      cases hnone
    · refine .inr ⟨va, q, ?_, hg⟩
      rw [hpage, hq]
      intro j hj heq
      rw [heq, (hmapped.part j hj).1] at hq
      cases hq

end

theorem holds_fork_failed (h : Runs hw l m) {child parent : SpaceId} (hc : (m.view.book child).isSome)
    (hp : (m.view.book parent).isSome) (hfail : ((Call.fork child parent).turn m).succeeds = false) (s : SpaceId)
    (g : Handle) :
    ((Call.fork child parent).turn m).after.view.Holds s g ↔ s ≠ child ∧ m.view.Holds s g := by
  rcases fork_turn h.sound hc hp (h.charted.bounded parent) with ⟨hok, -⟩ | ⟨-, hleads, hpages, hbook⟩
  · rw [hfail] at hok
    cases hok
  generalize ((Call.fork child parent).turn m).after = n at *
  by_cases hs : s = child
  · subst hs
    obtain ⟨b, hb⟩ := Option.isSome_iff_exists.1 hc
    have hregions : n.view.regions s = ∅ := by
      rw [View.regions, hbook, Function.update_self, hb]
      rfl
    exact iff_of_false (not_holds_of_vacant (isVacant_iff.2 ⟨hpages, hregions⟩) g) fun hg => hg.1 rfl
  · have hothers := (hleads.mono fun _ ha => ha.within).path.undisturbed h.sound.coherent hs
      (by rw [hbook, Function.update_of_ne hs])
    rw [hothers.holds_iff]
    exact ⟨fun hg => ⟨hs, hg⟩, And.right⟩

theorem knows_fork (h : m.Sound) {child parent : SpaceId} (hc : (m.view.book child).isSome)
    (hp : (m.view.book parent).isSome) : ((Call.fork child parent).turn m).succeeds = true →
      ∀ s g, ((Call.fork child parent).turn m).after.view.Holds s g →
        m.Knows ((Call.fork child parent).turn m).after g := by
  refine Call.turn_cases (c := .fork child parent) (m := m)
    (fun t => t.succeeds = true → ∀ s g, t.after.view.Holds s g → m.Knows t.after g)
    ((Vm.yields_fork_knows h hc hp).bind ?_ ?_)
  · exact fun _ n hn => yields_pure.2 fun _ => hn
  · rintro e n - ⟨⟩

/-- A handle that a space holds after a turn was held before, was passed, or was opened in the turn. One that was closed
is never held again. -/
theorem Runs.knows_turn (h : Runs hw l m) (hc : ∀ s ∈ c.spaces, (m.space? s).isSome)
    (hg : (c.turn m).after.view.Holds s g) : m.Knows (c.turn m).after g ∨ g ∈ c.handles := by
  have hlive {s : SpaceId} (hs : s ∈ c.spaces) : (m.view.book s).isSome := Call.live hc hs
  cases c with
  | map s' addr len wr hd offset =>
      have hs := hlive (List.mem_singleton_self s')
      refine .inl ?_
      cases hok : ((Call.map s' addr len wr hd offset).turn m).succeeds with
      | false => exact .inl ⟨s, (holds_map_failed h.sound hs _ _ _ _ _ hok s g).1 hg⟩
      | true =>
          obtain ⟨hnext, -, hnew, -⟩ := holds_map h.sound hs _ _ _ _ _ hok
          rcases hnew s g hg with hg | rfl
          · exact .inl ⟨s, hg⟩
          · exact .inr ⟨Nat.le_refl _, hnext⟩
  | fork child parent =>
      have hchild := hlive (s := child) (by simp [Call.spaces])
      have hparent := hlive (s := parent) (by simp [Call.spaces])
      refine .inl ?_
      cases hok : ((Call.fork child parent).turn m).succeeds with
      | false => exact .inl ⟨s, ((holds_fork_failed h hchild hparent hok s g).1 hg).2⟩
      | true => exact knows_fork h.sound hchild hparent hok s g hg
  | _ => exact (holds_turn h.sound hc (by simp) (by simp) hg).imp_left fun hg => .inl ⟨s, hg⟩

/-- The handles that are passed were opened before. -/
def Turn.Genuine (t : Turn) : Prop := ∀ g ∈ t.call.handles, g.serial < t.before.nextHandle

instance : DecidablePred Turn.Genuine := fun t =>
  inferInstanceAs (Decidable (∀ g ∈ t.call.handles, g.serial < t.before.nextHandle))

theorem Runs.numbered (h : Runs hw l m) (hgenuine : ∀ t ∈ l, t.Genuine) (hg : m.view.Holds s g) :
    g.serial < m.nextHandle := by
  induction h generalizing s g with
  | boot => exact absurd hg (not_holds_of_vacant (isVacant_iff.2 ⟨fun va => page_boot _, rfl⟩) g)
  | @turn l m h c hc ih =>
      have hnext := nextHandle_turn c m
      rcases h.knows_turn hc hg with (⟨s', hg⟩ | hg) | hg
      · exact Nat.lt_of_lt_of_le (ih (fun t ht => hgenuine t (List.mem_cons_of_mem _ ht)) hg) hnext
      · exact hg.2
      · have hpassed := hgenuine _ List.mem_cons_self g (by rwa [call_turn])
        rw [before_turn] at hpassed
        exact Nat.lt_of_lt_of_le hpassed hnext

theorem Runs.not_holds_of_retired (h : Runs hw l m) (hs : Retired s l) (g : Handle) : ¬ m.view.Holds s g := by
  induction h with
  | boot => exact hs.elim
  | @turn l m h c hc ih =>
      rw [Retired, call_turn] at hs
      rcases hs with rfl | ⟨hout, hs⟩
      · have hlive := Call.live hc (List.mem_singleton_self s)
        exact not_holds_of_vacant (isVacant_iff.2
          ⟨(fair_destroy h.sound hlive).2, regions_destroy h.sound hlive⟩) g
      · rw [holds_outside h.sound hc hout]
        exact ih hs

theorem holds_acquire (h : m.Sound) (s : SpaceId) (g : Handle) :
    (Vm.acquire.last m).view.Holds s g ↔ m.view.Holds s g := by
  have hquiet {n : Machine} (hn : m.Goes Act.Quiet n) : n.view.Holds s g ↔ m.view.Holds s g := by
    have hbook := hn.path.quiet_book
    refine hn.path.holds_iff h.coherent ?_ (by simp [Act.Quiet]) (by simp [Act.Quiet]) (by simp [Act.Quiet])
      (by simp [Act.Quiet])
    rw [View.regions, hbook, View.regions]
  refine Yields.last (I := fun n => n.view.Holds s g ↔ m.view.Holds s g)
    ((Vm.yields_acquire_grants h).mono (fun f n hn => hquiet hn.1.toGoes) fun e n hn => ?_)
  obtain ⟨-, -, -, hleads, -⟩ := hn.error
  exact hquiet hleads.toGoes

theorem handle_of_backing {b : Backing} (hb : p.backing? = some b) : b.handle ∈ p.handles := by
  obtain ⟨_, _, ⟨filling, _ | _ | _⟩ | _ | _⟩ := p <;>
    simp_all [Page.handles, Page.backing?, Purpose.handles]

/-- A page that is still there is backed through the same handle. -/
theorem holds_backing (h : m.Sound) (hc : ∀ s ∈ c.spaces, (m.space? s).isSome) (hp : m.view.page r = some p)
    {b : Backing} (hb : p.backing? = some b) (hr : ((c.turn m).after.view.page r).isSome) :
    (c.turn m).after.view.Holds r.space b.handle := by
  have hremoved (saved : Bool) : ¬ (c.turn m).May (.removed r saved) := fun ha => by
    rw [ha.1] at hr
    cases hr
  have hdropped : ¬ (c.turn m).May (.dropped r.space) := fun ha => by
    have hdrop : (c.turn m).call = .dropSpace r.space := ha
    rw [call_turn] at hdrop
    subst hdrop
    rw [after_dropSpace, view_withoutSpace] at hr
    simp at hr
  obtain ⟨q, hq, hlike⟩ := (path_turn h hc).like hp hremoved hdropped
  exact .inr ⟨r.va, q, hq, handle_of_backing (hlike.backing?.trans hb)⟩

/-- What a turn makes of the handles that are open, when the caller has those of `held`. -/
structure Minds (l : List Turn) (t : Turn) (held : List Handle) (m : Machine) : Prop where
  map_failed : ∀ {s addr len wr hd offset}, t.call = .map s addr len wr hd offset → t.succeeds = false →
    ∀ f, m.openHandles held f = t.before.openHandles held f
  map_made : ∀ {s addr len wr hd offset}, t.call = .map s addr len wr hd offset → t.succeeds = true →
    (t.before.view.regions s)[addr]? = none →
    ∀ f, m.openHandles held f = t.before.openHandles held f + if f = hd.file then 1 else 0
  fork_failed : ∀ {child parent}, t.call = .fork child parent → t.succeeds = false →
    (∀ f, m.openHandles held f ≤ t.before.openHandles held f) ∧
      (t.before.isVacant child = true → ∀ f, m.openHandles held f = t.before.openHandles held f)
  lowered : t.call.gives = false → ∀ f, m.openHandles held f ≤ t.before.openHandles held f
  evicting : ∀ f, (Vm.acquire.last m).openHandles held f = m.openHandles held f
  remains : ∀ s g, m.view.Holds s g → g ∈ m.opened [] g.file
  backing : ∀ r p b, t.before.view.page r = some p → p.backing? = some b → (m.view.page r).isSome →
    m.view.Holds r.space b.handle
  outside : ∀ s g, s ∉ t.call.spaces → (m.view.Holds s g ↔ t.before.view.Holds s g)
  known : ∀ s g, m.view.Holds s g → t.before.Knows m g ∨ g ∈ t.call.handles
  closed : (∀ s, (m.space? s).isSome → m.isVacant s = true ∨ Retired s (t :: l)) →
    ∀ f, m.opened held f = (held.filter (·.file = f)).toFinset

/-- No handle leaks and none is closed early. -/
theorem Runs.minds_handles (h : Runs hw (t :: l) m) (hgenuine : ∀ u ∈ t :: l, u.Genuine)
    (hheld : ∀ g ∈ held, g.serial < t.before.nextHandle) :
    (∀ f, m.handleCount f = m.openHandles [⟨f, 0⟩] f) ∧ Minds l t held m := by
  refine ⟨m.handleCount_eq, ?_⟩
  have hretired (hall : ∀ s, (m.space? s).isSome → m.isVacant s = true ∨ Retired s (t :: l)) (s : SpaceId)
      (g : Handle) : ¬ m.view.Holds s g := by
    cases hs : m.space? s with
    | none => exact not_holds_of_vacant (by rw [isVacant, hs]; rfl) g
    | some sp =>
        rcases hall s (by rw [hs]; rfl) with hvacant | hs
        · exact not_holds_of_vacant hvacant g
        · exact h.not_holds_of_retired hs g
  have hacquire := holds_acquire h.sound
  have hnumbered (s : SpaceId) (g : Handle) (hg : t.before.view.Holds s g) : g.serial < t.before.nextHandle :=
    h.before.numbered (fun u hu => hgenuine u (List.mem_cons_of_mem _ hu)) hg
  cases h with
  | @turn _ m h c hc =>
      rw [before_turn] at hheld hnumbered
      have hm := h.sound
      constructor
      case map_failed =>
          rw [call_turn, before_turn]
          rintro s addr len wr hd offset rfl hfail
          exact openHandles_congr (holds_map_failed hm (Call.live hc (List.mem_singleton_self s)) _ _ _ _ _ hfail) held
      case map_made =>
          rw [call_turn, before_turn]
          rintro s addr len wr hd offset rfl hok hnone f
          obtain ⟨-, hnew, honly, hkept⟩ := holds_map hm (Call.live hc (List.mem_singleton_self s)) _ _ _ _ _ hok
          exact openHandles_insert hnew (fun hg => Nat.lt_irrefl _ (hheld _ hg))
            (fun s hg => Nat.lt_irrefl _ (hnumbered s _ hg)) honly (hkept hnone) f
      case fork_failed =>
          rw [call_turn, before_turn]
          rintro child parent rfl hfail
          have hholds := holds_fork_failed h (Call.live hc (s := child) (by simp [Call.spaces]))
            (Call.live hc (s := parent) (by simp [Call.spaces])) hfail
          refine ⟨openHandles_mono (fun s g hg => ((hholds s g).1 hg).2) held, fun hvacant =>
            openHandles_congr (fun s g => ?_) held⟩
          rw [hholds, and_iff_right_iff_imp]
          rintro hg rfl
          exact not_holds_of_vacant hvacant g hg
      case lowered =>
          rw [call_turn, before_turn]
          exact fun hgives => openHandles_mono (fun _ _ => holds_of_not_gives hm hc hgives) held
      case evicting => exact openHandles_congr hacquire held
      case remains => exact fun s g hg => mem_opened.2 ⟨.inr ⟨s, hg⟩, rfl⟩
      case backing =>
          rw [before_turn]
          exact fun r p b hp hb hr => holds_backing hm hc hp hb hr
      case outside =>
          rw [call_turn, before_turn]
          exact fun s g hs => holds_outside hm hc hs g
      case known =>
          rw [call_turn, before_turn]
          exact fun s g hg => h.knows_turn hc hg
      case closed =>
          intro hall f
          ext g
          simp only [mem_opened, List.mem_toFinset, List.mem_filter, decide_eq_true_eq]
          refine and_congr_left fun _ => or_iff_left ?_
          rintro ⟨s, hg⟩
          exact hretired hall s g hg

def mapForkDestroy : List Call :=
  [.destroy ⟨2⟩, .dropSpace ⟨1⟩, .claim ⟨2⟩ 0x1000, .fork ⟨2⟩ ⟨1⟩, .map ⟨1⟩ 0x1000 3 true ⟨⟨0⟩, 0⟩ 0,
    .newFile #[1, 2, 3], .newSpace, .newSpace]

/-- The child's handle outlives its parent, and only the one is left in the end that the file came with. -/
theorem minds_handles_of_child :
    (Hardware.pair.machine (mapForkDestroy.drop 4)).handleCount ⟨0⟩ = 2 ∧
      (Hardware.pair.machine (mapForkDestroy.drop 3)).handleCount ⟨0⟩ = 3 ∧
      (Hardware.pair.machine (mapForkDestroy.drop 1)).handleCount ⟨0⟩ = 2 ∧
      (Hardware.pair.machine mapForkDestroy).handleCount ⟨0⟩ = 1 := by
  have hrun : Runs .pair (Hardware.pair.turns mapForkDestroy) (Hardware.pair.machine mapForkDestroy) :=
    Hardware.runs .pair (by decide +kernel)
  have hgenuine : ∀ t ∈ Hardware.pair.turns mapForkDestroy, t.Genuine := by decide +kernel
  have hheld : ∀ g ∈ [(⟨⟨0⟩, 0⟩ : Handle)],
      g.serial < (Hardware.pair.machine (mapForkDestroy.drop 1)).nextHandle := by decide +kernel
  have hkeys : (Hardware.pair.machine mapForkDestroy).spaces.keys = [2] := by decide +kernel
  obtain ⟨hcount, hminds⟩ := hrun.minds_handles hgenuine (by rwa [before_turn])
  refine ⟨by decide +kernel, by decide +kernel, by decide +kernel, ?_⟩
  rw [hcount, openHandles, hminds.closed fun s hs => ?_]
  · rfl
  · have hmem := mem_keys_of_space? hs
    rw [hkeys, List.mem_singleton] at hmem
    obtain rfl : s = ⟨2⟩ := congrArg SpaceId.mk hmem
    exact .inr (.inl (call_turn ..))

end DemandPaging
