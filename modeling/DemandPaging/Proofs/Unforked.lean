import DemandPaging.Proofs.Forked
import DemandPaging.Proofs.OneToOne
import DemandPaging.Proofs.SlotAccounts

namespace DemandPaging

open Function (update)
open Machine

variable {hw : Hardware} {l : List Turn} {m n : Machine} {t : Turn} {v w : View} {s child parent : SpaceId}
  {sp : Space} {p q : Page} {g : Handle} {P : Act → Prop}

/-- The library has which elements are left, `List.mem_eraseDups`, but not this. -/
theorem nodup_eraseDups : (l : List Nat) → l.eraseDups.Nodup
  | [] => List.nodup_nil
  | i :: l => by
      have hshort : (l.filter fun j => !j == i).length < l.length + 1 :=
        Nat.lt_succ_of_le (List.length_filter_le ..)
      rw [List.eraseDups_cons, List.nodup_cons]
      exact ⟨by simp, nodup_eraseDups _⟩
termination_by l => l.length

def View.Holds (v : View) (s : SpaceId) (g : Handle) : Prop :=
  (∃ (start : Addr) (r : Region), (v.regions s)[start]? = some r ∧ r.handle = g) ∨
    ∃ va p, v.page ⟨s, va⟩ = some p ∧ g ∈ p.handles

theorem mem_handles (hs : m.space? s = some sp) : g ∈ sp.handles ↔ m.view.Holds s g := by
  simp only [Space.handles, List.mem_append, List.mem_map, List.mem_flatMap, Prod.exists, View.Holds,
    View.regions_eq (book_eq hs), page_eq hs, Std.ExtTreeMap.mem_toList_iff_getElem?_eq_some]
  rfl

theorem mem_duplicates {f : FileId} :
    g ∈ m.duplicates f ↔ (∃ s, m.view.Holds s g) ∧ g.file = f ∧ g.serial ≠ 0 := by
  simp only [duplicates, List.mem_filter, List.mem_flatMap, Prod.exists, decide_eq_true_eq,
    Std.ExtTreeMap.mem_toList_iff_getElem?_eq_some]
  refine and_congr_left fun _ => ⟨fun ⟨i, sp, hs, hg⟩ => ⟨⟨i⟩, (mem_handles hs).1 hg⟩, fun ⟨s, hg⟩ => ?_⟩
  cases hs : m.space? s with
  | none => simp [View.Holds, View.regions, view, hs] at hg
  | some sp => exact ⟨s.number, sp, hs, (mem_handles hs).2 hg⟩

/-- How many handles are open on a file depends on who holds which, and on nothing else. -/
theorem handleCount_congr (h : ∀ s g, n.view.Holds s g ↔ m.view.Holds s g) (f : FileId) :
    n.handleCount f = m.handleCount f := by
  have hmem (i : Nat) : i ∈ ((n.duplicates f).map (·.serial)).eraseDups ↔
      i ∈ ((m.duplicates f).map (·.serial)).eraseDups := by
    simp only [List.mem_eraseDups, List.mem_map, mem_duplicates, h]
  rw [handleCount, handleCount,
    ((List.perm_ext_iff_of_nodup (nodup_eraseDups _) (nodup_eraseDups _)).2 hmem).length_eq]

theorem Page.kind_eq_file : p.kind = .file ↔ ∃ b, p.state = .file b := by
  unfold kind
  split <;> simp_all

theorem Page.Like.handles_eq (h : p.Like q) (hk : q.kind = p.kind) (hu : p.kind = .untouched → q = p) :
    q.handles = p.handles := by
  cases hp : p.kind with
  | untouched => rw [hu hp]
  | anon =>
      obtain ⟨slot, stack, hst⟩ := kind_eq_anon.1 hp
      obtain ⟨slot', stack', hst'⟩ := kind_eq_anon.1 (hk.trans hp)
      rw [Page.handles, Page.handles, hst, hst']
  | file =>
      have hback := h.backing?
      obtain ⟨b, hst⟩ := kind_eq_file.1 hp
      obtain ⟨b', hst'⟩ := kind_eq_file.1 (hk.trans hp)
      rw [Page.backing?, Page.backing?, hst, hst', Option.some.injEq] at hback
      rw [Page.handles, Page.handles, hst, hst', hback]

theorem View.Undisturbed.holds_iff (h : v.Undisturbed s w) (g : Handle) : w.Holds s g ↔ v.Holds s g := by
  have hpages (va : Addr) : (w.page ⟨s, va⟩).map Page.handles = (v.page ⟨s, va⟩).map Page.handles := by
    have hrel := h.pages va
    have hsame := h.untouched va
    generalize v.page ⟨s, va⟩ = x, w.page ⟨s, va⟩ = y at hrel hsame
    cases hrel with
    | none => rfl
    | some hpq =>
        rw [Option.map_some, Option.map_some, hpq.1.handles_eq hpq.2 fun hk => ?_]
        exact Option.some.inj (hsame _ rfl hk)
  have hmem (v : View) : v.Holds s g ↔
      (∃ (start : Addr) (r : Region), (v.regions s)[start]? = some r ∧ r.handle = g) ∨
        ∃ va, ∃ l ∈ (v.page ⟨s, va⟩).map Page.handles, g ∈ l := by
    simp only [View.Holds, Option.mem_def, Option.map_eq_some_iff, exists_exists_and_eq_and]
  rw [hmem, hmem, View.regions, View.regions, h.book]
  simp only [hpages]

theorem not_holds_of_vacant (h : m.isVacant s = true) (g : Handle) : ¬ m.view.Holds s g := by
  obtain ⟨hpages, hregions⟩ := isVacant_iff.1 h
  rintro (⟨start, r, hr, -⟩ | ⟨va, p, hp, -⟩)
  · simp [hregions] at hr
  · rw [hpages] at hp
    cases hp

/-- A space that has nothing: no page, no region, no mapping in its table, and no frame. -/
structure Bare (m : Machine) (s : SpaceId) : Prop where
  space : ∃ sp, m.space? s = some sp ∧ sp.pages = ∅ ∧ sp.regions = ∅ ∧ sp.stackBottom = stackTop ∧
    ∀ va, sp.table.isMapped va = false
  owner : ∀ f va, m.frames.owner f ≠ .ok (some ⟨s, va⟩)

theorem Machine.Sound.bare (h : m.Sound) (hpage : ∀ va, m.view.page ⟨s, va⟩ = none) {b : Book}
    (hbook : m.view.book s = some b) (hregions : b.regions = ∅) (hbottom : b.stackBottom = stackTop) :
    Bare m s := by
  obtain ⟨sp, hs⟩ := space?_of_book (by rw [hbook]; rfl : (m.view.book s).isSome)
  obtain rfl : sp.book = b := Option.some.inj ((book_eq hs).symm.trans hbook)
  refine ⟨⟨sp, hs, (pages_eq_empty_iff hs).2 hpage, hregions, hbottom, fun va => ?_⟩, fun f va hf => ?_⟩
  · rw [Bool.eq_false_iff]
    intro hx
    obtain ⟨x, p, -, hp, -⟩ := page_of_mapped h.coherent hs hx
    rw [Space.page?, ← page_eq hs, hpage] at hp
    cases hp
  · obtain ⟨p, hp, -⟩ := h.coherent.owned (Frames.owner_eq_ok_iff.1 hf) (by rw [hbook]; rfl)
    rw [hpage] at hp
    cases hp

/-- A slot that has come into use since is recorded by a page. -/
theorem View.Path.recorded {k : Slot} (h : View.Path P v w) (hP : ∀ s, ¬ P (.dropped s))
    (hk : w.used k = true) : v.used k = true ∨ ∃ r p, w.page r = some p ∧ p.slot? = some k := by
  rw [or_iff_not_imp_left]
  intro hunused
  -- a slot that was in use at first may be one that a dropped space left behind
  refine h.keeps (I := fun w => w.used k = true → ∃ r p, w.page r = some p ∧ p.slot? = some k)
    (fun hk => absurd hk hunused) (fun ha hs hw => ?_) hk
  exact hs.recorded hw fun s heq => absurd (heq ▸ ha) (hP s)

theorem Runs.unforked (h : Runs hw (t :: l) m) (hcall : t.call = .fork child parent)
    (hfail : t.succeeds = false) :
    (∃ e, t.answer = .error (.error e)) ∧ t.before.Leads (Act.Unforks t.before.view child parent) m ∧
      (∀ va, m.view.page ⟨child, va⟩ = none) ∧ ∃ b, m.view.book = update t.before.view.book child (some b) ∧
        b.regions = ∅ ∧ b.stackBottom = stackTop := by
  obtain ⟨n, rfl, rfl, hn, hlive⟩ := h.last hcall
  rw [before_turn]
  have hchild := hlive child (by simp [Call.spaces])
  rcases fork_turn hn.sound hchild (hlive parent (by simp [Call.spaces])) (hn.charted.bounded parent) with
    ⟨hok, -⟩ | ⟨he, hleads, hpages, hbook⟩
  · rw [hfail] at hok
    cases hok
  · obtain ⟨b, hb⟩ := Option.isSome_iff_exists.1 hchild
    exact ⟨he, hleads, hpages, _, by rw [hbook, hb, Option.map_some], rfl, rfl⟩

/-- A fork that fails says why and leaves nothing behind: the child is bare, no slot is kept for it,
no other space is disturbed and no handle is open that was not open before. -/
theorem Runs.fork_undone (h : Runs hw (t :: l) m) (hcall : t.call = .fork child parent)
    (hempty : t.before.isVacant child = true) (hfail : t.succeeds = false) :
    (∃ e, t.answer = .error (.error e)) ∧ Bare m child ∧
      (∀ k, m.swap.isUsed k = .ok true → t.before.swap.isUsed k = .ok true ∨
        ∃ r p, r.space ≠ child ∧ m.page? r = some p ∧ p.slot? = some k) ∧
      (∀ s, s ≠ child → t.before.view.Undisturbed s m.view) ∧
      ∀ f, m.handleCount f = t.before.handleCount f := by
  obtain ⟨he, hleads, hpages, b, hbook, hregions, hbottom⟩ := h.unforked hcall hfail
  have hchild : m.view.book child = some b := by rw [hbook, Function.update_self]
  have hothers (s : SpaceId) (hs : s ≠ child) : t.before.view.Undisturbed s m.view :=
    (hleads.mono fun _ ha => ha.within).path.undisturbed h.before.sound.coherent hs
      (by rw [hbook, Function.update_of_ne hs])
  refine ⟨he, h.sound.bare hpages hchild hregions hbottom, fun k hk => ?_, hothers,
    handleCount_congr fun s g => ?_⟩
  · rw [h.sound.isUsed_iff] at hk
    rw [h.before.sound.isUsed_iff]
    refine (hleads.path.recorded (fun s ha => ha.within) hk).imp_right ?_
    rintro ⟨r, p, hp, hpk⟩
    refine ⟨r, p, ?_, hp, hpk⟩
    rintro rfl
    rw [hpages] at hp
    cases hp
  · by_cases hs : s = child
    · subst hs
      have hvacant := isVacant_iff.2 ⟨hpages, (View.regions_eq hchild).trans hregions⟩
      exact iff_of_false (not_holds_of_vacant hvacant g) (not_holds_of_vacant hempty g)
    · exact (hothers s hs).holds_iff g

def mapAndClaim : List Call :=
  [.claim ⟨1⟩ 0x2000, .register ⟨1⟩ 0x2000 true .anon none, .map ⟨1⟩ 0x1000 3 true ⟨⟨0⟩, 0⟩ 0,
    .newFile #[1, 2, 3], .newSpace, .newSpace]

def forkWithoutFrame : Turn :=
  (Call.fork ⟨2⟩ ⟨1⟩).turn (Hardware.single.machine mapAndClaim)

/-- The file page that the child got first is gone again, and so is its handle. -/
theorem fork_undone_without_frame :
    Bare forkWithoutFrame.after ⟨2⟩ ∧ forkWithoutFrame.before.view.Undisturbed ⟨1⟩ forkWithoutFrame.after.view ∧
      forkWithoutFrame.after.handleCount ⟨0⟩ = 2 := by
  have hrun : Runs _ (forkWithoutFrame :: _) forkWithoutFrame.after :=
    Hardware.runs (l := .fork ⟨2⟩ ⟨1⟩ :: mapAndClaim) .single (by decide +kernel)
  have hempty : forkWithoutFrame.before.isVacant ⟨2⟩ = true := by decide +kernel
  obtain ⟨-, hbare, -, hothers, hcount⟩ := hrun.fork_undone (call_turn ..) hempty (by decide +kernel)
  refine ⟨hbare, hothers ⟨1⟩ (by decide), ?_⟩
  rw [hcount, forkWithoutFrame, before_turn]
  decide +kernel

end DemandPaging
