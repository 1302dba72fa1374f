import DemandPaging.Proofs.Regions

namespace DemandPaging

open Function (update)
open Machine

variable {hw : Hardware} {l : List Turn} {m n : Machine} {t : Turn} {v w : View} {s child parent : SpaceId}
  {p q : Page} {r : PageRef} {a : Act} {P : Act → Prop} {k : Nat} {va : Addr}

theorem Runs.forked (h : Runs hw (t :: l) m) (hcall : t.call = .fork child parent)
    (hok : t.succeeds = true) : t.before.Leads (Act.Forks t.before.view child parent) m ∧
      t.before.view.Forked child parent t.before.nextHandle m.view := by
  obtain ⟨n, rfl, rfl, hn, hlive⟩ := h.last hcall
  rw [before_turn]
  rcases fork_turn hn.sound (hlive child (by simp [Call.spaces])) (hlive parent (by simp [Call.spaces]))
    (hn.charted.bounded parent) with ⟨-, hforked⟩ | ⟨⟨e, he⟩, -⟩
  · exact hforked
  · rw [Turn.succeeds, he] at hok
    cases hok

def Machine.isVacant (m : Machine) (s : SpaceId) : Bool :=
  (m.space? s).all fun sp => sp.pages.isEmpty && sp.regions.isEmpty

theorem isVacant_iff :
    m.isVacant s = true ↔ (∀ va, m.view.page ⟨s, va⟩ = none) ∧ m.view.regions s = ∅ := by
  unfold isVacant
  cases hs : m.space? s with
  | none => simp [view, View.regions, hs]
  | some sp =>
      rw [View.regions_eq (book_eq hs), Option.all_some, Bool.and_eq_true, Std.ExtTreeMap.isEmpty_iff,
        Std.ExtTreeMap.isEmpty_iff]
      exact and_congr (pages_eq_empty_iff hs) Iff.rfl

/-- The space `s` has the pages in `w` that it had in `v`, of the same kinds and with the same
anonymous contents, wherever they have been moved, and the same book. -/
structure View.Undisturbed (v : View) (s : SpaceId) (w : View) : Prop where
  pages : ∀ va, Option.Rel (fun p q => p.Like q ∧ q.kind = p.kind) (v.page ⟨s, va⟩) (w.page ⟨s, va⟩)
  untouched : ∀ va p, v.page ⟨s, va⟩ = some p → p.kind = .untouched → w.page ⟨s, va⟩ = some p
  anon : ∀ va p, v.page ⟨s, va⟩ = some p → p.kind = .anon →
    ∃ c, v.cell ⟨s, va⟩ = some c ∧ w.cell ⟨s, va⟩ = some c
  book : w.book s = v.book s

def Act.Within (s : SpaceId) : Act → Prop
  | .quiet => True
  | .loaded r | .added r _ | .removed r _ => r.space = s
  | .booked s' _ => s' = s
  | .stored .. | .created _ | .dropped _ | .put .. => False

theorem Act.Makes.within {new : Addr → Page → Prop} {undone : Addr → Prop} (h : a.Makes v s new undone) :
    a.Within s := by
  cases a with
  | quiet => trivial
  | loaded r => exact h
  | added r p => exact h.1
  | removed r saved => exact h.1
  | booked t b => exact h.1
  | stored | created | dropped | put => exact h.elim

theorem Act.Unforks.within (h : a.Unforks v child parent) : a.Within child := by
  rcases h with (h | ⟨b, rfl⟩) | ⟨va, saved, rfl⟩
  · exact h.within
  · rfl
  · rfl

theorem Act.Within.spares (h : a.Within s) (hr : r.space ≠ s) : a.Spares r where
  stored offset data := by
    rintro rfl
    exact h
  removed saved := by
    rintro rfl
    exact hr h
  dropped := by
    rintro rfl
    exact h

/-- What is done to one space disturbs no other. -/
theorem View.Path.undisturbed {s' : SpaceId} (h : View.Path (Act.Within s') v w) (hv : v.Coherent)
    (hs : s ≠ s') (hb : w.book s = v.book s) : v.Undisturbed s w := by
  have hspares (va : Addr) (a : Act) (ha : a.Within s') : a.Spares ⟨s, va⟩ := ha.spares hs
  have huntouched (va : Addr) (p : Page) (hp : v.page ⟨s, va⟩ = some p) (hk : p.kind = .untouched) :
      w.page ⟨s, va⟩ = some p := by
    -- a page without contents is in no frame, so nothing can move it
    refine h.kept hp ?_ (fun ha => hs ha) (fun saved ha => hs ha) id
    have hapt := hv.apt hp
    unfold Page.kind at hk
    unfold View.Apt at hapt
    split at hk <;> simp_all
  refine ⟨fun va => ?_, huntouched, fun va p hp hk => ?_, hb⟩
  · cases hp : v.page ⟨s, va⟩ with
    | none =>
        have hnone : w.page ⟨s, va⟩ = none := h.absent (fun p ha => hs ha) hp
        rw [hnone]
        exact .none
    | some p =>
        obtain ⟨q, hq, hlike⟩ := h.like hp (fun saved ha => hs ha) id
        rw [hq]
        refine .some ⟨hlike, ?_⟩
        by_cases hk : p.kind = .untouched
        · rw [huntouched va p hp hk] at hq
          rw [Option.some.inj hq]
        · exact hlike.kind hk
  · obtain ⟨c, hc⟩ := hv.cell_anon hp hk
    exact ⟨c, hc, (h.cell_eq hv (hspares va) hp hk).1.trans hc⟩

/-- The child has a page like each page of the parent, and no others, and a book like the parent's. -/
structure View.Replicates (v : View) (child parent : SpaceId) (w : View) : Prop where
  pages : ∀ va, Option.Rel (fun q p => v.Replica ⟨parent, va⟩ q w ⟨child, va⟩ p)
    (v.page ⟨parent, va⟩) (w.page ⟨child, va⟩)
  book : ∃ b b' : Book, v.book parent = some b ∧ w.book child = some b' ∧
    (∀ start : Addr, (b'.regions[start]?).map Region.pages = (b.regions[start]?).map Region.pages) ∧
    b'.stackBottom = b.stackBottom ∧ b'.savedStack = b.savedStack

theorem Inherits.page (h : Inherits v r p) : ∃ q, v.page r = some q := by
  cases h with
  | lazy hq | lazyFile _ hq | anon hq | file _ _ hq | reloaded _ hq => exact ⟨_, hq⟩

/-- A child that was empty has nothing that its parent does not have. -/
theorem View.Forked.replicates (h : v.Forked child parent k w)
    (hpath : View.Path (Act.Forks v child parent) v w) (hp : ∀ va, v.page ⟨child, va⟩ = none)
    (hr : v.regions child = ∅) : v.Replicates child parent w := by
  refine ⟨fun va => ?_, ?_⟩
  · cases hq : v.page ⟨parent, va⟩ with
    | none =>
        rw [hpath.absent (fun p ha => ?_) (hp va)]
        · exact .none
        · rcases ha with ⟨-, -, ha⟩ | ⟨b, ha⟩
          · obtain ⟨q, hq'⟩ := ha.page
            rw [hq] at hq'
            cases hq'
          · cases ha
    | some q =>
        obtain ⟨p, hp, hcopy⟩ := h.copied va q hq
        rw [hp]
        exact .some hcopy.toReplica
  · obtain ⟨b, opened, hb, hopened, hbook⟩ := h.book
    have hchild : w.book child = some ⟨(v.regions child).insertMany opened, b.stackBottom, b.savedStack⟩ := by
      rw [hbook, Function.update_self]
    refine ⟨b, _, hb, hchild, fun start => ?_, rfl, rfl⟩
    rw [pages_insertMany hopened, hr]
    simp

/-- A fork that succeeds makes an empty space a copy of the parent and disturbs no other, the parent
included. -/
theorem Runs.fork_copies (h : Runs hw (t :: l) m) (hcall : t.call = .fork child parent)
    (hempty : t.before.isVacant child = true) (hok : t.succeeds = true) :
    t.before.view.Replicates child parent m.view ∧
      ∀ s, s ≠ child → t.before.view.Undisturbed s m.view := by
  obtain ⟨hleads, hforked⟩ := h.forked hcall hok
  obtain ⟨hpages, hregions⟩ := isVacant_iff.1 hempty
  refine ⟨hforked.replicates hleads.path hpages hregions, fun s hs => ?_⟩
  obtain ⟨b, opened, -, -, hbook⟩ := hforked.book
  refine (hleads.mono fun _ ha => Act.Unforks.within (.inl ha)).path.undisturbed h.before.sound.coherent hs ?_
  rw [hbook, Function.update_of_ne hs]

def Hardware.pair : Hardware := { single with frames := 2, frames_lt := by decide }

def claimAndPromise : List Call :=
  [.register ⟨1⟩ 0x2000 false .stack none, .claim ⟨1⟩ 0x1000,
    .register ⟨1⟩ 0x1000 true .anon (some (.snapshot (Vector.replicate pageSize 7))), .newSpace, .newSpace]

def forkClaimed : Turn :=
  (Call.fork ⟨2⟩ ⟨1⟩).turn (Hardware.pair.machine claimAndPromise)

/-- The child has a copy of the page that was filled, and a page that is still to be filled. -/
theorem fork_copies_claimed_page :
    forkClaimed.before.view.Replicates ⟨2⟩ ⟨1⟩ forkClaimed.after.view ∧
      forkClaimed.before.view.Undisturbed ⟨1⟩ forkClaimed.after.view ∧
      (forkClaimed.after.view.cell ⟨⟨2⟩, 0x1000⟩).map (·[0]) = some 7 ∧
      (forkClaimed.after.page? ⟨⟨2⟩, 0x2000⟩).map Page.kind = some .untouched := by
  have hrun : Runs _ (forkClaimed :: _) forkClaimed.after :=
    Hardware.runs (l := .fork ⟨2⟩ ⟨1⟩ :: claimAndPromise) .pair (by decide +kernel)
  have hempty : forkClaimed.before.isVacant ⟨2⟩ = true := by decide +kernel
  obtain ⟨hcopied, hothers⟩ := hrun.fork_copies (call_turn ..) hempty (by decide +kernel)
  exact ⟨hcopied, hothers ⟨1⟩ (by decide), by decide +kernel, by decide +kernel⟩

/-- The child's page of a file is at the same place of a file, through a handle opened for the child.
The file is that of the last region at or below the page, if the page lies in it, whichever file the
parent's page is on; elsewhere it is the file of the parent's page. -/
theorem Runs.fork_files (h : Runs hw (t :: l) m) (hcall : t.call = .fork child parent)
    (hok : t.succeeds = true) (va : Addr) (b : Backing)
    (hb : (t.before.page? ⟨parent, va⟩).bind Page.backing? = some b) :
    ∃ b', (m.page? ⟨child, va⟩).bind Page.backing? = some b' ∧
      b.Heir t.before.nextHandle (t.before.view.regions parent).toList va b' := by
  obtain ⟨q, hq, hb⟩ := Option.bind_eq_some_iff.1 hb
  obtain ⟨-, hforked⟩ := h.forked hcall hok
  obtain ⟨p, hp, hcopy⟩ := hforked.copied va q hq
  obtain ⟨b', hb', hheir⟩ := hcopy.backed b hb
  exact ⟨b', Option.bind_eq_some_iff.2 ⟨p, hp, hb'⟩, hheir⟩

/-- The second page of a mapping of one file is removed, and one of another file is put there. -/
def mapThenRehouse : List Call :=
  [.register ⟨1⟩ 0x2000 true (.file ⟨⟨⟨1⟩, 0⟩, 0, 3⟩) (some (.segment ⟨⟨⟨1⟩, 0⟩, 0, 3⟩)), .remove ⟨1⟩ 0x2000,
    .map ⟨1⟩ 0x1000 0x1001 true ⟨⟨0⟩, 0⟩ 0, .newFile #[4, 5, 6], .newFile #[1, 2, 3], .newSpace, .newSpace]

def forkRehoused : Turn :=
  (Call.fork ⟨2⟩ ⟨1⟩).turn (Hardware.single.machine mapThenRehouse)

/-- The child's first page is on the file that the parent's first page is on. -/
theorem fork_files_first_page :
    ((forkRehoused.after.page? ⟨⟨2⟩, 0x1000⟩).bind Page.backing?).map (·.handle.file) = some ⟨0⟩ := by
  have hrun : Runs _ (forkRehoused :: _) forkRehoused.after :=
    Hardware.runs (l := .fork ⟨2⟩ ⟨1⟩ :: mapThenRehouse) .single (by decide +kernel)
  have hb : ((forkRehoused.before.page? ⟨⟨1⟩, 0x1000⟩).bind Page.backing?).isSome := by decide +kernel
  obtain ⟨b, hb⟩ := Option.isSome_iff_exists.1 hb
  obtain ⟨b', hb', hheir⟩ := hrun.fork_files (call_turn ..) (by decide +kernel) 0x1000 b hb
  have hregion : (lastRegion? (forkRehoused.before.view.regions ⟨1⟩).toList 0x1000).map
      (fun x => (x.1, x.2.pages, x.2.handle.file)) = some (0x1000, 2, ⟨0⟩) := by
    decide +kernel
  obtain ⟨⟨start, g⟩, hx, hg⟩ := Option.map_eq_some_iff.1 hregion
  simp only [Prod.mk.injEq] at hg
  obtain ⟨rfl, hpages, hfile⟩ := hg
  have hlt : 0x1000 < 0x1000 + g.pages * pageSize := by simp [hpages, pageSize_eq]
  rw [hb', Option.map_some, hheir.file, heirFile, hx, ← hfile]
  exact congrArg some (if_pos hlt)

/-- The child's second page is on the file that was mapped there first, not on the one that the
parent's second page is on. -/
theorem fork_puts_page_on_other_file :
    Hardware.single.allows (.fork ⟨2⟩ ⟨1⟩ :: mapThenRehouse) = true ∧
      forkRehoused.before.isVacant ⟨2⟩ = true ∧ forkRehoused.succeeds = true ∧
      ((forkRehoused.before.page? ⟨⟨1⟩, 0x2000⟩).bind Page.backing?).map (·.handle.file) = some ⟨1⟩ ∧
      ((forkRehoused.after.page? ⟨⟨2⟩, 0x2000⟩).bind Page.backing?).map (·.handle.file) = some ⟨0⟩ := by
  decide +kernel

end DemandPaging
