import DemandPaging.Proofs.FileBytes
import DemandPaging.Proofs.Forked
import DemandPaging.Proofs.Inking
import DemandPaging.Proofs.Staining

namespace DemandPaging

open Step Machine Vm

variable {m n : Machine} {hw : Hardware} {l : List Turn} {c : Call} {t : Turn} {v w : View} {r : PageRef} {p : Page}
  {d : Deed} {P : Deed → Prop} {a : Act} {s : SpaceId} {id : FileId} {pos : Nat} {x : Soil}

namespace View

theorem Path.deeds (h : Path (· = a) v w) (ha : ∀ {v w}, v.Step a w → Deeds P v w) : Deeds P v w := by
  induction h with
  | refl => exact .refl
  | tail _ hs ih =>
      obtain ⟨_, rfl, hs⟩ := hs
      exact ih.trans (ha hs)

theorem Step.idles_created (h : v.Step (.created s) w) : v.Idles w := by
  cases h
  exact idles_of_eq rfl rfl rfl rfl

theorem Step.does_dropped (h : v.Step (.dropped s) w) : v.Does (.dropped s) w := by
  cases h
  refine .dropped (fun r => ?_) rfl (.refl v)
  unfold soil
  by_cases hr : r.space = s <;> simp [hr]

theorem Step.does_put {g : File → File} (h : v.Step (.put id g) w) : v.Does (.put id) w := by
  cases h
  exact .put rfl (fun i hi => by simp [fileAt, Function.update_of_ne hi]) (.refl v)

theorem Step.idles_put {g : File → File} (h : v.Step (.put id g) w) (hg : ∀ F : File, (g F).bytes = F.bytes) :
    v.Idles w := by
  cases h
  refine ⟨rfl, fun i => ?_, .refl v⟩
  by_cases hi : i = id
  · subst hi
    simp [fileAt, hg]
  · simp [fileAt, Function.update_of_ne hi]

/-- Writing a page back changes a byte of a file only if the page is dirty and holds the byte. -/
theorem byte_writeBack (hf : w.file = v.writeBack v.file r)
    (hne : (w.fileAt id).bytes[pos]? ≠ (v.fileAt id).bytes[pos]?) :
    v.dirty r = true ∧ ∃ p b, v.page r = some p ∧ p.state = .file b ∧ b.Covers id pos := by
  cases hd : v.dirty r with
  | false => exact absurd (by rw [fileAt, hf, writeBack_of_not_dirty hd, fileAt]) hne
  | true =>
      obtain ⟨x, hx, hdirty⟩ := soil_of_dirty hd
      obtain ⟨p, f, b, hp, hframe, hs, rfl⟩ := page_of_soil hx
      refine ⟨rfl, p, b, hp, hs, ?_⟩
      by_contra hcov
      exact hne (byte_of_save (hf.trans (writeBack_of_dirty hp hframe hs hdirty v.file)) hcov)

/-- On the way from `v` to `w`, the page at `r` is written back: it leaves its frame, or is kept there because it could
not be saved. It is dirty, and holds the byte at `pos` of a file. -/
structure WritesBack (P : Deed → Prop) (v w : View) (r : PageRef) (id : FileId) (pos : Nat) (u : View) : Prop where
  before : Deeds P v u
  after : ∃ z, (u.Does (.given r) z ∨ u.Does (.kept r) z) ∧ Deeds P z w
  dirty : u.dirty r = true
  covers : ∃ p b, u.page r = some p ∧ p.state = .file b ∧ b.Covers id pos

theorem Does.changed (h : v.Does d w) (hne : (w.fileAt id).bytes[pos]? ≠ (v.fileAt id).bytes[pos]?)
    (hput : d ≠ .put id) : ∃ r, WritesBack P v w r id pos v := by
  have hsame {w : View} (hf : ∀ id, (w.fileAt id).bytes = (v.fileAt id).bytes) :
      (w.fileAt id).bytes[pos]? = (v.fileAt id).bytes[pos]? := by rw [hf]
  have hfile {w : View} (hf : w.file = v.file) : (w.fileAt id).bytes[pos]? = (v.fileAt id).bytes[pos]? :=
    hsame fun _ => by rw [fileAt, hf, fileAt]
  have hback := h
  cases h with
  | idle h => exact absurd (hsame h.bytes) hne
  | loaded _ _ _ hf => exact absurd (hsame hf) hne
  | soiled _ _ _ hf | dropped _ hf => exact absurd (hfile hf) hne
  | @given _ r _ _ _ hf =>
      obtain ⟨hd, hcov⟩ := byte_writeBack hf hne
      exact ⟨r, .refl, ⟨w, .inl hback, .refl⟩, hd, hcov⟩
  | @kept _ r _ _ _ hf =>
      obtain ⟨hd, hcov⟩ := byte_writeBack hf hne
      exact ⟨r, .refl, ⟨w, .inr hback, .refl⟩, hd, hcov⟩
  | @put _ i _ hf =>
      have hi : id ≠ i := fun heq => hput (by rw [heq])
      exact absurd (by rw [hf id hi]) hne

/-- A byte of a file changes only by a page that is written back. -/
theorem Deeds.changed (h : Deeds P v w) (hne : (w.fileAt id).bytes[pos]? ≠ (v.fileAt id).bytes[pos]?)
    (hput : ¬ P (.put id)) : ∃ r u, WritesBack P v w r id pos u := by
  induction h with
  | refl => exact absurd rfl hne
  | @tail u w hu hs ih =>
      obtain ⟨d, hd, hs⟩ := hs
      have hlast : Deeds P u w := hs.deeds hd
      by_cases heq : (u.fileAt id).bytes[pos]? = (v.fileAt id).bytes[pos]?
      · obtain ⟨r, h⟩ := hs.changed (P := P) (heq ▸ hne) (by rintro rfl; exact hput hd)
        exact ⟨r, u, hu, h.after, h.dirty, h.covers⟩
      · obtain ⟨r, z, h⟩ := ih heq
        obtain ⟨y, hy, hyu⟩ := h.after
        exact ⟨r, z, h.before, ⟨y, hy, hyu.trans hlast⟩, h.dirty, h.covers⟩

end View

namespace Turn

def Writes (t : Turn) (r : PageRef) : Prop := ∃ k < pageSize, (t.stored? r k).isSome

def CopiesDirty (t : Turn) (r : PageRef) : Prop :=
  ∃ parent, t.call = .fork r.space parent ∧ Stained t.before r.space parent r

def Soils (t : Turn) (r : PageRef) : Prop := t.Writes r ∨ t.CopiesDirty r

/-- The call itself makes the file or writes to it, past all pages. -/
def Authors (t : Turn) (id : FileId) : Prop :=
  (∃ bytes, t.call = .newFile bytes ∧ t.before.view.file id = none) ∨ ∃ offset data, t.call = .overwrite id offset data

def Commits (t : Turn) : Deed → Prop
  | .soiled r => t.Soils r
  | .dropped s => t.call = .dropSpace s
  | .put id => t.Authors id
  | .idle | .loaded .. | .given _ | .kept _ => True

end Turn

theorem Deed.Within.commits {L S : PageRef → Prop} (h : d.Within L S) (hS : ∀ r, S r → t.Soils r) : t.Commits d := by
  cases d with
  | soiled r => exact hS r h
  | dropped | put => exact h.elim
  | idle | loaded | given | kept => trivial

namespace Turn

theorem not_writes (hcall : ∀ s va data, t.call ≠ .write s va data) : ¬ t.Writes r := by
  rintro ⟨k, -, hk⟩
  rw [stored?_eq_none hcall] at hk
  cases hk

structure Orderly (t : Turn) : Prop where
  deeds : View.Deeds t.Commits t.before.view t.after.view
  unclean : ∀ r, t.Soils r → t.after.view.clean r = false

end Turn

def Call.isClean : Call → Bool
  | write .. | fork .. => false
  | _ => true

section

variable (hclean : c.isClean = true)
include hclean

theorem not_soils (ht : t.call = c) : ¬ t.Soils r := by
  subst ht
  rintro (h | ⟨parent, hcall, -⟩)
  · refine Turn.not_writes (fun s va data hcall => ?_) h
    rw [hcall] at hclean
    cases hclean
  · rw [hcall] at hclean
    cases hclean

theorem orderly_of_deeds
    (h : Yields c.exec m (fun _ n => View.Deeds P m.view n.view) fun _ n => View.Deeds P m.view n.view)
    (hP : ∀ t : Turn, t.call = c → t.before = m → ∀ d, P d → t.Commits d) : (c.turn m).Orderly := by
  refine Call.turn_cases Turn.Orderly (h.mono (fun x n hn => ?_) fun e n hn => ?_)
  all_goals exact ⟨hn.mono (hP ⟨c, m, _, n⟩ rfl rfl), fun r hr => absurd hr (not_soils hclean rfl)⟩

theorem orderly_of_treading (hm : m.Sound) (h : Treading (Deed.Within (fun _ => True) fun _ => False) c.exec) :
    (c.turn m).Orderly :=
  orderly_of_deeds hclean ((h m hm).mono (fun _ _ hn => hn.deeds) fun _ _ hn => hn.deeds) fun _ _ _ _ hd =>
    hd.commits fun _ => False.elim

end

theorem orderly_of_inks {va total : Nat} {data data' : Array UInt8} (ht : t.call = .write s va data)
    (hd : t.written = some (s, va, data')) (hinks : t.before.Inks s va total data'.size t.after) : t.Orderly where
  deeds := hinks.treads.deeds.mono fun _ hd' => hd'.commits <| by
    rintro ⟨_, b⟩ ⟨rfl, i, hi, rfl⟩
    refine .inl ⟨pageOffset (va + i), pageOffset_lt _, ?_⟩
    rw [Turn.stored?, hd]
    dsimp only
    rw [pageBase_add_pageOffset, if_pos ⟨rfl, Nat.le_add_right ..⟩, Nat.add_sub_cancel_left,
      Array.getElem?_eq_getElem hi]
    rfl
  unclean := by
    rintro r (⟨k, hk, hstored⟩ | ⟨parent, hcall, -⟩)
    · by_cases ha : isPageAligned r.va = true
      · refine hinks.unclean r ?_
        rw [Turn.stored?, hd] at hstored
        dsimp only at hstored
        split at hstored
        · rename_i hle
          obtain ⟨hs, hle⟩ := hle
          obtain ⟨b, hb⟩ := Option.isSome_iff_exists.1 hstored
          obtain ⟨hlt, -⟩ := Array.getElem?_eq_some_iff.1 hb
          refine ⟨hs.symm, _, hlt, ?_⟩
          rw [Nat.add_sub_cancel' hle, pageBase_aligned_add ha hk]
        · cases hstored
      · cases hp : t.after.view.page r with
        | none => exact View.clean_of_soil (View.soil_of_none hp)
        | some p => exact absurd (hinks.treads.sound.coherent.placed hp).2.1 ha
    · rw [ht] at hcall
      cases hcall

theorem orderly_write (h : m.Sound) (hs : (m.view.book s).isSome) (va : Nat) (data : Array UInt8) :
    ((Call.write s va data).turn m).Orderly := by
  refine Call.turn_cases Turn.Orderly ((inks_copyIn h hs va data).bind ?_ ?_)
  · exact fun _ n hn => yields_pure.2 (orderly_of_inks (t := ⟨_, m, _, n⟩) rfl rfl hn)
  · intro e n hn
    obtain ⟨err, rfl, done, hdone, hinks, rfl⟩ := hn.error
    have hwritten : Turn.written ⟨.write s va data, m, .error (.error (.badAddress (va + done))), n⟩ =
        some (s, va, data.extract 0 done) := by
      simp [Turn.written]
    refine orderly_of_inks rfl hwritten (?_ : m.Inks s va data.size _ n)
    rwa [Array.size_extract, Nat.min_eq_left hdone, Nat.sub_zero]

/-- The pages that a fork soils are those that it copies from dirty ones, and if it fails they are gone. -/
theorem orderly_fork {child parent : SpaceId} (h : m.Sound) (hc : (m.view.book child).isSome)
    (hp : (m.view.book parent).isSome) (hprudent : m.view.Prudent)
    (hb : Bounded (m.view.regions parent).toList) : ((Call.fork child parent).turn m).Orderly := by
  have hsoils {t : Turn} (ht : t.call = .fork child parent) (hm : t.before = m) {r : PageRef} (hr : t.Soils r) :
      r.space = child ∧ Stained m child parent r := by
    rcases hr with hw | ⟨parent', hcall, hstained⟩
    · exact absurd hw (Turn.not_writes (by simp [ht]))
    · rw [ht] at hcall
      cases hcall
      exact ⟨rfl, hm ▸ hstained⟩
  have hdeeds {t : Turn} (ht : t.call = .fork child parent) (hm : t.before = m)
      (hn : m.Treads (Deed.Within (fun _ => True) (Stained m child parent)) t.after) :
      View.Deeds t.Commits t.before.view t.after.view := by
    rw [hm]
    refine hn.deeds.mono fun d hd => hd.commits fun r hr => .inr ⟨parent, ?_, ?_⟩
    · obtain ⟨_, _, _, -, -, hspace, -⟩ := hr
      rw [ht, hspace]
    · obtain ⟨_, _, _, -, -, hspace, -⟩ := id hr
      rwa [hm, hspace]
  refine Call.turn_cases Turn.Orderly (((treads_fork h hc hp hprudent).and (yields_fork h hc hp)).bind ?_ ?_)
  · rintro _ n ⟨⟨hn, hclean⟩, -⟩
    exact yields_pure.2 ⟨hdeeds rfl rfl hn, fun r hr => hclean r (hsoils rfl rfl hr).2⟩
  · rintro e n ⟨hn, -, ⟨-, -, hgone, -⟩ | ⟨hnb, -⟩⟩
    · refine ⟨hdeeds rfl rfl hn, fun r hr => View.clean_of_soil (View.soil_of_none ?_)⟩
      obtain ⟨rfl, -⟩ := hsoils rfl rfl hr
      exact hgone r.va
    · exact absurd hb hnb

/-- Every turn does what it may do to file pages and files. -/
theorem orderly (h : m.Sound) (hc : ∀ s ∈ c.spaces, (m.space? s).isSome) (hprudent : m.view.Prudent)
    (hb : ∀ s, Bounded (m.view.regions s).toList) : (c.turn m).Orderly := by
  have hlive {s : SpaceId} (hs : s ∈ c.spaces) : (m.view.book s).isSome := Call.live hc hs
  cases c with
  | newSpace =>
      refine orderly_of_deeds (P := Deed.Vacates) rfl ((yields_newSpace h).bind (fun s n hn => ?_)
        fun _ _ => False.elim) fun t _ _ d hd => hd.commits fun _ => False.elim
      exact yields_pure.2 (hn.path.deeds fun hs => hs.idles_created.within)
  | dropSpace s =>
      refine orderly_of_deeds (P := (· = .dropped s)) rfl ((yields_dropSpace h.consistent s).bind
        (fun _ n hn => ?_) fun _ _ => False.elim) ?_
      · exact yields_pure.2 (hn.1.path.deeds fun hs => hs.does_dropped.deeds rfl)
      · rintro t ht - _ rfl
        exact ht
  | read s va len =>
      exact orderly_of_treading rfl h ((treading_modular _).bind (treading_copyOut s va len)
        fun _ => (treading_modular _).pure _)
  | write s => exact orderly_write h (hlive (List.mem_singleton_self s)) ..
  | fork child parent =>
      exact orderly_fork h (hlive (by simp [Call.spaces])) (hlive (by simp [Call.spaces])) hprudent (hb parent)
  | newFile bytes =>
      refine orderly_of_deeds (P := fun d => ∃ id, d = .put id ∧ m.view.file id = none) rfl
        ((yields_newFile h.consistent bytes).bind (fun id n hn => ?_) fun _ _ => False.elim) ?_
      · exact yields_pure.2 (hn.2.path.deeds fun hs => hs.does_put.deeds ⟨id, rfl, hn.1⟩)
      · rintro t ht rfl _ ⟨id, rfl, hnone⟩
        exact .inl ⟨bytes, ht, hnone⟩
  | limitFile f limits =>
      refine orderly_of_deeds (P := Deed.Vacates) rfl (yields_bind.2 (yields_bind.2 (yields_get.2
        ((yields_replaceFile h.consistent f fun F => { F with limits := limits }).bind (fun _ n hn => ?_)
          fun _ _ => False.elim)))) fun t _ _ d hd => hd.commits fun _ => False.elim
      exact yields_pure.2 (hn.path.deeds fun hs => (hs.idles_put fun _ => rfl).within)
  | overwrite f offset data =>
      refine orderly_of_deeds (P := (· = .put f)) rfl (yields_bind.2 (yields_bind.2 (yields_get.2 (yields_bind.2
        ((yields_replaceFile h.consistent f fun F => (F.overwrite offset data).2).mono (fun _ n hn => ?_)
          fun _ _ => False.elim))))) ?_
      · exact yields_pure.2 (yields_pure.2 (hn.path.deeds fun hs => hs.does_put.deeds rfl))
      · rintro t ht - _ rfl
        exact .inr ⟨offset, data, ht⟩
  | setFaults faults =>
      refine orderly_of_deeds (P := Deed.Vacates) rfl ((yields_setFaults h.consistent faults).bind
        (fun _ n hn => ?_) fun _ _ => False.elim) fun t _ _ d hd => hd.commits fun _ => False.elim
      exact yields_pure.2 (hn.2 ▸ .refl)
  | _ => exact orderly_of_treading rfl h ((treading_paged _).exec trivial)

/-- The page at `r` was soiled and not loaded since. The latest turn comes first. -/
def Dirtied : List Turn → PageRef → Prop
  | [], _ => False
  | t :: l, r => t.Soils r ∨ Dirtied l r ∧ ¬ t.before.view.Reloads t.after.view r

structure Stamped (l : List Turn) (v : View) : Prop where
  prudent : v.Prudent
  dirty_iff : ∀ r x, v.soil r = some x → (x.dirty = true ↔ Dirtied l r)

theorem Turn.Orderly.stamped (h : t.Orderly) (hl : Stamped l t.before.view) : Stamped (t :: l) t.after.view where
  prudent := h.deeds.prudent hl.prudent
  dirty_iff r x hx := by
    by_cases hsoils : t.Soils r
    · refine ⟨fun _ => .inl hsoils, fun _ => ?_⟩
      have hclean := h.unclean r hsoils
      rw [View.clean, hx, Option.any_some, Bool.not_eq_false'] at hclean
      exact hclean
    · rcases h.deeds.traces hsoils hx with ⟨hload, hclean⟩ | ⟨hload, hbefore⟩
      · rw [hclean]
        exact ⟨fun h => absurd h Bool.false_ne_true, fun hd => hd.elim (absurd · hsoils) fun hd => absurd hload hd.2⟩
      · rw [hl.dirty_iff r x hbefore]
        exact ⟨fun hd => .inr ⟨hd, hload⟩, fun hd => hd.elim (absurd · hsoils) And.left⟩

theorem Runs.stamped (h : Runs hw l m) : Stamped l m.view := by
  induction h with
  | boot =>
      have hnone (r : PageRef) : hw.boot.view.soil r = none := View.soil_of_none (page_boot r)
      constructor
      · intro r x hx
        rw [hnone] at hx
        cases hx
      · intro r x hx
        rw [hnone] at hx
        cases hx
  | @turn l m h c hc ih =>
      have horderly := orderly h.sound hc ih.prudent h.charted.bounded
      exact horderly.stamped ((before_turn c m).symm ▸ ih)

/-- What is written back on the way from a machine was dirty there and has not been loaded since, or it was soiled on
the way; in any case it may be written to. -/
theorem Stamped.writesBack {u : View} (h : Stamped l v) (hu : View.WritesBack t.Commits v w r id pos u) :
    (∃ p, u.page r = some p ∧ p.writable = true) ∧ (t.Soils r ∨ Dirtied l r ∧ ¬ v.Reloads u r) := by
  constructor
  · obtain ⟨p, b, hp, -⟩ := hu.covers
    exact ⟨p, hp, (hu.before.prudent h.prudent).writable hp hu.dirty⟩
  · by_cases hsoils : t.Soils r
    · exact .inl hsoils
    · obtain ⟨x, hx, hdirty⟩ := View.soil_of_dirty hu.dirty
      rcases hu.before.traces hsoils hx with ⟨-, hclean⟩ | ⟨hload, hbefore⟩
      · rw [hdirty] at hclean
        cases hclean
      · exact .inr ⟨(h.dirty_iff r x hbefore).1 hdirty, hload⟩

/-- The dirty bit of a file page in a frame says whether the page was soiled since it was loaded, and files are changed
only by such pages being written back, unless the call itself makes the file or writes to it. -/
theorem Runs.exact_dirty (h : Runs hw (t :: l) m) :
    (∀ s va sp p, m.space? s = some sp → sp.pages[va]? = some p → p.kind = .file → p.isResident = true →
      (sp.table.isDirty va = true ↔ Dirtied (t :: l) ⟨s, va⟩) ∧ (sp.table.isDirty va = true → p.writable = true)) ∧
    View.Deeds t.Commits t.before.view m.view ∧
    ∀ id pos, (m.file id).bytes[pos]? ≠ (t.before.file id).bytes[pos]? → ¬ t.Authors id →
      ∃ r u, View.WritesBack t.Commits t.before.view m.view r id pos u ∧
        (∃ p, u.page r = some p ∧ p.writable = true) ∧ (t.Soils r ∨ Dirtied l r ∧ ¬ t.before.view.Reloads u r) := by
  have hl := h.before.stamped
  have hm := h.stamped
  have hdeeds : View.Deeds t.Commits t.before.view m.view := by
    cases h with
    | turn h c hc =>
        have hprudent := h.stamped.prudent
        exact (orderly h.sound hc hprudent h.charted.bounded).deeds
  refine ⟨fun s va sp p hs hp hk hf => ?_, hdeeds, fun id pos hne hauthors => ?_⟩
  · rw [← page_eq hs] at hp
    obtain ⟨f, hf⟩ := Option.isSome_iff_exists.1 hf
    rw [h.sound.isDirty_eq hs hp hk]
    refine ⟨?_, hm.prudent.writable hp⟩
    rw [← hm.dirty_iff _ _ (View.soil_of_file hp hk hf), View.dirty_of_file hp hk hf]
  · obtain ⟨r, u, hu⟩ := hdeeds.changed hne hauthors
    exact ⟨r, u, hu, hl.writesBack hu⟩

def writeAndFork : List Call := [.fork ⟨2⟩ ⟨1⟩, .newSpace, .write ⟨1⟩ 0x10000000 #[7],
  .map ⟨1⟩ 0x10000000 0x1000 true ⟨⟨0⟩, 0⟩ 0, .newSpace, .newFile #[0]]

/-- The copy of a page that was written to is dirty as well. -/
theorem exact_dirty_of_copy :
    ∃ sp p, (Hardware.pair.machine writeAndFork).space? ⟨2⟩ = some sp ∧ sp.pages[0x10000000]? = some p ∧
      p.writable = true ∧ sp.table.isDirty 0x10000000 = true ∧
      Dirtied (Hardware.pair.turns writeAndFork) ⟨⟨2⟩, 0x10000000⟩ := by
  have hrun : Runs .pair (Hardware.pair.turns writeAndFork) (Hardware.pair.machine writeAndFork) :=
    Hardware.runs (l := writeAndFork) .pair (by decide +kernel)
  have hcopy : ((Hardware.pair.machine writeAndFork).space? ⟨2⟩).bind (fun sp => sp.pages[0x10000000]?.map fun p =>
      (sp.table.isDirty 0x10000000, p.isResident, p.kind)) = some (true, true, .file) := by decide +kernel
  obtain ⟨sp, hs, hcopy⟩ := Option.bind_eq_some_iff.1 hcopy
  obtain ⟨p, hp, hcopy⟩ := Option.map_eq_some_iff.1 hcopy
  simp only [Prod.mk.injEq] at hcopy
  obtain ⟨hd, hf, hk⟩ := hcopy
  obtain ⟨hiff, hw⟩ := hrun.exact_dirty.1 ⟨2⟩ 0x10000000 sp p hs hp hk hf
  exact ⟨sp, p, hs, hp, hw hd, hd, hiff.1 hd⟩

end DemandPaging
