import DemandPaging.Proofs.Blind
import DemandPaging.Proofs.Soiling

namespace DemandPaging

open Step Machine

variable {hidden hidden' : PageRef → Prop} {secret secret' : SpaceId → Prop} {m n m' n' : Machine} {s : SpaceId}
  {f : FrameId} {va : Addr} {P R : Act → Prop} {r : PageRef} {α : Type}

def Act.Inert (a : Act) : Prop := ∀ r, a.Leaves r

def Act.Slight : Act → Prop
  | .quiet | .added .. | .booked .. => True
  | .loaded _ | .removed .. | .stored .. | .created _ | .dropped _ | .put .. => False

def Act.Drops (r : PageRef) (a : Act) : Prop := a.Slight ∨ ∃ saved, a = .removed r saved

theorem Act.Slight.inert {a : Act} (h : a.Slight) : a.Inert := by
  intro r
  constructor
  · rintro rfl
    exact h
  · rintro _ _ rfl
    exact h

theorem Act.Drops.inert {a : Act} (h : a.Drops r) : a.Inert := by
  rcases h with h | ⟨saved, rfl⟩
  · exact h.inert
  · exact fun _ => ⟨nofun, nofun⟩

theorem Act.Quiet.slight {a : Act} (h : a.Quiet) : a.Slight := h ▸ trivial

theorem Act.Quiet.inert {a : Act} (h : a.Quiet) : a.Inert := by
  obtain rfl : a = .quiet := h
  exact fun r => ⟨by simp, by simp⟩

namespace Machine

/-- The same machines, but for what the pages of secret spaces hold that are anonymous or yet to be. -/
structure Hides (secret : SpaceId → Prop) (hidden : PageRef → Prop) (m n : Machine) : Prop where
  alike : m.Alike hidden n
  left : m.Sound
  right : n.Sound
  enclosed : ∀ r, hidden r → secret r.space
  cell : ∀ r p, m.view.page r = some p → (secret r.space → p.finalKind = .file) → n.view.cell r = m.view.cell r

/-- The same, and no snapshot is yet to fill a page but those that are the same. -/
abbrev Veils (secret : SpaceId → Prop) (m n : Machine) : Prop := m.Hides secret (fun _ => False) n

namespace Hides

theorem tidy (h : m.Hides secret hidden n) : m.Tidy hidden n where
  alike := h.alike
  clean r p f hp hk hf := by
    have hcell := h.cell r p hp fun _ => by rw [Page.finalKind_eq_kind (by simp [hk]), hk]
    rw [View.cell_of_frame hp hf, View.cell_of_frame (h.alike.page_of_frame hp hf) hf] at hcell
    exact Option.some.inj hcell

theorem step (h : m.Hides secret hidden n) (halike : m'.Alike hidden' n') (henclosed : ∀ r, hidden' r → secret r.space)
    (hm : m.Goes P m') (hn : n.Goes R n')
    (hcell : ∀ r p, m'.view.page r = some p → (secret r.space → p.finalKind = .file) →
      n'.view.cell r = m'.view.cell r ∨ (∀ a, P a → a.Leaves r) ∧ ∀ a, R a → a.Leaves r) :
    m'.Hides secret hidden' n' where
  alike := halike
  left := hm.sound h.left
  right := hn.sound h.right
  enclosed := henclosed
  cell r p hp hk := by
    rcases hcell r p hp hk with heq | ⟨hP, hR⟩
    · exact heq
    · obtain ⟨q, hq, -⟩ := halike.page hp
      rcases hm.path.cell_or h.left.coherent hP hp with hnone | ⟨hmcell, p', hp', hlike⟩
      · rw [hnone, halike.cell_eq_none, hnone]
      rcases hn.path.cell_or h.right.coherent hR hq with hnone | ⟨hncell, -⟩
      · rw [hnone, eq_comm, ← halike.cell_eq_none, hnone]
      rw [hmcell, hncell]
      exact h.cell r p' hp' fun hs => hlike.finalKind ▸ hk hs

theorem inert (h : m.Hides secret hidden n) (halike : m'.Alike hidden n') (hm : m.Goes Act.Inert m')
    (hn : n.Goes Act.Inert n') : m'.Hides secret hidden n' :=
  h.step halike h.enclosed hm hn fun r _ _ _ => .inr ⟨fun _ ha => ha r, fun _ ha => ha r⟩

end Hides

theorem Leads.inert {a : Act} (h : m.Leads (· = a) n) (ha : a.Inert) : m.Goes Act.Inert n :=
  h.toGoes.mono fun _ heq => heq ▸ ha

end Machine

namespace Vm

def Going (P : Act → Prop) (x : Vm α) : Prop :=
  ∀ m : Machine, m.Sound → Yields x m (fun _ n => m.Goes P n) fun _ n => m.Goes P n

theorem Going.mono {x : Vm α} (h : Going P x) (hP : ∀ a, P a → R a) : Going R x := fun m hm =>
  (h m hm).mono (fun _ _ hn => hn.mono hP) fun _ _ hn => hn.mono hP

theorem Going.inert {x : Vm α} (h : Going Act.Slight x) : Going Act.Inert x := h.mono fun _ => Act.Slight.inert

theorem going_modular (P : Act → Prop) : Modular fun _ => Going P where
  pure _ _ hm := .refl hm.consistent
  throw _ _ hm := .refl hm.consistent
  bind hx hf m hm := (hx m hm).bind (fun a n hn => (hf a n (hn.sound hm)).mono (fun _ _ hu => hn.trans hu)
    fun _ _ hu => hn.trans hu) fun _ _ => id
  attempt hx m hm := yields_attempt.2 ((hx m hm).mono (fun _ _ => id) fun e n hn => by cases e <;> exact hn)

theorem going_space (s : SpaceId) : Going P (space s) := by
  intro m hm
  rw [← bind_pure (space s)]
  cases hs : m.space? s with
  | none => exact (yields_dead hs).2 (.refl hm.consistent)
  | some sp => exact yields_bind.2 ((yields_space hs).2 (.refl hm.consistent))

theorem going_emit (e : Event) : Going Act.Slight (emit e) := fun _ hm =>
  (Goes.refl hm.consistent).tell (P := Act.Slight) trivial e

theorem going_book {k : Space → Space} (hp : ∀ sp, (k sp).pages = sp.pages) (ht : ∀ sp, (k sp).table = sp.table) :
    Going Act.Slight (modifySpace s k) := by
  refine fun m hm => yields_modifySpace.2 ?_
  cases hs : m.space? s with
  | none =>
      rw [withSpace_of_none hs]
      exact .refl hm.consistent
  | some sp =>
      refine (booked hm.consistent hs hp ht).1.toGoes.mono ?_
      rintro _ rfl
      trivial

theorem going_register (s : SpaceId) (va : Addr) (w : Bool) (purpose : Purpose) (filling : Option Filling) :
    Going Act.Slight (register s va w purpose filling) := by
  intro m hm
  cases hs : m.space? s with
  | none =>
      unfold register
      split
      · exact .refl hm.consistent
      · have hgone : (m.tell (.pageAdded s purpose (pageBase va))).space? s = none := hs
        exact yields_bind.2 (yields_emit.2 ((yields_dead hgone).2 (going_emit _ m hm)))
  | some sp =>
      refine (yields_register hm (by rw [book_eq hs]; rfl) va w purpose filling).mono ?_ ?_
      · rintro _ n ⟨-, -, hn, -⟩
        refine hn.toGoes.mono ?_
        rintro a (rfl | rfl) <;> trivial
      · intro e n hn
        obtain ⟨e, -, hn, -⟩ := hn.error
        exact hn.toGoes.mono fun _ => Act.Quiet.slight

theorem going_remove (s : SpaceId) (va : Addr) : Going (Act.Drops ⟨s, pageBase va⟩) (remove s va) := by
  have hremoves (saved : Bool) (a : Act) (ha : a.Removes ⟨s, pageBase va⟩ saved) : a.Drops ⟨s, pageBase va⟩ :=
    ha.imp Act.Quiet.slight fun heq => ⟨saved, heq⟩
  intro m hm
  cases hs : m.space? s with
  | none => exact yields_bind.2 ((yields_dead hs).2 (.refl hm.consistent))
  | some sp =>
      refine (yields_remove hm (by rw [book_eq hs]; rfl) va).mono ?_ ?_
      · rintro _ n ⟨hn, -⟩
        exact hn.toGoes.mono (hremoves _)
      · intro e n hn
        obtain ⟨e, -, hn, -⟩ := hn.error
        exact hn.toGoes.mono (hremoves _)

theorem going_destroy (s : SpaceId) : Going Act.Inert (destroy s) := by
  intro m hm
  cases hs : m.space? s with
  | none => exact (yields_dead hs).2 (.refl hm.consistent)
  | some sp =>
      refine (yields_destroy hm (by rw [book_eq hs]; rfl)).mono ?_ fun _ _ => False.elim
      rintro _ n ⟨hn, -⟩
      refine hn.toGoes.mono ?_
      rintro a (ha | ⟨b, rfl⟩ | ⟨va, saved, rfl, -⟩)
      · exact ha.inert
      · simp [Act.Inert, Act.Leaves]
      · simp [Act.Inert, Act.Leaves]

theorem going_duplicate (hd : Handle) : Going Act.Slight (duplicate hd) := fun _ hm =>
  yields_modifyGet.2 ⟨⟨hm.consistent.frames, hm.consistent.swap, hm.consistent.separate⟩, .refl⟩

theorem going_fileLength (hd : Handle) : Going Act.Slight (fileLength hd) := by
  refine fun m hm => (yields_fileLength hm.consistent hd).mono ?_ fun _ _ => False.elim
  rintro _ n ⟨-, hn, -, hv⟩
  exact ⟨hn, hv ▸ (View.Step.called _).path Act.quiet_quiet.slight⟩

theorem going_access (s : SpaceId) (addr : Addr) (write : Bool) : Going Act.Slight (access s addr write) := by
  intro m hm
  cases hs : m.space? s with
  | none => exact (yields_dead hs).2 (.refl hm.consistent)
  | some sp =>
      unfold access
      rw [yields_bind, yields_space hs]
      rcases hm.access_cases hs addr write with ⟨f, t, ht, hn, -⟩ | ⟨code, hcode, -⟩
      · rw [ht]
        exact yields_bind.2 (yields_modifyTable.2 (yields_pure.2 (hn.toGoes.mono fun _ => Act.Quiet.slight)))
      · rw [hcode]
        exact yields_pure.2 (.refl hm.consistent)

theorem going_setDirty (s : SpaceId) (va : Addr) : Going Act.Slight (modifyTable s (·.setDirty va true)) := by
  refine fun m hm => yields_modifyTable.2 ?_
  cases hs : m.space? s with
  | none =>
      rw [withSpace_of_none hs]
      exact .refl hm.consistent
  | some sp => exact ((Leads.refl hm.consistent).marked Act.quiet_quiet.slight (by rw [book_eq hs]; rfl) va).1.toGoes

theorem goes_makeResident (hm : m.Sound) (s : SpaceId) (va : Addr) :
    Yields (makeResident s va) m (fun _ n => m.Goes (Act.Loads ⟨s, pageBase va⟩) n) fun _ n => m.Goes Act.Inert n := by
  cases hs : m.space? s with
  | none => exact (yields_dead hs).2 (.refl hm.consistent)
  | some sp =>
      refine (yields_makeResident hm (by rw [book_eq hs]; rfl) va).mono (fun _ n hn => hn.1.toGoes) fun e n hn => ?_
      obtain ⟨e, -, hn, -⟩ := hn.error
      exact hn.toGoes.mono fun _ => Act.Quiet.inert

theorem Going.hides_of {Q : Machine → Machine → Prop} {x : Vm α} (hgo : Going Act.Inert x) (hx : Respects Q x)
    (hQ : ∀ m n, m.Hides secret hidden n → Q m n) (halike : ∀ m n, Q m n → m.Alike hidden n) :
    Respects (Hides secret hidden) x := by
  constructor
  intro m n h
  refine ((hx.twins m n (hQ m n h)).and (hgo m h.left) (hgo n h.right)).mono ?_ ?_
  · rintro _ a m' n' ⟨⟨rfl, h'⟩, hm, hn⟩
    exact ⟨rfl, h.inert (halike m' n' h') hm hn⟩
  · rintro e m' n' ⟨h', hm, hn⟩
    exact h.inert (halike m' n' h') hm hn

theorem Going.hides {x : Vm α} (hgo : Going Act.Inert x) (hx : Respects (Tidy hidden) x) :
    Respects (Hides secret hidden) x :=
  hgo.hides_of hx (fun _ _ h => h.tidy) fun _ _ h => h.alike

/-- What sees nothing that is hidden keeps a secret if it gives no page other bytes. -/
theorem Going.hides_alike {x : Vm α} (hgo : Going Act.Inert x) (hx : Respects (Alike hidden) x) :
    Respects (Hides secret hidden) x :=
  hgo.hides_of hx (fun _ _ h => h.alike) fun _ _ => id

/-- A page that comes into a frame from elsewhere than a slot comes with the same bytes, unless it is a hidden
snapshot. -/
theorem twins_makeResident (h : m.Tidy hidden n) (hm : m.Sound) (hn : n.Sound) (s : SpaceId) (va : Addr) :
    Twins (makeResident s va) (makeResident s va) m n
      (fun _ _ m' n' => m'.Alike hidden n' ∧ (m' = m ∧ n' = n ∨ ∀ p, m.view.page ⟨s, pageBase va⟩ = some p →
        (hidden ⟨s, pageBase va⟩ → p.finalKind = .file) → p.kind ≠ .anon →
          n'.view.cell ⟨s, pageBase va⟩ = m'.view.cell ⟨s, pageBase va⟩))
      fun _ m n => m.Alike hidden n := by
  unfold makeResident
  dsimp only
  generalize ha : pageBase va = a
  have hbase : pageBase a = a := by rw [← ha, pageBase_pageBase]
  refine twins_space h.alike h.alike fun sp sq hsp _ hs => ?_
  have hva := hs.pages a
  rw [page_eq hsp]
  unfold Space.page?
  rw [hbase]
  generalize hx : sp.pages[a]? = x, sq.pages[a]? = y at hva
  cases hva with
  | none => exact twins_fail.2 h.alike
  | @some p q hpq =>
      dsimp only
      unfold Page.isResident
      rw [hpq.frame_eq]
      cases hframe : p.frame with
      | some f => exact twins_pure.2 ⟨h.alike, .inl ⟨rfl, rfl⟩⟩
      | none =>
          refine ((twins_acquire h).and (yields_acquire_grants hm) (yields_acquire_grants hn)).bind ?_
            fun _ _ _ h => h.1.alike
          rintro _ f m1 n1 ⟨⟨rfl, h1, hbytes⟩, ⟨hgrant, -⟩, -⟩
          have hpage : m1.view.page ⟨s, a⟩ = some p := by
            rw [hgrant.path.page_eq, page_eq hsp, hx]
            rw [page_eq hsp, hx]
            rintro _ ⟨⟩
            exact hframe
          refine twins_bind (twins_attempt ((twins_bringIn h1 s a f hbytes).mono ?_ ?_))
          · rintro _ _ m2 n2 ⟨h2, hcell⟩
            rw [hbase] at hcell
            refine twins_modifyFrames h2 (Frames.deaf_install f ⟨s, a⟩) (fun t ht => ?_) fun _ => h2
            refine ⟨h2.withFrames ⟨by rw [ht, h2.frames.size], rfl⟩, .inr ?_⟩
            rintro _ ⟨⟩ hh hk
            exact (cell_withFrames (m := n2) rfl _).trans ((hcell p hpage hh hk).trans (cell_withFrames ht _).symm)
          · intro e m2 n2 h2
            cases e with
            | error e =>
                refine twins_bind (twins_bind
                  (twins_modifyFrames h2 (Frames.deaf_release f) (fun t ht => ?_) fun _ => h2))
                refine twins_emit.2 (twins_fail.2 ?_)
                exact (h2.withFrames ⟨by rw [ht, h2.frames.size], rfl⟩).tell _
            | panic | loop => exact h2

theorem hides_makeResident (s : SpaceId) (va : Addr) : Respects (Hides secret hidden) (makeResident s va) := by
  constructor
  intro m n h
  refine ((twins_makeResident h.tidy h.left h.right s va).and (goes_makeResident h.left s va)
    (goes_makeResident h.right s va)).mono ?_ ?_
  · rintro _ _ m' n' ⟨⟨halike, hsame⟩, hm, hn⟩
    rcases hsame with ⟨rfl, rfl⟩ | hcell
    · exact ⟨rfl, h⟩
    refine ⟨rfl, h.step halike h.enclosed hm hn fun r p' hp' hk => ?_⟩
    by_cases hr : r = ⟨s, pageBase va⟩
    · subst hr
      obtain ⟨p, hp, hlike⟩ : ∃ p, m.view.page ⟨s, pageBase va⟩ = some p ∧ p.Like p' := by
        rcases hm.path.was_like hp' with hold | ⟨p, ha, -⟩
        · exact hold
        · simp [Act.Loads, Act.Quiet] at ha
      have hpublic (hs : secret s) : p.finalKind = .file := hlike.finalKind ▸ hk hs
      -- An anonymous page comes back with what it held; any other is read in, and alike on both sides.
      by_cases hkind : p.kind = .anon
      · obtain ⟨q, hq, hpq⟩ := h.alike.page hp
        rw [(hm.path.cell_eq h.left.coherent (fun _ ha => ha.spares _) hp hkind).1,
          (hn.path.cell_eq h.right.coherent (fun _ ha => ha.spares _) hq (hpq.kind_eq.trans hkind)).1]
        exact .inl (h.cell _ p hp hpublic)
      · exact .inl (hcell p hp (fun hh => hpublic (h.enclosed _ hh)) hkind)
    · have hleaves (a : Act) (ha : a.Loads ⟨s, pageBase va⟩) : a.Leaves r := by
        rcases ha with ha | rfl
        · exact ha.inert r
        · exact ⟨by simpa using Ne.symm hr, by simp⟩
      exact .inr ⟨hleaves, hleaves⟩
  · rintro e m' n' ⟨halike, hm, hn⟩
    exact h.inert halike hm hn

theorem hides_paged (secret : SpaceId → Prop) : Paged fun _ => Respects (Veils secret) where
  toModular := respects_modular _
  space s := (going_space s).hides (respects_space s)
  emit _ := (going_emit _).inert.hides (respects_emit _)
  book _ k hp ht := (going_book hp ht).inert.hides
    (respects_book (fun _ _ hs => congrArg (fun sp => (k sp).book) hs.eq) hp ht)
  register s va w purpose filling := (going_register s va w purpose filling).inert.hides (respects_register ..)
  makeResident := hides_makeResident
  remove s va := ((going_remove s va).mono fun _ => Act.Drops.inert).hides (respects_remove s va)
  fileLength hd := (going_fileLength hd).inert.hides (respects_fileLength hd)
  duplicate hd := (going_duplicate hd).inert.hides (respects_duplicate hd)

end Vm

end DemandPaging
