import DemandPaging.Proofs.Calls
import DemandPaging.Proofs.Ledger

namespace DemandPaging

open Function (update)
open Step Machine

variable {α : Type} {m n u : Machine} {s : SpaceId} {va : Addr} {L S : PageRef → Prop} {P Q : Deed → Prop}

namespace Machine

theorem withSpace_of_none (hs : m.space? s = none) (f : Space → Space) : m.withSpace s f = m := by
  have hsame : m.spaces.modify s.number f = m.spaces := by
    refine Std.ExtTreeMap.ext_getElem? fun k => ?_
    rw [Std.ExtTreeMap.getElem?_modify]
    split
    · rename_i hk
      rw [← Std.LawfulEqCmp.eq_of_compare hk, show m.spaces[s.number]? = none from hs]
      rfl
    · rfl
  rw [withSpace, hsame]

structure Treads (m : Machine) (P : Deed → Prop) (n : Machine) : Prop where
  sound : n.Sound
  deeds : View.Deeds P m.view n.view

theorem Treads.refl (h : m.Sound) : m.Treads P m := ⟨h, .refl⟩

theorem Treads.trans (h : m.Treads P n) (k : n.Treads P u) : m.Treads P u := ⟨k.sound, h.deeds.trans k.deeds⟩

theorem Treads.mono (h : m.Treads P n) (hpq : ∀ d, P d → Q d) : m.Treads Q n := ⟨h.sound, h.deeds.mono hpq⟩

theorem Treads.idle (h : n.Sound) (hidle : m.view.Idles n.view) : m.Treads (Deed.Within L S) n := ⟨h, hidle.within⟩

end Machine

namespace Vm

def Treading (P : Deed → Prop) (x : Vm α) : Prop :=
  ∀ m : Machine, m.Sound → Yields x m (fun _ n => m.Treads P n) fun _ n => m.Treads P n

theorem Treading.mono {x : Vm α} (h : Treading P x) (hpq : ∀ d, P d → Q d) : Treading Q x :=
  fun m hm => (h m hm).mono (fun _ _ hn => hn.mono hpq) fun _ _ hn => hn.mono hpq

theorem treading_modular (P : Deed → Prop) : Modular fun _ => Treading P where
  pure _ _ hm := .refl hm
  throw _ _ hm := .refl hm
  bind hx hf m hm := (hx m hm).bind (fun a n hn => (hf a n hn.sound).mono (fun _ _ hu => hn.trans hu)
    fun _ _ hu => hn.trans hu) fun _ _ => id
  attempt hx m hm := yields_attempt.2 ((hx m hm).mono (fun _ _ => id) fun e n hn => by cases e <;> exact hn)

theorem yields_dead {f : Space → Vm α} {Q : α → Machine → Prop} {E : Stop → Machine → Prop} (hs : m.space? s = none) :
    Yields (space s >>= f) m Q E ↔ E (.panic (.noSuchSpace s)) m := by
  unfold space
  rw [bind_assoc, yields_bind, yields_get, hs]
  rfl

theorem treading_space (s : SpaceId) : Treading P (space s) := by
  intro m hm
  cases hs : m.space? s with
  | none =>
      unfold space
      rw [yields_bind, yields_get, hs]
      exact .refl hm
  | some sp => exact (yields_space hs).2 (.refl hm)

theorem treading_emit {e : Event} (he : e.weighs = false) : Treading (Deed.Within L S) (emit e) := fun _ hm =>
  yields_emit.2 (.idle (((Goes.refl hm.consistent).tell (P := Act.Quiet) rfl e).sound hm) ((View.Idles.refl _).tell he))

theorem treading_book (s : SpaceId) {f : Space → Space} (hp : ∀ sp, (f sp).pages = sp.pages)
    (ht : ∀ sp, (f sp).table = sp.table) : Treading (Deed.Within L S) (modifySpace s f) := by
  refine fun m hm => yields_modifySpace.2 ?_
  cases hs : m.space? s with
  | none =>
      rw [withSpace_of_none hs]
      exact .refl hm
  | some sp =>
      obtain ⟨hbooked, hv⟩ := booked hm.consistent hs hp ht
      refine .idle (hbooked.sound hm) ?_
      rw [hv]
      exact View.idles_of_eq rfl rfl rfl rfl

theorem treading_duplicate (hd : Handle) : Treading (Deed.Within L S) (duplicate hd) := fun _ hm =>
  yields_modifyGet.2 (.idle ⟨⟨hm.consistent.frames, hm.consistent.swap, hm.consistent.separate⟩, hm.coherent⟩ (.refl _))

theorem treading_fileLength (hd : Handle) : Treading (Deed.Within L S) (fileLength hd) := by
  refine fun m hm => (yields_fileLength hm.consistent hd).mono ?_ fun _ _ => False.elim
  rintro _ n ⟨-, hn, -, hv⟩
  have hgoes : m.Goes Act.Quiet n := ⟨hn, hv ▸ (View.Step.called _).path rfl⟩
  refine .idle (hgoes.sound hm) ?_
  rw [hv]
  exact View.idles_of_called _ _

theorem yields_register_dead (hm : m.Sound) (hs : m.space? s = none) (va : Addr) (w : Bool) (purpose : Purpose)
    (filling : Option Filling) :
    Yields (register s va w purpose filling) m (fun _ _ => False) fun _ n => m.Treads (Deed.Within L S) n := by
  unfold register
  split
  · exact .refl hm
  · have htold : m.Treads (Deed.Within L S) (m.tell (.pageAdded s purpose (pageBase va))) :=
      yields_emit.1 (treading_emit rfl m hm)
    have hgone : (m.tell (.pageAdded s purpose (pageBase va))).space? s = none := hs
    exact yields_bind.2 (yields_emit.2 ((yields_dead hgone).2 htold))

theorem treading_register (s : SpaceId) (va : Addr) (w : Bool) (purpose : Purpose) (filling : Option Filling) :
    Treading (Deed.Within L S) (register s va w purpose filling) := by
  intro m hm
  cases hs : m.space? s with
  | none => exact (yields_register_dead hm hs va w purpose filling).mono (fun _ _ => False.elim) fun _ _ => id
  | some sp =>
      refine (yields_register hm (by rw [book_eq hs]; rfl) va w purpose filling).mono ?_ ?_
      · rintro _ n ⟨-, hnone, hn, hv⟩
        refine .idle (hn.sound hm) ?_
        rw [hv]
        exact View.idles_of_added hnone rfl
      · intro e n hn
        obtain ⟨e, -, hn, hidle, -⟩ := hn.error
        exact .idle (hn.sound hm) hidle

theorem treading_makeResident (hL : L ⟨s, pageBase va⟩) : Treading (Deed.Within L S) (makeResident s va) := by
  intro m hm
  cases hs : m.space? s with
  | none => exact (yields_dead hs).2 (.refl hm)
  | some sp =>
      refine (yields_makeResident hm (by rw [book_eq hs]; rfl) va).mono ?_ ?_
      · rintro _ n ⟨hn, hdeeds, -⟩
        refine ⟨hn.sound hm, hdeeds.mono fun d hd => hd.mono ?_ fun _ => False.elim⟩
        rintro _ ⟨rfl, -⟩
        exact hL
      · intro e n hn
        obtain ⟨e, -, hn, hdeeds, -⟩ := hn.error
        exact ⟨hn.sound hm, hdeeds.within⟩

theorem treading_remove (s : SpaceId) (va : Addr) : Treading (Deed.Within L S) (remove s va) := by
  intro m hm
  cases hs : m.space? s with
  | none =>
      refine yields_bind.2 ((yields_dead hs).2 ?_)
      exact .refl hm
  | some sp =>
      refine (yields_remove hm (by rw [book_eq hs]; rfl) va).mono ?_ ?_
      · rintro _ n ⟨hn, hdeeds, -⟩
        exact ⟨hn.sound hm, hdeeds.within⟩
      · intro e n hn
        obtain ⟨e, -, hn, hdeeds, -⟩ := hn.error
        exact ⟨hn.sound hm, hdeeds.within⟩

/-- A page of the stack is no page of a file. -/
theorem treading_addStackPage (s : SpaceId) (va : Addr) {undone : Addr → PagingError → Event}
    (hundone : ∀ va e, (undone va e).light = true) : Treading (Deed.Within L S) (addStackPage s va undone) := by
  have hundo (e : PagingError) : Treading (Deed.Within L S) (do
      removeAll s undone [va]
      fail e : Vm Unit) :=
    (treading_modular _).bind ((treading_modular _).removeAll (fun va _ => treading_remove s va)
      fun _ _ => treading_emit (Event.weighs_of_light (hundone _ _))) fun _ => (treading_modular _).fail e
  intro m hm
  cases hs : m.space? s with
  | none => exact (yields_register_dead hm hs va true .stack none).bind (fun _ _ => False.elim) fun _ _ => id
  | some sp =>
      refine ((treading_register s va true .stack none m hm).and
        (yields_register hm (by rw [book_eq hs]; rfl) va true .stack none)).bind ?_ fun _ _ h => h.1
      rintro _ n ⟨hn, -, -, -, hv⟩
      have hlive : (n.view.book s).isSome := by
        rw [hv, book_eq hs]
        rfl
      have hpage : n.view.page ⟨s, pageBase va⟩ = some (.lazy true .stack none) := by
        rw [hv]
        exact Function.update_self ..
      refine yields_bind.2 ((yields_makeResident hn.sound hlive va).attempt ?_ ?_)
      · rintro _ z ⟨hz, hdeeds, -⟩
        refine hn.trans ⟨hz.sound hn.sound, hdeeds.mono fun d hd => hd.mono ?_ fun _ => False.elim⟩
        rintro _ ⟨rfl, p, hp, hk⟩
        cases hpage.symm.trans hp
        cases hk
      · rintro e z ⟨hz, hdeeds, -⟩
        have hz' : m.Treads (Deed.Within L S) z := hn.trans ⟨hz.sound hn.sound, hdeeds.within⟩
        exact (hundo e z hz'.sound).mono (fun _ _ hy => hz'.trans hy) fun _ _ hy => hz'.trans hy

theorem treading_snapshot (s : SpaceId) (ha : isPageAligned va = true) :
    Treading (Deed.Within L S) (snapshot s va) := by
  intro m hm
  cases hs : m.space? s with
  | none =>
      refine yields_bind.2 ((yields_dead hs).2 ?_)
      exact .refl hm
  | some sp =>
      refine (yields_snapshot hm (by rw [book_eq hs]; rfl) ha).mono ?_ ?_
      · rintro _ n ⟨hn, hidle, -⟩
        exact .idle (hn.sound hm) hidle
      · intro e n hn
        obtain ⟨e, -, hn, hidle, -⟩ := hn.error
        exact .idle (hn.sound hm) hidle

theorem treading_growing (L S : PageRef → Prop) : Growing fun _ => Treading (Deed.Within L S) where
  toModular := treading_modular _
  space := treading_space
  emit he := treading_emit (Event.weighs_of_light he)
  book := treading_book
  addStackPage s va _ := treading_addStackPage s va

theorem treading_paged (S : PageRef → Prop) : Paged fun _ => Treading (Deed.Within (fun _ => True) S) where
  toModular := treading_modular _
  space := treading_space
  emit he := treading_emit (Event.weighs_of_light he)
  book := treading_book
  register := treading_register
  makeResident _ _ := treading_makeResident trivial
  remove := treading_remove
  fileLength := treading_fileLength
  duplicate := treading_duplicate

/-- An access that goes through makes the page dirty that it goes through, if it writes. -/
theorem treads_access (hm : m.Sound) (s : SpaceId) (addr : Addr) (write : Bool) :
    Yields (access s addr write) m
      (fun x n => match x with
        | .ok _ => m.Treads (View.Marks ⟨s, pageBase addr⟩ write) n
        | .error _ => n = m) fun _ n => n = m := by
  cases hs : m.space? s with
  | none => exact (yields_dead hs).2 rfl
  | some sp =>
      unfold access
      rw [yields_bind, yields_space hs]
      rcases hm.access_cases hs addr write with ⟨f, t, ht, hn, -, hdeeds⟩ | ⟨code, hcode, -⟩
      · rw [ht]
        exact yields_bind.2 (yields_modifyTable.2 (yields_pure.2 ⟨hn.sound hm, hdeeds⟩))
      · rw [hcode]
        exact yields_pure.2 rfl

theorem treads_frameFor {addr : Addr} (hm : m.Sound) (hL : L ⟨s, pageBase addr⟩) (write : Bool) (rounds : Nat) :
    Yields (frameFor s addr write rounds) m
      (fun _ n => m.Treads (Deed.Within L fun o => write = true ∧ o = ⟨s, pageBase addr⟩) n)
      fun _ n => m.Treads (Deed.Within L fun _ => False) n := by
  induction rounds generalizing m with
  | zero => exact .refl hm
  | succ rounds ih =>
      rw [frameFor_succ]
      refine (treads_access hm s addr write).bind ?_ fun _ n hn => by rw [hn]; exact .refl hm
      rintro (⟨code, esp⟩ | f) n hn
      · obtain rfl : n = m := hn
        refine ((treading_growing L fun _ => False).onFault (treading_makeResident hL) esp true write _ n hm).bind ?_
          fun _ _ => id
        intro b u hu
        split
        · exact (ih hu.sound).mono
            (fun _ z hz => (hu.mono fun d hd => hd.mono (fun _ => id) fun _ => False.elim).trans hz)
            fun _ z hz => hu.trans hz
        · exact yields_fail.2 hu
      · exact yields_pure.2 (hn.mono fun d hd => hd.mono (fun _ => False.elim) fun _ => id)

theorem treading_contents (f : FrameId) : Treading P (contents f) := fun _ hm =>
  yields_bind.2 (yields_get.2 ((treading_modular P).ofPanic _ _ hm))

theorem treading_copyOut (s : SpaceId) (va len : Nat) :
    Treading (Deed.Within (fun _ => True) fun _ => False) (copyOut s va len) := by
  have hmodular := treading_modular (Deed.Within (fun _ => True) fun _ => False)
  have htouch (addr : Addr) : Treading (Deed.Within (fun _ => True) fun _ => False) (touchPage s addr false) := by
    refine hmodular.bind (fun n hn => (treads_frameFor hn trivial false 2).mono (fun _ u hu => hu.mono fun d hd => ?_)
      fun _ _ => id) fun f => hmodular.bind (treading_contents f) fun _ => hmodular.pure _
    exact hd.mono (fun _ => id) fun _ h => absurd h.1 Bool.false_ne_true
  exact hmodular.copyOut htouch va len

end Vm

end DemandPaging
