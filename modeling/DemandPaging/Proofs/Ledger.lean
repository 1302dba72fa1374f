import DemandPaging.Proofs.Freeing
import DemandPaging.Proofs.Parts

namespace DemandPaging

open Function (update)

/-- What is done to file pages in frames and to files. A page that is loaded is a file page or another one. -/
inductive Deed
  | idle
  | loaded (r : PageRef) (file : Bool)
  | soiled (r : PageRef)
  | given (r : PageRef)
  | kept (r : PageRef)
  | dropped (s : SpaceId)
  | put (id : FileId)

def Deed.Within (L S : PageRef → Prop) : Deed → Prop
  | .loaded r file => file = true → L r
  | .soiled r => S r
  | .dropped _ | .put _ => False
  | .idle | .given _ | .kept _ => True

abbrev Deed.Vacates : Deed → Prop := Deed.Within (fun _ => False) fun _ => False

theorem Deed.Within.mono {L S L' S' : PageRef → Prop} {d : Deed} (h : d.Within L S) (hl : ∀ r, L r → L' r)
    (hs : ∀ r, S r → S' r) : d.Within L' S' := by
  cases d with
  | loaded r => exact fun hf => hl r (h hf)
  | soiled r => exact hs r h
  | dropped | put => exact h
  | idle | given | kept => trivial

theorem Deed.Vacates.within {L S : PageRef → Prop} {d : Deed} (h : d.Vacates) : d.Within L S :=
  Within.mono h (fun _ => False.elim) fun _ => False.elim

structure Soil where
  dirty : Bool
  writable : Bool

namespace View

variable {v w u : View} {r o : PageRef} {p : Page} {f : FrameId} {e : Event} {es es' : List Event} {d : Deed}
  {P Q : Deed → Prop} {x : Soil}

def soil (v : View) (r : PageRef) : Option Soil :=
  (v.page r).bind fun p =>
    if p.kind = .file ∧ p.isResident then some ⟨(v.entry r).any (·.dirty), p.writable⟩ else none

def dirty (v : View) (r : PageRef) : Bool := (v.soil r).any (·.dirty)

def clean (v : View) (r : PageRef) : Bool := (v.soil r).any (!·.dirty)

theorem soil_congr (hp : w.page r = v.page r) (hx : (w.entry r).any (·.dirty) = (v.entry r).any (·.dirty)) :
    w.soil r = v.soil r := by
  rw [soil, hp, hx, soil]

theorem soil_of_others (hp : w.page = v.page) (hx : ∀ o, o ≠ r → w.entry o = v.entry o) (hr : w.soil r = v.soil r) :
    w.soil = v.soil := by
  funext o
  by_cases ho : o = r
  · rw [ho, hr]
  · exact soil_congr (congrFun hp o) (by rw [hx o ho])

theorem soil_of_none (hp : v.page r = none) : v.soil r = none := by rw [soil, hp, Option.bind_none]

theorem soil_of_out (hp : v.page r = some p) (hf : p.frame = none) : v.soil r = none := by
  rw [soil, hp, Option.bind_some, if_neg (by simp [Page.isResident, hf])]

theorem soil_of_kind (hp : v.page r = some p) (hk : p.kind ≠ .file) : v.soil r = none := by
  rw [soil, hp, Option.bind_some, if_neg fun h => hk h.1]

theorem soil_of_file (hp : v.page r = some p) (hk : p.kind = .file) (hf : p.frame = some f) :
    v.soil r = some ⟨(v.entry r).any (·.dirty), p.writable⟩ := by
  rw [soil, hp, Option.bind_some, if_pos ⟨hk, by simp [Page.isResident, hf]⟩]

theorem page_of_soil (h : v.soil r = some x) : ∃ p f b, v.page r = some p ∧ p.frame = some f ∧
    p.state = .file b ∧ x = ⟨(v.entry r).any (·.dirty), p.writable⟩ := by
  obtain ⟨p, hp, hx⟩ := Option.bind_eq_some_iff.1 h
  split at hx
  · rename_i hk
    obtain ⟨f, hf⟩ := Option.isSome_iff_exists.1 hk.2
    have hst := hk.1
    unfold Page.kind at hst
    split at hst
    · cases hst
    · cases hst
    · exact ⟨p, f, _, hp, hf, ‹_›, (Option.some.inj hx).symm⟩
  · cases hx

theorem dirty_of_file (hp : v.page r = some p) (hk : p.kind = .file) (hf : p.frame = some f) :
    v.dirty r = (v.entry r).any (·.dirty) := by
  rw [dirty, soil_of_file hp hk hf, Option.any_some]

theorem dirty_of_soil (h : v.soil r = none) : v.dirty r = false := by rw [dirty, h, Option.any_none]

theorem soil_of_dirty (h : v.dirty r = true) : ∃ x, v.soil r = some x ∧ x.dirty = true := by
  unfold dirty at h
  cases hx : v.soil r with
  | none =>
      rw [hx] at h
      cases h
  | some x => exact ⟨x, rfl, by rwa [hx] at h⟩

def receipt (v : View) (r : PageRef) : List Event :=
  match v.page r with
  | some ⟨_, some f, .file b⟩ =>
      if (v.entry r).any (·.dirty) then
        [.writtenBack (b.save (v.bytes f) (v.fileAt b.handle.file)).1 b.offset]
      else []
  | _ => []

theorem receipt_of_not_dirty (h : v.dirty r = false) : v.receipt r = [] := by
  unfold receipt
  split
  · rename_i hp
    rw [dirty_of_file hp rfl rfl] at h
    rw [if_neg (by simp [h])]
  · rfl

theorem writeBack_of_not_dirty (h : v.dirty r = false) (file : FileId → Option File) : v.writeBack file r = file := by
  unfold writeBack
  split
  · rename_i hp
    rw [dirty_of_file hp rfl rfl] at h
    rw [if_neg (by simp [h])]
  · rfl

theorem receipt_of_dirty {b : Backing} (hp : v.page r = some p) (hf : p.frame = some f) (hs : p.state = .file b)
    (hx : (v.entry r).any (·.dirty) = true) :
    v.receipt r = [.writtenBack (b.save (v.bytes f) (v.fileAt b.handle.file)).1 b.offset] := by
  obtain ⟨w, f', st⟩ := p
  cases hf
  cases hs
  rw [receipt, hp]
  exact if_pos hx

def Tells (v w : View) (es : List Event) : Prop :=
  ∃ l, w.log.toList = v.log.toList ++ l ∧ l.filter Event.weighs = es

theorem Tells.refl (v : View) : v.Tells v [] := ⟨[], by simp⟩

theorem Tells.trans (h : v.Tells w es) (k : w.Tells u es') : v.Tells u (es ++ es') := by
  obtain ⟨l, hl, rfl⟩ := h
  obtain ⟨l', hl', rfl⟩ := k
  exact ⟨l ++ l', by rw [hl', hl, List.append_assoc], List.filter_append ..⟩

theorem Tells.congr (h : v.Tells w es) {v' w' : View} (hv : v'.log = v.log) (hw : w'.log = w.log) : v'.Tells w' es := by
  unfold Tells
  rwa [hv, hw]

theorem Tells.push (h : v.Tells w es) (he : e.weighs = true) {u : View} (hu : u.log = w.log.push e) :
    v.Tells u (es ++ [e]) :=
  h.trans ⟨[e], by rw [hu, Array.toList_push], by simp [he]⟩

theorem Tells.push_light (h : v.Tells w es) (he : e.weighs = false) {u : View} (hu : u.log = w.log.push e) :
    v.Tells u es := by
  rw [← List.append_nil es]
  exact h.trans ⟨[e], by rw [hu, Array.toList_push], by simp [he]⟩

structure Idles (v w : View) : Prop where
  soil : w.soil = v.soil
  bytes : ∀ id, (w.fileAt id).bytes = (v.fileAt id).bytes
  tells : v.Tells w []

theorem Idles.refl (v : View) : v.Idles v := ⟨rfl, fun _ => rfl, .refl v⟩

theorem Idles.trans (h : v.Idles w) (k : w.Idles u) : v.Idles u :=
  ⟨k.soil.trans h.soil, fun id => (k.bytes id).trans (h.bytes id), h.tells.trans k.tells⟩

theorem idles_of_eq (hp : w.page = v.page) (hx : w.entry = v.entry) (hf : w.file = v.file) (hl : w.log = v.log) :
    v.Idles w where
  soil := funext fun r => soil_congr (congrFun hp r) (by rw [hx])
  bytes id := by rw [fileAt, hf, fileAt]
  tells := (Tells.refl v).congr rfl hl

theorem idles_of_push (hp : w.page = v.page) (hx : w.entry = v.entry) (hf : w.file = v.file)
    (hl : w.log = v.log.push e) (he : e.weighs = false) : v.Idles w where
  soil := funext fun r => soil_congr (congrFun hp r) (by rw [hx])
  bytes id := by rw [fileAt, hf, fileAt]
  tells := (Tells.refl v).push_light he hl

theorem idles_of_called (v : View) (id : FileId) :
    v.Idles { v with file := update v.file id ((v.file id).map fun F => { F with calls := F.calls + 1 }) } where
  soil := rfl
  bytes i := by
    by_cases hi : i = id
    · subst hi
      cases hF : v.file i <;> simp [fileAt, hF]
    · simp [fileAt, Function.update_of_ne hi]
  tells := .refl v

theorem idles_of_marked {x : Translation} (hx : v.entry r = some x) (a : Bool) :
    v.Idles { v with entry := update v.entry r (some { x with accessed := a }) } where
  soil := by
    funext o
    refine soil_congr rfl ?_
    by_cases ho : o = r
    · simp [ho, hx]
    · simp [Function.update_of_ne ho]
  bytes _ := rfl
  tells := .refl v

theorem idles_of_added {wr : Bool} {purpose : Purpose} {filling : Option Filling} (hp : v.page r = none)
    (he : e.weighs = false) :
    v.Idles { v with page := update v.page r (some (.lazy wr purpose filling)), log := v.log.push e } where
  soil := by
    funext o
    by_cases ho : o = r
    · rw [ho, soil_of_none hp]
      exact soil_of_out (Function.update_self ..) rfl
    · exact soil_congr (Function.update_of_ne ho ..) rfl
  bytes _ := rfl
  tells := (Tells.refl v).push_light he rfl

theorem Idles.tell (h : v.Idles w) (he : e.weighs = false) : v.Idles { w with log := w.log.push e } :=
  ⟨h.soil, h.bytes, h.tells.push_light he rfl⟩

/-- How a view is changed by one deed. A page that leaves its frame is written back before, in one call, if it is
a file page and dirty; so is one that is to leave it but cannot be saved. -/
inductive Does (v : View) : Deed → View → Prop
  | idle {w : View} (h : v.Idles w) : v.Does .idle w
  | loaded {w : View} {r : PageRef} {f : FrameId} (hr : v.soil r = none) (hw : w.dirty r = false)
      (hs : ∀ o, o ≠ r → w.soil o = v.soil o) (hf : ∀ id, (w.fileAt id).bytes = (v.fileAt id).bytes)
      (hl : v.Tells w [.pageResident r.space r.va f]) : v.Does (.loaded r (w.soil r).isSome) w
  | soiled {w : View} {r : PageRef} (hr : ∀ x, v.soil r = some x → x.writable = true)
      (hw : w.soil r = (v.soil r).map fun x => { x with dirty := true }) (hs : ∀ o, o ≠ r → w.soil o = v.soil o)
      (hf : w.file = v.file) (hl : v.Tells w []) : v.Does (.soiled r) w
  | given {w : View} {r : PageRef} {e : Event}
      (he : (∃ f, e = .evicted r.va r.space f) ∨ e = .pageRemoved r.space r.va)
      (hs : w.soil = update v.soil r none) (hf : w.file = v.writeBack v.file r)
      (hl : v.Tells w (v.receipt r ++ [e])) : v.Does (.given r) w
  | kept {w : View} {r : PageRef} {f : FrameId} {e : PagingError} (hs : w.soil = v.soil)
      (hf : w.file = v.writeBack v.file r) (hl : v.Tells w (v.receipt r ++ [.evictionFailed r.va f e])) :
      v.Does (.kept r) w
  | dropped {w : View} {s : SpaceId} (hs : ∀ r, w.soil r = if r.space = s then none else v.soil r)
      (hf : w.file = v.file) (hl : v.Tells w []) : v.Does (.dropped s) w
  | put {w : View} {id : FileId} (hs : w.soil = v.soil) (hf : ∀ i, i ≠ id → w.fileAt i = v.fileAt i)
      (hl : v.Tells w []) : v.Does (.put id) w

/-- A page that is marked dirty has to be one that can be written to. -/
theorem does_soil (x : Translation) (hw : ∀ p, v.page r = some p → p.writable = true)
    (a : Bool) :
    v.Does (.soiled r) { v with entry := update v.entry r (some { x with accessed := a, dirty := true }) } := by
  refine .soiled (fun y hy => ?_) ?_ (fun o ho => soil_congr rfl ?_) rfl (.refl v)
  · obtain ⟨p, f, b, hp, -, -, rfl⟩ := page_of_soil hy
    exact hw p hp
  · unfold soil
    cases v.page r with
    | none => rfl
    | some p =>
        by_cases hk : p.kind = .file ∧ p.isResident <;> simp [hk]
  · simp [Function.update_of_ne ho]

structure Surrenders (v : View) (r : PageRef) (w : View) : Prop where
  soil : w.soil = update v.soil r none
  file : w.file = v.writeBack v.file r
  tells : v.Tells w (v.receipt r)

theorem Surrenders.given (h : v.Surrenders r w)
    (he : (∃ f, e = .evicted r.va r.space f) ∨ e = .pageRemoved r.space r.va)
    (hs : u.soil = w.soil) (hf : u.file = w.file) (hl : u.log = w.log.push e) : v.Does (.given r) u :=
  .given he (hs.trans h.soil) (hf.trans h.file) (h.tells.push (by rcases he with ⟨f, rfl⟩ | rfl <;> rfl) hl)

theorem surrenders_of_none (hr : v.page r = none) (hp : w.page = v.page) (hx : w.entry = v.entry)
    (hf : w.file = v.file) (hl : w.log = v.log) : v.Surrenders r w where
  soil := by
    rw [(idles_of_eq hp hx hf hl).soil]
    exact (Function.update_eq_self_iff.2 (soil_of_none hr).symm).symm
  file := by rw [writeBack_of_not_dirty (dirty_of_soil (soil_of_none hr)), hf]
  tells := by
    rw [receipt_of_not_dirty (dirty_of_soil (soil_of_none hr))]
    exact (Tells.refl v).congr rfl hl

abbrev Fetches (v : View) (r : PageRef) : Deed → Prop :=
  Deed.Within (fun o => o = r ∧ ∃ p, v.page r = some p ∧ p.finalKind = .file) fun _ => False

abbrev Marks (r : PageRef) (write : Bool) : Deed → Prop :=
  Deed.Within (fun _ => False) fun o => write = true ∧ o = r

def Deeds (P : Deed → Prop) : View → View → Prop := Relation.ReflTransGen fun v w => ∃ d, P d ∧ v.Does d w

theorem Deeds.refl : Deeds P v v := Relation.ReflTransGen.refl

theorem Deeds.trans (h : Deeds P v w) (k : Deeds P w u) : Deeds P v u := Relation.ReflTransGen.trans h k

theorem Deeds.mono (h : Deeds P v w) (hpq : ∀ d, P d → Q d) : Deeds Q v w :=
  Relation.ReflTransGen.mono (fun _ _ ⟨d, hd, hs⟩ => ⟨d, hpq d hd, hs⟩) _ _ h

theorem Does.deeds (h : v.Does d w) (hd : P d) : Deeds P v w := Relation.ReflTransGen.single ⟨d, hd, h⟩

theorem Idles.within {L S : PageRef → Prop} (h : v.Idles w) : Deeds (Deed.Within L S) v w :=
  (Does.idle h).deeds (P := Deed.Within L S) trivial

theorem fetched (hp : v.page r = some p) (hf : p.frame = none)
    (hpage : w.page = update v.page r (some ⟨p.writable, some f, Vm.residentState p.state⟩))
    (hentry : w.entry = update v.entry r (some (.fresh f p.writable)))
    (hbytes : ∀ id, (w.fileAt id).bytes = (v.fileAt id).bytes) (hl : v.Tells w [.pageResident r.space r.va f]) :
    Deeds (v.Fetches r) v w := by
  have hwp : w.page r = some ⟨p.writable, some f, Vm.residentState p.state⟩ := by
    rw [hpage]
    exact Function.update_self ..
  have hclean : (w.entry r).any (·.dirty) = false := by
    rw [hentry, Function.update_self]
    rfl
  have hothers (o : PageRef) (ho : o ≠ r) : w.soil o = v.soil o := by
    refine soil_congr ?_ ?_
    · rw [hpage, Function.update_of_ne ho]
    · rw [hentry, Function.update_of_ne ho]
  refine Does.deeds (P := v.Fetches r) (.loaded (soil_of_out hp hf) ?_ hothers hbytes hl) fun hfile => ⟨rfl, p, hp, ?_⟩
  · by_cases hk : (⟨p.writable, some f, Vm.residentState p.state⟩ : Page).kind = .file
    · rw [dirty_of_file hwp hk rfl, hclean]
    · rw [dirty_of_soil (soil_of_kind hwp hk)]
  · obtain ⟨x, hx⟩ := Option.isSome_iff_exists.1 hfile
    obtain ⟨q, _, b, hq, -, hst, -⟩ := page_of_soil hx
    cases hwp.symm.trans hq
    cases hps : p.state with
    | untouched filling purpose => cases purpose <;> simp_all [Vm.residentState, Purpose.state, Page.finalKind]
    | anon => simp_all [Vm.residentState]
    | file => simp [Page.finalKind, hps]

theorem Deeds.within {L S : PageRef → Prop} (h : Deeds Deed.Vacates v w) : Deeds (Deed.Within L S) v w :=
  h.mono fun _ hd => hd.within

theorem Deeds.keeps {I : View → Prop} (h : Deeds P v w) (hv : I v)
    (hstep : ∀ {v w d}, P d → v.Does d w → I v → I w) : I w := by
  induction h with
  | refl => exact hv
  | tail _ hs ih =>
      obtain ⟨d, hd, hs⟩ := hs
      exact hstep hd hs ih

theorem Tells.grows (h : v.Tells w es) : v.Grows w := by
  obtain ⟨l, hl, -⟩ := h
  exact ⟨l.toArray, Array.toList_inj.1 (by rw [hl, Array.toList_append])⟩

/-- What weighs is told on the way if it is on the list. -/
theorem Tells.told_iff (h : v.Tells w es) (he : e.weighs = true) : v.Told w e ↔ e ∈ es := by
  obtain ⟨l, hl, rfl⟩ := h
  have hget (i : Nat) : w.log[v.log.size + i]? = l[i]? := by
    rw [← Array.getElem?_toList, hl, List.getElem?_append_right (by simp), Array.length_toList, Nat.add_sub_cancel_left]
  rw [List.mem_filter, List.mem_iff_getElem?]
  constructor
  · rintro ⟨i, hi, heq⟩
    rw [← Nat.add_sub_cancel' hi, hget] at heq
    exact ⟨⟨_, heq⟩, he⟩
  · rintro ⟨⟨i, hi⟩, -⟩
    exact ⟨v.log.size + i, Nat.le_add_right .., by rw [hget, hi]⟩

theorem told_trans_iff (hv : v.Grows w) (hw : w.Grows u) : v.Told u e ↔ v.Told w e ∨ w.Told u e := by
  refine ⟨fun h => ?_, fun h => h.elim (·.after hw) (·.before hv)⟩
  obtain ⟨i, hi, he⟩ := h
  by_cases hlt : i < w.log.size
  · obtain ⟨l, hl⟩ := hw
    rw [hl, Array.getElem?_append_left hlt] at he
    exact .inl ⟨i, hi, he⟩
  · exact .inr ⟨i, Nat.not_lt.1 hlt, he⟩

theorem not_told_self : ¬ v.Told v e := by
  rintro ⟨i, hi, he⟩
  rw [Array.getElem?_eq_none hi] at he
  cases he

theorem Does.tells (h : v.Does d w) : ∃ es, v.Tells w es := by
  cases h with
  | idle h => exact ⟨_, h.tells⟩
  | loaded _ _ _ _ hl | soiled _ _ _ _ hl | given _ _ _ hl | kept _ _ hl | dropped _ _ hl | put _ _ hl => exact ⟨_, hl⟩

theorem Deeds.grows (h : Deeds P v w) : v.Grows w :=
  h.keeps (I := v.Grows) ⟨#[], (Array.append_empty ..).symm⟩ fun _ h hv => by
    obtain ⟨es, hes⟩ := h.tells
    exact hv.trans hes.grows

theorem resident_notMem_receipt (v : View) (r : PageRef) (s : SpaceId) (va : Addr) (f : FrameId) :
    Event.pageResident s va f ∉ v.receipt r := by
  unfold receipt
  split
  · split <;> simp
  · simp

def Reloads (v w : View) (r : PageRef) : Prop := ∃ f, v.Told w (.pageResident r.space r.va f)

/-- A file page that is in a frame was loaded and not made dirty since, or was there before and was as dirty. -/
def Traces (v w : View) (r : PageRef) (x : Soil) : Prop :=
  v.Reloads w r ∧ x.dirty = false ∨ ¬ v.Reloads w r ∧ v.soil r = some x

theorem Tells.reloads_iff (h : v.Tells w es) : v.Reloads w r ↔ ∃ f, Event.pageResident r.space r.va f ∈ es :=
  exists_congr fun _ => h.told_iff rfl

theorem Does.traces (h : v.Does d w) (hd : d ≠ .soiled r) (hx : w.soil r = some x) : v.Traces w r x := by
  have hstays {es : List Event} (hl : v.Tells w es) (hes : ∀ f, Event.pageResident r.space r.va f ∉ es)
      (hs : w.soil r = v.soil r) : v.Traces w r x := by
    refine .inr ⟨fun h => ?_, hs ▸ hx⟩
    obtain ⟨f, hf⟩ := hl.reloads_iff.1 h
    exact hes f hf
  cases h with
  | idle h => exact hstays h.tells nofun (by rw [h.soil])
  | @loaded _ o f _ hw hs _ hl =>
      by_cases hr : r = o
      · subst hr
        rw [dirty, hx, Option.any_some] at hw
        exact .inl ⟨hl.reloads_iff.2 ⟨f, List.mem_singleton_self _⟩, hw⟩
      · refine hstays hl (fun g hg => hr ?_) (hs r hr)
        obtain ⟨hspace, hva, -⟩ := Event.pageResident.inj (List.mem_singleton.1 hg)
        exact congrArg₂ PageRef.mk hspace hva
  | @soiled _ o _ _ hs _ hl => exact hstays hl nofun (hs r fun hr => hd (by rw [hr]))
  | @given _ o e he hs _ hl =>
      by_cases hr : r = o
      · rw [hs, hr, Function.update_self] at hx
        cases hx
      · refine hstays hl (fun f hf => ?_) (by rw [hs, Function.update_of_ne hr])
        rcases List.mem_append.1 hf with hf | hf
        · exact resident_notMem_receipt _ _ _ _ _ hf
        · rcases he with ⟨g, rfl⟩ | rfl <;> simp at hf
  | @kept _ o _ _ hs _ hl =>
      refine hstays hl (fun f hf => ?_) (by rw [hs])
      rcases List.mem_append.1 hf with hf | hf
      · exact resident_notMem_receipt _ _ _ _ _ hf
      · simp at hf
  | dropped hs _ hl =>
      rw [hs] at hx
      split at hx
      · cases hx
      · exact hstays hl nofun (by rw [hs, if_neg ‹_›])
  | put hs _ hl => exact hstays hl nofun (by rw [hs])

/-- Unless it is made dirty, a file page is as dirty as when it was last loaded. -/
theorem Deeds.traces (h : Deeds P v w) (hP : ¬ P (.soiled r)) (hx : w.soil r = some x) : v.Traces w r x := by
  induction h generalizing x with
  | refl => exact .inr ⟨fun ⟨f, hf⟩ => not_told_self hf, hx⟩
  | @tail u w hu hs ih =>
      have hgrows : v.Grows u := Deeds.grows hu
      obtain ⟨d, hd, hs⟩ := hs
      obtain ⟨es, hes⟩ := hs.tells
      have hreloads : v.Reloads w r ↔ v.Reloads u r ∨ u.Reloads w r := by
        unfold Reloads
        rw [← exists_or]
        exact exists_congr fun f => told_trans_iff hgrows hes.grows
      rcases hs.traces (by rintro rfl; exact hP hd) hx with ⟨hload, hclean⟩ | ⟨hload, hbefore⟩
      · exact .inl ⟨hreloads.2 (.inr hload), hclean⟩
      · rcases ih hbefore with ⟨hload', hclean⟩ | ⟨hload', hfirst⟩
        · exact .inl ⟨hreloads.2 (.inl hload'), hclean⟩
        · exact .inr ⟨fun h => (hreloads.1 h).elim hload' hload, hfirst⟩

theorem clean_congr (h : w.soil r = v.soil r) : w.clean r = v.clean r := by rw [clean, h, clean]

theorem clean_of_soil (h : v.soil r = none) : v.clean r = false := by rw [clean, h, Option.any_none]

theorem clean_of_entry (h : (v.entry r).any (·.dirty) = true) : v.clean r = false := by
  cases hs : v.soil r with
  | none => exact clean_of_soil hs
  | some x =>
      obtain ⟨p, f, b, -, -, -, rfl⟩ := page_of_soil hs
      rw [clean, hs, Option.any_some, h]
      rfl

/-- Only loading makes a file page clean. -/
theorem Deeds.unclean (h : Deeds P v w) (hP : ¬ P (.loaded r true)) (hv : v.clean r = false) : w.clean r = false := by
  refine h.keeps (I := fun w => w.clean r = false) hv fun {v w d} hd hs hv => ?_
  cases hs with
  | idle h => exact (clean_congr (congrFun h.soil r)).trans hv
  | @loaded _ o _ _ hw hs =>
      by_cases hr : r = o
      · subst hr
        refine clean_of_soil (Option.not_isSome_iff_eq_none.1 fun hfile => hP ?_)
        rwa [hfile] at hd
      · exact (clean_congr (hs r hr)).trans hv
  | @soiled _ o _ hw hs =>
      by_cases hr : r = o
      · subst hr
        rw [clean, hw]
        cases v.soil r <;> rfl
      · exact (clean_congr (hs r hr)).trans hv
  | @given _ o _ _ hs =>
      by_cases hr : r = o
      · exact clean_of_soil (by rw [hs, hr, Function.update_self])
      · exact (clean_congr (by rw [hs, Function.update_of_ne hr])).trans hv
  | kept hs | put hs => exact (clean_congr (congrFun hs r)).trans hv
  | @dropped _ s hs =>
      by_cases hr : r.space = s
      · exact clean_of_soil (by rw [hs, if_pos hr])
      · exact (clean_congr (by rw [hs, if_neg hr])).trans hv

def Prudent (v : View) : Prop := ∀ r x, v.soil r = some x → x.dirty = true → x.writable = true

theorem Prudent.writable (h : v.Prudent) (hp : v.page r = some p) (hd : v.dirty r = true) : p.writable = true := by
  obtain ⟨x, hx, hdirty⟩ := soil_of_dirty hd
  obtain ⟨q, _, _, hq, -, -, rfl⟩ := page_of_soil hx
  cases hp.symm.trans hq
  exact h r _ hx hdirty

theorem Prudent.congr (h : v.Prudent) (hs : w.soil = v.soil) : w.Prudent := by
  unfold Prudent
  rwa [hs]

theorem Does.prudent (h : v.Does d w) (hv : v.Prudent) : w.Prudent := by
  have hother {o : PageRef} (hs : ∀ r, r ≠ o → w.soil r = v.soil r)
      (ho : ∀ x, w.soil o = some x → x.dirty = true → x.writable = true) : w.Prudent := by
    intro r x hx hd
    by_cases hr : r = o
    · exact ho x (hr ▸ hx) hd
    · exact hv r x (hs r hr ▸ hx) hd
  cases h with
  | idle h => exact hv.congr h.soil
  | loaded _ hw hs =>
      refine hother hs fun x hx hd => ?_
      rw [dirty, hx, Option.any_some, hd] at hw
      cases hw
  | soiled hr hw hs =>
      refine hother hs fun x hx _ => ?_
      obtain ⟨y, hy, rfl⟩ := Option.map_eq_some_iff.1 (hw ▸ hx)
      exact hr y hy
  | @given _ o _ _ hs =>
      refine hother (o := o) (fun r hr => by rw [hs, Function.update_of_ne hr]) fun x hx => ?_
      rw [hs, Function.update_self] at hx
      cases hx
  | kept hs | put hs => exact hv.congr hs
  | dropped hs =>
      intro r x hx
      rw [hs] at hx
      split at hx
      · cases hx
      · exact hv r x hx

theorem Deeds.prudent (h : Deeds P v w) (hv : v.Prudent) : w.Prudent := h.keeps hv fun _ h hv => h.prudent hv

end View

end DemandPaging
