import DemandPaging.Proofs.Stores

namespace DemandPaging

open Function (update)
open Machine

variable {t : Turn} {v w : View} {r : PageRef} {p q : Page} {a : Act} {b b' : Backing} {F : File}
  {i : FileId} {pos k : Nat} {c : Contents} {x : UInt8} {P : Act → Prop}

namespace File

theorem size_overwrite (F : File) (offset : Nat) (data : Array UInt8) :
    (F.overwrite offset data).2.bytes.size = F.bytes.size :=
  Array.size_ofFn

theorem byte_overwrite_outside {offset : Nat} {data : Array UInt8}
    (h : pos < offset ∨ offset + data.size ≤ pos) :
    (F.overwrite offset data).2.bytes[pos]? = F.bytes[pos]? := by
  unfold overwrite
  dsimp only
  rw [Array.getElem?_ofFn]
  split
  · rename_i hlt
    rw [Array.getElem?_eq_getElem hlt]
    dsimp only [Fin.getElem_fin]
    split
    · rw [Array.getElem?_eq_none (by omega)]
      rfl
    · rfl
  · rw [Array.getElem?_eq_none (by omega)]

theorem byte_overwrite_inside {offset : Nat} {data : Array UInt8} (hk : k < data.size)
    (hs : offset + k < F.bytes.size) : (F.overwrite offset data).2.bytes[offset + k]? = data[k]? := by
  unfold overwrite
  dsimp only
  rw [Array.getElem?_ofFn, dif_pos hs]
  simp [Array.getElem?_eq_getElem hk]

def Whole (F : File) : Prop := ∀ i n, (F.limits i).write = some n → pageSize ≤ n

end File

namespace Backing

def Covers (b : Backing) (i : FileId) (pos : Nat) : Prop :=
  b.handle.file = i ∧ b.offset ≤ pos ∧ pos < b.offset + b.expected

theorem save_eq (b : Backing) (c : Contents) (F : File) :
    b.save c F = { F with calls := F.calls + 1 }.overwrite b.offset
      ((Buffer.slice c 0 b.expected).extract 0 (capped (F.limits F.calls).write (Buffer.slice c 0 b.expected).size)) :=
  rfl

theorem size_save (b : Backing) (c : Contents) (F : File) : (b.save c F).2.bytes.size = F.bytes.size :=
  File.size_overwrite ..

theorem limits_save (b : Backing) (c : Contents) (F : File) : (b.save c F).2.limits = F.limits := rfl

theorem size_slice_expected (b : Backing) (c : Contents) : (Buffer.slice c 0 b.expected).size = b.expected :=
  c.size_slice (by rw [Nat.zero_add]; exact b.expected_le)

theorem byte_save_outside (h : ¬ (b.offset ≤ pos ∧ pos < b.offset + b.expected)) :
    (b.save c F).2.bytes[pos]? = F.bytes[pos]? := by
  rw [save_eq]
  refine File.byte_overwrite_outside ?_
  rw [Array.size_extract, b.size_slice_expected]
  omega

theorem byte_save {page : Contents} (h : (b.save page F).1 = b.expected) (hk : k < b.expected) :
    (b.save page F).2.bytes[b.offset + k]? = page[k]? := by
  rw [save_eq] at h ⊢
  generalize hd : (Buffer.slice page 0 b.expected).extract 0
    (capped (F.limits F.calls).write (Buffer.slice page 0 b.expected).size) = d at h ⊢
  have hsize : d.size ≤ b.expected := by
    rw [← hd, Array.size_extract, b.size_slice_expected]
    omega
  simp only [File.overwrite, File.reach] at h
  split at h
  swap
  · omega
  have hdk : k < d.size := by omega
  rw [File.byte_overwrite_inside hdk (by dsimp only; omega), ← hd]
  rw [← hd, Array.size_extract] at hdk
  rw [Array.getElem?_extract_of_lt (by omega), ← Array.getElem?_eq_getElem, Nat.zero_add,
    page.getElem?_slice (by rw [Nat.zero_add]; exact b.expected_le) hk, Nat.zero_add]

theorem save_of_whole (hF : F.Whole) (hs : ∀ k < b.expected, b.offset + k < F.bytes.size) (c : Contents) :
    (b.save c F).1 = b.expected := by
  have hcap : b.expected ≤ capped (F.limits F.calls).write b.expected := by
    unfold capped
    cases hl : (F.limits F.calls).write with
    | none => exact Nat.le_refl _
    | some n => exact Nat.le_min.2 ⟨b.expected_le.trans (hF _ n hl), Nat.le_refl _⟩
  rw [save_eq]
  simp only [File.overwrite, File.reach, Array.size_extract, b.size_slice_expected]
  by_cases he : b.expected = 0
  · rw [he]
    simp
  · have hlast := hs (b.expected - 1) (by omega)
    rw [if_pos (by omega)]
    omega

theorem getElem_image (b : Backing) (F : File) (hk : k < pageSize) :
    (b.image F)[k] = if k < b.expected then (F.bytes[b.offset + k]?).getD 0 else 0 :=
  Vector.getElem_ofFn hk

theorem image_rest {o : Option UInt8} (hk : k < pageSize) (h : k < b.expected ∨ o = none) :
    k < b.expected ∨ o.getD ((b.image F)[k]) = 0 := by
  by_cases hlt : k < b.expected
  · exact .inl hlt
  · rw [h.resolve_left hlt, Option.getD_none, getElem_image, if_neg hlt]
    exact .inr rfl

theorem image_byte_congr {G : File}
    (h : k < b.expected → G.bytes[b.offset + k]? = F.bytes[b.offset + k]?) :
    (b.image G)[k]? = (b.image F)[k]? := by
  by_cases hk : k < pageSize
  · rw [Vector.getElem?_eq_getElem hk, Vector.getElem?_eq_getElem hk, getElem_image, getElem_image]
    split
    · rw [h ‹_›]
    · rfl
  · rw [Vector.getElem?_eq_none (by omega), Vector.getElem?_eq_none (by omega)]

/-- What was saved whole is what the page is read as again, up to where the backed part ends. -/
theorem image_save {page : Contents} (h : (b.save page F).1 = b.expected) (hpage : page[k]? = some x)
    (hk : k < b.expected ∨ x = 0) : (b.image (b.save page F).2)[k]? = some x := by
  obtain ⟨hlt, rfl⟩ := Vector.getElem?_eq_some_iff.1 hpage
  rw [Vector.getElem?_eq_getElem hlt, getElem_image]
  split
  · rw [byte_save h ‹_›, hpage, Option.getD_some]
  · rw [hk.resolve_left ‹_›]

end Backing

namespace View

theorem Step.backing?_eq (h : v.Step a w) (hq : w.page r = some q) (ha : a ≠ .added r q) :
    ∃ p, v.page r = some p ∧ p.backing? = q.backing? := by
  obtain ⟨p, hp, hlike⟩ := h.was_like hq ha
  exact ⟨p, hp, hlike.backing?.symm⟩

def Alone (v : View) (r : PageRef) (i : FileId) (pos : Nat) : Prop :=
  ∀ r' p b, v.page r' = some p → p.backing? = some b → b.Covers i pos → r' = r

/-- A page stays alone as long as no other is registered over the same byte. -/
theorem Step.alone (h : v.Step a w) (hv : v.Alone r i pos)
    (ha : ∀ r' p b, a = .added r' p → p.backing? = some b → b.Covers i pos → r' = r) :
    w.Alone r i pos := by
  intro r' q b hq hb hcov
  by_cases hadd : a = .added r' q
  · exact ha r' q b hadd hb hcov
  · obtain ⟨p, hp, hpb⟩ := h.backing?_eq hq hadd
    exact hv r' p b hp (hpb.trans hb) hcov

/-- The byte at `k` of the file page at `r` is `x`: in its frame, if it is in one, and in its file as
long as the frame is not known to be newer. -/
inductive Mirrors (v : View) (r : PageRef) (b : Backing) (k : Nat) (x : UInt8) : Prop
  | out {p : Page} (hp : v.page r = some p) (hf : p.frame = none)
      (hs : p.state = .file b ∨ p.state = .untouched (some (.segment b)) (.file b))
      (hx : (b.image (v.fileAt b.handle.file))[k]? = some x)
  | resident {p : Page} {f : FrameId} (hp : v.page r = some p) (hf : p.frame = some f)
      (hs : p.state = .file b) (hc : (v.bytes f)[k]? = some x)
      (hx : (v.entry r).any (·.dirty) = false → (b.image (v.fileAt b.handle.file))[k]? = some x)
  | gone (hp : v.page r = none) (hx : (b.image (v.fileAt b.handle.file))[k]? = some x)

theorem Mirrors.congr (h : v.Mirrors r b k x) (hp : w.page r = v.page r)
    (he : w.entry r = v.entry r)
    (hi : (b.image (w.fileAt b.handle.file))[k]? = (b.image (v.fileAt b.handle.file))[k]?)
    (hb : ∀ p f, v.page r = some p → p.frame = some f → w.bytes f = v.bytes f) :
    w.Mirrors r b k x := by
  cases h with
  | out hp' hf hs hx => exact .out (hp.trans hp') hf hs (hi.trans hx)
  | resident hp' hf hs hc hx =>
      refine .resident (hp.trans hp') hf hs ?_ fun hd => hi.trans (hx (he ▸ hd))
      rw [hb _ _ hp' hf]
      exact hc
  | gone hp' hx => exact .gone (hp.trans hp') (hi.trans hx)

theorem Mirrors.state (h : v.Mirrors r b k x) (hp : v.page r = some p) :
    p.state = .file b ∨ p.state = .untouched (some (.segment b)) (.file b) := by
  cases h with
  | out hp' _ hs =>
      obtain rfl := Option.some.inj (hp.symm.trans hp')
      exact hs
  | resident hp' _ hs =>
      obtain rfl := Option.some.inj (hp.symm.trans hp')
      exact .inl hs
  | gone hp' =>
      rw [hp] at hp'
      cases hp'

/-- What was mirrored is in the file once the page is gone. -/
theorem Mirrors.image_of_none (h : v.Mirrors r b k x) (hp : v.page r = none) :
    (b.image (v.fileAt b.handle.file))[k]? = some x := by
  cases h with
  | out hp' | resident hp' =>
      rw [hp] at hp'
      cases hp'
  | gone _ hx => exact hx

theorem Mirrors.image_of_out (h : v.Mirrors r b k x) (hp : v.page r = some p) (hf : p.frame = none) :
    (b.image (v.fileAt b.handle.file))[k]? = some x := by
  cases h with
  | out _ _ _ hx | gone _ hx => exact hx
  | resident hp' hf' =>
      obtain rfl := Option.some.inj (hp.symm.trans hp')
      rw [hf] at hf'
      cases hf'

theorem Mirrors.byte_of_frame {f : FrameId} (h : v.Mirrors r b k x) (hp : v.page r = some p)
    (hf : p.frame = some f) : p.state = .file b ∧ (v.bytes f)[k]? = some x ∧
      ((v.entry r).any (·.dirty) = false → (b.image (v.fileAt b.handle.file))[k]? = some x) := by
  cases h with
  | out hp' hf' =>
      obtain rfl := Option.some.inj (hp.symm.trans hp')
      rw [hf] at hf'
      cases hf'
  | resident hp' hf' hs hc hx =>
      obtain rfl := Option.some.inj (hp.symm.trans hp')
      obtain rfl := Option.some.inj (hf.symm.trans hf')
      exact ⟨hs, hc, hx⟩
  | gone hp' =>
      rw [hp] at hp'
      cases hp'

theorem bytes_map_fileAt {g : File → File} (hg : ∀ F, (g F).bytes.size = F.bytes.size) :
    (((v.file i).map g).getD .empty).bytes = (g (v.fileAt i)).bytes := by
  unfold fileAt
  cases v.file i with
  | none =>
      have hsize := hg .empty
      exact (Array.eq_empty_of_size_eq_zero hsize).symm
  | some F => rfl

/-- Saving a page leaves the bytes of files as they are that it is not backed by. -/
theorem byte_of_save (hw : w.file = update v.file b.handle.file
      ((v.file b.handle.file).map fun F => (b.save c F).2))
    (hcov : ¬ b.Covers i pos) : (w.fileAt i).bytes[pos]? = (v.fileAt i).bytes[pos]? := by
  rw [fileAt, hw]
  by_cases hid : i = b.handle.file
  · rw [hid, Function.update_self, bytes_map_fileAt (b.size_save c)]
    exact Backing.byte_save_outside fun hin => hcov ⟨hid.symm, hin⟩
  · rw [Function.update_of_ne hid]
    rfl

theorem image_of_save (hw : w.file = update v.file b'.handle.file
      ((v.file b'.handle.file).map fun F => (b'.save c F).2))
    (hcov : k < b.expected → ¬ b'.Covers b.handle.file (b.offset + k)) :
    (b.image (w.fileAt b.handle.file))[k]? = (b.image (v.fileAt b.handle.file))[k]? :=
  Backing.image_byte_congr fun hk => byte_of_save hw (hcov hk)

namespace Mirrors

theorem marked {y : Translation} {e d : Bool} (h : v.Mirrors r b k x) (hx : v.entry r = some y)
    (hd : y.dirty = true → d = true ∨ ∃ p, v.page r = some p ∧ p.kind = .anon) :
    Mirrors { v with entry := update v.entry r (some { y with accessed := e, dirty := d }) } r b k x := by
  cases h with
  | out hp hf hs hi => exact .out hp hf hs hi
  | gone hp hi => exact .gone hp hi
  | resident hp hf hs hc hi =>
      refine .resident hp hf hs hc fun hclean => hi ?_
      dsimp only at hclean
      rw [Function.update_self, Option.any_some] at hclean
      rw [hx, Option.any_some, ← Bool.not_eq_true]
      intro hy
      rcases hd hy with hd | ⟨q, hq, hanon⟩
      · rw [hd] at hclean
        cases hclean
      · obtain rfl := Option.some.inj (hp.symm.trans hq)
        simp [Page.kind, hs] at hanon

section

variable {f : FrameId} (h : v.Mirrors r b k x) (hp : v.page r = some p)
include h hp

theorem discarded (hs : p.state = .file b') (hf : p.frame = some f) (hclean : (v.entry r).any (·.dirty) = false)
    (hw : w.page r = some ⟨p.writable, none, .file b'⟩) (hfile : w.file = v.file) : w.Mirrors r b k x := by
  obtain ⟨hst, -, hi⟩ := h.byte_of_frame hp hf
  rw [hs] at hst
  refine .out hw rfl (.inl hst) ?_
  rw [fileAt, hfile]
  exact hi hclean

theorem flushed {y : Option Translation} (hs : p.state = .file b') (hf : p.frame = some f)
    (hc : (b'.save (v.bytes f) (v.fileAt b'.handle.file)).1 = b'.expected) (hk : k < b.expected ∨ x = 0) :
    Mirrors { v with
      file := update v.file b'.handle.file ((v.file b'.handle.file).map fun F => (b'.save (v.bytes f) F).2)
      entry := update v.entry r y } r b k x := by
  obtain ⟨hst, hbyte, -⟩ := h.byte_of_frame hp hf
  obtain rfl := PageState.file.inj (hs.symm.trans hst)
  refine .resident hp hf hs hbyte fun _ => ?_
  dsimp only [fileAt]
  rw [Function.update_self, Backing.image_congr _ (bytes_map_fileAt (b'.size_save _))]
  exact Backing.image_save hc hbyte hk

/-- A page that comes into a frame is filled from its file. -/
theorem loaded (hf : p.frame = none) (hc : v.Brings p c)
    (hw : w.page r = some ⟨p.writable, some f, Vm.residentState p.state⟩)
    (hbytes : w.bytes f = c) (hfile : w.file = v.file) : w.Mirrors r b k x := by
  have hi := h.image_of_out hp hf
  have hstate : Vm.residentState p.state = .file b ∧ c = b.image (v.fileAt b.handle.file) := by
    rcases h.state hp with hst | hst <;> rw [Brings, hst] at hc <;> rw [hst]
    · exact ⟨rfl, hc⟩
    · exact ⟨rfl, hc⟩
  obtain ⟨hst, rfl⟩ := hstate
  refine .resident hw rfl hst (hbytes ▸ hi) fun _ => ?_
  rw [fileAt, hfile]
  exact hi

theorem removed (hclean : p.kind = .file → (v.entry r).any (·.dirty) = false) (hw : w.page r = none)
    (hfile : w.file = v.file) : w.Mirrors r b k x := by
  refine .gone hw ?_
  rw [fileAt, hfile]
  cases hf : p.frame with
  | none => exact h.image_of_out hp hf
  | some f =>
      obtain ⟨hst, -, hi⟩ := h.byte_of_frame hp hf
      exact hi (hclean (by rw [Page.kind, hst]))

end

end Mirrors

/-- What a file page holds is moved between its frame and its file, but not changed, by whatever does
not store in it. -/
theorem Step.mirrors (h : v.Step a w) (hv : v.Coherent) (hm : v.Mirrors r b k x)
    (hk : k < b.expected ∨ x = 0)
    (halone : k < b.expected → v.Alone r b.handle.file (b.offset + k))
    (hput : ∀ g, a = .put b.handle.file g → k < b.expected →
      ∀ F : File, (g F).bytes[b.offset + k]? = F.bytes[b.offset + k]?)
    (hadd : ∀ p, a ≠ .added r p) (hdrop : a ≠ .dropped r.space)
    (hlost : ∀ p, a = .removed r false → v.page r = some p → ¬ v.Balks p)
    (hst : ∀ offset data, a ≠ .stored r offset data) : w.Mirrors r b k x := by
  have hother {r' : PageRef} {p' : Page} {b' : Backing} (hne : r ≠ r') (hp' : v.page r' = some p')
      (hs : p'.state = .file b') (hk : k < b.expected) : ¬ b'.Covers b.handle.file (b.offset + k) :=
    fun hcov => hne (halone hk r' p' b' hp' (by simp [Page.backing?, hs]) hcov).symm
  cases h with
  | called i =>
      refine hm.congr rfl rfl (Backing.image_byte_congr fun _ => ?_) fun _ _ _ _ => rfl
      simp only [fileAt, Function.update_apply]
      split
      · rename_i heq
        rw [heq]
        cases v.file i <;> rfl
      · rfl
  | @marked r' y e d hx hd =>
      by_cases hr : r = r'
      · subst hr
        exact hm.marked hx hd
      · exact hm.congr rfl (Function.update_of_ne hr ..) rfl fun _ _ _ _ => rfl
  | scribbled c hf =>
      exact hm.congr rfl rfl rfl fun p g hp hg => Function.update_of_ne (hv.frame_ne hf hp hg) ..
  | @swapped f r' p' k' stack l hp' hs hf =>
      have hr : r ≠ r' := by
        rintro rfl
        rcases hm.state hp' with hst | hst <;> rw [hs] at hst <;> cases hst
      exact hm.congr (Function.update_of_ne hr ..) (Function.update_of_ne hr ..) rfl fun _ _ _ _ => rfl
  | @discarded f r' p' b' l hp' hs hf hx =>
      by_cases hr : r = r'
      · subst hr
        exact hm.discarded hp' hs hf hx (Function.update_self ..) rfl
      · exact hm.congr (Function.update_of_ne hr ..) (Function.update_of_ne hr ..) rfl fun _ _ _ _ => rfl
  | @flushed f r' p' b' y hp' hs hf hx hc =>
      by_cases hr : r = r'
      · subst hr
        exact hm.flushed hp' hs hf hc hk
      · exact hm.congr rfl (Function.update_of_ne hr ..) (image_of_save rfl (hother hr hp' hs))
          fun _ _ _ _ => rfl
  | @cut f r' p' b' hp' hs hf hx =>
      by_cases hr : r = r'
      · subst hr
        obtain ⟨hst, hbyte, -⟩ := hm.byte_of_frame hp' hf
        refine .resident hp' hf hst hbyte fun hclean => ?_
        rw [hx] at hclean
        cases hclean
      · exact hm.congr rfl rfl (image_of_save rfl (hother hr hp' hs)) fun _ _ _ _ => rfl
  | @loaded f r' p' c hp' hf hpin hc =>
      by_cases hr : r = r'
      · subst hr
        exact hm.loaded hp' hf hc (Function.update_self ..) (Function.update_self ..) rfl
      · exact hm.congr (Function.update_of_ne hr ..) (Function.update_of_ne hr ..) rfl fun p g hp hg =>
          Function.update_of_ne (hv.frame_ne hpin hp hg) ..
  | @added r' =>
      have hr : r ≠ r' := by
        rintro rfl
        exact hadd _ rfl
      exact hm.congr (Function.update_of_ne hr ..) rfl rfl fun _ _ _ _ => rfl
  | @removed r' p' saved hp' hx hl =>
      by_cases hr : r = r'
      · subst hr
        cases saved with
        | false => exact absurd (hl rfl) (hlost p' rfl hp')
        | true => exact hm.removed hp' (hx rfl) (Function.update_self ..) rfl
      · exact hm.congr (Function.update_of_ne hr ..) (Function.update_of_ne hr ..) rfl fun _ _ _ _ => rfl
  | @stored f r' p' offset data hp' hf =>
      refine hm.congr rfl rfl rfl fun p g hp hg => Function.update_of_ne ?_ ..
      rintro rfl
      exact hst offset data (by rw [hv.frame_inj hp hg hp' hf])
  | dropped s =>
      have hr : r.space ≠ s := fun heq => hdrop (by rw [heq])
      exact hm.congr (if_neg hr) (if_neg hr) rfl fun _ _ _ _ => rfl
  | put i g =>
      refine hm.congr rfl rfl (Backing.image_byte_congr fun hlt => ?_) fun _ _ _ _ => rfl
      by_cases hi : b.handle.file = i
      · subst hi
        simp only [fileAt, Function.update_self, Option.getD_some]
        exact hput g rfl hlt _
      · simp [fileAt, Function.update_of_ne hi]
  | _ => exact hm.congr rfl rfl rfl fun _ _ _ _ => rfl

theorem Step.mirrors_stored {offset : Nat} {data : Array UInt8} (h : v.Step (.stored r offset data) w)
    (ha : t.May (.stored r offset data)) (hm : v.Mirrors r b k x) :
    ∃ y, w.Mirrors r b k y ∧ (y = x ∨ t.stored? r k = some y) := by
  cases h with
  | @stored f _ p _ _ hp hf hx =>
      obtain ⟨hst, hbyte, -⟩ := hm.byte_of_frame hp hf
      obtain ⟨hlt, rfl⟩ := Vector.getElem?_eq_some_iff.1 hbyte
      refine ⟨((v.bytes f).overlay offset data)[k], .resident hp hf hst ?_ fun hclean => ?_,
        changes_stored ha _ k hlt⟩
      · dsimp only
        rw [Function.update_self, Vector.getElem?_eq_getElem hlt]
      · rw [hx] at hclean
        cases hclean

def Roomy (v : View) (b : Backing) : Prop :=
  (v.fileAt b.handle.file).Whole ∧ ∀ k < b.expected, b.offset + k < (v.fileAt b.handle.file).bytes.size

theorem Roomy.not_balks (h : v.Roomy b) (hs : ∀ b', p.state = .file b' → b' = b) : ¬ v.Balks p := by
  rintro ⟨b', f, F, hst, -, hlimits, hsize, hcount⟩
  obtain rfl := hs b' hst
  refine hcount (Backing.save_of_whole (fun i n hn => ?_) (fun k hk => ?_) _)
  · rw [hlimits] at hn
    exact h.1 i n hn
  · rw [hsize]
    exact h.2 k hk

theorem Step.file_shape (h : v.Step a w) (ha : ∀ g, a ≠ .put i g) :
    (w.fileAt i).bytes.size = (v.fileAt i).bytes.size ∧ (w.fileAt i).limits = (v.fileAt i).limits := by
  have hmap (j : FileId) (g : File → File) (hg : ∀ F, (g F).bytes.size = F.bytes.size ∧ (g F).limits = F.limits)
      (hw : w.file = update v.file j ((v.file j).map g)) :
      (w.fileAt i).bytes.size = (v.fileAt i).bytes.size ∧ (w.fileAt i).limits = (v.fileAt i).limits := by
    unfold fileAt
    rw [hw]
    by_cases hij : i = j
    · subst hij
      rw [Function.update_self]
      cases v.file i with
      | none => exact ⟨rfl, rfl⟩
      | some F => exact hg F
    · rw [Function.update_of_ne hij]
      exact ⟨rfl, rfl⟩
  cases h with
  | called j => exact hmap j (fun F => { F with calls := F.calls + 1 }) (fun _ => ⟨rfl, rfl⟩) rfl
  | @flushed f _ _ b | @cut f _ _ b =>
      exact hmap b.handle.file _ (fun F => ⟨b.size_save _ F, b.limits_save _ F⟩) rfl
  | put j g =>
      have hij : i ≠ j := fun heq => ha g (by rw [heq])
      simp [fileAt, Function.update_of_ne hij]
  | _ => exact ⟨rfl, rfl⟩

theorem Step.roomy (h : v.Step a w) (ha : ∀ g, a ≠ .put b.handle.file g) (hv : v.Roomy b) : w.Roomy b := by
  obtain ⟨hsize, hlimits⟩ := h.file_shape ha
  refine ⟨fun i n hn => hv.1 i n (by rwa [← hlimits]), fun k hk => ?_⟩
  rw [hsize]
  exact hv.2 k hk

end View

structure Act.Minds (t : Turn) (r : PageRef) (b : Backing) (k : Nat) (a : Act) : Prop where
  stored : ∀ offset data, a = .stored r offset data → t.May a
  put : ∀ g, a = .put b.handle.file g → k < b.expected →
    ∀ F : File, (g F).bytes[b.offset + k]? = F.bytes[b.offset + k]?
  rival : ∀ r' p b', a = .added r' p → p.backing? = some b' → k < b.expected →
    ¬ b'.Covers b.handle.file (b.offset + k)
  added : ∀ p, a ≠ .added r p
  dropped : a ≠ .dropped r.space

namespace View

/-- A turn that minds a file page changes it only by what it stores there. If it takes the page away,
the page is as it was in its file. -/
theorem Path.mirrors (h : Path P v w) (hP : ∀ a, P a → a.Minds t r b k) (hv : v.Coherent)
    (hr : (∀ saved, ¬ P (.removed r saved)) ∨ v.Roomy b ∧ ∀ g, ¬ P (.put b.handle.file g))
    (halone : k < b.expected → v.Alone r b.handle.file (b.offset + k)) (hm : v.Mirrors r b k x)
    (hk : k < b.expected ∨ x = 0 ∧ t.stored? r k = none) :
    (k < b.expected → w.Alone r b.handle.file (b.offset + k)) ∧
      ∃ y, w.Mirrors r b k y ∧ (y = x ∨ t.stored? r k = some y) := by
  refine (h.keeps (I := fun w => w.Coherent ∧
    ((∀ saved, ¬ P (.removed r saved)) ∨ w.Roomy b ∧ ∀ g, ¬ P (.put b.handle.file g)) ∧
    (k < b.expected → w.Alone r b.handle.file (b.offset + k)) ∧
      ∃ y, w.Mirrors r b k y ∧ (y = x ∨ t.stored? r k = some y)) ⟨hv, hr, halone, x, hm, .inl rfl⟩
    fun {v w a} ha hs hw => ?_).2.2
  obtain ⟨hc, hr, halone, y, hy, hyx⟩ := hw
  have hmind := hP a ha
  refine ⟨hc.step hs, hr.imp_right fun ⟨hroom, hput⟩ => ⟨hs.roomy (fun g heq => hput g (heq ▸ ha)) hroom, hput⟩,
    fun hlt => hs.alone (halone hlt) fun r' p b' hadd hb hcov => absurd hcov (hmind.rival r' p b' hadd hb hlt), ?_⟩
  by_cases hst : ∃ offset data, a = .stored r offset data
  · obtain ⟨offset, data, rfl⟩ := hst
    obtain ⟨z, hz, hzy⟩ := hs.mirrors_stored (hmind.stored offset data rfl) hy
    refine ⟨z, hz, hzy.elim (fun heq => ?_) .inr⟩
    rw [heq]
    exact hyx
  · have hky : k < b.expected ∨ y = 0 := by
      refine hk.imp_right fun ⟨hx, hnone⟩ => ?_
      rcases hyx with rfl | hsome
      · exact hx
      · rw [hnone] at hsome
        cases hsome
    refine ⟨y, hs.mirrors hc hy hky halone hmind.put hmind.added hmind.dropped (fun p hremoved hp => ?_)
      fun offset data heq => hst ⟨offset, data, heq⟩, hyx⟩
    rcases hr with hr | ⟨hroom, -⟩
    · exact absurd (hremoved ▸ ha) (hr false)
    · refine hroom.not_balks fun b' hs' => ?_
      rcases hy.state hp with hfile | huntouched
      · exact (PageState.file.inj (hfile.symm.trans hs')).symm
      · rw [hs'] at huntouched
        cases huntouched

end View

end DemandPaging
