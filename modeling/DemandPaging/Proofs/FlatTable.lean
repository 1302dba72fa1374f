import DemandPaging.PageTable
import DemandPaging.Proofs.Addresses
import DemandPaging.Proofs.EntryBits
import Mathlib.Data.Fintype.Card

namespace DemandPaging.PageTable

variable {t u : PageTable} {a va : Addr} {f : FrameId} {w : Bool}

def number? (t : PageTable) (d : Nat) : Option Nat :=
  t.tableOf? ⟨d, 0, 0⟩

/-- Every page table belongs to exactly one directory entry. -/
structure Separate (t : PageTable) : Prop where
  injective : ∀ {d e n}, t.number? d = some n → t.number? e = some n → d = e
  owned : ∀ {n}, n < t.tables.size → ∃ d, t.number? d = some n

def translation? (t : PageTable) (va : Addr) : Option Translation :=
  (t.present? va).map TableEntry.translation

theorem tableOf?_eq_number? (t : PageTable) (s : Split) : t.tableOf? s = t.number? s.directory := rfl

theorem number?_lt {d n : Nat} (h : t.number? d = some n) : d < entriesPerTable := by
  unfold number? tableOf? at h
  split at h
  · rename_i e he
    exact (Vector.getElem?_eq_some_iff.1 he).1
  · cases h

theorem number?_lt_size {d n : Nat} (h : t.number? d = some n) : n < t.tables.size := by
  unfold number? tableOf? at h
  split at h
  · rename_i e he
    split at h
    · cases h
      exact t.table_lt _ e he ‹_›
    · cases h
  · cases h

theorem Separate.size_le (h : t.Separate) : t.tables.size ≤ entriesPerTable := by
  choose d hd using fun n : Fin t.tables.size => h.owned n.2
  have inj : Function.Injective fun n => (⟨d n, number?_lt (hd n)⟩ : Fin entriesPerTable) := by
    intro n k hnk
    have hk := hd k
    rw [← Fin.mk.inj hnk, hd n] at hk
    exact Fin.ext (Option.some.inj hk)
  simpa using Fintype.card_le_of_injective _ inj

theorem find?_eq (t : PageTable) (va : Addr) :
    t.find? va = (split? va).bind fun s => (t.number? s.directory).bind fun n =>
      (t.tables[n]?).bind fun table => table[s.table]? := by
  unfold find?
  cases split? va with
  | none => rfl
  | some s =>
      simp only [tableOf?_eq_number?, Option.bind_eq_bind, Option.bind_some]

theorem find?_congr (t : PageTable) (h : pageBase a = pageBase va) : t.find? a = t.find? va := by
  rw [find?_eq, find?_eq]
  cases ha : split? a with
  | none => rw [(split?_eq_none_congr h).1 ha]
  | some s =>
      obtain ⟨r, hr⟩ := Option.ne_none_iff_exists'.1 ((split?_eq_none_congr h).not.1 (by simp [ha]))
      obtain ⟨hd, ht⟩ := (pageBase_eq_iff_split ha hr).1 h
      simp only [hr, Option.bind_some, hd, ht]

theorem translation?_congr (t : PageTable) (h : pageBase a = pageBase va) :
    t.translation? a = t.translation? va := by
  rw [translation?, translation?, present?, present?, find?_congr t h]

@[simp] theorem translation?_pageBase (t : PageTable) (va : Addr) :
    t.translation? (pageBase va) = t.translation? va :=
  translation?_congr t (pageBase_pageBase va)

theorem number?_setEntry (t : PageTable) (va : Addr) (e : TableEntry) (d : Nat) :
    (t.setEntry va e).number? d = t.number? d := by
  unfold setEntry
  split
  · rfl
  · split <;> rfl

theorem size_setEntry (t : PageTable) (va : Addr) (e : TableEntry) :
    (t.setEntry va e).tables.size = t.tables.size := by
  unfold setEntry
  split
  · rfl
  · split <;> simp

theorem Separate.setEntry (h : t.Separate) (va : Addr) (e : TableEntry) :
    (t.setEntry va e).Separate where
  injective hn he := by
    rw [number?_setEntry] at hn he
    exact h.injective hn he
  owned hn := by
    rw [size_setEntry] at hn
    simpa only [number?_setEntry] using h.owned hn

/-- Overwriting an entry changes what the walk finds in its page only: tables are not shared. -/
theorem Separate.find?_setEntry (h : t.Separate) (va a : Addr) (e : TableEntry) :
    (t.setEntry va e).find? a =
      if pageBase a = pageBase va then (t.find? va).map fun _ => e else t.find? a := by
  by_cases hp : pageBase a = pageBase va
  · rw [if_pos hp, find?_congr _ hp, find?_eq, find?_eq]
    cases hs : split? va with
    | none => rfl
    | some s =>
        simp only [number?_setEntry, Option.bind_some]
        cases hn : t.number? s.directory with
        | none => rfl
        | some n =>
            have hlt := number?_lt_size hn
            have hst : s.table < entriesPerTable := split?_table_lt hs
            simp [PageTable.setEntry, hs, tableOf?_eq_number?, hn, hlt, hst, Array.getElem?_modify]
  · rw [if_neg hp, find?_eq, find?_eq]
    cases hs : split? a with
    | none => rfl
    | some s =>
        simp only [number?_setEntry, Option.bind_some]
        cases hn : t.number? s.directory with
        | none => rfl
        | some n =>
            simp only [PageTable.setEntry, tableOf?_eq_number?]
            cases hr : split? va with
            | none => rfl
            | some r =>
                dsimp only
                cases hk : t.number? r.directory with
                | none => rfl
                | some k =>
                    by_cases hkn : k = n
                    · subst hkn
                      have hd := h.injective hn hk
                      have ht : r.table ≠ s.table := fun ht =>
                        hp ((pageBase_eq_iff_split hs hr).2 ⟨hd, ht.symm⟩)
                      simp [Array.getElem?_modify, number?_lt_size hn, ht]
                    · simp [Array.getElem?_modify, hkn]

theorem Separate.translation?_setEntry (h : t.Separate) (va a : Addr) (e : TableEntry) :
    (t.setEntry va e).translation? a =
      if pageBase a = pageBase va then
        if (t.find? va).isSome ∧ e.present then some e.translation else none
      else t.translation? a := by
  unfold translation? present?
  rw [h.find?_setEntry]
  split
  · cases t.find? va <;> cases he : e.present <;> simp [he]
  · rfl

theorem number?_empty (d : Nat) : empty.number? d = none := by
  unfold number? tableOf? empty
  by_cases hd : d < entriesPerTable <;> simp [hd, DirectoryEntry.empty_present]

theorem separate_empty : Separate .empty where
  injective hn := by cases (number?_empty _).symm.trans hn
  owned hn := absurd hn (Nat.not_lt_zero _)

@[simp] theorem translation?_empty (va : Addr) : empty.translation? va = none := by
  simp only [translation?, present?, find?_eq, number?_empty, Option.bind_none,
    Option.bind_fun_none, Option.filter_none, Option.map_none]

theorem addTable_of_none {s : Split} (hn : t.number? s.directory = none) :
    t.addTable s = if hs : t.tables.size < 0x100000 then some (t.withTable s.directory hs) else none := by
  unfold addTable
  rw [tableOf?_eq_number?, hn]

theorem addTable_of_some {s : Split} {n : Nat} (hn : t.number? s.directory = some n) :
    t.addTable s = some t := by
  unfold addTable
  rw [tableOf?_eq_number?, hn]

theorem number?_withTable {d : Nat} (hd : d < entriesPerTable) (hs : t.tables.size < 0x100000)
    (e : Nat) : (t.withTable d hs).number? e = if e = d then some t.tables.size else t.number? e := by
  unfold number? tableOf? withTable
  by_cases he : e = d
  · subst he
    simp [hd, Nat.mod_eq_of_lt hs]
  · simp [Ne.symm he, he]

theorem Separate.withTable {d : Nat} (h : t.Separate) (hd : d < entriesPerTable)
    (hn : t.number? d = none) (hs : t.tables.size < 0x100000) : (t.withTable d hs).Separate where
  injective {e e' n} he he' := by
    rw [number?_withTable hd hs] at he he'
    split at he <;> split at he'
    · rename_i h₁ h₂
      rw [h₁, h₂]
    · cases he
      exact absurd (number?_lt_size he') (Nat.lt_irrefl _)
    · cases he'
      exact absurd (number?_lt_size he) (Nat.lt_irrefl _)
    · exact h.injective he he'
  owned {n} hlt := by
    simp only [number?_withTable hd hs]
    by_cases hnew : n = t.tables.size
    · exact ⟨d, by rw [if_pos rfl, hnew]⟩
    · have hold : n < t.tables.size := by
        simp only [PageTable.withTable, Array.size_push] at hlt
        omega
      obtain ⟨e, he⟩ := h.owned hold
      have hne : e ≠ d := fun hed => by simp [← hed, he] at hn
      exact ⟨e, by rw [if_neg hne, he]⟩

theorem translation?_withTable {d : Nat} (hd : d < entriesPerTable)
    (hn : t.number? d = none) (hs : t.tables.size < 0x100000) (a : Addr) :
    (t.withTable d hs).translation? a = t.translation? a := by
  unfold translation? present?
  rw [find?_eq, find?_eq]
  cases hsp : split? a with
  | none => rfl
  | some s =>
      simp only [Option.bind_some, number?_withTable hd hs]
      by_cases hsd : s.directory = d
      · have hst : s.table < entriesPerTable := split?_table_lt hsp
        simp [hsd, hn, PageTable.withTable, hst, TableEntry.empty_present]
      · rw [if_neg hsd]
        cases hk : t.number? s.directory with
        | none => rfl
        | some k => simp [PageTable.withTable, Array.getElem?_push, (number?_lt_size hk).ne]

theorem Separate.addTable (h : t.Separate) {s : Split} (hs : split? va = some s) :
    ∃ u, t.addTable s = some u ∧ u.Separate ∧ (∀ a, u.translation? a = t.translation? a) ∧
      (u.find? va).isSome := by
  have hsd : s.directory < entriesPerTable := split?_directory_lt hs
  have hst : s.table < entriesPerTable := split?_table_lt hs
  cases hn : t.number? s.directory with
  | some n =>
      refine ⟨t, addTable_of_some hn, h, fun _ => rfl, ?_⟩
      simp [find?_eq, hs, hn, number?_lt_size hn, hst]
  | none =>
      have hsize : t.tables.size < 0x100000 := h.size_le.trans_lt (by decide)
      refine ⟨_, by rw [addTable_of_none hn, dif_pos hsize], h.withTable hsd hn hsize,
        translation?_withTable hsd hn hsize, ?_⟩
      rw [find?_eq, hs, Option.bind_some, number?_withTable hsd hsize, if_pos rfl]
      simp [PageTable.withTable, hst]

theorem present?_isSome_iff (t : PageTable) (va : Addr) :
    (t.present? va).isSome = (t.translation? va).isSome := by
  simp [translation?]

/-- What `map` does, said of the flat map. -/
theorem Separate.map_eq (h : t.Separate) (va : Addr) (f : FrameId) (w : Bool) :
    (∃ u, t.map va f w = some u ∧ u.Separate ∧ isKernel va = false ∧ f.index % 0x100000000 < 0x100000 ∧
        t.translation? va = none ∧
        ∀ a, u.translation? a = if pageBase a = pageBase va then some (.fresh ⟨f.index % 0x100000000⟩ w)
          else t.translation? a) ∨
      t.map va f w = none ∧
        (isKernel va = true ∨ ¬ f.index % 0x100000000 < 0x100000 ∨ (t.translation? va).isSome) := by
  unfold PageTable.map
  by_cases hk : isKernel va
  · exact .inr ⟨by simp [hk], .inl hk⟩
  by_cases hf : f.index % 0x100000000 < 0x100000
  case neg => exact .inr ⟨by simp [hk, frameField, hf], .inr (.inl hf)⟩
  obtain ⟨s, hs⟩ := split?_of_user (Bool.not_eq_true _ ▸ hk)
  obtain ⟨u, hu, hsep, htr, hentry⟩ := h.addTable hs
  have hpresent : (u.present? va).isSome = (t.translation? va).isSome := by
    rw [present?_isSome_iff, htr]
  by_cases hm : (t.translation? va).isSome
  · exact .inr ⟨by simp [hk, frameField, hf, hs, hu, hpresent, hm], .inr (.inr hm)⟩
  · refine .inl ⟨u.setEntry va (.mapping (.ofNat 20 (f.index % 0x100000000)) w), ?_, hsep.setEntry _ _,
      Bool.not_eq_true _ ▸ hk, hf, Option.not_isSome_iff_eq_none.1 hm, fun a => ?_⟩
    · simp [hk, frameField, hf, hs, hu, hpresent, hm, TableEntry.mapping]
    · rw [hsep.translation?_setEntry, htr]
      simp [hentry, Nat.mod_eq_of_lt hf]

theorem Separate.unmap (h : t.Separate) (va : Addr) : (t.unmap va).Separate := h.setEntry va _

theorem Separate.translation?_unmap (h : t.Separate) (va a : Addr) :
    (t.unmap va).translation? a = if pageBase a = pageBase va then none else t.translation? a := by
  rw [PageTable.unmap, h.translation?_setEntry, TableEntry.empty_present]
  simp

theorem find?_isSome_of_present? {e : TableEntry} (he : t.present? va = some e) :
    (t.find? va).isSome ∧ e.present = true := by
  obtain ⟨hs, hp⟩ := Option.filter_eq_some_iff.1 he
  exact ⟨by simp [hs], hp⟩

def rewrite (t : PageTable) (va : Addr) (g : TableEntry → TableEntry) : PageTable :=
  match t.present? va with
  | some e => t.setEntry va (g e)
  | none => t

theorem setDirty_eq_rewrite (t : PageTable) (va : Addr) (b : Bool) :
    t.setDirty va b = t.rewrite va (·.setDirty b) := rfl

theorem setAccessed_eq_rewrite (t : PageTable) (va : Addr) (b : Bool) :
    t.setAccessed va b = t.rewrite va (·.setAccessed b) := rfl

theorem Separate.rewrite (h : t.Separate) (va : Addr) (g : TableEntry → TableEntry) :
    (t.rewrite va g).Separate := by
  unfold PageTable.rewrite
  split
  · exact h.setEntry _ _
  · exact h

theorem Separate.translation?_rewrite (h : t.Separate) (va a : Addr) {g : TableEntry → TableEntry}
    {k : Translation → Translation} (hp : ∀ e, (g e).present = e.present)
    (hk : ∀ e, (g e).translation = k e.translation) :
    (t.rewrite va g).translation? a =
      if pageBase a = pageBase va then (t.translation? va).map k else t.translation? a := by
  unfold PageTable.rewrite
  split
  · rename_i e he
    obtain ⟨hs, hpe⟩ := find?_isSome_of_present? he
    rw [h.translation?_setEntry]
    simp [hs, hp, hpe, hk, translation?, he]
  · rename_i he
    split
    · rename_i ha
      rw [translation?_congr t ha]
      simp [translation?, he]
    · rfl

theorem translation?_frame_lt {x : Translation} (h : t.translation? va = some x) :
    x.frame.index < 0x100000 := by
  obtain ⟨e, _, rfl⟩ := Option.map_eq_some_iff.1 h
  exact e.frame.isLt

theorem lookup_eq (t : PageTable) (va : Addr) :
    t.lookup va = (t.translation? va).map Translation.frame := by
  unfold lookup translation?
  cases t.present? va <;> rfl

theorem isWritable_eq (t : PageTable) (va : Addr) :
    t.isWritable va = (t.translation? va).any Translation.writable := by
  unfold isWritable translation?
  cases t.present? va <;> rfl

theorem isDirty_eq (t : PageTable) (va : Addr) :
    t.isDirty va = (t.translation? va).any Translation.dirty := by
  unfold isDirty translation?
  cases t.present? va <;> rfl

theorem isAccessed_eq (t : PageTable) (va : Addr) :
    t.isAccessed va = (t.translation? va).any Translation.accessed := by
  unfold isAccessed translation?
  cases t.present? va <;> rfl

theorem access_of_none (hx : t.translation? va = none) (write user : Bool) :
    t.access va write user = .error (.of false write user) := by
  have hnone : t.present? va = none := by simpa [translation?] using hx
  unfold PageTable.access isMapped
  rw [hnone]
  dsimp only
  split
  · rfl
  · rw [FaultCode.of_false]

theorem access_of_denied {x : Translation} {write user : Bool} (hx : t.translation? va = some x)
    (hdenied : user = true ∧ isKernel va = true ∨ write = true ∧ x.writable = false) :
    t.access va write user = .error (.of true write user) := by
  obtain ⟨e, he, rfl⟩ := Option.map_eq_some_iff.1 hx
  unfold PageTable.access isMapped
  rw [he]
  dsimp only
  split
  · rfl
  · rename_i hk
    have hw : (write && !e.writable) = true := by
      rcases hdenied with ⟨hu, hkernel⟩ | ⟨hwrite, hreadonly⟩
      · simp [hu, hkernel] at hk
      · simpa [hwrite, TableEntry.translation] using hreadonly
    rw [if_pos hw]
    rfl

/-- Any other access goes through, and leaves its mark on the page only. -/
theorem Separate.access_of_allowed {x : Translation} (h : t.Separate) (hx : t.translation? va = some x)
    (write user : Bool) (hk : user = true → isKernel va = false) (hw : write = true → x.writable = true) :
    ∃ u, t.access va write user = .ok (x.frame, u) ∧ u.Separate ∧
      ∀ a, u.translation? a = if pageBase a = pageBase va then
        some { x with accessed := true, dirty := x.dirty || write } else t.translation? a := by
  obtain ⟨e, he, rfl⟩ := Option.map_eq_some_iff.1 hx
  obtain ⟨hs, hp⟩ := find?_isSome_of_present? he
  refine ⟨t.setEntry va ((e.setAccessed true).setDirty (e.dirty || write)), ?_, h.setEntry _ _, fun a => ?_⟩
  · have hkernel : (user && isKernel va) = false := by
      cases user
      · rfl
      · simp [hk rfl]
    have hwritable : (write && !e.writable) = false := by
      cases write
      · rfl
      · simpa [TableEntry.translation] using hw rfl
    unfold PageTable.access
    rw [he, hkernel]
    dsimp only
    rw [hwritable]
    rfl
  · rw [h.translation?_setEntry, TableEntry.setDirty_translation, TableEntry.setAccessed_translation]
    simp [hs, hp, TableEntry.translation]

/-- An access goes through exactly when the page is there and may be used so; it leaves its mark
on that page only. -/
theorem Separate.access_eq (h : t.Separate) (va : Addr) (write : Bool) :
    (∃ x u, t.translation? va = some x ∧ isKernel va = false ∧ (write = true → x.writable = true) ∧
        t.access va write true = .ok (x.frame, u) ∧ u.Separate ∧
        ∀ a, u.translation? a = if pageBase a = pageBase va then
          some { x with accessed := true, dirty := x.dirty || write } else t.translation? a) ∨
      ∃ code, t.access va write true = .error code ∧ (isKernel va = true ∨
        t.translation? va = none ∧ code.notPresent = true ∨
        ∃ x, t.translation? va = some x ∧ write = true ∧ x.writable = false ∧
          code.notPresent = false) := by
  cases hx : t.translation? va with
  | none => exact .inr ⟨_, access_of_none hx write true, .inr (.inl ⟨rfl, by simp [FaultCode.notPresent]⟩)⟩
  | some x =>
      by_cases hk : isKernel va = true
      · exact .inr ⟨_, access_of_denied hx (.inl ⟨rfl, hk⟩), .inl hk⟩
      by_cases hw : write = true ∧ x.writable = false
      · exact .inr ⟨_, access_of_denied hx (.inr hw), .inr (.inr ⟨x, rfl, hw.1, hw.2, by simp [FaultCode.notPresent]⟩)⟩
      have hkernel := Bool.eq_false_iff.2 hk
      have hwritable (hwrite : write = true) : x.writable = true :=
        Bool.of_not_eq_false fun hreadonly => hw ⟨hwrite, hreadonly⟩
      obtain ⟨u, hu⟩ := h.access_of_allowed hx write true (fun _ => hkernel) hwritable
      exact .inl ⟨x, u, rfl, hkernel, hwritable, hu⟩

end DemandPaging.PageTable
