import DemandPaging.Proofs.FlatMap

namespace DemandPaging

def FrameId.cut (f : FrameId) : FrameId := ⟨f.index % 2 ^ 32⟩

theorem FrameId.cut_eq_iff {f : FrameId} : f.cut = f ↔ f.index < 2 ^ 32 := by
  obtain ⟨i⟩ := f
  simp only [cut, FrameId.mk.injEq]
  exact Nat.mod_eq_iff_lt (by decide)

def TableRequest.Unmaps (va : Addr) : TableRequest → Prop
  | unmap a => pageBase a = pageBase va
  | _ => False

namespace PageTable

variable {t u : PageTable} {a va : Addr} {f g : FrameId}

theorem lookup_congr (t : PageTable) (h : pageBase a = pageBase va) : t.lookup a = t.lookup va := by
  rw [lookup_eq, lookup_eq, translation?_congr t h]

theorem Separate.access_ok {write user : Bool} (h : t.Separate) (hok : t.access a write user = .ok (g, u)) :
    ∃ x, t.translation? a = some x ∧ g = x.frame ∧ u.Separate ∧ ∀ c, u.translation? c =
      if pageBase c = pageBase a then some { x with accessed := true, dirty := x.dirty || write }
      else t.translation? c := by
  cases hx : t.translation? a with
  | none =>
      rw [access_of_none hx] at hok
      cases hok
  | some x =>
      by_cases hdenied : user = true ∧ isKernel a = true ∨ write = true ∧ x.writable = false
      · rw [access_of_denied hx hdenied] at hok
        cases hok
      · obtain ⟨hk, hw⟩ := not_or.1 hdenied
        obtain ⟨v, hv, hsep, htr⟩ := h.access_of_allowed hx write user
          (fun huser => Bool.eq_false_iff.2 fun hkernel => hk ⟨huser, hkernel⟩)
          fun hwrite => Bool.of_not_eq_false fun hreadonly => hw ⟨hwrite, hreadonly⟩
        rw [hv] at hok
        cases hok
        exact ⟨x, rfl, rfl, hsep, htr⟩

/-- The page of an address is in that frame, and so is whatever an access to the page goes through to. -/
structure Names (t : PageTable) (va : Addr) (f : FrameId) : Prop where
  lookup : ∀ a, pageBase a = pageBase va → t.lookup a = some f
  access : ∀ a, pageBase a = pageBase va → ∀ write user g u, t.access a write user = .ok (g, u) → g = f

theorem Separate.names (h : t.Separate) (hf : t.lookup va = some f) : t.Names va f where
  lookup a ha := (t.lookup_congr ha).trans hf
  access a ha write user g u hok := by
    obtain ⟨x, hx, hg, -⟩ := h.access_ok hok
    rw [← t.lookup_congr ha, lookup_eq, hx, Option.map_some, ← hg] at hf
    exact Option.some.inj hf

theorem lookup_of_marked (k : Translation → Translation)
    (hu : ∀ c, u.translation? c = if pageBase c = pageBase a then (t.translation? a).map k else t.translation? c)
    (hk : ∀ x, (k x).frame = x.frame) (va : Addr) : u.lookup va = t.lookup va := by
  rw [lookup_eq, lookup_eq, hu]
  split
  · rename_i hva
    rw [← t.translation?_congr hva, Option.map_map]
    exact congrArg (fun c => Option.map c _) (funext hk)
  · rfl

/-- A page is mapped, to the frame whose number is left, exactly if it is a user page that is not mapped yet and that
number fits in 20 bits. -/
theorem Separate.map_cut (h : t.Separate) (va : Addr) (f : FrameId) (w : Bool) :
    (∃ u, t.map va f w = some u ∧ u.Separate ∧ (va < kernelBase ∧ t.lookup va = none ∧ f.cut.index < 2 ^ 20) ∧
        ∀ a, u.lookup a = if pageBase a = pageBase va then some f.cut else t.lookup a) ∨
      t.map va f w = none ∧ ¬ (va < kernelBase ∧ t.lookup va = none ∧ f.cut.index < 2 ^ 20) := by
  have hlookup : t.lookup va = none ↔ t.translation? va = none := by rw [lookup_eq, Option.map_eq_none_iff]
  rw [hlookup]
  rcases h.map_eq va f w with ⟨u, hmap, hu, hk, hlt, hnone, htr⟩ | ⟨hmap, hwhy⟩
  · refine .inl ⟨u, hmap, hu, ⟨isKernel_eq_false_iff.1 hk, hnone, hlt⟩, fun a => ?_⟩
    rw [lookup_eq, lookup_eq, htr]
    split <;> rfl
  · refine .inr ⟨hmap, ?_⟩
    rintro ⟨hva, hnone, hlt⟩
    rcases hwhy with hk | hge | hsome
    · exact absurd (isKernel_iff.1 hk) (Nat.not_le.2 hva)
    · exact hge hlt
    · rw [hnone] at hsome
      cases hsome

theorem Separate.lookup_of_map {w : Bool} (h : t.Separate) (hmap : t.map a g w = some u)
    (hf : t.lookup va = some f) : u.lookup va = some f := by
  rcases h.map_cut a g w with ⟨v, hv, -, ⟨-, hnone, -⟩, hlookup⟩ | ⟨hv, -⟩
  · cases hmap.symm.trans hv
    have hother : pageBase va ≠ pageBase a := by
      intro heq
      rw [t.lookup_congr heq, hnone] at hf
      cases hf
    rw [hlookup, if_neg hother, hf]
  · cases hmap.symm.trans hv

theorem Separate.lookup_unmap (h : t.Separate) (hother : pageBase va ≠ pageBase a) :
    (t.unmap a).lookup va = t.lookup va := by
  rw [lookup_eq, h.translation?_unmap, if_neg hother, ← lookup_eq]

theorem Separate.lookup_setDirty (h : t.Separate) (a : Addr) (b : Bool) (va : Addr) :
    (t.setDirty a b).lookup va = t.lookup va := by
  apply lookup_of_marked fun x => { x with dirty := b }
  · exact fun c => h.translation?_rewrite a c (fun e => e.setDirty_present b) fun e => e.setDirty_translation b
  · exact fun x => rfl

theorem Separate.lookup_setAccessed (h : t.Separate) (a : Addr) (b : Bool) (va : Addr) :
    (t.setAccessed a b).lookup va = t.lookup va := by
  apply lookup_of_marked fun x => { x with accessed := b }
  · exact fun c => h.translation?_rewrite a c (fun e => e.setAccessed_present b) fun e => e.setAccessed_translation b
  · exact fun x => rfl

theorem Separate.lookup_of_access {write user : Bool} (h : t.Separate) (hok : t.access a write user = .ok (g, u))
    (va : Addr) : u.lookup va = t.lookup va := by
  obtain ⟨x, hx, -, -, htr⟩ := h.access_ok hok
  apply lookup_of_marked fun x => { x with accessed := true, dirty := x.dirty || write }
  · intro c
    rw [htr, hx]
    rfl
  · exact fun x => rfl

/-- Page tables are not shared whatever is asked for, and a mapped page stays in its frame until it is unmapped. -/
theorem Separate.serve (h : t.Separate) (r : TableRequest) : (t.serve r).2.Separate ∧
    ∀ va f, t.lookup va = some f → ¬ r.Unmaps va → (t.serve r).2.lookup va = some f := by
  cases r with
  | map a g w =>
      rcases h.map_cut a g w with ⟨u, hmap, hu, -⟩ | ⟨hmap, -⟩
      · simp only [PageTable.serve, hmap]
        exact ⟨hu, fun va f hf _ => h.lookup_of_map hmap hf⟩
      · simp only [PageTable.serve, hmap]
        exact ⟨h, fun va f hf _ => hf⟩
  | unmap a => exact ⟨h.unmap a, fun va f hf hne => (h.lookup_unmap fun heq => hne heq.symm).trans hf⟩
  | setDirty a b => exact ⟨h.rewrite a _, fun va f hf _ => (h.lookup_setDirty a b va).trans hf⟩
  | setAccessed a b => exact ⟨h.rewrite a _, fun va f hf _ => (h.lookup_setAccessed a b va).trans hf⟩
  | access a write user =>
      cases haccess : t.access a write user with
      | error code =>
          simp only [PageTable.serve, haccess]
          exact ⟨h, fun va f hf _ => hf⟩
      | ok c =>
          obtain ⟨x, -, -, hu, -⟩ := h.access_ok haccess
          simp only [PageTable.serve, haccess]
          exact ⟨hu, fun va f hf _ => (h.lookup_of_access haccess va).trans hf⟩
  | lookup | isMapped | isWritable | isDirty | isAccessed => exact ⟨h, fun va f hf _ => hf⟩

theorem Separate.replies (h : t.Separate) (l : List TableRequest) : (t.replies l).2.Separate ∧
    ∀ va f, t.lookup va = some f → (∀ r ∈ l, ¬ r.Unmaps va) → (t.replies l).2.lookup va = some f := by
  induction l generalizing t with
  | nil => exact ⟨h, fun va f hf _ => hf⟩
  | cons r l ih =>
      obtain ⟨hnext, hkept⟩ := h.serve r
      obtain ⟨hlast, hlater⟩ := ih hnext
      refine ⟨hlast, fun va f hf hl => hlater va f ?_ fun r hr => hl r (List.mem_cons_of_mem _ hr)⟩
      exact hkept va f hf (hl r List.mem_cons_self)

structure Naming (t : PageTable) (va : Addr) (f : FrameId) (writable : Bool) : Prop where
  isSome_iff : (t.map va f writable).isSome ↔ va < kernelBase ∧ t.lookup va = none ∧ f.cut.index < 2 ^ 20
  names : ∀ u, t.map va f writable = some u → ∀ later, (∀ r ∈ later, ¬ r.Unmaps va) →
    (u.replies later).2.Names va f.cut
  others : ∀ u, t.map va f writable = some u → ∀ a, pageBase a ≠ pageBase va → u.lookup a = t.lookup a
  refused : 2 ^ 20 ≤ f.cut.index → t.serve (.map va f writable) = (.flag false, t)
  cut_iff : f.cut = f ↔ f.index < 2 ^ 32

/-- Frame numbers are cut to 32 bits, and what is left is named, until the page is unmapped, or refused if it does not
fit in 20 bits. So a mapping names its own frame if the number has no more than 32 bits, and another if it has. -/
theorem replies_naming (l : List TableRequest) (va : Addr) (f : FrameId) (writable : Bool) :
    (empty.replies l).2.Naming va f writable := by
  have h := (separate_empty.replies l).1
  generalize (empty.replies l).2 = t at h ⊢
  have hmap := h.map_cut va f writable
  refine ⟨?_, fun u hu later hl => ?_, fun u hu a ha => ?_, fun hge => ?_, FrameId.cut_eq_iff⟩
  · rcases hmap with ⟨u, hu, -, hok, -⟩ | ⟨hu, hnot⟩
    · exact iff_of_true (hu ▸ rfl) hok
    · exact iff_of_false (by simp [hu]) hnot
  · rcases hmap with ⟨v, hv, hsep, -, hlookup⟩ | ⟨hv, -⟩
    · cases hu.symm.trans hv
      obtain ⟨hlast, hkept⟩ := hsep.replies later
      exact hlast.names (hkept va f.cut ((hlookup va).trans (if_pos rfl)) hl)
    · cases hu.symm.trans hv
  · rcases hmap with ⟨v, hv, -, -, hlookup⟩ | ⟨hv, -⟩
    · cases hu.symm.trans hv
      exact (hlookup a).trans (if_neg ha)
    · cases hu.symm.trans hv
  · rcases hmap with ⟨u, -, -, hok, -⟩ | ⟨hu, -⟩
    · exact absurd hok.2.2 (Nat.not_lt.2 hge)
    · simp [PageTable.serve, hu]

/-- The last frame that an entry can name is the one that is named. -/
theorem naming_last_frame : ∃ u, empty.map 0x1000 ⟨0xfffff⟩ true = some u ∧
    ∀ later, (∀ r ∈ later, ¬ r.Unmaps 0x1000) → (u.replies later).2.Names 0x1000 ⟨0xfffff⟩ := by
  have h := replies_naming [] 0x1000 ⟨0xfffff⟩ true
  obtain ⟨u, hu⟩ := Option.isSome_iff_exists.1 (h.isSome_iff.2 (by decide +kernel))
  exact ⟨u, hu, h.names u hu⟩

/-- The first number that does not fit in 32 bits is taken, and the page is then in frame 0. -/
theorem naming_other_frame : (empty.replies
    [.map 0x1000 ⟨2 ^ 32⟩ true, .lookup 0x1000, .access 0x1000 true true]).1 =
      [.flag true, .frame (some ⟨0⟩), .frame (some ⟨0⟩)] := by
  decide +kernel

end PageTable

end DemandPaging
