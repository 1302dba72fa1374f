import DemandPaging.Address

namespace DemandPaging

theorem pageSize_eq : pageSize = 4096 := rfl

theorem pageBase_eq (a : Addr) : pageBase a = a / 4096 * 4096 := rfl

theorem pageOffset_eq (a : Nat) : pageOffset a = a % 4096 := rfl

theorem isPageAligned_iff {a : Nat} : isPageAligned a = true ↔ a % 4096 = 0 := by
  simp [isPageAligned, pageOffset_eq]

theorem isKernel_iff {a : Nat} : isKernel a = true ↔ 0x80000000 ≤ a := decide_eq_true_iff

theorem isKernel_eq_false_iff {a : Nat} : isKernel a = false ↔ a < 0x80000000 := by
  rw [← Nat.not_le, ← isKernel_iff, Bool.not_eq_true]

theorem add_pageSize_lt {a : Nat} (h : isKernel a = false) : a + pageSize < wordLimit := by
  have hroom : kernelBase + pageSize ≤ wordLimit := by decide
  exact Nat.lt_of_lt_of_le (Nat.add_lt_add_right (isKernel_eq_false_iff.1 h) _) hroom

theorem pageBase_add_pageOffset (a : Nat) : pageBase a + pageOffset a = a := by
  rw [pageBase_eq, pageOffset_eq]
  dsimp only [Addr]
  omega

theorem pageOffset_lt (a : Nat) : pageOffset a < pageSize := Nat.mod_lt _ (by decide)

theorem pageBase_aligned (a : Nat) : isPageAligned (pageBase a) = true := by
  rw [isPageAligned_iff, pageBase_eq]
  omega

theorem pageBase_of_aligned {a : Nat} (h : isPageAligned a = true) : pageBase a = a := by
  rw [isPageAligned_iff] at h
  rw [pageBase_eq]
  dsimp only [Addr]
  omega

theorem pageBase_le (a : Nat) : pageBase a ≤ a := Nat.div_mul_le_self ..

theorem le_pageBase {a b : Nat} (hb : isPageAligned b = true) (h : b ≤ a) : b ≤ pageBase a := by
  rw [← pageBase_of_aligned hb]
  exact Nat.mul_le_mul_right _ (Nat.div_le_div_right h)

@[simp] theorem pageBase_pageBase (a : Nat) : pageBase (pageBase a) = pageBase a :=
  pageBase_of_aligned (pageBase_aligned a)

@[simp] theorem isKernel_pageBase (a : Nat) : isKernel (pageBase a) = isKernel a := by
  rw [Bool.eq_iff_iff, isKernel_iff, isKernel_iff, pageBase_eq]
  omega

theorem pageBase_add {a i : Nat} (h : pageOffset a + i < pageSize) : pageBase (a + i) = pageBase a := by
  rw [pageOffset_eq, pageSize_eq] at h
  rw [pageBase_eq, pageBase_eq]
  dsimp only [Addr]
  omega

theorem pageOffset_add {a i : Nat} (h : pageOffset a + i < pageSize) :
    pageOffset (a + i) = pageOffset a + i := by
  rw [pageOffset_eq, pageSize_eq] at h
  rw [pageOffset_eq, pageOffset_eq]
  omega

theorem pageBase_aligned_add {a k : Nat} (h : isPageAligned a = true) (hk : k < pageSize) :
    pageBase (a + k) = a := by
  have ha : pageOffset a = 0 := by simpa [isPageAligned] using h
  rw [pageBase_add (by omega), pageBase_of_aligned h]

theorem pageOffset_aligned_add {a k : Nat} (h : isPageAligned a = true) (hk : k < pageSize) :
    pageOffset (a + k) = k := by
  have ha : pageOffset a = 0 := by simpa [isPageAligned] using h
  rw [pageOffset_add (by omega), ha, Nat.zero_add]

theorem aligned_add {a : Nat} (h : isPageAligned a = true) (k : Nat) :
    isPageAligned (a + k * pageSize) = true := by
  rw [isPageAligned_iff] at h ⊢
  rw [pageSize_eq]
  omega

theorem aligned_sub {a : Nat} (h : isPageAligned a = true) : isPageAligned (a - pageSize) = true := by
  rw [isPageAligned_iff] at h ⊢
  rw [pageSize_eq]
  omega

/-- There is one page address in the page below an aligned address. -/
theorem eq_sub_pageSize {a b : Nat} (ha : isPageAligned a = true) (hb : isPageAligned b = true)
    (hle : b - pageSize ≤ a) (hlt : a < b) : a = b - pageSize := by
  rw [isPageAligned_iff] at ha hb
  rw [pageSize_eq] at hle ⊢
  omega

theorem add_pageSize_le {a b : Nat} (ha : isPageAligned a = true) (hb : isPageAligned b = true) (h : a < b) :
    a + pageSize ≤ b := by
  rw [isPageAligned_iff] at ha hb
  rw [pageSize_eq]
  omega

/-- There is room above the stack's limit for all the pages that an extension of the stack needs. -/
theorem pagesFor_room {a : Nat} (h : stackLimit ≤ a) (bottom : Nat) :
    pagesFor (bottom - pageBase a) * pageSize ≤ bottom := by
  have hlimit : stackLimit = 2146435072 := rfl
  rw [hlimit] at h
  unfold pagesFor
  rw [pageSize_eq, pageBase_eq]
  dsimp only [Addr] at h ⊢
  omega

/-- An extension of the stack ends at the page that is asked for. -/
theorem sub_pagesFor {a bottom : Nat} (hb : isPageAligned bottom = true) (h : a < bottom) :
    bottom - pagesFor (bottom - pageBase a) * pageSize = pageBase a := by
  rw [isPageAligned_iff] at hb
  unfold pagesFor
  rw [pageSize_eq, pageBase_eq]
  dsimp only [Addr] at h ⊢
  omega

theorem pagesFor_eq_zero {a bottom : Nat} (hb : isPageAligned bottom = true) (h : bottom ≤ a) :
    pagesFor (bottom - pageBase a) = 0 := by
  have hle : bottom - pageBase a = 0 := Nat.sub_eq_zero_of_le (le_pageBase hb h)
  rw [hle]
  rfl

theorem pagesFor_within {a bottom : Nat} (ha : stackLimit ≤ a) (hb : isPageAligned bottom = true)
    (h : stackLimit ≤ bottom) : stackLimit + pagesFor (bottom - pageBase a) * pageSize ≤ bottom := by
  have hlimit : stackLimit = 2146435072 := rfl
  rw [hlimit] at ha h ⊢
  rw [isPageAligned_iff] at hb
  unfold pagesFor
  rw [pageSize_eq, pageBase_eq]
  dsimp only [Addr] at ha h ⊢
  omega

theorem room_of_succ {k bottom : Nat} (h : stackLimit + (k + 1) * pageSize ≤ bottom) :
    stackLimit + pageSize ≤ bottom ∧ stackLimit + k * pageSize ≤ bottom - pageSize := by
  rw [Nat.add_mul, Nat.one_mul] at h
  dsimp only [Addr] at h ⊢
  omega

theorem pagesTouched_eq_zero_iff {a len : Nat} : pagesTouched a len = 0 ↔ len = 0 := by
  unfold pagesTouched pagesFor
  rw [pageSize_eq]
  split <;> omega

theorem pagesTouched_eq_succ {a len : Nat} (h : len ≠ 0) : pagesTouched a len =
    pagesTouched (a + min len (pageSize - pageOffset a)) (len - min len (pageSize - pageOffset a)) + 1 := by
  have hoff := pageOffset_lt a
  by_cases hlast : len ≤ pageSize - pageOffset a
  · rw [Nat.min_eq_left hlast, Nat.sub_self, pagesTouched_eq_zero_iff.2 rfl]
    unfold pagesTouched pagesFor
    rw [if_neg h]
    simp only [pageOffset_eq, pageSize_eq] at *
    omega
  · have hrest : len - (pageSize - pageOffset a) ≠ 0 := by omega
    rw [Nat.min_eq_right (by omega)]
    unfold pagesTouched pagesFor
    rw [if_neg h, if_neg hrest]
    simp only [pageOffset_eq, pageSize_eq] at *
    omega

theorem split?_eq_some_iff {a : Nat} {s : Split} :
    split? a = some s ↔ a < 0x100000000 ∧ s = ⟨a / 0x400000 % 0x400, a / 0x1000 % 0x400, a % 0x1000⟩ := by
  by_cases h : a < 0x100000000 <;> simp only [split?, h, ↓reduceIte, true_and, false_and, Option.some.injEq,
    reduceCtorEq]
  exact eq_comm

/-- Two addresses share a page exactly when a page walk takes both through one entry. -/
theorem pageBase_eq_iff_split {a b : Nat} {s r : Split} (ha : split? a = some s)
    (hb : split? b = some r) :
    pageBase a = pageBase b ↔ s.directory = r.directory ∧ s.table = r.table := by
  obtain ⟨ha, rfl⟩ := split?_eq_some_iff.1 ha
  obtain ⟨hb, rfl⟩ := split?_eq_some_iff.1 hb
  rw [pageBase_eq, pageBase_eq]
  dsimp only [Addr]
  omega

theorem split?_directory_lt {a : Nat} {s : Split} (h : split? a = some s) : s.directory < 1024 := by
  obtain ⟨_, rfl⟩ := split?_eq_some_iff.1 h
  exact Nat.mod_lt _ (by decide)

theorem split?_table_lt {a : Nat} {s : Split} (h : split? a = some s) : s.table < 1024 := by
  obtain ⟨_, rfl⟩ := split?_eq_some_iff.1 h
  exact Nat.mod_lt _ (by decide)

theorem split?_of_user {a : Nat} (h : isKernel a = false) : ∃ s, split? a = some s :=
  ⟨_, split?_eq_some_iff.2 ⟨by have := isKernel_eq_false_iff.1 h; omega, rfl⟩⟩

theorem split?_eq_none_congr {a b : Nat} (h : pageBase a = pageBase b) :
    split? a = none ↔ split? b = none := by
  rw [pageBase_eq, pageBase_eq] at h
  simp only [split?, ite_eq_right_iff, reduceCtorEq, imp_false]
  dsimp only [Addr] at h ⊢
  omega

end DemandPaging
