import DemandPaging.Bitmap

namespace DemandPaging.Bitmap

variable {b c : Bitmap} {idx : Nat} {value : Bool}

/-- No bit is set in the unused tail of the last word. -/
structure Trim (b : Bitmap) : Prop where
  bit_eq_false : ∀ {i}, b.len ≤ i → b.bit i = false

theorem wordBits_eq : wordBits = 64 := rfl

theorem trim_clear (len : Nat) : (clear len).Trim where
  bit_eq_false {i} _ := by
    unfold bit word clear
    by_cases h : i / wordBits < (len + (wordBits - 1)) / wordBits <;> simp [h]

theorem bit_clear (len i : Nat) : (clear len).bit i = false := by
  unfold bit word clear
  by_cases h : i / wordBits < (len + (wordBits - 1)) / wordBits <;> simp [h]

theorem word_lt (hi : idx < b.len) : idx / wordBits < b.words.size := by
  rw [b.size_eq, wordBits_eq]
  omega

theorem Trim.set (h : b.Trim) (hi : idx < b.len) (value : Bool) :
    ∃ c, b.set idx value = .ok c ∧ c.Trim ∧ c.len = b.len ∧
      ∀ j, c.bit j = if j = idx then value else b.bit j := by
  have hword := word_lt hi
  obtain ⟨c, hc⟩ : ∃ c, b.set idx value = .ok c := by simp [Bitmap.set, hi]
  have hbit (j : Nat) : c.bit j = if j = idx then value else b.bit j := by
    simp only [Bitmap.set, hi, ↓reduceIte, Except.ok.injEq] at hc
    subst hc
    unfold bit word
    by_cases hw : idx / wordBits = j / wordBits
    · have hj : j % wordBits < wordBits := Nat.mod_lt _ (by decide)
      rw [Array.getElem?_setIfInBounds, if_pos hw, if_pos hword]
      by_cases hji : j = idx
      · subst hji
        cases value <;> simp [hj]
      · have hm : j % wordBits ≠ idx % wordBits := by
          rw [wordBits_eq] at hw ⊢
          omega
        cases value <;> simp [hji, hj, hm, hw]
    · have hne : j ≠ idx := fun he => hw (by rw [he])
      rw [Array.getElem?_setIfInBounds, if_neg hw, if_neg hne]
  have hlen : c.len = b.len := by
    simp only [Bitmap.set, hi, ↓reduceIte, Except.ok.injEq] at hc
    subst hc
    rfl
  refine ⟨c, hc, ⟨fun {j} hj => ?_⟩, hlen, hbit⟩
  rw [hlen] at hj
  rw [hbit, if_neg (by omega), h.bit_eq_false hj]

/-- Bit `t` of what the search looks at in the word of `idx`. -/
theorem getLsbD_candidates (b : Bitmap) (value : Bool) (idx t : Nat)
    (ht : idx % wordBits + t < wordBits) :
    ((if value then b.word idx else ~~~b.word idx) >>> (idx % wordBits)).getLsbD t =
      (b.bit (idx + t) == value) := by
  have hw : (idx + t) / wordBits = idx / wordBits := by
    rw [wordBits_eq] at ht ⊢
    omega
  have hm : (idx + t) % wordBits = idx % wordBits + t := by
    rw [wordBits_eq] at ht ⊢
    omega
  have hbit : b.bit (idx + t) = (b.word idx).getLsbD (idx % wordBits + t) := by
    rw [bit, hm, word, word, hw]
  cases value <;> simp [BitVec.getLsbD_ushiftRight, hbit, ht]

/-- A search that finds a bit finds the first one, and one that goes through all words and finds
none has seen every bit. -/
theorem searchWords_spec (b : Bitmap) (value : Bool) (n idx : Nat)
    (hn : b.len ≤ (idx / wordBits + n) * wordBits) :
    match b.searchWords value n idx with
    | some j => idx ≤ j ∧ j < b.len ∧ b.bit j = value ∧ ∀ k, idx ≤ k → k < j → b.bit k ≠ value
    | none => ∀ k, idx ≤ k → k < b.len → b.bit k ≠ value := by
  induction n generalizing idx with
  | zero =>
      intro k hk hlt
      rw [wordBits_eq] at hn
      omega
  | succ n ih =>
      unfold searchWords
      by_cases hidx : idx < b.len
      case neg => simpa [hidx] using fun k hk hlt => absurd hlt (by omega)
      simp only [hidx, ↓reduceIte]
      -- the bits of this word from `idx` on are those of `candidates`
      have hcand := getLsbD_candidates b value idx
      generalize hc : (if value then b.word idx else ~~~b.word idx) >>> (idx % wordBits) = cand at hcand ⊢
      by_cases hz : cand = 0
      · simp only [hz, ↓reduceIte]
        have hskip (k : Nat) (hk : idx ≤ k) (hlt : k < (idx / wordBits + 1) * wordBits) :
            b.bit k ≠ value := by
          have := hcand (k - idx) (by rw [wordBits_eq] at hlt ⊢; omega)
          rw [hz, Nat.add_sub_cancel' hk] at this
          simpa using this.symm
        have hnext := ih ((idx / wordBits + 1) * wordBits) (by rw [wordBits_eq] at hn ⊢; omega)
        revert hnext
        cases b.searchWords value n ((idx / wordBits + 1) * wordBits) with
        | none =>
            intro hnone k hk hlt
            by_cases hin : k < (idx / wordBits + 1) * wordBits
            · exact hskip k hk hin
            · exact hnone k (Nat.le_of_not_lt hin) hlt
        | some j =>
            rintro ⟨hle, hlt, hbit, hfirst⟩
            refine ⟨by rw [wordBits_eq] at hle; omega, hlt, hbit, fun k hk hkj => ?_⟩
            by_cases hin : k < (idx / wordBits + 1) * wordBits
            · exact hskip k hk hin
            · exact hfirst k (Nat.le_of_not_lt hin) hkj
      · simp only [hz, ↓reduceIte]
        have htrue := BitVec.getLsbD_true_ctz_of_ne_zero hz
        have hin : idx % wordBits + cand.ctz.toNat < wordBits := by
          refine Nat.lt_of_not_le fun hge => ?_
          rw [← hc, BitVec.getLsbD_ushiftRight, BitVec.getLsbD_of_ge _ _ (hc ▸ hge)] at htrue
          cases htrue
        have hfound : b.bit (idx + cand.ctz.toNat) = value := by
          rw [hcand _ hin] at htrue
          simpa using htrue
        have hbefore (k : Nat) (hk : idx ≤ k) (hlt : k < idx + cand.ctz.toNat) : b.bit k ≠ value := by
          have hf := BitVec.getLsbD_false_of_lt_ctz (x := cand) (i := k - idx) (by omega)
          rw [hcand _ (by omega), Nat.add_sub_cancel' hk] at hf
          simpa using hf
        by_cases hlt : idx + cand.ctz.toNat < b.len
        · rw [if_pos hlt]
          exact ⟨Nat.le_add_right _ _, hlt, hfound, hbefore⟩
        · rw [if_neg hlt]
          exact fun k hk hkl => hbefore k hk (by omega)

theorem firstFrom_spec (b : Bitmap) (start : Nat) (value : Bool) :
    match b.firstFrom start value with
    | some j => start ≤ j ∧ j < b.len ∧ b.bit j = value ∧ ∀ k, start ≤ k → k < j → b.bit k ≠ value
    | none => ∀ k, start ≤ k → k < b.len → b.bit k ≠ value := by
  refine searchWords_spec b value _ start ?_
  rw [b.size_eq, wordBits_eq]
  omega

theorem Trim.flipFirst (h : b.Trim) (start : Nat) (value : Bool) :
    (b.flipFirst start value = .ok (none, b) ∧ ∀ k, start ≤ k → k < b.len → b.bit k ≠ value) ∨
      ∃ j c, b.flipFirst start value = .ok (some j, c) ∧ start ≤ j ∧ j < b.len ∧ b.bit j = value ∧
        (∀ k, start ≤ k → k < j → b.bit k ≠ value) ∧ c.Trim ∧ c.len = b.len ∧
        ∀ k, c.bit k = if k = j then !value else b.bit k := by
  have hfirst := b.firstFrom_spec start value
  unfold Bitmap.flipFirst
  cases hs : b.firstFrom start value with
  | none =>
      rw [hs] at hfirst
      exact .inl ⟨rfl, hfirst⟩
  | some j =>
      rw [hs] at hfirst
      obtain ⟨hle, hlt, hbit, hleast⟩ := hfirst
      obtain ⟨c, hc, htrim, hlen, hset⟩ := h.set hlt (!value)
      exact .inr ⟨j, c, by simp [hc, Except.map], hle, hlt, hbit, hleast, htrim, hlen, hset⟩

/-- The library counts the ones of a word by recursion on its width only, `BitVec.toNat_cpop`. -/
theorem toNat_cpop_eq_countP {n : Nat} (w : BitVec n) :
    w.cpop.toNat = (List.range n).countP w.getLsbD := by
  have hrec (k : Nat) : w.cpopNatRec k 0 = (List.range k).countP w.getLsbD := by
    induction k with
    | zero => rfl
    | succ k ih =>
        rw [BitVec.cpopNatRec_succ, BitVec.cpopNatRec_eq, ih, List.range_succ, List.countP_append]
        cases hk : w.getLsbD k <;> simp [hk]
  rw [BitVec.toNat_cpop, hrec]

theorem Trim.ones_eq (h : b.Trim) : b.ones = (List.range b.len).countP b.bit := by
  have hwords (k : Nat) (hk : k ≤ b.words.size) :
      (b.words.toList.take k).foldl (fun n w => if w = 0 then n else n + w.cpop.toNat) 0 =
        (List.range (k * wordBits)).countP b.bit := by
    induction k with
    | zero => simp
    | succ k ih =>
        have hlt : k < b.words.size := hk
        have hword (j : Nat) (hj : j < wordBits) : b.bit (k * wordBits + j) = b.words[k].getLsbD j := by
          have hw : (k * wordBits + j) / wordBits = k := by rw [wordBits_eq] at hj ⊢; omega
          have hm : (k * wordBits + j) % wordBits = j := by rw [wordBits_eq] at hj ⊢; omega
          simp [bit, word, hw, hm, hlt]
        rw [List.take_succ_eq_append_getElem (by simpa using hlt), List.foldl_append, ih (by omega), Nat.succ_mul,
          List.range_add, List.countP_append, List.countP_map]
        have hcount : (List.range wordBits).countP (b.bit ∘ (k * wordBits + ·)) =
            b.words[k].cpop.toNat := by
          rw [toNat_cpop_eq_countP]
          exact List.countP_congr fun j hj => by
            simp [hword j (List.mem_range.1 hj)]
        rw [hcount]
        simp only [List.foldl_cons, List.foldl_nil, Array.getElem_toList]
        split
        · rename_i hz
          simp [hz]
        · rfl
  have hall := hwords b.words.size (Nat.le_refl _)
  have hle : b.len ≤ b.words.size * wordBits := by rw [b.size_eq, wordBits_eq]; omega
  have htail : (List.range (b.words.size * wordBits - b.len)).countP (b.bit ∘ (b.len + ·)) = 0 :=
    List.countP_eq_zero.2 fun j _ => by simp [h.bit_eq_false (Nat.le_add_right b.len j)]
  rw [← Nat.add_sub_cancel' hle, List.range_add, List.countP_append, List.countP_map, htail,
    Nat.add_zero, ← Array.length_toList, List.take_length] at hall
  rw [ones, ← Array.foldl_toList, hall]

theorem Trim.count_true (h : b.Trim) : b.count true = (List.range b.len).countP b.bit := h.ones_eq

end DemandPaging.Bitmap
