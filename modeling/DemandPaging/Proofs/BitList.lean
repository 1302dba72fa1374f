import DemandPaging.Proofs.BitSet
import Mathlib.Data.Bool.Count

namespace DemandPaging

inductive BitRequest
  | get (idx : Nat)
  | set (idx : Nat) (value : Bool)
  | firstFrom (start : Nat) (value : Bool)
  | flipFirst (start : Nat) (value : Bool)
  | count (value : Bool)

inductive BitReply
  | done
  | bit (value : Bool)
  | index (idx : Option Nat)
  | number (n : Nat)
  | panic (p : Panic)
deriving DecidableEq

def Bitmap.serve (b : Bitmap) : BitRequest → BitReply × Bitmap
  | .get idx =>
      match b.get idx with
      | .ok value => (.bit value, b)
      | .error p => (.panic p, b)
  | .set idx value =>
      match b.set idx value with
      | .ok c => (.done, c)
      | .error p => (.panic p, b)
  | .firstFrom start value => (.index (b.firstFrom start value), b)
  | .flipFirst start value =>
      match b.flipFirst start value with
      | .ok (idx, c) => (.index idx, c)
      | .error p => (.panic p, b)
  | .count value => (.number (b.count value), b)

abbrev BitList := List Bool

namespace BitList

def firstFrom (l : BitList) (start : Nat) (value : Bool) : Option Nat :=
  (List.range l.length).find? fun i => start ≤ i ∧ l[i]? = some value

structure IsFirst (l : BitList) (start : Nat) (value : Bool) (idx : Nat) : Prop where
  start_le : start ≤ idx
  eq_value : l[idx]? = some value
  least : ∀ k, start ≤ k → k < idx → l[k]? ≠ some value

def serve (l : BitList) : BitRequest → BitReply × BitList
  | .get idx =>
      match l[idx]? with
      | some value => (.bit value, l)
      | none => (.panic (.noSuchBit idx l.length), l)
  | .set idx value =>
      if idx < l.length then (.done, l.set idx value) else (.panic (.noSuchBit idx l.length), l)
  | .firstFrom start value => (.index (l.firstFrom start value), l)
  | .flipFirst start value =>
      match l.firstFrom start value with
      | some idx => (.index (some idx), l.set idx (!value))
      | none => (.index none, l)
  | .count value => (.number (l.count value), l)

variable {l : BitList} {start idx : Nat} {value : Bool}

theorem IsFirst.lt (h : l.IsFirst start value idx) : idx < l.length :=
  (List.getElem?_eq_some_iff.1 h.eq_value).1

theorem firstFrom_eq_some_iff : l.firstFrom start value = some idx ↔ l.IsFirst start value idx := by
  rw [firstFrom, List.find?_range_eq_some]
  constructor
  · rintro ⟨hidx, -, hbefore⟩
    obtain ⟨hle, hvalue⟩ := of_decide_eq_true hidx
    refine ⟨hle, hvalue, fun k hk hlt heq => ?_⟩
    simpa [hk, heq] using hbefore k hlt
  · intro h
    refine ⟨decide_eq_true ⟨h.start_le, h.eq_value⟩, List.mem_range.2 h.lt, fun k hlt => ?_⟩
    rw [Bool.not_eq_true', decide_eq_false_iff_not]
    exact fun hk => h.least k hk.1 hlt hk.2

theorem firstFrom_eq_none_iff : l.firstFrom start value = none ↔ ∀ k, start ≤ k → l[k]? ≠ some value := by
  rw [firstFrom, List.find?_eq_none]
  constructor
  · intro h k hk heq
    have hlt := (List.getElem?_eq_some_iff.1 heq).1
    exact h k (List.mem_range.2 hlt) (decide_eq_true ⟨hk, heq⟩)
  · intro h k _ hk
    obtain ⟨hle, heq⟩ := of_decide_eq_true hk
    exact h k hle heq

end BitList

inductive CopyRequest
  | of (k : Nat) (r : BitRequest)
  | clone (k : Nat)

section Copies

variable {σ : Type} (serve : σ → BitRequest → BitReply × σ)

def serveCopies (l : List σ) : CopyRequest → Option BitReply × List σ
  | .of k r =>
      match l[k]? with
      | some b => (some (serve b r).1, l.set k (serve b r).2)
      | none => (none, l)
  | .clone k =>
      match l[k]? with
      | some b => (some .done, l ++ [b])
      | none => (none, l)

def copyReplies : List σ → List CopyRequest → List (Option BitReply) × List σ
  | l, [] => ([], l)
  | l, r :: rs =>
      let (a, l) := serveCopies serve l r
      let (as, l) := copyReplies l rs
      (a :: as, l)

end Copies

namespace Bitmap

variable {b c : Bitmap} {idx start : Nat} {value : Bool}

@[simp] theorem length_toList (b : Bitmap) : b.toList.length = b.len := by simp [toList]

theorem getElem?_toList (b : Bitmap) (i : Nat) : b.toList[i]? = if i < b.len then some (b.bit i) else none := by
  by_cases h : i < b.len <;> simp [toList, h]

theorem getElem?_toList_of_lt {i : Nat} (h : i < b.len) : b.toList[i]? = some (b.bit i) := by
  rw [getElem?_toList, if_pos h]

theorem toList_clear (len : Nat) : (clear len).toList = List.replicate len false := by
  refine List.eq_replicate_iff.2 ⟨length_toList _, fun v hv => ?_⟩
  obtain ⟨i, -, rfl⟩ := List.mem_map.1 hv
  exact bit_clear len i

theorem toList_eq_set (hlen : c.len = b.len) (hbit : ∀ j, c.bit j = if j = idx then value else b.bit j) :
    c.toList = b.toList.set idx value := by
  refine List.ext_getElem? fun j => ?_
  rw [List.getElem?_set, getElem?_toList, getElem?_toList, hlen, hbit, length_toList]
  by_cases hj : j = idx
  · subst hj
    simp
  · simp [hj, Ne.symm hj]

theorem get_eq (b : Bitmap) (idx : Nat) : b.get idx =
    match b.toList[idx]? with
    | some value => .ok value
    | none => .error (.noSuchBit idx b.len) := by
  rw [getElem?_toList, get]
  by_cases h : idx < b.len <;> simp [h]

theorem Trim.set_eq (h : b.Trim) (hi : idx < b.len) (value : Bool) :
    ∃ c, b.set idx value = .ok c ∧ c.Trim ∧ c.len = b.len ∧ c.toList = b.toList.set idx value := by
  obtain ⟨c, hc, htrim, hlen, hbit⟩ := h.set hi value
  exact ⟨c, hc, htrim, hlen, toList_eq_set hlen hbit⟩

theorem set_of_le (h : b.len ≤ idx) (value : Bool) : b.set idx value = .error (.noSuchBit idx b.len) :=
  if_neg (Nat.not_lt.2 h)

theorem firstFrom_eq (b : Bitmap) (start : Nat) (value : Bool) :
    b.firstFrom start value = BitList.firstFrom b.toList start value := by
  have hfirst := b.firstFrom_spec start value
  symm
  cases hs : b.firstFrom start value with
  | none =>
      rw [hs] at hfirst
      rw [BitList.firstFrom_eq_none_iff]
      intro k hk heq
      rw [getElem?_toList, Option.ite_none_right_eq_some, Option.some_inj] at heq
      exact hfirst k hk heq.1 heq.2
  | some j =>
      rw [hs] at hfirst
      obtain ⟨hle, hlt, hbit, hleast⟩ := hfirst
      rw [BitList.firstFrom_eq_some_iff]
      refine ⟨hle, by rw [getElem?_toList_of_lt hlt, hbit], fun k hk hkj heq => hleast k hk hkj ?_⟩
      rwa [getElem?_toList_of_lt (hkj.trans hlt), Option.some_inj] at heq

theorem lt_of_firstFrom (hs : b.firstFrom start value = some idx) : idx < b.len := by
  rw [firstFrom_eq, BitList.firstFrom_eq_some_iff] at hs
  simpa using hs.lt

theorem flipFirst_of_none (hs : b.firstFrom start value = none) : b.flipFirst start value = .ok (none, b) := by
  unfold Bitmap.flipFirst
  rw [hs]

theorem Trim.flipFirst_of_some (h : b.Trim) (hs : b.firstFrom start value = some idx) :
    ∃ c, b.flipFirst start value = .ok (some idx, c) ∧ c.Trim ∧ c.len = b.len ∧
      c.toList = b.toList.set idx (!value) := by
  obtain ⟨c, hc, htrim, hlen, hlist⟩ := h.set_eq (lt_of_firstFrom hs) (!value)
  refine ⟨c, ?_, htrim, hlen, hlist⟩
  unfold Bitmap.flipFirst
  rw [hs]
  simp [hc, Except.map]

theorem Trim.ones_eq_count (h : b.Trim) : b.ones = b.toList.count true := by
  rw [h.ones_eq, toList, List.count, List.countP_map]
  exact List.countP_congr fun i _ => by simp

theorem Trim.count_eq (h : b.Trim) (value : Bool) : b.count value = b.toList.count value := by
  have hsum := List.count_true_add_count_false b.toList
  rw [length_toList] at hsum
  cases value with
  | true => exact h.ones_eq_count
  | false =>
      change b.len - b.ones = _
      rw [h.ones_eq_count, ← hsum, Nat.add_sub_cancel_left]

theorem Trim.serve (h : b.Trim) (r : BitRequest) :
    (b.serve r).1 = (BitList.serve b.toList r).1 ∧ (b.serve r).2.toList = (BitList.serve b.toList r).2 ∧
      (b.serve r).2.Trim ∧ (b.serve r).2.len = b.len := by
  cases r with
  | get idx =>
      simp only [Bitmap.serve, BitList.serve, get_eq, length_toList]
      cases b.toList[idx]? <;> exact ⟨rfl, rfl, h, rfl⟩
  | set idx value =>
      simp only [Bitmap.serve, BitList.serve, length_toList]
      by_cases hi : idx < b.len
      · obtain ⟨c, hc, htrim, hlen, hlist⟩ := h.set_eq hi value
        rw [hc, if_pos hi]
        exact ⟨rfl, hlist, htrim, hlen⟩
      · rw [set_of_le (Nat.le_of_not_lt hi), if_neg hi]
        exact ⟨rfl, rfl, h, rfl⟩
  | firstFrom start value =>
      simp only [Bitmap.serve, BitList.serve, Bitmap.firstFrom_eq]
      exact ⟨trivial, trivial, h, trivial⟩
  | flipFirst start value =>
      simp only [Bitmap.serve, BitList.serve, ← Bitmap.firstFrom_eq]
      cases hs : b.firstFrom start value with
      | none =>
          rw [flipFirst_of_none hs]
          exact ⟨rfl, rfl, h, rfl⟩
      | some idx =>
          obtain ⟨c, hc, htrim, hlen, hlist⟩ := h.flipFirst_of_some hs
          rw [hc]
          exact ⟨rfl, hlist, htrim, hlen⟩
  | count value =>
      simp only [Bitmap.serve, BitList.serve, h.count_eq]
      exact ⟨trivial, trivial, h, trivial⟩

def AllTrim (len : Nat) (l : List Bitmap) : Prop := ∀ b ∈ l, b.Trim ∧ b.len = len

theorem AllTrim.serveCopies {len : Nat} {l : List Bitmap} (h : AllTrim len l) (r : CopyRequest) :
    (serveCopies serve l r).1 = (serveCopies BitList.serve (l.map toList) r).1 ∧
      (serveCopies serve l r).2.map toList = (serveCopies BitList.serve (l.map toList) r).2 ∧
      AllTrim len (serveCopies serve l r).2 := by
  cases r with
  | of k r =>
      simp only [DemandPaging.serveCopies, List.getElem?_map]
      cases hk : l[k]? with
      | none => exact ⟨rfl, rfl, h⟩
      | some b =>
          obtain ⟨htrim, hlen⟩ := h b (List.mem_of_getElem? hk)
          obtain ⟨hreply, hlist, htrim', hlen'⟩ := htrim.serve r
          refine ⟨congrArg some hreply, ?_, fun c hc => ?_⟩
          · rw [List.map_set, hlist]
            rfl
          · rcases List.mem_or_eq_of_mem_set hc with hc | rfl
            · exact h c hc
            · exact ⟨htrim', hlen'.trans hlen⟩
  | clone k =>
      simp only [DemandPaging.serveCopies, List.getElem?_map]
      cases hk : l[k]? with
      | none => exact ⟨rfl, rfl, h⟩
      | some b =>
          refine ⟨rfl, List.map_append, fun c hc => ?_⟩
          rcases List.mem_append.1 hc with hc | hc
          · exact h c hc
          · rw [List.mem_singleton.1 hc]
            exact h b (List.mem_of_getElem? hk)

theorem AllTrim.replies {len : Nat} {l : List Bitmap} (h : AllTrim len l) (rs : List CopyRequest) :
    (copyReplies serve l rs).1 = (copyReplies BitList.serve (l.map toList) rs).1 ∧
      (copyReplies serve l rs).2.map toList = (copyReplies BitList.serve (l.map toList) rs).2 ∧
      AllTrim len (copyReplies serve l rs).2 := by
  induction rs generalizing l with
  | nil => exact ⟨rfl, rfl, h⟩
  | cons r rs ih =>
      obtain ⟨hreply, hlists, hnext⟩ := h.serveCopies r
      obtain ⟨hrest, hlast, htrim⟩ := ih hnext
      rw [hlists] at hrest hlast
      exact ⟨congrArg₂ List.cons hreply hrest, hlast, htrim⟩

def fitting (n : Nat) : Except Panic Nat := if n < wordLimit then .ok n else .error .overflow

def checkedSearch (b : Bitmap) (value : Bool) : (n idx : Nat) → Except Panic (Option Nat)
  | 0, _ => .ok none
  | n + 1, idx =>
      if idx < b.len then
        match b.words[idx / wordBits]? with
        | none => .error .noSuchIndex
        | some word =>
            let candidates := (if value then word else ~~~word) >>> (idx % wordBits)
            if candidates = 0 then do
              b.checkedSearch value n (← fitting ((idx / wordBits + 1) * wordBits))
            else do
              let found ← fitting (idx + candidates.ctz.toNat)
              .ok (if found < b.len then some found else none)
      else .ok none

theorem fitting_of_lt {n : Nat} (h : n < wordLimit) : fitting n = .ok n := if_pos h

/-- A search goes at most one word beyond the end. -/
theorem checkedSearch_eq (hlen : b.len + wordBits ≤ wordLimit) (value : Bool) (n idx : Nat) :
    b.checkedSearch value n idx = .ok (b.searchWords value n idx) := by
  induction n generalizing idx with
  | zero => rfl
  | succ n ih =>
      unfold checkedSearch searchWords
      by_cases hidx : idx < b.len
      case neg => rw [if_neg hidx, if_neg hidx]
      have hword : b.words[idx / wordBits]? = some (b.word idx) := by
        rw [word, Array.getElem?_eq_getElem (word_lt hidx), Option.getD_some]
      rw [if_pos hidx, if_pos hidx, hword]
      dsimp only
      generalize (if value then b.word idx else ~~~b.word idx) >>> (idx % wordBits) = cand
      by_cases hz : cand = 0
      · have hnext : (idx / wordBits + 1) * wordBits < wordLimit := by
          rw [wordBits_eq] at hlen ⊢
          omega
        rw [if_pos hz, if_pos hz, fitting_of_lt hnext]
        exact ih _
      · have hctz := BitVec.lt_of_getLsbD (BitVec.getLsbD_true_ctz_of_ne_zero hz)
        rw [if_neg hz, if_neg hz, fitting_of_lt (by omega)]
        rfl

/-- What is true of a bitmap of `len` bits, said of their list. -/
structure Listed (len : Nat) (b : Bitmap) : Prop where
  len_eq : b.len = len
  length_eq : b.toList.length = len
  word_lt : ∀ idx, idx < len → idx / wordBits < b.words.size
  get : ∀ idx value, b.toList[idx]? = some value → b.get idx = .ok value
  get_panics : ∀ idx, len ≤ idx → b.get idx = .error (.noSuchBit idx len)
  set : ∀ idx value, idx < len → ∃ c, b.set idx value = .ok c ∧ c.toList = b.toList.set idx value
  set_panics : ∀ idx value, len ≤ idx → b.set idx value = .error (.noSuchBit idx len)
  first_iff : ∀ start value idx, b.firstFrom start value = some idx ↔ BitList.IsFirst b.toList start value idx
  none_iff : ∀ start value, b.firstFrom start value = none ↔ ∀ idx, start ≤ idx → b.toList[idx]? ≠ some value
  first_lt : ∀ start value idx, b.firstFrom start value = some idx → start ≤ idx ∧ idx < len
  flip : ∀ start value idx, b.firstFrom start value = some idx →
    ∃ c, b.flipFirst start value = .ok (some idx, c) ∧ c.toList = b.toList.set idx (!value)
  flip_none : ∀ start value, b.firstFrom start value = none → b.flipFirst start value = .ok (none, b)
  count : ∀ value, b.count value = b.toList.count value
  count_add : b.count true + b.count false = len
  ones_le : b.ones ≤ b.len
  checked : len + wordBits ≤ wordLimit → ∀ start value,
    b.checkedSearch value (b.words.size - start / wordBits) start = .ok (b.firstFrom start value)

theorem Trim.listed (h : b.Trim) : b.Listed b.len where
  len_eq := rfl
  length_eq := length_toList b
  word_lt _ := Bitmap.word_lt
  get idx value hidx := by rw [get_eq, hidx]
  get_panics idx hidx := if_neg (Nat.not_lt.2 hidx)
  set idx value hidx := by
    obtain ⟨c, hc, -, -, hlist⟩ := h.set_eq hidx value
    exact ⟨c, hc, hlist⟩
  set_panics idx value hidx := set_of_le hidx value
  first_iff start value idx := by rw [firstFrom_eq, BitList.firstFrom_eq_some_iff]
  none_iff start value := by rw [firstFrom_eq, BitList.firstFrom_eq_none_iff]
  first_lt start value idx hs := by
    refine ⟨?_, lt_of_firstFrom hs⟩
    rw [firstFrom_eq, BitList.firstFrom_eq_some_iff] at hs
    exact hs.start_le
  flip start value idx hs := by
    obtain ⟨c, hc, -, -, hlist⟩ := h.flipFirst_of_some hs
    exact ⟨c, hc, hlist⟩
  flip_none start value := flipFirst_of_none
  count := h.count_eq
  count_add := by rw [h.count_eq, h.count_eq, List.count_true_add_count_false, length_toList]
  ones_le := by
    rw [h.ones_eq_count, ← length_toList b]
    exact List.count_le_length
  checked hlen start value := checkedSearch_eq hlen value _ start

/-- Bitmaps that come from a clear one by requests and copies reply as lists of booleans do. Their searches overflow
no 64-bit number unless the length is within a word of the largest one, and memory ends long before. -/
theorem replies_listed (len : Nat) (rs : List CopyRequest) :
    (copyReplies serve [clear len] rs).1 = (copyReplies BitList.serve [List.replicate len false] rs).1 ∧
      (copyReplies serve [clear len] rs).2.map toList =
        (copyReplies BitList.serve [List.replicate len false] rs).2 ∧
      ∀ b ∈ (copyReplies serve [clear len] rs).2, b.Listed len := by
  have hclear : AllTrim len [clear len] := by
    intro b hb
    rw [List.mem_singleton.1 hb]
    exact ⟨trim_clear len, rfl⟩
  obtain ⟨hreplies, hlists, htrim⟩ := hclear.replies rs
  rw [List.map_singleton, toList_clear] at hreplies hlists
  refine ⟨hreplies, hlists, fun b hb => ?_⟩
  obtain ⟨ht, hlen⟩ := htrim b hb
  exact hlen ▸ ht.listed

/-- What is done to a copy is not seen in the original. The tail of the only word is not found. -/
example : (copyReplies serve [clear 3] [.of 0 (.flipFirst 1 false), .clone 0, .of 1 (.set 1 false), .of 0 (.get 1),
    .of 1 (.count true), .of 0 (.flipFirst 1 false), .of 0 (.firstFrom 1 false), .of 0 (.get 3)]).1 =
    [some (.index (some 1)), some .done, some .done, some (.bit true), some (.number 0), some (.index (some 2)),
      some (.index none), some (.panic (.noSuchBit 3 3))] := by
  decide +kernel

end Bitmap

end DemandPaging
