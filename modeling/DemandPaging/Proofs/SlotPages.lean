import DemandPaging.SwapArea
import DemandPaging.Proofs.BitSet
import DemandPaging.Proofs.Outcome
import Mathlib.Algebra.Group.Nat.Defs
import Mathlib.Logic.Function.Basic

namespace DemandPaging

open Step

theorem sectorSize_eq : sectorSize = 512 := rfl

theorem sectorsPerPage_eq : sectorsPerPage = 8 := rfl

theorem Buffer.getElem_overlay {n : Nat} (buf : Buffer n) (start : Nat) (bytes : Array UInt8)
    {i : Nat} (hi : i < n) :
    (buf.overlay start bytes)[i] =
      if start ≤ i then (bytes[i - start]?).getD buf[i] else buf[i] := by
  simp [overlay]

theorem Buffer.size_slice {n start len : Nat} (buf : Buffer n) (h : start + len ≤ n) :
    (buf.slice start len).size = len := by
  simp only [slice, Array.size_extract, Vector.size_toArray]
  omega

theorem Buffer.getElem?_slice {n start len i : Nat} (buf : Buffer n) (h : start + len ≤ n) (hi : i < len) :
    (buf.slice start len)[i]? = buf[start + i]? := by
  unfold slice
  rw [Array.getElem?_extract_of_lt (by rw [Vector.size_toArray]; omega)]
  rw [← Vector.getElem?_toArray, Array.getElem?_eq_getElem]

namespace Contents

theorem getElem_sector (page : Contents) {i j : Nat} (hi : i < sectorsPerPage) (hj : j < sectorSize) :
    (page.sector i)[j] = getElem page (i * sectorSize + j) (by
      change i * 512 + j < 4096
      rw [sectorSize_eq] at hj
      rw [sectorsPerPage_eq] at hi
      omega) := by
  have hk : i * sectorSize + j < pageSize := by
    change i * 512 + j < 4096
    rw [sectorSize_eq] at hj
    rw [sectorsPerPage_eq] at hi
    omega
  simp [sector, hk]

theorem getElem_setSector (page : Contents) (i : Nat) (s : Sector) {k : Nat} (hk : k < pageSize) :
    (page.setSector i s)[k] =
      if k / sectorSize = i then getElem s (k % sectorSize) (Nat.mod_lt _ (by decide)) else page[k] := by
  have hmod : k % sectorSize < sectorSize := Nat.mod_lt _ (by decide)
  have hdiv := Nat.div_add_mod k sectorSize
  rw [setSector, Buffer.getElem_overlay]
  split
  · by_cases hi : k / sectorSize = i
    · have hsub : k - i * sectorSize = k % sectorSize := by
        rw [Nat.mul_comm, hi] at hdiv
        omega
      simp [hi, hsub, hmod]
    · have hout : sectorSize ≤ k - i * sectorSize := by
        rename_i hle
        rw [sectorSize_eq] at hi hle ⊢
        omega
      simp [hi, hout]
  · rename_i hle
    have hi : k / sectorSize ≠ i := by
      rw [sectorSize_eq] at hle ⊢
      omega
    simp [hi]

end Contents

namespace Disk

def sectorAt (d : Disk) (sector : Nat) : Sector :=
  (d.medium.sectors[sector]?).getD (Buffer.zero _)

def pageAt (d : Disk) (first : Nat) : Contents :=
  Vector.ofFn fun k =>
    getElem (d.sectorAt (first + k.val / sectorSize)) (k.val % sectorSize) (Nat.mod_lt _ (by decide))

theorem sectorAt_congr {d d' : Disk} (h : d'.medium.sectors = d.medium.sectors) (j : Nat) :
    d'.sectorAt j = d.sectorAt j := by
  rw [sectorAt, sectorAt, h]

theorem read_cases (d : Disk) (sector : Nat) (buf : Sector) :
    ∃ d' data e, d.read sector buf = (d', data, e) ∧ d'.size = d.size ∧
      d'.medium.sectors = d.medium.sectors ∧ (e = none → data = d.sectorAt sector) := by
  unfold read
  cases d.faults.read d.reads sector with
  | some f => exact ⟨_, _, _, rfl, rfl, rfl, nofun⟩
  | none =>
      unfold MemoryDisk.read
      cases checkSector d.medium.size sector sectorSize with
      | error e => exact ⟨_, _, _, rfl, rfl, rfl, nofun⟩
      | ok => exact ⟨_, _, _, rfl, rfl, rfl, fun _ => rfl⟩

theorem write_cases (d : Disk) (sector : Nat) (data : Sector) :
    ∃ d' e, d.write sector data = (d', e) ∧ d'.size = d.size ∧
      (∀ j, j ≠ sector → d'.sectorAt j = d.sectorAt j) ∧
      (e = none → d'.sectorAt sector = data) := by
  unfold write
  cases d.faults.write d.writes sector with
  | some f =>
      refine ⟨_, _, rfl, rfl, fun j hj => ?_, nofun⟩
      simp [sectorAt, Array.getElem?_modify, hj.symm]
  | none =>
      unfold MemoryDisk.write
      cases hs : checkSector d.medium.size sector data.toArray.size with
      | error e => exact ⟨_, _, rfl, rfl, fun _ _ => rfl, nofun⟩
      | ok =>
        have hlt : sector < d.medium.sectors.size := by
          unfold checkSector at hs
          split at hs
          · cases hs
          · exact Nat.lt_of_not_le ‹_›
        refine ⟨_, _, rfl, rfl, fun j hj => ?_, fun _ => ?_⟩
        · simp [sectorAt, hj.symm]
        · ext i hi
          simp [sectorAt, hlt, Buffer.getElem_overlay, hi]

theorem readPage_cases (first : Nat) (l : List Nat) (d : Disk) (page : Contents) :
    ∃ d' page' e, readPage first l d page = (d', page', e) ∧ d'.size = d.size ∧
      d'.medium.sectors = d.medium.sectors ∧
      (e = none → ∀ k (hk : k < pageSize), page'[k] =
        if k / sectorSize ∈ l then (d.pageAt first)[k] else page[k]) := by
  induction l generalizing d page with
  | nil => exact ⟨d, page, none, rfl, rfl, rfl, fun _ k hk => by simp⟩
  | cons i rest ih =>
      obtain ⟨d₁, data, e, hread, hsize, hmedium, hdata⟩ := d.read_cases (first + i) (page.sector i)
      unfold readPage
      rw [hread]
      cases e with
      | some e => exact ⟨_, _, _, rfl, hsize, hmedium, nofun⟩
      | none =>
          obtain ⟨d₂, page', e, hrest, hsize', hmedium', hpage⟩ := ih d₁ (page.setSector i data)
          refine ⟨d₂, page', e, hrest, hsize'.trans hsize, hmedium'.trans hmedium, fun he k hk => ?_⟩
          rw [hpage he k hk, Contents.getElem_setSector _ _ _ hk, hdata rfl]
          by_cases hik : k / sectorSize = i
          · simp [pageAt, hik, sectorAt_congr hmedium]
          · simp [pageAt, hik, sectorAt_congr hmedium]

/-- Writing a page changes at most the listed sectors; if it succeeds they hold the page. -/
theorem writePage_cases (first : Nat) (page : Contents) (l : List Nat) (d : Disk) :
    ∃ d' e, writePage first page l d = (d', e) ∧ d'.size = d.size ∧
      (∀ j, (∀ i ∈ l, j ≠ first + i) → d'.sectorAt j = d.sectorAt j) ∧
      (e = none → ∀ i ∈ l, d'.sectorAt (first + i) = page.sector i) := by
  induction l generalizing d with
  | nil => exact ⟨d, none, rfl, rfl, fun _ _ => rfl, fun _ i hi => by cases hi⟩
  | cons i rest ih =>
      obtain ⟨d₁, e, hwrite, hsize, hkeep, hdata⟩ := d.write_cases (first + i) (page.sector i)
      unfold writePage
      rw [hwrite]
      cases e with
      | some e =>
          refine ⟨_, _, rfl, hsize, fun j hj => hkeep j (hj i (List.mem_cons_self ..)), nofun⟩
      | none =>
          obtain ⟨d₂, e, hrest, hsize', hkeep', hdata'⟩ := ih d₁
          refine ⟨d₂, e, hrest, hsize'.trans hsize, fun j hj => ?_, fun he j hj => ?_⟩
          · rw [hkeep' j fun i hi => hj i (List.mem_cons_of_mem _ hi),
              hkeep j (hj i (List.mem_cons_self ..))]
          · by_cases hjr : j ∈ rest
            · exact hdata' he j hjr
            · obtain rfl : j = i := by simpa [hjr] using hj
              rw [hkeep' (first + j) fun i hi heq => hjr (by rwa [Nat.add_left_cancel heq]),
                hdata rfl]

/-- A device that never fails: it has all the sectors that it says it has, and no transfer is made to
fail. -/
structure Reliable (d : Disk) : Prop where
  size_le : d.size ≤ d.medium.size
  read : ∀ count sector, d.faults.read count sector = none
  write : ∀ count sector, d.faults.write count sector = none

theorem checkSector_eq_ok {size sector : Nat} (h : sector < size) : checkSector size sector sectorSize = .ok () := by
  rw [checkSector, if_neg (Nat.not_le.2 h), if_neg (by simp)]

namespace Reliable

variable {d : Disk} {sector first : Nat}

theorem read_eq (h : d.Reliable) (hs : sector < d.size) (buf : Sector) :
    ∃ d' data, d.read sector buf = (d', data, none) ∧ d'.Reliable ∧ d'.size = d.size := by
  unfold Disk.read MemoryDisk.read
  rw [h.read, checkSector_eq_ok (Nat.lt_of_lt_of_le hs h.size_le)]
  exact ⟨_, _, rfl, ⟨h.size_le, h.read, h.write⟩, rfl⟩

theorem write_eq (h : d.Reliable) (hs : sector < d.size) (data : Sector) :
    ∃ d', d.write sector data = (d', none) ∧ d'.Reliable ∧ d'.size = d.size := by
  unfold Disk.write MemoryDisk.write
  rw [h.write, Vector.size_toArray, checkSector_eq_ok (Nat.lt_of_lt_of_le hs h.size_le)]
  refine ⟨_, rfl, ⟨?_, h.read, h.write⟩, rfl⟩
  simpa [MemoryDisk.size] using h.size_le

theorem readPage_eq (h : d.Reliable) (l : List Nat) (hl : ∀ i ∈ l, first + i < d.size) (page : Contents) :
    ∃ d' page', readPage first l d page = (d', page', none) := by
  induction l generalizing d page with
  | nil => exact ⟨d, page, rfl⟩
  | cons i rest ih =>
      obtain ⟨d₁, data, hread, h₁, hsize⟩ := h.read_eq (hl i (List.mem_cons_self ..)) (page.sector i)
      unfold readPage
      rw [hread]
      apply ih h₁
      intro j hj
      rw [hsize]
      exact hl j (List.mem_cons_of_mem _ hj)

theorem writePage_eq (h : d.Reliable) (page : Contents) (l : List Nat) (hl : ∀ i ∈ l, first + i < d.size) :
    ∃ d', writePage first page l d = (d', none) := by
  induction l generalizing d with
  | nil => exact ⟨d, rfl⟩
  | cons i rest ih =>
      obtain ⟨d₁, hwrite, h₁, hsize⟩ := h.write_eq (hl i (List.mem_cons_self ..)) (page.sector i)
      unfold writePage
      rw [hwrite]
      apply ih h₁
      intro j hj
      rw [hsize]
      exact hl j (List.mem_cons_of_mem _ hj)

end Reliable

theorem getElem_pageAt (d : Disk) (first : Nat) {k : Nat} (hk : k < pageSize) :
    (d.pageAt first)[k] =
      getElem (d.sectorAt (first + k / sectorSize)) (k % sectorSize) (Nat.mod_lt _ (by decide)) := by
  simp [pageAt]

theorem sector_lt {k : Nat} (hk : k < pageSize) : k / sectorSize < sectorsPerPage := by
  change k < 4096 at hk
  rw [sectorSize_eq, sectorsPerPage_eq]
  omega

end Disk

namespace SwapArea

variable {a b : SwapArea} {slot : Slot} {page : Contents}

def holds (a : SwapArea) (slot : Slot) : Bool := a.used.bit slot.index

def pageOf (a : SwapArea) (slot : Slot) : Contents :=
  a.disk.pageAt (slot.index * sectorsPerPage)

/-- The bitmap is as long as the device has slots, and sector numbers have 32 bits. -/
structure Fits (a : SwapArea) : Prop where
  trim : a.used.Trim
  len_eq : a.used.len = a.disk.size / sectorsPerPage
  size_lt : a.disk.size < 2 ^ 32

theorem Fits.lt_of_holds (h : a.Fits) (hs : a.holds slot = true) : slot.index < a.capacity := by
  refine Nat.lt_of_not_le fun hle => ?_
  rw [holds, h.trim.bit_eq_false hle] at hs
  cases hs

theorem Fits.firstSector (h : a.Fits) (hs : slot.index < a.capacity) :
    slot.firstSector = .ok (slot.index * sectorsPerPage) := by
  have hlt := h.size_lt
  have hcap : slot.index < a.disk.size / sectorsPerPage := h.len_eq ▸ hs
  unfold Slot.firstSector
  rw [sectorsPerPage_eq] at hcap ⊢
  rw [Nat.mod_eq_of_lt (by omega), if_pos (by omega)]

theorem pageOf_congr (h : ∀ j, j / sectorsPerPage = slot.index → b.disk.sectorAt j = a.disk.sectorAt j) :
    b.pageOf slot = a.pageOf slot := by
  ext k hk
  have hsec := Disk.sector_lt hk
  rw [pageOf, pageOf, Disk.getElem_pageAt, Disk.getElem_pageAt, h]
  generalize k / sectorSize = i at hsec
  rw [sectorsPerPage_eq] at hsec ⊢
  omega

theorem fits_ofDisk {d : Disk} (h : d.size < 2 ^ 32) : (ofDisk d).Fits :=
  ⟨Bitmap.trim_clear _, rfl, h⟩

theorem holds_ofDisk (d : Disk) (slot : Slot) : (ofDisk d).holds slot = false := Bitmap.bit_clear _ _

theorem Fits.sector_lt (h : a.Fits) (hs : slot.index < a.capacity) :
    ∀ i ∈ List.range sectorsPerPage, slot.index * sectorsPerPage + i < a.disk.size := by
  intro i hi
  have hi := List.mem_range.1 hi
  have hcap : slot.index < a.disk.size / sectorsPerPage := h.len_eq ▸ hs
  rw [sectorsPerPage_eq] at hi hcap ⊢
  omega

def Full (a : SwapArea) : Prop := ∀ slot : Slot, slot.index < a.capacity → a.holds slot = true

/-- From `a` to `b` the sectors of a free slot may have been written to, and no others. -/
def Spoils (a b : SwapArea) : Prop :=
  b = a ∨ ∃ slot : Slot, slot.index < a.capacity ∧ a.holds slot = false ∧
    ∀ j, j / sectorsPerPage ≠ slot.index → b.disk.sectorAt j = a.disk.sectorAt j

theorem Spoils.pageOf_eq (h : a.Spoils b) (hs : a.holds slot = true) : b.pageOf slot = a.pageOf slot := by
  rcases h with rfl | ⟨free, -, hfree, hkeep⟩
  · rfl
  · refine pageOf_congr fun j hj => hkeep j fun heq => ?_
    obtain rfl : slot = free := congrArg Slot.mk (hj.symm.trans heq)
    rw [hs] at hfree
    cases hfree

/-- A page goes to the lowest slot that is free. If that fails no slot is taken, and only the bytes of a free slot
may be spoilt: either all slots are taken, or a device that is not reliable has failed. -/
theorem Fits.store_lowest (h : a.Fits) (page : Contents) :
    Yields (store page) a
      (fun slot b => b.Fits ∧ slot.index < a.capacity ∧ a.holds slot = false ∧
        (∀ k < slot.index, a.holds ⟨k⟩ = true) ∧
        b.holds = Function.update a.holds slot true ∧
        b.pageOf = Function.update a.pageOf slot page)
      (Failing fun e b => b.Fits ∧ b.holds = a.holds ∧ a.Spoils b ∧
        (e = .swapFull ∧ a.Full ∨ (∃ d, e = .device d) ∧ ¬ a.Full ∧ ¬ a.disk.Reliable)) := by
  unfold SwapArea.store
  rw [yields_bind, yields_get, yields_bind, yields_ofPanic]
  rcases h.trim.flipFirst 0 false with ⟨hflip, htaken⟩ | ⟨idx, used, hflip, -, hlt, hfree, hleast, htrim, hlen, hbit⟩
  · rw [hflip]
    refine yields_fail.2 ⟨h, rfl, .inl rfl, .inl ⟨rfl, fun slot hs => ?_⟩⟩
    exact Bool.of_not_eq_false (htaken slot.index (Nat.zero_le _) hs)
  · rw [hflip]
    dsimp only
    have hfirst : (Slot.mk idx).firstSector = .ok (idx * sectorsPerPage) := h.firstSector hlt
    rw [yields_bind, yields_ofPanic, hfirst]
    dsimp only
    obtain ⟨disk, e, hwrite, hsize, hkeep, hdata⟩ :=
      a.disk.writePage_cases (idx * sectorsPerPage) page (List.range sectorsPerPage)
    have hsectors (j : Nat) (hj : j / sectorsPerPage ≠ idx) : disk.sectorAt j = a.disk.sectorAt j := by
      refine hkeep j fun i hi heq => hj ?_
      have hi := List.mem_range.1 hi
      rw [sectorsPerPage_eq] at hi heq ⊢
      omega
    -- the other slots have none of the sectors that are written
    have hothers (slot : Slot) (hne : slot ≠ ⟨idx⟩) (u : Bitmap) :
        pageOf ⟨u, disk⟩ slot = a.pageOf slot := by
      refine pageOf_congr fun j hj => hsectors j fun heq => hne ?_
      exact congrArg Slot.mk (hj.symm.trans heq)
    rw [hwrite]
    cases e with
    | none =>
        refine yields_bind.2 (yields_set.2 (yields_pure.2 ⟨⟨htrim, ?_, ?_⟩, hlt, hfree, ?_, ?_, ?_⟩))
        · rw [hlen, h.len_eq, hsize]
        · rw [hsize]
          exact h.size_lt
        · exact fun k hk => Bool.of_not_eq_false (hleast k (Nat.zero_le k) hk)
        · funext ⟨k⟩
          by_cases hk : k = idx
          · simp [holds, hbit, hk]
          · simp [holds, hbit, hk, Function.update_of_ne, Slot.mk.injEq]
        · funext slot
          by_cases hs : slot = ⟨idx⟩
          · subst hs
            rw [Function.update_self]
            ext k hk
            have hsec := Disk.sector_lt hk
            rw [pageOf, Disk.getElem_pageAt]
            dsimp only
            simp only [hdata rfl _ (List.mem_range.2 hsec),
              Contents.getElem_sector page hsec (Nat.mod_lt _ (by decide)), Nat.div_add_mod']
          · rw [Function.update_of_ne hs, hothers slot hs]
    | some e =>
        obtain ⟨used', hset, htrim', hlen', hbit'⟩ := htrim.set (hlen ▸ hlt) false
        have hbits : used'.bit = a.used.bit := by
          funext k
          by_cases hk : k = idx
          · simp [hbit', hk, hfree]
          · simp [hbit', hbit, hk]
        refine yields_bind.2 (yields_ofPanic.2 ?_)
        rw [hset]
        refine yields_bind.2 (yields_set.2 (yields_fail.2
          ⟨⟨htrim', ?_, ?_⟩, ?_, .inr ⟨⟨idx⟩, hlt, hfree, hsectors⟩,
            .inr ⟨⟨e, rfl⟩, fun hfull => ?_, fun hdisk => ?_⟩⟩))
        · rw [hlen', hlen, h.len_eq, hsize]
        · rw [hsize]
          exact h.size_lt
        · funext slot
          rw [holds, holds, hbits]
        · exact absurd (hfull ⟨idx⟩ hlt) (by simp [holds, hfree])
        · obtain ⟨d, hok⟩ := hdisk.writePage_eq page _ (h.sector_lt (show (⟨idx⟩ : Slot).index < a.capacity from hlt))
          rw [hwrite] at hok
          cases hok

/-- A page goes to a free slot. If that fails no slot is taken, and only the bytes of a free slot
may be spoilt. It does not fail on a reliable device that has a free slot. -/
theorem Fits.store (h : a.Fits) (page : Contents) :
    Yields (store page) a
      (fun slot b => b.Fits ∧ a.holds slot = false ∧
        b.holds = Function.update a.holds slot true ∧
        b.pageOf = Function.update a.pageOf slot page)
      (Failing fun e b => b.Fits ∧ (e = .swapFull ∨ ∃ d, e = .device d) ∧ b.holds = a.holds ∧
        a.Spoils b ∧ (a.disk.Reliable → a.Full)) := by
  refine (h.store_lowest page).mono ?_ fun e b he => he.mono ?_
  · rintro slot b ⟨hfits, -, hfree, -, hholds, hpage⟩
    exact ⟨hfits, hfree, hholds, hpage⟩
  · rintro e ⟨hfits, hholds, hspoils, ⟨rfl, hfull⟩ | ⟨hdevice, -, hbroken⟩⟩
    · exact ⟨hfits, .inl rfl, hholds, hspoils, fun _ => hfull⟩
    · exact ⟨hfits, .inr hdevice, hholds, hspoils, fun hdisk => absurd hdisk hbroken⟩

structure SameSlots (a b : SwapArea) : Prop where
  fits : b.Fits
  capacity_eq : b.capacity = a.capacity
  holds_eq : b.holds = a.holds
  pageOf_eq : b.pageOf = a.pageOf

theorem Fits.peek (h : a.Fits) (hs : slot.index < a.capacity) (page : Contents) :
    Yields (peek slot page) a
      (fun r b => a.SameSlots b ∧ (r.failure = none → r.bytes = a.pageOf slot) ∧
        (∀ e, r.failure = some e → e.isMissing = false) ∧ (a.disk.Reliable → r.failure = none))
      fun _ _ => False := by
  unfold SwapArea.peek
  rw [yields_bind, yields_get, yields_bind, yields_ofPanic, h.firstSector hs]
  obtain ⟨disk, page', e, hread, hsize, hmedium, hpage⟩ :=
    a.disk.readPage_cases (slot.index * sectorsPerPage) (List.range sectorsPerPage) page
  dsimp only
  rw [hread]
  refine yields_bind.2 (yields_set.2 (yields_pure.2
    ⟨⟨⟨h.trim, ?_, ?_⟩, rfl, rfl, ?_⟩, fun he => ?_, fun e he => ?_, fun hdisk => ?_⟩))
  · rw [h.len_eq, hsize]
  · rw [hsize]
    exact h.size_lt
  · funext k
    exact pageOf_congr fun j _ => Disk.sectorAt_congr hmedium j
  · ext k hk
    simp only [Option.map_eq_none_iff] at he
    rw [hpage he k hk, if_pos (List.mem_range.2 (Disk.sector_lt hk))]
    rfl
  · obtain ⟨d, -, rfl⟩ := Option.map_eq_some_iff.1 he
    rfl
  · obtain ⟨d, page'', hok⟩ := hdisk.readPage_eq _ (h.sector_lt hs) page
    rw [hread] at hok
    cases hok
    rfl

theorem Fits.free (h : a.Fits) (hs : slot.index < a.capacity) :
    Yields (free slot) a
      (fun _ b => b.Fits ∧ b.holds = Function.update a.holds slot false ∧ b.pageOf = a.pageOf)
      fun _ _ => False := by
  unfold SwapArea.free
  obtain ⟨used, hset, htrim, hlen, hbit⟩ := h.trim.set hs false
  rw [yields_bind, yields_get, yields_bind, yields_ofPanic, hset]
  refine yields_set.2 ⟨⟨htrim, hlen.trans h.len_eq, h.size_lt⟩, ?_, rfl⟩
  funext ⟨k⟩
  by_cases hk : k = slot.index
  · simp [holds, hbit, hk]
  · have hne : (⟨k⟩ : Slot) ≠ slot := fun heq => hk (by rw [← heq])
    simp [holds, hbit, hk, Function.update_of_ne hne]

/-- A slot is freed by a transfer that brought all of it, and only then. -/
theorem Fits.fetch (h : a.Fits) (hs : slot.index < a.capacity) (page : Contents) :
    Yields (fetch slot page) a
      (fun r b => b.Fits ∧ b.pageOf = a.pageOf ∧
        (r.failure = none → r.bytes = a.pageOf slot ∧ b.holds = Function.update a.holds slot false) ∧
        (∀ e, r.failure = some e → e.isMissing = false ∧ b.holds = a.holds) ∧
        (a.disk.Reliable → r.failure = none))
      fun _ _ => False := by
  unfold SwapArea.fetch
  refine (h.peek hs page).bind (fun r b hr => ?_) fun _ _ => id
  obtain ⟨hsame, hbytes, hmiss, hdisk⟩ := hr
  cases hf : r.failure with
  | none =>
      refine (hsame.fits.free (hsame.capacity_eq ▸ hs)).bind (fun _ c hc => ?_) fun _ _ => id
      obtain ⟨hfits, hholds, hpage⟩ := hc
      refine yields_pure.2 ⟨hfits, hpage.trans hsame.pageOf_eq, fun _ => ⟨hbytes hf, ?_⟩, fun e he => ?_,
        fun _ => hf⟩
      · rw [hholds, hsame.holds_eq]
      · rw [hf] at he
        cases he
  | some e =>
      refine yields_pure.2 ⟨hsame.fits, hsame.pageOf_eq, fun hn => ?_,
        fun e he => ⟨hmiss e he, hsame.holds_eq⟩, hdisk⟩
      rw [hf] at hn
      cases hn

end SwapArea

end DemandPaging
