import DemandPaging.Proofs.Keeping

namespace DemandPaging

namespace SwapArea

open Function (update)
open Step

inductive Request
  | store (page : Contents)
  | fetch (slot : Slot) (page : Contents)
  | peek (slot : Slot) (page : Contents)
  | free (slot : Slot)

inductive Reply
  | slot (slot : Slot)
  | read (r : Reading pageSize)
  | done
  | stopped (e : Stop)

def ask : Request → Step SwapArea Reply
  | .store page => do return .slot (← SwapArea.store page)
  | .fetch slot page => do return .read (← SwapArea.fetch slot page)
  | .peek slot page => do return .read (← SwapArea.peek slot page)
  | .free slot => do
      SwapArea.free slot
      return .done

def serve (a : SwapArea) (r : Request) : Reply × SwapArea :=
  match (ask r).run a with
  | .ok reply b => (reply, b)
  | .error e b => (.stopped e, b)

abbrev History := List (Request × Reply)

/-- The area has handed out the slot, which may have been freed since. -/
def Obtained (h : History) (slot : Slot) : Prop := ∃ page, (.store page, .slot slot) ∈ h

def Request.slot? : Request → Option Slot
  | store _ => none
  | fetch slot _ | peek slot _ | free slot => some slot

inductive Run (d : Disk) : History → SwapArea → Prop
  | start : Run d [] (ofDisk d)
  | serve {h : History} {a : SwapArea} (r : Request) :
      Run d h a → (∀ slot ∈ r.slot?, Obtained h slot) → Run d ((r, (a.serve r).1) :: h) (a.serve r).2

/-- The map of slots to pages that the replies make: a page that is stored goes to the slot of the reply, and a slot
that is fetched or freed is empty. -/
def slotMap : History → Slot → Option Contents
  | [] => fun _ => none
  | (.store page, .slot slot) :: h => update (slotMap h) slot (some page)
  | (.fetch slot _, .read ⟨_, none⟩) :: h => update (slotMap h) slot none
  | (.free slot, .done) :: h => update (slotMap h) slot none
  | _ :: h => slotMap h

def stored (a : SwapArea) (slot : Slot) : Option Contents :=
  if a.holds slot = true then some (a.pageOf slot) else none

variable {a b : SwapArea} {d : Disk} {h : History} {slot : Slot} {page : Contents} {r : Request}

theorem stored_ofDisk (d : Disk) : (ofDisk d).stored = fun _ => none := by
  funext slot
  simp [stored, holds_ofDisk]

theorem stored_store (hholds : b.holds = update a.holds slot true) (hpage : b.pageOf = update a.pageOf slot page) :
    b.stored = update a.stored slot (some page) := by
  funext k
  unfold stored
  rw [hholds, hpage]
  by_cases hk : k = slot
  · subst hk
    simp
  · simp [hk]

theorem stored_free (hholds : b.holds = update a.holds slot false) (hpage : b.pageOf = a.pageOf) :
    b.stored = update a.stored slot none := by
  funext k
  unfold stored
  rw [hholds, hpage]
  by_cases hk : k = slot
  · subst hk
    simp
  · simp [hk]

theorem stored_congr (hholds : b.holds = a.holds) (hpage : ∀ k, a.holds k = true → b.pageOf k = a.pageOf k) :
    b.stored = a.stored := by
  funext k
  unfold stored
  rw [hholds]
  split
  · rw [hpage k ‹_›]
  · rfl

def LowestFree (a : SwapArea) (slot : Slot) : Prop :=
  slot.index < a.capacity ∧ a.holds slot = false ∧ ∀ k < slot.index, a.holds ⟨k⟩ = true

inductive Answers (a b : SwapArea) : Request → Reply → Prop
  | store {page : Contents} {slot : Slot} (hslot : a.LowestFree slot)
      (hstored : b.stored = update a.stored slot (some page)) : Answers a b (.store page) (.slot slot)
  | full {page : Contents} (hfull : a.Full) (hstored : b.stored = a.stored) :
      Answers a b (.store page) (.stopped (.error .swapFull))
  | unstored {page : Contents} {e : DeviceError} (hfull : ¬ a.Full) (hstored : b.stored = a.stored) :
      Answers a b (.store page) (.stopped (.error (.device e)))
  | fetch {slot : Slot} {page : Contents} (hstored : b.stored = update a.stored slot none) :
      Answers a b (.fetch slot page) (.read ⟨a.pageOf slot, none⟩)
  | unfetched {slot : Slot} {page bytes : Contents} {e : PagingError} (hstored : b.stored = a.stored) :
      Answers a b (.fetch slot page) (.read ⟨bytes, some e⟩)
  | peek {slot : Slot} {page : Contents} (hstored : b.stored = a.stored) :
      Answers a b (.peek slot page) (.read ⟨a.pageOf slot, none⟩)
  | unread {slot : Slot} {page bytes : Contents} {e : PagingError} (hstored : b.stored = a.stored) :
      Answers a b (.peek slot page) (.read ⟨bytes, some e⟩)
  | free {slot : Slot} (hstored : b.stored = update a.stored slot none) : Answers a b (.free slot) .done

theorem Fits.yields_ask (ha : a.Fits) (hr : ∀ slot ∈ r.slot?, slot.index < a.capacity) :
    Yields (ask r) a (fun reply b => a.Answers b r reply ∧ b.Fits) fun e b => a.Answers b r (.stopped e) ∧ b.Fits := by
  cases r with
  | store page =>
      refine (ha.store_lowest page).bind (fun slot b hb => yields_pure.2 ?_) fun e b he => ?_
      · obtain ⟨hfits, hlt, hfree, hlow, hholds, hpage⟩ := hb
        exact ⟨.store ⟨hlt, hfree, hlow⟩ (stored_store hholds hpage), hfits⟩
      · obtain ⟨e, rfl, hfits, hholds, hspoils, hwhy⟩ := he.error
        have hstored : b.stored = a.stored := stored_congr hholds fun k => hspoils.pageOf_eq
        refine ⟨?_, hfits⟩
        rcases hwhy with ⟨rfl, hfull⟩ | ⟨⟨d, rfl⟩, hfull, -⟩
        · exact .full hfull hstored
        · exact .unstored hfull hstored
  | fetch slot page =>
      refine (ha.fetch (hr slot rfl) page).bind (fun ⟨bytes, failure⟩ b hb => yields_pure.2 ?_) fun _ _ => False.elim
      obtain ⟨hfits, hpage, hdone, hfailed, -⟩ := hb
      refine ⟨?_, hfits⟩
      cases failure with
      | none =>
          obtain ⟨rfl, hholds⟩ := hdone rfl
          exact .fetch (stored_free hholds hpage)
      | some e => exact .unfetched (stored_congr (hfailed e rfl).2 fun k _ => congrFun hpage k)
  | peek slot page =>
      refine (ha.peek (hr slot rfl) page).bind (fun ⟨bytes, failure⟩ b hb => yields_pure.2 ?_) fun _ _ => False.elim
      obtain ⟨hsame, hdone, -⟩ := hb
      have hstored : b.stored = a.stored := stored_congr hsame.holds_eq fun k _ => congrFun hsame.pageOf_eq k
      refine ⟨?_, hsame.fits⟩
      cases failure with
      | none =>
          obtain rfl := hdone rfl
          exact .peek hstored
      | some e => exact .unread hstored
  | free slot =>
      refine (ha.free (hr slot rfl)).bind (fun _ b hb => yields_pure.2 ?_) fun _ _ => False.elim
      obtain ⟨hfits, hholds, hpage⟩ := hb
      exact ⟨.free (stored_free hholds hpage), hfits⟩

theorem same_ask (r : Request) (a : SwapArea) : Yields (ask r) a (fun _ => a.Same) fun _ => a.Same := by
  cases r with
  | store page => exact (same_store page a).bind (fun _ _ hb => hb) fun _ _ => id
  | fetch slot page => exact (same_fetch slot page a).bind (fun _ _ hb => hb) fun _ _ => id
  | peek slot page => exact (same_peek slot page a).bind (fun _ _ hb => hb) fun _ _ => id
  | free slot => exact (same_free slot a).bind (fun _ _ hb => hb) fun _ _ => id

theorem serve_of_yields {Q : Reply → SwapArea → Prop} (h : Yields (ask r) a Q fun e b => Q (.stopped e) b) :
    Q (a.serve r).1 (a.serve r).2 := by
  unfold Yields at h
  unfold SwapArea.serve
  split at h <;> rename_i hrun <;> rwa [hrun]

structure Follows (d : Disk) (h : History) (a : SwapArea) : Prop where
  fits : a.Fits
  capacity_eq : a.capacity = d.size / sectorsPerPage
  lt_of_obtained : ∀ slot, Obtained h slot → slot.index < a.capacity
  stored_eq : a.stored = slotMap h

theorem Obtained.cons {e : Request × Reply} (hs : Obtained (e :: h) slot) :
    (∃ page, e = (.store page, .slot slot)) ∨ Obtained h slot := by
  obtain ⟨page, hmem⟩ := hs
  rcases List.mem_cons.1 hmem with rfl | hmem
  · exact .inl ⟨page, rfl⟩
  · exact .inr ⟨page, hmem⟩

theorem Follows.answers (ha : Follows d h a) (hr : ∀ slot ∈ r.slot?, Obtained h slot) :
    a.Answers (a.serve r).2 r (a.serve r).1 ∧ (a.serve r).2.Fits :=
  serve_of_yields (Q := fun reply b => a.Answers b r reply ∧ b.Fits)
    (ha.fits.yields_ask fun slot hslot => ha.lt_of_obtained slot (hr slot hslot))

theorem Follows.serve (ha : Follows d h a) (hr : ∀ slot ∈ r.slot?, Obtained h slot) :
    Follows d ((r, (a.serve r).1) :: h) (a.serve r).2 := by
  obtain ⟨hanswers, hfits⟩ := ha.answers hr
  have hcap : (a.serve r).2.capacity = a.capacity :=
    (serve_of_yields (Q := fun _ => a.Same) (same_ask r a)).capacity
  generalize (a.serve r).1 = reply at hanswers ⊢
  generalize (a.serve r).2 = b at hanswers hfits hcap ⊢
  refine ⟨hfits, hcap.trans ha.capacity_eq, fun k hk => ?_, ?_⟩
  · rw [hcap]
    rcases hk.cons with ⟨page, heq⟩ | hk
    · cases heq
      cases hanswers with
      | store hlow => exact hlow.1
    · exact ha.lt_of_obtained k hk
  · cases hanswers <;> rename_i hstored <;> rw [hstored, ha.stored_eq] <;> rfl

theorem Run.follows (hrun : Run d h a) (hd : d.size < 2 ^ 32) : Follows d h a := by
  induction hrun with
  | start =>
      refine ⟨fits_ofDisk hd, rfl, ?_, stored_ofDisk d⟩
      rintro slot ⟨page, hmem⟩
      cases hmem
  | serve r _ hr ih => exact ih.serve hr

theorem Run.next {reply : Reply} (hrun : Run d h a) (hr : ∀ slot ∈ r.slot?, Obtained h slot)
    (hreply : (a.serve r).1 = reply) : Run d ((r, reply) :: h) (a.serve r).2 := hreply ▸ .serve r hrun hr

theorem Run.reliable (hrun : Run d h a) (hd : d.Reliable) : a.disk.Reliable := by
  induction hrun with
  | start => exact hd
  | serve r _ _ ih => exact (serve_of_yields (Q := fun _ => _) (same_ask r _)).disk.reliable ih

/-- A reliable device stores a page wherever there is a slot for it. -/
theorem Run.store (hrun : Run d h a) (hd : d.size < 2 ^ 32) (hdisk : d.Reliable) (hfull : ¬ a.Full)
    (page : Contents) : ∃ slot b, Run d ((.store page, .slot slot) :: h) b := by
  have hreply : ∃ slot, (a.serve (.store page)).1 = .slot slot := by
    refine serve_of_yields (Q := fun reply _ => ∃ slot, reply = .slot slot) ?_
    refine ((hrun.follows hd).fits.store page).bind (fun slot _ _ => yields_pure.2 ⟨slot, rfl⟩) fun e b he => ?_
    obtain ⟨e, rfl, -, -, -, -, hwhy⟩ := he.error
    exact absurd (hwhy (hrun.reliable hdisk)) hfull
  obtain ⟨slot, hslot⟩ := hreply
  exact ⟨slot, _, hrun.next nofun hslot⟩

/-- It returns what is in a slot even if the slot is free by then. -/
theorem Run.fetch (hrun : Run d h a) (hd : d.size < 2 ^ 32) (hdisk : d.Reliable) (hslot : Obtained h slot)
    (page : Contents) :
    ∃ b, Run d ((.fetch slot page, .read ⟨a.pageOf slot, none⟩) :: h) b ∧ b.pageOf = a.pageOf := by
  have hfollows := hrun.follows hd
  have hreply : (a.serve (.fetch slot page)).1 = .read ⟨a.pageOf slot, none⟩ ∧
      (a.serve (.fetch slot page)).2.pageOf = a.pageOf := by
    refine serve_of_yields (Q := fun reply b => reply = .read ⟨a.pageOf slot, none⟩ ∧ b.pageOf = a.pageOf) ?_
    refine (hfollows.fits.fetch (hfollows.lt_of_obtained slot hslot) page).bind (fun r b hb => yields_pure.2 ?_)
      fun _ _ => False.elim
    obtain ⟨bytes, failure⟩ := r
    obtain ⟨-, hpage, hdone, -, hsure⟩ := hb
    obtain rfl : failure = none := hsure (hrun.reliable hdisk)
    obtain ⟨rfl, -⟩ := hdone rfl
    exact ⟨rfl, hpage⟩
  exact ⟨_, hrun.next (fun k hk => by cases hk; exact hslot) hreply.1, hreply.2⟩

theorem Run.free (hrun : Run d h a) (hd : d.size < 2 ^ 32) (hslot : Obtained h slot) :
    ∃ b, Run d ((.free slot, .done) :: h) b ∧ b.pageOf = a.pageOf := by
  have hfollows := hrun.follows hd
  have hreply : (a.serve (.free slot)).1 = .done ∧ (a.serve (.free slot)).2.pageOf = a.pageOf := by
    refine serve_of_yields (Q := fun reply b => reply = .done ∧ b.pageOf = a.pageOf) ?_
    exact (hfollows.fits.free (hfollows.lt_of_obtained slot hslot)).bind
      (fun _ b hb => yields_pure.2 ⟨rfl, hb.2.2⟩) fun _ _ => False.elim
  exact ⟨_, hrun.next (fun k hk => by cases hk; exact hslot) hreply.1, hreply.2⟩

/-- The page of a slot is that of the last request to store one that the slot was the reply to. -/
theorem last_of_slotMap (hs : slotMap h slot = some page) :
    ∃ late early, h = late ++ (.store page, .slot slot) :: early ∧ ∀ page, (.store page, .slot slot) ∉ late := by
  have hskip {e : Request × Reply} {h : History} (he : ∀ page, e ≠ (.store page, .slot slot))
      (hlast : ∃ late early, h = late ++ (.store page, .slot slot) :: early ∧
        ∀ page, (.store page, .slot slot) ∉ late) :
      ∃ late early, e :: h = late ++ (.store page, .slot slot) :: early ∧
        ∀ page, (.store page, .slot slot) ∉ late := by
    obtain ⟨late, early, rfl, hlate⟩ := hlast
    exact ⟨e :: late, early, rfl, fun page => by simp [hlate page, (he page).symm]⟩
  induction h using slotMap.induct with
  | case1 => cases hs
  | case2 page' slot' h ih =>
      by_cases hk : slot = slot'
      · subst hk
        rw [slotMap, Function.update_self, Option.some_inj] at hs
        exact ⟨[], h, by rw [hs]; rfl, fun _ => List.not_mem_nil⟩
      · rw [slotMap, Function.update_of_ne hk] at hs
        exact hskip (fun page heq => hk (by cases heq; rfl)) (ih hs)
  | case3 slot' _ _ h ih | case4 slot' h ih =>
      by_cases hk : slot = slot'
      · subst hk
        simp [slotMap] at hs
      · rw [slotMap, Function.update_of_ne hk] at hs
        exact hskip (fun _ => nofun) (ih hs)
  | case5 e h hstore hfetch hfree ih =>
      rw [slotMap] at hs
      · exact hskip (fun page heq => hstore page slot heq) (ih hs)
      all_goals assumption

/-- What is true of the area of a device after the exchanges `h`, and of every request that may come next. -/
structure SlotMap (d : Disk) (h : History) (a : SwapArea) : Prop where
  capacity_eq : a.capacity = d.size / 8
  stored_eq : a.stored = slotMap h
  last_stored : ∀ slot, a.holds slot = true → ∃ late early,
    h = late ++ (.store (a.pageOf slot), .slot slot) :: early ∧ ∀ page, (.store page, .slot slot) ∉ late
  answers : ∀ r : Request, (∀ slot ∈ r.slot?, Obtained h slot) → a.Answers (a.serve r).2 r (a.serve r).1
  full_iff : ∀ page, (a.serve (.store page)).1 = .stopped (.error .swapFull) ↔ a.Full
  sectors : ∀ slot : Slot, slot.index < a.capacity →
    slot.firstSector = .ok (8 * slot.index) ∧ 8 * slot.index + 8 ≤ d.size ∧ 8 * slot.index + 8 < 2 ^ 32
  disjoint : ∀ slot slot' : Slot, slot.index < a.capacity → slot'.index < a.capacity →
    ∀ first first', slot.firstSector = .ok first → slot'.firstSector = .ok first' →
      ∀ i < 8, ∀ i' < 8, first + i = first' + i' → slot = slot'

/-- A swap area is a map of slots to pages, whatever transfers the device fails: a used slot holds the page that was
last stored in it, and each request changes only the slot that it is about, or none if it fails. The slots share no
sector, and all their sectors are sectors of the device. -/
theorem Run.slot_map (hrun : Run d h a) (hd : d.size < 2 ^ 32) : SlotMap d h a := by
  have ha := hrun.follows hd
  have hsectors (slot : Slot) (hslot : slot.index < a.capacity) : slot.firstSector = .ok (8 * slot.index) ∧
      8 * slot.index + 8 ≤ d.size ∧ 8 * slot.index + 8 < 2 ^ 32 := by
    have hfirst := ha.fits.firstSector hslot
    rw [ha.capacity_eq] at hslot
    rw [sectorsPerPage_eq] at hslot hfirst
    exact ⟨by rw [hfirst, Nat.mul_comm], by omega, by omega⟩
  refine ⟨ha.capacity_eq, ha.stored_eq, fun slot hslot => last_of_slotMap ?_, fun r hr => (ha.answers hr).1,
    fun page => ?_, hsectors, ?_⟩
  · rw [← ha.stored_eq, stored, if_pos hslot]
  · have hanswers := (ha.answers (r := .store page) nofun).1
    generalize (a.serve (.store page)).1 = reply at hanswers ⊢
    cases hanswers with
    | store hslot _ =>
        refine iff_of_false nofun fun hfull => ?_
        have hfree := hslot.2.1
        rw [hfull _ hslot.1] at hfree
        cases hfree
    | full hfull _ => exact iff_of_true rfl hfull
    | unstored hfull _ => exact iff_of_false nofun hfull
  · intro slot slot' hslot hslot' first first' hfirst hfirst' i hi i' hi' heq
    rw [(hsectors slot hslot).1] at hfirst
    rw [(hsectors slot' hslot').1] at hfirst'
    cases hfirst
    cases hfirst'
    obtain ⟨k⟩ := slot
    obtain ⟨k'⟩ := slot'
    dsimp only at heq
    exact congrArg Slot.mk (by omega)

def twoSlots : Disk := .blank 16 16

/-- A page that is stored is where the reply says. Fetched, it comes back, and the slot is empty; to free the slot and
to fetch it once more changes no other. -/
theorem slot_map_twoSlots :
    let sevens := Buffer.filled pageSize 7
    let zeros := Buffer.zero pageSize
    ∃ slot a b, Run twoSlots [(.store sevens, .slot slot)] a ∧ a.stored slot = some sevens ∧ a.capacity = 2 ∧
      Run twoSlots [(.fetch slot zeros, .read ⟨sevens, none⟩), (.free slot, .done),
        (.fetch slot zeros, .read ⟨sevens, none⟩), (.store sevens, .slot slot)] b ∧ b.stored = fun _ => none := by
  intro sevens zeros
  have hdisk : twoSlots.Reliable := ⟨by decide, fun _ _ => rfl, fun _ _ => rfl⟩
  have hfree : ¬ (ofDisk twoSlots).Full := fun hfull => by
    have := hfull ⟨0⟩ (by decide)
    rw [holds_ofDisk] at this
    cases this
  obtain ⟨slot, a, hstored⟩ := Run.start.store (by decide) hdisk hfree sevens
  have hmap := hstored.slot_map (by decide)
  have hpage : a.stored slot = some sevens := by
    rw [hmap.stored_eq]
    exact Function.update_self ..
  have hof : a.pageOf slot = sevens := by
    unfold stored at hpage
    split at hpage
    · exact Option.some.inj hpage
    · cases hpage
  have hobtained {h : History} (hmem : (.store sevens, .slot slot) ∈ h) : Obtained h slot := ⟨sevens, hmem⟩
  obtain ⟨b, hfetched, hb⟩ := hstored.fetch (by decide) hdisk (hobtained (by simp)) zeros
  obtain ⟨c, hfreed, hc⟩ := hfetched.free (by decide) (hobtained (by simp))
  obtain ⟨z, hlast, -⟩ := hfreed.fetch (by decide) hdisk (hobtained (by simp)) zeros
  rw [hc, hb, hof] at hlast
  refine ⟨slot, a, z, hstored, hpage, hmap.capacity_eq, hlast, ?_⟩
  rw [(hlast.slot_map (by decide)).stored_eq]
  funext k
  simp [slotMap, Function.update_apply]

end SwapArea

end DemandPaging
