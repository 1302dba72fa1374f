import DemandPaging.Proofs.Unforked

namespace DemandPaging

open Function (update)
open Step Machine

variable {hw : Hardware} {l : List Turn} {m n : Machine} {t : Turn} {v w : View} {s : SpaceId}
  {addr len offset va va' k : Nat} {wr : Bool} {hd : Handle} {F : File}

/-- What is asked of a mapping of a file, wherever there are pages: it does not begin at the first page, ends below
the kernel and is not empty, its places in the file are page addresses and fit in a word, and the file has
something in it. -/
structure Mappable (addr len offset : Nat) (F : File) : Prop where
  addr_ne : addr ≠ 0
  addr_aligned : addr % 4096 = 0
  len_pos : 0 < len
  offset_aligned : offset % 4096 = 0
  last_lt : addr + 4096 * pagesFor len - 1 < kernelBase
  end_lt : offset + 4096 * pagesFor len < wordLimit
  length_ne : F.length ≠ 0

/-- The checks that are made are those: that no sum of them is too large for a word follows from the others. -/
theorem mappable_iff : Mappable addr len offset F ↔ Vm.isMappable addr len offset = true ∧ F.length ≠ 0 := by
  have hpos : 0 < len → 0 < pagesFor len := by
    unfold pagesFor
    rw [pageSize_eq]
    omega
  have hbase : @Eq Nat kernelBase 0x80000000 := rfl
  have hword : wordLimit = 0x10000000000000000 := rfl
  unfold Vm.isMappable
  dsimp only
  rw [Nat.mul_comm (pagesFor len), pageSize_eq]
  simp only [Bool.and_eq_true, decide_eq_true_eq, Bool.not_eq_true', beq_iff_eq, isKernel_eq_false_iff,
    isPageAligned_iff]
  constructor
  · rintro ⟨haddr, haligned, hlen, hoffset, hlast, hend, hlong⟩
    have := hpos hlen
    exact ⟨⟨⟨⟨⟨⟨⟨⟨haddr, haligned⟩, Nat.ne_of_gt hlen⟩, hoffset⟩, by omega⟩, by omega⟩, by omega⟩, by omega⟩, hlong⟩
  · rintro ⟨⟨⟨⟨⟨⟨⟨⟨haddr, haligned⟩, hlen⟩, hoffset⟩, -⟩, -⟩, hlast⟩, hend⟩, hlong⟩
    have := hpos (Nat.pos_of_ne_zero hlen)
    exact ⟨haddr, haligned, Nat.pos_of_ne_zero hlen, hoffset, by omega, by omega, hlong⟩

/-- What a mapping that is made leaves: its pages, each to be read from its part of the file when it is first touched,
and its region. Nothing else is registered, and nothing was taken for it. -/
structure Maps (m n : Machine) (s : SpaceId) (addr len : Nat) (wr : Bool) (hd : Handle) (offset : Nat) : Prop where
  part : ∀ i < pagesFor len, m.page? ⟨s, addr + i * pageSize⟩ = none ∧
    n.page? ⟨s, addr + i * pageSize⟩ = some (mappingPage wr hd offset (m.file hd.file).length len i)
  others : ∀ r, (∀ i < pagesFor len, r ≠ ⟨s, addr + i * pageSize⟩) → n.page? r = m.page? r
  book : ∃ b, m.view.book s = some b ∧ n.view.book = update m.view.book s
    (some { b with regions := b.regions.insert addr ⟨hd, pagesFor len⟩ })
  unmoved : m.view.Unmoved n.view

theorem View.Collides.unique (h : v.Collides s addr k va) (h' : v.Collides s addr k va') : va = va' := by
  obtain ⟨j, -, rfl, hp, hlow⟩ := h
  obtain ⟨j', -, rfl, hp', hlow'⟩ := h'
  rcases Nat.lt_trichotomy j j' with hlt | rfl | hlt
  · rw [hlow' j hlt] at hp
    cases hp
  · rfl
  · rw [hlow j' hlt] at hp'
    cases hp'

theorem View.Restored.handleCount_eq (h : m.view.Restored n.view) (f : FileId) : n.handleCount f = m.handleCount f :=
  handleCount_congr (fun s g => by simp only [View.Holds, View.regions, h.page, h.book]) f

theorem map_cases (h : m.Sound) (hs : (m.view.book s).isSome) (addr len : Nat) (wr : Bool) (hd : Handle)
    (offset : Nat) :
    ((Call.map s addr len wr hd offset).turn m).answer = .ok (.address addr) ∧
        Mappable addr len offset (m.file hd.file) ∧
        Maps m ((Call.map s addr len wr hd offset).turn m).after s addr len wr ⟨hd.file, m.nextHandle⟩ offset ∨
      m.view.Restored ((Call.map s addr len wr hd offset).turn m).after.view ∧
        ((Mappable addr len offset (m.file hd.file) ∧ ∃ va, m.view.Collides s addr (pagesFor len) va ∧
            ((Call.map s addr len wr hd offset).turn m).answer = .error (.error (.pageExists va))) ∨
          ¬ Mappable addr len offset (m.file hd.file) ∧
            ((Call.map s addr len wr hd offset).turn m).answer = .error (.error (.badAddress addr))) := by
  rw [mappable_iff]
  refine Call.turn_cases (c := .map s addr len wr hd offset) (m := m) (fun t =>
    t.answer = .ok (.address addr) ∧ (Vm.isMappable addr len offset = true ∧ (m.file hd.file).length ≠ 0) ∧
        Maps m t.after s addr len wr ⟨hd.file, m.nextHandle⟩ offset ∨
      m.view.Restored t.after.view ∧
        (((Vm.isMappable addr len offset = true ∧ (m.file hd.file).length ≠ 0) ∧
          ∃ va, m.view.Collides s addr (pagesFor len) va ∧ t.answer = .error (.error (.pageExists va))) ∨
        ¬ (Vm.isMappable addr len offset = true ∧ (m.file hd.file).length ≠ 0) ∧
          t.answer = .error (.error (.badAddress addr))))
    ((Vm.yields_addMapping h hs addr len wr hd offset).bind ?_ ?_)
  · rintro _ n ⟨rfl, hok, -, hmapped, -, hothers, -, hlong, hunmoved, hbook⟩
    exact yields_pure.2 (.inl ⟨rfl, ⟨hok, hlong⟩, hmapped.part, hothers, hbook, hunmoved⟩)
  · intro e n hn
    obtain ⟨err, rfl, -, -, hback, hwhy⟩ := hn.error
    refine .inr ⟨hback, ?_⟩
    split at hwhy
    · obtain ⟨va, rfl, hva⟩ := hwhy
      exact .inl ⟨‹_›, va, hva, rfl⟩
    · exact .inr ⟨‹_›, by rw [hwhy]⟩

/-- A mapping is made exactly if all that is asked of it holds and no page of its range is registered; if only the
last fails, the lowest registered page is named, and otherwise the address that was asked for. A mapping that is
made has registered its pages and its region, and taken nothing; one that is not has changed nothing. -/
theorem Runs.map_exact (h : Runs hw (t :: l) m) (hcall : t.call = .map s addr len wr hd offset) :
    (t.answer = .ok (.address addr) ↔ Mappable addr len offset (t.before.file hd.file) ∧
        ∀ i < pagesFor len, t.before.page? ⟨s, addr + i * pageSize⟩ = none) ∧
      (∀ va, t.answer = .error (.error (.pageExists va)) ↔
        Mappable addr len offset (t.before.file hd.file) ∧ t.before.view.Collides s addr (pagesFor len) va) ∧
      (t.answer = .error (.error (.badAddress addr)) ↔ ¬ Mappable addr len offset (t.before.file hd.file)) ∧
      (t.answer = .ok (.address addr) → Maps t.before m s addr len wr ⟨hd.file, t.before.nextHandle⟩ offset) ∧
      (t.answer ≠ .ok (.address addr) →
        t.before.view.Restored m.view ∧ ∀ f, m.handleCount f = t.before.handleCount f) := by
  obtain ⟨n, rfl, rfl, hn, hlive⟩ := h.last hcall
  rw [before_turn]
  have hcases := map_cases hn.sound (hlive s (List.mem_singleton_self s)) addr len wr hd offset
  generalize ((Call.map s addr len wr hd offset).turn n).answer = answer at hcases ⊢
  rcases hcases with ⟨rfl, hok, hmaps⟩ | ⟨hback, ⟨hok, va, hva, rfl⟩ | ⟨hbad, rfl⟩⟩
  · have hvacant (i : Nat) (hi : i < pagesFor len) : n.page? ⟨s, addr + i * pageSize⟩ = none := (hmaps.part i hi).1
    refine ⟨iff_of_true rfl ⟨hok, hvacant⟩, fun va => iff_of_false nofun ?_, iff_of_false nofun (not_not.2 hok),
      fun _ => hmaps, fun hne => absurd rfl hne⟩
    rintro ⟨-, i, hi, rfl, hp, -⟩
    rw [show n.view.page ⟨s, addr + i * pageSize⟩ = none from hvacant i hi] at hp
    cases hp
  · refine ⟨iff_of_false nofun ?_, fun va' => ⟨?_, ?_⟩, iff_of_false nofun (not_not.2 hok), nofun,
      fun _ => ⟨hback, hback.handleCount_eq⟩⟩
    · rintro ⟨-, hvacant⟩
      obtain ⟨i, hi, rfl, hp, -⟩ := hva
      rw [show n.view.page ⟨s, addr + i * pageSize⟩ = none from hvacant i hi] at hp
      cases hp
    · rintro ⟨⟩
      exact ⟨hok, hva⟩
    · rintro ⟨-, hva'⟩
      rw [hva.unique hva']
  · exact ⟨iff_of_false nofun fun hok => hbad hok.1, fun va => iff_of_false nofun fun hok => hbad hok.1,
      iff_of_true rfl hbad, nofun, fun _ => ⟨hback, hback.handleCount_eq⟩⟩

def registerSecond : List Call :=
  [.register ⟨1⟩ 0x2000 true .anon none, .newFile #[1, 2, 3], .newSpace]

def mapOverSecond : Turn :=
  (Call.map ⟨1⟩ 0x1000 0x1001 true ⟨⟨0⟩, 0⟩ 0).turn (Hardware.small.machine registerSecond)

/-- The page in the way is named, and the first page of the mapping is gone again. -/
theorem map_exact_over_second :
    mapOverSecond.answer = .error (.error (.pageExists 0x2000)) ∧
      mapOverSecond.after.page? ⟨⟨1⟩, 0x1000⟩ = none ∧ mapOverSecond.after.handleCount ⟨0⟩ = 1 := by
  have hrun : Runs .small (mapOverSecond :: Hardware.small.turns registerSecond) mapOverSecond.after :=
    Hardware.runs (l := .map ⟨1⟩ 0x1000 0x1001 true ⟨⟨0⟩, 0⟩ 0 :: registerSecond) .small (by decide +kernel)
  obtain ⟨-, hexists, -, -, hback⟩ := hrun.map_exact (call_turn ..)
  have hfirst : mapOverSecond.before.page? ⟨⟨1⟩, 0x1000⟩ = none :=
    Option.isNone_iff_eq_none.1 (by decide +kernel)
  have hsecond : (mapOverSecond.before.page? ⟨⟨1⟩, 0x2000⟩).isSome = true := by decide +kernel
  have hanswer : mapOverSecond.answer = .error (.error (.pageExists 0x2000)) := by
    refine (hexists _).2 ⟨⟨by decide, by decide, by decide, by decide, by decide, by decide, by decide +kernel⟩,
      1, by decide, rfl, hsecond, fun k hk => ?_⟩
    obtain rfl : k = 0 := by omega
    exact hfirst
  obtain ⟨hrestored, hcount⟩ := hback (by rw [hanswer]; nofun)
  refine ⟨hanswer, (congrFun hrestored.page ⟨⟨1⟩, 0x1000⟩).trans hfirst, ?_⟩
  rw [hcount]
  decide +kernel

end DemandPaging
