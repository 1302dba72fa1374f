import DemandPaging.Mapping
import DemandPaging.Segment
import DemandPaging.Proofs.Faulting
import DemandPaging.Proofs.Lasting

namespace DemandPaging

open Function (update)
open Step Machine

variable {m n u : Machine} {s : SpaceId} {sp : Space} {va addr : Addr} {p : Page} {r : PageRef} {a : Act}
  {v w : View} {new : Addr → Page → Prop} {undone : Addr → Prop}

def mappingBacking (h : Handle) (offset fileLen len i : Nat) : Backing :=
  ⟨h, offset + i * pageSize, min (min (fileLen - (offset + i * pageSize)) (len - i * pageSize)) pageSize⟩

def mappingPage (writable : Bool) (h : Handle) (offset fileLen len i : Nat) : Page :=
  .lazy writable (.file (mappingBacking h offset fileLen len i))
    (some (.segment (mappingBacking h offset fileLen len i)))

def segmentPage (writable : Bool) (h : Handle) (offset readBytes i : Nat) : Page :=
  .lazy writable .anon (some (.segment ⟨h, offset + i * pageSize, min (readBytes - i * pageSize) pageSize⟩))

def IsPart (addr : Nat) (part : Nat → Page) (va : Addr) (p : Page) : Prop :=
  ∃ j, va = addr + j * pageSize ∧ p = part j

namespace View

/-- Nothing is moved: no frame, slot or mapping was taken or given back, and no byte of them is another one. -/
structure Unmoved (v w : View) : Prop where
  entry : w.entry = v.entry
  owner : w.owner = v.owner
  status : w.status = v.status
  bytes : w.bytes = v.bytes
  clock : w.clock = v.clock
  used : w.used = v.used
  kept : w.kept = v.kept

structure Restored (v w : View) : Prop extends v.Unmoved w where
  page : w.page = v.page
  book : w.book = v.book

theorem Unmoved.trans {z : View} (h : v.Unmoved w) (k : w.Unmoved z) : v.Unmoved z where
  entry := k.entry.trans h.entry
  owner := k.owner.trans h.owner
  status := k.status.trans h.status
  bytes := k.bytes.trans h.bytes
  clock := k.clock.trans h.clock
  used := k.used.trans h.used
  kept := k.kept.trans h.kept

theorem Restored.trans {z : View} (h : v.Restored w) (k : w.Restored z) : v.Restored z :=
  ⟨h.toUnmoved.trans k.toUnmoved, k.page.trans h.page, k.book.trans h.book⟩

theorem Restored.refl (v : View) : v.Restored v := ⟨⟨rfl, rfl, rfl, rfl, rfl, rfl, rfl⟩, rfl, rfl⟩

def Collides (v : View) (s : SpaceId) (addr n va : Nat) : Prop :=
  ∃ j < n, va = addr + j * pageSize ∧ (v.page ⟨s, va⟩).isSome ∧ ∀ k < j, v.page ⟨s, addr + k * pageSize⟩ = none

def Bars (v : View) (s : SpaceId) (va : Addr) (e : PagingError) : Prop :=
  isKernel va = true ∧ e = .badAddress va ∨
    isKernel va = false ∧ (v.page ⟨s, pageBase va⟩).isSome ∧ e = .pageExists (pageBase va)

theorem Bars.of_user {e : PagingError} (h : v.Bars s va e) (huser : isKernel va = false) :
    e = .pageExists (pageBase va) ∧ (v.page ⟨s, pageBase va⟩).isSome := by
  rcases h with ⟨hk, -⟩ | ⟨-, hp, he⟩
  · rw [huser] at hk
    cases hk
  · exact ⟨he, hp⟩

end View

/-- The first `j` parts of a layout are registered: they were not there before and are untouched. All else is as it
was. -/
structure Laid (v w : View) (s : SpaceId) (addr : Nat) (part : Nat → Page) (j : Nat) : Prop where
  file : w.file = v.file
  book : w.book = v.book
  unmoved : v.Unmoved w
  others : ∀ r, (∀ k < j, r ≠ ⟨s, pageBase (addr + k * pageSize)⟩) → w.page r = v.page r
  part : ∀ k < j, v.page ⟨s, pageBase (addr + k * pageSize)⟩ = none ∧
    w.page ⟨s, pageBase (addr + k * pageSize)⟩ = some (part k)

theorem Laid.nil (v : View) (s : SpaceId) (addr : Nat) (part : Nat → Page) :
    Laid v v s addr part 0 :=
  ⟨rfl, rfl, (View.Restored.refl v).toUnmoved, fun _ _ => rfl, nofun⟩

theorem Laid.snoc {j : Nat} {part : Nat → Page} {addr : Nat} {log : Array Event}
    (h : Laid v w s addr part j) (hv : View.Path (Act.Makes v s new undone) v w)
    (hnone : w.page ⟨s, pageBase (addr + j * pageSize)⟩ = none) {z : View} (hz : z = { w with
      page := update w.page ⟨s, pageBase (addr + j * pageSize)⟩ (some (part j))
      log := log }) :
    Laid v z s addr part (j + 1) := by
  subst hz
  refine ⟨h.file, h.book, h.unmoved.trans ⟨rfl, rfl, rfl, rfl, rfl, rfl, rfl⟩, fun r hr => ?_, fun k hk => ?_⟩
  · exact (Function.update_of_ne (hr j (Nat.lt_succ_self j)) ..).trans
      (h.others r fun k hk => hr k (Nat.lt_succ_of_lt hk))
  rcases Nat.lt_succ_iff_lt_or_eq.1 hk with hlt | rfl
  · obtain ⟨hv, hw⟩ := h.part k hlt
    refine ⟨hv, ?_⟩
    dsimp only
    rw [Function.update_of_ne, hw]
    intro heq
    rw [heq, hnone] at hw
    cases hw
  · exact ⟨hv.makes_absent hnone, Function.update_self ..⟩

theorem Laid.tell {j : Nat} {part : Nat → Page} {addr : Nat} {log : Array Event} (h : Laid v w s addr part j) :
    Laid v { w with log := log } s addr part j :=
  ⟨h.file, h.book, h.unmoved.trans ⟨rfl, rfl, rfl, rfl, rfl, rfl, rfl⟩, h.others, h.part⟩

theorem Laid.next {j : Nat} {part : Nat → Page} {addr : Nat} (h : Laid v w s addr part j)
    (ha : isPageAligned addr = true) : w.page ⟨s, pageBase (addr + j * pageSize)⟩ =
      v.page ⟨s, pageBase (addr + j * pageSize)⟩ := by
  refine h.others _ fun k hk heq => ?_
  rw [pageBase_of_aligned (aligned_add ha j), pageBase_of_aligned (aligned_add ha k), PageRef.mk.injEq] at heq
  exact Nat.ne_of_gt hk (Nat.eq_of_mul_eq_mul_right (by decide) (Nat.add_left_cancel heq.2))

/-- Taking away what was laid, as long as it is untouched, gives back what there was before. -/
theorem Laid.takenBack {j : Nat} {part : Nat → Page} {addr : Nat} {z : View} (h : Laid v w s addr part j)
    (hpart : ∀ k, (part k).frame = none ∧ (part k).slot? = none)
    (hv : v.Coherent) (hz : z.Coherent) (hbook : z.book = w.book)
    (hlost : w.Loses (fun r => ∃ va ∈ Vm.pagesFrom addr j, r = ⟨s, pageBase va⟩) z)
    (hfrees : w.Frees ((Vm.pagesFrom addr j).map fun va => ⟨s, pageBase va⟩) z) : v.Restored z := by
  have hgone {r : PageRef} (hr : ∃ va ∈ Vm.pagesFrom addr j, r = ⟨s, pageBase va⟩) :
      ∃ k < j, r = ⟨s, pageBase (addr + k * pageSize)⟩ := by
    obtain ⟨va, hva, rfl⟩ := hr
    obtain ⟨k, hk, rfl⟩ := List.mem_map.1 hva
    exact ⟨k, List.mem_range.1 hk, rfl⟩
  have hplaces (r : PageRef) (hr : r ∈ (Vm.pagesFrom addr j).map fun va => (⟨s, pageBase va⟩ : PageRef)) :
      w.frame? r = none ∧ w.slot? r = none := by
    obtain ⟨va, hva, rfl⟩ := List.mem_map.1 hr
    obtain ⟨k, hk, heq⟩ := hgone ⟨va, hva, rfl⟩
    rw [View.frame?, View.slot?, heq, (h.part k hk).2]
    exact hpart k
  have hframes : w.framesOf ((Vm.pagesFrom addr j).map fun va => ⟨s, pageBase va⟩) = [] :=
    List.filterMap_eq_nil_iff.2 fun r hr => (hplaces r hr).1
  have hslots : w.slotsOf ((Vm.pagesFrom addr j).map fun va => ⟨s, pageBase va⟩) = [] :=
    List.filterMap_eq_nil_iff.2 fun r hr => (hplaces r hr).2
  have hpage : z.page = v.page := by
    funext r
    by_cases hr : ∃ va ∈ Vm.pagesFrom addr j, r = ⟨s, pageBase va⟩
    · rw [hlost.absent r hr]
      obtain ⟨k, hk, rfl⟩ := hgone hr
      exact (h.part k hk).1.symm
    · rw [hlost.page r hr]
      exact h.others r fun k hk heq => hr ⟨_, List.mem_map.2 ⟨k, List.mem_range.2 hk, rfl⟩, heq⟩
  have hentry : z.entry = w.entry := by
    funext r
    by_cases hr : ∃ va ∈ Vm.pagesFrom addr j, r = ⟨s, pageBase va⟩
    swap
    · exact hlost.entry r hr
    obtain ⟨k, hk, rfl⟩ := hgone hr
    have hnone {x : View} (hx : x.Coherent) (hp : x.page ⟨s, pageBase (addr + k * pageSize)⟩ = none) :
        x.entry ⟨s, pageBase (addr + k * pageSize)⟩ = none := by
      have hmap := hx.mapped ⟨s, pageBase (addr + k * pageSize)⟩
      rwa [hp, Option.bind_none, Option.map_eq_none_iff] at hmap
    rw [hnone hz (hlost.absent _ hr), h.unmoved.entry, hnone hv (h.part k hk).1]
  refine ⟨h.unmoved.trans ⟨hentry, ?_, ?_, hlost.bytes, ?_, ?_, hlost.kept⟩, hpage, hbook.trans h.book⟩
  · funext f
    simp [hfrees.owner, hframes]
  · funext f
    simp [hfrees.status, hframes]
  · simp [hfrees.clock, hframes]
  · funext k
    simp [hfrees.used, hslots]

theorem nodup_pagesFrom (ha : isPageAligned addr = true) (j : Nat) : ((Vm.pagesFrom addr j).map pageBase).Nodup := by
  rw [Vm.pagesFrom, List.map_map]
  refine List.nodup_range.map_on fun i _ k _ heq => ?_
  simp only [Function.comp_apply] at heq
  rw [pageBase_of_aligned (aligned_add ha i), pageBase_of_aligned (aligned_add ha k)] at heq
  exact Nat.eq_of_mul_eq_mul_right (by decide) (Nat.add_left_cancel heq)

theorem aligned_of_isMappable {addr len offset : Nat} (h : Vm.isMappable addr len offset = true) :
    isPageAligned addr = true := by
  simp only [Vm.isMappable, Bool.and_eq_true] at h
  exact h.1.1.1.1.1.1.2

theorem pagesFor_pos {addr len offset : Nat} (h : Vm.isMappable addr len offset = true) : 0 < pagesFor len := by
  simp only [Vm.isMappable, Bool.and_eq_true, decide_eq_true_eq] at h
  have hlen := h.1.1.1.1.1.2
  unfold pagesFor
  rw [pageSize_eq]
  omega

/-- Whatever page of a mapping is asked for, its address and its place in the file are words, and the
mapping begins no later. -/
theorem words_of_isMappable {addr len offset i : Nat} (h : Vm.isMappable addr len offset = true)
    (hi : i < pagesFor len) :
    addr + i * pageSize < wordLimit ∧ offset + i * pageSize < wordLimit ∧ i * pageSize ≤ len := by
  simp only [Vm.isMappable, Bool.and_eq_true, decide_eq_true_eq] at h
  have hlast := h.1.1.2
  have hoffset := h.2
  have hmul : (i + 1) * pageSize ≤ pagesFor len * pageSize := Nat.mul_le_mul_right _ hi
  rw [Nat.add_mul, Nat.one_mul] at hmul
  unfold pagesFor at hmul hlast hoffset
  rw [pageSize_eq] at hmul hlast hoffset ⊢
  omega

theorem user_of_isMappable {addr len offset i : Nat} (h : Vm.isMappable addr len offset = true)
    (hi : i < pagesFor len) : isKernel (addr + i * pageSize) = false := by
  simp only [Vm.isMappable, Bool.and_eq_true, Bool.not_eq_true'] at h
  have hlast := isKernel_eq_false_iff.1 h.1.2
  have hmul : (i + 1) * pageSize ≤ pagesFor len * pageSize := Nat.mul_le_mul_right _ hi
  have hpos : 0 < pageSize := by decide
  rw [Nat.add_mul, Nat.one_mul] at hmul
  rw [isKernel_eq_false_iff]
  omega

theorem last_page_lt {addr len offset : Nat} (h : Vm.isMappable addr len offset = true) :
    addr + (pagesFor len - 1) * pageSize < wordLimit :=
  (words_of_isMappable h (Nat.sub_lt (pagesFor_pos h) Nat.one_pos)).1

namespace Vm

/-- A page that is not registered is the kernel's, or there is one already: then this is said, and nothing
changes but the log. -/
theorem yields_register_refused (hs : m.space? s = some sp) (va : Addr) (w : Bool) (purpose : Purpose)
    (filling : Option Filling) :
    Yields (register s va w purpose filling) m (fun _ _ => True) fun e n =>
      isKernel va = true ∧ e = .error (.badAddress va) ∧ n = m ∨
        isKernel va = false ∧ (m.view.page ⟨s, pageBase va⟩).isSome ∧ e = .error (.pageExists (pageBase va)) ∧
          n = m.tell (.pageAdded s purpose (pageBase va)) := by
  unfold register
  split
  · exact yields_fail.2 (.inl ⟨‹_›, rfl, rfl⟩)
  · rename_i hu
    rw [yields_bind, yields_emit, yields_bind, yields_space (m := m.tell _) hs]
    refine yields_bind.2 (yields_ofError.2 ?_)
    unfold Space.addPage
    split
    · exact yields_modifySpace.2 trivial
    · rename_i e he
      split at he
      · rename_i hc
        cases he
        refine .inr ⟨by simpa using hu, ?_, rfl, rfl⟩
        rwa [page_eq hs, ← Std.ExtTreeMap.contains_eq_isSome_getElem?]
      · cases he

theorem yields_registerPart (h : n.Sound) (hs : (n.view.book s).isSome) (va : Addr) (w : Bool) (purpose : Purpose)
    (filling : Option Filling) :
    Yields (register s va w purpose filling) n
      (fun _ u => isKernel va = false ∧ n.view.page ⟨s, pageBase va⟩ = none ∧
        n.Leads (Act.Adds ⟨s, pageBase va⟩ (.lazy w purpose filling)) u ∧ u.view = { n.view with
          page := update n.view.page ⟨s, pageBase va⟩ (some (.lazy w purpose filling))
          log := n.view.log.push (.pageAdded s purpose (pageBase va)) })
      (Failing fun e u => n.Leads Act.Quiet u ∧ e.isMissing = false ∧ (∃ log, u.view = { n.view with log := log }) ∧
        n.view.Bars s va e) := by
  obtain ⟨sp, hsp⟩ := space?_of_book hs
  refine ((yields_register h hs va w purpose filling).and (yields_register_refused hsp va w purpose filling)).mono ?_ ?_
  · exact fun _ u hu => hu.1
  · rintro e u ⟨hu, hwhy⟩
    obtain ⟨err, rfl, hleads, -, hmiss, -⟩ := hu.error
    refine ⟨hleads, hmiss, ?_⟩
    rcases hwhy with ⟨hk, he, rfl⟩ | ⟨huser, hp, he, rfl⟩
    · exact ⟨⟨_, rfl⟩, .inl ⟨hk, Stop.error.inj he⟩⟩
    · exact ⟨⟨_, rfl⟩, .inr ⟨huser, hp, Stop.error.inj he⟩⟩

/-- Registering goes no further than the kernel, so the addresses of a segment are words if the first
one is. It stops at the first page that cannot be registered, and leaves the pages before it. -/
theorem yields_segmentPages (hm : m.Sound) (hs : (m.view.book s).isSome) (hd : Handle)
    (offset addr readBytes : Nat) (w : Bool) (k i : Nat) (h : m.Makes s new n)
    (hlaid : Laid m.view n.view s addr (segmentPage w hd offset readBytes) i)
    (hnew : ∀ j < i + k, new (pageBase (addr + j * pageSize)) (segmentPage w hd offset readBytes j))
    (hoffset : offset + (i + k) * pageSize < wordLimit) (haddr : 0 < k → addr + i * pageSize < wordLimit)
    (ha : isPageAligned addr = true) (huser : ∀ j < i, isKernel (addr + j * pageSize) = false) :
    Yields (segmentPages s hd offset addr w k i (readBytes - i * pageSize)) n
      (fun _ u => m.Makes s new u ∧ Laid m.view u.view s addr (segmentPage w hd offset readBytes) (i + k) ∧
        ∀ j < i + k, isKernel (addr + j * pageSize) = false)
      (Failing fun e u => m.Falters s new u ∧ e.isMissing = false ∧ ∃ j < i + k,
        Laid m.view u.view s addr (segmentPage w hd offset readBytes) j ∧
          (∀ a < j, isKernel (addr + a * pageSize) = false) ∧ m.view.Bars s (addr + j * pageSize) e) := by
  induction k generalizing n i with
  | zero => exact yields_pure.2 ⟨h, hlaid, huser⟩
  | succ k ih =>
      have hnext : offset + (i + 1 + k) * pageSize < wordLimit := by
        rwa [show i + 1 + k = i + (k + 1) by omega]
      have hstart : offset + i * pageSize < wordLimit :=
        Nat.lt_of_le_of_lt (Nat.add_le_add_left (Nat.mul_le_mul_right _ (Nat.le_add_right ..)) _) hoffset
      unfold segmentPages
      dsimp only
      rw [yields_bind, yields_word, if_pos hstart, yields_bind, yields_word, if_pos (haddr (Nat.succ_pos k))]
      refine (yields_registerPart (h.sound hm) (h.live hs) _ w _ _).bind ?_ ?_
      · rintro _ u ⟨hlow, hnone, hu, hv⟩
        have hadd : n.Makes s new u := hu.makes fun _ ha => ha.makes hnone (hnew i (by omega))
        have hleft : readBytes - i * pageSize - min (readBytes - i * pageSize) pageSize =
            readBytes - (i + 1) * pageSize := by
          rw [Nat.add_mul]
          omega
        rw [hleft, show i + (k + 1) = i + 1 + k by omega]
        refine ih (i + 1) (h.trans hadd) (hlaid.snoc h.path hnone hv) (fun j hj => hnew j (by omega)) hnext
          (fun _ => ?_) fun j hj => ?_
        · rw [Nat.add_mul, Nat.one_mul, ← Nat.add_assoc]
          exact add_pageSize_lt hlow
        · rcases Nat.lt_succ_iff_lt_or_eq.1 hj with hlt | rfl
          · exact huser j hlt
          · exact hlow
      · refine fun e u hu => hu.mono ?_
        rintro e ⟨hu, hmiss, ⟨log, hlog⟩, hwhy⟩
        refine ⟨(h.trans (hu.makes fun _ ha => ha.makes)).falters, hmiss, i, by omega, ?_, huser, ?_⟩
        · rw [hlog]
          exact hlaid.tell
        · rwa [View.Bars, hlaid.next ha] at hwhy

theorem yields_addSegment_loadable (h : m.Sound) (hs : (m.view.book s).isSome) (hd : Handle)
    {offset addr readBytes zeroBytes : Nat} (w : Bool) (hok : isLoadable offset addr (readBytes + zeroBytes) = true)
    (haddr : addr < wordLimit) :
    Yields (addSegment s hd offset addr readBytes zeroBytes w) m
      (fun _ n => m.Makes s (IsPart addr (segmentPage w hd offset readBytes)) n ∧
        Laid m.view n.view s addr (segmentPage w hd offset readBytes) ((readBytes + zeroBytes) / pageSize) ∧
        ∀ j < (readBytes + zeroBytes) / pageSize, isKernel (addr + j * pageSize) = false)
      (Failing fun e n => m.Falters s (IsPart addr (segmentPage w hd offset readBytes)) n ∧ e.isMissing = false ∧
        ∃ j < (readBytes + zeroBytes) / pageSize, Laid m.view n.view s addr (segmentPage w hd offset readBytes) j ∧
          (∀ a < j, isKernel (addr + a * pageSize) = false) ∧ m.view.Bars s (addr + j * pageSize) e) := by
  unfold addSegment
  dsimp only
  rw [if_pos hok]
  simp only [isLoadable, Bool.and_eq_true, decide_eq_true_eq] at hok
  have hpages : offset + (0 + (readBytes + zeroBytes) / pageSize) * pageSize < wordLimit := by
    rw [Nat.zero_add]
    exact Nat.lt_of_le_of_lt (Nat.add_le_add_left (Nat.div_mul_le_self ..) _) hok.2
  have ha : isPageAligned addr = true := hok.1.1.1.2
  have hnone : m.Makes s (IsPart addr (segmentPage w hd offset readBytes)) m := .refl h.consistent
  have hsegment := yields_segmentPages h hs hd offset addr readBytes w ((readBytes + zeroBytes) / pageSize) 0 hnone
    (.nil ..) (fun j _ => ⟨j, pageBase_of_aligned (aligned_add ha j), rfl⟩) hpages (fun _ => by omega) ha nofun
  rw [Nat.zero_add] at hsegment
  refine yields_bind.2 (hsegment.mono ?_ fun _ _ => id)
  rintro _ n ⟨hn, hlaid, huser⟩
  exact yields_emit.2 ⟨hn.tell _, hlaid.tell, huser⟩

theorem yields_addSegment (h : m.Sound) (hs : (m.view.book s).isSome) (hd : Handle)
    (offset addr readBytes zeroBytes : Nat) (w : Bool) :
    Yields (addSegment s hd offset addr readBytes zeroBytes w) m
      (fun _ n => m.Makes s (IsPart addr (segmentPage w hd offset readBytes)) n)
      fun e n => m.Falters s (IsPart addr (segmentPage w hd offset readBytes)) n ∧ e.isMissing = false ∧
        e ≠ .loop ∧ (addr < wordLimit → ∃ err, e = .error err) := by
  by_cases hok : isLoadable offset addr (readBytes + zeroBytes) = true
  swap
  · unfold addSegment
    dsimp only
    rw [if_neg hok]
    exact ⟨(Makes.refl h.consistent).falters, rfl, nofun, fun _ => ⟨_, rfl⟩⟩
  by_cases haddr : addr < wordLimit
  · refine (yields_addSegment_loadable h hs hd w hok haddr).mono (fun _ _ hn => hn.1) fun e n hn => ?_
    obtain ⟨err, rfl, hn, hmiss, -⟩ := hn.error
    exact ⟨hn, hmiss, nofun, fun _ => ⟨err, rfl⟩⟩
  · unfold addSegment
    dsimp only
    rw [if_pos hok]
    simp only [isLoadable, Bool.and_eq_true, decide_eq_true_eq] at hok
    cases hk : (readBytes + zeroBytes) / pageSize with
    | zero => exact yields_bind.2 (yields_pure.2 (yields_emit.2 ((Makes.refl h.consistent).tell _)))
    | succ k =>
        have hfirst : offset + 0 * pageSize < wordLimit := by omega
        unfold segmentPages
        dsimp only
        rw [yields_bind, yields_bind, yields_word, if_pos hfirst, yields_bind, yields_word,
          if_neg (by omega)]
        exact ⟨(Makes.refl h.consistent).falters, rfl, nofun, fun hlt => absurd hlt haddr⟩

/-- A mapping has all its pages, or leaves none of them behind. -/
theorem yields_mapPages (hm : m.Sound) (hs : (m.view.book s).isSome) (addr len : Nat) (w : Bool)
    (hd : Handle) (offset fileLen k i : Nat) (h : m.Makes s new n)
    (hlaid : Laid m.view n.view s addr (mappingPage w hd offset fileLen len) i)
    (hnew : ∀ j < i + k, new (pageBase (addr + j * pageSize)) (mappingPage w hd offset fileLen len j))
    (hok : isMappable addr len offset = true) (hik : i + k = pagesFor len) :
    Yields (mapPages s addr len w hd offset fileLen k i) n
      (fun _ u => m.Makes s new u ∧
        Laid m.view u.view s addr (mappingPage w hd offset fileLen len) (i + k))
      (Failing fun e u => m.Falters s new u ∧ e.isMissing = false ∧ m.view.Restored u.view ∧
        ∃ va, e = .pageExists va ∧ m.view.Collides s addr (pagesFor len) va) := by
  have ha := aligned_of_isMappable hok
  induction k generalizing n i with
  | zero => exact yields_pure.2 ⟨h, hlaid⟩
  | succ k ih =>
      obtain ⟨hva, hstart, hleft⟩ := words_of_isMappable hok (show i < pagesFor len by omega)
      unfold mapPages
      rw [yields_bind, yields_word, if_pos hva, yields_bind, yields_word, if_pos hstart, yields_bind,
        yields_minus, if_pos hleft]
      dsimp only
      refine yields_bind.2 ((yields_registerPart (h.sound hm) (h.live hs) _ w _ _).attempt ?_ ?_)
      · rintro _ u ⟨-, hnone, hu, hv⟩
        have hadd : n.Makes s new u := hu.makes fun _ ha => ha.makes hnone (hnew i (by omega))
        rw [show i + (k + 1) = i + 1 + k by omega]
        exact ih (i + 1) (h.trans hadd) (hlaid.snoc h.path hnone hv) (fun j hj => hnew j (by omega)) (by omega)
      · rintro e u ⟨hu, hmiss, ⟨log, hlog⟩, hwhy⟩
        obtain ⟨rfl, htaken⟩ := hwhy.of_user (user_of_isMappable hok (by omega))
        have hfailed : m.Makes s new u := h.trans (hu.makes fun _ ha => ha.makes)
        refine yields_bind.2 ((yields_removeAll (hfailed.sound hm) (hfailed.live hs) _ _).mono ?_
          fun _ _ => False.elim)
        rintro _ z ⟨hz, hgone, hfrees⟩
        refine yields_fail.2 ⟨Leads.trans (Leads.mono hfailed fun _ ha => ha.mono fun _ => False.elim)
          (hz.mono ?_), hmiss, ?_, _, rfl, ?_⟩
        · rintro a (ha | ⟨b, hb, saved, rfl, -⟩)
          · exact ha.makes
          · obtain ⟨j, hj, rfl⟩ := List.mem_map.1 hb
            exact ⟨rfl, (hlaid.part j (List.mem_range.1 hj)).1, hgone.absent _ ⟨_, hb, rfl⟩⟩
        · have hlaidu : Laid m.view u.view s addr (mappingPage w hd offset fileLen len) i := by
            rw [hlog]
            exact hlaid.tell
          exact hlaidu.takenBack (fun _ => ⟨rfl, rfl⟩) hm.coherent (hz.sound (hfailed.sound hm)).coherent
            hz.path.clears_book hgone (hfrees (nodup_pagesFrom ha i))
        · rw [pageBase_of_aligned (aligned_add ha i)] at htaken ⊢
          refine ⟨i, by omega, rfl, ?_, fun j hj => ?_⟩
          · have hnext := hlaid.next ha
            rw [pageBase_of_aligned (aligned_add ha i)] at hnext
            rwa [← hnext]
          · rw [← pageBase_of_aligned (aligned_add ha j)]
            exact (hlaid.part j hj).1

theorem yields_fileLength (h : m.Consistent) (hd : Handle) :
    Yields (fileLength hd) m
      (fun k n => k = (m.view.fileAt hd.file).length ∧ n.Consistent ∧ n.nextHandle = m.nextHandle ∧
        n.view = { m.view with
          file := update m.view.file hd.file
            ((m.view.file hd.file).map fun F => { F with calls := F.calls + 1 }) })
      fun _ _ => False := by
  unfold fileLength
  refine yields_bind.2 (yields_get.2 (yields_bind.2 (yields_putFile.2 (yields_pure.2
    ⟨by rw [fileAt_view], h.withFile _ _, rfl, ?_⟩))))
  rw [view_withFile]
  cases hf : m.view.file hd.file with
  | none => rfl
  | some F => simp [← fileAt_view, View.fileAt, hf]

structure Asked (m n : Machine) : Prop where
  leads : m.Leads Act.Quiet n
  restored : m.view.Restored n.view
  bytes : ∀ id, (n.view.fileAt id).bytes = (m.view.fileAt id).bytes
  found : ∀ id, (n.view.file id).isSome = (m.view.file id).isSome

theorem asked_of_called {id : FileId} (hn : n.Consistent) (hv : n.view = { m.view with
    file := update m.view.file id ((m.view.file id).map fun F => { F with calls := F.calls + 1 }) }) : Asked m n := by
  refine ⟨⟨⟨hn, ?_⟩, fun g => by rw [hv]⟩, ?_, fun i => ?_, fun i => ?_⟩ <;> rw [hv]
  · exact (View.Step.called _).path rfl
  · exact ⟨⟨rfl, rfl, rfl, rfl, rfl, rfl, rfl⟩, rfl, rfl⟩
  · simp only [View.fileAt, Function.update_apply]
    split
    · rename_i hi
      rw [hi]
      cases m.view.file id <;> rfl
    · rfl
  · dsimp only
    rw [Function.update_apply]
    split
    · rename_i hi
      rw [hi, Option.isSome_map]
    · rfl

theorem Asked.numbered (h : Asked m n) (k : Nat) : Asked m { n with nextHandle := k } :=
  have hn := h.leads.consistent
  ⟨⟨⟨⟨hn.frames, hn.swap, hn.separate⟩, h.leads.path⟩, h.leads.pinned⟩, h.restored, h.bytes, h.found⟩

theorem yields_addRegion (h : n.Consistent) (hs : n.space? s = some sp) (addr : Addr) (hd : Handle) (k : Nat) :
    Yields (do
      modifySpace s fun sp => { sp with regions := sp.regions.insert addr ⟨hd, k⟩ }
      emit (.fileMapped s k addr)
      pure addr) n
      (fun a u => a = addr ∧ u.nextHandle = n.nextHandle ∧
        n.Leads (fun a => a.Quiet ∨ ∃ b, a = .booked s b ∧ b.regions = sp.regions.insert addr ⟨hd, k⟩) u ∧
        u.view = { n.view with
          book := update n.view.book s (some { sp.book with regions := sp.regions.insert addr ⟨hd, k⟩ })
          log := n.view.log.push (.fileMapped s k addr) }) fun _ _ => False := by
  obtain ⟨hbooked, hbook⟩ := booked h hs (g := fun sp => { sp with regions := sp.regions.insert addr ⟨hd, k⟩ })
    (fun _ => rfl) fun _ => rfl
  refine yields_bind.2 (yields_modifySpace.2 (yields_bind.2 (yields_emit.2 (yields_pure.2
    ⟨rfl, rfl, (hbooked.mono ?_).tell (.inl rfl) _, ?_⟩))))
  · rintro _ rfl
    exact .inr ⟨_, rfl, rfl⟩
  · rw [view_tell, hbook]
    rfl

end Vm

/-- A mapping of `len` bytes of a file was made: its pages are there, untouched, and so is its
region. Nothing was written to any file. -/
structure Mapped (v w : View) (s : SpaceId) (addr len : Nat) (writable : Bool) (hd : Handle)
    (offset : Nat) : Prop where
  file : (w.file hd.file).isSome
  bytes : ∀ id, (w.fileAt id).bytes = (v.fileAt id).bytes
  part : ∀ j < pagesFor len, v.page ⟨s, addr + j * pageSize⟩ = none ∧ w.page ⟨s, addr + j * pageSize⟩ =
    some (mappingPage writable hd offset (v.fileAt hd.file).length len j)
  region : (w.regions s)[addr]? = some ⟨hd, pagesFor len⟩

namespace Vm

theorem yields_addMapping (h : m.Sound) (hs : (m.view.book s).isSome) (addr len : Nat) (w : Bool)
    (hd : Handle) (offset : Nat) :
    Yields (addMapping s addr len w hd offset) m
      (fun a n => a = addr ∧ isMappable addr len offset = true ∧
        (∃ u, m.Makes s (IsPart addr (mappingPage w ⟨hd.file, m.nextHandle⟩ offset
            (m.view.fileAt hd.file).length len)) u ∧
          u.Leads (fun a => a.Quiet ∨ ∃ b, a = .booked s b ∧ b.regions =
            (m.view.regions s).insert addr ⟨⟨hd.file, m.nextHandle⟩, pagesFor len⟩) n) ∧
        Mapped m.view n.view s addr len w ⟨hd.file, m.nextHandle⟩ offset ∧
        n.view.regions s = (m.view.regions s).insert addr ⟨⟨hd.file, m.nextHandle⟩, pagesFor len⟩ ∧
        (∀ r, (∀ j < pagesFor len, r ≠ ⟨s, addr + j * pageSize⟩) → n.view.page r = m.view.page r) ∧
        m.nextHandle < n.nextHandle ∧ (m.view.fileAt hd.file).length ≠ 0 ∧ m.view.Unmoved n.view ∧
        ∃ b, m.view.book s = some b ∧ n.view.book = update m.view.book s
          (some { b with regions := b.regions.insert addr ⟨⟨hd.file, m.nextHandle⟩, pagesFor len⟩ }))
      (Failing fun e n => m.Falters s (IsPart addr (mappingPage w ⟨hd.file, m.nextHandle⟩ offset
          (m.view.fileAt hd.file).length len)) n ∧ e.isMissing = false ∧ m.view.Restored n.view ∧
        if isMappable addr len offset = true ∧ (m.view.fileAt hd.file).length ≠ 0 then
          ∃ va, e = .pageExists va ∧ m.view.Collides s addr (pagesFor len) va
        else e = .badAddress addr) := by
  unfold addMapping
  split
  swap
  · exact yields_fail.2 ⟨(Makes.refl h.consistent).falters, rfl, .refl _, by rw [if_neg (fun hok => ‹¬ _› hok.1)]⟩
  rename_i hok
  have ha := aligned_of_isMappable hok
  refine (yields_fileLength h.consistent hd).bind ?_ fun _ _ => False.elim
  rintro k n ⟨hk, hn, hnext, hv⟩
  generalize hnew : IsPart addr (mappingPage w ⟨hd.file, m.nextHandle⟩ offset
    (m.view.fileAt hd.file).length len) = new
  have hasked : Asked m n := asked_of_called hn hv
  split
  · rename_i hempty
    refine yields_fail.2 ⟨Makes.falters (hasked.leads.makes fun a ha => ha.makes), rfl, hasked.restored, ?_⟩
    rw [if_neg (fun hlong => hlong.2 (hk.symm.trans hempty))]
  rename_i hlong
  have hfound : (m.view.file hd.file).isSome := by
    cases hf : m.view.file hd.file with
    | none => exact absurd (by rw [hk, View.fileAt, hf]; rfl) hlong
    | some F => rfl
  unfold duplicate
  rw [yields_bind, yields_modifyGet]
  dsimp only
  rw [hnext]
  have hopened := hasked.numbered (m.nextHandle + 1)
  have hnumbered : Numbered (m.nextHandle + 1) { n with nextHandle := m.nextHandle + 1 } := Nat.le_refl _
  generalize { n with nextHandle := m.nextHandle + 1 } = u at hopened hnumbered
  have hmakes : m.Makes s new u := hopened.leads.makes fun a ha => ha.makes
  have hsame := hopened.restored
  refine ((yields_mapPages (hmakes.sound h) (hmakes.live hs) addr len w
    ⟨hd.file, m.nextHandle⟩ offset k (pagesFor len) 0 (Makes.refl hmakes.consistent : u.Makes s new u) (.nil ..)
    (fun j _ => ?_) hok (Nat.zero_add _)).and
    (((lasting_whole (lasting_numbered (m.nextHandle + 1))).paged.mapPages s addr len w ⟨hd.file, m.nextHandle⟩
      offset k (pagesFor len) 0).yields u hnumbered)).bind ?_ ?_
  · rw [← hnew, hk]
    exact ⟨j, pageBase_of_aligned (aligned_add ha j), rfl⟩
  · rintro _ z ⟨⟨hz, hlaid⟩, hnumber⟩
    have hmade := hmakes.trans hz
    obtain ⟨sz, hsz⟩ := space?_of_book (hmade.live hs)
    have hbook : m.view.book s = some sz.book := by rw [← book_eq hsz, hlaid.book, hsame.book]
    have hregions : m.view.regions s = sz.regions := View.regions_eq hbook
    refine (yields_addRegion hmade.consistent hsz addr ⟨hd.file, m.nextHandle⟩ (pagesFor len)).mono ?_
      fun _ _ => False.elim
    rintro _ y ⟨rfl, hy, hleads, hview⟩
    rw [hregions, hy]
    refine ⟨rfl, hok, ⟨z, hmade, hleads⟩, ⟨?_, fun id => ?_, fun j hj => ?_, ?_⟩, ?_, fun r hr => ?_, hnumber,
      by rwa [← hk], ?_, sz.book, hbook, ?_⟩ <;> rw [hview]
    · dsimp only
      rw [hlaid.file, hopened.found]
      exact hfound
    · rw [← hopened.bytes, View.fileAt, View.fileAt, ← hlaid.file]
    · obtain ⟨hnone, hpart⟩ := hlaid.part j (by omega)
      rw [pageBase_of_aligned (aligned_add ha j)] at hnone hpart
      rw [← hk]
      exact ⟨by rw [← hsame.page, hnone], hpart⟩
    · simp [View.regions]
    · simp [View.regions]
    · rw [← hsame.page]
      refine hlaid.others r fun j hj => ?_
      rw [pageBase_of_aligned (aligned_add ha j)]
      exact hr j (by omega)
    · exact (hsame.toUnmoved.trans hlaid.unmoved).trans ⟨rfl, rfl, rfl, rfl, rfl, rfl, rfl⟩
    · dsimp only
      rw [hlaid.book, hsame.book]
      rfl
  · rintro e z ⟨hz, -⟩
    refine hz.mono ?_
    rintro e ⟨hz, hmiss, hback, va, he, hva⟩
    refine ⟨hmakes.falters_trans hz, hmiss, hsame.trans hback, ?_⟩
    rw [if_pos ⟨hok, by rwa [← hk]⟩]
    exact ⟨va, he, by simpa only [View.Collides, hsame.page] using hva⟩

end Vm

def View.InRegion (v : View) (s : SpaceId) (start : Addr) (r : PageRef) : Prop :=
  ∃ g j, (v.regions s)[start]? = some g ∧ j < g.pages ∧ r = ⟨s, start + j * pageSize⟩

def Act.Unmaps (v w : View) (s : SpaceId) (start : Addr) (a : Act) : Prop :=
  a.Quiet ∨ (∃ b, a = .booked s b ∧ b.regions = (v.regions s).erase start) ∨
    ∃ g j saved, (v.regions s)[start]? = some g ∧ j < g.pages ∧
      a = .removed ⟨s, start + j * pageSize⟩ saved ∧ w.page ⟨s, start + j * pageSize⟩ = none ∧
      (saved = false → ∃ e, v.Told w (.unmapFailed s (start + j * pageSize) e))

theorem View.inRegion_iff {v : View} {start : Addr} {g : Region} (hg : (v.regions s)[start]? = some g)
    (ha : isPageAligned start = true) (r : PageRef) :
    v.InRegion s start r ↔ ∃ va ∈ Vm.pagesFrom start g.pages, r = ⟨s, pageBase va⟩ := by
  constructor
  · rintro ⟨g', j, hg', hj, rfl⟩
    obtain rfl := Option.some.inj (hg.symm.trans hg')
    refine ⟨_, List.mem_map.2 ⟨j, List.mem_range.2 hj, rfl⟩, ?_⟩
    rw [pageBase_of_aligned (aligned_add ha j)]
  · rintro ⟨va, hva, rfl⟩
    obtain ⟨j, hj, rfl⟩ := List.mem_map.1 hva
    refine ⟨g, j, hg, List.mem_range.1 hj, ?_⟩
    rw [pageBase_of_aligned (aligned_add ha j)]

theorem erase_of_getElem?_eq_none {regions : Std.ExtTreeMap Addr Region} {start : Addr}
    (h : regions[start]? = none) : regions.erase start = regions := by
  refine Std.ExtTreeMap.ext_getElem? fun a => ?_
  rw [Std.ExtTreeMap.getElem?_erase]
  split
  · rename_i heq
    rw [← Std.LawfulEqCmp.eq_of_compare heq, h]
  · rfl

theorem Act.Clears.unmaps {v w : View} {start : Addr} {g : Region} {a : Act} {lost : Addr → Prop}
    (h : a.Clears s (Vm.pagesFrom start g.pages) lost) (hg : (v.regions s)[start]? = some g)
    (ha : isPageAligned start = true) (hgone : ∀ r, v.InRegion s start r → w.page r = none)
    (htold : ∀ va, lost va → ∃ e, v.Told w (.unmapFailed s va e)) : a.Unmaps v w s start := by
  rcases h with h | ⟨va, hva, saved, rfl, hlost⟩
  · exact .inl h
  · obtain ⟨j, hj, rfl⟩ := List.mem_map.1 hva
    rw [pageBase_of_aligned (aligned_add ha j)]
    have hj := List.mem_range.1 hj
    exact .inr (.inr ⟨g, j, saved, hg, hj, rfl, hgone _ ⟨g, j, hg, hj, rfl⟩,
      fun hsaved => htold _ (hlost hsaved)⟩)

namespace Vm

/-- Undoing a mapping removes the pages in its region and forgets the region. -/
theorem yields_removeMapping (h : m.Sound) (hs : (m.view.book s).isSome) (addr : Addr) :
    Yields (removeMapping s addr) m
      (fun _ n => m.Leads (Act.Unmaps m.view n.view s (pageBase addr)) n ∧
        m.view.Loses (m.view.InRegion s (pageBase addr)) n.view ∧
        n.view.book = update m.view.book s ((m.view.book s).map fun b =>
          { b with regions := b.regions.erase (pageBase addr) }) ∧
        ((m.view.regions s)[pageBase addr]? = none → n = m))
      fun e n => m.Leads (Act.Unmaps m.view n.view s (pageBase addr)) n ∧ e.isMissing = false ∧
        ∃ g, (m.view.regions s)[pageBase addr]? = some g ∧
          wordLimit ≤ pageBase addr + (g.pages - 1) * pageSize := by
  obtain ⟨sp, hsp⟩ := space?_of_book hs
  have ha := pageBase_aligned addr
  unfold removeMapping
  dsimp only
  generalize pageBase addr = start at ha
  rw [yields_bind, yields_space hsp]
  have hregions : m.view.regions s = sp.regions := by
    rw [View.regions, book_eq hsp]
    rfl
  rw [hregions]
  cases hr : sp.regions[start]? with
  | none =>
      refine yields_pure.2 ⟨.refl h.consistent, ⟨fun _ _ => rfl, ?_, fun _ _ => rfl, rfl, rfl⟩, ?_, fun _ => rfl⟩
      · rintro r ⟨g, j, hg, -, -⟩
        rw [hregions, hr] at hg
        cases hg
      · rw [book_eq hsp, Option.map_some]
        dsimp only [Space.book]
        rw [erase_of_getElem?_eq_none hr]
        exact (Function.update_eq_self_iff.2 (book_eq hsp).symm).symm
  | some g =>
      have hg : (m.view.regions s)[start]? = some g := by rw [hregions, hr]
      obtain ⟨hbooked, hv⟩ := booked h.consistent hsp
        (g := fun sp => { sp with regions := sp.regions.erase start }) (fun _ => rfl) fun _ => rfl
      have hforgot (w : View) : m.Leads (Act.Unmaps m.view w s start) _ :=
        hbooked.mono fun _ ha => .inr (.inl ⟨_, ha, by rw [hregions]; rfl⟩)
      rw [yields_bind, yields_modifySpace, yields_bind, yields_word]
      split
      swap
      · exact ⟨hforgot _, rfl, g, rfl, Nat.le_of_not_lt ‹_›⟩
      refine (yields_removeAll (hbooked.sound h) (hbooked.path.live (by simp) hs) _ _).bind ?_
        fun _ _ => False.elim
      rintro _ n ⟨hn, hlost, -⟩
      have hlost' : m.view.Loses (m.view.InRegion s start) n.view := by
        rw [hv] at hlost
        exact View.Loses.of_iff ⟨hlost.page, hlost.absent, hlost.entry, hlost.bytes, hlost.kept⟩
          (View.inRegion_iff hg ha)
      refine yields_emit.2 ⟨((hforgot _).trans (hn.mono ?_)).tell (.inl rfl) _,
        ⟨hlost'.page, hlost'.absent, hlost'.entry, hlost'.bytes, hlost'.kept⟩, ?_, by simp⟩
      · refine fun a hclears => hclears.unmaps hg ha hlost'.absent ?_
        rintro va ⟨e, he⟩
        exact ⟨e, (he.before hbooked.path.grows).after ⟨#[_], rfl⟩⟩
      · rw [view_tell, hn.path.clears_book, hv, book_eq hsp]
        rfl

end Vm

end DemandPaging
