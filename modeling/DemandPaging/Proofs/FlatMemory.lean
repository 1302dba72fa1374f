import DemandPaging.Proofs.Stores

namespace DemandPaging

open Machine

variable {hw : Hardware} {l : List Turn} {m : Machine} {c : Call} {t : Turn} {v w : View} {r : PageRef}
  {p q : Page} {a : Act} {x y : Contents} {filling : Option Filling} {purpose : Purpose}

/-- The contents that a page has after a history, when it began with `x`: every byte is the one that
was last stored there, or else the one of `x`. -/
def flat (l : List Turn) (r : PageRef) (x : Contents) : Contents :=
  Vector.ofFn fun k => (lastStored l r k.val).getD x[k]

mutual

/-- The filling that the page at `r` waits for at the end of a history: the one it was registered
with, or its parent's, or a copy of what its parent's page held when it was forked. -/
inductive Promised : List Turn → PageRef → Option Filling → Prop
  | registered {t : Turn} {l : List Turn} {r : PageRef} {p : Page} {purpose : Purpose}
      {filling : Option Filling} (hnone : t.before.page? r = none)
      (hf : ∀ child parent, t.call ≠ .fork child parent)
      (hr : t.call.Registers t.before.view r p) (hs : p.state = .untouched filling purpose) :
      Promised (t :: l) r filling
  | inherited {t : Turn} {l : List Turn} {r : PageRef} {parent : SpaceId} {q : Page}
      {filling : Option Filling} (hnone : t.before.page? r = none) (hc : t.call = .fork r.space parent)
      (hq : t.before.page? ⟨parent, r.va⟩ = some q) (hk : q.kind = .untouched)
      (h : Promised l ⟨parent, r.va⟩ filling) : Promised (t :: l) r filling
  | copied {t : Turn} {l : List Turn} {r : PageRef} {parent : SpaceId} {q : Page} {x : Contents}
      (hnone : t.before.page? r = none) (hc : t.call = .fork r.space parent)
      (hq : t.before.page? ⟨parent, r.va⟩ = some q) (hk : q.kind = .anon)
      (h : Begins l ⟨parent, r.va⟩ x) :
      Promised (t :: l) r (some (.snapshot (flat l ⟨parent, r.va⟩ x)))
  | waiting {t : Turn} {l : List Turn} {r : PageRef} {p : Page} {filling : Option Filling}
      (hp : t.before.page? r = some p) (hk : p.kind = .untouched) (h : Promised l r filling) :
      Promised (t :: l) r filling

inductive Begins : List Turn → PageRef → Contents → Prop
  | filled {t : Turn} {l : List Turn} {r : PageRef} {p q : Page} {u : View} {x : Contents}
      {filling : Option Filling} {purpose : Purpose} (h : Promised (t :: l) r filling)
      (hv : View.Path t.May t.before.view u) (hw : View.Path t.May u t.after.view)
      (hq : u.page r = some q) (hs : q.state = .untouched filling purpose)
      (hx : u.Fills purpose x filling) (hp : t.after.page? r = some p) (hk : p.kind = .anon) :
      Begins (t :: l) r x
  | kept {t : Turn} {l : List Turn} {r : PageRef} {p : Page} {x : Contents}
      (hp : t.before.page? r = some p) (hk : p.kind = .anon) (h : Begins l r x) : Begins (t :: l) r x

end

def Turn.Offers (t : Turn) (r : PageRef) (p : Page) : Prop :=
  t.before.view.page r = some p ∨
    t.before.view.page r = none ∧ t.call.Registers t.before.view r p

inductive Stage (t : Turn) (r : PageRef) (w : View) : Prop
  | absent (h : w.page r = none) (hb : t.before.view.page r = none)
  | untouched {p : Page} (hp : w.page r = some p) (hk : p.kind = .untouched) (ho : t.Offers r p)
  | file {p : Page} (hp : w.page r = some p) (hk : p.kind = .file)
  | filled {p q : Page} {u : View} {x y : Contents} {filling : Option Filling} {purpose : Purpose}
      (hp : w.page r = some p) (hk : p.kind = .anon) (hv : View.Path t.May t.before.view u)
      (hw : View.Path t.May u w) (hq : u.page r = some q) (hs : q.state = .untouched filling purpose)
      (hfinal : q.finalKind = .anon) (ho : t.Offers r q) (hx : u.Fills purpose x filling) (hy : w.cell r = some y)
      (hxy : t.Changes r x y)

theorem Page.untouched_of_kind (h : p.kind = .untouched) :
    ∃ filling purpose, p.state = .untouched filling purpose := by
  cases hst : p.state <;> simp [kind, hst] at h
  exact ⟨_, _, rfl⟩

theorem Stage.step (h : Stage t r v) (hpath : View.Path t.May t.before.view v) (hv : v.Coherent)
    (hl : t.Leaves r) (ha : t.May a) (hs : v.Step a w) : Stage t r w := by
  have hremoved (saved : Bool) : a ≠ .removed r saved := by
    rintro rfl
    exact hl.removed saved ha
  have hdropped : a ≠ .dropped r.space := by
    rintro rfl
    exact hl.dropped ha
  cases h with
  | absent hnone hb =>
      by_cases hadd : ∃ p, a = .added r p
      · obtain ⟨p, rfl⟩ := hadd
        cases hs
        exact .untouched (Function.update_self ..) rfl (.inr ha)
      · exact .absent (hs.absent (fun p heq => hadd ⟨p, heq⟩) hnone) hb
  | @untouched p hp hk ho =>
      obtain ⟨filling, purpose, hst⟩ := Page.untouched_of_kind hk
      have hf : p.frame = none := hv.frame_of_untouched hp hst
      by_cases hload : a = .loaded r
      · subst hload
        have hpath' := hpath.step ha hs
        have hone := hs.path ha
        cases hs with
        | @loaded f _ p' c hp' hf' hpin hc =>
            obtain rfl := Option.some.inj (hp.symm.trans hp')
            rw [View.Brings, hst] at hc
            have hkind : Page.kind ⟨p.writable, some f, Vm.residentState p.state⟩ = p.finalKind :=
              kind_resident ..
            cases hfinal : p.finalKind with
            | untouched => cases purpose <;> simp [Page.finalKind, hst] at hfinal
            | file => exact .file (Function.update_self ..) (hkind.trans hfinal)
            | anon =>
                refine .filled (Function.update_self ..) (hkind.trans hfinal) hpath hone hp hst hfinal ho hc ?_
                  (.refl t r c)
                rw [View.cell_of_frame (f := f) (Function.update_self ..) rfl]
                exact congrArg some (Function.update_self ..)
      · exact .untouched (hs.kept hp hf hload hremoved hdropped) hk ho
  | file hp hk =>
      obtain ⟨q, hq, hqk⟩ := hs.kind_eq hp (by simp [hk]) hremoved hdropped
      exact .file hq (hqk.trans hk)
  | filled hp hk hv' hw hq hst hfinal ho hx hy hxy =>
      obtain ⟨q, hq', hqk⟩ := hs.kind_eq hp (by simp [hk]) hremoved hdropped
      obtain ⟨z, hz, hyz⟩ := (hs.path ha).cell_changes hv hl hp hk hy
      exact .filled hq' (hqk.trans hk) hv' (hw.step ha hs) hq hst hfinal ho hx hz (hxy.trans hyz)

theorem stage (h : View.Path t.May t.before.view w) (hc : t.before.view.Coherent) (hl : t.Leaves r)
    (hb : ∀ p, t.before.view.page r = some p → p.kind = .untouched) : Stage t r w ∧ w.Coherent := by
  induction h with
  | refl =>
      refine ⟨?_, hc⟩
      cases hp : t.before.view.page r with
      | none => exact .absent hp hp
      | some p => exact .untouched hp (hb p hp) (.inl hp)
  | tail hpath hs ih =>
      obtain ⟨a, ha, hs⟩ := hs
      exact ⟨ih.1.step hpath ih.2 hl ha hs, ih.2.step hs⟩

/-- The anonymous pages hold what a history says: an untouched page has its filling still to come,
and nothing was stored in it; every other one holds what it began with, as it was stored over. -/
structure Refines (l : List Turn) (v : View) : Prop where
  untouched : ∀ {r p filling purpose}, v.page r = some p → p.state = .untouched filling purpose →
    p.finalKind = .anon → Promised l r filling ∧ ∀ k < pageSize, lastStored l r k = none
  anon : ∀ {r p}, v.page r = some p → p.kind = .anon →
    ∃ x, Begins l r x ∧ v.cell r = some (flat l r x)

theorem Refines.promised (h : Refines l t.before.view) (ho : t.Offers r p)
    (hs : p.state = .untouched filling purpose) (hk : p.finalKind = .anon) :
    Promised (t :: l) r filling := by
  rcases ho with hp | ⟨hnone, hreg⟩
  · exact .waiting hp (by simp [Page.kind, hs]) (h.untouched hp hs hk).1
  by_cases hfork : ∃ child parent, t.call = .fork child parent
  swap
  · exact .registered hnone (fun child parent heq => hfork ⟨child, parent, heq⟩) hreg hs
  obtain ⟨child, parent, hcall⟩ := hfork
  rw [hcall] at hreg
  obtain ⟨rfl, hinh⟩ := hreg
  cases hinh with
  | @lazy q filling' purpose' hq hst hfile =>
      cases hs
      have hqk : q.finalKind = .anon := by
        cases purpose <;> simp [Page.finalKind, hst] at hfile ⊢
      exact .inherited hnone hcall hq (by simp [Page.kind, hst]) (h.untouched hq hst hqk).1
  | @anon q slot stack c hq hst hc =>
      cases hs
      have hqk : q.kind = .anon := by simp [Page.kind, hst]
      obtain ⟨x, hx, hcell⟩ := h.anon hq hqk
      obtain rfl := Option.some.inj (hc.symm.trans hcell)
      exact .copied hnone hcall hq hqk hx
  | lazyFile | file | reloaded => cases hk

/-- A byte of an anonymous page is after a turn the one that the turn stored there, or else what it was. -/
theorem getElem_turn (h : m.Sound) (hc : ∀ s ∈ c.spaces, (m.space? s).isSome)
    (hp : (c.turn m).after.view.page r = some p) (hk : p.kind = .anon)
    (hy : (c.turn m).after.view.cell r = some y) (hxy : (c.turn m).Changes r x y) {k : Nat} (hk' : k < pageSize) :
    y[k] = ((c.turn m).stored? r k).getD x[k] := by
  have hn := (fair h hc).leads.sound ((before_turn c m).symm ▸ h)
  cases hs : (c.turn m).stored? r k with
  | none => exact (hxy k hk').resolve_right (by simp [hs])
  | some b =>
      obtain ⟨-, y', hy', hb⟩ := (seen_of_stored h hc hs).cell (hn.coherent.placed hp).2.1 hk' h.coherent
        (leaves_of_present h hc hp) hp (Page.finalKind_of_anon hk)
      obtain rfl := Option.some.inj (hy.symm.trans hy')
      rcases hb with hb | hb
      · exact hb
      · exact (Option.some.inj (hs.symm.trans hb)).symm

/-- What an anonymous page holds after a turn is what it held before, as the turn stored over it. -/
theorem eq_flat (h : m.Sound) (hc : ∀ s ∈ c.spaces, (m.space? s).isSome) {z : Contents}
    (hp : (c.turn m).after.view.page r = some p) (hk : p.kind = .anon)
    (hy : (c.turn m).after.view.cell r = some y) (hxy : (c.turn m).Changes r x y)
    (hz : ∀ k (hk : k < pageSize),
      x[k] = (if (m.page? r).isSome then lastStored l r k else none).getD z[k]) :
    y = flat (c.turn m :: l) r z := by
  refine Vector.ext fun k hk' => ?_
  rw [flat, Vector.getElem_ofFn, getElem_turn h hc hp hk hy hxy hk', hz k hk']
  dsimp only [Fin.getElem_fin]
  rw [lastStored, before_turn]
  cases (c.turn m).stored? r k <;> rfl

theorem stored?_untouched (h : m.Sound) (hc : ∀ s ∈ c.spaces, (m.space? s).isSome)
    (hp : (c.turn m).after.view.page r = some p) (hk : p.kind = .untouched) {k : Nat}
    (hk' : k < pageSize) (hfinal : p.finalKind = .anon) : (c.turn m).stored? r k = none := by
  have hn := (fair h hc).leads.sound ((before_turn c m).symm ▸ h)
  cases hs : (c.turn m).stored? r k with
  | none => rfl
  | some b =>
      have hseen := (seen_of_stored h hc hs).cell (hn.coherent.placed hp).2.1 hk' h.coherent
        (leaves_of_present h hc hp) hp hfinal
      rw [hk] at hseen
      cases hseen.1

theorem Refines.turn (h : Refines l m.view) (hm : m.Sound)
    (hc : ∀ s ∈ c.spaces, (m.space? s).isSome) : Refines (c.turn m :: l) (c.turn m).after.view := by
  have hpath := (fair hm hc).leads.path
  have hb : (c.turn m).before = m := before_turn c m
  have hbefore : (c.turn m).before.view = m.view := by rw [hb]
  have hr : Refines l (c.turn m).before.view := hbefore ▸ h
  have hcoh : (c.turn m).before.view.Coherent := hbefore ▸ hm.coherent
  have hnothing (r : PageRef) (hu : ∀ p, m.view.page r = some p → p.kind = .untouched ∧ p.finalKind = .anon) :
      ∀ k < pageSize, (if (m.page? r).isSome then lastStored l r k else none) = none := by
    intro k hk
    split
    · obtain ⟨p, hp⟩ := Option.isSome_iff_exists.1 ‹_›
      obtain ⟨hpk, hfinal⟩ := hu p hp
      obtain ⟨filling, purpose, hst⟩ := Page.untouched_of_kind hpk
      exact (h.untouched hp hst hfinal).2 k hk
    · rfl
  constructor
  case untouched =>
    intro r p filling purpose hp hs hfinal
    have hk : p.kind = .untouched := by simp [Page.kind, hs]
    have ho : (c.turn m).Offers r p := hpath.untouched hp hk
    refine ⟨hr.promised ho hs hfinal, fun k hk' => ?_⟩
    rw [lastStored, stored?_untouched hm hc hp hk hk' hfinal, Option.none_or, hb]
    refine hnothing r (fun q hq => ?_) k hk'
    rcases ho with hp' | ⟨hnone, -⟩
    · rw [hbefore] at hp'
      obtain rfl := Option.some.inj (hq.symm.trans hp')
      exact ⟨hk, hfinal⟩
    · rw [hbefore, hq] at hnone
      cases hnone
  case anon =>
    intro r p hp hk
    have hl := leaves_of_present hm hc hp
    by_cases htouched : ∃ q, m.view.page r = some q ∧ q.kind ≠ .untouched
    · obtain ⟨q, hq, hqk⟩ := htouched
      have hq' : (c.turn m).before.view.page r = some q := by rw [hbefore, hq]
      obtain ⟨p', hp', hpk⟩ := hpath.kind_eq hl hq' hqk
      obtain rfl := Option.some.inj (hp.symm.trans hp')
      have hanon : q.kind = .anon := hpk.symm.trans hk
      obtain ⟨x, hx, hcell⟩ := h.anon hq hanon
      obtain ⟨y, hy, hxy⟩ := hpath.cell_changes hcoh hl hq' hanon (hbefore ▸ hcell)
      refine ⟨x, .kept (by rw [hb]; exact hq) hanon hx, ?_⟩
      rw [hy, eq_flat hm hc hp hk hy hxy (z := x) fun k hk' => ?_]
      rw [if_pos (by rw [show m.page? r = some q from hq]; rfl), flat, Vector.getElem_ofFn]
      rfl
    · have hu (q : Page) (hq : m.view.page r = some q) : q.kind = .untouched :=
        Classical.not_not.1 fun hqk => htouched ⟨q, hq, hqk⟩
      cases (stage hpath hcoh hl (hbefore ▸ hu)).1 with
      | absent hnone => simp [hnone] at hp
      | untouched hp' hk' =>
          obtain rfl := Option.some.inj (hp.symm.trans hp')
          rw [hk] at hk'
          cases hk'
      | file hp' hk' =>
          obtain rfl := Option.some.inj (hp.symm.trans hp')
          rw [hk] at hk'
          cases hk'
      | @filled _ q u x y filling purpose hp' hk' hv hw hq hst hfinal ho hx hy hxy =>
          refine ⟨x, .filled (hr.promised ho hst hfinal) hv hw hq hst hx hp hk, ?_⟩
          rw [hy, eq_flat hm hc hp hk hy hxy (z := x) fun k hk' => ?_]
          rw [hnothing r (fun q' hq' => ⟨hu q' hq', ?_⟩) k hk', Option.getD_none]
          rcases ho with ho | ⟨hnone, -⟩
          · rw [hbefore] at ho
            obtain rfl := Option.some.inj (hq'.symm.trans ho)
            exact hfinal
          · rw [hbefore, hq'] at hnone
            cases hnone

/-- After every run, the anonymous pages hold what its history says. -/
theorem Runs.refines (h : Runs hw l m) : Refines l m.view := by
  induction h with
  | boot =>
      refine ⟨fun {r p filling purpose} hp => ?_, fun {r p} hp => ?_⟩
      · rw [page_boot] at hp
        cases hp
      · rw [page_boot] at hp
        cases hp
  | turn h c hc ih => exact ih.turn h.sound hc

theorem Machine.Sound.read_byte (h : m.Sound) {s : SpaceId} (hs : (m.view.book s).isSome) {va len i : Nat} {b : UInt8}
    {cp : Copied} (ha : ((Call.read s va len).turn m).answer = .ok (.copied cp)) (hi : cp.bytes[i]? = some b) :
    ∃ p, ((Call.read s va len).turn m).after.view.page ⟨s, pageBase (va + i)⟩ = some p ∧
      (p.finalKind = .anon → p.kind = .anon ∧
        ∃ y, ((Call.read s va len).turn m).after.view.cell ⟨s, pageBase (va + i)⟩ = some y ∧
          y[pageOffset (va + i)]? = some b) := by
  have hseen := ((fair_read h hs va len).2 cp ha).2 i b hi
  obtain ⟨p, hp⟩ := Option.isSome_iff_exists.1 hseen.stays
  refine ⟨p, hp, fun hfinal => ?_⟩
  rw [← pageBase_add_pageOffset (va + i)] at hseen
  obtain ⟨hk, y, hy, hb⟩ := View.Seen.cell (r := ⟨s, pageBase (va + i)⟩) hseen (pageBase_aligned _) (pageOffset_lt _)
    h.coherent (leaves_of_present h (Call.live_of_single rfl hs) hp) hp hfinal
  refine ⟨hk, y, hy, ?_⟩
  rw [Vector.getElem?_eq_getElem (pageOffset_lt _)]
  -- a read stores nothing, so the byte was not stored by it
  refine congrArg some (hb.resolve_right ?_)
  rw [Turn.stored?_eq_none (by rw [call_turn]; nofun)]
  nofun

/-- Paged memory is flat memory: whatever was called before, under whatever pressure and with whatever
failures, a read that succeeds brings all the bytes it was asked for, and each one that lies in an
anonymous page is the last that was stored there since the page was registered, or else what the page
began with. -/
theorem Runs.flat_memory (h : Runs hw (t :: l) m) {s : SpaceId} {va len : Nat} {cp : Copied}
    (hc : t.call = .read s va len) (ha : t.answer = .ok (.copied cp)) :
    (cp.failure = none → cp.bytes.size = len) ∧ ∀ (i : Nat) b, cp.bytes[i]? = some b →
      ∃ p, m.page? ⟨s, pageBase (va + i)⟩ = some p ∧ (p.finalKind = .anon →
        ∃ x, Begins (t :: l) ⟨s, pageBase (va + i)⟩ x ∧
          (flat (t :: l) ⟨s, pageBase (va + i)⟩ x)[pageOffset (va + i)]? = some b) := by
  have href := h.refines
  generalize ht : t :: l = l' at h href ⊢
  cases h with
  | boot => cases ht
  | @turn l m h c hlive =>
      obtain ⟨rfl, rfl⟩ := List.cons.inj ht
      rw [call_turn] at hc
      subst hc
      have hs : (m.view.book s).isSome := by
        rw [← space?_isSome]
        exact hlive s (List.mem_singleton_self s)
      refine ⟨((fair_read h.sound hs va len).2 cp ha).1, fun i b hi => ?_⟩
      obtain ⟨p, hp, hbyte⟩ := h.sound.read_byte hs ha hi
      refine ⟨p, hp, fun hfinal => ?_⟩
      obtain ⟨hk, y, hy, hb⟩ := hbyte hfinal
      obtain ⟨x, hx, hcell⟩ := href.anon hp hk
      obtain rfl := Option.some.inj (hy.symm.trans hcell)
      exact ⟨x, hx, hb⟩

def storeOne : List Call :=
  [.write ⟨1⟩ 0x1001 #[7], .register ⟨1⟩ 0x1000 true .anon none, .newSpace]

def readBack : Turn := (Call.read ⟨1⟩ 0x1001 1).turn (Hardware.small.machine storeOne)

/-- A byte that was written is read back. -/
theorem flat_memory_read_back : ∃ cp, readBack.answer = .ok (.copied cp) ∧ cp.bytes[0]? = some 7 := by
  have hrun : Runs .small (readBack :: Hardware.small.turns storeOne) readBack.after :=
    Hardware.runs (l := .read ⟨1⟩ 0x1001 1 :: storeOne) .small (by decide +kernel)
  obtain ⟨cp, ha, hf⟩ := Turn.copied_of_readsAll (t := readBack) (by decide +kernel)
  refine ⟨cp, ha, ?_⟩
  obtain ⟨hsize, hbytes⟩ := hrun.flat_memory (call_turn ..) ha
  have hlt : 0 < cp.bytes.size := by simp [hsize hf]
  obtain ⟨p, hp, hx⟩ := hbytes 0 cp.bytes[0] (Array.getElem?_eq_getElem hlt)
  have hkind : (readBack.after.page? ⟨⟨1⟩, pageBase (0x1001 + 0)⟩).map Page.finalKind = some .anon := by
    decide +kernel
  rw [hp, Option.map_some] at hkind
  obtain ⟨x, -, hb⟩ := hx (Option.some.inj hkind)
  have hstored : lastStored (readBack :: Hardware.small.turns storeOne) ⟨⟨1⟩, pageBase (0x1001 + 0)⟩
      (pageOffset (0x1001 + 0)) = some 7 := by
    decide +kernel
  rw [Vector.getElem?_eq_getElem (pageOffset_lt _), flat, Vector.getElem_ofFn, hstored] at hb
  rw [Array.getElem?_eq_getElem hlt, ← hb]
  rfl

end DemandPaging
