import DemandPaging.Proofs.FileBytes

namespace DemandPaging

open Machine

variable {hw : Hardware} {l l₀ : List Turn} {m : Machine} {c : Call} {t t₀ : Turn} {v w : View}
  {r : PageRef} {p : Page} {a : Act} {P : Act → Prop} {s : SpaceId} {addr : Addr}

structure FileMap where
  space : SpaceId
  addr : Nat
  len : Nat
  writable : Bool
  handle : Handle
  offset : Nat

namespace FileMap

def call (x : FileMap) : Call := .map x.space x.addr x.len x.writable x.handle x.offset

def part (x : FileMap) (j : Nat) : PageRef := ⟨x.space, x.addr + j * pageSize⟩

def live (x : FileMap) (size : Nat) : Nat := min x.len (size - x.offset)

def LeftBy (x : FileMap) (size : Nat) (b : Backing) : Prop :=
  ∀ pos, x.offset ≤ pos → pos < x.offset + x.live size → ¬ b.Covers x.handle.file pos

def stored? (x : FileMap) (l : List Turn) (k : Nat) : Option UInt8 :=
  lastStored l ⟨x.space, pageBase (x.addr + k)⟩ (pageOffset (x.addr + k))

/-- The turn makes the mapping, and no page is backed by what is to show through it. -/
structure Opens (x : FileMap) (t : Turn) : Prop where
  call : t.call = x.call
  answer : ∃ a, t.answer = .ok a
  length : (t.before.file x.handle.file).length = (t.before.file x.handle.file).bytes.size
  sole : ∀ r p b, t.before.page? r = some p → p.backing? = some b →
    x.LeftBy (t.before.file x.handle.file).bytes.size b

/-- The turn leaves the mapping in its place: it registers no other page over the same bytes of the
file and does not write them directly, forks nothing into the space, and takes no page of the mapping
away. -/
structure Respects (x : FileMap) (size : Nat) (t : Turn) : Prop where
  rival : ∀ s va b, t.before.view.Told t.after.view (.pageAdded s (.file b) va) →
    t.before.page? ⟨s, va⟩ = none → x.LeftBy size b
  direct : ∀ offset data pos, t.call = .overwrite x.handle.file offset data → x.offset ≤ pos →
    pos < x.offset + x.live size → pos < offset ∨ offset + data.size ≤ pos
  fork : ∀ parent, t.call ≠ .fork x.space parent
  stays : ∀ j < pagesFor x.len, (t.after.page? (x.part j)).isSome

/-- The turn undoes the mapping, and the file takes what is written back. -/
structure Closes (x : FileMap) (t : Turn) : Prop where
  call : t.call = .unmap x.space x.addr ∨ t.call = .destroy x.space
  whole : (t.before.file x.handle.file).Whole

def backing (x : FileMap) (serial size j : Nat) : Backing :=
  mappingBacking ⟨x.handle.file, serial⟩ x.offset size x.len j

variable {x : FileMap} {serial size i j k : Nat} {B : Array UInt8}

theorem lt_live (h : k < (x.backing serial size j).expected) :
    k < pageSize ∧ j * pageSize + k < x.live size := by
  simp only [backing, mappingBacking, Backing.expected] at h
  unfold live
  omega

/-- Every byte that shows through the mapping is in the backed part of a page. -/
theorem page_of_live (h : i < x.live size) :
    i / pageSize < pagesFor x.len ∧ i % pageSize < (x.backing serial size (i / pageSize)).expected := by
  simp only [live, backing, mappingBacking, Backing.expected, pagesFor, pageSize_eq] at h ⊢
  omega

/-- The parts of a mapping are backed by parts of the file that lie apart. -/
theorem backing_apart {serial' pos : Nat} (h : (x.backing serial size i).Covers x.handle.file pos)
    (h' : (x.backing serial' size j).Covers x.handle.file pos) : i = j := by
  obtain ⟨-, hi, hi'⟩ := h
  obtain ⟨-, hj, hj'⟩ := h'
  simp only [backing, mappingBacking, Backing.expected, pageSize_eq] at hi hi' hj hj'
  omega

/-- How the mapping stands after a history, `B` being the bytes of the file when it was made: its
region and its pages are there, nobody else is backed by its bytes of the file, and every byte is the
last that was stored over it, or the one of the file. -/
structure Stands (x : FileMap) (serial : Nat) (B : Array UInt8) (l : List Turn) (v : View) : Prop where
  file : (v.file x.handle.file).isSome
  size : (v.fileAt x.handle.file).bytes.size = B.size
  region : (v.regions x.space)[x.addr]? = some ⟨⟨x.handle.file, serial⟩, pagesFor x.len⟩
  present : ∀ j < pagesFor x.len, (v.page (x.part j)).isSome
  alone : ∀ j < pagesFor x.len, ∀ k < (x.backing serial B.size j).expected,
    v.Alone (x.part j) x.handle.file ((x.backing serial B.size j).offset + k)
  mirrors : ∀ j < pagesFor x.len, ∀ k (hk : k < pageSize),
    k < (x.backing serial B.size j).expected ∨ lastStored l (x.part j) k = none →
    v.Mirrors (x.part j) (x.backing serial B.size j) k ((lastStored l (x.part j) k).getD
      (((x.backing serial B.size j).image { bytes := B })[k]))

end FileMap

namespace View

theorem Path.region_eq (h : Path P v w) (hv : v.Coherent) (hs : (v.book s).isSome)
    (hb : ∀ b, P (.booked s b) → b.regions[addr]? = (v.regions s)[addr]?) (hd : ¬ P (.dropped s)) :
    (w.regions s)[addr]? = (v.regions s)[addr]? := by
  refine (h.keeps (I := fun w => (w.Coherent ∧ (w.book s).isSome) ∧
    (w.regions s)[addr]? = (v.regions s)[addr]?) ⟨⟨hv, hs⟩, rfl⟩ fun {v' w a} ha hstep hw => ?_).2
  obtain ⟨⟨hc, hlive⟩, heq⟩ := hw
  have hdropped : a ≠ .dropped s := fun h => hd (h ▸ ha)
  refine ⟨⟨hc.step hstep, hstep.live hdropped hlive⟩, ?_⟩
  by_cases hbook : ∃ b, a = .booked s b
  · obtain ⟨b, rfl⟩ := hbook
    cases hstep
    rw [← hb b ha]
    simp [regions]
  · rw [hstep.regions_eq (fun b h => absurd ⟨b, h⟩ hbook) ?_ hdropped, heq]
    rintro rfl
    cases hstep
    exact absurd (hc.fresh hlive) (Nat.lt_irrefl _)

/-- A file that exists is not made again, and keeps its size under acts that do not change it. -/
theorem Path.size_eq {i : FileId} (h : Path P v w)
    (hp : ∀ g, P (.put i g) → ∀ F : File, (g F).bytes.size = F.bytes.size) :
    (w.fileAt i).bytes.size = (v.fileAt i).bytes.size := by
  refine h.keeps (I := fun w => (w.fileAt i).bytes.size = (v.fileAt i).bytes.size) rfl
    fun {v' w a} ha hs hw => ?_
  by_cases hput : ∃ g, a = .put i g
  · obtain ⟨g, rfl⟩ := hput
    cases hs
    rw [← hw]
    simp only [fileAt, Function.update_self, Option.getD_some]
    exact hp g ha _
  · rw [(hs.file_shape fun g heq => hput ⟨g, heq⟩).1, hw]

theorem Step.file_stays {i : FileId} (h : v.Step a w) (hv : (v.file i).isSome) : (w.file i).isSome := by
  cases h with
  | called | flushed | cut | put =>
      simp only [Function.update_apply]
      split
      · rename_i heq
        simp [← heq, hv]
      · exact hv
  | _ => exact hv

end View

namespace FileMap

variable {x : FileMap} {serial size i j k : Nat} {B : Array UInt8}

theorem Stands.region_turn (h : x.Stands serial B l m.view) (hm : m.Sound)
    (hc : ∀ s ∈ c.spaces, (m.space? s).isSome) (hok : Vm.isMappable x.addr x.len x.offset = true)
    (hr : x.Respects B.size (c.turn m)) :
    ((c.turn m).after.view.regions x.space)[x.addr]? = (m.view.regions x.space)[x.addr]? := by
  have hpos := pagesFor_pos hok
  have hzero : x.part 0 = ⟨x.space, x.addr⟩ := by simp [part]
  obtain ⟨p, hp⟩ := Option.isSome_iff_exists.1 (h.present 0 hpos)
  obtain ⟨q, hq⟩ := Option.isSome_iff_exists.1 (hr.stays 0 hpos)
  rw [hzero] at hp hq
  have hlive : (m.view.book x.space).isSome := (hm.coherent.placed hp).1
  have hpath := path_turn hm hc
  refine hpath.region_eq hm.coherent hlive (fun b hmay => ?_) (leaves_of_present hm hc hq).dropped
  have hbooks : c.Books m.view x.space b := by
    have hbooks : (c.turn m).call.Books (c.turn m).before.view x.space b := hmay
    rwa [call_turn, before_turn] at hbooks
  cases c with
  | map t addr len w hd offset =>
      obtain ⟨rfl, hb | ⟨hnone, g, hb⟩⟩ := hbooks
      · rw [hb]
      · have hne : addr ≠ x.addr := by
          rintro rfl
          rw [hp] at hnone
          cases hnone
        rw [hb, Std.ExtTreeMap.getElem?_insert, if_neg (by simpa using hne)]
  | unmap t addr =>
      obtain ⟨rfl, hb⟩ := hbooks
      by_cases heq : pageBase addr = x.addr
      · have hgone := (fair_unmap hm hlive addr).2 _ (heq ▸ h.region) (heq ▸ last_page_lt hok) 0 hpos
        rw [heq, Nat.zero_mul, Nat.add_zero] at hgone
        cases hgone.symm.trans hq
      · rw [hb, Std.ExtTreeMap.getElem?_erase, if_neg (by simpa using heq)]
  | destroy t =>
      obtain rfl := hbooks
      have hgone := (fair_destroy hm hlive).2 x.addr
      cases hgone.symm.trans hq
  | fork child parent =>
      obtain rfl : x.space = child := hbooks
      exact absurd (call_turn ..) (hr.fork parent)
  | read | write | fault | handle | segment | startStack | saveStack => rw [hbooks.2]
  | newSpace | dropSpace | register | claim | remove | newFile | limitFile | overwrite | setFaults =>
      exact hbooks.elim

end FileMap

def Turn.Tells (t : Turn) (a : Act) : Prop :=
  t.May a ∧ ∀ r p, a = .added r p → ∃ wr purpose filling, p = .lazy wr purpose filling ∧
    t.before.view.Told t.after.view (.pageAdded r.space purpose r.va)

theorem View.Path.tells (h : View.Path t.May v w) (hv : t.before.view.Grows v)
    (hw : w.Grows t.after.view) : View.Path t.Tells v w := by
  refine h.told.mono fun a ha => ⟨ha.1, fun r p heq => ?_⟩
  obtain ⟨wr, purpose, filling, hp, he⟩ := ha.2 r p heq
  exact ⟨wr, purpose, filling, hp, (he.before hv).after hw⟩

theorem Call.Puts.cases {i : FileId} {g : File → File} (h : c.Puts v i g) (hv : (v.file i).isSome) :
    (∃ limits, g = fun F => { F with limits := limits }) ∨
      ∃ offset data, c = .overwrite i offset data ∧ g = fun F => (F.overwrite offset data).2 := by
  cases c with
  | newFile =>
      rw [h.1] at hv
      cases hv
  | limitFile => exact .inl ⟨_, h.2⟩
  | overwrite =>
      obtain ⟨rfl, rfl⟩ := h
      exact .inr ⟨_, _, rfl, rfl⟩
  | _ => exact h.elim

namespace FileMap

variable {x : FileMap} {serial size i j k : Nat} {B : Array UInt8}

theorem Stands.minds (h : x.Stands serial B l t.before.view) (hr : x.Respects B.size t)
    (hl : t.Leaves (x.part j)) (hj : j < pagesFor x.len) (ha : t.Tells a) :
    a.Minds t (x.part j) (x.backing serial B.size j) k where
  stored offset data heq := heq ▸ ha.1
  put g heq hk F := by
    subst heq
    obtain ⟨-, hlive⟩ := lt_live hk
    rcases Call.Puts.cases ha.1 h.file with ⟨limits, rfl⟩ | ⟨offset, data, hcall, rfl⟩
    · rfl
    · refine File.byte_overwrite_outside (hr.direct offset data _ hcall ?_ ?_) <;>
        dsimp only [backing, mappingBacking] <;> omega
  rival r' p b heq hb hk := by
    obtain ⟨wr, purpose, filling, rfl, he⟩ := ha.2 r' p heq
    subst heq
    cases purpose with
    | file b' =>
        cases hb
        obtain ⟨-, hlive⟩ := lt_live hk
        refine hr.rival _ _ _ he ha.1.1 _ ?_ ?_ <;> dsimp only [backing, mappingBacking] <;> omega
    | anon | stack => cases hb
  added p heq := by
    subst heq
    have hpresent := h.present j hj
    rw [ha.1.1] at hpresent
    cases hpresent
  dropped heq := hl.dropped (heq ▸ ha.1)

/-- A byte of a mapping stays right on any part of the way of a turn that respects the mapping. -/
theorem Stands.mirrors_path {y : UInt8} (h : x.Stands serial B l m.view) (hm : m.Sound)
    (hc : ∀ s ∈ c.spaces, (m.space? s).isSome) (hr : x.Respects B.size (c.turn m))
    (hj : j < pagesFor x.len) (hv : View.Path (c.turn m).May m.view v)
    (hvw : View.Path (c.turn m).May v w) (hw : View.Path (c.turn m).May w (c.turn m).after.view)
    (halone : k < (x.backing serial B.size j).expected →
      v.Alone (x.part j) x.handle.file ((x.backing serial B.size j).offset + k))
    (hy : v.Mirrors (x.part j) (x.backing serial B.size j) k y)
    (hk : k < (x.backing serial B.size j).expected ∨ y = 0 ∧ (c.turn m).stored? (x.part j) k = none) :
    (k < (x.backing serial B.size j).expected →
      w.Alone (x.part j) x.handle.file ((x.backing serial B.size j).offset + k)) ∧
    ∃ z, w.Mirrors (x.part j) (x.backing serial B.size j) k z ∧
      (z = y ∨ (c.turn m).stored? (x.part j) k = some z) := by
  obtain ⟨q, hq⟩ := Option.isSome_iff_exists.1 (hr.stays j hj)
  have hl := leaves_of_present hm hc hq
  have hgrows : (c.turn m).before.view.Grows v := by
    rw [before_turn]
    exact hv.grows
  have hmind (a : Act) (ha : (c.turn m).Tells a) :
      a.Minds (c.turn m) (x.part j) (x.backing serial B.size j) k :=
    Stands.minds ((before_turn c m).symm ▸ h) hr hl hj ha
  exact (hvw.tells hgrows hw.grows).mirrors (fun a ha => hmind a ha) (hv.coherent hm.coherent)
    (.inl fun saved ha => hl.removed saved ha.1) halone hy hk

theorem Stands.mirrors_turn (h : x.Stands serial B l m.view) (hm : m.Sound)
    (hc : ∀ s ∈ c.spaces, (m.space? s).isSome) (hr : x.Respects B.size (c.turn m))
    (hj : j < pagesFor x.len) (hk : k < pageSize)
    (hfit : k < (x.backing serial B.size j).expected ∨ lastStored (c.turn m :: l) (x.part j) k = none) :
    (k < (x.backing serial B.size j).expected → (c.turn m).after.view.Alone (x.part j) x.handle.file
      ((x.backing serial B.size j).offset + k)) ∧
    (c.turn m).after.view.Mirrors (x.part j) (x.backing serial B.size j) k
      ((lastStored (c.turn m :: l) (x.part j) k).getD
        (((x.backing serial B.size j).image { bytes := B })[k])) := by
  have hpath := path_turn hm hc
  rw [lastStored_turn (h.present j hj)] at hfit ⊢
  have hfit' : k < (x.backing serial B.size j).expected ∨ lastStored l (x.part j) k = none :=
    hfit.imp_right fun hnone => (Option.or_eq_none_iff.1 hnone).2
  have hbefore := h.mirrors j hj k hk hfit'
  cases hst : (c.turn m).stored? (x.part j) k with
  | none =>
      obtain ⟨halone, y, hy, hyx⟩ := h.mirrors_path hm hc hr hj .refl hpath .refl
        (fun hlt => h.alone j hj k hlt) hbefore ((Backing.image_rest hk hfit').imp_right (⟨·, hst⟩))
      refine ⟨halone, ?_⟩
      rw [hst] at hyx
      rw [Option.none_or, ← hyx.resolve_right nofun]
      exact hy
  | some b =>
      have hlt : k < (x.backing serial B.size j).expected := by
        rcases hfit with hlt | hnone
        · exact hlt
        · rw [hst, Option.some_or] at hnone
          cases hnone
      -- the byte is in its frame at some point of the turn, and stays right from there on
      obtain ⟨q, hq⟩ := Option.isSome_iff_exists.1 (hr.stays j hj)
      have ha := ((sound_turn hm hc).coherent.placed hq).2.1
      obtain ⟨⟨u, hvu, huw, z, f, hz, hf, hb⟩, -⟩ := seen_of_stored hm hc hst
      rw [pageBase_aligned_add ha hk] at hz
      rw [pageOffset_aligned_add ha hk] at hb
      obtain ⟨halone, y, hy, -⟩ := h.mirrors_path hm hc hr hj .refl hvu huw
        (fun hlt => h.alone j hj k hlt) hbefore (.inl hlt)
      obtain ⟨-, hbyte, -⟩ := hy.byte_of_frame hz hf
      obtain rfl := Option.some.inj (hb.symm.trans hbyte)
      obtain ⟨halone', y, hy', hyx⟩ := h.mirrors_path hm hc hr hj hvu huw .refl halone hy (.inl hlt)
      refine ⟨halone', ?_⟩
      rw [Option.some_or, Option.getD_some]
      rcases hyx with rfl | hyx
      · exact hy'
      · rw [hst] at hyx
        rwa [Option.some.inj hyx]

/-- A mapping still stands after a turn that respects it. -/
theorem Stands.turn (h : x.Stands serial B l m.view) (hm : m.Sound)
    (hc : ∀ s ∈ c.spaces, (m.space? s).isSome) (hok : Vm.isMappable x.addr x.len x.offset = true)
    (hr : x.Respects B.size (c.turn m)) : x.Stands serial B (c.turn m :: l) (c.turn m).after.view where
  file := (path_turn hm hc).keeps (I := fun w => (w.file x.handle.file).isSome) h.file
    fun _ hs hw => hs.file_stays hw
  size := by
    rw [(path_turn hm hc).size_eq fun g hg F => ?_, h.size]
    have hputs : c.Puts m.view x.handle.file g := by
      have hputs : (c.turn m).call.Puts (c.turn m).before.view x.handle.file g := hg
      rwa [call_turn, before_turn] at hputs
    rcases hputs.cases h.file with ⟨limits, rfl⟩ | ⟨offset, data, -, rfl⟩
    · rfl
    · exact F.size_overwrite offset data
  region := (h.region_turn hm hc hok hr).trans h.region
  present := hr.stays
  alone j hj k hk := (h.mirrors_turn hm hc hr hj (lt_live hk).1 (.inl hk)).1 hk
  mirrors j hj k hk hfit := (h.mirrors_turn hm hc hr hj hk hfit).2

theorem Opens.stands (h : x.Opens (c.turn m)) (hm : m.Sound)
    (hc : ∀ s ∈ c.spaces, (m.space? s).isSome) : Vm.isMappable x.addr x.len x.offset = true ∧
      ∃ serial, x.Stands serial (m.file x.handle.file).bytes (c.turn m :: l) (c.turn m).after.view := by
  have hcall : c = x.call := (call_turn c m).symm.trans h.call
  subst hcall
  have hlive : (m.view.book x.space).isSome := by
    rw [← space?_isSome]
    exact hc x.space (List.mem_singleton_self _)
  obtain ⟨y, hy⟩ := h.answer
  obtain ⟨hok, serial, hmapped⟩ := (fair_map hm hlive x.addr x.len x.writable x.handle x.offset).2 y hy
  have hlen := h.length
  have hsole := h.sole
  rw [before_turn] at hlen hsole
  have hpath := path_turn hm hc
  have hpage (j : Nat) (hj : j < pagesFor x.len) := hmapped.part j hj
  rw [show m.view.fileAt x.handle.file = m.file x.handle.file from rfl, hlen] at hpage
  have hbytes : ((x.call.turn m).after.view.fileAt x.handle.file).bytes = (m.file x.handle.file).bytes :=
    hmapped.bytes x.handle.file
  refine ⟨hok, serial, hmapped.file, by rw [hbytes], hmapped.region, fun j hj => ?_, fun j hj k hk => ?_,
    fun j hj k hk _ => ?_⟩
  · exact Option.isSome_iff_exists.2 ⟨_, (hpage j hj).2⟩
  · obtain ⟨-, hshow⟩ := lt_live hk
    refine hpath.keeps (I := fun w => w.Alone (x.part j) x.handle.file _) (fun r p b hp hb hcov => ?_)
      fun {v w a} ha hs hw => hs.alone hw ?_
    · refine absurd hcov (hsole r p b hp hb _ ?_ ?_) <;> dsimp only [backing, mappingBacking] <;> omega
    · rintro r p b rfl hb hcov
      obtain ⟨-, hreg⟩ := ha
      rw [call_turn, before_turn] at hreg
      obtain ⟨hspace, serial', j', hva, rfl⟩ := hreg
      rw [show m.view.fileAt x.handle.file = m.file x.handle.file from rfl, hlen] at hb
      cases hb
      have hown : (x.backing serial (m.file x.handle.file).bytes.size j).Covers x.handle.file
          ((x.backing serial (m.file x.handle.file).bytes.size j).offset + k) :=
        ⟨rfl, Nat.le_add_right .., Nat.add_lt_add_left hk _⟩
      have hsame : (x.backing serial' (m.file x.handle.file).bytes.size j').Covers x.handle.file _ := hcov
      rw [← backing_apart hsame hown, part, ← hspace, ← hva]
  · refine .out (hpage j hj).2 rfl (.inr rfl) ?_
    have hnone : lastStored (x.call.turn m :: l) (x.part j) k = none := by
      rw [lastStored, before_turn, if_neg (by rw [show m.page? (x.part j) = none from (hpage j hj).1]; simp)]
      rw [Turn.stored?_eq_none, Option.none_or]
      rw [call_turn]
      simp [FileMap.call]
    rw [hnone, Option.getD_none, Vector.getElem?_eq_getElem hk]
    exact congrArg (fun z : Contents => some z[k]) (Backing.image_congr _ hbytes)

/-- A mapping stands as long as every turn since it was made respects it. -/
theorem Opens.stands_run (ho : x.Opens t₀) (h : Runs hw (l ++ t₀ :: l₀) m)
    (hl : ∀ t ∈ l, x.Respects (t₀.before.file x.handle.file).bytes.size t) :
    Vm.isMappable x.addr x.len x.offset = true ∧
      ∃ serial, x.Stands serial (t₀.before.file x.handle.file).bytes (l ++ t₀ :: l₀) m.view := by
  induction l generalizing m with
  | nil =>
      cases h with
      | turn h c hc =>
          rw [before_turn]
          exact ho.stands h.sound hc
  | cons t l ih =>
      cases h with
      | turn h c hc =>
          obtain ⟨hok, serial, hstands⟩ := ih h fun t ht => hl t (List.mem_cons_of_mem _ ht)
          exact ⟨hok, serial, hstands.turn h.sound hc hok (hl _ (List.mem_cons_self ..))⟩

/-- What a turn that stores nothing in a mapping sees there is what was there before. -/
theorem Stands.seen (h : x.Stands serial B l m.view) (hm : m.Sound)
    (hc : ∀ s ∈ c.spaces, (m.space? s).isSome) (hr : x.Respects B.size (c.turn m))
    (hj : j < pagesFor x.len) (hk : k < pageSize)
    (hfit : k < (x.backing serial B.size j).expected ∨ lastStored l (x.part j) k = none)
    (hst : (c.turn m).stored? (x.part j) k = none) {b : UInt8}
    (hb : View.Seen (c.turn m).May m.view (c.turn m).after.view x.space (x.addr + j * pageSize + k) b) :
    b = (lastStored l (x.part j) k).getD (((x.backing serial B.size j).image { bytes := B })[k]) := by
  obtain ⟨q, hq⟩ := Option.isSome_iff_exists.1 (h.present j hj)
  have ha : isPageAligned (x.part j).va = true := (hm.coherent.placed hq).2.1
  obtain ⟨⟨u, hvu, huw, z, f, hz, hf, hb⟩, -⟩ := hb
  rw [show x.addr + j * pageSize = (x.part j).va from rfl, pageBase_aligned_add ha hk] at hz
  rw [show x.addr + j * pageSize = (x.part j).va from rfl, pageOffset_aligned_add ha hk] at hb
  obtain ⟨-, y, hy, hyx⟩ := h.mirrors_path hm hc hr hj .refl hvu huw (fun hlt => h.alone j hj k hlt)
    (h.mirrors j hj k hk hfit) ((Backing.image_rest hk hfit).imp_right (⟨·, hst⟩))
  obtain ⟨-, hbyte, -⟩ := hy.byte_of_frame hz hf
  rw [hst] at hyx
  rw [← hyx.resolve_right nofun]
  exact Option.some.inj (hb.symm.trans hbyte)

/-- A turn that undoes a mapping does nothing to files but by writing pages back. -/
theorem Closes.minds (hx : x.Closes t) (ha : t.May a) (b : Backing) : a.Minds t r b k := by
  rcases hx.call with hcall | hcall
  all_goals
    refine ⟨fun _ _ heq => heq ▸ ha, fun g heq => ?_, fun r' p b' heq => ?_, fun p heq => ?_, fun heq => ?_⟩
    all_goals
      subst heq
      simp [Turn.May, hcall, Call.Puts, Call.Registers] at ha

theorem Stands.gone (h : x.Stands serial B l m.view) (hm : m.Sound)
    (hok : Vm.isMappable x.addr x.len x.offset = true) (hx : x.Closes (c.turn m))
    (hj : j < pagesFor x.len) : (c.turn m).after.view.page (x.part j) = none := by
  obtain ⟨p, hp⟩ := Option.isSome_iff_exists.1 (h.present j hj)
  have hlive : (m.view.book x.space).isSome := (hm.coherent.placed hp).1
  have hbase : pageBase x.addr = x.addr := pageBase_of_aligned (aligned_of_isMappable hok)
  have hcall := hx.call
  rw [call_turn] at hcall
  rcases hcall with rfl | rfl
  · have hgone := (fair_unmap hm hlive x.addr).2 _ (hbase.symm ▸ h.region) (hbase.symm ▸ last_page_lt hok) j hj
    rwa [hbase] at hgone
  · exact (fair_destroy hm hlive).2 _

theorem Closes.not_put (hx : x.Closes t) (g : File → File) : ¬ t.May (.put x.handle.file g) := by
  intro ha
  rcases hx.call with hcall | hcall <;> simp [Turn.May, hcall, Call.Puts] at ha

theorem Stands.size_of_closes (h : x.Stands serial B l m.view) (hm : m.Sound)
    (hc : ∀ s ∈ c.spaces, (m.space? s).isSome) (hx : x.Closes (c.turn m)) :
    ((c.turn m).after.view.fileAt x.handle.file).bytes.size = B.size := by
  rw [(path_turn hm hc).size_eq fun g hg => (hx.not_put g hg).elim, h.size]

/-- Once a mapping is undone, the file has what was last in its pages. -/
theorem Stands.written (h : x.Stands serial B l m.view) (hm : m.Sound)
    (hc : ∀ s ∈ c.spaces, (m.space? s).isSome) (hok : Vm.isMappable x.addr x.len x.offset = true)
    (hx : x.Closes (c.turn m)) (hj : j < pagesFor x.len)
    (hk : k < (x.backing serial B.size j).expected) :
    ((c.turn m).after.view.fileAt x.handle.file).bytes[x.offset + j * pageSize + k]? =
      (lastStored l (x.part j) k).or B[x.offset + j * pageSize + k]? := by
  obtain ⟨hlt, hshow⟩ := lt_live hk
  have hin : x.offset + j * pageSize + k < B.size := by
    unfold live at hshow
    omega
  have hpath := path_turn hm hc
  have hwhole := hx.whole
  rw [before_turn] at hwhole
  have hroomy : m.view.Roomy (x.backing serial B.size j) := by
    refine ⟨hwhole, fun i hi => ?_⟩
    obtain ⟨-, hi⟩ := lt_live hi
    rw [show (m.view.fileAt (x.backing serial B.size j).handle.file).bytes.size = B.size from h.size]
    unfold live at hi
    dsimp only [backing, mappingBacking]
    omega
  have hst : (c.turn m).stored? (x.part j) k = none :=
    Turn.stored?_eq_none (by rcases hx.call with hcall | hcall <;> simp [hcall]) ..
  obtain ⟨-, y, hy, hyx⟩ := hpath.mirrors (fun a ha => hx.minds ha _) hm.coherent (.inr ⟨hroomy, hx.not_put⟩)
    (fun hlt => h.alone j hj k hlt) (h.mirrors j hj k hlt (.inl hk)) (.inl hk)
  rw [hst] at hyx
  rw [hyx.resolve_right nofun] at hy
  have himage := hy.image_of_none (h.gone hm hok hx hj)
  rw [Vector.getElem?_eq_getElem hlt, Backing.getElem_image, Backing.getElem_image, if_pos hk, if_pos hk] at himage
  dsimp only [backing, mappingBacking] at himage
  have hin' := (h.size_of_closes hm hc hx).symm ▸ hin
  rw [Array.getElem?_eq_getElem hin, Array.getElem?_eq_getElem hin', Option.getD_some, Option.getD_some] at himage
  rw [Array.getElem?_eq_getElem hin, Array.getElem?_eq_getElem hin', himage]
  cases lastStored l (x.part j) k <;> rfl

theorem stored?_eq (ha : isPageAligned x.addr = true) (l : List Turn) (i : Nat) :
    x.stored? l i = lastStored l (x.part (i / pageSize)) (i % pageSize) := by
  rw [isPageAligned_iff] at ha
  have hbase : pageBase (x.addr + i) = x.addr + i / pageSize * pageSize := by
    rw [pageBase_eq, pageSize_eq]
    dsimp only [Addr]
    omega
  have hoffset : pageOffset (x.addr + i) = i % pageSize := by
    rw [pageOffset_eq, pageSize_eq]
    omega
  rw [stored?, part, hbase, hoffset]

theorem Stands.stored?_turn (h : x.Stands serial B l m.view) (ha : isPageAligned x.addr = true)
    (hi : i / pageSize < pagesFor x.len) (hc : ∀ s va d, c ≠ .write s va d) :
    x.stored? (c.turn m :: l) i = lastStored l (x.part (i / pageSize)) (i % pageSize) := by
  rw [stored?_eq ha, lastStored_turn (h.present _ hi), Turn.stored?_eq_none, Option.none_or]
  rwa [call_turn]

/-- A read of a mapping brings the bytes last stored over it, and else those of the file. -/
theorem Stands.read {va len : Nat} {cp : Copied} {b : UInt8} (h : x.Stands serial B l m.view) (hm : m.Sound)
    (hc : ∀ s ∈ (Call.read x.space va len).spaces, (m.space? s).isSome)
    (hr : x.Respects B.size ((Call.read x.space va len).turn m))
    (hcp : ((Call.read x.space va len).turn m).answer = .ok (.copied cp)) (hb : cp.bytes[i]? = some b)
    (hk : va + i = x.addr + k) (hlt : k < pagesFor x.len * pageSize) :
    (k < x.live B.size → some b = (lastStored l (x.part (k / pageSize)) (k % pageSize)).or B[x.offset + k]?) ∧
      (x.live B.size ≤ k → lastStored l (x.part (k / pageSize)) (k % pageSize) = none → b = 0) := by
  have hj : k / pageSize < pagesFor x.len := Nat.div_lt_of_lt_mul (by rwa [Nat.mul_comm])
  have hin : k % pageSize < pageSize := Nat.mod_lt _ (by decide)
  have hlive : (m.view.book x.space).isSome := by
    rw [← space?_isSome]
    exact hc x.space (List.mem_singleton_self _)
  have hseen := ((fair_read hm hlive va len).2 cp hcp).2 i b hb
  have hsplit : va + i = x.addr + k / pageSize * pageSize + k % pageSize := by
    rw [hk, Nat.add_assoc, Nat.div_add_mod']
  rw [hsplit] at hseen
  have hst : ((Call.read x.space va len).turn m).stored? (x.part (k / pageSize)) (k % pageSize) = none :=
    Turn.stored?_eq_none (by rw [call_turn]; nofun) ..
  refine ⟨fun hshow => ?_, fun hpast hnone => ?_⟩
  · have hexp : k % pageSize < (x.backing serial B.size (k / pageSize)).expected := (page_of_live hshow).2
    rw [h.seen hm hc hr hj hin (.inl hexp) hst hseen, Backing.getElem_image, if_pos hexp]
    have hpos : (x.backing serial B.size (k / pageSize)).offset + k % pageSize = x.offset + k := by
      dsimp only [backing, mappingBacking]
      rw [Nat.add_assoc, Nat.div_add_mod']
    have hsize : x.offset + k < B.size := by
      unfold live at hshow
      omega
    rw [hpos, Array.getElem?_eq_getElem hsize]
    cases lastStored l (x.part (k / pageSize)) (k % pageSize) <;> rfl
  · rw [h.seen hm hc hr hj hin (.inr hnone) hst hseen, hnone, Backing.getElem_image, if_neg, Option.getD_none]
    intro hexp
    have hshow := (lt_live hexp).2
    rw [Nat.div_add_mod'] at hshow
    omega

end FileMap

theorem Runs.limits_eq (h : Runs hw l m) (hl : ∀ t ∈ l, ∀ f limits, t.call ≠ .limitFile f limits)
    (f : FileId) : (m.file f).limits = fun _ => {} := by
  induction h with
  | boot => rfl
  | @turn l m h c hc ih =>
      rw [← fileAt_view]
      refine (path_turn h.sound hc).keeps (I := fun w => (w.fileAt f).limits = fun _ => {})
        (ih fun t ht => hl t (List.mem_cons_of_mem _ ht)) fun {v w a} ha hs hw => ?_
      by_cases hput : ∃ g, a = .put f g
      · obtain ⟨g, rfl⟩ := hput
        have hputs : c.Puts (c.turn m).before.view f g := by
          have hputs : (c.turn m).call.Puts (c.turn m).before.view f g := ha
          rwa [call_turn] at hputs
        cases hs
        simp only [View.fileAt, Function.update_self, Option.getD_some]
        cases c with
        | newFile => rw [hputs.2]
        | limitFile => exact absurd (call_turn ..) (hl _ (List.mem_cons_self ..) _ _)
        | overwrite =>
            rw [hputs.2]
            exact hw
        | _ => exact hputs.elim
      · rw [(hs.file_shape fun g heq => hput ⟨g, heq⟩).2, hw]

/-- A mapping of a file is the file. While it stands, whatever pressure memory is under, a read of it
brings the bytes last stored over it, and else those of the file, with zeroes past its end; and once it
is undone, the file has its old length, and the stored bytes in place of its own. -/
theorem Runs.mapped_file {x : FileMap} (h : Runs hw (t :: (l ++ t₀ :: l₀)) m) (ho : x.Opens t₀)
    (hl : ∀ t' ∈ l, x.Respects (t₀.before.file x.handle.file).bytes.size t') :
    (x.Respects (t₀.before.file x.handle.file).bytes.size t → ∀ va len cp,
      t.call = .read x.space va len → t.answer = .ok (.copied cp) →
      ∀ (i k : Nat) b, cp.bytes[i]? = some b → va + i = x.addr + k → k < pagesFor x.len * pageSize →
        (k < x.live (t₀.before.file x.handle.file).bytes.size →
          some b = (x.stored? (t :: (l ++ t₀ :: l₀)) k).or
            (t₀.before.file x.handle.file).bytes[x.offset + k]?) ∧
        (x.live (t₀.before.file x.handle.file).bytes.size ≤ k →
          x.stored? (t :: (l ++ t₀ :: l₀)) k = none → b = 0)) ∧
    (x.Closes t →
      (m.file x.handle.file).bytes.size = (t₀.before.file x.handle.file).bytes.size ∧
      ∀ i < x.live (t₀.before.file x.handle.file).bytes.size,
        (m.file x.handle.file).bytes[x.offset + i]? = (x.stored? (t :: (l ++ t₀ :: l₀)) i).or
          (t₀.before.file x.handle.file).bytes[x.offset + i]?) := by
  generalize hrest : l ++ t₀ :: l₀ = rest at h
  cases h with
  | turn h c hc =>
  subst hrest
  obtain ⟨hok, serial, hstands⟩ := ho.stands_run h hl
  have ha := aligned_of_isMappable hok
  refine ⟨fun hr va len cp hcall hcp i k b hb hk hlt => ?_, fun hx => ⟨?_, fun i hi => ?_⟩⟩
  · obtain rfl : c = .read x.space va len := (call_turn ..).symm.trans hcall
    have hj : k / pageSize < pagesFor x.len := Nat.div_lt_of_lt_mul (by rwa [Nat.mul_comm])
    rw [hstands.stored?_turn ha hj (by intros; nofun)]
    exact hstands.read h.sound hc hr hcp hb hk hlt
  · exact hstands.size_of_closes h.sound hc hx
  · obtain ⟨hj, hexp⟩ : i / pageSize < pagesFor x.len ∧ i % pageSize <
        (x.backing serial (t₀.before.file x.handle.file).bytes.size (i / pageSize)).expected :=
      FileMap.page_of_live hi
    have hcall := hx.call
    rw [call_turn] at hcall
    rw [hstands.stored?_turn ha hj (by rcases hcall with rfl | rfl <;> nofun)]
    have hwritten := hstands.written h.sound hc hok hx hj hexp
    rwa [Nat.add_assoc, Nat.div_add_mod'] at hwritten

def Event.addsPage : Event → Bool
  | pageAdded .. => true
  | _ => false

def firstThree : FileMap := ⟨⟨1⟩, 0x1000, 3, true, ⟨⟨0⟩, 0⟩, 0⟩

def mapOne : List Call := [firstThree.call, .newFile #[1, 2, 3], .newSpace]

def writeMapped : List Call := .write ⟨1⟩ 0x1001 #[7] :: mapOne

theorem firstThree_opens :
    firstThree.Opens (firstThree.call.turn (Hardware.small.machine [.newFile #[1, 2, 3], .newSpace])) := by
  refine ⟨call_turn .., Turn.answer_of_succeeds (by decide +kernel), by decide +kernel, fun r p b hp => ?_⟩
  rw [before_turn] at hp
  have hbefore : Runs .small _ (Hardware.small.machine [.newFile #[1, 2, 3], .newSpace]) :=
    Hardware.runs .small (by decide +kernel)
  obtain ⟨t, ht, q, hreg⟩ := hbefore.registered hp
  have hmem := Hardware.call_of_mem_turns ht
  simp only [List.mem_cons, List.not_mem_nil, or_false] at hmem
  rcases hmem with hc | hc <;> rw [hc] at hreg <;> exact hreg.elim

theorem firstThree_respects :
    firstThree.Respects 3 ((Call.write ⟨1⟩ 0x1001 #[7]).turn (Hardware.small.machine mapOne)) := by
  refine FileMap.Respects.mk (fun s va b he => ?_) (fun offset data pos hc => ?_) (fun parent hc => ?_)
    fun j hj => ?_
  · have hnone : (((Call.write ⟨1⟩ 0x1001 #[7]).turn
          (Hardware.small.machine mapOne)).after.view.log.toList.drop
        (Hardware.small.machine mapOne).view.log.size).all (!·.addsPage) = true := by decide +kernel
    rw [before_turn] at he
    exact absurd (List.all_eq_true.1 hnone _ he.mem) nofun
  · rw [call_turn] at hc
    cases hc
  · rw [call_turn] at hc
    cases hc
  · obtain rfl : j = 0 := by
      change j < 1 at hj
      omega
    decide +kernel

theorem firstThree_closes :
    firstThree.Closes ((Call.unmap ⟨1⟩ 0x1000).turn (Hardware.small.machine writeMapped)) := by
  refine ⟨.inl (call_turn ..), fun i n hn => ?_⟩
  have hbefore : Runs .small (Hardware.small.turns writeMapped) (Hardware.small.machine writeMapped) :=
    Hardware.runs .small (by decide +kernel)
  rw [before_turn, hbefore.limits_eq fun t ht f limits hc => ?_] at hn
  · cases hn
  · have hmem := Hardware.call_of_mem_turns ht
    rw [hc] at hmem
    simp [writeMapped, mapOne, firstThree, FileMap.call] at hmem

/-- A byte that was written through a mapping is in the file once the mapping is undone. -/
theorem mapped_file_of_unmap :
    ((Hardware.small.machine (.unmap ⟨1⟩ 0x1000 :: writeMapped)).file ⟨0⟩).bytes[1]? = some 7 := by
  have hrun : Runs .small (Hardware.small.turns (.unmap ⟨1⟩ 0x1000 :: writeMapped))
      (Hardware.small.machine (.unmap ⟨1⟩ 0x1000 :: writeMapped)) :=
    Hardware.runs .small (by decide +kernel)
  have hstored : firstThree.stored? (Hardware.small.turns (.unmap ⟨1⟩ 0x1000 :: writeMapped)) 1 = some 7 := by
    change lastStored (_ :: _) _ _ = _
    rw [lastStored_turn (by decide +kernel), Turn.stored?_eq_none (by rw [call_turn]; nofun), Option.none_or]
    decide +kernel
  have hlive : firstThree.live (((firstThree.call.turn
      (Hardware.small.machine [.newFile #[1, 2, 3], .newSpace])).before.file ⟨0⟩).bytes.size) = 3 := by
    decide +kernel
  have hbytes := ((Runs.mapped_file (l := [(Call.write ⟨1⟩ 0x1001 #[7]).turn (Hardware.small.machine mapOne)])
    hrun firstThree_opens (List.forall_mem_singleton.2 firstThree_respects)).2 firstThree_closes).2
  refine (hbytes 1 (Nat.lt_of_lt_of_eq (by decide) hlive.symm)).trans ?_
  rw [show firstThree.stored? (_ :: ([_] ++ _ :: _)) 1 = some 7 from hstored, Option.some_or]

end DemandPaging
