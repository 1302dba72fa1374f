import DemandPaging.Proofs.Hiding

namespace DemandPaging

open Function (update)
open Step Machine

variable {secret : SpaceId → Prop} {m n m' n' : Machine} {s : SpaceId} {f : FrameId} {addr : Addr} {r : PageRef}

namespace Machine

theorem Veils.bytes_eq {write : Bool} (h : m.Veils secret n) (hopen : m.view.Open r f write)
    (hpublic : ∀ p, m.view.page r = some p → secret r.space → p.finalKind = .file) :
    n.view.bytes f = m.view.bytes f := by
  obtain ⟨p, hp, hf, -⟩ := hopen
  have hcell := h.cell r p hp (hpublic p hp)
  rw [View.cell_of_frame hp hf, View.cell_of_frame (h.alike.page_of_frame hp hf) hf] at hcell
  exact Option.some.inj hcell

theorem Veils.written (h : m.Veils secret n) (hm : m.view.Open r f true) (hn : n.view.Open r f true) (offset : Nat)
    {data data' : Array UInt8}
    (hdata : data' = data ∨ secret r.space ∧ ∀ p, m.view.page r = some p → p.finalKind = .anon) :
    (m.withBytes f (Buffer.overlay (m.view.bytes f) offset data)).Veils secret
      (n.withBytes f (Buffer.overlay (n.view.bytes f) offset data')) := by
  have hstored {k : Machine} (hk : k.Sound) (hopen : k.view.Open r f true) (d : Array UInt8) :=
    Vm.stored hopen (hk.consistent.withBytes f (Buffer.overlay (k.view.bytes f) offset d))
      (view_withBytes hk.consistent (hk.present_of_open hopen) _)
  refine h.step (h.alike.withFrames (h.alike.frames.withContents f _ _)) h.enclosed (hstored h.left hm data).toGoes
    (hstored h.right hn data').toGoes fun o q hq hk => ?_
  by_cases ho : o = r
  · subst ho
    have hq : m.view.page o = some q := hq
    obtain ⟨p, hp, hf, -⟩ := id hm
    obtain rfl := Option.some.inj (hp.symm.trans hq)
    have hbytes := h.bytes_eq hm fun _ hp' hs => Option.some.inj (hp.symm.trans hp') ▸ hk hs
    rcases hdata with rfl | ⟨hs, hanon⟩
    · have hcell {k : Machine} (hp : k.view.page o = some p) (c : Contents) :
          (k.withBytes f c).view.cell o = some ((k.withBytes f c).view.bytes f) := View.cell_of_frame hp hf
      left
      rw [hcell (h.alike.page_of_frame hp hf), hcell hp, hbytes]
      exact congrArg some (Frames.bytesAt_withContents_congr h.alike.frames (fun _ => rfl) fun hne => absurd rfl hne)
    · cases (hk hs).symm.trans (hanon p hp)
  · right
    constructor
    · rintro _ rfl
      exact ⟨by simp, by simp [Ne.symm ho]⟩
    · rintro _ rfl
      exact ⟨by simp, by simp [Ne.symm ho]⟩

end Machine

namespace Vm

theorem hides_frameFor (s : SpaceId) (addr : Addr) (write : Bool) (rounds : Nat) :
    Respects (Veils secret) (frameFor s addr write rounds) :=
  (hides_paged secret).growing.frameFor (hides_makeResident s addr)
    ((going_access s addr write).inert.hides (respects_access s addr write)) rounds

theorem twins_touchPage (h : m.Veils secret n) (hs : (m.view.book s).isSome) (addr : Addr) (write : Bool) :
    Twins (touchPage s addr write) (touchPage s addr write) m n
      (fun c d m' n' => d.1 = c.1 ∧ m'.Veils secret n' ∧
        ((∀ p, m'.view.page ⟨s, pageBase addr⟩ = some p → secret s → p.finalKind = .file) → d.2 = c.2))
      fun _ m' n' => m'.Veils secret n' := by
  unfold touchPage
  refine (((hides_frameFor s addr write 2).twins m n h).and
    (yields_frameFor h.left hs addr write 2 (.inl (Nat.le_refl _)))
    (yields_frameFor h.right (h.alike.live hs) addr write 2 (.inl (Nat.le_refl _)))).bind ?_ fun _ _ _ hx => hx.1
  rintro _ f m' n' ⟨⟨rfl, h'⟩, ⟨-, hopen⟩, -⟩
  exact twins_bind (twins_contents h'.alike (twins_pure.2 ⟨rfl, h', h'.bytes_eq hopen⟩) h')

/-- A read comes as far, and brings the same bytes but from a secret space. -/
theorem twins_readPages (h : m.Veils secret n) (hs : (m.view.book s).isSome) (k addr len : Nat)
    {done done' : Array UInt8} (hsize : done'.size = done.size) (hsame : ¬ secret s → done' = done) :
    Twins (readPages s k addr len done) (readPages s k addr len done') m n
      (fun c d m' n' => d.failure = c.failure ∧ d.bytes.size = c.bytes.size ∧ (¬ secret s → d.bytes = c.bytes) ∧
        m'.Veils secret n')
      fun _ m' n' => m'.Veils secret n' := by
  induction k generalizing m n addr len done done' with
  | zero => exact twins_pure.2 ⟨rfl, hsize, hsame, h⟩
  | succ k ih =>
      unfold readPages
      dsimp only
      generalize min len (pageSize - pageOffset addr) = chunk
      refine twins_bind (twins_attempt (((twins_touchPage h hs addr false).and
        (yields_touchPage h.left hs addr false) (yields_touchPage h.right (h.alike.live hs) addr false)).mono ?_ ?_))
      · rintro ⟨f, page⟩ ⟨_, page'⟩ m' n' ⟨⟨rfl, h', hpage⟩, ⟨hm, -⟩, -⟩
        dsimp only at hpage ⊢
        refine twins_bind (twins_word.2 ?_)
        split
        · refine ih h' (hm.live hs) _ _ ?_ fun hn => ?_
          · simp [Buffer.slice, hsize]
          · rw [hsame hn, hpage fun _ _ hs => absurd hs hn]
        · exact h'
      · rintro (e | _ | _) m' n' ⟨h', -⟩
        · exact twins_pure.2 ⟨rfl, hsize, hsame, h'⟩
        · exact h'
        · exact h'

theorem twins_writePages (h : m.Veils secret n) (hs : (m.view.book s).isSome) (k addr : Nat) {data data' : Array UInt8}
    (hsize : data'.size = data.size)
    (hsame : data' = data ∨ secret s ∧ ∀ va p, m.view.page ⟨s, va⟩ = some p → p.finalKind = .anon) :
    Twins (writePages s k addr data) (writePages s k addr data') m n (fun _ _ m' n' => m'.Veils secret n')
      fun _ m' n' => m'.Veils secret n' := by
  induction k generalizing m n addr data data' with
  | zero => exact twins_pure.2 h
  | succ k ih =>
      unfold writePages
      dsimp only
      rw [hsize]
      generalize min data.size (pageSize - pageOffset addr) = chunk
      refine ((twins_touchPage h hs addr true).and (yields_touchPage h.left hs addr true)
        (yields_touchPage h.right (h.alike.live hs) addr true)).bind ?_ fun _ _ _ hx => hx.1
      rintro ⟨f, page⟩ ⟨_, page'⟩ m' n' ⟨⟨rfl, h', -⟩, ⟨hm, hopen, hpage, -⟩, -, hopen', hpage', -⟩
      dsimp only at hpage hpage' hopen hopen' ⊢
      subst hpage hpage'
      have hanon (hd : ¬ data' = data) : secret s ∧ ∀ va p, m'.view.page ⟨s, va⟩ = some p → p.finalKind = .anon := by
        obtain ⟨hsecret, hanon⟩ := hsame.resolve_left hd
        refine ⟨hsecret, fun va q hq => ?_⟩
        rcases hm.path.was_like hq with ⟨p, hp, hlike⟩ | ⟨p, ⟨-, -, rfl⟩, hlike⟩
        · exact hlike.finalKind.trans (hanon va p hp)
        · exact hlike.finalKind
      have hchunk : data'.extract 0 chunk = data.extract 0 chunk ∨ secret s ∧
          ∀ p, m'.view.page ⟨s, pageBase addr⟩ = some p → p.finalKind = .anon := by
        by_cases hd : data' = data
        · exact .inl (by rw [hd])
        · exact .inr ⟨(hanon hd).1, (hanon hd).2 _⟩
      have hwritten := h'.written hopen hopen' (pageOffset addr) hchunk
      refine twins_bind (twins_setContents h'.alike (twins_bind (twins_word.2 ?_)) h')
      split
      · refine ih hwritten (hm.live hs) _ (by simp [hsize]) ?_
        by_cases hd : data' = data
        · exact .inl (by rw [hd])
        · exact .inr (hanon hd)
      · exact hwritten

theorem twins_copyOut (h : m.Veils secret n) (hs : (m.view.book s).isSome) (va len : Nat) :
    Twins (copyOut s va len) (copyOut s va len) m n
      (fun c d m' n' => d.failure = c.failure ∧ d.bytes.size = c.bytes.size ∧ (¬ secret s → d.bytes = c.bytes) ∧
        m'.Veils secret n')
      fun _ m' n' => m'.Veils secret n' := by
  unfold copyOut
  split
  · exact twins_readPages h hs _ va len rfl fun _ => rfl
  · exact twins_pure.2 ⟨rfl, rfl, fun _ => rfl, h⟩

theorem twins_copyIn (h : m.Veils secret n) (hs : (m.view.book s).isSome) (va : Nat) {data data' : Array UInt8}
    (hsize : data'.size = data.size)
    (hsame : data' = data ∨ secret s ∧ ∀ va p, m.view.page ⟨s, va⟩ = some p → p.finalKind = .anon) :
    Twins (copyIn s va data) (copyIn s va data') m n (fun _ _ m' n' => m'.Veils secret n')
      fun _ m' n' => m'.Veils secret n' := by
  unfold copyIn
  rw [hsize]
  split
  · exact twins_writePages h hs _ va hsize hsame
  · exact twins_fail.2 h

end Vm

namespace Machine

variable {hidden hidden' : PageRef → Prop} {child parent : SpaceId} {va : Addr}

namespace Hides

theorem mono (h : m.Hides secret hidden n) (hh : ∀ r, hidden r → hidden' r)
    (henclosed : ∀ r, hidden' r → secret r.space) :
    m.Hides secret hidden' n :=
  ⟨h.alike.mono hh, h.left, h.right, henclosed, h.cell⟩

theorem unhide (h : m.Hides secret hidden n) (hh : ∀ r p, hidden r → m.view.page r = some p → ∃ f, p.frame = some f) :
    m.Veils secret n :=
  ⟨h.alike.unhide hh, h.left, h.right, nofun, h.cell⟩

theorem copies_eq {c d : Contents} (h : m.Hides secret hidden n) (hc : m.view.Copies r c) (hd : n.view.Copies r d)
    (hpublic : ∀ p, m.view.page r = some p → secret r.space → p.finalKind = .file) : d = c := by
  have hnone {v : View} {p : Page} {b : Backing} (hp : v.page r = some p) (hf : p.frame = none)
      (hst : p.state = .file b) :
      v.cell r = none := by
    simp [View.cell, hp, hf, Page.slot?, hst]
  rcases hc with hc | ⟨p, b, hp, hf, hst, rfl⟩
  · rcases hd with hd | ⟨q, b, hq, hf, hst, rfl⟩
    · obtain ⟨p, hp, -⟩ := Option.bind_eq_some_iff.1 hc
      have hcell := h.cell r p hp (hpublic p hp)
      rw [hc, hd] at hcell
      exact Option.some.inj hcell
    · have hcell := (h.alike.cell_eq_none r).1 (hnone hq hf hst)
      rw [hc] at hcell
      cases hcell
  · rcases hd with hd | ⟨q, b', hq, -, hst', rfl⟩
    · have hcell := (h.alike.cell_eq_none r).2 (hnone hp hf hst)
      rw [hd] at hcell
      cases hcell
    · obtain ⟨q', hq', hpq⟩ := h.alike.page hp
      obtain rfl := Option.some.inj (hq.symm.trans hq')
      have hsame : q = p := by
        cases hpq with
        | refl => rfl
        | copied => cases hst
      subst hsame
      obtain rfl : b' = b := PageState.file.inj (hst'.symm.trans hst)
      rw [fileAt_view, fileAt_view, h.alike.file_eq]

end Hides

def Halts (secret : SpaceId → Prop) (child : SpaceId) (m n : Machine) : Prop :=
  ∃ hidden : PageRef → Prop, (∀ r, hidden r → r.space = child) ∧ m.Hides secret hidden n

theorem Veils.halts (h : m.Veils secret n) : m.Halts secret child n := ⟨_, nofun, h⟩

end Machine

namespace Vm

variable {hidden : PageRef → Prop} {child parent : SpaceId} {va : Addr} {p : Page} {regions : List (Addr × Region)}

theorem twins_copy (h : m.Hides secret hidden n) (hs : (m.view.book s).isSome) (ha : isPageAligned va = true) :
    Twins (snapshot s va) (snapshot s va) m n
      (fun c d m' n' => m'.Hides secret hidden n' ∧
        ((∀ p, m.view.page ⟨s, va⟩ = some p → secret s → p.finalKind = .file) → d = c))
      fun _ m' n' => m'.Hides secret hidden n' := by
  refine ((twins_snapshot h.tidy s va).and (yields_snapshot h.left hs ha)
    (yields_snapshot h.right (h.alike.live hs) ha)).mono ?_ ?_
  · rintro c d m' n' ⟨h', ⟨hm, -, hc⟩, hn, -, hd⟩
    refine ⟨h.inert h'.alike (hm.toGoes.mono fun _ => Act.Quiet.inert) (hn.toGoes.mono fun _ => Act.Quiet.inert),
      fun hpublic => ?_⟩
    exact h.copies_eq hc hd hpublic
  · rintro e m' n' ⟨h', hm, hn⟩
    obtain ⟨_, -, hm, -⟩ := hm.error
    obtain ⟨_, -, hn, -⟩ := hn.error
    exact h.inert h'.alike (hm.toGoes.mono fun _ => Act.Quiet.inert) (hn.toGoes.mono fun _ => Act.Quiet.inert)

theorem twins_implant (h : m.Veils secret n) (hsecret : secret child) (hc : (m.view.book child).isSome) (w : Bool)
    {purpose : Purpose} (hpurpose : ∀ b, purpose ≠ .file b) (c d : Contents) :
    Twins (do
      register child va w purpose (some (.snapshot c))
      makeResident child va) (do
      register child va w purpose (some (.snapshot d))
      makeResident child va) m n (fun _ _ m' n' => m'.Veils secret n') fun _ m' n' => m'.Halts secret child n' := by
  have hhidden : m.Hides secret (· = ⟨child, pageBase va⟩) n := h.mono nofun fun r hr => hr ▸ hsecret
  refine ((twins_register hhidden.tidy child va w purpose (.copied rfl w hpurpose c d)).and
    (((going_register child va w purpose _).inert m h.left).and (yields_register h.left hc va w purpose _))
    ((going_register child va w purpose _).inert n h.right)).bind ?_ ?_
  · rintro _ _ m' n' ⟨h', ⟨hm, -, -, hadd, -⟩, hn⟩
    have hlive : (m'.view.book child).isSome := hadd.path.live (by simp [Act.Adds, Act.Quiet]) hc
    refine (((hides_makeResident child va).twins m' n' (hhidden.inert h'.alike hm hn)).and
      (yields_makeResident (hm.sound h.left) hlive va) yields_any).mono ?_ ?_
    · rintro _ _ m n ⟨⟨-, h⟩, ⟨-, -, p, f, hp, hf⟩, -⟩
      refine h.unhide fun r q hr hq => ?_
      subst hr
      exact ⟨f, Option.some.inj (hp.symm.trans hq) ▸ hf⟩
    · rintro e m n ⟨h, -⟩
      exact ⟨(· = ⟨child, pageBase va⟩), fun r hr => congrArg PageRef.space hr, h⟩
  · rintro e m' n' ⟨h', ⟨hm, -⟩, hn⟩
    exact ⟨(· = ⟨child, pageBase va⟩), fun r hr => congrArg PageRef.space hr, hhidden.inert h'.alike hm hn⟩

/-- A page is inherited in the same way, whatever secret spaces hold, if what is copied of them is secret too. -/
theorem twins_inheritPage (h : m.Veils secret n) (hup : secret parent → secret child)
    (hc : (m.view.book child).isSome) (hp : (m.view.book parent).isSome) (ha : isPageAligned va = true)
    (hpage : ∃ q, m.view.page ⟨parent, va⟩ = some q ∧ p.Like q) :
    Twins (inheritPage child parent regions va p) (inheritPage child parent regions va p) m n
      (fun _ _ m' n' => m'.Veils secret n') fun _ m' n' => m'.Halts secret child n' := by
  have hpaged := hides_paged secret
  have hback (b : Backing) : Respects (Veils secret) (childBacking regions va b) :=
    hpaged.toModular.childBacking hpaged.duplicate regions va b
  have hrest {x : Vm Unit} (hx : Respects (Veils secret) x) {m n : Machine} (h : m.Veils secret n) :
      Twins x x m n (fun _ _ m' n' => m'.Veils secret n') fun _ m' n' => m'.Halts secret child n' :=
    (hx.twins m n h).mono (fun _ _ _ _ h => h.2) fun _ _ _ h => h.halts
  cases hst : p.state with
  | untouched filling purpose =>
      rw [inheritPage, hst]
      cases purpose with
      | file b => exact hrest ((hback b).bind fun b => hpaged.register ..) h
      | anon | stack => exact hrest (hpaged.register ..) h
  | anon slot stack =>
      rw [inheritPage, hst]
      refine ((twins_copy h hp ha).and (yields_snapshot h.left hp ha) yields_any).bind ?_ fun _ _ _ h => Veils.halts h.1
      rintro c d m' n' ⟨⟨h', hsame⟩, ⟨hm, -⟩, -⟩
      by_cases hs : secret parent
      · refine twins_implant h' (hup hs) (hm.path.live (by simp [Act.Quiet]) hc) _ ?_ c d
        cases stack <;> simp
      · obtain rfl := hsame fun _ _ hs' => absurd hs' hs
        exact hrest ((hpaged.register ..).bind fun _ => hpaged.makeResident ..) h'
  | file b =>
      have hfile (q : Page) (hq : m.view.page ⟨parent, va⟩ = some q) : q.finalKind = .file := by
        obtain ⟨q', hq', hlike⟩ := hpage
        obtain rfl := Option.some.inj (hq.symm.trans hq')
        rw [hlike.finalKind, Page.finalKind, hst]
      rw [inheritPage, hst]
      dsimp only
      split
      · refine twins_space h.alike h.halts fun sp sq _ _ hs => ?_
        rw [hs.eq]
        refine (twins_copy h hp ha).bind ?_ fun _ _ _ h => Veils.halts h
        rintro c d m' n' ⟨h', hsame⟩
        obtain rfl := hsame fun q hq _ => hfile q hq
        refine hrest ((hback b).bind fun b => (hpaged.register ..).bind fun _ =>
          (hpaged.makeResident ..).bind fun _ => ?_) h'
        split
        · exact (going_setDirty child va).inert.hides (respects_table child _)
        · exact hpaged.pure _
      · exact hrest ((hback b).bind fun b => hpaged.register ..) h

section

variable {k : Nat} {l : List (Addr × Region)} {o : Machine} (hup : secret parent → secret child) (ho : o.Sound)
  (hc : (o.view.book child).isSome) (hp : (o.view.book parent).isSome)
include hup ho hc hp

theorem twins_inheritPages (hl : List.Forall₂ (Reopens k) l regions) (done todo : List (Addr × Page))
    (hpages : ∀ x ∈ todo, o.view.page ⟨parent, x.1⟩ = some x.2) (hnodup : (done ++ todo).Pairwise (·.1 ≠ ·.1))
    (hin : o.Inheriting child parent k l done m) (h : m.Veils secret n) :
    Twins (inheritPages child parent regions todo) (inheritPages child parent regions todo) m n
      (fun _ _ m' n' => m'.Veils secret n') fun _ m' n' => m'.Halts secret child n' := by
  induction todo generalizing m n done with
  | nil => exact twins_pure.2 h
  | cons x rest ih =>
      have hx := hpages x List.mem_cons_self
      have hne := (List.pairwise_append.1 hnodup).2.2
      have hlike := hin.makes.path.like hx (fun _ ha => ha.2.2) id
      refine ((twins_inheritPage h hup (hin.makes.live hc) (hin.makes.live hp) (ho.coherent.placed hx).2.1 hlike).and
        (yields_inheritNext ho hc hp hl done x hx (fun y hy => hne y hy x List.mem_cons_self) hin) yields_any).bind ?_
        fun _ _ _ h => h.1
      rintro _ _ m' n' ⟨h', hin', -⟩
      rw [← List.singleton_append, ← List.append_assoc] at hnodup
      exact ih (done ++ [x]) (fun y hy => hpages y (List.mem_cons_of_mem _ hy)) hnodup hin' h'

end

theorem twins_inherit (h : m.Veils secret n) (hup : secret parent → secret child) (hc : (m.view.book child).isSome)
    (hp : (m.view.book parent).isSome) :
    Twins (inherit child parent) (inherit child parent) m n (fun _ _ m' n' => m'.Veils secret n')
      fun _ m' n' => m'.Halts secret child n' := by
  have hpaged := hides_paged secret
  unfold inherit
  refine twins_space h.alike h.halts fun sp sq hsp _ hs => ?_
  rw [hs.eq]
  refine (((hpaged.toModular.duplicateRegions hpaged.duplicate sp.regions.toList).twins m n h).and
    (yields_duplicateRegions h.left.consistent sp.regions.toList (Nat.le_refl _ : Numbered m.nextHandle m))
    yields_any).bind ?_ fun _ _ _ h => h.2.1.elim
  rintro _ regions m' n' ⟨⟨rfl, h'⟩, ⟨hl, hm, hv, hk⟩, -⟩
  have hpages (x : Addr × Page) (hx : x ∈ sp.pages.toList) : m.view.page ⟨parent, x.1⟩ = some x.2 :=
    (mem_pages hsp).1 hx
  refine (twins_inheritPages hup h.left hc hp hl [] sp.pages.toList hpages sp.pairwise_pages
    (.start h.left.consistent hm hv hk) h').bind ?_ fun _ _ _ => id
  intro _ _ m n h
  have hbook : Respects (Veils secret) (do
      let after ← space parent
      modifySpace child fun sp => { sp with
        regions := sp.regions.insertMany regions
        stackBottom := after.stackBottom
        savedStack := after.savedStack }
      emit (.forked child parent)) := by
    refine (hpaged.space parent).bind fun after => ?_
    exact hpaged.bind (hpaged.book child (fun _ => rfl) fun _ => rfl) fun _ => hpaged.emit rfl
  exact (hbook.twins m n h).mono (fun _ _ _ _ h => h.2) fun _ _ _ h => Veils.halts h

theorem twins_fork (h : m.Veils secret n) (hup : secret parent → secret child) (hc : (m.view.book child).isSome)
    (hp : (m.view.book parent).isSome) (hb : Bounded (m.view.regions parent).toList) :
    Twins (fork child parent) (fork child parent) m n (fun _ _ m' n' => m'.Veils secret n')
      fun _ m' n' => m'.Veils secret n' := by
  unfold fork
  refine twins_bind (twins_attempt
    (((twins_inherit h hup hc hp).and (yields_inherit h.left hc hp) yields_any).mono ?_ ?_))
  · rintro _ _ m' n' ⟨h', -⟩
    exact twins_pure.2 h'
  · rintro e m' n' ⟨⟨hidden, hchild, h'⟩, ⟨hm, -, -, herr⟩, -⟩
    obtain ⟨e, rfl⟩ := herr hb
    have hdestroy : Respects (Hides secret hidden) (destroy child) :=
      (going_destroy child).hides (respects_destroy child)
    refine ((hdestroy.twins m' n' h').and (yields_destroy (hm.sound h.left) (hm.live hc)) yields_any).bind ?_
      fun _ _ _ h => h.2.1.elim
    rintro _ _ m n ⟨⟨-, h⟩, ⟨-, hlost, -⟩, -⟩
    -- Whatever snapshot is still hidden belongs to a page of the child, and those are gone.
    refine twins_fail.2 (h.unhide fun r p hr hp => ?_)
    rw [hlost.absent _ (hchild r hr)] at hp
    cases hp

end Vm

end DemandPaging
