import DemandPaging.Proofs.Copying
import DemandPaging.Proofs.Regions

namespace DemandPaging

open Step Machine Vm

variable {secret secret' : SpaceId → Prop} {hidden : PageRef → Prop} {m n m' n' : Machine} {b s : SpaceId} {c c' : Call}
  {hw : Hardware} {t t' : Turn} {l l' : List Turn} {r : PageRef} {p : Page}

def zeroed {k : Nat} (x : Array (Buffer k)) : Array (Buffer k) := x.map fun _ => Buffer.zero k

theorem zeroed_congr {k : Nat} {x y : Array (Buffer k)} (h : y.size = x.size) : zeroed y = zeroed x :=
  Array.ext (by simpa [zeroed] using h) (by simp [zeroed])

def Machine.blanked (m : Machine) : Machine where
  frames := { m.frames with memory := zeroed m.frames.memory }
  swap := ⟨m.swap.used, { m.swap.disk with medium := { m.swap.disk.medium with
    sectors := zeroed m.swap.disk.medium.sectors } }⟩
  files := m.files
  spaces := m.spaces
  nextSpace := m.nextSpace
  nextHandle := m.nextHandle
  log := m.log

theorem Machine.Alike.blanked_eq (h : m.Alike (fun _ => False) n) : n.blanked = m.blanked := by
  have hspaces : n.spaces = m.spaces := by
    refine Std.ExtTreeMap.ext_getElem? fun k => ?_
    have hs := h.spaces ⟨k⟩
    change Option.Rel _ m.spaces[k]? n.spaces[k]? at hs
    generalize m.spaces[k]? = x, n.spaces[k]? = y at hs
    cases hs with
    | none => rfl
    | some hs => rw [hs.eq]
  obtain ⟨hused, sectors, hsectors, hdisk⟩ := h.swap
  unfold blanked
  rw [h.frames.rest, hspaces, hused, hdisk, h.files, h.nextSpace, h.nextHandle, h.log]
  dsimp only
  rw [zeroed_congr h.frames.size, zeroed_congr hsectors]

namespace Machine.Alike

theorem withNewSpace (h : m.Alike hidden n) : m.withNewSpace.Alike hidden n.withNewSpace where
  frames := h.frames
  swap := h.swap
  files := h.files
  nextSpace := congrArg (· + 1) h.nextSpace
  nextHandle := h.nextHandle
  log := h.log
  spaces r := by
    rw [space?_withNewSpace, space?_withNewSpace, h.nextSpace]
    split
    · exact .some (.refl _ _)
    · exact h.spaces r

theorem withoutSpace (h : m.Alike hidden n) (s : SpaceId) : (m.withoutSpace s).Alike hidden (n.withoutSpace s) where
  frames := h.frames
  swap := h.swap
  files := h.files
  nextSpace := h.nextSpace
  nextHandle := h.nextHandle
  log := h.log
  spaces r := by
    rw [space?_withoutSpace, space?_withoutSpace]
    split
    · exact .none
    · exact h.spaces r

theorem withNewFile (h : m.Alike hidden n) (F : File) :
    Alike hidden { m with files := m.files.push F } { n with files := n.files.push F } where
  frames := h.frames
  swap := h.swap
  spaces := h.spaces
  files := congrArg (·.push F) h.files
  nextSpace := h.nextSpace
  nextHandle := h.nextHandle
  log := h.log

end Machine.Alike

namespace Vm

theorem going_newSpace : Going Act.Inert newSpace := fun _ hm =>
  (yields_newSpace hm).mono (fun _ _ hn => hn.inert (by simp [Act.Inert, Act.Leaves])) fun _ _ => False.elim

theorem going_dropSpace (s : SpaceId) : Going Act.Inert (dropSpace s) := fun _ hm =>
  (yields_dropSpace hm.consistent s).mono (fun _ _ hn => hn.1.inert (by simp [Act.Inert, Act.Leaves]))
    fun _ _ => False.elim

theorem going_newFile (bytes : Array UInt8) : Going Act.Inert (newFile bytes) := fun _ hm =>
  (yields_newFile hm.consistent bytes).mono (fun _ _ hn => hn.2.inert (by simp [Act.Inert, Act.Leaves]))
    fun _ _ => False.elim

theorem hides_newSpace : Respects (Hides secret hidden) newSpace :=
  going_newSpace.hides_alike ⟨fun _ _ h => twins_modifyGet.2 ⟨congrArg SpaceId.mk h.nextSpace, h.withNewSpace⟩⟩

theorem hides_dropSpace (s : SpaceId) : Respects (Hides secret hidden) (dropSpace s) :=
  (going_dropSpace s).hides_alike ⟨fun _ _ h => twins_modify.2 ⟨rfl, h.withoutSpace s⟩⟩

theorem hides_newFile (bytes : Array UInt8) : Respects (Hides secret hidden) (newFile bytes) :=
  (going_newFile bytes).hides_alike
    ⟨fun _ _ h => twins_modifyGet.2 ⟨congrArg (fun files => FileId.mk files.size) h.files, h.withNewFile _⟩⟩

theorem hides_replaceFile {α : Type} (f : FileId) (g : File → α × File) :
    Respects (Hides secret hidden) (do
      let x := g ((← get).file f)
      putFile f x.2
      pure x.1 : Vm α) := by
  refine Going.hides_alike (fun m hm => ?_) ⟨fun m n h => ?_⟩
  · refine yields_bind.2 (yields_get.2
      ((yields_replaceFile hm.consistent f fun F => (g F).2).bind ?_ fun _ _ => False.elim))
    exact fun _ n hn => yields_pure.2 (hn.inert (by simp [Act.Inert, Act.Leaves]))
  · rw [twins_get_bind, h.file_eq]
    exact twins_bind (twins_putFile.2 (twins_pure.2 ⟨rfl, h.withFile f _⟩))

theorem hides_setFaults (faults : Faults) : Respects (Hides secret hidden) (setFaults faults) := by
  refine Going.hides_alike (fun m hm => ?_) ⟨fun m n h => ?_⟩
  · refine (yields_setFaults hm.consistent faults).mono ?_ fun _ _ => False.elim
    rintro _ n ⟨hn, hv⟩
    exact ⟨hn, hv ▸ .refl⟩
  · obtain ⟨hused, sectors, hsize, hdisk⟩ := h.swap
    exact twins_onSwap (twins_modify.2 ⟨rfl, h.withSwap ⟨hused, sectors, hsize, by rw [hdisk]⟩⟩)

end Vm

namespace Call

inductive Parallel (b : SpaceId) : Call → Call → Prop
  | same (c : Call) : Parallel b c c
  | write (va : Nat) {data data' : Array UInt8} (h : data'.size = data.size) :
      Parallel b (.write b va data) (.write b va data')

def Spreads (secret : SpaceId → Prop) (s : SpaceId) : Call → Prop
  | fork child parent => s = child ∧ secret parent
  | newSpace | dropSpace _ | register .. | claim .. | remove .. | destroy _ | read .. | write .. | saveStack .. |
    fault .. | handle .. | map .. | unmap .. | segment .. | startStack _ | newFile _ | limitFile .. | overwrite .. |
    setFaults _ => False

/-- The same answers to a call, but for the bytes that a read of a secret space brings. -/
inductive Agree (secret : SpaceId → Prop) : Call → Except Stop Answer → Except Stop Answer → Prop
  | same (c : Call) (x : Except Stop Answer) : Agree secret c x x
  | read {s : SpaceId} (hs : secret s) (va len : Nat) {x y : Copied} (hfailure : y.failure = x.failure)
      (hsize : y.bytes.size = x.bytes.size) : Agree secret (.read s va len) (.ok (.copied x)) (.ok (.copied y))

theorem Agree.eq_of_not_secret {x y : Except Stop Answer} (h : c.Agree secret x y)
    (hs : ∀ s va len, c = .read s va len → ¬ secret s) : y = x := by
  cases h with
  | same => rfl
  | read h va len => exact absurd h (hs _ va len rfl)

end Call

open Call

def Machine.isPrivate (m : Machine) (s : SpaceId) : Bool :=
  (m.space? s).all fun sp => sp.pages.toList.all fun x => x.2.finalKind = .anon

theorem Machine.isPrivate_iff : m.isPrivate s = true ↔ ∀ va p, m.view.page ⟨s, va⟩ = some p → p.finalKind = .anon := by
  unfold isPrivate
  cases hs : m.space? s with
  | none => simp [view, hs]
  | some sp => simp [page_eq hs]

namespace Machine.Veils

theorem mono (h : m.Veils secret n)
    (hs : ∀ r p, m.view.page r = some p → secret r.space → secret' r.space) : m.Veils secret' n :=
  ⟨h.alike, h.left, h.right, nofun, fun r p hp hk => h.cell r p hp fun hr => hk (hs r p hp hr)⟩

theorem exec (h : m.Veils secret n) (hc : ∀ s ∈ c.spaces, (m.space? s).isSome) (hpar : c.Parallel b c')
    (hwrite : ∀ va data, c = .write b va data → secret b ∧ m.isPrivate b = true)
    (hb : ∀ s, Bounded (m.view.regions s).toList) :
    Twins c.exec c'.exec m n
      (fun x y m' n' => c.Agree secret (.ok x) (.ok y) ∧ m'.Veils (fun s => secret s ∨ c.Spreads secret s) n')
      fun _ m' n' => m'.Veils secret n' := by
  have hlive {s : SpaceId} (hs : s ∈ c.spaces) : (m.view.book s).isSome := Call.live hc hs
  have hsame {c : Call} (hx : Respects (Veils secret) c.exec) : Twins c.exec c.exec m n
      (fun x y m' n' => c.Agree secret (.ok x) (.ok y) ∧ m'.Veils (fun s => secret s ∨ c.Spreads secret s) n')
      fun _ m' n' => m'.Veils secret n' := by
    refine (hx.twins m n h).mono ?_ fun _ _ _ => id
    rintro _ x m' n' ⟨rfl, h'⟩
    exact ⟨.same _ _, h'.mono fun _ _ _ => .inl⟩
  have hmodular := respects_modular (Veils secret)
  cases hpar with
  | write va hsize =>
      obtain ⟨hs, hanon⟩ := hwrite va _ rfl
      refine (twins_copyIn h (hlive (List.mem_singleton_self b)) va hsize (.inr ⟨hs, isPrivate_iff.1 hanon⟩)).bind ?_
        fun _ _ _ => id
      exact fun _ _ m' n' h' => twins_pure.2 ⟨.same _ _, Veils.mono h' fun _ _ _ => .inl⟩
  | same =>
      cases c with
      | newSpace => exact hsame (hides_newSpace.bind fun _ => respects_pure _)
      | dropSpace s => exact hsame ((hides_dropSpace s).bind fun _ => respects_pure _)
      | read s va len =>
          refine (twins_copyOut h (hlive (List.mem_singleton_self s)) va len).bind ?_ fun _ _ _ => id
          rintro ⟨x, failure⟩ ⟨y, _⟩ m' n' ⟨hfailure, hsize, hbytes, h'⟩
          refine twins_pure.2 ⟨?_, h'.mono fun _ _ _ => .inl⟩
          by_cases hs : secret s
          · exact .read hs va len hfailure hsize
          · obtain rfl : y = x := hbytes hs
            obtain rfl := hfailure
            exact .same _ _
      | write s va data =>
          refine (twins_copyIn h (hlive (List.mem_singleton_self s)) va rfl (.inl rfl)).bind ?_ fun _ _ _ => id
          exact fun _ _ m' n' h' => twins_pure.2 ⟨.same _ _, Veils.mono h' fun _ _ _ => .inl⟩
      | fork child parent =>
          have hchild : (m.view.book child).isSome := hlive (by simp [Call.spaces])
          have hparent : (m.view.book parent).isSome := hlive (by simp [Call.spaces])
          have hspread : m.Veils (fun s => secret s ∨ s = child ∧ secret parent) n := h.mono fun _ _ _ => .inl
          have hup (hp : secret parent ∨ parent = child ∧ secret parent) :
              secret child ∨ child = child ∧ secret parent :=
            hp.elim (fun hp => .inr ⟨rfl, hp⟩) fun hp => .inr ⟨rfl, hp.2⟩
          refine ((twins_fork hspread hup hchild hparent (hb parent)).and (yields_fork h.left hchild hparent)
            yields_any).bind ?_ ?_
          · exact fun _ _ m' n' h' => twins_pure.2 ⟨.same _ _, h'.1⟩
          · rintro e m' n' ⟨h', ⟨-, ⟨-, -, hgone, -⟩ | ⟨hnb, -⟩⟩, -⟩
            · refine Veils.mono h' fun r p hp hr => ?_
              rcases hr with hr | ⟨hr, -⟩
              · exact hr
              · obtain ⟨s, va⟩ := r
                obtain rfl : s = child := hr
                rw [hgone va] at hp
                cases hp
            · exact absurd (hb parent) hnb
      | newFile bytes => exact hsame ((hides_newFile bytes).bind fun _ => respects_pure _)
      | limitFile f limits =>
          exact hsame ((hides_replaceFile f fun F => ((), { F with limits := limits })).bind fun _ => respects_pure _)
      | overwrite f offset data =>
          exact hsame ((hides_replaceFile f fun F => F.overwrite offset data).bind fun _ => respects_pure _)
      | setFaults faults => exact hsame ((hides_setFaults faults).bind fun _ => respects_pure _)
      | _ => exact hsame ((hides_paged secret).exec trivial)

theorem refl (h : m.Sound) : m.Veils secret m where
  alike := {
    frames := ⟨rfl, rfl⟩
    swap := ⟨rfl, .refl _⟩
    spaces := fun s => by
      cases m.space? s with
      | none => exact .none
      | some sp => exact .some (.refl _ sp)
    files := rfl
    nextSpace := rfl
    nextHandle := rfl
    log := rfl }
  left := h
  right := h
  enclosed := nofun
  cell _ _ _ _ := rfl

end Machine.Veils

theorem Call.turns_cases (K : Turn → Turn → Prop)
    (h : Twins c.exec c'.exec m n (fun x y m' n' => K ⟨c, m, .ok x, m'⟩ ⟨c', n, .ok y, n'⟩)
      fun e m' n' => K ⟨c, m, .error e, m'⟩ ⟨c', n, .error e, n'⟩) : K (c.turn m) (c'.turn n) := by
  unfold Twins at h
  unfold Call.turn
  cases hx : c.exec.run m <;> cases hy : c'.exec.run n <;> rw [hx, hy] at h
  · exact h
  · exact h.elim
  · exact h.elim
  · obtain ⟨rfl, h⟩ := h
    exact h

/-- The spaces that are `b`, or were copied from it, directly or through further copies. -/
def Descends (b : SpaceId) : List Turn → SpaceId → Prop
  | [], s => s = b
  | t :: l, s => Descends b l s ∨ t.succeeds = true ∧ t.call.Spreads (Descends b l) s

theorem descends_self (b : SpaceId) (l : List Turn) : Descends b l b := by
  induction l with
  | nil => rfl
  | cons t l ih => exact .inl ih

/-- A write to `b` is made while the pages of `b` are all anonymous. -/
def Turn.Private (b : SpaceId) (t : Turn) : Prop := ∀ va data, t.call = .write b va data → t.before.isPrivate b = true

theorem veils_turn (h : m.Veils (Descends b l) n) (hc : ∀ s ∈ c.spaces, (m.space? s).isSome) (hpar : c.Parallel b c')
    (hb : ∀ s, Bounded (m.view.regions s).toList) (hpriv : (c.turn m).Private b) :
    (c.turn m).call.Agree (Descends b l) (c.turn m).answer (c'.turn n).answer ∧
      (c.turn m).after.Veils (Descends b (c.turn m :: l)) (c'.turn n).after := by
  have hwrite (va : Nat) (data : Array UInt8) (hcall : c = .write b va data) :
      Descends b l b ∧ m.isPrivate b = true := by
    have hbefore := hpriv va data ((call_turn ..).trans hcall)
    rw [before_turn] at hbefore
    exact ⟨descends_self b l, hbefore⟩
  refine Call.turns_cases (fun t t' => t.call.Agree (Descends b l) t.answer t'.answer ∧
    t.after.Veils (Descends b (t :: l)) t'.after) ((h.exec hc hpar hwrite hb).mono ?_ ?_)
  · rintro x y m' n' ⟨hagree, h'⟩
    refine ⟨hagree, Veils.mono h' fun _ _ _ hs => ?_⟩
    exact hs.imp_right fun hs => ⟨rfl, hs⟩
  · exact fun e m' n' h' => ⟨.same _ _, Veils.mono h' fun _ _ _ => .inl⟩

section

variable {l' : List Turn} {m' : Machine}

theorem Runs.veils (h : Runs hw l m) (h' : Runs hw l' m')
    (hpar : List.Forall₂ (fun t t' => t.call.Parallel b t'.call) l l') (hpriv : ∀ t ∈ l, t.Private b) :
    m.Veils (Descends b l) m' := by
  induction h generalizing l' m' with
  | boot =>
      cases hpar
      cases h'
      exact .refl (sound_boot hw.frames_lt hw.disk_lt)
  | turn h c hc ih =>
      cases hpar with
      | cons hcall hpar =>
          cases h' with
          | turn h' c' hc' =>
              rw [call_turn, call_turn] at hcall
              have hbefore := ih h' hpar fun t ht => hpriv t (List.mem_cons_of_mem _ ht)
              exact (veils_turn hbefore hc hcall h.charted.bounded (hpriv _ List.mem_cons_self)).2

/-- Take two runs of the same calls, but that they write other bytes to `b`, as many and at the same addresses, whose
pages are all anonymous then. Calls give the same answers, except that reads of `b` and of what was copied from it may
bring other bytes, as many. The machines come to be the same but for the bytes in frames and on the swap device, and
there too the pages of all other spaces hold the same. -/
theorem Runs.secrecy (h : Runs hw (t :: l) m) (h' : Runs hw (t' :: l') m')
    (hpar : List.Forall₂ (fun t t' => t.call.Parallel b t'.call) (t :: l) (t' :: l'))
    (hpriv : ∀ u ∈ t :: l, u.Private b) :
    t.call.Agree (Descends b l) t.answer t'.answer ∧ m'.blanked = m.blanked ∧
      ∀ r p, m.page? r = some p → (Descends b (t :: l) r.space → p.finalKind = .file) →
        m'.view.cell r = m.view.cell r := by
  have hveils := h.veils h' hpar hpriv
  refine ⟨?_, hveils.alike.blanked_eq, hveils.cell⟩
  cases h with
  | turn h c hc =>
      cases h' with
      | turn h' c' hc' =>
          cases hpar with
          | cons hcall hpar =>
              rw [call_turn, call_turn] at hcall
              have hbefore := h.veils h' hpar fun u hu => hpriv u (List.mem_cons_of_mem _ hu)
              exact (veils_turn hbefore hc hcall h.charted.bounded (hpriv _ List.mem_cons_self)).1

end

namespace Hardware

theorem runs_cons (hw : Hardware) {l : List Call} (h : hw.allows (c :: l) = true) :
    Runs hw (c.turn (hw.machine l) :: hw.turns l) (c.turn (hw.machine l)).after :=
  hw.runs h

theorem parallel_turns (hw : Hardware) {l l' : List Call} (h : List.Forall₂ (Call.Parallel b) l l') :
    List.Forall₂ (fun t t' => t.call.Parallel b t'.call) (hw.turns l) (hw.turns l') := by
  induction h with
  | nil => exact .nil
  | cons hc _ ih =>
      refine .cons ?_ ih
      rw [call_turn, call_turn]
      exact hc

end Hardware

/-- A space writes a byte to the only frame and gives it up, and another space registers a page. -/
def writeAndGiveUp (x : UInt8) : List Call :=
  [.register ⟨2⟩ 0x1000 true .anon none, .remove ⟨1⟩ 0x1000, .write ⟨1⟩ 0x1000 #[x],
    .register ⟨1⟩ 0x1000 true .anon none, .newSpace, .newSpace]

def peek (x : UInt8) : Turn := (Call.read ⟨2⟩ 0x1000 1).turn (Hardware.small.machine (writeAndGiveUp x))

theorem parallel_writeAndGiveUp (x y : UInt8) :
    List.Forall₂ (Call.Parallel ⟨1⟩) (writeAndGiveUp x) (writeAndGiveUp y) :=
  .cons (.same _) (.cons (.same _) (.cons (.write _ rfl) (.cons (.same _) (.cons (.same _) (.cons (.same _) .nil)))))

theorem private_writeAndGiveUp {x : UInt8} (h : (hw.machine ((writeAndGiveUp x).drop 3)).isPrivate ⟨1⟩ = true) :
    ∀ u ∈ hw.turns (.read ⟨2⟩ 0x1000 1 :: writeAndGiveUp x), u.Private ⟨1⟩ := by
  simp only [Hardware.turns, writeAndGiveUp, List.forall_mem_cons, Turn.Private, call_turn, before_turn]
  simp only [reduceCtorEq, false_implies, implies_true, List.not_mem_nil, true_and, and_true]
  exact fun _ _ _ => h

theorem not_descends_of_read (x : UInt8) :
    ¬ Descends ⟨1⟩ (hw.turns (.read ⟨2⟩ 0x1000 1 :: writeAndGiveUp x)) ⟨2⟩ := by
  simp [Descends, Hardware.turns, writeAndGiveUp, call_turn, Call.Spreads]

/-- Whichever byte was written, the other space reads the same from the frame, and holds the same in it. -/
theorem secrecy_of_recycled_frame :
    (peek 9).answer = (peek 7).answer ∧ (peek 9).after.blanked = (peek 7).after.blanked ∧
      ((peek 7).after.page? ⟨⟨2⟩, 0x1000⟩).bind Page.frame = some ⟨0⟩ ∧
      (peek 9).after.view.cell ⟨⟨2⟩, 0x1000⟩ = (peek 7).after.view.cell ⟨⟨2⟩, 0x1000⟩ := by
  have hrun : Runs .small (peek 7 :: _) (peek 7).after := Hardware.small.runs_cons (by decide +kernel)
  have hrun' : Runs .small (peek 9 :: _) (peek 9).after := Hardware.small.runs_cons (by decide +kernel)
  have hpriv : ∀ u ∈ peek 7 :: Hardware.small.turns (writeAndGiveUp 7), u.Private ⟨1⟩ :=
    private_writeAndGiveUp (by decide +kernel)
  have hpar : List.Forall₂ (fun t t' => t.call.Parallel ⟨1⟩ t'.call)
      (peek 7 :: Hardware.small.turns (writeAndGiveUp 7)) (peek 9 :: Hardware.small.turns (writeAndGiveUp 9)) :=
    Hardware.small.parallel_turns (.cons (.same _) (parallel_writeAndGiveUp 7 9))
  have hother : ¬ Descends ⟨1⟩ (peek 7 :: Hardware.small.turns (writeAndGiveUp 7)) ⟨2⟩ := not_descends_of_read 7
  obtain ⟨hagree, hblank, hcell⟩ := Runs.secrecy hrun hrun' hpar hpriv
  have hframe : ((peek 7).after.page? ⟨⟨2⟩, 0x1000⟩).bind Page.frame = some ⟨0⟩ := by decide +kernel
  obtain ⟨p, hp, -⟩ := Option.bind_eq_some_iff.1 hframe
  refine ⟨hagree.eq_of_not_secret fun s va len hc hs => ?_, hblank, hframe, hcell _ p hp fun hs => absurd hs hother⟩
  cases (call_turn ..).symm.trans hc
  exact hother (.inl hs)

end DemandPaging
