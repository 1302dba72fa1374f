import DemandPaging.Proofs.Forking
import DemandPaging.Proofs.Mappings
import DemandPaging.Proofs.UserBytes

namespace DemandPaging

open Function (update)
open Step Machine

/-- What can be asked of the machine. The last four are not asked by processes: files are made and
written and devices fail behind the machine's back. -/
inductive Call
  | newSpace
  | dropSpace (s : SpaceId)
  | register (s : SpaceId) (va : Addr) (writable : Bool) (purpose : Purpose) (filling : Option Filling)
  | claim (s : SpaceId) (va : Addr)
  | remove (s : SpaceId) (va : Addr)
  | destroy (s : SpaceId)
  | read (s : SpaceId) (va len : Nat)
  | write (s : SpaceId) (va : Nat) (data : Array UInt8)
  | saveStack (s : SpaceId) (esp : Addr)
  | fault (s : SpaceId) (esp addr : Addr) (user write notPresent : Bool)
  | handle (s : SpaceId) (esp addr : Addr) (user write notPresent : Bool)
  | map (s : SpaceId) (addr len : Nat) (writable : Bool) (h : Handle) (offset : Nat)
  | unmap (s : SpaceId) (addr : Addr)
  | segment (s : SpaceId) (h : Handle) (offset addr readBytes zeroBytes : Nat) (writable : Bool)
  | startStack (s : SpaceId)
  | fork (child parent : SpaceId)
  | newFile (bytes : Array UInt8)
  | limitFile (f : FileId) (limits : Nat → FileLimits)
  | overwrite (f : FileId) (offset : Nat) (data : Array UInt8)
  | setFaults (faults : Faults)

inductive Answer
  | done
  | space (s : SpaceId)
  | copied (c : Copied)
  | address (a : Addr)
  | resolved (b : Bool)
  | file (f : FileId)
  | count (n : Nat)

namespace Call

def spaces : Call → List SpaceId
  | dropSpace s | register s .. | claim s _ | remove s _ | destroy s | read s .. | write s .. |
    saveStack s _ | fault s .. | handle s .. | map s .. | unmap s _ | segment s .. | startStack s => [s]
  | fork child parent => [child, parent]
  | newSpace | newFile _ | limitFile .. | overwrite .. | setFaults _ => []

def Grows (s : SpaceId) : Call → Prop
  | read t .. | write t .. | fault t .. | handle t .. | startStack t => s = t
  | newSpace | dropSpace _ | register .. | claim .. | remove .. | destroy _ | saveStack .. | map .. |
    unmap .. | segment .. | fork .. | newFile _ | limitFile .. | overwrite .. | setFaults _ => False

def exec : Call → Vm Answer
  | newSpace => do pure (.space (← Vm.newSpace))
  | dropSpace s => do Vm.dropSpace s; pure .done
  | register s va writable purpose filling => do Vm.register s va writable purpose filling; pure .done
  | claim s va => do Vm.makeResident s va; pure .done
  | remove s va => do Vm.remove s va; pure .done
  | destroy s => do Vm.destroy s; pure .done
  | read s va len => do pure (.copied (← Vm.copyOut s va len))
  | write s va data => do Vm.copyIn s va data; pure .done
  | saveStack s esp => do Vm.saveStackPointer s esp; pure .done
  | fault s esp addr user w np => do Vm.resolveFault s esp addr user w np; pure .done
  | handle s esp addr user w np => do pure (.resolved (← Vm.onFault s esp addr user w np))
  | map s addr len writable h offset => do pure (.address (← Vm.addMapping s addr len writable h offset))
  | unmap s addr => do Vm.removeMapping s addr; pure .done
  | segment s h offset addr readBytes zeroBytes writable => do
      Vm.addSegment s h offset addr readBytes zeroBytes writable
      pure .done
  | startStack s => do pure (.address (← Vm.startStack s))
  | fork child parent => do Vm.fork child parent; pure .done
  | newFile bytes => do pure (.file (← Vm.newFile bytes))
  | limitFile f limits => do Vm.setLimits f limits; pure .done
  | overwrite f offset data => do pure (.count (← Vm.overwriteFile f offset data))
  | setFaults faults => do Vm.setFaults faults; pure .done

end Call

def Call.IsPaged : Call → Prop
  | .register .. | .claim .. | .remove .. | .destroy _ | .saveStack .. | .fault .. | .handle .. | .map .. | .unmap .. |
    .segment .. | .startStack _ => True
  | .newSpace | .dropSpace _ | .read .. | .write .. | .fork .. | .newFile _ | .limitFile .. | .overwrite .. |
    .setFaults _ => False

theorem Vm.Paged.exec {K : (α : Type) → Vm α → Prop} (h : Paged K) {c : Call} (hc : c.IsPaged) : K _ c.exec := by
  cases c with
  | register => exact h.bind (h.register ..) fun _ => h.pure _
  | claim => exact h.bind (h.makeResident ..) fun _ => h.pure _
  | remove => exact h.bind (h.remove ..) fun _ => h.pure _
  | destroy s => exact h.bind (h.destroy s) fun _ => h.pure _
  | saveStack s => exact h.bind (h.book s (fun _ => rfl) fun _ => rfl) fun _ => h.pure _
  | fault => exact h.bind (h.growing.resolveFault (h.makeResident ..) ..) fun _ => h.pure _
  | handle => exact h.bind (h.growing.onFault (h.makeResident ..) ..) fun _ => h.pure _
  | map => exact h.bind (h.addMapping ..) fun _ => h.pure _
  | unmap => exact h.bind (h.removeMapping ..) fun _ => h.pure _
  | segment s => exact h.bind (h.toModular.addSegment (h.register s) (fun _ _ => h.emit rfl) ..) fun _ => h.pure _
  | startStack s => exact h.bind (h.growing.startStack s) fun _ => h.pure _
  | _ => exact hc.elim

theorem Vm.Whole.exec {K : (α : Type) → Vm α → Prop} (h : Whole K) {c : Call} (hc : ∀ faults, c ≠ .setFaults faults) :
    K _ c.exec := by
  cases c with
  | newSpace => exact h.bind h.newSpace fun _ => h.pure _
  | dropSpace s => exact h.bind (h.dropSpace s) fun _ => h.pure _
  | read => exact h.bind (h.copyOut ..) fun _ => h.pure _
  | write => exact h.bind (h.copyIn ..) fun _ => h.pure _
  | fork => exact h.bind (h.fork ..) fun _ => h.pure _
  | newFile bytes => exact h.bind (h.newFile bytes) fun _ => h.pure _
  | limitFile => exact h.bind (h.bind h.get fun _ => h.putFile ..) fun _ => h.pure _
  | overwrite =>
      refine h.bind (h.bind h.get fun _ => ?_) fun _ => h.pure _
      exact h.bind (h.putFile ..) fun _ => h.pure _
  | setFaults faults => exact absurd rfl (hc faults)
  | _ => exact h.paged.exec trivial

structure Turn where
  call : Call
  before : Machine
  answer : Except Stop Answer
  after : Machine

def Call.turn (c : Call) (m : Machine) : Turn :=
  match c.exec.run m with
  | .ok a n => ⟨c, m, .ok a, n⟩
  | .error e n => ⟨c, m, .error e, n⟩

theorem before_turn (c : Call) (m : Machine) : (c.turn m).before = m := by
  unfold Call.turn
  split <;> rfl

theorem call_turn (c : Call) (m : Machine) : (c.turn m).call = c := by
  unfold Call.turn
  split <;> rfl

theorem Call.live {c : Call} {m : Machine} {s : SpaceId} (hc : ∀ s ∈ c.spaces, (m.space? s).isSome)
    (hs : s ∈ c.spaces) : (m.view.book s).isSome := by
  rw [← space?_isSome]
  exact hc s hs

theorem Call.live_of_single {c : Call} {m : Machine} {s : SpaceId} (hc : c.spaces = [s])
    (hs : (m.view.book s).isSome) : ∀ s' ∈ c.spaces, (m.space? s').isSome := by
  intro s' hs'
  rw [hc] at hs'
  rwa [List.mem_singleton.1 hs', space?_isSome]

structure Hardware where
  frames : Nat
  disk : Disk
  frames_lt : frames < 2 ^ 32
  disk_lt : disk.size < 2 ^ 32

def Hardware.boot (hw : Hardware) : Machine := .boot hw.frames hw.disk

/-- The turns taken since the machine was booted, the latest first, and the machine as it is now.
Calls are made on spaces that live. -/
inductive Runs (hw : Hardware) : List Turn → Machine → Prop
  | boot : Runs hw [] hw.boot
  | turn {l : List Turn} {m : Machine} (h : Runs hw l m) (c : Call)
      (hc : ∀ s ∈ c.spaces, (m.space? s).isSome) : Runs hw (c.turn m :: l) (c.turn m).after

theorem Runs.before {hw : Hardware} {l : List Turn} {t : Turn} {m : Machine} (h : Runs hw (t :: l) m) :
    Runs hw l t.before := by
  cases h with
  | turn h c hc => rwa [before_turn]

/-- The latest turn of a run was taken on the machine that the turns before it had left. -/
theorem Runs.last {hw : Hardware} {l : List Turn} {t : Turn} {c : Call} {m : Machine}
    (h : Runs hw (t :: l) m) (hcall : t.call = c) :
    ∃ n, t = c.turn n ∧ m = (c.turn n).after ∧ Runs hw l n ∧ ∀ s ∈ c.spaces, (n.view.book s).isSome := by
  cases h with
  | turn h c' hc =>
      obtain rfl : c' = c := (call_turn ..).symm.trans hcall
      exact ⟨_, rfl, rfl, h, fun s => Call.live hc⟩

namespace Hardware

def machine (hw : Hardware) : List Call → Machine
  | [] => hw.boot
  | c :: l => (c.turn (hw.machine l)).after

def turns (hw : Hardware) : List Call → List Turn
  | [] => []
  | c :: l => c.turn (hw.machine l) :: hw.turns l

def allows (hw : Hardware) : List Call → Bool
  | [] => true
  | c :: l => (c.spaces.all fun s => ((hw.machine l).space? s).isSome) && hw.allows l

theorem runs (hw : Hardware) {l : List Call} (h : hw.allows l = true) :
    Runs hw (hw.turns l) (hw.machine l) := by
  induction l with
  | nil => exact .boot
  | cons c l ih =>
      simp only [allows, Bool.and_eq_true, List.all_eq_true] at h
      exact (ih h.2).turn c h.1

theorem call_of_mem_turns {hw : Hardware} {l : List Call} {t : Turn} (h : t ∈ hw.turns l) : t.call ∈ l := by
  induction l with
  | nil => cases h
  | cons c l ih =>
      rcases List.mem_cons.1 h with rfl | h
      · exact List.mem_cons.2 (.inl (call_turn ..))
      · exact List.mem_cons_of_mem _ (ih h)

def small : Hardware where
  frames := 1
  disk := .blank 16 16
  frames_lt := by decide
  disk_lt := by decide

def single : Hardware := { small with disk := .blank 0 16, disk_lt := by decide }

end Hardware

namespace Call

def Registers (v : View) (r : PageRef) (p : Page) : Call → Prop
  | register s va writable purpose filling => r = ⟨s, pageBase va⟩ ∧ p = .lazy writable purpose filling
  | read s .. | write s .. | fault s .. | handle s .. | startStack s => r.space = s ∧ IsStackPage r.va p
  | map s addr len writable h offset => r.space = s ∧ ∃ serial, IsPart addr
      (mappingPage writable ⟨h.file, serial⟩ offset (v.fileAt h.file).length len) r.va p
  | segment s h offset addr readBytes _ writable =>
      r.space = s ∧ IsPart addr (segmentPage writable h offset readBytes) r.va p
  | fork child parent => r.space = child ∧ Inherits v ⟨parent, r.va⟩ p
  | newSpace | dropSpace _ | claim .. | remove .. | destroy _ | saveStack .. | unmap .. | newFile _ |
    limitFile .. | overwrite .. | setFaults _ => False

def Removes (v w : View) (r : PageRef) (saved : Bool) : Call → Prop
  | remove s va => r = ⟨s, pageBase va⟩
  | destroy s => r.space = s ∧ (saved = false → ∃ e, v.Told w (.destroyFailed s r.va e))
  | unmap s addr => r.space = s ∧
      (∃ g j, (v.regions s)[pageBase addr]? = some g ∧ j < g.pages ∧ r.va = pageBase addr + j * pageSize) ∧
      (saved = false → ∃ e, v.Told w (.unmapFailed s r.va e))
  | fork child _ => r.space = child
  | read s .. | write s .. | fault s .. | handle s .. | map s .. | segment s .. | startStack s =>
      r.space = s ∧ v.page r = none
  | newSpace | dropSpace _ | register .. | claim .. | saveStack .. | newFile _ | limitFile .. |
    overwrite .. | setFaults _ => False

def Books (v : View) (s : SpaceId) (b : Book) : Call → Prop
  | map t addr _ _ _ _ => s = t ∧ (b.regions = v.regions s ∨
      v.page ⟨s, addr⟩ = none ∧ ∃ g, b.regions = (v.regions s).insert addr g)
  | unmap t addr => s = t ∧ b.regions = (v.regions s).erase (pageBase addr)
  | destroy t => s = t
  | fork child _ => s = child
  | read t .. | write t .. | fault t .. | handle t .. | segment t .. | startStack t | saveStack t _ =>
      s = t ∧ b.regions = v.regions s
  | newSpace | dropSpace _ | register .. | claim .. | remove .. | newFile _ | limitFile .. |
    overwrite .. | setFaults _ => False

def Puts (v : View) (id : FileId) (g : File → File) : Call → Prop
  | newFile bytes => v.file id = none ∧ g = fun _ => { bytes := bytes }
  | limitFile f limits => id = f ∧ g = fun F => { F with limits := limits }
  | overwrite f offset data => id = f ∧ g = fun F => (F.overwrite offset data).2
  | newSpace | dropSpace _ | register .. | claim .. | remove .. | destroy _ | read .. | write .. |
    saveStack .. | fault .. | handle .. | map .. | unmap .. | segment .. | startStack _ | fork .. |
    setFaults _ => False

end Call

namespace Turn

/-- The bytes that a turn stored in user memory: all that it was asked to, or those before the
address at which it failed. -/
def written (t : Turn) : Option (SpaceId × Nat × Array UInt8) :=
  match t.call, t.answer with
  | .write s va data, .ok _ => some (s, va, data)
  | .write s va data, .error (.error (.badAddress a)) => some (s, va, data.extract 0 (a - va))
  | _, _ => none

def succeeds (t : Turn) : Bool :=
  match t.answer with
  | .ok _ => true
  | .error _ => false

theorem answer_of_succeeds {t : Turn} (h : t.succeeds = true) : ∃ x, t.answer = .ok x := by
  unfold succeeds at h
  split at h
  · exact ⟨_, ‹_›⟩
  · cases h

def readsAll (t : Turn) : Bool :=
  match t.answer with
  | .ok (.copied c) => c.failure.isNone
  | .ok _ | .error _ => false

theorem copied_of_readsAll {t : Turn} (h : t.readsAll = true) :
    ∃ cp, t.answer = .ok (.copied cp) ∧ cp.failure = none := by
  unfold readsAll at h
  split at h
  · exact ⟨_, ‹_›, Option.isNone_iff_eq_none.1 h⟩
  all_goals cases h

def May (t : Turn) : Act → Prop
  | .quiet => True
  | .loaded r => r.space ∈ t.call.spaces
  | .added r p => t.before.view.page r = none ∧ t.call.Registers t.before.view r p
  | .removed r saved => t.after.view.page r = none ∧
      t.call.Removes t.before.view t.after.view r saved
  | .stored r offset data => ∃ s va d k len, t.written = some (s, va, d) ∧ k + len ≤ d.size ∧
      pageOffset (va + k) + len ≤ pageSize ∧ r = ⟨s, pageBase (va + k)⟩ ∧
      offset = pageOffset (va + k) ∧ data = d.extract k (k + len)
  | .booked s b => t.call.Books t.before.view s b
  | .created _ => t.call = .newSpace
  | .dropped s => t.call = .dropSpace s
  | .put id g => t.call.Puts t.before.view id g

def Misses (t : Turn) : Prop :=
  match t.answer with
  | .error e => e.isMissing = true
  | .ok (.copied c) => ∃ e, c.failure = some e ∧ e.isMissing = true
  | .ok _ => False

end Turn

end DemandPaging
