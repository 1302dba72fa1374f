import DemandPaging.Fork
import DemandPaging.Mapping
import DemandPaging.Segment
import DemandPaging.UserCopy

namespace DemandPaging

namespace Event

def moves : Event → Bool
  | pageAdded .. | pageRemoved .. => true
  | _ => false

def weighs : Event → Bool
  | pageResident .. | evicted .. | evictionFailed .. | pageRemoved .. | writtenBack .. => true
  | _ => false

def light (e : Event) : Bool := !e.moves && !e.weighs

theorem weighs_of_light {e : Event} (h : e.light = true) : e.weighs = false := by
  simpa using (Bool.and_eq_true_iff.1 h).2

end Event

namespace Vm

open Step

variable {K : (α : Type) → Vm α → Prop} {S : SpaceId → Prop} {s : SpaceId} {α : Type}

/-- What holds of a step as soon as it holds of the steps that it is made of. -/
structure Modular (K : (α : Type) → Vm α → Prop) : Prop where
  pure : ∀ {α : Type} (a : α), K α (Pure.pure a)
  throw : ∀ {α : Type} (e : Stop), K α (MonadExcept.throw e)
  bind : ∀ {α β : Type} {x : Vm α} {f : α → Vm β}, K α x → (∀ a, K β (f a)) → K β (x >>= f)
  attempt : ∀ {α : Type} {x : Vm α}, K α x → K _ (Step.attempt x)

namespace Modular

variable (h : Modular K)
include h

theorem fail (e : PagingError) : K α (Step.fail e) := h.throw _

theorem ofPanic (r : Except Panic α) : K α (Step.ofPanic r) := by
  cases r with
  | ok a => exact h.pure a
  | error p => exact h.throw _

theorem ofError (r : Except PagingError α) : K α (Step.ofError r) := by
  cases r with
  | ok a => exact h.pure a
  | error e => exact h.throw _

theorem check (e : Option PagingError) : K _ (Step.check e) := by
  cases e with
  | none => exact h.pure _
  | some e => exact h.throw _

theorem word (n : Nat) : K _ (Step.word n) := by
  unfold Step.word
  split
  · exact h.pure _
  · exact h.throw _

theorem minus (a b : Nat) : K _ (Step.minus a b) := by
  unfold Step.minus
  split
  · exact h.pure _
  · exact h.throw _

theorem removeAll {failed : Addr → PagingError → Event} {l : List Addr} (hremove : ∀ va ∈ l, K _ (remove s va))
    (hfailed : ∀ va e, K _ (emit (failed va e))) : K _ (Vm.removeAll s failed l) := by
  induction l with
  | nil => exact h.pure _
  | cons va rest ih =>
      have hrest := ih fun a ha => hremove a (List.mem_cons_of_mem _ ha)
      apply h.bind (h.attempt (hremove va List.mem_cons_self))
      intro r
      split
      · exact hrest
      · exact h.bind (hfailed _ _) fun _ => hrest

theorem sweep {referenced : FrameId → Vm Bool} (href : ∀ f, K _ (referenced f)) (spared l : List FrameId) :
    K _ (Clock.sweep referenced spared l) := by
  induction l generalizing spared with
  | nil => exact h.pure _
  | cons f rest ih =>
      apply h.bind (href f)
      intro b
      split
      · exact ih _
      · exact h.pure _

theorem duplicateRegions (hdup : ∀ hd, K _ (duplicate hd)) (l : List (Addr × Region)) :
    K _ (Vm.duplicateRegions l) := by
  induction l with
  | nil => exact h.pure _
  | cons x rest ih => exact h.bind (hdup _) fun _ => h.bind ih fun _ => h.pure _

theorem childBacking (hdup : ∀ hd, K _ (duplicate hd)) (regions : List (Addr × Region)) (va : Addr) (b : Backing) :
    K _ (Vm.childBacking regions va b) := by
  have hown : K _ (do Pure.pure { b with handle := ← duplicate b.handle }) :=
    h.bind (hdup _) fun _ => h.pure _
  unfold Vm.childBacking
  split
  · apply h.bind (h.word _)
    intro stop
    split
    · exact h.pure _
    · exact hown
  · exact hown

end Modular

/-- What holds of the steps that look at the machine, that use the swap device and files, that change a space
of `S`, or that tell of anything but the coming and going of pages. -/
structure Basic (S : SpaceId → Prop) (K : (α : Type) → Vm α → Prop) : Prop extends Modular K where
  get : K _ MonadState.get
  emit : ∀ {e : Event}, e.moves = false → K _ (Vm.emit e)
  modifySpace : ∀ {s : SpaceId}, S s → ∀ f, K _ (Vm.modifySpace s f)
  store : ∀ page, K _ (onSwap (SwapArea.store page))
  peek : ∀ slot page, K _ (onSwap (SwapArea.peek slot page))
  fetch : ∀ slot page, K _ (onSwap (SwapArea.fetch slot page))
  free : ∀ slot, K _ (onSwap (SwapArea.free slot))
  load : ∀ {n : Nat} (b : Backing) (buf : Buffer n), K _ (Vm.load b buf)
  save : ∀ b page, K _ (Vm.save b page)
  duplicate : ∀ hd, K _ (Vm.duplicate hd)

namespace Basic

variable (h : Basic S K)
include h

theorem space (s : SpaceId) : K _ (Vm.space s) := by
  apply h.bind h.get
  intro m
  split
  · exact h.pure _
  · exact h.throw _

theorem contents (f : FrameId) : K _ (Vm.contents f) := h.bind h.get fun _ => h.ofPanic _

theorem modifyTable (hs : S s) (f : PageTable → PageTable) : K _ (Vm.modifyTable s f) := h.modifySpace hs _

theorem savePage (hs : S s) (va : Addr) (p : Page) (f : FrameId) : K _ (Vm.savePage s va p f) := by
  refine h.bind (h.space s) fun sp => h.bind (h.modifyTable hs _) fun _ => ?_
  split
  · exact h.pure _
  · have hstore (page : Contents) : K _ (storePage page) :=
      h.bind (h.store page) fun slot => h.bind (h.emit rfl) fun _ => h.pure _
    refine h.bind (h.contents f) fun c => h.bind (h.attempt (hstore c)) fun r => ?_
    split
    · exact h.pure _
    · exact h.bind (h.modifyTable hs _) fun _ => h.fail _
  · split
    · refine h.bind (h.contents f) fun c => h.bind (h.attempt (h.save _ c)) fun r => ?_
      split
      · exact h.pure _
      · exact h.bind (h.modifyTable hs _) fun _ => h.bind (h.modifyTable hs _) fun _ => h.fail _
    · exact h.pure _

theorem vacate (hs : S s) (va : Addr) (f : FrameId) : K _ (Vm.vacate s va f) := by
  apply h.bind (h.space s)
  intro sp
  split
  · exact h.bind (h.savePage hs ..) fun state => h.modifySpace hs _
  · apply h.bind (h.emit rfl)
    intro _
    split
    · exact h.modifyTable hs _
    · exact h.pure _

theorem wasReferenced (hS : ∀ s, S s) (f : FrameId) : K _ (Vm.wasReferenced f) := by
  have htest (o : Owner) : K _ (testAccessed o) := by
    apply h.bind h.get
    intro m
    split
    · exact h.pure _
    · dsimp only
      split
      · exact h.bind (h.modifyTable (hS _) _) fun _ => h.pure _
      · exact h.pure _
  refine h.bind h.get fun m => h.bind (h.ofPanic _) fun o => ?_
  cases o with
  | none => exact h.pure _
  | some o =>
      apply h.bind (htest o)
      intro accessed
      dsimp only
      split
      · exact h.bind (h.emit rfl) fun _ => h.pure _
      · exact h.pure _

theorem fillPage (va : Addr) (p : Page) (page : Contents) : K _ (Vm.fillPage va p page) := by
  unfold Vm.fillPage
  split
  · unfold runFilling
    split
    · exact h.load _ _
    · exact h.pure _
    · exact h.pure _
  · exact h.load _ _
  · exact h.pure _
  · exact h.pure _
  · exact h.pure _
  · refine h.bind (h.fetch _ _) fun r => ?_
    dsimp only
    split
    · exact h.bind (h.emit rfl) fun _ => h.pure _
    · exact h.pure _
  · exact h.load _ _

theorem dismantle (hs : S s) (va : Addr) (p : Page) (frame : Option FrameId) :
    K _ (Vm.dismantle s va p frame) := by
  have hflush (b : Backing) (f : FrameId) : K _ (flush s va b f) := by
    apply h.bind (h.space s)
    intro sp
    split
    · exact h.bind (h.contents f) fun c => h.bind (h.save b c) fun _ => h.modifyTable hs _
    · exact h.pure _
  unfold Vm.dismantle
  dsimp only
  split
  case' h_1 => apply h.bind (h.attempt (hflush ..))
  case' h_2 => apply h.bind (h.pure _)
  all_goals
    intro result
    apply h.bind (h.modifyTable hs _)
    intro _
    split
    · exact h.bind (h.free _) fun _ => h.pure _
    · exact h.pure _

end Basic

structure Framed (S : SpaceId → Prop) (K : (α : Type) → Vm α → Prop) : Prop extends Basic S K where
  setContents : ∀ f page, K _ (Vm.setContents f page)
  install : ∀ f (r : PageRef), K _ (Vm.install f r)
  pin : ∀ f o, K _ (Vm.pin f o)
  release : ∀ f, K _ (Vm.release f)

namespace Framed

variable (h : Framed S K)
include h

theorem bringIn (hs : S s) (va : Addr) (f : FrameId) : K _ (Vm.bringIn s va f) := by
  apply h.bind (h.space s)
  intro sp
  split
  · exact h.fail _
  · split
    · exact h.fail _
    · refine h.bind (h.modifyTable hs _) fun _ => h.bind (h.contents f) fun c =>
        h.bind (h.fillPage ..) fun r => h.bind (h.setContents f _) fun _ => ?_
      split
      · exact h.bind (h.modifySpace hs _) fun _ => h.emit rfl
      · exact h.bind (h.modifyTable hs _) fun _ => h.fail _

theorem makeResident (hacquire : K _ acquire) (hs : S s) (va : Addr) : K _ (Vm.makeResident s va) := by
  apply h.bind (h.space s)
  intro sp
  split
  · exact h.fail _
  · split
    · refine h.bind hacquire fun f => h.bind (h.attempt (h.bringIn hs ..)) fun r => ?_
      split
      · exact h.install f ⟨s, pageBase va⟩
      · exact h.bind (h.release f) fun _ => h.fail _
    · exact h.pure _

theorem pinPage (s : SpaceId) (va : Addr) : K _ (Vm.pinPage s va) := by
  apply h.bind (h.space s)
  intro sp
  split
  · exact h.pure _
  · apply h.bind (h.pin ..)
    intro b
    split
    · exact h.pure _
    · exact h.throw _

theorem snapshot (s : SpaceId) (va : Addr) : K _ (Vm.snapshot s va) := by
  apply h.bind (h.pinPage s va)
  intro g
  have hread (x : Vm (Reading pageSize)) (hx : K _ x) : K _ (do
      let r ← x
      check r.failure
      pure r.bytes : Vm Contents) :=
    h.bind hx fun _ => h.bind (h.check _) fun _ => h.pure _
  cases g with
  | some f => exact h.bind (h.contents f) fun _ => h.bind (h.install f ⟨s, va⟩) fun _ => h.pure _
  | none =>
      apply h.bind (h.space s)
      intro sp
      split
      · exact hread _ (h.peek ..)
      · exact h.fail _
      · exact hread _ (h.load ..)
      · exact h.bind (h.emit rfl) fun _ => h.fail _
      · exact h.bind (h.emit rfl) fun _ => h.fail _

theorem remove (hs : S s) (htell : ∀ va, K _ (emit (.pageRemoved s va))) (va : Addr) : K _ (Vm.remove s va) := by
  unfold Vm.remove
  dsimp only
  refine h.bind (h.pinPage s _) fun frame => h.bind (h.space s) fun sp => ?_
  split
  · exact h.fail _
  · refine h.bind (h.modifySpace hs _) fun _ => h.bind (h.dismantle hs ..) fun result => ?_
    have hrest : K _ (do
        emit (.pageRemoved s (pageBase va))
        ofError result) :=
      h.bind (htell _) fun _ => h.ofError _
    split
    · exact h.bind (h.release _) fun _ => hrest
    · exact hrest

theorem destroy (hs : S s) (htell : ∀ va, K _ (emit (.pageRemoved s va))) : K _ (Vm.destroy s) :=
  h.bind (h.space s) fun _ => h.bind (h.removeAll (fun va _ => h.remove hs htell va) fun _ _ => h.emit rfl) fun _ =>
    h.modifySpace hs _

end Framed

def access (s : SpaceId) (addr : Addr) (write : Bool) : Vm (Except (FaultCode × Addr) FrameId) := do
  let sp ← space s
  match sp.table.access addr write true with
  | .ok (f, t) =>
      modifyTable s fun _ => t
      pure (.ok f)
  | .error code => pure (.error (code, sp.savedStack))

theorem frameFor_succ (s : SpaceId) (addr : Addr) (write : Bool) (rounds : Nat) :
    frameFor s addr write (rounds + 1) = (do
      match ← access s addr write with
      | .ok f => pure f
      | .error (code, esp) =>
          if ← onFault s esp addr true write code.notPresent then frameFor s addr write rounds
          else fail (.badAddress addr)) := by
  unfold access
  rw [frameFor, bind_assoc]
  congr 1
  funext sp
  cases sp.table.access addr write true with
  | ok x => rfl
  | error code => rfl

structure Growing (K : (α : Type) → Vm α → Prop) : Prop extends Modular K where
  space : ∀ s, K _ (Vm.space s)
  emit : ∀ {e : Event}, e.light = true → K _ (Vm.emit e)
  book : ∀ (s : SpaceId) {f : Space → Space}, (∀ sp, (f sp).pages = sp.pages) → (∀ sp, (f sp).table = sp.table) →
    K _ (modifySpace s f)
  addStackPage : ∀ s va {undone : Addr → PagingError → Event}, (∀ va e, (undone va e).light = true) →
    K _ (Vm.addStackPage s va undone)

namespace Growing

variable (h : Growing K)
include h

theorem extendStack (s : SpaceId) (n : Nat) : K _ (Vm.extendStack s n) := by
  induction n with
  | zero => exact h.pure _
  | succ n ih =>
      refine h.bind (h.space s) fun sp => h.bind (h.minus _ _) fun va => ?_
      exact h.bind (h.addStackPage s va fun _ _ => rfl) fun _ =>
        h.bind (h.book s (fun _ => rfl) fun _ => rfl) fun _ => h.bind (h.emit rfl) fun _ => ih

theorem startStack (s : SpaceId) : K _ (Vm.startStack s) :=
  h.bind (h.addStackPage s _ fun _ _ => rfl) fun _ =>
    h.bind (h.book s (fun _ => rfl) fun _ => rfl) fun _ => h.pure _

variable {addr : Addr} (hres : K _ (makeResident s addr))
include hres

theorem resolveFault (esp : Addr) (user write notPresent : Bool) :
    K _ (Vm.resolveFault s esp addr user write notPresent) := by
  apply h.bind (h.emit rfl)
  intro _
  split
  · exact h.fail _
  split
  · exact h.fail _
  apply h.bind (h.space s)
  intro sp
  split
  · exact hres
  dsimp only
  generalize (if isKernel esp = true then sp.savedStack else esp) = top
  split
  · exact h.bind (h.extendStack s _) fun _ => hres
  · exact h.fail _

theorem onFault (esp : Addr) (user write notPresent : Bool) :
    K _ (Vm.onFault s esp addr user write notPresent) := by
  apply h.bind (h.attempt (h.resolveFault hres ..))
  intro r
  split
  · exact h.pure _
  · exact h.bind (h.emit rfl) fun _ => h.pure _

theorem frameFor {write : Bool} (haccess : K _ (access s addr write)) (rounds : Nat) :
    K _ (Vm.frameFor s addr write rounds) := by
  induction rounds with
  | zero => exact h.throw _
  | succ rounds ih =>
      rw [frameFor_succ]
      apply h.bind haccess
      intro r
      split
      · exact h.pure _
      · apply h.bind (h.onFault hres ..)
        intro b
        split
        · exact ih
        · exact h.fail _

theorem touchPage {write : Bool} (haccess : K _ (access s addr write)) (hcontents : ∀ f, K _ (contents f)) :
    K _ (Vm.touchPage s addr write) :=
  h.bind (h.frameFor hres haccess 2) fun f => h.bind (hcontents f) fun _ => h.pure _

end Growing

theorem Modular.copyOut (h : Modular K) (htouch : ∀ addr, K _ (touchPage s addr false)) (va len : Nat) :
    K _ (Vm.copyOut s va len) := by
  have hread (n : Nat) : ∀ addr len done, K _ (readPages s n addr len done) := by
    induction n with
    | zero => exact fun _ _ _ => h.pure _
    | succ n ih =>
        intro addr len done
        apply h.bind (h.attempt (htouch addr))
        intro r
        split
        · exact h.bind (h.word _) fun next => ih ..
        · exact h.pure _
  unfold Vm.copyOut
  split
  · exact hread ..
  · exact h.pure _

theorem Modular.copyIn (h : Modular K) (htouch : ∀ addr, K _ (touchPage s addr true))
    (hset : ∀ f page, K _ (setContents f page)) (va : Addr) (data : Array UInt8) : K _ (Vm.copyIn s va data) := by
  have hwrite (n : Nat) : ∀ addr data, K _ (writePages s n addr data) := by
    induction n with
    | zero => exact fun _ _ => h.pure _
    | succ n ih =>
        intro addr data
        apply h.bind (htouch addr)
        intro c
        exact h.bind (hset ..) fun _ => h.bind (h.word _) fun next => ih ..
  unfold Vm.copyIn
  split
  · exact hwrite ..
  · exact h.fail _

structure Paged (K : (α : Type) → Vm α → Prop) : Prop extends Modular K where
  space : ∀ s, K _ (Vm.space s)
  emit : ∀ {e : Event}, e.light = true → K _ (Vm.emit e)
  book : ∀ (s : SpaceId) {f : Space → Space}, (∀ sp, (f sp).pages = sp.pages) → (∀ sp, (f sp).table = sp.table) →
    K _ (modifySpace s f)
  register : ∀ s va w purpose filling, K _ (Vm.register s va w purpose filling)
  makeResident : ∀ s va, K _ (Vm.makeResident s va)
  remove : ∀ s va, K _ (Vm.remove s va)
  fileLength : ∀ hd, K _ (Vm.fileLength hd)
  duplicate : ∀ hd, K _ (Vm.duplicate hd)

namespace Paged

variable (h : Paged K)
include h

theorem removeAll {failed : Addr → PagingError → Event} (hfailed : ∀ va e, (failed va e).light = true)
    (l : List Addr) : K _ (Vm.removeAll s failed l) :=
  h.toModular.removeAll (fun va _ => h.remove s va) fun _ _ => h.emit (hfailed _ _)

theorem destroy (s : SpaceId) : K _ (Vm.destroy s) :=
  h.bind (h.space s) fun _ => h.bind (h.removeAll (fun _ _ => rfl) _) fun _ =>
    h.book s (fun _ => rfl) fun _ => rfl

theorem growing : Growing K where
  toModular := h.toModular
  space := h.space
  emit := h.emit
  book := h.book
  addStackPage s va undone hundone := by
    refine h.bind (h.register ..) fun _ => h.bind (h.attempt (h.makeResident s va)) fun r => ?_
    split
    · exact h.pure _
    · exact h.bind (h.removeAll hundone _) fun _ => h.fail _

theorem mapPages (s : SpaceId) (addr len : Nat) (w : Bool) (hd : Handle) (offset fileLen n i : Nat) :
    K _ (Vm.mapPages s addr len w hd offset fileLen n i) := by
  induction n generalizing i with
  | zero => exact h.pure _
  | succ n ih =>
      refine h.bind (h.word _) fun va => h.bind (h.word _) fun start => h.bind (h.minus _ _) fun left =>
        h.bind (h.attempt (h.register ..)) fun r => ?_
      split
      · exact ih _
      · exact h.bind (h.removeAll (fun _ _ => rfl) _) fun _ => h.fail _

theorem addMapping (s : SpaceId) (addr len : Nat) (w : Bool) (hd : Handle) (offset : Nat) :
    K _ (Vm.addMapping s addr len w hd offset) := by
  unfold Vm.addMapping
  split
  · apply h.bind (h.fileLength hd)
    intro fileLen
    split
    · exact h.fail _
    · exact h.bind (h.duplicate hd) fun hd' => h.bind (h.mapPages ..) fun _ =>
        h.bind (h.book s (fun _ => rfl) fun _ => rfl) fun _ => h.bind (h.emit rfl) fun _ => h.pure _
  · exact h.fail _

theorem removeMapping (s : SpaceId) (addr : Addr) : K _ (Vm.removeMapping s addr) := by
  apply h.bind (h.space s)
  intro sp
  split
  · exact h.pure _
  · exact h.bind (h.book s (fun _ => rfl) fun _ => rfl) fun _ => h.bind (h.word _) fun _ =>
      h.bind (h.removeAll (fun _ _ => rfl) _) fun _ => h.emit rfl

end Paged

theorem Modular.addSegment (h : Modular K) (hregister : ∀ va w purpose filling, K _ (register s va w purpose filling))
    (hemit : ∀ pages addr, K _ (emit (.segmentAdded s pages addr))) (hd : Handle)
    (offset addr readBytes zeroBytes : Nat) (w : Bool) :
    K _ (Vm.addSegment s hd offset addr readBytes zeroBytes w) := by
  have hpages (n : Nat) : ∀ i left, K _ (segmentPages s hd offset addr w n i left) := by
    induction n with
    | zero => exact fun _ _ => h.pure _
    | succ n ih =>
        intro i left
        exact h.bind (h.word _) fun start => h.bind (h.word _) fun va =>
          h.bind (hregister ..) fun _ => ih ..
  unfold Vm.addSegment
  dsimp only
  split
  · exact h.bind (hpages ..) fun _ => hemit ..
  · exact h.fail _

theorem Modular.inheritPage (h : Modular K) {child parent : SpaceId} {regions : List (Addr × Region)} {va : Addr}
    (hspace : K _ (space parent)) (hback : ∀ b, K _ (Vm.childBacking regions va b)) (hcopy : K _ (snapshot parent va))
    (hregister : ∀ w purpose filling, K _ (register child va w purpose filling))
    (hres : K _ (makeResident child va)) (hdirty : K _ (modifyTable child (·.setDirty va true))) (p : Page) :
    K _ (Vm.inheritPage child parent regions va p) := by
  unfold Vm.inheritPage
  split
  · exact h.bind (hback _) fun b => hregister ..
  · exact hregister ..
  · exact h.bind hcopy fun c => h.bind (hregister ..) fun _ => hres
  · split
    · refine h.bind hspace fun sp => h.bind hcopy fun c => h.bind (hback _) fun b =>
        h.bind (hregister ..) fun _ => h.bind hres fun _ => ?_
      split
      · exact hdirty
      · exact h.pure _
    · exact h.bind (hback _) fun b => hregister ..

theorem Modular.inheritPages (h : Modular K) {child parent : SpaceId} {regions : List (Addr × Region)}
    {l : List (Addr × Page)} (hpage : ∀ x ∈ l, K _ (Vm.inheritPage child parent regions x.1 x.2)) :
    K _ (Vm.inheritPages child parent regions l) := by
  induction l with
  | nil => exact h.pure _
  | cons x rest ih =>
      exact h.bind (hpage x List.mem_cons_self) fun _ => ih fun y hy => hpage y (List.mem_cons_of_mem _ hy)

/-- What holds of all the parts that steps on the machine have, save that its device is made to fail. -/
structure Whole (K : (α : Type) → Vm α → Prop) : Prop extends Framed (fun _ => True) K where
  tell : ∀ e, K _ (Vm.emit e)
  acquire : K _ Vm.acquire
  putFile : ∀ f file, K _ (Vm.putFile f file)
  newFile : ∀ bytes, K _ (Vm.newFile bytes)
  newSpace : K _ Vm.newSpace
  dropSpace : ∀ s, K _ (Vm.dropSpace s)

namespace Whole

variable (h : Whole K)
include h

theorem register (s : SpaceId) (va : Addr) (w : Bool) (purpose : Purpose) (filling : Option Filling) :
    K _ (Vm.register s va w purpose filling) := by
  unfold Vm.register
  split
  · exact h.fail _
  · exact h.bind (h.tell _) fun _ => h.bind (h.space s) fun sp =>
      h.bind (h.ofError _) fun _ => h.modifySpace trivial _

theorem access (s : SpaceId) (addr : Addr) (write : Bool) : K _ (Vm.access s addr write) := by
  apply h.bind (h.space s)
  intro sp
  split
  · exact h.bind (h.modifyTable trivial _) fun _ => h.pure _
  · exact h.pure _

theorem paged : Paged K where
  toModular := h.toModular
  space := h.space
  emit _ := h.tell _
  book _ _ _ _ := h.modifySpace trivial _
  register := h.register
  makeResident _ va := h.toFramed.makeResident h.acquire trivial va
  remove _ va := h.toFramed.remove trivial (fun _ => h.tell _) va
  fileLength _ := h.bind h.get fun _ => h.bind (h.putFile ..) fun _ => h.pure _
  duplicate := h.duplicate

theorem touchPage (s : SpaceId) (addr : Addr) (write : Bool) : K _ (Vm.touchPage s addr write) :=
  h.paged.growing.touchPage (h.paged.makeResident s addr) (h.access s addr write) h.contents

theorem copyOut (s : SpaceId) (va len : Nat) : K _ (Vm.copyOut s va len) :=
  h.toModular.copyOut (h.touchPage s · false) va len

theorem copyIn (s : SpaceId) (va : Addr) (data : Array UInt8) : K _ (Vm.copyIn s va data) :=
  h.toModular.copyIn (h.touchPage s · true) h.setContents va data

theorem inheritPage (child parent : SpaceId) (regions : List (Addr × Region)) (va : Addr) (p : Page) :
    K _ (Vm.inheritPage child parent regions va p) :=
  h.toModular.inheritPage (h.space parent) (h.childBacking h.duplicate regions va) (h.snapshot ..) (h.register child va)
    (h.paged.makeResident ..) (h.modifyTable trivial _) p

theorem fork (child parent : SpaceId) : K _ (Vm.fork child parent) := by
  have hinherit : K _ (inherit child parent) :=
    h.bind (h.space parent) fun before => h.bind (h.duplicateRegions h.duplicate _) fun regions =>
      h.bind (h.inheritPages fun x _ => h.inheritPage child parent regions x.1 x.2) fun _ =>
        h.bind (h.space parent) fun after =>
          h.bind (h.modifySpace trivial _) fun _ => h.tell _
  apply h.bind (h.attempt hinherit)
  intro r
  split
  · exact h.pure _
  · exact h.bind (h.paged.destroy child) fun _ => h.fail _

end Whole

end Vm

end DemandPaging
