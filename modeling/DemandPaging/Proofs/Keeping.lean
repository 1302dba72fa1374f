import DemandPaging.Proofs.Parts
import DemandPaging.Proofs.Evicting

namespace DemandPaging

namespace Step

variable {σ τ α β : Type} {I : σ → Prop} {x : Step σ α}

structure Keeps (I : σ → Prop) (x : Step σ α) : Prop where
  yields : ∀ s, I s → Yields x s (fun _ => I) fun _ => I

theorem keeps_pure (a : α) : Keeps I (pure a : Step σ α) := ⟨fun _ => id⟩

theorem keeps_throw (e : Stop) : Keeps I (throw e : Step σ α) := ⟨fun _ => id⟩

theorem keeps_fail (e : PagingError) : Keeps I (fail e : Step σ α) := ⟨fun _ => id⟩

theorem keeps_get : Keeps I (get : Step σ σ) := ⟨fun _ => id⟩

theorem keeps_set {t : σ} (h : I t) : Keeps I (set t : Step σ PUnit) :=
  ⟨fun _ _ => h⟩

theorem keeps_get_bind {f : σ → Step σ β} (h : ∀ s, I s → Keeps I (f s)) : Keeps I (get >>= f) :=
  ⟨fun s hs => (h s hs).yields s hs⟩

theorem Keeps.bind {f : α → Step σ β} (hx : Keeps I x) (hf : ∀ a, Keeps I (f a)) : Keeps I (x >>= f) := by
  constructor
  intro s hs
  exact yields_bind.2 ((hx.yields s hs).mono (fun a t ht => (hf a).yields t ht) fun _ _ => id)

theorem Keeps.attempt (hx : Keeps I x) : Keeps I (attempt x) := by
  constructor
  intro s hs
  refine yields_attempt.2 ((hx.yields s hs).mono (fun _ _ => id) fun e t ht => ?_)
  cases e <;> exact ht

theorem keeps_ofPanic (r : Except Panic α) : Keeps I (ofPanic r) := by
  cases r <;> exact ⟨fun _ => id⟩

theorem keeps_check (e : Option PagingError) : Keeps I (check e) := by
  cases e <;> exact ⟨fun _ => id⟩

theorem keeps_zoom {get : τ → σ} {put : σ → τ → τ} {J : τ → Prop} {R : σ → σ → Prop}
    (hx : ∀ s, Yields x s (fun _ => R s) fun _ => R s) (h : ∀ s t, J t → R (get t) s → J (put s t)) :
    Keeps J (zoom get put x) := by
  constructor
  intro t ht
  exact yields_zoom.2 ((hx (get t)).mono (fun _ s => h s t ht) fun _ s => h s t ht)

theorem Yields.and {s : σ} {Q Q' : α → σ → Prop} {E E' : Stop → σ → Prop} (h : Yields x s Q E)
    (k : Yields x s Q' E') : Yields x s (fun a t => Q a t ∧ Q' a t) fun e t => E e t ∧ E' e t := by
  unfold Yields at h k ⊢
  cases hx : x.run s <;> rw [hx] at h k <;> exact ⟨h, k⟩

theorem Keeps.and {s : σ} {Q : α → σ → Prop} {E : Stop → σ → Prop} (h : Keeps I x) (hs : I s)
    (k : Yields x s Q E) : Yields x s (fun a t => Q a t ∧ I t) fun e t => E e t ∧ I t :=
  k.and (h.yields s hs)

end Step

structure Disk.Same (d d' : Disk) : Prop where
  size : d'.size = d.size
  faults : d'.faults = d.faults
  medium : d'.medium.size = d.medium.size

namespace Disk

variable {d d' d'' : Disk}

theorem Same.refl (d : Disk) : d.Same d := ⟨rfl, rfl, rfl⟩

theorem Same.trans (h : d.Same d') (k : d'.Same d'') : d.Same d'' :=
  ⟨k.size.trans h.size, k.faults.trans h.faults, k.medium.trans h.medium⟩

theorem Same.reliable (h : d.Same d') (hd : d.Reliable) : d'.Reliable := by
  refine ⟨?_, ?_, ?_⟩
  · rw [h.size, MemoryDisk.size, show d'.medium.sectors.size = _ from h.medium]
    exact hd.size_le
  · rw [h.faults]
    exact hd.read
  · rw [h.faults]
    exact hd.write

theorem same_read (d : Disk) (sector : Nat) (buf : Sector) : d.Same (d.read sector buf).1 := by
  unfold read MemoryDisk.read
  cases d.faults.read d.reads sector with
  | some f => exact ⟨rfl, rfl, rfl⟩
  | none => cases checkSector d.medium.size sector sectorSize <;> exact ⟨rfl, rfl, rfl⟩

theorem same_write (d : Disk) (sector : Nat) (data : Sector) : d.Same (d.write sector data).1 := by
  unfold write MemoryDisk.write
  cases d.faults.write d.writes sector with
  | some f => exact ⟨rfl, rfl, by simp [MemoryDisk.size]⟩
  | none =>
      cases checkSector d.medium.size sector data.toArray.size
      · exact ⟨rfl, rfl, rfl⟩
      · exact ⟨rfl, rfl, by simp [MemoryDisk.size]⟩

theorem same_readPage (first : Nat) (l : List Nat) (d : Disk) (page : Contents) :
    d.Same (readPage first l d page).1 := by
  induction l generalizing d page with
  | nil => exact .refl d
  | cons i rest ih =>
      have hread := d.same_read (first + i) (page.sector i)
      unfold readPage
      generalize d.read (first + i) (page.sector i) = x at hread
      obtain ⟨d', data, _ | e⟩ := x
      · exact hread.trans (ih d' _)
      · exact hread

theorem same_writePage (first : Nat) (page : Contents) (l : List Nat) (d : Disk) :
    d.Same (writePage first page l d).1 := by
  induction l generalizing d with
  | nil => exact .refl d
  | cons i rest ih =>
      have hwrite := d.same_write (first + i) (page.sector i)
      unfold writePage
      generalize d.write (first + i) (page.sector i) = x at hwrite
      obtain ⟨d', _ | e⟩ := x
      · exact hwrite.trans (ih d')
      · exact hwrite

end Disk

namespace Bitmap

variable {b b' : Bitmap} {idx : Nat} {value : Bool}

theorem len_set (h : b.set idx value = .ok b') : b'.len = b.len := by
  unfold set at h
  split at h
  · rw [← Except.ok.inj h]
  · cases h

theorem len_flipFirst {start : Nat} {found : Option Nat} (h : b.flipFirst start value = .ok (found, b')) :
    b'.len = b.len := by
  unfold flipFirst at h
  split at h
  · cases h
    rfl
  · cases hset : b.set _ (!value) with
    | error e =>
        rw [hset] at h
        cases h
    | ok u =>
        rw [hset] at h
        cases h
        exact len_set hset

end Bitmap

structure SwapArea.Same (a b : SwapArea) : Prop where
  capacity : b.capacity = a.capacity
  disk : a.disk.Same b.disk

namespace SwapArea

open Step

variable {a b : SwapArea}

theorem Same.refl (a : SwapArea) : a.Same a := ⟨rfl, .refl _⟩

theorem Same.trans {c : SwapArea} (h : a.Same b) (k : b.Same c) : a.Same c :=
  ⟨k.capacity.trans h.capacity, h.disk.trans k.disk⟩

theorem same_store (page : Contents) (a : SwapArea) :
    Yields (store page) a (fun _ => a.Same) fun _ => a.Same := by
  unfold SwapArea.store
  rw [yields_bind, yields_get, yields_bind, yields_ofPanic]
  split
  · rename_i x hflip
    obtain ⟨found, used⟩ := x
    have hlen := Bitmap.len_flipFirst hflip
    cases found with
    | none => exact yields_fail.2 (.refl a)
    | some idx =>
        dsimp only
        rw [yields_bind, yields_ofPanic]
        split
        · rename_i first _
          have hsame := Disk.same_writePage first page (List.range sectorsPerPage) a.disk
          generalize a.disk.writePage first page (List.range sectorsPerPage) = x at hsame
          match x with
          | (disk, none) => exact yields_bind.2 (yields_set.2 (yields_pure.2 ⟨hlen, hsame⟩))
          | (disk, some e) =>
              rw [yields_bind, yields_ofPanic]
              split
              · rename_i used' hset
                exact yields_bind.2 (yields_set.2 (yields_fail.2 ⟨(Bitmap.len_set hset).trans hlen, hsame⟩))
              · exact .refl a
        · exact .refl a
  · exact .refl a

theorem same_peek (slot : Slot) (page : Contents) (a : SwapArea) :
    Yields (peek slot page) a (fun _ => a.Same) fun _ => a.Same := by
  unfold SwapArea.peek
  rw [yields_bind, yields_get, yields_bind, yields_ofPanic]
  split
  · rename_i first _
    exact yields_bind.2 (yields_set.2 (yields_pure.2
      ⟨rfl, Disk.same_readPage first (List.range sectorsPerPage) a.disk page⟩))
  · exact .refl a

theorem same_free (slot : Slot) (a : SwapArea) : Yields (free slot) a (fun _ => a.Same) fun _ => a.Same := by
  unfold SwapArea.free
  rw [yields_bind, yields_get, yields_bind, yields_ofPanic]
  split
  · rename_i used hset
    exact yields_set.2 ⟨Bitmap.len_set hset, .refl _⟩
  · exact .refl a

theorem same_fetch (slot : Slot) (page : Contents) (a : SwapArea) :
    Yields (fetch slot page) a (fun _ => a.Same) fun _ => a.Same := by
  unfold SwapArea.fetch
  refine (same_peek slot page a).bind (fun r b hb => ?_) fun _ _ => id
  split
  · refine (same_free slot b).bind (fun _ c hc => ?_) fun _ _ => hb.trans
    exact yields_pure.2 (hb.trans hc)
  · exact yields_pure.2 hb

end SwapArea

structure File.Same (F F' : File) : Prop where
  size : F'.bytes.size = F.bytes.size
  limits : F'.limits = F.limits

theorem File.same_write (F : File) (offset : Nat) (data : Array UInt8) : F.Same (F.write offset data).2 :=
  ⟨by simp [File.write, File.overwrite], rfl⟩

theorem Backing.same_load (b : Backing) {n : Nat} {F : File} {buf : Buffer n} {x : Reading n × File}
    (h : b.load F buf = .ok x) : F.Same x.2 := by
  unfold load at h
  split at h
  · cases h
  · dsimp only at h
    split at h <;> cases h <;> exact ⟨rfl, rfl⟩

/-- What is kept whatever is done to frames, slots and the spaces of `S`, however files are read and
written, and whatever is told but that pages come and go. -/
structure Steady (S : SpaceId → Prop) (I : Machine → Prop) : Prop where
  tell : ∀ {m} (e : Event), e.moves = false → I m → I (m.tell e)
  space : ∀ {m s} (f : Space → Space), S s → I m → I (m.withSpace s f)
  frames : ∀ {m} (t : Frames), I m → I { m with frames := t }
  swap : ∀ {m} {a : SwapArea}, m.swap.Same a → I m → I { m with swap := a }
  file : ∀ {m id F}, (m.file id).Same F → I m → I (m.withFile id F)
  handle : ∀ {m}, I m → I { m with nextHandle := m.nextHandle + 1 }

theorem steady_swap (S : SpaceId → Prop) (a : SwapArea) : Steady S fun m => a.Same m.swap where
  tell _ _ hm := hm
  space _ _ hm := hm
  frames _ hm := hm
  swap hsame hm := hm.trans hsame
  file _ hm := hm
  handle hm := hm

namespace Vm

open Step Machine

variable {S : SpaceId → Prop} {I : Machine → Prop} {s : SpaceId} {α : Type}

theorem keeps_modular (I : Machine → Prop) : Modular fun _ => Keeps I where
  pure := keeps_pure
  throw := keeps_throw
  bind := Keeps.bind
  attempt := Keeps.attempt

theorem keeps_contents (f : FrameId) : Keeps I (contents f) := by
  apply keeps_get.bind
  intro m
  exact keeps_ofPanic _

section

variable (h : Steady S I)
include h

theorem steady_emit {e : Event} (he : e.moves = false) : Keeps I (emit e) := ⟨fun _ => h.tell e he⟩

theorem steady_modifySpace (hs : S s) (f : Space → Space) : Keeps I (modifySpace s f) := ⟨fun _ => h.space f hs⟩

theorem steady_onSwap {x : Step SwapArea α} (hx : ∀ a, Yields x a (fun _ => a.Same) fun _ => a.Same) :
    Keeps I (onSwap x) :=
  keeps_zoom hx fun _ _ hm hsame => h.swap hsame hm

theorem steady_modifyFrames (f : Frames → Except Panic Frames) : Keeps I (modifyFrames f) := by
  apply keeps_get_bind
  intro m hm
  apply (keeps_ofPanic _).bind
  intro frames
  exact keeps_set (h.frames frames hm)

theorem steady_pin (f : FrameId) (r : PageRef) : Keeps I (pin f r) := by
  refine keeps_get.bind fun m => (keeps_ofPanic _).bind fun x => ?_
  split
  · exact Keeps.bind ⟨fun _ => h.frames _⟩ fun _ => keeps_pure _
  · exact keeps_pure _

theorem steady_load {n : Nat} (b : Backing) (buf : Buffer n) : Keeps I (load b buf) := by
  constructor
  intro m hm
  unfold load
  rw [yields_bind, yields_get, yields_bind, yields_ofPanic]
  split
  · rename_i x hload
    exact yields_bind.2 (yields_putFile.2 (yields_pure.2 (h.file (b.same_load hload) hm)))
  · exact hm

theorem steady_save (b : Backing) (page : Contents) : Keeps I (save b page) := by
  constructor
  intro m hm
  unfold save
  rw [yields_bind, yields_get]
  refine yields_bind.2 (yields_putFile.2 (yields_bind.2 (yields_emit.2 ?_)))
  exact (keeps_check _).yields _ (h.tell _ rfl (h.file (File.same_write ..) hm))

/-- What is steady is kept by all that is done to pages whose frames are there. -/
theorem steady_framed : Framed S fun _ => Keeps I where
  toModular := keeps_modular I
  get := keeps_get
  emit := steady_emit h
  modifySpace := steady_modifySpace h
  store page := steady_onSwap h (SwapArea.same_store page)
  peek slot page := steady_onSwap h (SwapArea.same_peek slot page)
  fetch slot page := steady_onSwap h (SwapArea.same_fetch slot page)
  free slot := steady_onSwap h (SwapArea.same_free slot)
  load := steady_load h
  save := steady_save h
  duplicate _ := ⟨fun _ => h.handle⟩
  setContents _ _ := steady_modifyFrames h _
  install _ _ := steady_modifyFrames h _
  pin := steady_pin h
  release _ := (steady_modifyFrames h _).bind fun _ => steady_emit h rfl

theorem steady_takeVictim (hS : ∀ s, S s) : Keeps I takeVictim := by
  apply keeps_get.bind
  intro m
  have hsweep : Keeps I (Clock.choose wasReferenced m.frames.clock : Vm _) :=
    ⟨fun n hn => (yields_sweep m.frames.clock [] (fun f _ => ((steady_framed h).wasReferenced hS f).yields) hn).mono
      (fun _ _ h => h.1) fun _ _ => id⟩
  have hput (f : FrameId) (rest : List FrameId) : Keeps I (do
      modify fun m => { m with frames := { m.frames with clock := rest } }
      pure f) :=
    Keeps.bind ⟨fun _ => h.frames _⟩ fun _ => keeps_pure _
  apply hsweep.bind
  intro c
  match c with
  | (some f, rest) | (none, f :: rest) => exact hput f rest
  | (none, []) => exact keeps_fail _

theorem steady_saveVictim (hS : ∀ s, S s) (f : FrameId) (o : Owner) : Keeps I (saveVictim f o) := by
  apply keeps_get.bind
  intro m
  split
  · refine ((steady_framed h).vacate (hS _) ..).attempt.bind fun r => ?_
    split
    · exact keeps_pure _
    · exact (steady_emit h rfl).bind fun _ => (steady_modifyFrames h _).bind fun _ => keeps_fail _
  · exact keeps_pure _

theorem steady_evict (hS : ∀ s, S s) : Keeps I evict := by
  refine (steady_takeVictim h hS).bind fun f => keeps_get.bind fun m => (keeps_ofPanic _).bind fun owner =>
    (steady_modifyFrames h _).bind fun _ => ?_
  have hrest : Keeps I (do
      modifyFrames (·.setPinned f true)
      pure f) :=
    (steady_modifyFrames h _).bind fun _ => keeps_pure _
  cases owner with
  | none => exact (steady_emit h rfl).bind fun _ => hrest
  | some o => exact (steady_saveVictim h hS f o).bind fun _ => (steady_emit h rfl).bind fun _ => hrest

theorem steady_acquire (hS : ∀ s, S s) : Keeps I acquire := by
  apply keeps_get_bind
  intro m hm
  have hrest (f : FrameId) : Keeps I (do
      setContents f (Buffer.zero pageSize)
      emit (.frameAcquired f)
      pure f) :=
    ((steady_framed h).setContents f _).bind fun _ => (steady_emit h rfl).bind fun _ => keeps_pure _
  apply (keeps_ofPanic _).bind
  intro x
  cases x with
  | some x => exact (keeps_set (h.frames _ hm)).bind fun _ => hrest x.1
  | none => exact (steady_evict h hS).bind hrest

theorem steady_makeResident (hS : ∀ s, S s) (s : SpaceId) (va : Addr) : Keeps I (makeResident s va) :=
  (steady_framed h).makeResident (steady_acquire h hS) (hS s) va

end

end Vm

end DemandPaging
