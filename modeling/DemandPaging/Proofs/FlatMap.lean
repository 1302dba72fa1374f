import DemandPaging.Proofs.FlatTable
import Mathlib.Algebra.Group.Nat.Defs

namespace DemandPaging

open Function (update)

inductive TableRequest
  | map (va : Addr) (f : FrameId) (writable : Bool)
  | unmap (va : Addr)
  | setDirty (va : Addr) (b : Bool)
  | setAccessed (va : Addr) (b : Bool)
  | access (va : Addr) (write user : Bool)
  | lookup (va : Addr)
  | isMapped (va : Addr)
  | isWritable (va : Addr)
  | isDirty (va : Addr)
  | isAccessed (va : Addr)

inductive TableReply
  | done
  | flag (b : Bool)
  | frame (f : Option FrameId)
  | fault (code : FaultCode)
deriving DecidableEq

namespace TableRequest

def addr : TableRequest → Addr
  | map va _ _ | unmap va | setDirty va _ | setAccessed va _ | access va _ _ | lookup va | isMapped va
  | isWritable va | isDirty va | isAccessed va => va

/-- Frame numbers that have 32 bits are not cut. -/
def Short : TableRequest → Prop
  | map _ f _ => f.index < 2 ^ 32
  | _ => True

instance : DecidablePred Short := fun r => by
  cases r <;> unfold Short <;> infer_instance

end TableRequest

namespace PageTable

def serve (t : PageTable) : TableRequest → TableReply × PageTable
  | .map va f writable =>
      match t.map va f writable with
      | some u => (.flag true, u)
      | none => (.flag false, t)
  | .unmap va => (.done, t.unmap va)
  | .setDirty va b => (.done, t.setDirty va b)
  | .setAccessed va b => (.done, t.setAccessed va b)
  | .access va write user =>
      match t.access va write user with
      | .ok (f, u) => (.frame (some f), u)
      | .error code => (.fault code, t)
  | .lookup va => (.frame (t.lookup va), t)
  | .isMapped va => (.flag (t.isMapped va), t)
  | .isWritable va => (.flag (t.isWritable va), t)
  | .isDirty va => (.flag (t.isDirty va), t)
  | .isAccessed va => (.flag (t.isAccessed va), t)

def replies : PageTable → List TableRequest → List TableReply × PageTable
  | t, [] => ([], t)
  | t, r :: l =>
      let (a, u) := t.serve r
      let (as, w) := u.replies l
      (a :: as, w)

end PageTable

abbrev FlatMap := Nat → Option Translation

namespace FlatMap

def empty : FlatMap := fun _ => none

def map (m : FlatMap) (va : Addr) (f : FrameId) (writable : Bool) : Option FlatMap :=
  if va < kernelBase ∧ m (va / 4096) = none ∧ f.index < 2 ^ 20 then
    some (update m (va / 4096) (some { frame := f, writable, accessed := false, dirty := false }))
  else none

def rewrite (m : FlatMap) (va : Addr) (k : Translation → Translation) : FlatMap :=
  update m (va / 4096) ((m (va / 4096)).map k)

def access (m : FlatMap) (va : Addr) (write user : Bool) : Except FaultCode (FrameId × FlatMap) :=
  match m (va / 4096) with
  | none => .error (.of false write user)
  | some x =>
      if user = true ∧ kernelBase ≤ va ∨ write = true ∧ x.writable = false then .error (.of true write user)
      else .ok (x.frame, m.rewrite va fun x => { x with accessed := true, dirty := x.dirty || write })

def serve (m : FlatMap) : TableRequest → TableReply × FlatMap
  | .map va f writable =>
      match m.map va f writable with
      | some n => (.flag true, n)
      | none => (.flag false, m)
  | .unmap va => (.done, update m (va / 4096) none)
  | .setDirty va b => (.done, m.rewrite va fun x => { x with dirty := b })
  | .setAccessed va b => (.done, m.rewrite va fun x => { x with accessed := b })
  | .access va write user =>
      match m.access va write user with
      | .ok (f, n) => (.frame (some f), n)
      | .error code => (.fault code, m)
  | .lookup va => (.frame ((m (va / 4096)).map Translation.frame), m)
  | .isMapped va => (.flag (m (va / 4096)).isSome, m)
  | .isWritable va => (.flag ((m (va / 4096)).any Translation.writable), m)
  | .isDirty va => (.flag ((m (va / 4096)).any Translation.dirty), m)
  | .isAccessed va => (.flag ((m (va / 4096)).any Translation.accessed), m)

def replies : FlatMap → List TableRequest → List TableReply × FlatMap
  | m, [] => ([], m)
  | m, r :: l =>
      let (a, n) := m.serve r
      let (as, k) := n.replies l
      (a :: as, k)

variable {t u : PageTable} {m n : FlatMap} {a va : Addr} {r : TableRequest}

structure Refines (t : PageTable) (m : FlatMap) : Prop where
  separate : t.Separate
  translation?_eq : ∀ va, t.translation? va = m (va / 4096)
  kernel : ∀ va, kernelBase ≤ va → m (va / 4096) = none

theorem refines_empty : Refines .empty empty where
  separate := PageTable.separate_empty
  translation?_eq := PageTable.translation?_empty
  kernel _ _ := rfl

theorem pageBase_eq_iff {a b : Nat} : pageBase a = pageBase b ↔ a / 4096 = b / 4096 :=
  Nat.mul_left_inj (by decide)

theorem le_of_div_eq {a b : Nat} (h : a / 4096 = b / 4096) (ha : 0x80000000 ≤ a) : 0x80000000 ≤ b := by
  omega

/-- A change of one page, made in the table and in the map. -/
theorem Refines.update (h : Refines t m) {x : Option Translation} (hu : u.Separate)
    (htr : ∀ a, u.translation? a = if pageBase a = pageBase va then x else t.translation? a)
    (hx : kernelBase ≤ va → x = none) : Refines u (update m (va / 4096) x) where
  separate := hu
  translation?_eq a := by
    rw [htr]
    by_cases ha : a / 4096 = va / 4096
    · rw [if_pos (pageBase_eq_iff.2 ha), ha, Function.update_self]
    · rw [if_neg (mt pageBase_eq_iff.1 ha), Function.update_of_ne ha, h.translation?_eq]
  kernel a ha := by
    by_cases hp : a / 4096 = va / 4096
    · rw [hp, Function.update_self, hx (le_of_div_eq hp ha)]
    · rw [Function.update_of_ne hp, h.kernel a ha]

theorem Refines.rewrite (h : Refines t m) {k : Translation → Translation} (hu : u.Separate)
    (htr : ∀ a, u.translation? a = if pageBase a = pageBase va then (t.translation? va).map k else t.translation? a) :
    Refines u (m.rewrite va k) :=
  h.update hu (fun a => by rw [htr, h.translation?_eq va]) fun hk => by rw [h.kernel va hk]; rfl

theorem Refines.map (h : Refines t m) (va : Addr) {f : FrameId} (hf : f.index < 2 ^ 32) (w : Bool) :
    (∃ u n, t.map va f w = some u ∧ m.map va f w = some n ∧ Refines u n) ∨
      t.map va f w = none ∧ m.map va f w = none := by
  have hmod : f.index % 0x100000000 = f.index := Nat.mod_eq_of_lt hf
  have hcases := h.separate.map_eq va f w
  rw [hmod, h.translation?_eq] at hcases
  rcases hcases with ⟨u, hmap, hu, hk, hlt, hnone, htr⟩ | ⟨hmap, hwhy⟩
  · have hva : va < kernelBase := isKernel_eq_false_iff.1 hk
    refine .inl ⟨u, _, hmap, if_pos ⟨hva, hnone, hlt⟩, h.update hu htr fun hge => ?_⟩
    exact absurd hva (Nat.not_lt.2 hge)
  · refine .inr ⟨hmap, if_neg ?_⟩
    rintro ⟨hva, hnone, hlt⟩
    rcases hwhy with hk | hge | hsome
    · exact absurd (isKernel_iff.1 hk) (Nat.not_le.2 hva)
    · exact hge hlt
    · rw [hnone] at hsome
      cases hsome

theorem Refines.access (h : Refines t m) (va : Addr) (write user : Bool) :
    (∃ f u n, t.access va write user = .ok (f, u) ∧ m.access va write user = .ok (f, n) ∧ Refines u n) ∨
      ∃ code, t.access va write user = .error code ∧ m.access va write user = .error code := by
  have hx := h.translation?_eq va
  unfold FlatMap.access
  cases hm : m (va / 4096) with
  | none =>
      rw [hm] at hx
      exact .inr ⟨_, PageTable.access_of_none hx write user, rfl⟩
  | some x =>
      rw [hm] at hx
      dsimp only
      have hkernel : isKernel va = true ↔ kernelBase ≤ va := isKernel_iff
      by_cases hdenied : user = true ∧ kernelBase ≤ va ∨ write = true ∧ x.writable = false
      · rw [if_pos hdenied]
        exact .inr ⟨_, PageTable.access_of_denied hx (by rwa [hkernel]), rfl⟩
      · rw [if_neg hdenied]
        obtain ⟨hk, hw⟩ := not_or.1 hdenied
        obtain ⟨u, haccess, hu, htr⟩ := h.separate.access_of_allowed hx write user
          (fun huser => Bool.eq_false_iff.2 fun hge => hk ⟨huser, hkernel.1 hge⟩)
          fun hwrite => Bool.of_not_eq_false fun hreadonly => hw ⟨hwrite, hreadonly⟩
        exact .inl ⟨x.frame, u, _, haccess, rfl, h.rewrite hu (by simpa [hx] using htr)⟩

theorem Refines.serve (h : Refines t m) (hr : r.Short) :
    (t.serve r).1 = (m.serve r).1 ∧ Refines (t.serve r).2 (m.serve r).2 := by
  cases r with
  | map va f w =>
      unfold PageTable.serve FlatMap.serve
      rcases h.map va hr w with ⟨u, n, ht, hm, hun⟩ | ⟨ht, hm⟩
      · simp only [ht, hm]
        exact ⟨trivial, hun⟩
      · simp only [ht, hm]
        exact ⟨trivial, h⟩
  | unmap va => exact ⟨rfl, h.update (h.separate.unmap va) (h.separate.translation?_unmap va) fun _ => rfl⟩
  | setDirty va b =>
      refine ⟨rfl, h.rewrite (h.separate.rewrite va _) fun a => ?_⟩
      exact h.separate.translation?_rewrite va a (fun e => e.setDirty_present b) fun e => e.setDirty_translation b
  | setAccessed va b =>
      refine ⟨rfl, h.rewrite (h.separate.rewrite va _) fun a => ?_⟩
      exact h.separate.translation?_rewrite va a (fun e => e.setAccessed_present b)
        fun e => e.setAccessed_translation b
  | access va write user =>
      unfold PageTable.serve FlatMap.serve
      rcases h.access va write user with ⟨f, u, n, ht, hm, hun⟩ | ⟨code, ht, hm⟩
      · simp only [ht, hm]
        exact ⟨trivial, hun⟩
      · simp only [ht, hm]
        exact ⟨trivial, h⟩
  | lookup va => exact ⟨by simp [PageTable.serve, FlatMap.serve, PageTable.lookup_eq, h.translation?_eq], h⟩
  | isMapped va =>
      refine ⟨?_, h⟩
      simp [PageTable.serve, FlatMap.serve, PageTable.isMapped, PageTable.present?_isSome_iff, h.translation?_eq]
  | isWritable va => exact ⟨by simp [PageTable.serve, FlatMap.serve, PageTable.isWritable_eq, h.translation?_eq], h⟩
  | isDirty va => exact ⟨by simp [PageTable.serve, FlatMap.serve, PageTable.isDirty_eq, h.translation?_eq], h⟩
  | isAccessed va => exact ⟨by simp [PageTable.serve, FlatMap.serve, PageTable.isAccessed_eq, h.translation?_eq], h⟩

theorem Refines.replies (h : Refines t m) {l : List TableRequest} (hl : ∀ r ∈ l, r.Short) :
    (t.replies l).1 = (m.replies l).1 ∧ Refines (t.replies l).2 (m.replies l).2 := by
  induction l generalizing t m with
  | nil => exact ⟨rfl, h⟩
  | cons r l ih =>
      obtain ⟨hreply, hnext⟩ := h.serve (hl r (List.mem_cons_self ..))
      obtain ⟨hrest, hlast⟩ := ih hnext fun r hr => hl r (List.mem_cons_of_mem _ hr)
      exact ⟨congrArg₂ List.cons hreply hrest, hlast⟩

theorem map_eq_some_iff {f : FrameId} {w : Bool} : m.map va f w = some n ↔
    (va < kernelBase ∧ m (va / 4096) = none ∧ f.index < 2 ^ 20) ∧
      n = update m (va / 4096) (some { frame := f, writable := w, accessed := false, dirty := false }) := by
  rw [map, Option.ite_none_right_eq_some, Option.some_inj]
  exact and_congr_right fun _ => eq_comm

theorem access_eq_ok_iff {write user : Bool} {f : FrameId} : m.access va write user = .ok (f, n) ↔
    ∃ x, m (va / 4096) = some x ∧ ¬ (user = true ∧ kernelBase ≤ va) ∧ (write = true → x.writable = true) ∧
      f = x.frame ∧ n = m.rewrite va fun x => { x with accessed := true, dirty := x.dirty || write } := by
  unfold access
  cases m (va / 4096) with
  | none => simp
  | some x =>
      dsimp only
      split <;> rename_i hdenied
      · refine iff_of_false nofun ?_
        rintro ⟨x', heq, hk, hw, -⟩
        cases heq
        rcases hdenied with hdenied | ⟨hwrite, hreadonly⟩
        · exact hk hdenied
        · rw [hw hwrite] at hreadonly
          cases hreadonly
      · obtain ⟨hk, hw⟩ := not_or.1 hdenied
        have hwritable (hwrite : write = true) : x.writable = true :=
          Bool.of_not_eq_false fun hreadonly => hw ⟨hwrite, hreadonly⟩
        constructor
        · intro heq
          cases heq
          exact ⟨x, rfl, hk, hwritable, rfl, rfl⟩
        · rintro ⟨x', heq, -, -, rfl, rfl⟩
          cases heq
          rfl

theorem code_of_access {write user : Bool} {code : FaultCode} (h : m.access va write user = .error code) :
    code = .of (m (va / 4096)).isSome write user := by
  unfold access at h
  cases hx : m (va / 4096) with
  | none =>
      rw [hx] at h
      cases h
      rfl
  | some x =>
      rw [hx] at h
      dsimp only at h
      split at h
      · cases h
        rfl
      · cases h

theorem serve_others {k : Nat} (hk : k ≠ r.addr / 4096) : (m.serve r).2 k = m k := by
  cases r with
  | map va f w =>
      cases hmap : m.map va f w with
      | none => simp only [serve, hmap]
      | some n =>
          simp only [serve, hmap, (map_eq_some_iff.1 hmap).2]
          exact Function.update_of_ne hk ..
  | access va write user =>
      cases haccess : m.access va write user with
      | error code => simp only [serve, haccess]
      | ok fn =>
          obtain ⟨x, -, -, -, -, heq⟩ := access_eq_ok_iff.1 haccess
          simp only [serve, haccess, heq]
          exact Function.update_of_ne hk ..
  | unmap | setDirty | setAccessed => exact Function.update_of_ne hk ..
  | lookup | isMapped | isWritable | isDirty | isAccessed => rfl

end FlatMap

namespace PageTable

open FlatMap (Refines)

variable {t : PageTable} {m : FlatMap}

/-- What comes of a request to a page table, whatever it was asked before. -/
structure Flat (t : PageTable) : Prop where
  page : ∀ a va, a / 4096 = va / 4096 → t.translation? a = t.translation? va
  kernel : ∀ va, kernelBase ≤ va → t.translation? va = none
  others : ∀ r : TableRequest, r.Short → ∀ a, a / 4096 ≠ r.addr / 4096 →
    (t.serve r).2.translation? a = t.translation? a
  map_iff : ∀ va f writable, f.index < 2 ^ 32 → ((t.map va f writable).isSome ↔
    va < kernelBase ∧ t.translation? va = none ∧ f.index < 2 ^ 20)
  map : ∀ va f writable u, f.index < 2 ^ 32 → t.map va f writable = some u →
    u.translation? va = some { frame := f, writable, accessed := false, dirty := false }
  access_iff : ∀ va write user, (∃ f u, t.access va write user = .ok (f, u)) ↔
    ∃ x, t.translation? va = some x ∧ ¬ (user = true ∧ kernelBase ≤ va) ∧ (write = true → x.writable = true)
  access : ∀ va write user f u, t.access va write user = .ok (f, u) → ∃ x, t.translation? va = some x ∧ f = x.frame ∧
    u.translation? va = some { x with accessed := true, dirty := x.dirty || write }
  fault : ∀ va write user code, t.access va write user = .error code →
    t.serve (.access va write user) = (.fault code, t) ∧ code.write = write ∧ code.user = user ∧
      code.present = (t.translation? va).isSome

theorem flat_of_refines (h : Refines t m) : t.Flat where
  page a va hp := by rw [h.translation?_eq, h.translation?_eq, hp]
  kernel va hk := by rw [h.translation?_eq, h.kernel va hk]
  others r hr a ha := by rw [(h.serve hr).2.translation?_eq, FlatMap.serve_others ha, h.translation?_eq]
  map_iff va f w hf := by
    rw [h.translation?_eq]
    rcases h.map va hf w with ⟨u, n, ht, hm, -⟩ | ⟨ht, hm⟩
    · exact iff_of_true (ht ▸ rfl) (FlatMap.map_eq_some_iff.1 hm).1
    · refine iff_of_false (by simp [ht]) fun hok => ?_
      rw [FlatMap.map_eq_some_iff.2 ⟨hok, rfl⟩] at hm
      cases hm
  map va f w u hf hmap := by
    rcases h.map va hf w with ⟨u', n, ht, hm, hun⟩ | ⟨ht, -⟩
    · cases hmap.symm.trans ht
      rw [hun.translation?_eq, (FlatMap.map_eq_some_iff.1 hm).2, Function.update_self]
    · cases hmap.symm.trans ht
  access_iff va write user := by
    rw [h.translation?_eq]
    rcases h.access va write user with ⟨f, u, n, ht, hm, -⟩ | ⟨code, ht, hm⟩
    · obtain ⟨x, hx, hk, hw, -⟩ := FlatMap.access_eq_ok_iff.1 hm
      exact iff_of_true ⟨f, u, ht⟩ ⟨x, hx, hk, hw⟩
    · refine iff_of_false (by simp [ht]) ?_
      rintro ⟨x, hx, hk, hw⟩
      cases hm.symm.trans (FlatMap.access_eq_ok_iff.2 ⟨x, hx, hk, hw, rfl, rfl⟩)
  access va write user f u hok := by
    rcases h.access va write user with ⟨f', u', n, ht, hm, hun⟩ | ⟨code, ht, -⟩
    · cases hok.symm.trans ht
      obtain ⟨x, hx, -, -, hf, rfl⟩ := FlatMap.access_eq_ok_iff.1 hm
      refine ⟨x, (h.translation?_eq va).trans hx, hf, ?_⟩
      rw [hun.translation?_eq, FlatMap.rewrite, Function.update_self, hx]
      rfl
    · cases hok.symm.trans ht
  fault va write user code hfault := by
    refine ⟨by simp [serve, hfault], ?_⟩
    rw [h.translation?_eq]
    rcases h.access va write user with ⟨f, u, n, ht, -⟩ | ⟨code', ht, hm⟩
    · cases hfault.symm.trans ht
    · cases hfault.symm.trans ht
      rw [FlatMap.code_of_access hm]
      simp

/-- A new page table replies to every list of requests as a map from page numbers does, and ends up saying of every
address what the map says of its page. -/
theorem replies_flat {l : List TableRequest} (hl : ∀ r ∈ l, r.Short) :
    (empty.replies l).1 = (FlatMap.empty.replies l).1 ∧
      (∀ va, (empty.replies l).2.translation? va = (FlatMap.empty.replies l).2 (va / 4096)) ∧
      (empty.replies l).2.Flat := by
  obtain ⟨hreplies, hrefines⟩ := FlatMap.refines_empty.replies hl
  exact ⟨hreplies, hrefines.translation?_eq, flat_of_refines hrefines⟩

/-- A page is written to, and the page 4 GiB above it is asked for. -/
def pageAbove : List TableRequest :=
  [.map 0x8048000 ⟨3⟩ true, .access 0x8048004 true true, .isDirty 0x8048fff, .isMapped 0x108048000,
    .access 0x8049000 true true]

theorem replies_flat_pageAbove :
    (∀ r ∈ pageAbove, r.Short) ∧ (empty.replies pageAbove).1 =
      [.flag true, .frame (some ⟨3⟩), .flag true, .flag false, .fault (.of false true true)] :=
  have hl : ∀ r ∈ pageAbove, r.Short := by decide
  ⟨hl, (replies_flat hl).1.trans (by decide)⟩

end PageTable

end DemandPaging
