import DemandPaging.Proofs.Headroom
import Mathlib.Data.Finset.Card
import Mathlib.Data.List.Infix

namespace DemandPaging

open Function (update)
open Step Machine

variable {m n u : Machine} {v w : View} {a : Act} {r : PageRef} {p : Page} {P : Act → Prop} {s : SpaceId}

def Event.move (S : Finset PageRef) : Event → Finset PageRef
  | .pageAdded s _ va => insert ⟨s, va⟩ S
  | .pageRemoved s va => S.erase ⟨s, va⟩
  | _ => S

theorem Event.move_of_still {e : Event} (he : e.moves = false) (S : Finset PageRef) : e.move S = S := by
  cases e with
  | pageAdded | pageRemoved => cases he
  | _ => rfl

theorem foldl_move_of_still {es : List Event} (hes : ∀ e ∈ es, e.moves = false) (S : Finset PageRef) :
    es.foldl Event.move S = S := by
  induction es generalizing S with
  | nil => rfl
  | cons e es ih =>
      rw [List.foldl_cons, Event.move_of_still (hes e (List.mem_cons_self ..))]
      exact ih (fun e he => hes e (List.mem_cons_of_mem _ he)) S

namespace Machine

def registered (m : Machine) : Finset PageRef := (m.allPages.map (·.1)).toFinset

theorem mem_registered : r ∈ m.registered ↔ (m.view.page r).isSome := by
  rw [registered, List.mem_toFinset, List.mem_map, Option.isSome_iff_exists]
  constructor
  · rintro ⟨⟨r, p⟩, hx, rfl⟩
    exact ⟨p, mem_allPages.1 hx⟩
  · rintro ⟨p, hp⟩
    exact ⟨(r, p), mem_allPages.2 hp, rfl⟩

theorem card_registered (m : Machine) : m.registered.card = m.allPages.length := by
  rw [registered, List.toFinset_card_of_nodup m.nodup_allPages, List.length_map]

def told (m n : Machine) : List Event := n.log.toList.drop m.log.size

/-- Which pages were registered at each moment from `m` to `n`, going by what was told. -/
def moments (m n : Machine) : List (Finset PageRef) := (m.told n).inits.map (·.foldl Event.move m.registered)

/-- At some moment there were more pages than can be had at one time. -/
def Overfull (m n : Machine) : Prop := ∃ S ∈ m.moments n, m.room ≤ S.card

theorem told_of_log {es : List Event} (h : n.log.toList = m.log.toList ++ es) : m.told n = es := by
  rw [told, h, ← Array.length_toList, List.drop_left]

theorem Overfull.later (h : m.Overfull n) {es : List Event} (hu : u.log.toList = n.log.toList ++ es) :
    m.Overfull u := by
  obtain ⟨S, hS, hcard⟩ := h
  obtain ⟨es', hes', rfl⟩ := List.mem_map.1 hS
  refine ⟨_, List.mem_map.2 ⟨es', ?_, rfl⟩, hcard⟩
  rw [List.mem_inits] at hes' ⊢
  apply hes'.trans
  rw [told, told, hu, List.drop_append]
  exact List.prefix_append _ _

theorem Overfull.grows (h : m.Overfull n) (hu : n.view.Grows u.view) : m.Overfull u := by
  obtain ⟨es, hes⟩ := hu
  have hlog : u.log.toList = n.log.toList ++ es.toList := by
    rw [← Array.toList_append]
    exact congrArg Array.toList hes
  exact h.later hlog

theorem lasting_overfull (m : Machine) : Lasting m.Overfull where
  log _ hn := hn.later Array.toList_push
  spaces _ _ hn := hn
  frames _ hn := hn
  swap _ hn := hn
  files _ hn := hn
  handle hn := hn

structure Still (m n : Machine) : Prop where
  swap : m.swap.Same n.swap
  log : ∃ es, n.log.toList = m.log.toList ++ es ∧ ∀ e ∈ es, e.moves = false

theorem Still.refl (m : Machine) : m.Still m := ⟨.refl _, [], (List.append_nil _).symm, nofun⟩

theorem Still.moments (h : m.Still n) {S : Finset PageRef} (hS : S ∈ m.moments n) : S = m.registered := by
  obtain ⟨-, es, hlog, hes⟩ := h
  obtain ⟨es', hes', rfl⟩ := List.mem_map.1 hS
  rw [told_of_log hlog, List.mem_inits] at hes'
  exact foldl_move_of_still (fun e he => hes e (hes'.subset he)) _

theorem steady_still (S : SpaceId → Prop) (m : Machine) : Steady S m.Still where
  tell {n} e he hn := by
    obtain ⟨hswap, es, hlog, hes⟩ := hn
    refine ⟨hswap, es ++ [e], ?_, ?_⟩
    · rw [tell, Array.toList_push, hlog, List.append_assoc]
    · intro e' he'
      rcases List.mem_append.1 he' with he' | he'
      · exact hes e' he'
      · rwa [List.mem_singleton.1 he']
  space _ _ hn := ⟨hn.swap, hn.log⟩
  frames _ hn := ⟨hn.swap, hn.log⟩
  swap hsame hn := ⟨hn.swap.trans hsame, hn.log⟩
  file _ hn := ⟨hn.swap, hn.log⟩
  handle hn := ⟨hn.swap, hn.log⟩

end Machine

def Act.Tame : Act → Prop
  | .quiet | .loaded _ | .stored .. | .booked .. => True
  | .added .. | .removed .. | .created _ | .dropped _ | .put .. => False

theorem Act.Quiet.tame (h : a.Quiet) : a.Tame := h ▸ trivial

theorem Act.Loads.tame (h : a.Loads r) : a.Tame := by
  rcases h with h | rfl
  · exact h.tame
  · trivial

namespace Machine

theorem Ample.leads (h : m.Ample) (hn : m.Leads P n) (hswap : m.swap.Same n.swap) (hdrop : ∀ s, ¬ P (.dropped s))
    (hput : ∀ id g, ¬ P (.put id g)) (hadd : ∀ r p, P (.added r p) → m.view.Docile p) : n.Ample := by
  have hkept : n.view.Coherent ∧ n.view.Recorded ∧ n.view.Housed := by
    apply hn.path.keeps (I := fun v => v.Coherent ∧ v.Recorded ∧ v.Housed)
      ⟨h.sound.coherent, h.recorded, h.housed⟩
    rintro v w a ha hs ⟨hv, hrec, hhome⟩
    have hnone (s : SpaceId) (heq : a = .dropped s) (va : Addr) : v.page ⟨s, va⟩ = none :=
      absurd (heq ▸ ha) (hdrop s)
    exact ⟨hv.step hs, fun k => hs.recorded (hrec k) hnone, hs.housed hv hhome hnone⟩
  have hsize := hn.pool_size h.sound
  refine ⟨hn.sound h.sound, fun f => ?_, hkept.2.1, hkept.2.2, hn.path.mild h.mild hput hadd,
    hswap.disk.reliable h.reliable, by rw [hsize]; exact h.pos, by rw [hsize]; exact h.size_le⟩
  rw [Ne, hn.pinned]
  exact h.unpinned f

theorem room_eq (hm : m.Sound) (hn : m.Leads P n) (hswap : m.swap.Same n.swap) : n.room = m.room := by
  rw [room, room, hn.pool_size hm, hswap.capacity]

structure Copes (m n : Machine) : Prop where
  ample : n.Ample
  room : n.room = m.room
  log : ∃ es, n.log.toList = m.log.toList ++ es ∧ es.foldl Event.move m.registered = n.registered

namespace Copes

theorem refl (h : m.Ample) : m.Copes m := ⟨h, rfl, [], (List.append_nil _).symm, rfl⟩

theorem overfull (h : m.Copes n) (hn : n.room ≤ n.allPages.length) : m.Overfull n := by
  obtain ⟨es, hlog, hes⟩ := h.log
  refine ⟨n.registered, List.mem_map.2 ⟨es, ?_, hes⟩, ?_⟩
  · rw [told_of_log hlog, List.mem_inits]
  · rwa [card_registered, ← h.room]

/-- A page that is denied a frame is one of too many. -/
theorem overfull_of_denied (h : m.Copes n) (hp : n.view.page r = some p) (hdenied : Vm.Denied n p) : m.Overfull n :=
  h.overfull (Nat.not_lt.1 fun hlt => h.ample.granted hlt hp hdenied)

/-- It goes on like that as long as no page comes or goes. -/
theorem tame (h : m.Copes n) (hu : n.Leads P u) (hP : ∀ a, P a → a.Tame) (hstill : n.Still u) : m.Copes u := by
  obtain ⟨es, hlog, hes⟩ := h.log
  obtain ⟨hswap, es', hlog', hes'⟩ := hstill
  have hsame : u.registered = n.registered := by
    ext r
    rw [mem_registered, mem_registered]
    constructor
    · exact hu.path.was_present fun p ha => hP _ ha
    · exact hu.path.present (fun saved ha => hP _ ha) fun ha => hP _ ha
  refine ⟨h.ample.leads hu hswap (fun s ha => hP _ ha) (fun id g ha => hP _ ha) fun r p ha => (hP _ ha).elim,
    (room_eq h.ample.sound hu hswap).trans h.room, es ++ es', ?_, ?_⟩
  · rw [hlog', hlog, List.append_assoc]
  · rw [List.foldl_append, hes, foldl_move_of_still hes', hsame]

theorem booked (h : m.Copes n) (hs : (n.view.book s).isSome) {g : Space → Space}
    (hp : ∀ sp, (g sp).pages = sp.pages) (ht : ∀ sp, (g sp).table = sp.table) : m.Copes (n.withSpace s g) := by
  obtain ⟨sp, hsp⟩ := space?_of_book hs
  apply h.tame (Machine.booked h.ample.sound.consistent hsp hp ht).1
  · rintro _ rfl
    trivial
  · exact ⟨.refl _, (Still.refl n).log⟩

theorem tell (h : m.Copes n) {e : Event} (he : e.moves = false) : m.Copes (n.tell e) :=
  h.tame ((Leads.refl h.ample.sound.consistent).tell Act.quiet_quiet e) (fun _ ha => ha.tame)
    ((steady_still (fun _ => True) n).tell e he (.refl n))

end Copes

end Machine

end DemandPaging
