import BpfSysroot.ArcSteps

/-!
# What holds in every run of threads that share `Arc`s

The handles of a thread are those it owns and those that its call uses. A call that has taken the
strong count to zero has no handle any more, but still deals with the allocation.
-/

namespace ArcCounting

open Holdings Interleaving
open Multiset (mem_add mem_map mem_singleton mem_singleton_self)

namespace Pc

/-- The `Arc` handles that a call uses. -/
def arcs : Pc → List Nat
  | .downgrade a _ | .uniqueLoad a | .uniqueStore a _ | .borrowed a | .copy a => [a]
  | .dropArc a next => a :: next.toList
  | .dropValue _ next | .dropWeak _ next | .dealloc _ next => next.toList
  | _ => []

/-- The `Weak` handles that a call uses. -/
def weaks : Pc → List Nat
  | .upgrade a _ | .weakCount a _ => [a]
  | _ => []

/-- The allocation that a call still deals with, after it has given up its handle. -/
def spent : Pc → List Nat
  | .unwrap a | .mutLoad a | .mutRead a | .mutStore a | .dropValue a _ | .dropWeak a _
  | .dealloc a _ => [a]
  | _ => []

end Pc

namespace Local

def hasArc (l : Local) (a : Nat) : Prop := a ∈ l.arcs ∨ a ∈ l.pc.arcs

def hasWeak (l : Local) (a : Nat) : Prop := a ∈ l.weaks ∨ a ∈ l.pc.weaks

def uses (l : Local) (a : Nat) : Prop := l.hasArc a ∨ l.hasWeak a ∨ a ∈ l.pc.spent

end Local

variable {Thread T : Type}

namespace State

/-- How often the value was dropped or moved out. -/
def destroyed (s : State Thread T) (a : Nat) : Nat :=
  s.log.count (.dropped a) + s.log.count (.moved a)

def freed (s : State Thread T) (a : Nat) : Nat := s.log.count (.freed a)

def alive (s : State Thread T) (a : Nat) : Prop :=
  ∃ inner, s.heap a = .live inner ∧ inner.data.isSome = true

end State

variable {k : Share} {a : Nat} {pc : Pc}

structure Safe (s : State Thread T) : Prop where
  /-- no use of freed memory or of a value that is gone, and no underflow -/
  sound : s.failed = false
  running : s.aborted = false
  once : ∀ a, s.destroyed a ≤ 1 ∧ s.freed a ≤ 1
  /-- the value is there while there is a strong handle -/
  value : ∀ t a, (s.threads t).hasArc a → s.alive a ∧ s.destroyed a = 0
  /-- the memory is there while there is a handle -/
  memory : ∀ t a, (s.threads t).uses a → s.freed a = 0
  /-- nothing is lost -/
  ended : ∀ a, a < s.next → (∀ t, ¬ (s.threads t).uses a) → s.destroyed a = 1 ∧ s.freed a = 1
  /-- the reference of `get_mut` or `make_mut` is the only way to its allocation -/
  unique : ∀ t a, (s.threads t).pc = .borrowed a → ∀ u,
    a ∉ (s.threads u).arcs ∧ a ∉ (s.threads u).weaks ∧ (u ≠ t → ¬ (s.threads u).uses a)

def Share.isArc : Share → Bool
  | .strong | .lock | .seen | .unique => true
  | _ => false

lemma mem_made {next : Option Nat} : (k, a) ∈ made next ↔ k = .unique ∧ a ∈ next.toList := by
  cases next <;> simp [made]

lemma Pc.arc_share (mem : a ∈ pc.arcs) : ∃ k, k.isArc ∧ (k, a) ∈ pc.shares := by
  cases pc with
  | downgrade | copy =>
    obtain rfl := List.mem_singleton.mp mem
    exact ⟨.strong, rfl, mem_singleton_self _⟩
  | uniqueLoad =>
    obtain rfl := List.mem_singleton.mp mem
    exact ⟨.lock, rfl, mem_singleton_self _⟩
  | uniqueStore _ unique =>
    obtain rfl := List.mem_singleton.mp mem
    cases unique with
    | false => exact ⟨.lock, rfl, mem_singleton_self _⟩
    | true => exact ⟨.seen, rfl, mem_singleton_self _⟩
  | borrowed =>
    obtain rfl := List.mem_singleton.mp mem
    exact ⟨.unique, rfl, mem_singleton_self _⟩
  | dropArc b next =>
    rcases List.mem_cons.mp mem with rfl | mem
    · exact ⟨.strong, rfl, mem_add.mpr (.inl (mem_singleton_self _))⟩
    · exact ⟨.unique, rfl, mem_add.mpr (.inr (mem_made.mpr ⟨rfl, mem⟩))⟩
  | dropValue _ next | dropWeak _ next | dealloc _ next =>
    exact ⟨.unique, rfl, mem_add.mpr (.inr (mem_made.mpr ⟨rfl, mem⟩))⟩
  | _ => cases mem

lemma Pc.weak_share (mem : a ∈ pc.weaks) : (.weak, a) ∈ pc.shares := by
  cases pc with
  | upgrade | weakCount =>
    obtain rfl := List.mem_singleton.mp mem
    exact mem_singleton_self _
  | _ => cases mem

lemma Pc.spent_share (mem : a ∈ pc.spent) : ∃ k, (k, a) ∈ pc.shares := by
  cases pc with
  | unwrap | mutLoad | mutRead | mutStore =>
    obtain rfl := List.mem_singleton.mp mem
    exact ⟨_, mem_singleton_self _⟩
  | dropValue | dropWeak | dealloc =>
    obtain rfl := List.mem_singleton.mp mem
    exact ⟨_, mem_add.mpr (.inl (mem_singleton_self _))⟩
  | _ => cases mem

/-- Every share is of an allocation that the call uses. -/
lemma Pc.share_used (mem : (k, a) ∈ pc.shares) : a ∈ pc.arcs ∨ a ∈ pc.weaks ∨ a ∈ pc.spent := by
  cases pc with
  | uniqueStore b unique =>
    cases unique <;> simp_all [Pc.shares, arcs]
  | dropArc b next =>
    rcases mem_add.mp mem with mem | mem
    · exact .inl (List.mem_cons.mpr (.inl (Prod.mk.inj (mem_singleton.mp mem)).2))
    · exact .inl (List.mem_cons_of_mem _ (mem_made.mp mem).2)
  | dropValue b next | dropWeak b next | dealloc b next =>
    rcases mem_add.mp mem with mem | mem
    · exact .inr (.inr (List.mem_singleton.mpr (Prod.mk.inj (mem_singleton.mp mem)).2))
    · exact .inl (mem_made.mp mem).2
  | _ => simp_all [Pc.shares, arcs, weaks, spent]

namespace Local

variable {l : Local} {a : Nat}

lemma mem_handles {k : Share} :
    (k, a) ∈ l.handles ↔ k = .strong ∧ a ∈ l.arcs ∨ k = .weak ∧ a ∈ l.weaks := by
  simp only [handles, mem_add, mem_map, Prod.mk.injEq]
  constructor
  · rintro (⟨b, mem, rfl, rfl⟩ | ⟨b, mem, rfl, rfl⟩)
    · exact .inl ⟨rfl, mem⟩
    · exact .inr ⟨rfl, mem⟩
  · rintro (⟨rfl, mem⟩ | ⟨rfl, mem⟩)
    · exact .inl ⟨a, mem, rfl, rfl⟩
    · exact .inr ⟨a, mem, rfl, rfl⟩

lemma arc_share (arc : l.hasArc a) : ∃ k, k.isArc ∧ (k, a) ∈ l.shares := by
  rcases arc with mem | mem
  · exact ⟨.strong, rfl, mem_add.mpr (.inr (mem_handles.mpr (.inl ⟨rfl, mem⟩)))⟩
  · obtain ⟨k, arc, share⟩ := Pc.arc_share mem
    exact ⟨k, arc, mem_add.mpr (.inl share)⟩

/-- A thread holds a share of just the allocations that it uses. -/
lemma uses_iff : l.uses a ↔ ∃ k, (k, a) ∈ l.shares := by
  constructor
  · rintro (arc | (mem | mem) | mem)
    · obtain ⟨k, -, share⟩ := arc_share arc
      exact ⟨k, share⟩
    · exact ⟨.weak, mem_add.mpr (.inr (mem_handles.mpr (.inr ⟨rfl, mem⟩)))⟩
    · exact ⟨.weak, mem_add.mpr (.inl (Pc.weak_share mem))⟩
    · obtain ⟨k, share⟩ := Pc.spent_share mem
      exact ⟨k, mem_add.mpr (.inl share)⟩
  · rintro ⟨k, share⟩
    rcases mem_add.mp share with share | share
    · rcases Pc.share_used share with mem | mem | mem
      · exact .inl (.inr mem)
      · exact .inr (.inl (.inr mem))
      · exact .inr (.inr mem)
    · rcases mem_handles.mp share with ⟨-, mem⟩ | ⟨-, mem⟩
      · exact .inl (.inl mem)
      · exact .inr (.inl (.inl mem))

end Local

namespace Phase

lemma alive_of_arc {p : Phase} {k : Share} (arc : k.isArc) (some : p.tokens k ≠ 0) :
    p.alive ∧ p.destroyed = 0 := by
  cases k with
  | strong => rcases of_strong some with ⟨k, m, rfl⟩ | ⟨k, rfl⟩ <;> exact ⟨rfl, rfl⟩
  | lock =>
    obtain ⟨k, rfl⟩ := of_lock some
    exact ⟨rfl, rfl⟩
  | seen =>
    obtain rfl := of_seen some
    exact ⟨rfl, rfl⟩
  | unique =>
    obtain rfl := of_unique some
    exact ⟨rfl, rfl⟩
  | _ => cases arc

lemma over_of_tokens {p : Phase} (none : ∀ k, p.tokens k = 0) : p = .unallocated ∨ p = .freed := by
  cases p with
  | unallocated => exact .inl rfl
  | freed => exact .inr rfl
  | shared => cases none .strong
  | locked => cases none .lock
  | seen => cases none .seen
  | unique => cases none .unique
  | final => cases none .final
  | only => cases none .only
  | husk => cases none .husk
  | orphaned => cases none .weak
  | dying => cases none .free

end Phase

variable [Fintype Thread] {s : State Thread T} {bound : Nat}

lemma Describes.tokens_of_mem {p : Phase} {t : Thread} {k : Share} {a : Nat}
    (described : Describes p s a) (mem : (k, a) ∈ (s.threads t).shares) : p.tokens k ≠ 0 := by
  rw [← described.tokens k]
  exact Multiset.count_ne_zero.mpr (mem_pool.mpr ⟨t, mem⟩)

variable [DecidableEq Thread]

/-- The reference in use is all that there is of its allocation. -/
lemma Core.borrowed (core : Core bound s) {t u : Thread} {a : Nat}
    (at_pc : (s.threads t).pc = .borrowed a) :
    a ∉ (s.threads u).arcs ∧ a ∉ (s.threads u).weaks ∧ (u ≠ t → ¬ (s.threads u).uses a) := by
  obtain ⟨p, described⟩ := core.phases a
  have mine : (s.threads t).shares = {(.unique, a)} + (s.threads t).handles := by
    rw [Local.shares, at_pc]
    rfl
  obtain rfl : p = .unique := by
    refine Phase.of_unique (described.tokens_of_mem (t := t) ?_)
    rw [mine]
    simp
  have only {u : Thread} {k : Share} (mem : (k, a) ∈ (s.threads u).shares) : k = .unique := by
    have some := described.tokens_of_mem mem
    cases k with
    | unique => rfl
    | _ => cases some rfl
  refine ⟨fun mem => ?_, fun mem => ?_, fun other uses => ?_⟩
  · cases only (mem_add.mpr (.inr (Local.mem_handles.mpr (.inl ⟨rfl, mem⟩))))
  · cases only (mem_add.mpr (.inr (Local.mem_handles.mpr (.inr ⟨rfl, mem⟩))))
  · obtain ⟨k, share⟩ := Local.uses_iff.mp uses
    obtain rfl := only share
    have one : s.shares.count (.unique, a) = 1 := described.tokens .unique
    have rest : (.unique, a) ∈ rest (fun v => (s.threads v).shares) t := mem_rest other share
    rw [State.shares, pool_eq _ t, Multiset.count_add, mine] at one
    have positive := Multiset.count_pos.mpr rest
    simp at one
    omega

lemma Core.safe (core : Core bound s) : Safe s := by
  constructor
  · exact core.sound
  · exact core.running
  · intro a
    obtain ⟨p, described⟩ := core.phases a
    rw [State.destroyed, State.freed, described.destroyed, described.released]
    cases p <;> simp [Phase.destroyed, Phase.released]
  · intro t a arc
    obtain ⟨p, described⟩ := core.phases a
    obtain ⟨k, arc, share⟩ := Local.arc_share arc
    have some := described.tokens_of_mem share
    obtain ⟨alive, destroyed⟩ := Phase.alive_of_arc arc some
    obtain ⟨inner, heap, -, -, data⟩ := described.slot.inner (Phase.live_of_tokens some)
    exact ⟨⟨inner, heap, data.trans alive⟩, described.destroyed.trans destroyed⟩
  · intro t a uses
    obtain ⟨p, described⟩ := core.phases a
    obtain ⟨k, share⟩ := Local.uses_iff.mp uses
    rw [State.freed, described.released]
    have live := Phase.live_of_tokens (described.tokens_of_mem share)
    cases p with
    | freed => cases live
    | _ => rfl
  · intro a allocated unused
    obtain ⟨p, described⟩ := core.phases a
    have none (k : Share) : p.tokens k = 0 := by
      rw [← described.tokens k]
      refine Multiset.count_eq_zero.mpr fun mem => ?_
      obtain ⟨t, share⟩ := mem_pool.mp mem
      exact unused t (Local.uses_iff.mpr ⟨k, share⟩)
    rcases Phase.over_of_tokens none with rfl | rfl
    · have slot := described.slot
      cases heap : s.heap a with
      | unallocated => exact absurd ((core.fresh a).mp heap) (not_le.mpr allocated)
      | live inner =>
        rw [heap] at slot
        cases slot.1
      | freed =>
        rw [heap] at slot
        cases slot
    · exact ⟨described.destroyed, described.released⟩
  · intro t a at_pc u
    exact core.borrowed at_pc

/-- Every state that any number of threads reach, in any interleaving, while the counts are below
`MAX_REFCOUNT`. -/
theorem arc_counting_safe {Thread T : Type} [Fintype Thread] [DecidableEq Thread]
    (cloneValue : T → T) (labels : List (Thread × Action Thread T)) (s : State Thread T)
    (done : run (counted cloneValue) init labels = some s) : Safe s := by
  have preserves (s : State Thread T) (label : Thread × Action Thread T) (s' : State Thread T)
      (before : Core maxRefcount s ∧ s.below)
      (step : counted cloneValue s label = some s') :
      Core maxRefcount s' ∧ s'.below := before.1.counted before.2 step
  have start : (init : State Thread T).below := by
    simp [State.below, init]
  exact (run_invariant preserves ⟨core_init, start⟩ done).1.safe

/-- One thread makes and clones an `Arc` and gives the clone to the other, which downgrades it;
both call `make_mut`, which clones the value for the one and moves it for the other. -/
def sharedRun : List (Fin 2 × Action (Fin 2) Nat) :=
  [(0, .call (.new 5)), (0, .call (.clone 0)), (0, .call (.sendArc 0 1)), (1, .call (.downgrade 0)),
    (1, .go false), (0, .call (.makeMut 0)), (0, .go false), (0, .go false), (0, .release),
    (1, .call (.makeMut 0)), (1, .go false), (1, .go false), (1, .go false)]

theorem arc_counting_safe_shared : ∃ s, run (counted id) init sharedRun = some s ∧
    s.log = [.moved 0] ∧ (s.threads 1).pc = .borrowed 2 ∧ Safe s := by
  have some : (run (counted id) init sharedRun).map (fun s => (s.log, (s.threads 1).pc)) =
      some ([.moved 0], .borrowed 2) := by
    decide +kernel
  obtain ⟨s, done, ends⟩ := Option.map_eq_some_iff.mp some
  obtain ⟨log, pc⟩ := Prod.mk.inj ends
  exact ⟨s, done, log, pc, arc_counting_safe id sharedRun s done⟩

end ArcCounting
