import BpfSysroot.ArcCounting
import BpfSysroot.Holdings

/-!
# What the counts of `Arc` say

Each thread holds shares of the allocations: its handles, and what the call that it is in has
taken. What all threads together hold of an allocation is described by the phase that the
allocation is in, and the phase says what the counts are, whether the value is there, and how
often it was dropped and the memory freed.
-/

namespace ArcCounting

open Holdings

inductive Share where
  | strong
  | weak
  /-- the lock of `is_unique` -/
  | lock
  /-- the lock, after the strong count was seen to be one -/
  | seen
  /-- the only handle -/
  | unique
  /-- the strong count was taken to zero, and the value is there -/
  | final
  /-- the same, and there is no weak handle -/
  | only
  /-- the value is gone, and the weak count of the strong handles is not given up -/
  | husk
  /-- the memory is to be freed -/
  | free
  deriving DecidableEq

inductive Phase where
  | unallocated
  /-- there are `k + 1` strong and `m` weak handles -/
  | shared (k m : Nat)
  /-- one of `k + 1` strong handles has the lock, and there is no weak handle -/
  | locked (k : Nat)
  | seen
  | unique
  | final (m : Nat)
  | only
  | husk (m : Nat)
  /-- there are `m + 1` weak handles and no strong one -/
  | orphaned (m : Nat)
  | dying
  | freed

namespace Phase

variable {p p' : Phase} {given gotten : List Share}

def tokens : Phase → Share → Nat
  | .shared k _, .strong => k + 1
  | .shared _ m, .weak => m
  | .locked k, .strong => k
  | .locked _, .lock => 1
  | .seen, .seen => 1
  | .unique, .unique => 1
  | .final _, .final => 1
  | .final m, .weak => m
  | .only, .only => 1
  | .husk _, .husk => 1
  | .husk m, .weak => m
  | .orphaned m, .weak => m + 1
  | .dying, .free => 1
  | _, _ => 0

def strong : Phase → Nat
  | .shared k _ | .locked k => k + 1
  | .seen | .unique => 1
  | _ => 0

def weak : Phase → Nat
  | .shared _ m | .final m | .husk m | .orphaned m => m + 1
  | .locked _ | .seen => usizeMax
  | .unique | .only => 1
  | _ => 0

def live : Phase → Bool
  | .unallocated | .freed => false
  | _ => true

def alive : Phase → Bool
  | .shared _ _ | .locked _ | .seen | .unique | .final _ | .only => true
  | _ => false

/-- How often the value was dropped or moved out. -/
def destroyed : Phase → Nat
  | .husk _ | .orphaned _ | .dying | .freed => 1
  | _ => 0

/-- How often the memory was freed. -/
def released : Phase → Nat
  | .freed => 1
  | _ => 0

/-- A holder of some shares trades them for others, which takes the allocation to another phase
and may destroy the value. -/
inductive Step : Phase → List Share → List Share → Phase → Prop where
  | stays (p : Phase) (k : Share) : Step p [k] [k] p
  | new : Step .unallocated [] [.strong] (.shared 0 0)
  | newUnique : Step .unallocated [] [.unique] .unique
  | clone (k m : Nat) : Step (.shared k m) [.strong] [.strong, .strong] (.shared (k + 1) m)
  | cloneLocked (k : Nat) : Step (.locked k) [.strong] [.strong, .strong] (.locked (k + 1))
  | drop (k m : Nat) : Step (.shared (k + 1) m) [.strong] [] (.shared k m)
  | dropLocked (k : Nat) : Step (.locked (k + 1)) [.strong] [] (.locked k)
  | dropLast (m : Nat) : Step (.shared 0 m) [.strong] [.final] (.final m)
  | downgrade (k m : Nat) : Step (.shared k m) [.strong] [.strong, .weak] (.shared k (m + 1))
  | lock (k : Nat) : Step (.shared k 0) [.strong] [.lock] (.locked k)
  | unlock (k : Nat) : Step (.locked k) [.lock] [.strong] (.shared k 0)
  | see : Step (.locked 0) [.lock] [.seen] .seen
  | unlockSeen : Step .seen [.seen] [.unique] .unique
  | release : Step .unique [.unique] [.strong] (.shared 0 0)
  | only : Step (.final 0) [.final] [.only] .only
  | restore : Step .only [.only] [.unique] .unique
  | destroy (m : Nat) : Step (.final m) [.final] [.husk] (.husk m)
  | giveUp (m : Nat) : Step (.husk (m + 1)) [.husk] [] (.orphaned m)
  | giveUpLast : Step (.husk 0) [.husk] [.free] .dying
  | free : Step .dying [.free] [] .freed
  | upgrade (k m : Nat) : Step (.shared k m) [.weak] [.weak, .strong] (.shared (k + 1) m)
  | weakClone (k m : Nat) : Step (.shared k m) [.weak] [.weak, .weak] (.shared k (m + 1))
  | weakCloneFinal (m : Nat) : Step (.final m) [.weak] [.weak, .weak] (.final (m + 1))
  | weakCloneHusk (m : Nat) : Step (.husk m) [.weak] [.weak, .weak] (.husk (m + 1))
  | weakCloneOrphaned (m : Nat) :
      Step (.orphaned m) [.weak] [.weak, .weak] (.orphaned (m + 1))
  | weakDrop (k m : Nat) : Step (.shared k (m + 1)) [.weak] [] (.shared k m)
  | weakDropFinal (m : Nat) : Step (.final (m + 1)) [.weak] [] (.final m)
  | weakDropHusk (m : Nat) : Step (.husk (m + 1)) [.weak] [] (.husk m)
  | weakDropOrphaned (m : Nat) : Step (.orphaned (m + 1)) [.weak] [] (.orphaned m)
  | weakDropLast : Step (.orphaned 0) [.weak] [.free] .dying

/-- What is traded is just what the holders of the allocation have less or more. -/
lemma Step.tokens (step : Step p given gotten p') (k : Share) :
    p'.tokens k + given.count k = p.tokens k + gotten.count k := by
  cases step with
  | stays => rfl
  | _ => cases k <;> simp [Phase.tokens]

lemma Step.weak_le (step : Step p given gotten p') :
    gotten.count .weak ≤ given.count .weak + 1 := by
  cases step <;> simp

lemma live_of_tokens {k : Share} (some : p.tokens k ≠ 0) : p.live := by
  cases p with
  | unallocated | freed => cases some rfl
  | _ => rfl

lemma of_strong (some : p.tokens .strong ≠ 0) :
    (∃ k m, p = .shared k m) ∨ ∃ k, p = .locked (k + 1) := by
  cases p with
  | shared k m => exact .inl ⟨k, m, rfl⟩
  | locked k =>
    obtain ⟨k, rfl⟩ := Nat.exists_eq_succ_of_ne_zero some
    exact .inr ⟨k, rfl⟩
  | _ => cases some rfl

lemma alive_of_strong (some : p.tokens .strong ≠ 0) : p.alive := by
  rcases of_strong some with ⟨k, m, rfl⟩ | ⟨k, rfl⟩ <;> rfl

lemma of_weak (some : p.tokens .weak ≠ 0) :
    (∃ k m, p = .shared k (m + 1)) ∨ (∃ m, p = .final (m + 1)) ∨ (∃ m, p = .husk (m + 1)) ∨
      ∃ m, p = .orphaned m := by
  cases p with
  | shared k m =>
    obtain ⟨m, rfl⟩ := Nat.exists_eq_succ_of_ne_zero some
    exact .inl ⟨k, m, rfl⟩
  | final m =>
    obtain ⟨m, rfl⟩ := Nat.exists_eq_succ_of_ne_zero some
    exact .inr (.inl ⟨m, rfl⟩)
  | husk m =>
    obtain ⟨m, rfl⟩ := Nat.exists_eq_succ_of_ne_zero some
    exact .inr (.inr (.inl ⟨m, rfl⟩))
  | orphaned m => exact .inr (.inr (.inr ⟨m, rfl⟩))
  | _ => cases some rfl

lemma of_lock (some : p.tokens .lock ≠ 0) : ∃ k, p = .locked k := by
  cases p with
  | locked k => exact ⟨k, rfl⟩
  | _ => cases some rfl

lemma of_seen (some : p.tokens .seen ≠ 0) : p = .seen := by
  cases p with
  | seen => rfl
  | _ => cases some rfl

lemma of_unique (some : p.tokens .unique ≠ 0) : p = .unique := by
  cases p with
  | unique => rfl
  | _ => cases some rfl

lemma of_final (some : p.tokens .final ≠ 0) : ∃ m, p = .final m := by
  cases p with
  | final m => exact ⟨m, rfl⟩
  | _ => cases some rfl

lemma of_only (some : p.tokens .only ≠ 0) : p = .only := by
  cases p with
  | only => rfl
  | _ => cases some rfl

lemma of_husk (some : p.tokens .husk ≠ 0) : ∃ m, p = .husk m := by
  cases p with
  | husk m => exact ⟨m, rfl⟩
  | _ => cases some rfl

lemma of_free (some : p.tokens .free ≠ 0) : p = .dying := by
  cases p with
  | dying => rfl
  | _ => cases some rfl

variable {T : Type}

/-- The allocation is in this phase. -/
def Is (p : Phase) : Slot T → Prop
  | .unallocated => p = .unallocated
  | .live inner => p.live ∧ inner.strong = p.strong ∧ inner.weak = p.weak ∧
      inner.data.isSome = p.alive
  | .freed => p = .freed

lemma Is.inner {p : Phase} {slot : Slot T} (is : p.Is slot) (live : p.live) :
    ∃ inner, slot = .live inner ∧ inner.strong = p.strong ∧ inner.weak = p.weak ∧
      inner.data.isSome = p.alive := by
  cases slot with
  | unallocated =>
    obtain rfl : p = .unallocated := is
    cases live
  | live inner => exact ⟨inner, rfl, is.2⟩
  | freed =>
    obtain rfl : p = .freed := is
    cases live

end Phase

/-- The shares of the handle that `make_mut` has made. -/
def made : Option Nat → Multiset (Share × Nat)
  | none => 0
  | some b => {(.unique, b)}

def Pc.shares : Pc → Multiset (Share × Nat)
  | .idle => 0
  | .downgrade a _ | .copy a => {(.strong, a)}
  | .uniqueLoad a | .uniqueStore a false => {(.lock, a)}
  | .uniqueStore a true => {(.seen, a)}
  | .borrowed a => {(.unique, a)}
  | .unwrap a | .mutLoad a | .mutRead a => {(.final, a)}
  | .mutStore a => {(.only, a)}
  | .dropArc a next => {(.strong, a)} + made next
  | .dropValue a next => {(.final, a)} + made next
  | .dropWeak a next => {(.husk, a)} + made next
  | .dealloc a next => {(.free, a)} + made next
  | .upgrade a _ | .weakCount a _ => {(.weak, a)}

namespace Local

def handles (l : Local) : Multiset (Share × Nat) :=
  l.arcs.map (Prod.mk .strong) + l.weaks.map (Prod.mk .weak)

def shares (l : Local) : Multiset (Share × Nat) := l.pc.shares + l.handles

section
variable (l : Local)
include l

@[simp]
lemma handles_addArc (a : Nat) : (l.addArc a).handles = {(.strong, a)} + l.handles := by
  simp [handles, addArc]

@[simp]
lemma handles_addWeak (a : Nat) : (l.addWeak a).handles = {(.weak, a)} + l.handles := by
  simp [handles, addWeak]

@[simp]
lemma handles_at (pc : Pc) : (l.at_ pc).handles = l.handles := rfl

@[simp]
lemma shares_at (pc : Pc) : (l.at_ pc).shares = pc.shares + l.handles := rfl

@[simp]
lemma pc_addArc (a : Nat) : (l.addArc a).pc = l.pc := rfl

@[simp]
lemma pc_addWeak (a : Nat) : (l.addWeak a).pc = l.pc := rfl

end

lemma shares_of_idle {l : Local} (idle : l.pc = .idle) : l.shares = l.handles := by
  rw [shares, idle]
  exact zero_add _

lemma shares_addArc (l : Local) (a : Nat) : (l.addArc a).shares = {(.strong, a)} + l.shares := by
  rw [shares, handles_addArc, add_left_comm]
  rfl

lemma shares_addWeak (l : Local) (a : Nat) : (l.addWeak a).shares = {(.weak, a)} + l.shares := by
  rw [shares, handles_addWeak, add_left_comm]
  rfl

lemma takeArc_eq_some {l l' : Local} {a : Nat} (taken : l.takeArc a = some l') :
    l = l'.addArc a := by
  rw [takeArc] at taken
  split at taken
  next mem =>
    cases taken
    simp [addArc, Multiset.cons_erase mem]
  · cases taken

lemma takeWeak_eq_some {l l' : Local} {a : Nat} (taken : l.takeWeak a = some l') :
    l = l'.addWeak a := by
  rw [takeWeak] at taken
  split at taken
  next mem =>
    cases taken
    simp [addWeak, Multiset.cons_erase mem]
  · cases taken

end Local

@[simp]
lemma shares_resume (next : Option Nat) : (resume next).shares = made next := by
  cases next <;> rfl

end ArcCounting
