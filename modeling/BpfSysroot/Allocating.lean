import Mathlib

/-!
# Computations that allocate

A computation returns, panics because an assertion of the program failed,
gives up because it needs more room than can be addressed (`overflow`, with the
amount it needed), or does something that the language leaves undefined
(`fault`). `Ends limit` is false of panics and of faults, and lets a computation
give up only when it really needed more than `limit`.
-/

namespace Allocating

inductive Outcome (A : Type) where
  | ok (a : A)
  | panic
  | overflow (needed : Nat)
  | fault
  deriving DecidableEq

variable {A B : Type}

namespace Outcome

def bind (x : Outcome A) (k : A → Outcome B) : Outcome B :=
  match x with
  | ok a => k a
  | panic => panic
  | overflow needed => overflow needed
  | fault => fault

instance : Monad Outcome where
  pure := ok
  bind := bind

lemma ok_bind (a : A) (k : A → Outcome B) : ok a >>= k = k a := rfl

lemma bind_assoc {C : Type} (x : Outcome A) (f : A → Outcome B) (g : B → Outcome C) :
    x >>= f >>= g = x >>= fun a => f a >>= g := by
  cases x <;> rfl

lemma bind_pure (x : Outcome A) : x >>= pure = x := by
  cases x <;> rfl

/-- A subtraction of unsigned numbers that must not wrap around. -/
def sub (a b : Nat) : Outcome Nat := if b ≤ a then ok (a - b) else panic

/-- An assertion that is always compiled. -/
def assert (p : Prop) [Decidable p] : Outcome Unit := if p then ok () else panic

/-- A condition under which the next step is defined. -/
def check (p : Prop) [Decidable p] : Outcome Unit := if p then ok () else fault

/-- A value that must be there. -/
def require (o : Option A) : Outcome A :=
  match o with
  | some a => ok a
  | none => fault

/-- Asks for room, which is there up to the limit. -/
def allocate (limit needed : Nat) : Outcome Unit :=
  if needed ≤ limit then ok () else overflow needed

variable (limit : Nat)

def Ends (x : Outcome A) (Q : A → Prop) : Prop :=
  match x with
  | ok a => Q a
  | panic => False
  | overflow needed => limit < needed
  | fault => False

variable {limit} {Q : A → Prop} {R : B → Prop} {x : Outcome A}

lemma ends_ok {a : A} (h : Q a) : (pure a : Outcome A).Ends limit Q := h

lemma Ends.mono {Q' : A → Prop} (h : x.Ends limit Q) (hq : ∀ a, Q a → Q' a) : x.Ends limit Q' := by
  cases x with
  | ok a => exact hq a h
  | panic => exact h
  | overflow needed => exact h
  | fault => exact h

lemma Ends.bind {k : A → Outcome B} (h : x.Ends limit Q)
    (hk : ∀ a, Q a → (k a).Ends limit R) : (x >>= k).Ends limit R := by
  cases x with
  | ok a => exact hk a h
  | panic => exact h
  | overflow needed => exact h
  | fault => exact h

/-- A computation that may give up under no limit returns. -/
lemma ok_of_ends (h : ∀ limit, x.Ends limit Q) : ∃ a, x = ok a ∧ Q a := by
  cases x with
  | ok a => exact ⟨a, rfl, h 0⟩
  | panic => exact (h 0).elim
  | overflow needed => exact absurd (h needed) (lt_irrefl needed)
  | fault => exact (h 0).elim

section
variable {k : A → Outcome B} {a b : Nat} {k : Unit → Outcome B} {p : Prop}

lemma ends_sub {k : Nat → Outcome B} (h : b ≤ a) (hk : (k (a - b)).Ends limit R) :
    (sub a b >>= k).Ends limit R := by
  rw [sub, if_pos h]
  exact hk

lemma ends_assert [Decidable p] (h : p)
    (hk : (k ()).Ends limit R) : (assert p >>= k).Ends limit R := by
  rw [assert, if_pos h]
  exact hk

lemma assert_panic [Decidable p] (h : ¬ p) : (assert p >>= k) = panic := by
  rw [assert, if_neg h]
  rfl

lemma ends_check [Decidable p] (h : p)
    (hk : (k ()).Ends limit R) : (check p >>= k).Ends limit R := by
  rw [check, if_pos h]
  exact hk

lemma ends_allocate {needed : Nat}
    (hk : needed ≤ limit → (k ()).Ends limit R) : (allocate limit needed >>= k).Ends limit R := by
  rw [allocate]
  split
  next fits => exact hk fits
  next large => exact Nat.lt_of_not_le large

end

/-- The computation does what a partial specification says: it returns a related value where the
specification has one, and panics where it has none. -/
def Refines (limit : Nat) (x : Outcome A) (o : Option B) (R : A → B → Prop) : Prop :=
  match o with
  | some b => x.Ends limit (fun a => R a b)
  | none => x = panic ∨ ∃ needed, x = overflow needed ∧ limit < needed

variable {C D : Type} {R : A → B → Prop} {R' : C → D → Prop} {x : Outcome A} {b : B}

lemma Ends.refines (h : x.Ends limit (fun a => R a b)) : x.Refines limit (some b) R := h

lemma refines_ok {a : A} (h : R a b) : (pure a : Outcome A).Refines limit (some b) R := h

lemma Refines.bind {o : Option B} {k : A → Outcome C} {m : B → Option D}
    (h : x.Refines limit o R) (hk : ∀ a b, R a b → (k a).Refines limit (m b) R') :
    (x >>= k).Refines limit (o >>= m) R' := by
  cases o with
  | none =>
    rcases h with rfl | ⟨needed, rfl, large⟩
    · exact .inl rfl
    · exact .inr ⟨needed, rfl, large⟩
  | some b =>
    cases x with
    | ok a => exact hk a b h
    | panic => exact False.elim h
    | overflow needed =>
      cases result : (some b >>= m) with
      | none => exact .inr ⟨needed, rfl, h⟩
      | some d => exact h
    | fault => exact False.elim h

lemma Refines.mono {o : Option B} {Q : A → B → Prop} (h : x.Refines limit o R)
    (hr : ∀ a b, R a b → Q a b) : x.Refines limit o Q := by
  cases o with
  | none => exact h
  | some b => exact Ends.mono h (fun a => hr a b)

/-- A computation that is accepted under a condition and panics otherwise. -/
lemma refines_if {p : Prop} [Decidable p]
    (accepted : p → x.Ends limit (fun a => R a b)) (rejected : ¬ p → x = panic) :
    x.Refines limit (if p then some b else none) R := by
  by_cases h : p
  · rw [if_pos h]
    exact accepted h
  · rw [if_neg h]
    exact .inl (rejected h)

end Outcome
end Allocating
