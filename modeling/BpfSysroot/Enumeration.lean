import Mathlib

/-!
# Iterators that are called until they end

An iterator enumerates a list if its answers are the elements of the list in order, and `none`
ever after.
-/

namespace Enumeration

universe u v

variable {σ : Type u} {α : Type v}

def after (next : σ → Option α × σ) (s : σ) : Nat → σ
  | 0 => s
  | n + 1 => after next (next s).2 n

def Enumerates (next : σ → Option α × σ) (s : σ) (xs : List α) : Prop :=
  ∀ n, (next (after next s n)).1 = xs[n]?

/-- A relation of the states to what they have still to give, which the calls keep. -/
def Follows (next : σ → Option α × σ) (R : σ → List α → Prop) : Prop :=
  ∀ s xs, R s xs → (next s).1 = xs.head? ∧ R (next s).2 xs.tail

variable {next : σ → Option α × σ} {R : σ → List α → Prop}

lemma Follows.after (follows : Follows next R) {s : σ} {xs : List α} (related : R s xs)
    (n : Nat) : R (after next s n) (xs.drop n) := by
  induction n generalizing s xs with
  | zero => exact related
  | succ n ih =>
    have later := ih (follows s xs related).2
    rw [List.drop_tail] at later
    exact later

lemma Follows.enumerates (follows : Follows next R) {s : σ} {xs : List α} (related : R s xs) :
    Enumerates next s xs := by
  intro n
  have answer := (follows _ _ (follows.after related n)).1
  rw [List.head?_drop] at answer
  exact answer

end Enumeration
