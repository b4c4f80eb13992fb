import Mathlib

/-!
# Runs of a nondeterministic machine

A step takes a label, which names the party that moves and resolves its choices; it has no
result where the label is not enabled. A run is a list of labels, so every interleaving is
one. What every step preserves holds in every state that a run reaches.
-/

namespace Interleaving

universe u v

variable {σ : Type u} {α : Type v}

def run (step : σ → α → Option σ) : σ → List α → Option σ
  | s, [] => some s
  | s, label :: labels => (step s label).bind (run step · labels)

lemma run_invariant {step : σ → α → Option σ} {P : σ → Prop}
    (preserves : ∀ s label s', P s → step s label = some s' → P s') {s s' : σ}
    {labels : List α} (start : P s) (done : run step s labels = some s') : P s' := by
  induction labels generalizing s with
  | nil =>
    cases Option.some.inj done
    exact start
  | cons label labels ih =>
    obtain ⟨mid, first, rest⟩ := Option.bind_eq_some_iff.mp done
    exact ih (preserves s label mid start first) rest

/-- One party moves: it is where it should be, and what held for the others still does. -/
lemma forall_update {ι : Type u} {β : Type v} [DecidableEq ι] {f : ι → β} {i : ι} {x : β}
    {P Q : ι → β → Prop} (all : ∀ j, P j (f j)) (mine : Q i x)
    (others : ∀ j, j ≠ i → P j (f j) → Q j (f j)) (j : ι) : Q j (Function.update f i x j) := by
  by_cases mover : j = i
  · subst mover
    rw [Function.update_self]
    exact mine
  · rw [Function.update_of_ne mover]
    exact others j mover (all j)

end Interleaving
