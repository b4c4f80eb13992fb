import Mathlib

/-!
# Computations that leave a trace

A computation with no memory of its own that either faults, when it does
something its language leaves undefined, or returns a value together with the
events of type `E` it noted on the way. A specification is written with
`Yields`: the computation returns, every noted event is allowed, and the
value satisfies a postcondition.
-/

namespace Traced

/-- The events stand in the order in which they were noted. -/
inductive Run (E A : Type) where
  | ok (a : A) (events : List E)
  | fault
  deriving DecidableEq

variable {E A B : Type}

namespace Run

def ret (a : A) : Run E A := ok a []

/-- Returns `a` and notes one event. -/
def noting (e : E) (a : A) : Run E A := ok a [e]

def bind (x : Run E A) (k : A → Run E B) : Run E B :=
  match x with
  | fault => fault
  | ok a before => match k a with
    | fault => fault
    | ok b after => ok b (before ++ after)

instance : Monad (Run E) where
  pure := ret
  bind := bind

/-- Returns, with allowed events only and a value in `Q`. -/
def Yields (x : Run E A) (allowed : E → Prop) (Q : A → Prop) : Prop :=
  ∃ a events, x = ok a events ∧ (∀ e ∈ events, allowed e) ∧ Q a

variable {allowed : E → Prop} {Q : A → Prop} {R : B → Prop} {a : A}

lemma yields_ret (h : Q a) : (pure a : Run E A).Yields allowed Q :=
  ⟨a, [], rfl, by simp, h⟩

lemma yields_noting {e : E} (he : allowed e) (h : Q a) : (noting e a).Yields allowed Q :=
  ⟨a, [e], rfl, by simpa using he, h⟩

lemma Yields.bind {x : Run E A} {k : A → Run E B} (h : x.Yields allowed Q)
    (hk : ∀ a, Q a → (k a).Yields allowed R) : (x >>= k).Yields allowed R := by
  obtain ⟨a, before, rfl, hbefore, ha⟩ := h
  obtain ⟨b, after, hb, hafter, hr⟩ := hk a ha
  refine ⟨b, before ++ after, ?_, ?_, hr⟩
  · change Run.bind (ok a before) k = _
    simp only [Run.bind, hb]
  · intro e he
    rcases List.mem_append.mp he with he | he
    · exact hbefore e he
    · exact hafter e he

/-- The case of a computation whose value is known. -/
lemma Yields.bind_eq {x : Run E A} {k : A → Run E B} (h : x.Yields allowed (· = a))
    (hk : (k a).Yields allowed R) : (x >>= k).Yields allowed R := by
  apply h.bind
  rintro _ rfl
  exact hk

end Run
end Traced
