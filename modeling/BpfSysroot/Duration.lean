import Mathlib

/-!
# Division of a `Duration`

`core/src/time.rs`. The seconds and the nanoseconds are divided apart from each other.
-/

def nanosPerSec : Nat := 1000000000

structure Duration where
  secs : Nat
  nanos : Nat
  secs_lt : secs < 2 ^ 64
  nanos_lt : nanos < nanosPerSec
deriving DecidableEq

namespace Duration

variable {n : Nat}

def asNanos (d : Duration) : Nat := d.secs * nanosPerSec + d.nanos

/-- The nanoseconds of a quotient are below a second, as `checked_div` asserts. -/
lemma nanos_div_lt (d : Duration) (pos : 0 < n) {carry : Nat} (lt : carry < n) :
    d.nanos / n + carry * nanosPerSec / n < nanosPerSec := by
  apply Nat.div_add_div_le_add_div.trans_lt
  rw [Nat.div_lt_iff_lt_mul pos]
  have whole : (carry + 1) * nanosPerSec ≤ n * nanosPerSec := Nat.mul_le_mul_right _ lt
  have := d.nanos_lt
  rw [add_mul] at whole
  rw [mul_comm nanosPerSec]
  omega

def checkedDiv (self : Duration) (rhs : Nat) : Option Duration :=
  if h : rhs ≠ 0 then
    let secs := self.secs / rhs
    let carry := self.secs - secs * rhs
    let extraNanos := carry * nanosPerSec / rhs
    have carry_lt : self.secs - self.secs / rhs * rhs < rhs := by
      rw [← Nat.mod_eq_sub_div_mul]
      exact Nat.mod_lt _ (by omega)
    some ⟨secs, self.nanos / rhs + extraNanos, (Nat.div_le_self _ _).trans_lt self.secs_lt,
      self.nanos_div_lt (by omega) carry_lt⟩
  else none

/-- The quotient is exact as long as what the two divisions drop makes up no nanosecond. -/
theorem checked_div_exact_iff (d : Duration) (nonzero : n ≠ 0) :
    ∃ q, d.checkedDiv n = some q ∧ (q.asNanos = d.asNanos / n ↔
      d.secs % n * nanosPerSec % n + d.nanos % n < n) := by
  have pos : 0 < n := by omega
  rw [checkedDiv, dif_pos nonzero]
  refine ⟨_, rfl, ?_⟩
  have total : d.asNanos / n = d.secs / n * nanosPerSec +
      (d.secs % n * nanosPerSec + d.nanos) / n := by
    have whole := Nat.mod_add_div' d.secs n
    have split : d.asNanos = d.secs % n * nanosPerSec + d.nanos + d.secs / n * nanosPerSec * n := by
      rw [asNanos]
      nth_rewrite 1 [← whole]
      ring
    rw [split, Nat.add_mul_div_right _ _ pos, add_comm]
  rw [total, Nat.add_div pos, asNanos]
  simp only [← Nat.mod_eq_sub_div_mul]
  split <;> omega

theorem checked_div_exact_iff_three :
    ∃ q, checkedDiv ⟨1, 1, by decide, by decide⟩ 3 = some q ∧ q.asNanos = 1000000001 / 3 := by
  obtain ⟨q, run, exact_iff⟩ :=
    checked_div_exact_iff ⟨1, 1, by decide, by decide⟩ (show 3 ≠ 0 by decide)
  exact ⟨q, run, exact_iff.mpr (by decide)⟩

/-- A third of 1000000002 ns is 333333334 ns. -/
theorem checked_div_loses_nanosecond :
    ∃ q, checkedDiv ⟨1, 2, by decide, by decide⟩ 3 = some q ∧ q.asNanos = 333333333 ∧
      asNanos ⟨1, 2, by decide, by decide⟩ / 3 = 333333334 :=
  ⟨_, rfl, by decide, by decide⟩

end Duration
