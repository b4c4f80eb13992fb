import Mathlib

/-!
# `nth_back` of `Take` and `Skip` over a borrowed source

`core/src/iter/adapters/take.rs` and `skip.rs`. The source is the list of what it has still to
give, here from its last element to its first; the adapter borrows it, so what a call leaves in
it can be seen later.
-/

namespace NthBack

open List

variable {α σ : Type}

/-- `nth_back` of the source. -/
def nthBack (m : Nat) (iter : List α) : Option α × List α := (iter[m]?, iter.drop (m + 1))

/-- An adapter: its count, and the source it borrows. -/
structure Adapter (α : Type) where
  n : Nat
  iter : List α
  deriving DecidableEq

/-- The answer of the last of `k + 1` calls, or `None` if any of them gives that. -/
def times (next : σ → Option α × σ) : Nat → σ → Option α × σ
  | 0, s => next s
  | k + 1, s =>
    let later := times next k (next s).2
    ((next s).1.bind fun _ => later.1, later.2)

section
variable (s : Adapter α) (n : Nat)

def Take.nextBack : Option α × Adapter α :=
  if s.n = 0 then (none, s)
  else
    let (x, iter) := nthBack (s.iter.length - s.n) s.iter
    (x, ⟨s.n - 1, iter⟩)

def Take.nthBack : Option α × Adapter α :=
  let len := s.iter.length
  if s.n > n then
    let m := len - s.n + n
    let (x, iter) := NthBack.nthBack m s.iter
    (x, ⟨s.n - (n + 1), iter⟩)
  else (none, if len > 0 then ⟨s.n, (NthBack.nthBack (len - 1) s.iter).2⟩ else s)

def Skip.len : Nat := s.iter.length - s.n

def Skip.nextBack : Option α × Adapter α :=
  if Skip.len s > 0 then
    let (x, iter) := nthBack 0 s.iter
    (x, ⟨s.n, iter⟩)
  else (none, s)

def Skip.nthBack : Option α × Adapter α :=
  let len := Skip.len s
  if n < len then
    let (x, iter) := NthBack.nthBack n s.iter
    (x, ⟨s.n, iter⟩)
  else (none, if len > 0 then ⟨s.n, (NthBack.nthBack (len - 1) s.iter).2⟩ else s)

end

/-- Dropping first and then reading, where something was there to drop. -/
lemma bind_drop (iter : List α) (i j : Nat) :
    (iter[i]?.bind fun _ => (iter.drop (i + 1))[j]?) = iter[i + 1 + j]? := by
  rcases lt_or_ge i iter.length with below | past
  · rw [getElem?_eq_getElem below, Option.bind_some, getElem?_drop]
  · rw [getElem?_eq_none past]
    exact (getElem?_eq_none (by omega)).symm

lemma Take.times_zero (k : Nat) (iter : List α) :
    times Take.nextBack k ⟨0, iter⟩ = (none, ⟨0, iter⟩) := by
  induction k with
  | zero => rfl
  | succ k ih =>
    rw [times, nextBack, if_pos rfl, ih]
    rfl

lemma Take.times_eq (k n : Nat) (iter : List α) :
    times Take.nextBack k ⟨n + 1, iter⟩ = (iter[iter.length - (n + 1) + k]?,
      ⟨n - k, iter.drop (iter.length - (n + 1) + k + 1)⟩) := by
  induction k generalizing n iter with
  | zero => rfl
  | succ k ih =>
    rw [times, nextBack, if_neg (Nat.succ_ne_zero n)]
    cases n with
    | zero =>
      simp only [NthBack.nthBack, Nat.add_sub_cancel, times_zero]
      simp
      omega
    | succ n =>
      have shorter : (iter.drop (iter.length - (n + 2) + 1)).length - (n + 1) = 0 := by
        rw [length_drop]
        omega
      simp only [NthBack.nthBack, Nat.add_sub_cancel, ih, shorter, bind_drop, drop_drop]
      refine Prod.ext (congrArg (iter[·]?) (by omega)) ?_
      simp only [Adapter.mk.injEq]
      exact ⟨by omega, congrArg iter.drop (by omega)⟩

lemma Skip.nthBack_eq (k n : Nat) (iter : List α) : Skip.nthBack ⟨n, iter⟩ k =
    ((iter.take (iter.length - n))[k]?, ⟨n, iter.drop (min (k + 1) (iter.length - n))⟩) := by
  simp only [nthBack, len, NthBack.nthBack, getElem?_take]
  by_cases inside : k < iter.length - n
  · simp only [inside, if_true, Nat.min_eq_left inside]
  · simp only [inside, if_false, Nat.min_eq_right (Nat.le_succ_of_le (Nat.not_lt.mp inside))]
    rcases Nat.eq_zero_or_pos (iter.length - n) with none | more
    · simp [none]
    · simp [more, Nat.sub_add_cancel more]

lemma Skip.times_eq (k n : Nat) (iter : List α) :
    times Skip.nextBack k ⟨n, iter⟩ = Skip.nthBack ⟨n, iter⟩ k := by
  have single (iter : List α) : Skip.nextBack ⟨n, iter⟩ = Skip.nthBack ⟨n, iter⟩ 0 := by
    rw [nextBack, nthBack]
    split <;> rfl
  induction k generalizing iter with
  | zero => exact single iter
  | succ k ih =>
    rw [times, single, nthBack_eq, ih, nthBack_eq, nthBack_eq]
    rcases Nat.eq_zero_or_pos (iter.length - n) with none | more
    · simp [none]
    · have visible : (iter.drop 1).take (iter.length - 1 - n) =
          (iter.take (iter.length - n)).drop 1 := by
        rw [drop_take]
        congr 1
        omega
      have last : 1 + min (k + 1) (iter.length - 1 - n) = min (k + 2) (iter.length - n) := by omega
      rw [min_eq_left more, length_drop, visible, bind_drop, drop_drop, last, add_comm (0 + 1)]

/-- `Skip` always does what repeated calls do, and `Take` as long as it has something to give or
the source is empty. -/
theorem nth_back_repeats (s : Adapter α) (k : Nat) :
    Skip.nthBack s k = times Skip.nextBack k s ∧
    (Take.nthBack s k).1 = (times Take.nextBack k s).1 ∧
    ((Take.nthBack s k).2.iter = (times Take.nextBack k s).2.iter ↔ s.n ≠ 0 ∨ s.iter = []) := by
  obtain ⟨n, iter⟩ := s
  refine ⟨(Skip.times_eq k n iter).symm, ?_⟩
  cases n with
  | zero =>
    rw [Take.times_zero, Take.nthBack]
    cases iter <;> simp [nthBack]
  | succ n =>
    rw [Take.times_eq, Take.nthBack]
    split
    · simp [nthBack]
    next past =>
      have empty : iter.drop (iter.length - (n + 1) + k + 1) = [] :=
        drop_of_length_le (by dsimp only at past; omega)
      rw [empty, getElem?_eq_none (by dsimp only at past; omega)]
      cases iter <;> simp [nthBack]

/-- `take(0)` of a source with one element. -/
theorem take_nth_back_drains :
    (Take.nthBack ⟨0, [1]⟩ 0).2.iter = [] ∧ (times Take.nextBack 0 ⟨0, [1]⟩).2.iter = [1] :=
  ⟨rfl, rfl⟩

end NthBack
