import BpfSysroot.MergeSort

/-!
# The stack of runs of `merge_sort`

The states that the loops of `merge_sort` go through, and what holds of the stack of runs in each of
them. A call of `collapse` looks at the top four runs only; the runs below the top two are those
that were there when it last returned `None`, so its four conditions give the invariants of the
whole stack.
-/

namespace MergeSort

open Unwinding Unwinding.Exec InsertionSort List

variable {S T : Type}

/-- The states of the loops, from the start of the outer loop on a slice: where the part that is
already scanned begins, the stack, and the memory. -/
inductive Reached (isLess : Comparator S T) (v₀ : List T) (s₀ : S) :
    Nat → List Run → List T → S → Prop
  | start : Reached isLess v₀ s₀ v₀.length [] v₀ s₀
  | push {end_ : Nat} {runs : List Run} {v v' : List T} {s s' : S} {top : Nat × List Run} :
    Reached isLess v₀ s₀ end_ runs v s → collapse runs = none → 0 < end_ →
      pushRun isLess end_ runs v s = .ok v' s' top → Reached isLess v₀ s₀ top.1 top.2 v' s'
  | merge {end_ r : Nat} {runs runs' : List Run} {v v' : List T} {s s' : S} :
    Reached isLess v₀ s₀ end_ runs v s → collapse runs = some r →
      mergeAt isLess (v₀.length / 2) r runs v s = .ok v' s' runs' →
      Reached isLess v₀ s₀ end_ runs' v' s'

/-- The invariants of the source on the `n` lowest runs. -/
structure Balanced (runs : List Run) (n : Nat) : Prop where
  longer : ∀ i, i + 1 < n → (runAt runs (i + 1)).len < (runAt runs i).len
  longerThanTwo : ∀ i, i + 2 < n →
    (runAt runs (i + 1)).len + (runAt runs (i + 2)).len < (runAt runs i).len

/-- The runs are adjacent, not empty, and cover the slice from `lo` to `hi`. -/
def Tiles : List Run → Nat → Nat → Prop
  | [], hi, lo => hi = lo
  | r :: rs, hi, lo => r.start + r.len = hi ∧ 0 < r.len ∧ Tiles rs r.start lo

section
variable {runs base top : List Run} {m n : Nat}

/-- The conditions that `collapse` has found to hold when it returns nothing. -/
lemma balanced_of_collapse (below : Balanced runs (runs.length - 2))
    (done : collapse runs = none) : Balanced runs runs.length := by
  have checks : ¬ (2 ≤ runs.length ∧ ((runAt runs (runs.length - 1)).start = 0 ∨
      (runAt runs (runs.length - 2)).len ≤ (runAt runs (runs.length - 1)).len ∨
      (3 ≤ runs.length ∧ (runAt runs (runs.length - 3)).len ≤
        (runAt runs (runs.length - 2)).len + (runAt runs (runs.length - 1)).len) ∨
      (4 ≤ runs.length ∧ (runAt runs (runs.length - 4)).len ≤
        (runAt runs (runs.length - 3)).len + (runAt runs (runs.length - 2)).len))) := by
    intro fires
    rw [collapse, if_pos fires] at done
    split at done <;> cases done
  have two : ∀ i, i + 2 < runs.length →
      (runAt runs (i + 1)).len + (runAt runs (i + 2)).len < (runAt runs i).len := by
    intro i inside
    by_cases low : i + 2 < runs.length - 2
    · exact below.longerThanTwo i low
    · obtain at_top | next : runs.length = i + 3 ∨ runs.length = i + 4 := by omega
      · rw [at_top] at checks
        simp at checks
        omega
      · rw [next] at checks
        simp at checks
        omega
  refine ⟨?_, two⟩
  intro i inside
  by_cases low : i + 2 < runs.length
  · have := two i low
    omega
  · have at_top : runs.length = i + 2 := by omega
    rw [at_top] at checks
    simp at checks
    omega

lemma collapse_some_top {r : Nat} (fires : collapse runs = some r) : runs.length ≤ r + 3 := by
  simp only [collapse] at fires
  split at fires
  · split at fires <;> cases fires <;> omega
  · cases fires

lemma runAt_append {i : Nat} (low : i < base.length) : runAt (base ++ top) i = runAt base i := by
  rw [runAt, runAt, getD_append _ _ _ _ low]

lemma runAt_mem {i : Nat} (inside : i < runs.length) : runAt runs i ∈ runs := by
  rw [runAt, getD_eq_getElem _ _ inside]
  exact getElem_mem inside

lemma Balanced.of_agree {runs' : List Run} (balanced : Balanced runs n) (le : m ≤ n)
    (agree : ∀ i < m, runAt runs' i = runAt runs i) : Balanced runs' m where
  longer i low := by
    rw [agree i (by omega), agree (i + 1) low]
    exact balanced.longer i (by omega)
  longerThanTwo i low := by
    rw [agree i (by omega), agree (i + 1) (by omega), agree (i + 2) low]
    exact balanced.longerThanTwo i (by omega)

lemma fib_le_len (balanced : Balanced runs runs.length) (filled : ∀ r ∈ runs, 0 < r.len)
    (k : Nat) : ∀ i, i + k + 1 = runs.length → Nat.fib (k + 2) ≤ (runAt runs i).len := by
  induction k using Nat.twoStepInduction with
  | zero => exact fun i top => filled _ (runAt_mem (by omega))
  | one =>
    intro i top
    have above := filled _ (runAt_mem (show i + 1 < runs.length by omega))
    have := balanced.longer i (by omega)
    have : Nat.fib (1 + 2) = 2 := rfl
    omega
  | more k first second =>
    intro i top
    have := first (i + 2) (by omega)
    have := second (i + 1) (by omega)
    have := balanced.longerThanTwo i (by omega)
    have : Nat.fib (k + 2 + 2) = Nat.fib (k + 2) + Nat.fib (k + 1 + 2) := Nat.fib_add_two
    omega

lemma two_pow_le_fib (n : Nat) : 2 ^ (n / 2) ≤ Nat.fib (n + 1) := by
  induction n using Nat.twoStepInduction with
  | zero => decide
  | one => decide
  | more n ih _ =>
    have step : Nat.fib (n + 2 + 1) = Nat.fib (n + 1) + Nat.fib (n + 2) := Nat.fib_add_two
    have grows : Nat.fib (n + 1) ≤ Nat.fib (n + 2) := Nat.fib_le_fib_succ
    rw [show (n + 2) / 2 = n / 2 + 1 by omega]
    omega

variable {law : Prop} {lt : T → T → Bool}

lemma Stacked.tiles {hi lo : Nat} {w : List T} (stacked : Stacked law lt runs hi w)
    (length : hi = lo + w.length) (filled : ∀ r ∈ runs, 0 < r.len) : Tiles runs hi lo := by
  induction runs generalizing hi w with
  | nil =>
    obtain rfl : w = [] := stacked
    exact length
  | cons r runs ih =>
    obtain ⟨stop, w', seg, rfl, size, -, rest⟩ := stacked
    rw [length_append] at length
    exact ⟨stop, filled r mem_cons_self,
      ih rest (by omega) fun r there => filled r (mem_cons_of_mem _ there)⟩

end

section
variable {isLess : Comparator S T} {v₀ v : List T} {s₀ s : S} {end_ : Nat} {runs : List Run}

lemma ends_of_ok {A : Type} {e : Exec (List T) S A} {a : A} {Q : List T → S → A → Prop}
    {U : List T → S → Prop} (h : e.Ends Q U) (returned : e = .ok v s a) : Q v s a := by
  rw [returned] at h
  exact h

/-- What holds in every state: the slice is split where the scan has come to, its second part is
tiled by runs that are not empty, and the runs below the top two are balanced. -/
lemma Reached.inv (lt : T → T → Bool) (reached : Reached isLess v₀ s₀ end_ runs v s) :
    ∃ pre w, v = pre ++ w ∧ pre.length = end_ ∧ v₀.length = pre.length + w.length ∧
      Stacked (Lawful isLess lt) lt runs v₀.length w ∧ (∀ r ∈ runs, 0 < r.len) ∧
      Balanced runs (runs.length - 2) := by
  induction reached with
  | start =>
    refine ⟨v₀, [], (append_nil _).symm, rfl, rfl, rfl, by simp, ?_, ?_⟩
    all_goals intro i low; simp at low
  | push before done more pushed ih =>
    obtain ⟨pre, w, rfl, rfl, length, stacked, filled, below⟩ := ih
    obtain ⟨us, w', rfl, start, shorter, same, top, stacked'⟩ :=
      ends_of_ok (pushRun_spec isLess lt _ (ne_nil_of_length_pos more) length stacked) pushed
    refine ⟨us, w', rfl, start.symm, ?_, stacked', ?_, ?_⟩
    · simpa [length] using same.length_eq.symm
    · rw [top]
      intro r there
      rcases mem_append.mp there with old | new
      · exact filled r old
      · rw [mem_singleton.mp new]
        exact Nat.sub_pos_of_lt shorter
    · rw [top]
      apply (balanced_of_collapse below done).of_agree (by simp)
      intro i low
      exact runAt_append (by simp at low; omega)
  | @merge end_ r runs runs' v v' s s' before fires merged ih =>
    obtain ⟨pre, w, rfl, rfl, length, stacked, filled, below⟩ := ih
    have high := collapse_some_top fires
    obtain ⟨w', rfl, same, stacked', base, right, left, top, rfl, rfl, rfl⟩ :=
      ends_of_ok (mergeAt_spec isLess lt _ (collapse_some fires) length le_rfl stacked) merged
    refine ⟨pre, w', rfl, rfl, ?_, stacked', ?_, ?_⟩
    · rw [length, same.length_eq]
    · intro r there
      rcases mem_append.mp there with low | there
      · exact filled r (mem_append_left _ low)
      · rcases mem_cons.mp there with rfl | there
        · have := filled left (by simp)
          exact Nat.add_pos_left this _
        · exact filled r (by simp [there])
    · rw [length_append, length_cons, length_cons] at high below
      apply below.of_agree
      · rw [length_append, length_cons]
        omega
      · intro i low
        rw [length_append, length_cons] at low
        rw [runAt_append (by omega), runAt_append (by omega)]

lemma Reached.collapseLoop {n : Nat} {v' : List T} {s' : S} {runs' : List Run}
    (reached : Reached isLess v₀ s₀ end_ runs v s)
    (returned : collapseLoop isLess (v₀.length / 2) n runs v s = .ok v' s' runs') :
    Reached isLess v₀ s₀ end_ runs' v' s' ∧ collapse runs' = none := by
  induction n generalizing runs v s with
  | zero => cases returned
  | succ n ih =>
    rw [collapseLoop_succ] at returned
    split at returned
    next done =>
      cases returned
      exact ⟨reached, done⟩
    next r fires =>
      cases merged : mergeAt isLess (v₀.length / 2) r runs v s with
      | ok v'' s'' runs'' =>
        rw [merged] at returned
        exact ih (reached.merge fires merged) returned
      | _ =>
        rw [merged] at returned
        cases returned

lemma Reached.mergeSortLoop {n : Nat} {v' : List T} {s' : S}
    (reached : Reached isLess v₀ s₀ end_ runs v s) (done : collapse runs = none)
    (returned : mergeSortLoop isLess (v₀.length / 2) n end_ runs v s = .ok v' s' ()) :
    Reached isLess v₀ s₀ 0 [⟨0, v'.length⟩] v' s' := by
  induction n generalizing end_ runs v s with
  | zero => cases returned
  | succ n ih =>
    rw [mergeSortLoop_succ] at returned
    split at returned
    next more =>
      cases pushed : pushRun isLess end_ runs v s with
      | ok v₁ s₁ top =>
        rw [pushed] at returned
        cases collapsed : MergeSort.collapseLoop isLess (v₀.length / 2) (runs.length + 2) top.2
            v₁ s₁ with
        | ok v₂ s₂ runs₂ =>
          change Exec.bind (MergeSort.collapseLoop _ _ _ _ _ _) _ = _ at returned
          rw [collapsed] at returned
          obtain ⟨reached', done'⟩ := (reached.push done more pushed).collapseLoop collapsed
          exact ih reached' done' returned
        | _ =>
          change Exec.bind (MergeSort.collapseLoop _ _ _ _ _ _) _ = _ at returned
          rw [collapsed] at returned
          cases returned
      | _ =>
        rw [pushed] at returned
        cases returned
    · obtain rfl : end_ = 0 := by omega
      split at returned
      next single =>
        cases returned
        rw [← single]
        exact reached
      · cases returned

end

/-- In every state of the loops the runs tile the part of the slice that is scanned. When `collapse`
returns nothing, the whole stack is balanced and so is at most logarithmic. Once the scan is at the
start of the slice, `collapse` returns nothing exactly when one run is left, and each merge it asks
for can be made and takes a run from the stack. A sort that returns ends in such a state. -/
theorem run_stack_invariants (isLess : Comparator S T) (v₀ : List T) (s₀ : S) :
    (∀ {end_ runs v s}, Reached isLess v₀ s₀ end_ runs v s →
      Tiles runs v₀.length end_ ∧
      (collapse runs = none → Balanced runs runs.length ∧
        (runs ≠ [] → Nat.fib (runs.length + 1) ≤ v₀.length) ∧
        runs.length ≤ 2 * Nat.log2 v₀.length + 1) ∧
      (end_ = 0 → v₀ ≠ [] → (collapse runs = none ↔ runs = [⟨0, v₀.length⟩])) ∧
      ∀ r, collapse runs = some r → (mergeAt isLess (v₀.length / 2) r runs v s).Ends
        (fun _ _ runs' => runs'.length + 1 = runs.length) fun _ _ => True) ∧
    ∀ (layout : Layout T) {v s}, layout.size ≠ 0 → maxInsertion < v₀.length →
      mergeSort layout isLess v₀ s₀ = .ok v s () →
      Reached isLess v₀ s₀ 0 [⟨0, v₀.length⟩] v s := by
  constructor
  · intro end_ runs v s reached
    obtain ⟨pre, w, rfl, rfl, length, stacked, filled, below⟩ := reached.inv fun _ _ => false
    have tiles := stacked.tiles length filled
    refine ⟨tiles, ?_, ?_, ?_⟩
    · intro done
      have balanced := balanced_of_collapse below done
      have bound : runs ≠ [] → Nat.fib (runs.length + 1) ≤ v₀.length := by
        intro some
        cases runs with
        | nil => exact absurd rfl some
        | cons r runs =>
          have lowest := fib_le_len balanced filled runs.length 0 (by simp)
          have inside : r.start + r.len = v₀.length := tiles.1
          exact lowest.trans (by rw [← inside]; exact Nat.le_add_left _ _)
      refine ⟨balanced, bound, ?_⟩
      by_cases none : runs = []
      · rw [none]
        exact Nat.zero_le _
      · have power := (two_pow_le_fib runs.length).trans (bound none)
        have positive : v₀.length ≠ 0 := by
          have := Nat.two_pow_pos (runs.length / 2)
          omega
        have := (Nat.le_log2 positive).mpr power
        omega
    · intro front nonempty
      rw [front] at tiles
      constructor
      · intro done
        have short := collapse_none done (stacked.top_start (by omega))
        match runs, short, tiles with
        | [], _, tiles => exact absurd (eq_nil_of_length_eq_zero tiles) nonempty
        | [r], _, ⟨stop, _, start⟩ =>
          rw [← stop, start, zero_add, ← start]
      · rintro rfl
        rfl
    · intro r fires
      refine (mergeAt_spec isLess _ s (collapse_some fires) length le_rfl stacked).mono ?_
        fun _ _ _ => trivial
      rintro _ _ _ ⟨_, -, -, -, base, right, left, top, rfl, -, rfl⟩
      simp only [length_append, length_cons]
      omega
  · intro layout v s sized long returned
    rw [mergeSort, if_neg sized] at returned
    rw [if_neg (not_le.mpr long)] at returned
    have final := Reached.start.mergeSortLoop rfl returned
    obtain ⟨pre, w, rfl, front, length, -⟩ := final.inv fun _ _ => false
    rw [length]
    simpa using final

def threeRuns : List Nat := 10 :: (range 10 ++ range 11 ++ range 22).map (· * 10)

/-- Three runs are scanned, and the first element is not. -/
theorem run_stack_invariants_byTens :
    Tiles [⟨22, 22⟩, ⟨11, 11⟩, ⟨1, 10⟩] 44 1 ∧ collapse [⟨22, 22⟩, ⟨11, 11⟩, ⟨1, 10⟩] = none ∧
      Balanced [⟨22, 22⟩, ⟨11, 11⟩, ⟨1, 10⟩] 3 := by
  have first := Reached.start.push rfl (by decide) (show pushRun byTens 44 [] threeRuns 0 =
    .ok threeRuns 22 (22, [⟨22, 22⟩]) by decide +kernel)
  have second := first.push rfl (by decide) (show pushRun byTens 22 [⟨22, 22⟩] threeRuns 22 =
    .ok threeRuns 33 (11, [⟨22, 22⟩, ⟨11, 11⟩]) by decide +kernel)
  have third := second.push rfl (by decide)
    (show pushRun byTens 11 [⟨22, 22⟩, ⟨11, 11⟩] threeRuns 33 =
      .ok threeRuns 43 (1, [⟨22, 22⟩, ⟨11, 11⟩, ⟨1, 10⟩]) by decide +kernel)
  obtain ⟨tiles, balanced, -⟩ := (run_stack_invariants byTens _ _).1 third
  exact ⟨tiles, rfl, (balanced rfl).1⟩

end MergeSort
