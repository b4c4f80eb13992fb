import Mathlib

/-!
# Sets as ascending lists

The elements of a set in strictly ascending order, by a comparison that is a total preorder.
Elements that compare equal stand for the same element of the set, but need not be equal.
-/

namespace AscendingLists

open List
open List (mem_cons mem_filter pairwise_cons)
open Std.TransCmp (eq_trans lt_of_eq_of_lt lt_trans)

universe u

variable {α : Type u} (cmp : α → α → Ordering)

def Ascending (xs : List α) : Prop := xs.Pairwise fun x y => cmp x y = .lt

instance (xs : List α) : Decidable (Ascending cmp xs) :=
  inferInstanceAs (Decidable (xs.Pairwise fun x y => cmp x y = .lt))

def Has (xs : List α) (x : α) : Prop := ∃ y ∈ xs, cmp x y = .eq

instance (xs : List α) (x : α) : Decidable (Has cmp xs x) :=
  inferInstanceAs (Decidable (∃ y ∈ xs, cmp x y = .eq))

/-- The elements of `xs` that are not in `ys`. -/
def minus (xs ys : List α) : List α := xs.filter fun x => ¬ Has cmp ys x

/-- The elements of `xs` that are in `ys`. -/
def inter (xs ys : List α) : List α := xs.filter fun x => Has cmp ys x

/-- What is in one of two ascending lists, and what is in both if `both` says so. -/
def merge (both : Bool) : List α → List α → List α
  | [], ys => ys
  | xs, [] => xs
  | x :: xs, y :: ys =>
    match cmp x y with
    | .lt => x :: merge both xs (y :: ys)
    | .gt => y :: merge both (x :: xs) ys
    | .eq => if both then x :: merge both xs ys else merge both xs ys
termination_by xs ys => xs.length + ys.length

attribute [elab_as_elim] merge.induct_unfolding

variable {cmp} {xs ys : List α} {x y z : α}

@[simp]
lemma has_nil : ¬ Has cmp [] x := by
  simp [Has]

@[simp]
lemma has_cons : Has cmp (y :: ys) x ↔ cmp x y = .eq ∨ Has cmp ys x := by
  simp [Has]

lemma not_has (other : ∀ y ∈ ys, cmp x y ≠ .eq) : ¬ Has cmp ys x := by
  rintro ⟨y, mem, same⟩
  exact other y mem same

lemma has_skip (other : cmp x y ≠ .eq) : Has cmp (y :: ys) x ↔ Has cmp ys x := by
  simp [other]

/-- An element that is compared to none of `xs` as equal makes no difference. -/
lemma minus_skip (other : ∀ x ∈ xs, cmp x y ≠ .eq) : minus cmp xs (y :: ys) = minus cmp xs ys :=
  filter_congr fun x mem => by simp [other x mem]

lemma inter_skip (other : ∀ x ∈ xs, cmp x y ≠ .eq) : inter cmp xs (y :: ys) = inter cmp xs ys :=
  filter_congr fun x mem => by simp [other x mem]

variable (cmp) in
lemma length_minus_add_inter (xs ys : List α) :
    (minus cmp xs ys).length + (inter cmp xs ys).length = xs.length := by
  rw [xs.length_eq_length_filter_add fun x => decide (¬ Has cmp ys x)]
  simp [minus, inter]

variable (cmp) in
lemma length_inter_cons_le (xs ys : List α) (y : α) : (inter cmp xs (y :: ys)).length ≤
    (xs.filter fun x => cmp x y = .eq).length + (inter cmp xs ys).length := by
  induction xs with
  | nil => exact Nat.zero_le _
  | cons x xs ih =>
    simp only [inter, has_cons] at ih ⊢
    by_cases same : cmp x y = .eq <;> by_cases both : Has cmp ys x <;>
      simp only [filter_cons, same, both, true_or, or_true, or_self, decide_true,
        decide_false, if_true, length_cons, Bool.false_eq_true, if_false] <;>
      omega

lemma mem_merge {both : Bool} (mem : z ∈ merge cmp both xs ys) : z ∈ xs ∨ z ∈ ys := by
  fun_induction merge cmp both xs ys with
  | case1 => exact .inr mem
  | case2 => exact .inl mem
  | case3 x xs y ys order ih =>
    rcases mem_cons.mp mem with rfl | mem
    · simp
    · rcases ih mem with mem | mem
      · exact .inl (mem_cons_of_mem _ mem)
      · exact .inr mem
  | case4 x xs y ys order ih =>
    rcases mem_cons.mp mem with rfl | mem
    · simp
    · rcases ih mem with mem | mem
      · exact .inl mem
      · exact .inr (mem_cons_of_mem _ mem)
  | case5 x xs y ys order both ih =>
    rcases mem_cons.mp mem with rfl | mem
    · simp
    · exact (ih mem).imp (mem_cons_of_mem _) (mem_cons_of_mem _)
  | case6 x xs y ys order both ih =>
    exact (ih mem).imp (mem_cons_of_mem _) (mem_cons_of_mem _)

lemma length_merge_le (both : Bool) (xs ys : List α) :
    (merge cmp both xs ys).length ≤ xs.length + ys.length := by
  fun_induction merge cmp both xs ys with
  | case1 | case2 => simp
  | case3 | case4 | case5 | case6 =>
    simp only [length_cons] at *
    omega

lemma le_length_merge (xs ys : List α) :
    max xs.length ys.length ≤ (merge cmp true xs ys).length := by
  fun_induction merge cmp true xs ys with
  | case1 | case2 => simp
  | case3 | case4 | case5 =>
    simp only [length_cons] at *
    omega
  | case6 x xs y ys order both => exact absurd rfl both

variable [Std.TransCmp cmp]

lemma has_congr (same : cmp x z = .eq) : Has cmp ys x ↔ Has cmp ys z := by
  constructor
  · rintro ⟨y, mem, equal⟩
    exact ⟨y, mem, eq_trans (Std.OrientedCmp.eq_symm same) equal⟩
  · rintro ⟨y, mem, equal⟩
    exact ⟨y, mem, eq_trans same equal⟩

lemma equal_congr (same : cmp x y = .eq) : cmp z x = .eq ↔ cmp z y = .eq :=
  ⟨fun equal => eq_trans equal same, fun equal => eq_trans equal (Std.OrientedCmp.eq_symm same)⟩

lemma has_of_mem (mem : x ∈ xs) : Has cmp xs x := ⟨x, mem, Std.ReflCmp.compare_self⟩

lemma has_minus : Has cmp (minus cmp xs ys) z ↔ Has cmp xs z ∧ ¬ Has cmp ys z := by
  constructor
  · rintro ⟨x, mem, same⟩
    obtain ⟨mem, other⟩ := mem_filter.mp mem
    refine ⟨⟨x, mem, same⟩, ?_⟩
    rw [has_congr same]
    exact of_decide_eq_true other
  · rintro ⟨⟨x, mem, same⟩, other⟩
    rw [has_congr same] at other
    exact ⟨x, mem_filter.mpr ⟨mem, decide_eq_true other⟩, same⟩

lemma has_inter : Has cmp (inter cmp xs ys) z ↔ Has cmp xs z ∧ Has cmp ys z := by
  constructor
  · rintro ⟨x, mem, same⟩
    obtain ⟨mem, both⟩ := mem_filter.mp mem
    refine ⟨⟨x, mem, same⟩, ?_⟩
    rw [has_congr same]
    exact of_decide_eq_true both
  · rintro ⟨⟨x, mem, same⟩, both⟩
    rw [has_congr same] at both
    exact ⟨x, mem_filter.mpr ⟨mem, decide_eq_true both⟩, same⟩

/-- What follows in an ascending list is above all that its head is not below. -/
lemma Ascending.above (ascending : Ascending cmp (x :: xs)) (least : cmp x y ≠ .lt)
    (mem : z ∈ xs) : cmp z y = .gt := by
  have later := (pairwise_cons.mp ascending).1 z mem
  rw [Std.OrientedCmp.gt_iff_lt]
  cases order : cmp x y with
  | lt => exact absurd order least
  | eq => exact lt_of_eq_of_lt (Std.OrientedCmp.eq_symm order) later
  | gt => exact lt_trans (Std.OrientedCmp.gt_iff_lt.mp order) later

/-- What follows in an ascending list is above all that is below its head. -/
lemma Ascending.below (ascending : Ascending cmp (y :: ys)) (least : cmp x y = .lt)
    (mem : z ∈ y :: ys) : cmp x z = .lt := by
  rcases mem_cons.mp mem with rfl | mem
  · exact least
  · exact lt_trans least ((pairwise_cons.mp ascending).1 z mem)

section
variable (ascending : Ascending cmp xs)
include ascending

lemma Ascending.first_isLE (first : xs.head? = some x) (mem : z ∈ xs) : (cmp x z).isLE := by
  obtain ⟨xs, rfl⟩ := head?_eq_some_iff.mp first
  rcases mem_cons.mp mem with rfl | mem
  · exact Std.ReflCmp.isLE_rfl
  · rw [(pairwise_cons.mp ascending).1 z mem]
    rfl

lemma Ascending.isLE_last (last : xs.getLast? = some x) (mem : z ∈ xs) : (cmp z x).isLE := by
  obtain ⟨xs, rfl⟩ := getLast?_eq_some_iff.mp last
  rcases mem_append.mp mem with mem | mem
  · rw [(pairwise_append.mp ascending).2.2 z mem x (mem_singleton_self x)]
    rfl
  · obtain rfl := mem_singleton.mp mem
    exact Std.ReflCmp.isLE_rfl

lemma Ascending.length_equal_le (y : α) : (xs.filter fun x => cmp x y = .eq).length ≤ 1 := by
  induction xs with
  | nil => exact Nat.zero_le _
  | cons x xs ih =>
    have rest := ih (pairwise_cons.mp ascending).2
    by_cases same : cmp x y = .eq
    · have none : (xs.filter fun x => cmp x y = .eq) = [] := by
        refine filter_eq_nil_iff.mpr fun z mem => ?_
        rw [ascending.above (by rw [same]; nofun) mem]
        decide
      simp [same, none]
    · simpa [same] using rest

/-- At most as many elements are in both as are in the second. -/
lemma Ascending.length_inter_le (ys : List α) : (inter cmp xs ys).length ≤ ys.length := by
  induction ys with
  | nil => simp [inter]
  | cons y ys ih =>
    have one := ascending.length_equal_le y
    have split := length_inter_cons_le cmp xs ys y
    rw [length_cons]
    omega

end

lemma Ascending.merge {both : Bool} (hx : Ascending cmp xs) (hy : Ascending cmp ys) :
    Ascending cmp (merge cmp both xs ys) := by
  fun_induction AscendingLists.merge cmp both xs ys with
  | case1 => exact hy
  | case2 => exact hx
  | case3 x xs y ys order ih =>
    refine pairwise_cons.mpr ⟨fun z mem => ?_, ih (pairwise_cons.mp hx).2 hy⟩
    rcases mem_merge mem with mem | mem
    · exact (pairwise_cons.mp hx).1 z mem
    · exact hy.below order mem
  | case4 x xs y ys order ih =>
    refine pairwise_cons.mpr ⟨fun z mem => ?_, ih hx (pairwise_cons.mp hy).2⟩
    rcases mem_merge mem with mem | mem
    · exact hx.below (Std.OrientedCmp.gt_iff_lt.mp order) mem
    · exact (pairwise_cons.mp hy).1 z mem
  | case5 x xs y ys order both ih =>
    refine pairwise_cons.mpr
      ⟨fun z mem => ?_, ih (pairwise_cons.mp hx).2 (pairwise_cons.mp hy).2⟩
    rcases mem_merge mem with mem | mem
    · exact (pairwise_cons.mp hx).1 z mem
    · exact lt_of_eq_of_lt order ((pairwise_cons.mp hy).1 z mem)
  | case6 x xs y ys order both ih =>
    exact ih (pairwise_cons.mp hx).2 (pairwise_cons.mp hy).2

lemma Ascending.not_has (ascending : Ascending cmp (y :: ys)) (least : cmp x y = .lt) :
    ¬ Has cmp (y :: ys) x := by
  refine AscendingLists.not_has fun z mem => ?_
  rw [ascending.below least mem]
  nofun

lemma Ascending.head_not_has (ascending : Ascending cmp (y :: ys)) (same : cmp x y = .eq) :
    ¬ Has cmp ys x := by
  refine AscendingLists.not_has fun z mem => ?_
  rw [lt_of_eq_of_lt same ((pairwise_cons.mp ascending).1 z mem)]
  nofun

lemma has_merge_true : Has cmp (merge cmp true xs ys) z ↔ Has cmp xs z ∨ Has cmp ys z := by
  fun_induction merge cmp true xs ys with
  | case1 => simp
  | case2 => simp
  | case3 x xs y ys order ih => simp only [has_cons, ih, or_assoc]
  | case4 x xs y ys order ih =>
    simp only [has_cons, ih]
    exact or_left_comm
  | case5 x xs y ys order both ih =>
    simp only [has_cons, ih, equal_congr order]
    by_cases same : cmp z y = .eq <;> simp [same]
  | case6 x xs y ys order both => exact absurd rfl both

lemma has_merge_false (hx : Ascending cmp xs) (hy : Ascending cmp ys) :
    Has cmp (merge cmp false xs ys) z ↔
      Has cmp xs z ∧ ¬ Has cmp ys z ∨ ¬ Has cmp xs z ∧ Has cmp ys z := by
  fun_induction merge cmp false xs ys with
  | case1 => simp
  | case2 => simp
  | case3 x xs y ys order ih =>
    have apart : cmp z x = .eq → ¬ Has cmp (y :: ys) z := fun same => by
      rw [has_congr same]
      exact hy.not_has order
    rw [has_cons, ih (pairwise_cons.mp hx).2 hy]
    by_cases same : cmp z x = .eq
    · simp [same, apart same]
    · simp [same]
  | case4 x xs y ys order ih =>
    have apart : cmp z y = .eq → ¬ Has cmp (x :: xs) z := fun same => by
      rw [has_congr same]
      exact hx.not_has (Std.OrientedCmp.gt_iff_lt.mp order)
    rw [has_cons, ih hx (pairwise_cons.mp hy).2]
    by_cases same : cmp z y = .eq
    · simp [same, apart same]
    · simp [same]
  | case5 x xs y ys order both => cases both
  | case6 x xs y ys order both ih =>
    rw [ih (pairwise_cons.mp hx).2 (pairwise_cons.mp hy).2, has_cons, equal_congr order]
    by_cases same : cmp z y = .eq
    · simp [same, hx.head_not_has ((equal_congr order).mpr same), hy.head_not_has same]
    · simp [same]

end AscendingLists
