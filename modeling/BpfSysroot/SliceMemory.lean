import Mathlib

/-!
# Slices as lists, seen position by position

A slice of known length is a list. `view` reads it as a total function of the
position, so that arguments about positions need no bounds; `swap` exchanges
two positions and leaves the list alone when one of them is outside. Blocks are
read and written as a whole, and only inside.
-/

namespace SliceMemory

open List

universe u
variable {T : Type u} {i : Nat}

/-- Position `i` of the slice, with a default outside of it. -/
def view (d : T) (v : List T) (i : Nat) : T := v.getD i d

def swap (v : List T) (i j : Nat) : List T :=
  match v[i]?, v[j]? with
  | some x, some y => (v.set i y).set j x
  | _, _ => v

/-- Exchange of two positions of a total function. -/
def swapAt (a : Nat → T) (i j k : Nat) : T :=
  if k = i then a j else if k = j then a i else a k

lemma getElem?_eq_view (d : T) {v : List T} (h : i < v.length) : v[i]? = some (view d v i) := by
  simp [view, getD_eq_getElem?_getD, getElem?_eq_getElem h]

lemma getElem_eq_view (d : T) {v : List T} (h : i < v.length) : v[i] = view d v i := by
  simp [view, getD_eq_getElem?_getD, getElem?_eq_getElem h]

lemma forall_mem_take (d : T) {v : List T} {m : Nat} {P : T → Prop}
    (h : ∀ i < m, P (view d v i)) : ∀ x ∈ v.take m, P x := by
  intro x hx
  obtain ⟨i, hi, rfl⟩ := getElem_of_mem hx
  rw [getElem_take, getElem_eq_view d]
  exact h i (by simp at hi; omega)

lemma forall_mem_drop (d : T) {v : List T} {m : Nat} {P : T → Prop}
    (h : ∀ i, m ≤ i → i < v.length → P (view d v i)) : ∀ x ∈ v.drop m, P x := by
  intro x hx
  obtain ⟨i, hi, rfl⟩ := getElem_of_mem hx
  rw [getElem_drop, getElem_eq_view d]
  exact h (m + i) (by omega) (by simp at hi; omega)

lemma view_set (d : T) {v : List T} (x : T) (h : i < v.length) (k : Nat) :
    view d (v.set i x) k = if k = i then x else view d v k := by
  simp only [view, getD_eq_getElem?_getD, getElem?_set]
  by_cases hk : k = i
  · subst k
    simp [h]
  · simp [hk, Ne.symm hk]

lemma view_append_left (d : T) {v w : List T} (h : i < v.length) :
    view d (v ++ w) i = view d v i := by
  simp [view, getD_eq_getElem?_getD, getElem?_append_left h]

@[simp] theorem length_swap (v : List T) (i j : Nat) : (swap v i j).length = v.length := by
  rw [swap]
  split <;> simp

lemma swap_perm (v : List T) (i j : Nat) : (swap v i j).Perm v := by
  rw [swap]
  split
  next x y hi hj =>
    obtain ⟨hil, rfl⟩ := List.getElem?_eq_some_iff.mp hi
    obtain ⟨hjl, rfl⟩ := List.getElem?_eq_some_iff.mp hj
    exact set_set_perm hil hjl
  · exact List.Perm.refl v

lemma view_swap (d : T) {v : List T} {i j : Nat} (hi : i < v.length) (hj : j < v.length) :
    view d (swap v i j) = swapAt (view d v) i j := by
  funext k
  rw [swap, getElem?_eq_view d hi, getElem?_eq_view d hj]
  have hj' : j < (v.set i (view d v j)).length := by simpa using hj
  simp only [view_set d _ hj', view_set d _ hi, swapAt]
  by_cases hki : k = i
  · subst k
    by_cases hij : i = j
    · simp [hij]
    · simp [hij]
  · simp [hki]

section
variable (a : Nat → T)
include a

@[simp] theorem swapAt_left (i j : Nat) : swapAt a i j i = a j := by
  simp [swapAt]

@[simp] theorem swapAt_right (i j : Nat) : swapAt a i j j = a i := by
  simp only [swapAt]
  split
  next h => rw [h]
  · simp

lemma swapAt_of_ne {i j k : Nat} (hi : k ≠ i) (hj : k ≠ j) : swapAt a i j k = a k := by
  simp [swapAt, hi, hj]

lemma swapAt_comm (i j : Nat) : swapAt a i j = swapAt a j i := by
  funext k
  simp only [swapAt]
  split_ifs <;> simp_all

end

lemma getElem?_swap {v : List T} {i j : Nat} (hi : i < v.length) (hj : j < v.length) (k : Nat) :
    (swap v i j)[k]? = swapAt (fun p => v[p]?) i j k := by
  rw [swap]
  grind [swapAt]

@[simp] theorem swap_self (v : List T) (i : Nat) : swap v i i = v := by
  by_cases inside : i < v.length
  · apply ext_getElem?
    intro k
    rw [getElem?_swap inside inside, swapAt]
    split
    next same =>
      rw [same]
    · rfl
  · rw [swap, getElem?_eq_none (Nat.le_of_not_lt inside)]

/-- `w` comes from `v` by exchanges of positions below `n`. -/
inductive SwapsBelow (n : Nat) : List T → List T → Prop
  | refl (v) : SwapsBelow n v v
  | head {v w i j} (hi : i < n) (hj : j < n) (rest : SwapsBelow n (swap v i j) w) :
      SwapsBelow n v w

namespace SwapsBelow
variable {n : Nat} {u v w : List T}

lemma trans (h : SwapsBelow n u v) (h' : SwapsBelow n v w) : SwapsBelow n u w := by
  induction h with
  | refl v => exact h'
  | head hi hj _ ih => exact .head hi hj (ih h')

lemma mono {m : Nat} (h : SwapsBelow n v w) (hm : n ≤ m) : SwapsBelow m v w := by
  induction h with
  | refl v => exact .refl v
  | head hi hj _ ih => exact .head (by omega) (by omega) ih

lemma perm (h : SwapsBelow n v w) : w.Perm v := by
  induction h with
  | refl v => exact List.Perm.refl v
  | head hi hj _ ih => exact ih.trans (swap_perm _ _ _)

lemma length_eq (h : SwapsBelow n v w) : w.length = v.length := h.perm.length_eq

lemma view_of_ge (d : T) (h : SwapsBelow n v w) (hn : n ≤ v.length) (k : Nat) (hk : n ≤ k) :
    view d w k = view d v k := by
  induction h with
  | refl v => rfl
  | head hi hj _ ih =>
    rw [ih (by simpa using hn), view_swap d (by omega) (by omega)]
    exact swapAt_of_ne _ (by omega) (by omega)

lemma forall_view (d : T) (h : SwapsBelow n v w) (hn : n ≤ v.length) {P : T → Prop}
    (hv : ∀ i < n, P (view d v i)) : ∀ i < n, P (view d w i) := by
  induction h with
  | refl v => exact hv
  | @head v w i j hi hj _ ih =>
    apply ih (by simpa using hn)
    intro k hk
    rw [view_swap d (by omega) (by omega), swapAt]
    split
    · exact hv j hj
    · split
      · exact hv i hi
      · exact hv k hk

end SwapsBelow

def readBlock (v : List T) (src count : Nat) : Option (List T) :=
  if src + count ≤ v.length then some ((v.drop src).take count) else none

def writeBlock (v : List T) (dst : Nat) (xs : List T) : Option (List T) :=
  if dst + xs.length ≤ v.length then some (v.take dst ++ xs ++ v.drop (dst + xs.length)) else none

/-- Copies a block to a place that may overlap with it. -/
def copy (v : List T) (src dst count : Nat) : Option (List T) := do
  writeBlock v dst (← readBlock v src count)

lemma readBlock_middle (before xs after : List T) :
    readBlock (before ++ xs ++ after) before.length xs.length = some xs := by
  rw [readBlock, if_pos (by simp), append_assoc, drop_left, take_left]

lemma writeBlock_middle (before xs after : List T) {ys : List T} (same : ys.length = xs.length) :
    writeBlock (before ++ xs ++ after) before.length ys = some (before ++ ys ++ after) := by
  have front : (before ++ xs ++ after).take before.length = before := by simp
  have rest : (before ++ xs ++ after).drop (before.length + xs.length) = after :=
    drop_left' (by simp)
  rw [writeBlock, if_pos (by simp [same]), same, front, rest]

/-- A copy, over the slice cut where it reads and cut where it writes. -/
lemma copy_eq {v before xs after before' ys after' : List T} (reads : v = before ++ xs ++ after)
    (writes : v = before' ++ ys ++ after') (same : xs.length = ys.length) :
    copy v before.length before'.length xs.length = some (before' ++ xs ++ after') := by
  have read : readBlock v before.length xs.length = some xs := by rw [reads, readBlock_middle]
  rw [copy, read, writes]
  exact writeBlock_middle before' ys after' same

end SliceMemory
