import BpfSysroot.Unwinding

/-!
# Sorted and stable arrangements

What a sort is to achieve, over a strict weak order given as a Boolean function:
`SortedBy` (no later element is less than an earlier one) and `KeepsTies`
(equivalent elements stay in their relative order).
-/

namespace Arrangement

open Unwinding List
variable {T : Type} {lt : T → T → Bool}
variable {a x : T} {xs ys : List T} {v : List T}

/-- No later element is less than an earlier one. -/
def SortedBy (lt : T → T → Bool) (v : List T) : Prop :=
  v.Pairwise fun x y => lt y x = false

/-- Neither element is less than the other. -/
def tied (lt : T → T → Bool) (x y : T) : Bool := !lt x y && !lt y x

/-- Every class of equivalent elements reads the same in `v` and in `w`. -/
def KeepsTies (lt : T → T → Bool) (v w : List T) : Prop :=
  ∀ x, w.filter (tied lt x) = v.filter (tied lt x)

lemma KeepsTies.refl (v : List T) : KeepsTies lt v v := fun _ => rfl

lemma KeepsTies.trans {u v w : List T} (h : KeepsTies lt u v) (h' : KeepsTies lt v w) :
    KeepsTies lt u w := fun x => (h' x).trans (h x)

lemma KeepsTies.append {u v u' v' : List T} (h : KeepsTies lt u u') (h' : KeepsTies lt v v') :
    KeepsTies lt (u ++ v) (u' ++ v') := by
  intro x
  rw [filter_append, filter_append, h x, h' x]

lemma tied_of_lt (order : StrictWeakOrder lt) {b : T} (hab : lt a b)
    (hb : tied lt x b) : tied lt x a = false := by
  simp only [tied, Bool.and_eq_true, Bool.not_eq_true'] at hb
  have : lt a x := order.lt_of_lt_of_not_lt hab hb.1
  simp [tied, this]

lemma sortedBy_append {v w : List T} :
    SortedBy lt (v ++ w) ↔ SortedBy lt v ∧ SortedBy lt w ∧ ∀ x ∈ v, ∀ y ∈ w, lt y x = false :=
  pairwise_append

lemma sortedBy_cons :
    SortedBy lt (a :: v) ↔ (∀ x ∈ v, lt x a = false) ∧ SortedBy lt v := pairwise_cons

/-- In a sorted list, what is not above the first element is not above any. -/
lemma SortedBy.not_lt_of_head (order : StrictWeakOrder lt) (h : SortedBy lt v)
    (first : ∀ y ∈ v.head?, lt y a = false) : ∀ y ∈ v, lt y a = false := by
  cases v with
  | nil => simp
  | cons b v =>
    have hb : lt b a = false := first b (by simp)
    intro y hy
    rcases mem_cons.mp hy with rfl | hy
    · exact hb
    · exact order.not_lt_trans hb ((sortedBy_cons.mp h).1 y hy)

lemma SortedBy.not_lt_of_last (order : StrictWeakOrder lt) (h : SortedBy lt v)
    (last : ∀ x ∈ v.getLast?, lt a x = false) : ∀ x ∈ v, lt a x = false := by
  rcases eq_nil_or_concat' v with rfl | ⟨v, b, rfl⟩
  · simp
  · have hb : lt a b = false := last b (by simp)
    obtain ⟨_, _, hvb⟩ := sortedBy_append.mp h
    intro x hx
    rcases mem_append.mp hx with hx | hx
    · exact order.not_lt_trans (hvb x hx b (by simp)) hb
    · rwa [mem_singleton.mp hx]

/-- An element put between what is not above it and what is not below it. -/
lemma SortedBy.insert (h : SortedBy lt (xs ++ ys)) (below : ∀ x ∈ xs, lt a x = false)
    (above : ∀ y ∈ ys, lt y a = false) : SortedBy lt (xs ++ a :: ys) := by
  obtain ⟨hxs, hys, hxy⟩ := sortedBy_append.mp h
  refine sortedBy_append.mpr ⟨hxs, sortedBy_cons.mpr ⟨above, hys⟩, ?_⟩
  intro x hx y hy
  rcases mem_cons.mp hy with rfl | hy
  · exact below x hx
  · exact hxy x hx y hy

section
variable (order : StrictWeakOrder lt)
include order

lemma filter_tied_of_lt (below : ∀ y ∈ xs, lt y a)
    (ha : tied lt x a) : xs.filter (tied lt x) = [] := by
  refine filter_eq_nil_iff.mpr ?_
  intro y hy
  simp [tied_of_lt order (below y hy) ha]

/-- Moving an element to the right past smaller ones disturbs no tie. -/
lemma keepsTies_moveRight (below : ∀ x ∈ xs, lt x a) :
    KeepsTies lt (a :: (xs ++ ys)) (xs ++ a :: ys) := by
  intro x
  by_cases ha : tied lt x a
  · simp [filter_append, filter_cons, filter_tied_of_lt order below ha]
  · simp [filter_append, ha]

lemma filter_tied_of_gt (above : ∀ y ∈ xs, lt a y)
    (ha : tied lt x a) : xs.filter (tied lt x) = [] := by
  refine filter_eq_nil_iff.mpr ?_
  intro y hy hx
  simp [tied_of_lt order (above y hy) hx] at ha

/-- Moving an element to the left past greater ones disturbs no tie. -/
lemma keepsTies_moveLeft (above : ∀ x ∈ xs, lt a x) :
    KeepsTies lt (xs ++ a :: ys) (a :: (xs ++ ys)) := by
  intro x
  by_cases ha : tied lt x a
  · simp [filter_append, filter_cons, filter_tied_of_gt order above ha]
  · simp [filter_append, ha]

/-- Reversing a strictly descending list disturbs no tie: no two elements are tied. -/
lemma keepsTies_reverse {v : List T}
    (h : v.Pairwise fun x y => lt y x) : KeepsTies lt v v.reverse := by
  intro x
  induction v with
  | nil => rfl
  | cons a v ih =>
    obtain ⟨ha, hv⟩ := pairwise_cons.mp h
    rw [reverse_cons, filter_append, ih hv]
    by_cases hx : tied lt x a
    · simp [hx, filter_tied_of_lt order ha hx]
    · simp [hx]

lemma sortedBy_reverse {v : List T}
    (h : v.Pairwise fun x y => lt y x) : SortedBy lt v.reverse := by
  rw [SortedBy, pairwise_reverse]
  exact h.imp order.asymm

end

/-- A rearrangement that is also stable when `law` holds. -/
def Rearranged (law : Prop) (lt : T → T → Bool) (v w : List T) : Prop :=
  w.Perm v ∧ (law → KeepsTies lt v w)

namespace Rearranged
variable {law : Prop} {u v w : List T}

lemma refl (v : List T) : Rearranged law lt v v := ⟨.refl v, fun _ => .refl v⟩

lemma trans (h : Rearranged law lt u v) (h' : Rearranged law lt v w) : Rearranged law lt u w :=
  ⟨h'.1.trans h.1, fun hl => (h.2 hl).trans (h'.2 hl)⟩

variable (h : Rearranged law lt v w)
include h

lemma append_left (u : List T) : Rearranged law lt (u ++ v) (u ++ w) :=
  ⟨h.1.append_left u, fun hl => (KeepsTies.refl u).append (h.2 hl)⟩

lemma append_right (u : List T) : Rearranged law lt (v ++ u) (w ++ u) :=
  ⟨h.1.append_right u, fun hl => (h.2 hl).append (KeepsTies.refl u)⟩

lemma length_eq : w.length = v.length := h.1.length_eq

end Rearranged
end Arrangement
