import BpfSysroot.Quicksort

/-!
# Selection of the element at an index

`partition_at_index` of `core/slice/sort.rs`. The loop narrows the slice and the index together.
What it leaves behind on the left is not greater, and what it leaves behind on the right is not
less, than any element that is still in the slice.
-/

namespace PartitionAtIndex

open Unwinding Unwinding.Exec Arrangement InsertionSort Quicksort SliceMemory

variable {S T : Type} {isLess : Comparator S T} {lt : T → T → Bool} {index : Nat}

/-- Slices of up to this length get sorted. -/
def maxInsertion : Nat := 10

/-- `partition_at_index_loop`; the rest of the slice stands around the part that is narrowed. -/
def loop (isLess : Comparator S T) : Nat → List T → Nat → Option T → S → Exec (List T) S Unit
  | 0, _, _, _, _ => .fault
  | n + 1, v, index, pred, s =>
    if v.length ≤ maxInsertion then insertionSort isLess v s
    else
      (choosePivot isLess v s).bind fun v s choice =>
      (pivotEqualsPred isLess pred v choice.1 s).bind fun v s equal =>
      if equal then
        (partitionEqual isLess v choice.1 s).bind fun v s mid =>
        if index < mid then .ok v s ()
        else (loop isLess n (v.drop mid) (index - mid) none s).leave fun w => some (v.take mid ++ w)
      else
        (partition isLess v choice.1 s).bind fun v s r =>
        let mid := r.1
        require v[mid]? fun pivot =>
        if mid < index then
          (loop isLess n (v.drop (mid + 1)) (index - mid - 1) (some pivot) s).leave
            fun w => some (v.take (mid + 1) ++ w)
        else if index < mid then
          (loop isLess n (v.take mid) index pred s).leave fun w => some (w ++ v.drop mid)
        else .ok v s ()

/-- `max_by` (for `later`) and `min_by` over the enumerated slice, from index `j` on: the closure
answers `Less` or `Greater`, and of two elements the later one is taken if `is_less` answers
`later`. -/
def pickIndex (isLess : Comparator S T) (later : Bool) (v : List T) :
    Nat → Nat → Nat → S → Exec (List T) S Nat
  | 0, _, best, s => .ok v s best
  | n + 1, j, best, s =>
    require v[best]? fun x => require v[j]? fun y =>
    (ask isLess v s x y).bind fun _ s less =>
    pickIndex isLess later v n (j + 1) (if less = later then j else best) s

/-- Puts the greatest or the least element at its index. -/
def place (isLess : Comparator S T) (later : Bool) (v : List T) (index : Nat) (s : S) :
    Exec (List T) S Unit :=
  (pickIndex isLess later v (v.length - 1) 1 0 s).bind fun v s best =>
  require (trySwap v best index) fun v => .ok v s ()

/-- Also returns the parts before and after the index; an index outside is a panic of its own. -/
def partitionAtIndex (layout : Layout T) (isLess : Comparator S T) (v : List T) (index : Nat)
    (s : S) : Exec (List T) S (List T × T × List T) :=
  if v.length ≤ index then .panic v s
  else
    (if layout.size = 0 then .ok v s ()
    else if index = v.length - 1 then place isLess true v index s
    else if index = 0 then place isLess false v index s
    else loop isLess (v.length + 1) v index none s).bind fun v s _ =>
    require v[index]? fun pivot => .ok v s (v.take index, pivot, v.drop (index + 1))

/-- No element before the one at the index is greater than it, and none after it is less. -/
def Selected (lt : T → T → Bool) (v : List T) (index : Nat) : Prop :=
  ∃ left p right, v = left ++ p :: right ∧ left.length = index ∧
    (∀ x ∈ left, lt p x = false) ∧ ∀ y ∈ right, lt y p = false

lemma selected_of_parts {v : List T} (inside : index < v.length)
    (before : ∀ x ∈ v.take index, lt v[index] x = false)
    (after : ∀ y ∈ v.drop (index + 1), lt y v[index] = false) : Selected lt v index := by
  refine ⟨v.take index, v[index], v.drop (index + 1), ?_, List.length_take_of_le inside.le, before,
    after⟩
  rw [← List.drop_eq_getElem_cons, List.take_append_drop]

lemma selected_of_sorted {v : List T} (inside : index < v.length)
    (sorted : SortedBy lt v) : Selected lt v index := by
  rw [← List.take_append_drop index v, List.drop_eq_getElem_cons inside] at sorted
  obtain ⟨-, back, between⟩ := sortedBy_append.mp sorted
  exact selected_of_parts inside (fun x there => between x there _ List.mem_cons_self)
    (sortedBy_cons.mp back).1

lemma Selected.around {w : List T} (front back : List T) (selected : Selected lt w index)
    (less : ∀ x ∈ front, ∀ p ∈ w, lt p x = false) (greater : ∀ y ∈ back, ∀ p ∈ w, lt y p = false) :
    Selected lt (front ++ w ++ back) (front.length + index) := by
  obtain ⟨left, p, right, rfl, rfl, before, after⟩ := selected
  refine ⟨front ++ left, p, right ++ back, by simp, by simp, ?_, ?_⟩
  · intro x there
    rcases List.mem_append.mp there with there | there
    · exact less x there p (by simp)
    · exact before x there
  · intro y there
    rcases List.mem_append.mp there with there | there
    · exact after y there
    · exact greater y there p (by simp)

section
variable {left right u w : List T} {p : T} {mid index : Nat}

/-- A selection behind elements that are not greater than any there. -/
lemma Selected.behind_all (selected : Selected lt u (index - mid)) (le : mid ≤ w.length)
    (behind : mid ≤ index) (perm : u.Perm (w.drop mid))
    (cross : ∀ x ∈ w.take mid, ∀ y ∈ w.drop mid, lt y x = false) :
    Selected lt (w.take mid ++ u) index := by
  have whole := selected.around (w.take mid) []
    (fun x hx y hy => cross x hx y (perm.mem_iff.mp hy)) (by simp)
  rw [List.append_nil, List.length_take_of_le le, Nat.add_sub_cancel' behind] at whole
  exact whole

lemma Selected.behind (selected : Selected lt u (index - left.length - 1))
    (order : StrictWeakOrder lt) (behind : left.length < index) (perm : u.Perm right)
    (less : ∀ x ∈ left, lt x p) (notLess : ∀ y ∈ right, lt y p = false) :
    Selected lt (left ++ [p] ++ u) index := by
  have above : ∀ q ∈ u, lt q p = false := fun q hq => notLess q (perm.mem_iff.mp hq)
  have whole := selected.around (left ++ [p]) [] ?_ (by simp)
  · rw [List.append_nil, List.length_append, List.length_singleton,
      show left.length + 1 + (index - left.length - 1) = index by omega] at whole
    exact whole
  · intro x hx q hq
    rcases List.mem_append.mp hx with hx | hx
    · exact order.not_lt_trans (order.asymm (less x hx)) (above q hq)
    · rw [List.mem_singleton.mp hx]
      exact above q hq

lemma Selected.before (selected : Selected lt u index) (order : StrictWeakOrder lt)
    (perm : u.Perm left) (less : ∀ x ∈ left, lt x p)
    (notLess : ∀ y ∈ right, lt y p = false) : Selected lt (u ++ p :: right) index := by
  have below : ∀ q ∈ u, lt q p := fun q hq => less q (perm.mem_iff.mp hq)
  have whole := selected.around [] (p :: right) (by simp) ?_
  · simpa using whole
  · intro y hy q hq
    rcases List.mem_cons.mp hy with rfl | hy
    · exact order.asymm (below q hq)
    · exact order.not_lt_trans (order.asymm (below q hq)) (notLess y hy)

end

/-- A sort of the slice has an equivalent element at the index. -/
lemma Selected.tied (order : StrictWeakOrder lt) {v w : List T}
    (selected : Selected lt v index) (perm : w.Perm v) (sorted : SortedBy lt w) {p q : T}
    (there : v[index]? = some p) (placed : w[index]? = some q) : tied lt q p := by
  obtain ⟨left, p', right, rfl, rfl, before, after⟩ := selected
  obtain rfl : p' = p := by simpa using there
  obtain ⟨inside, rfl⟩ := List.getElem?_eq_some_iff.mp placed
  have split := List.take_append_drop left.length w
  rw [List.drop_eq_getElem_cons inside] at split
  have length := perm.length_eq
  rw [← split] at sorted perm
  obtain ⟨-, back, between⟩ := sortedBy_append.mp sorted
  have taken : (w.take left.length).length = left.length := List.length_take_of_le inside.le
  rw [Arrangement.tied, Bool.and_eq_true, Bool.not_eq_true', Bool.not_eq_true']
  constructor
  -- more elements would be less than the selected one than there are before it
  · by_contra less
    rw [Bool.not_eq_false] at less
    have all : ∀ x ∈ w.take left.length, lt x p' := fun x there =>
      order.lt_of_not_lt_of_lt (between x there _ List.mem_cons_self) less
    have count := perm.countP_eq (fun x => lt x p')
    have none : right.countP (fun x => lt x p') = 0 :=
      List.countP_eq_zero.mpr (by simpa using after)
    have every := List.countP_eq_length.mpr all
    have few : left.countP (fun x => lt x p') ≤ left.length := List.countP_le_length
    simp only [List.countP_append, List.countP_cons, less, order.irrefl] at count
    simp at count
    omega
  · by_contra greater
    rw [Bool.not_eq_false] at greater
    have all : ∀ y ∈ w.drop (left.length + 1), lt p' y := fun y there =>
      order.lt_of_lt_of_not_lt greater ((sortedBy_cons.mp back).1 y there)
    have count := perm.countP_eq (fun x => lt p' x)
    have none : left.countP (fun x => lt p' x) = 0 :=
      List.countP_eq_zero.mpr (by simpa using before)
    have every : (w.drop (left.length + 1)).countP (fun x => lt p' x) =
        w.length - (left.length + 1) := by
      rw [List.countP_eq_length.mpr all, List.length_drop]
    have few : right.countP (fun x => lt p' x) ≤ right.length := List.countP_le_length
    simp only [List.countP_append, List.countP_cons, greater, order.irrefl] at count
    simp at count
    rw [List.length_append, List.length_cons] at length
    omega

/-- The pivot and what is known of the rest of the slice when the loop goes on. -/
lemma loop_spec (n : Nat) : ∀ (v : List T) (index : Nat) (pred : Option T) (s : S),
    v.length < n → index < v.length →
    (loop isLess n v index pred s).Ends
      (fun v' _ _ => v'.Perm v ∧ (Lawful isLess lt → (∀ p ∈ pred, ∀ x ∈ v, lt x p = false) →
        Selected lt v' index))
      (Unwound isLess lt v) := by
  induction n with
  | zero => intro v index pred s h; omega
  | succ n ih =>
    intro v₀ index pred s hn inside
    rw [loop]
    split
    · refine (insertionSort_spec v₀ s).imp ?_
      rintro v s _ ⟨perm, sorted⟩
      exact ⟨perm, fun law _ => selected_of_sorted (by rwa [perm.length_eq]) (sorted law)⟩
    refine (choosePivot_spec v₀ s (by omega)).bind ?_
    rintro v₁ s₁ choice ⟨perm₁, hpivot⟩
    have d := v₁[choice.1]
    refine (ends_of_perm perm₁ (pivotEqualsPred_spec d pred v₁ choice.1 s₁ hpivot)).bind ?_
    rintro v s₂ equal ⟨rfl, least⟩
    split
    next isEqual =>
      refine (ends_of_perm perm₁ (partitionEqual_spec v choice.1 s₂ d hpivot)).bind ?_
      rintro w s₃ mid ⟨perm₂, pos, le, parts⟩
      have perm := perm₂.trans perm₁
      have length := perm.length_eq
      have achieved : Lawful isLess lt → (∀ p ∈ pred, ∀ x ∈ v₀, lt x p = false) →
          Achieved lt w (.equal mid) := by
        intro law follows
        obtain ⟨p, there, below⟩ := least isEqual law
        exact achieved_equal law (fun x hx => follows p there x (perm.mem_iff.mp hx)) below
          (parts law).1 (parts law).2
      split
      next before =>
        refine ends_ok ⟨perm, fun law follows => ?_⟩
        obtain ⟨sorted, cross⟩ := achieved law follows
        have selected : Selected lt (w.take mid) index :=
          selected_of_sorted (by rw [List.length_take]; omega) sorted
        simpa using selected.around [] (w.drop mid) (by simp) fun y hy p hp => cross p hp y hy
      · have shorter : (w.drop mid).length = w.length - mid := List.length_drop
        refine (ih (w.drop mid) (index - mid) none s₃ (by omega) (by omega)).leave ?_ ?_
        · rintro u s₄ _ ⟨permᵤ, selected⟩
          refine ⟨_, rfl, perm_take_append perm permᵤ, fun law follows => ?_⟩
          obtain ⟨-, cross⟩ := achieved law follows
          exact (selected law (by simp)).behind_all le (by omega) permᵤ cross
        · rintro u s₄ ⟨permᵤ, wild⟩
          exact ⟨_, rfl, perm_take_append perm permᵤ, wild⟩
    · refine (ends_of_perm perm₁ (partition_spec v choice.1 s₂ hpivot)).bind ?_
      rintro w s₃ ⟨mid, wasPartitioned⟩ ⟨left, p, right, rfl, rfl, perm₂, parts⟩
      have perm := perm₂.trans perm₁
      have length := perm.length_eq
      rw [List.length_append, List.length_cons] at length
      refine ends_require (by simp : (left ++ p :: right)[left.length]? = some p) ?_
      have hdrop := drop_past left p right
      have htake : (left ++ p :: right).take (left.length + 1) = left ++ [p] := by
        rw [List.take_append, List.take_of_length_le (by omega), Nat.add_sub_cancel_left]
        rfl
      rw [hdrop, htake, List.take_left, List.drop_left]
      split
      next behind =>
        refine (ih right (index - left.length - 1) (some p) s₃ (by omega) (by omega)).leave ?_ ?_
        · rintro u s₄ _ ⟨permᵤ, selected⟩
          refine ⟨_, rfl, ?_, fun law follows => ?_⟩
          · simpa using (permᵤ.append_left (left ++ [p])).trans (by simpa using perm)
          · have inner := selected law (by simpa using (parts law).2)
            exact inner.behind law.order behind permᵤ (parts law).1 (parts law).2
        · rintro u s₄ ⟨permᵤ, wild⟩
          refine ⟨_, rfl, ?_, wild⟩
          simpa using (permᵤ.append_left (left ++ [p])).trans (by simpa using perm)
      · split
        next before =>
          refine (ih left index pred s₃ (by omega) before).leave ?_ ?_
          · rintro u s₄ _ ⟨permᵤ, selected⟩
            refine ⟨_, rfl, (permᵤ.append_right _).trans perm, fun law follows => ?_⟩
            have inner := selected law fun q hq x hx =>
              follows q hq x (perm.mem_iff.mp (List.mem_append_left _ hx))
            exact inner.before law.order permᵤ (parts law).1 (parts law).2
          · rintro u s₄ ⟨permᵤ, wild⟩
            exact ⟨_, rfl, (permᵤ.append_right _).trans perm, wild⟩
        · refine ends_ok ⟨perm, fun law _ => ⟨left, p, right, rfl, by omega, ?_, (parts law).2⟩⟩
          exact fun x hx => law.order.asymm ((parts law).1 x hx)

/-- The best element so far: not less than the others for `max_by`, not greater for `min_by`. -/
def Best (lt : T → T → Bool) (later : Bool) (x z : T) : Prop :=
  if later then lt x z = false else lt z x = false

lemma best_self (order : StrictWeakOrder lt) (later : Bool) (x : T) : Best lt later x x := by
  cases later <;> exact order.irrefl x

lemma Best.later {later : Bool} {x y z : T} (best : Best lt later x z)
    (order : StrictWeakOrder lt) (taken : lt x y = later) : Best lt later y z := by
  cases later with
  | true =>
    have known : lt x z = false := best
    exact Bool.eq_false_iff.mpr fun greater => by simp [order.trans _ _ _ taken greater] at known
  | false => exact order.not_lt_trans taken best

lemma best_earlier {later : Bool} {x y : T} (order : StrictWeakOrder lt)
    (kept : lt x y ≠ later) : Best lt later x y := by
  cases later with
  | true => exact Bool.eq_false_iff.mpr kept
  | false => exact order.asymm (by simpa using kept)

lemma pickIndex_spec (later : Bool) (d : T) (v : List T) (n : Nat) : ∀ (j best : Nat) (s : S),
    j + n = v.length → best < j →
    (Lawful isLess lt → ∀ k < j, Best lt later (view d v best) (view d v k)) →
    (pickIndex isLess later v n j best s).Ends
      (fun v' _ m => v' = v ∧ m < v.length ∧
        (Lawful isLess lt → ∀ k < v.length, Best lt later (view d v m) (view d v k)))
      (Unwound isLess lt v) := by
  induction n with
  | zero =>
    intro j best s length inside most
    exact ends_ok ⟨rfl, by omega, fun law k hk => most law k (by omega)⟩
  | succ n ih =>
    intro j best s length inside most
    refine ends_require (getElem?_eq_view d (by omega))
      (ends_require (getElem?_eq_view d (by omega))
        (ends_ask (fun wild s' => ⟨.refl _, wild⟩) fun s' less answer => ?_))
    refine ih (j + 1) _ s' (by omega) (by split <;> omega) fun law k hk => ?_
    have answer := answer law
    obtain before | rfl : k < j ∨ k = j := by omega
    · have known := most law k before
      by_cases taken : less = later
      · rw [if_pos taken]
        exact known.later law.order (answer.symm.trans taken)
      · rwa [if_neg taken]
    · by_cases taken : less = later
      · rw [if_pos taken]
        exact best_self law.order later _
      · rw [if_neg taken]
        exact best_earlier law.order fun same => taken (answer.trans same)

/-- An element that is best of all is put at the index where it is selected. -/
lemma place_spec (later : Bool) (v : List T) (index : Nat) (s : S)
    (ends : index = if later then v.length - 1 else 0) (nonempty : 0 < v.length) :
    (place isLess later v index s).Ends
      (fun v' _ _ => v'.Perm v ∧ (Lawful isLess lt → Selected lt v' index))
      (Unwound isLess lt v) := by
  have d := v[0]
  refine (pickIndex_spec later d v (v.length - 1) 1 0 s (by omega) (by omega)
    fun law k hk => ?_).bind ?_
  · obtain rfl : k = 0 := by omega
    exact best_self law.order later _
  rintro v s' m ⟨rfl, inside, most⟩
  have low : index < v.length := by
    rw [ends]
    split <;> omega
  refine ends_require (trySwap_eq inside low) (ends_ok ⟨swap_perm v m index, fun law => ?_⟩)
  have low' : index < (swap v m index).length := by rwa [length_swap]
  have moved : (swap v m index)[index] = view d v m := by
    rw [getElem_eq_view d, view_swap d inside low, swapAt_right]
  have best : ∀ x ∈ swap v m index, Best lt later (view d v m) x := by
    intro x there
    obtain ⟨k, hk, rfl⟩ := List.getElem_of_mem ((swap_perm v m index).mem_iff.mp there)
    rw [getElem_eq_view d]
    exact most law k hk
  apply selected_of_parts low'
  · intro x there
    rw [moved]
    cases later with
    | true => exact best x (List.mem_of_mem_take there)
    | false => simp [ends] at there
  · intro x there
    rw [moved]
    cases later with
    | true =>
      simp [ends, show v.length - 1 + 1 = v.length by omega, List.drop_of_length_le] at there
    | false => exact best x (List.mem_of_mem_drop there)

variable (isLess lt) in
/-- For every strict weak order the element at the index is selected: it is the one that a sort of
the slice puts there, up to equivalence. -/
theorem partition_at_index_selects (layout : Layout T) (law : Lawful isLess lt) (v : List T)
    (index : Nat) (inside : index < v.length) (s : S) :
    ∃ s' left p right,
      partitionAtIndex layout isLess v index s = .ok (left ++ p :: right) s' (left, p, right) ∧
      (left ++ p :: right).Perm v ∧ left.length = index ∧ (∀ x ∈ left, lt p x = false) ∧
      (∀ y ∈ right, lt y p = false) ∧
      ∀ w, w.Perm v → SortedBy lt w → ∀ q ∈ w[index]?, tied lt q p := by
  have chosen : (if layout.size = 0 then .ok v s ()
      else if index = v.length - 1 then place isLess true v index s
      else if index = 0 then place isLess false v index s
      else loop isLess (v.length + 1) v index none s : Exec (List T) S Unit).Ends
      (fun v' _ _ => v'.Perm v ∧ (Lawful isLess lt → Selected lt v' index))
      (Unwound isLess lt v) := by
    split
    next unsized =>
      refine ends_ok ⟨.refl v, fun law => selected_of_parts inside ?_ ?_⟩
      all_goals
        intro x _
        rw [layout.unique unsized x v[index]]
        exact law.order.irrefl _
    · split
      · exact place_spec true v index s (by assumption) (by omega)
      · split
        · exact place_spec false v index s (by assumption) (by omega)
        · exact (loop_spec (v.length + 1) v index none s (by omega) inside).mono
            (fun _ _ _ h => ⟨h.1, fun law => h.2 law (by simp)⟩) fun _ _ h => h
  obtain ⟨v', s', _, returned, perm, selected⟩ := chosen.returns fun _ _ h => h.2 law
  have selected := selected law
  obtain ⟨left, p, right, rfl, rfl, before, after⟩ := id selected
  have there : (left ++ p :: right)[left.length]? = some p := by simp
  refine ⟨s', left, p, right, ?_, perm, rfl, before, after, ?_⟩
  · rw [partitionAtIndex, if_neg (by omega), returned]
    change require (left ++ p :: right)[left.length]? _ = _
    rw [there, require, List.take_left, drop_past]
  · intro w permw sorted q placed
    exact selected.tied law.order (permw.trans perm.symm) sorted there placed

open MergeSort in
theorem partition_at_index_byTens :
    ∃ s' left p right, partitionAtIndex ⟨8, by simp⟩ byTens scattered 40 0 =
        .ok (left ++ p :: right) s' (left, p, right) ∧
      (left ++ p :: right).Perm scattered ∧ left.length = 40 := by
  obtain ⟨s', left, p, right, returned, perm, length, -⟩ := partition_at_index_selects
    byTens _ ⟨8, by simp⟩ byTens_lawful scattered 40 (by simp [scattered]) 0
  exact ⟨s', left, p, right, returned, perm, length⟩

/-- The stable sort and the unstable one put equivalent elements in every place. -/
theorem sorts_agree (law : Lawful isLess lt) (layout : Layout T) (bits : Nat) (v : List T) (s : S) :
    ∃ w s₁ u s₂, MergeSort.mergeSort layout isLess v s = .ok w s₁ () ∧
      quicksort layout bits isLess v s = .ok u s₂ () ∧ List.Forall₂ (tied lt · ·) w u := by
  obtain ⟨w, s₁, _, stable, kept, sorted⟩ :=
    (MergeSort.mergeSort_spec isLess lt layout v s).returns fun _ _ h => h.2 law
  obtain ⟨u, s₂, _, unstable, perm, sorted'⟩ :=
    (quicksort_spec isLess lt layout bits v s).returns fun _ _ h => h.2 law
  have same := kept.1.trans perm.symm
  refine ⟨w, s₁, u, s₂, stable, unstable, List.forall₂_iff_get.mpr ⟨same.length_eq, ?_⟩⟩
  intro i there placed
  exact (selected_of_sorted placed (sorted' law)).tied law.order same (sorted law) (by simp)
    (by simp)

open MergeSort in
theorem sorts_agree_byTens :
    ∃ w s₁ u s₂, mergeSort ⟨8, by simp⟩ byTens scattered 0 = .ok w s₁ () ∧
      quicksort ⟨8, by simp⟩ 64 byTens scattered 0 = .ok u s₂ () ∧
      List.Forall₂ (tied (fun x y => decide (x / 10 < y / 10)) · ·) w u :=
  sorts_agree byTens_lawful ..

end PartitionAtIndex
