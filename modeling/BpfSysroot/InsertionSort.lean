import BpfSysroot.Arrangement

/-!
# The insertion sorts of the slice sorting module

`shift_head`, `shift_tail`, `insertion_sort` and `partial_insertion_sort` of
`core/slice/sort.rs`. While an element is being moved it lives in a local
variable, its slot in the slice holds a stale copy, and the guard `CopyOnDrop`
writes it back on every way out. Each function has one specification: what the
slice holds on return and after a panic whatever the comparison answers, and
what order it is in when the comparison is lawful.
-/

namespace InsertionSort

open Unwinding Unwinding.Exec Arrangement List
variable {S T : Type} {isLess : Comparator S T} {lt : T → T → Bool}

/-- `size_of::<T>()`. A type without a size has at most one value. -/
structure Layout (T : Type) where
  size : Nat
  unique : size = 0 → ∀ x y : T, x = y

/-- The slice during a move: slot `dest` is the hole the guard will fill. -/
structure CopyOnDrop (T : Type) where
  v : List T
  dest : Nat

def CopyOnDrop.drop (tmp : T) (hole : CopyOnDrop T) : Option (List T) :=
  write hole.v hole.dest tmp

/-- `for i in 2..len` of `shift_head`, with `n` indices to go. -/
def shiftHeadLoop (isLess : Comparator S T) (tmp : T) :
    Nat → Nat → CopyOnDrop T → S → Exec (CopyOnDrop T) S Unit
  | 0, _, hole, s => .ok hole s ()
  | n + 1, i, hole, s =>
    require hole.v[i]? fun x =>
    (ask isLess hole s x tmp).bind fun hole s less =>
    if less then
      require (write hole.v (i - 1) x) fun v =>
      shiftHeadLoop isLess tmp n (i + 1) ⟨v, i⟩ s
    else .ok hole s ()

def shiftHead (isLess : Comparator S T) (v : List T) (s : S) : Exec (List T) S Unit :=
  if 2 ≤ v.length then
    require v[1]? fun second => require v[0]? fun first =>
    (ask isLess v s second first).bind fun v s less =>
    if less then
      require (write v 0 second) fun v =>
      (shiftHeadLoop isLess first (v.length - 2) 2 ⟨v, 1⟩ s).leave (CopyOnDrop.drop first)
    else .ok v s ()
  else .ok v s ()

/-- `for i in (0..len - 2).rev()` of `shift_tail`, from index `i - 1` down. -/
def shiftTailLoop (isLess : Comparator S T) (tmp : T) :
    Nat → CopyOnDrop T → S → Exec (CopyOnDrop T) S Unit
  | 0, hole, s => .ok hole s ()
  | i + 1, hole, s =>
    require hole.v[i]? fun x =>
    (ask isLess hole s tmp x).bind fun hole s less =>
    if less then
      require (write hole.v (i + 1) x) fun v =>
      shiftTailLoop isLess tmp i ⟨v, i⟩ s
    else .ok hole s ()

def shiftTail (isLess : Comparator S T) (v : List T) (s : S) : Exec (List T) S Unit :=
  let len := v.length
  if 2 ≤ len then
    require v[len - 1]? fun last => require v[len - 2]? fun before =>
    (ask isLess v s last before).bind fun v s less =>
    if less then
      require (write v (len - 1) before) fun v =>
      (shiftTailLoop isLess last (len - 2) ⟨v, len - 2⟩ s).leave (CopyOnDrop.drop last)
    else .ok v s ()
  else .ok v s ()

/-- What a panic leaves behind: the elements of `v`, and the comparison to blame. -/
def Unwound (isLess : Comparator S T) (lt : T → T → Bool) (v : List T) : List T → S → Prop :=
  fun v' _ => v'.Perm v ∧ ¬ Lawful isLess lt

lemma Unwound.of_perm {v w v' : List T} {s : S} (h : Unwound isLess lt w v' s)
    (hw : w.Perm v) : Unwound isLess lt v v' s :=
  ⟨h.1.trans hw, h.2⟩

lemma ends_of_perm {A : Type} {e : Exec (List T) S A} {Q : List T → S → A → Prop} {v w : List T}
    (hw : w.Perm v) (h : e.Ends Q (Unwound isLess lt w)) : e.Ends Q (Unwound isLess lt v) :=
  h.mono (fun _ _ _ hq => hq) fun _ _ hu => hu.of_perm hw

/-- Work on a part of a slice that holds the elements of `v`. -/
lemma ends_within_bind {A B : Type} {v w pre post : List T} {lo hi : Nat}
    {f : List T → Exec (List T) S A} {k : List T → S → A → Exec (List T) S B}
    {Q : List T → S → A → Prop} {R : List T → S → B → Prop} (hlo : lo = pre.length)
    (hhi : hi = pre.length + w.length) (whole : (pre ++ w ++ post).Perm v)
    (h : (f w).Ends Q (Unwound isLess lt w)) (next : ∀ w' s a, Q w' s a →
      (k (pre ++ w' ++ post) s a).Ends R (Unwound isLess lt v)) :
    ((within (pre ++ w ++ post) lo hi f).bind k).Ends R (Unwound isLess lt v) := by
  refine Ends.bind ?_ fun _ _ _ h => h
  refine ends_within hlo hhi (h.mono next ?_)
  rintro w' s ⟨hperm, wild⟩
  exact ⟨((hperm.append_left pre).append_right post).trans whole, wild⟩

variable (lt) in
/-- The loop has a hole between `xs` and `ys`; it moves elements of `ys` over to `xs`. -/
lemma shiftHeadLoop_spec (tmp : T) (ys : List T) : ∀ (xs : List T) (g : T) (s : S),
    (shiftHeadLoop isLess tmp ys.length (xs.length + 1) ⟨xs ++ g :: ys, xs.length⟩ s).Ends
      (fun hole _ _ => ∃ us vs g', ys = us ++ vs ∧
        hole = ⟨xs ++ us ++ g' :: vs, (xs ++ us).length⟩ ∧
        (Lawful isLess lt → (∀ x ∈ us, lt x tmp) ∧ ∀ y ∈ vs.head?, lt y tmp = false))
      (fun hole _ => ∃ us vs g', ys = us ++ vs ∧
        hole = ⟨xs ++ us ++ g' :: vs, (xs ++ us).length⟩ ∧ ¬ Lawful isLess lt) := by
  induction ys with
  | nil =>
    intro xs g s
    exact ends_ok ⟨[], [], g, rfl, by simp, by simp⟩
  | cons y ys ih =>
    intro xs g s
    have hread : (xs ++ g :: y :: ys)[xs.length + 1]? = some y := by simp
    have hwrite : write (xs ++ g :: y :: ys) (xs.length + 1 - 1) y = some (xs ++ y :: y :: ys) := by
      simp
    refine ends_require hread (ends_ask
      (fun wild s' => ⟨[], y :: ys, g, rfl, by simp, wild⟩) fun s' less hless => ?_)
    cases less with
    | false => exact ends_ok ⟨[], y :: ys, g, rfl, by simp, fun law => by simp [← hless law]⟩
    | true =>
      have hstep := ih (xs ++ [y]) y s'
      refine ends_require hwrite ?_
      simp only [append_assoc, cons_append, nil_append, length_append,
        length_cons, length_nil] at hstep ⊢
      refine hstep.mono ?_ ?_
      · rintro hole s'' _ ⟨us, vs, g', rfl, hhole, horder⟩
        refine ⟨y :: us, vs, g', rfl, by simpa using hhole, ?_⟩
        intro law
        exact ⟨forall_mem_cons.mpr ⟨(hless law).symm, (horder law).1⟩, (horder law).2⟩
      · rintro hole s'' ⟨us, vs, g', rfl, hhole, wild⟩
        exact ⟨y :: us, vs, g', rfl, by simpa using hhole, wild⟩

/-- The first element has moved right, past smaller ones only. -/
lemma shiftHead_moves (a : T) (rest : List T) (s : S) :
    (shiftHead isLess (a :: rest) s).Ends
      (fun v _ _ => ∃ xs ys, rest = xs ++ ys ∧ v = xs ++ a :: ys ∧
        (Lawful isLess lt → (∀ x ∈ xs, lt x a) ∧ ∀ y ∈ ys.head?, lt y a = false))
      (Unwound isLess lt (a :: rest)) := by
  cases rest with
  | nil => exact ends_ok ⟨[], [], rfl, rfl, by simp⟩
  | cons b rest =>
    rw [shiftHead, if_pos (by simp)]
    refine ends_require rfl (ends_require rfl (ends_ask
      (fun wild s' => ⟨.refl _, wild⟩) fun s' less hless => ?_))
    cases less with
    | false => exact ends_ok ⟨[], b :: rest, rfl, rfl, fun law => by simp [← hless law]⟩
    | true =>
      refine (shiftHeadLoop_spec lt a rest [b] b s').leave ?_ ?_
      · rintro hole s'' _ ⟨us, vs, g, rfl, rfl, horder⟩
        refine ⟨_, write_middle _ _ _ _, b :: us, vs, rfl, by simp, ?_⟩
        intro law
        exact ⟨forall_mem_cons.mpr ⟨(hless law).symm, (horder law).1⟩, (horder law).2⟩
      · rintro hole s'' ⟨us, vs, g, rfl, rfl, wild⟩
        exact ⟨_, write_middle _ _ _ _, perm_middle, wild⟩

variable (lt) in
lemma shiftHead_spec (v : List T) (s : S) :
    (shiftHead isLess v s).Ends
      (fun v' _ _ => v'.Perm v ∧ (Lawful isLess lt → KeepsTies lt v v' ∧
        (SortedBy lt v.tail → SortedBy lt v')))
      (Unwound isLess lt v) := by
  cases v with
  | nil => exact ends_ok ⟨.refl _, fun _ => ⟨.refl _, id⟩⟩
  | cons a rest =>
    refine (shiftHead_moves a rest s).imp ?_
    rintro v' s' _ ⟨xs, ys, rfl, rfl, horder⟩
    refine ⟨perm_middle, fun law => ?_⟩
    obtain ⟨hxs, hys⟩ := horder law
    refine ⟨keepsTies_moveRight law.order hxs, fun sorted => ?_⟩
    exact sorted.insert (fun x hx => law.order.asymm (hxs x hx))
      ((sortedBy_append.mp sorted).2.1.not_lt_of_head law.order hys)

variable (lt) in
/-- The mirror of `shiftHeadLoop_spec`: elements of `xs` move over to `ys`. -/
lemma shiftTailLoop_spec (tmp : T) (xs : List T) : ∀ (ys : List T) (g : T) (s : S),
    (shiftTailLoop isLess tmp xs.length ⟨xs ++ g :: ys, xs.length⟩ s).Ends
      (fun hole _ _ => ∃ us vs g', xs = us ++ vs ∧
        hole = ⟨us ++ g' :: (vs ++ ys), us.length⟩ ∧
        (Lawful isLess lt → (∀ y ∈ vs, lt tmp y) ∧ ∀ x ∈ us.getLast?, lt tmp x = false))
      (fun hole _ => ∃ us vs g', xs = us ++ vs ∧
        hole = ⟨us ++ g' :: (vs ++ ys), us.length⟩ ∧ ¬ Lawful isLess lt) := by
  induction xs using reverseRecOn with
  | nil =>
    intro ys g s
    exact ends_ok ⟨[], [], g, rfl, rfl, by simp⟩
  | append_singleton xs x ih =>
    intro ys g s
    rw [length_append]
    have hread : (xs ++ [x] ++ g :: ys)[xs.length]? = some x := by simp
    have hwrite : write (xs ++ [x] ++ g :: ys) (xs.length + 1) x = some (xs ++ x :: x :: ys) := by
      have := write_middle (xs ++ [x]) ys g x
      simpa using this
    refine ends_require hread (ends_ask
      (fun wild s' => ⟨xs ++ [x], [], g, by simp, by simp, wild⟩) fun s' less hless => ?_)
    cases less with
    | false =>
      exact ends_ok ⟨xs ++ [x], [], g, by simp, by simp, fun law => by simp [← hless law]⟩
    | true =>
      refine ends_require hwrite ((ih (x :: ys) x s').mono ?_ ?_)
      · rintro hole s'' _ ⟨us, vs, g', rfl, rfl, horder⟩
        refine ⟨us, vs ++ [x], g', by simp, by simp, fun law => ⟨?_, (horder law).2⟩⟩
        exact forall_mem_append.mpr
          ⟨(horder law).1, forall_mem_singleton.mpr (hless law).symm⟩
      · rintro hole s'' ⟨us, vs, g', rfl, rfl, wild⟩
        exact ⟨us, vs ++ [x], g', by simp, by simp, wild⟩

/-- The last element has moved left, past greater ones only. -/
lemma shiftTail_moves (rest : List T) (a : T) (s : S) :
    (shiftTail isLess (rest ++ [a]) s).Ends
      (fun v _ _ => ∃ xs ys, rest = xs ++ ys ∧ v = xs ++ a :: ys ∧
        (Lawful isLess lt → (∀ y ∈ ys, lt a y) ∧ ∀ x ∈ xs.getLast?, lt a x = false))
      (Unwound isLess lt (rest ++ [a])) := by
  rcases eq_nil_or_concat' rest with rfl | ⟨rest, b, rfl⟩
  · exact ends_ok ⟨[], [], rfl, rfl, by simp⟩
  · have hlast : (rest ++ [b] ++ [a])[(rest ++ [b] ++ [a]).length - 1]? = some a := by simp
    have hbefore : (rest ++ [b] ++ [a])[(rest ++ [b] ++ [a]).length - 2]? = some b := by simp
    have hwrite : write (rest ++ [b] ++ [a]) ((rest ++ [b] ++ [a]).length - 1) b =
        some (rest ++ b :: [b]) := by
      have := write_middle (rest ++ [b]) [] a b
      simpa using this
    have hlen : (rest ++ [b] ++ [a]).length - 2 = rest.length := by simp
    rw [shiftTail, if_pos (by simp)]
    refine ends_require hlast (ends_require hbefore (ends_ask
      (fun wild s' => ⟨.refl _, wild⟩) fun s' less hless => ?_))
    cases less with
    | false =>
      exact ends_ok ⟨rest ++ [b], [], by simp, by simp, fun law => by simp [← hless law]⟩
    | true =>
      refine ends_require hwrite ?_
      rw [hlen]
      refine (shiftTailLoop_spec lt a rest [b] b s').leave ?_ ?_
      · rintro hole s'' _ ⟨us, vs, g, rfl, rfl, horder⟩
        refine ⟨_, write_middle _ _ _ _, us, vs ++ [b], by simp, rfl,
          fun law => ⟨?_, (horder law).2⟩⟩
        exact forall_mem_append.mpr
          ⟨(horder law).1, forall_mem_singleton.mpr (hless law).symm⟩
      · rintro hole s'' ⟨us, vs, g, rfl, rfl, wild⟩
        refine ⟨_, write_middle _ _ _ _, ?_, wild⟩
        simpa using (perm_middle.trans (perm_append_singleton a (us ++ (vs ++ [b]))).symm)

lemma shiftTail_spec (rest : List T) (a : T) (s : S) :
    (shiftTail isLess (rest ++ [a]) s).Ends
      (fun v _ _ => v.Perm (rest ++ [a]) ∧ (Lawful isLess lt → SortedBy lt rest → SortedBy lt v))
      (Unwound isLess lt (rest ++ [a])) := by
  refine (shiftTail_moves rest a s).imp ?_
  rintro v s' _ ⟨xs, ys, rfl, rfl, horder⟩
  refine ⟨perm_middle.trans (perm_append_singleton a _).symm, fun law sorted => ?_⟩
  obtain ⟨hys, hxs⟩ := horder law
  exact sorted.insert ((sortedBy_append.mp sorted).1.not_lt_of_last law.order hxs)
    fun y hy => law.order.asymm (hys y hy)

/-- `for i in 1..v.len()` of `insertion_sort`, with `n` indices to go. -/
def insertionSortLoop (isLess : Comparator S T) :
    Nat → Nat → List T → S → Exec (List T) S Unit
  | 0, _, v, s => .ok v s ()
  | n + 1, i, v, s =>
    (within v 0 (i + 1) fun w => shiftTail isLess w s).bind fun v s _ =>
    insertionSortLoop isLess n (i + 1) v s

def insertionSort (isLess : Comparator S T) (v : List T) (s : S) : Exec (List T) S Unit :=
  insertionSortLoop isLess (v.length - 1) 1 v s

lemma insertionSortLoop_spec (ys : List T) : ∀ (xs : List T) (s : S),
    (insertionSortLoop isLess ys.length xs.length (xs ++ ys) s).Ends
      (fun v _ _ => v.Perm (xs ++ ys) ∧ (Lawful isLess lt → SortedBy lt xs → SortedBy lt v))
      (Unwound isLess lt (xs ++ ys)) := by
  induction ys with
  | nil =>
    intro xs s
    exact ends_ok ⟨by simp, fun _ h => by simpa using h⟩
  | cons y ys ih =>
    intro xs s
    rw [show xs ++ y :: ys = [] ++ (xs ++ [y]) ++ ys by simp]
    refine ends_within_bind rfl (by simp) (.refl _) (shiftTail_spec xs y s) ?_
    rintro zs s' _ ⟨hperm, hsort⟩
    have hlen : zs.length = xs.length + 1 := by simpa using hperm.length_eq
    have hall := hperm.append_right ys
    rw [← hlen]
    refine (ih zs s').mono ?_ fun v s'' h => h.of_perm hall
    rintro v s'' _ ⟨hv, hvs⟩
    exact ⟨hv.trans hall, fun law sorted => hvs law (hsort law sorted)⟩

lemma insertionSort_spec (v : List T) (s : S) :
    (insertionSort isLess v s).Ends
      (fun v' _ _ => v'.Perm v ∧ (Lawful isLess lt → SortedBy lt v'))
      (Unwound isLess lt v) := by
  cases v with
  | nil => exact ends_ok ⟨.refl _, fun _ => List.Pairwise.nil⟩
  | cons a v =>
    refine (insertionSortLoop_spec v [a] s).imp ?_
    rintro v' s' _ ⟨hperm, hsort⟩
    exact ⟨hperm, fun law => hsort law (pairwise_singleton _ _)⟩

/-- Maximum number of adjacent out-of-order pairs that will get shifted. -/
def maxSteps : Nat := 5

/-- If the slice is shorter than this, no elements are shifted. -/
def shortestShifting : Nat := 50

/-- `while i < len && !is_less(v[i], v[i - 1])`, with `n` positions left before `len`. -/
def findOutOfOrder (isLess : Comparator S T) (v : List T) :
    Nat → Nat → S → Exec (List T) S Nat
  | 0, i, s => .ok v s i
  | n + 1, i, s =>
    require v[i]? fun x => require v[i - 1]? fun prev =>
    (ask isLess v s x prev).bind fun _ s less =>
    if less then .ok v s i else findOutOfOrder isLess v n (i + 1) s

/-- The `for _ in 0..MAX_STEPS` loop, with `k` rounds to go. -/
def partialInsertionSortLoop (isLess : Comparator S T) :
    Nat → Nat → List T → S → Exec (List T) S Bool
  | 0, _, v, s => .ok v s false
  | k + 1, i, v, s =>
    (findOutOfOrder isLess v (v.length - i) i s).bind fun v s i =>
    if i = v.length then .ok v s true
    else if v.length < shortestShifting then .ok v s false
    else
      require (trySwap v (i - 1) i) fun v =>
      (within v 0 i fun w => shiftTail isLess w s).bind fun v s _ =>
      (within v i v.length fun w => shiftHead isLess w s).bind fun v s _ =>
      partialInsertionSortLoop isLess k i v s

def partialInsertionSort (isLess : Comparator S T) (v : List T) (s : S) : Exec (List T) S Bool :=
  partialInsertionSortLoop isLess maxSteps 1 v s

/-- The scan extends a sorted front part `xs` and does not touch the slice. -/
lemma findOutOfOrder_spec (ys : List T) : ∀ (xs : List T) (s : S), xs ≠ [] →
    (findOutOfOrder isLess (xs ++ ys) ys.length xs.length s).Ends
      (fun v _ i => v = xs ++ ys ∧ ∃ us vs, ys = us ++ vs ∧ i = (xs ++ us).length ∧
        (Lawful isLess lt → SortedBy lt xs → SortedBy lt (xs ++ us)))
      (Unwound isLess lt (xs ++ ys)) := by
  induction ys with
  | nil =>
    intro xs s _
    exact ends_ok ⟨rfl, [], [], rfl, by simp, fun _ h => by simpa using h⟩
  | cons y ys ih =>
    intro xs s nonempty
    obtain ⟨zs, x, rfl⟩ := (eq_nil_or_concat' xs).resolve_left nonempty
    have hread : (zs ++ [x] ++ y :: ys)[(zs ++ [x]).length]? = some y := by simp
    have hprev : (zs ++ [x] ++ y :: ys)[(zs ++ [x]).length - 1]? = some x := by simp
    refine ends_require hread (ends_require hprev (ends_ask
      (fun wild s' => ⟨.refl _, wild⟩) fun s' less hless => ?_))
    cases less with
    | true => exact ends_ok ⟨rfl, [], y :: ys, rfl, by simp, fun _ h => by simpa using h⟩
    | false =>
      have hstep := ih (zs ++ [x] ++ [y]) s' (by simp)
      simp only [append_assoc, cons_append, nil_append, length_append,
        length_cons, length_nil, Bool.false_eq_true, if_false] at hstep ⊢
      refine hstep.imp ?_
      rintro v s'' i ⟨rfl, us, vs, rfl, rfl, hsort⟩
      refine ⟨rfl, y :: us, vs, rfl, by simp, fun law sorted => hsort law ?_⟩
      -- the next element is not below the last one, hence not below any
      have hlast : ∀ z ∈ (zs ++ [x]).getLast?, lt y z = false := by
        simp [← hless law]
      have hinsert : SortedBy lt (zs ++ [x] ++ [y]) :=
        SortedBy.insert (by simpa using sorted) (sorted.not_lt_of_last law.order hlast) (by simp)
      simpa using hinsert

lemma shiftPair_spec (zs ws : List T) (x y : T) (s : S) {A : Type}
    {k : List T → S → Unit → Exec (List T) S A} {Q : List T → S → A → Prop}
    (next : ∀ xs ys s', xs.length = zs.length + 1 → (xs ++ ys).Perm (zs ++ x :: y :: ws) →
      (Lawful isLess lt → SortedBy lt zs → SortedBy lt xs) →
      (k (xs ++ ys) s' ()).Ends Q (Unwound isLess lt (zs ++ x :: y :: ws))) :
    ((within (zs ++ y :: x :: ws) 0 (zs.length + 1) fun w => shiftTail isLess w s).bind
      fun v s _ => (within v (zs.length + 1) v.length fun w => shiftHead isLess w s).bind k).Ends
      Q (Unwound isLess lt (zs ++ x :: y :: ws)) := by
  have hswap : (zs ++ y :: x :: ws).Perm (zs ++ x :: y :: ws) :=
    (List.Perm.swap x y ws).append_left zs
  rw [show zs ++ y :: x :: ws = [] ++ (zs ++ [y]) ++ x :: ws by simp] at hswap ⊢
  refine ends_within_bind rfl (by simp) hswap (shiftTail_spec zs y s) ?_
  rintro xs s' _ ⟨hperm, hsort⟩
  have hlen : xs.length = zs.length + 1 := by simpa using hperm.length_eq
  have hall := (hperm.append_right (x :: ws)).trans hswap
  rw [show [] ++ xs ++ x :: ws = xs ++ (x :: ws) ++ [] by simp]
  refine ends_within_bind hlen.symm (by simp) (by simpa using hall)
    (shiftHead_spec lt (x :: ws) s') ?_
  rintro ys s'' _ ⟨hperm', _⟩
  rw [append_nil]
  exact next xs ys s'' hlen ((hperm'.append_left xs).trans hall) hsort

lemma partialInsertionSortLoop_spec (k : Nat) : ∀ (xs ys : List T) (s : S), xs ≠ [] →
    (partialInsertionSortLoop isLess k xs.length (xs ++ ys) s).Ends
      (fun v _ done => v.Perm (xs ++ ys) ∧
        (Lawful isLess lt → SortedBy lt xs → done → SortedBy lt v))
      (Unwound isLess lt (xs ++ ys)) := by
  induction k with
  | zero =>
    intro xs ys s _
    exact ends_ok ⟨.refl _, by simp⟩
  | succ k ih =>
    intro xs ys s nonempty
    rw [partialInsertionSortLoop]
    rw [show (xs ++ ys).length - xs.length = ys.length by simp]
    refine (findOutOfOrder_spec ys xs s nonempty).bind ?_
    rintro v s' i ⟨rfl, us, vs, rfl, rfl, hsort⟩
    cases vs with
    | nil =>
      rw [if_pos (by simp)]
      exact ends_ok ⟨.refl _, fun law sorted _ => by simpa using hsort law sorted⟩
    | cons y ws =>
      rw [if_neg (by simp)]
      split
      · exact ends_ok ⟨.refl _, by simp⟩
      · -- the front part ends in `x`, and `y` is the element found below it
        obtain ⟨zs, x, hzs⟩ := (eq_nil_or_concat' (xs ++ us)).resolve_left (by simp [nonempty])
        have hv : xs ++ (us ++ y :: ws) = zs ++ x :: y :: ws := by
          rw [← append_assoc, hzs]
          simp
        have hlen : (xs ++ us).length = zs.length + 1 := by simp [hzs]
        rw [hv, hlen]
        refine ends_require (trySwap_adjacent zs ws x y) (shiftPair_spec zs ws x y s' ?_)
        intro xs' ys' s'' hlen' hperm hsort'
        rw [← hlen']
        refine (ih xs' ys' s'' (by rintro rfl; simp at hlen')).mono ?_ fun _ _ h => h.of_perm hperm
        rintro v _ done ⟨hv', hdone⟩
        refine ⟨hv'.trans hperm, fun law sorted => hdone law (hsort' law ?_)⟩
        have := hsort law sorted
        rw [hzs] at this
        exact (sortedBy_append.mp this).1

lemma partialInsertionSort_spec (v : List T) (s : S) :
    (partialInsertionSort isLess v s).Ends
      (fun v' _ done => v'.Perm v ∧ (Lawful isLess lt → done → SortedBy lt v'))
      (Unwound isLess lt v) := by
  cases v with
  | nil =>
    exact ends_ok ⟨.refl _, by simp⟩
  | cons a v =>
    refine (partialInsertionSortLoop_spec maxSteps [a] v s (by simp)).imp ?_
    rintro v' s' done ⟨hperm, hsort⟩
    exact ⟨hperm, fun law => hsort law (pairwise_singleton _ _)⟩

end InsertionSort
