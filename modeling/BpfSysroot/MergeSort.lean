import BpfSysroot.InsertionSort

/-!
# The stable sort of slices

`insert_head`, `merge` and `merge_sort` of `alloc/slice.rs`. The scratch buffer
has a capacity, and a copy into it beyond that capacity is a fault; so is any
read or write outside the slice or the copied part of the buffer.
-/

namespace MergeSort

open Unwinding Unwinding.Exec Arrangement InsertionSort List
variable {S T : Type} {isLess : Comparator S T} {lt : T → T → Bool}

/-- The text of `shift_head`, over checked indices. -/
def insertHead (isLess : Comparator S T) (v : List T) (s : S) : Exec (List T) S Unit :=
  shiftHead isLess v s

/-- The slice and the buffer during a merge; `buf[start..end_]` belongs at `v[dest..]`. -/
structure MergeHole (T : Type) where
  v : List T
  buf : List T
  start : Nat
  end_ : Nat
  dest : Nat

def MergeHole.drop (hole : MergeHole T) : Option (List T) :=
  let len := hole.end_ - hole.start
  if hole.start ≤ hole.end_ ∧ hole.end_ ≤ hole.buf.length ∧ hole.dest + len ≤ hole.v.length then
    some (hole.v.take hole.dest ++ (hole.buf.take hole.end_).drop hole.start ++
      hole.v.drop (hole.dest + len))
  else none

/-- The left run is in the buffer; `left` is `hole.start` and `out` is `hole.dest`. -/
def mergeForward (isLess : Comparator S T) :
    Nat → Nat → MergeHole T → S → Exec (MergeHole T) S Unit
  | 0, _, _, _ => .fault
  | n + 1, right, hole, s =>
    if hole.start < hole.end_ ∧ right < hole.v.length then
      require hole.v[right]? fun r => require hole.buf[hole.start]? fun l =>
      (ask isLess hole s r l).bind fun hole s less =>
      if less then
        require (write hole.v hole.dest r) fun v =>
        mergeForward isLess n (right + 1) { hole with v, dest := hole.dest + 1 } s
      else
        require (write hole.v hole.dest l) fun v =>
        mergeForward isLess n right
          { hole with v, start := hole.start + 1, dest := hole.dest + 1 } s
    else .ok hole s ()

/-- The right run is in the buffer; `left` is `hole.dest` and `right` is `hole.end_`. -/
def mergeBackward (isLess : Comparator S T) :
    Nat → Nat → MergeHole T → S → Exec (MergeHole T) S Unit
  | 0, _, _, _ => .fault
  | n + 1, out, hole, s =>
    if 0 < hole.dest ∧ 0 < hole.end_ then
      require hole.buf[hole.end_ - 1]? fun r => require hole.v[hole.dest - 1]? fun l =>
      (ask isLess hole s r l).bind fun hole s less =>
      if less then
        require (write hole.v (out - 1) l) fun v =>
        mergeBackward isLess n (out - 1) { hole with v, dest := hole.dest - 1 } s
      else
        require (write hole.v (out - 1) r) fun v =>
        mergeBackward isLess n (out - 1) { hole with v, end_ := hole.end_ - 1 } s
    else .ok hole s ()

/-- Merges `v[..mid]` and `v[mid..]` through a buffer of capacity `cap`. -/
def merge (isLess : Comparator S T) (cap : Nat) (v : List T) (mid : Nat) (s : S) :
    Exec (List T) S Unit :=
  let len := v.length
  if len < mid then .fault
  else if mid ≤ len - mid then
    if cap < mid then .fault
    else (mergeForward isLess (len + 1) mid ⟨v, v.take mid, 0, mid, 0⟩ s).leave MergeHole.drop
  else
    if cap < len - mid then .fault
    else (mergeBackward isLess (len + 1) len ⟨v, v.drop mid, 0, len - mid, mid⟩ s).leave
      MergeHole.drop

/-- What a merge of the runs `a` and `b` may leave. -/
structure Merged (law : Prop) (lt : T → T → Bool) (a b m : List T) : Prop where
  rearranged : Rearranged law lt (a ++ b) m
  sorted : law → SortedBy lt m

namespace Merged
variable {law : Prop} {a b m : List T} {x y : T} (order : law → StrictWeakOrder lt)
include order

omit order in
lemma of_empty (one : a.length = 0 ∨ b.length = 0) (ha : law → SortedBy lt a)
    (hb : law → SortedBy lt b) : Merged law lt a b (a ++ b) := by
  refine ⟨.refl _, fun hl => ?_⟩
  simp only [length_eq_zero_iff] at one
  rcases one with rfl | rfl
  · exact hb hl
  · simpa using ha hl

lemma consRight (ha : law → SortedBy lt (x :: a))
    (hb : law → SortedBy lt (y :: b)) (hyx : law → lt y x)
    (h : Merged law lt (x :: a) b m) : Merged law lt (x :: a) (y :: b) (y :: m) := by
  have above : law → ∀ z ∈ x :: a, lt y z := by
    intro hl z hz
    rcases mem_cons.mp hz with rfl | hz
    · exact hyx hl
    · exact (order hl).lt_of_lt_of_not_lt (hyx hl) ((sortedBy_cons.mp (ha hl)).1 z hz)
  refine ⟨⟨?_, fun hl => ?_⟩, fun hl => sortedBy_cons.mpr ⟨?_, h.sorted hl⟩⟩
  · exact (h.rearranged.1.cons y).trans perm_middle.symm
  · refine (keepsTies_moveLeft (order hl) (above hl)).trans ?_
    exact (KeepsTies.refl [y]).append (h.rearranged.2 hl)
  · intro z hz
    rcases mem_append.mp (h.rearranged.1.mem_iff.mp hz) with hz | hz
    · exact (order hl).asymm (above hl z hz)
    · exact (sortedBy_cons.mp (hb hl)).1 z hz

lemma consLeft (ha : law → SortedBy lt (x :: a))
    (hb : law → SortedBy lt (y :: b)) (hyx : law → lt y x = false)
    (h : Merged law lt a (y :: b) m) : Merged law lt (x :: a) (y :: b) (x :: m) := by
  refine ⟨h.rearranged.append_left [x], fun hl => sortedBy_cons.mpr ⟨?_, h.sorted hl⟩⟩
  intro z hz
  rcases mem_append.mp (h.rearranged.1.mem_iff.mp hz) with hz | hz
  · exact (sortedBy_cons.mp (ha hl)).1 z hz
  · rcases mem_cons.mp hz with rfl | hz
    · exact hyx hl
    · exact (order hl).not_lt_trans (hyx hl) ((sortedBy_cons.mp (hb hl)).1 z hz)

lemma snocLeft (ha : law → SortedBy lt (a ++ [x]))
    (hb : law → SortedBy lt (b ++ [y])) (hyx : law → lt y x)
    (h : Merged law lt a (b ++ [y]) m) : Merged law lt (a ++ [x]) (b ++ [y]) (m ++ [x]) := by
  have below : law → ∀ z ∈ b ++ [y], lt z x := by
    intro hl z hz
    rcases mem_append.mp hz with hz | hz
    · exact (order hl).lt_of_not_lt_of_lt
        ((sortedBy_append.mp (hb hl)).2.2 z hz y (by simp)) (hyx hl)
    · rw [mem_singleton.mp hz]
      exact hyx hl
  refine ⟨⟨?_, fun hl => ?_⟩, fun hl => sortedBy_append.mpr ⟨h.sorted hl,
    pairwise_singleton _ _, ?_⟩⟩
  · refine (h.rearranged.1.append_right [x]).trans ?_
    have hcomm : (b ++ [y] ++ [x]).Perm ([x] ++ (b ++ [y])) := perm_append_comm
    simpa using hcomm.append_left a
  · refine KeepsTies.trans ?_ ((h.rearranged.2 hl).append (KeepsTies.refl [x]))
    have hmove : KeepsTies lt (x :: (b ++ [y] ++ [])) (b ++ [y] ++ [x]) :=
      keepsTies_moveRight (order hl) (below hl)
    simpa using (KeepsTies.refl a).append hmove
  · intro z hz w hw
    rw [mem_singleton.mp hw]
    rcases mem_append.mp (h.rearranged.1.mem_iff.mp hz) with hz | hz
    · exact (sortedBy_append.mp (ha hl)).2.2 z hz x (by simp)
    · exact (order hl).asymm (below hl z hz)

lemma snocRight (ha : law → SortedBy lt (a ++ [x]))
    (hb : law → SortedBy lt (b ++ [y])) (hyx : law → lt y x = false)
    (h : Merged law lt (a ++ [x]) b m) : Merged law lt (a ++ [x]) (b ++ [y]) (m ++ [y]) := by
  refine ⟨by simpa using h.rearranged.append_right [y], fun hl => sortedBy_append.mpr
    ⟨h.sorted hl, pairwise_singleton _ _, ?_⟩⟩
  intro z hz w hw
  rw [mem_singleton.mp hw]
  rcases mem_append.mp (h.rearranged.1.mem_iff.mp hz) with hz | hz
  · rcases mem_append.mp hz with hz | hz
    · exact (order hl).not_lt_trans ((sortedBy_append.mp (ha hl)).2.2 z hz x (by simp)) (hyx hl)
    · rw [mem_singleton.mp hz]
      exact hyx hl
  · exact (sortedBy_append.mp (hb hl)).2.2 z hz y (by simp)

end Merged

/-- Restores the slice from the three parts a merge keeps apart. -/
lemma drop_forward (done gap rest used left : List T) (hgap : gap.length = left.length) :
    MergeHole.drop ⟨done ++ gap ++ rest, used ++ left, used.length, (used ++ left).length,
      done.length⟩ = some (done ++ (left ++ rest)) := by
  have hlen : (used ++ left).length - used.length = gap.length := by simp [hgap]
  have hdrop : (done ++ gap ++ rest).drop (done.length + gap.length) = rest := drop_left' (by simp)
  simp only [MergeHole.drop, hlen, hdrop]
  rw [take_length]
  simp

lemma drop_backward (rest gap done right used : List T) (hgap : gap.length = right.length) :
    MergeHole.drop ⟨rest ++ gap ++ done, right ++ used, 0, right.length, rest.length⟩ =
      some (rest ++ right ++ done) := by
  have hdrop : (rest ++ gap ++ done).drop (rest.length + right.length) = done :=
    drop_left' (by simp [hgap])
  simp only [MergeHole.drop, Nat.sub_zero, hdrop]
  rw [if_pos (by simp only [length_append]; omega)]
  simp

variable (isLess lt)

/-- Whether the loop returns or unwinds, dropping the hole leaves a merge of `a` and `b`, with `put`
around it. -/
def Leaves (put : List T → List T) (a b : List T) (e : Exec (MergeHole T) S Unit) : Prop :=
  e.Ends (fun hole _ _ => ∃ m, hole.drop = some (put m) ∧ Merged (Lawful isLess lt) lt a b m)
    fun hole _ => ∃ m, hole.drop = some (put m) ∧ Merged (Lawful isLess lt) lt a b m ∧
      ¬ Lawful isLess lt

variable {isLess lt} in
/-- One more element is merged than in the rest of the loop. -/
lemma Leaves.add {put put' : List T → List T} {a b a' b' : List T}
    {e : Exec (MergeHole T) S Unit} (h : Leaves isLess lt put' a' b' e)
    (add : ∀ m, Merged (Lawful isLess lt) lt a' b' m →
      ∃ m', put' m = put m' ∧ Merged (Lawful isLess lt) lt a b m') :
    Leaves isLess lt put a b e := by
  refine h.mono ?_ ?_
  · rintro hole _ _ ⟨m, hm, merged⟩
    obtain ⟨m', same, merged'⟩ := add m merged
    exact ⟨m', same ▸ hm, merged'⟩
  · rintro hole _ ⟨m, hm, merged, wild⟩
    obtain ⟨m', same, merged'⟩ := add m merged
    exact ⟨m', same ▸ hm, merged', wild⟩

/-- The loop appends to `done` a merge of what is left in the buffer and in the slice. -/
lemma mergeForward_spec (n : Nat) : ∀ (done gap rest used left : List T) (s : S),
    gap.length = left.length → left.length + rest.length < n →
    (Lawful isLess lt → SortedBy lt left) → (Lawful isLess lt → SortedBy lt rest) →
    Leaves isLess lt (done ++ ·) left rest (mergeForward isLess n (done.length + gap.length)
      ⟨done ++ gap ++ rest, used ++ left, used.length, (used ++ left).length, done.length⟩ s) := by
  induction n with
  | zero => omega
  | succ n ih =>
    intro done gap rest used left s hgap hn hleft hrest
    have hdrop := drop_forward done gap rest used left hgap
    rw [mergeForward]
    split
    next more =>
      simp only [length_append] at more
      obtain ⟨l, left, rfl⟩ := exists_cons_of_length_pos (l := left) (by omega)
      obtain ⟨r, rest, rfl⟩ := exists_cons_of_length_pos (l := rest) (by omega)
      obtain ⟨g, gap, rfl⟩ := exists_cons_of_length_pos (l := gap) (by simp [hgap])
      have hr : (done ++ g :: gap ++ r :: rest)[done.length + (g :: gap).length]? = some r := by
        simp
      have hl : (used ++ l :: left)[used.length]? = some l := by simp
      have hwrite : ∀ x, write (done ++ g :: gap ++ r :: rest) done.length x =
          some (done ++ x :: gap ++ r :: rest) := by
        simp
      refine ends_require hr (ends_require hl (ends_ask
        (fun wild s' => ⟨_, hdrop, ⟨.refl _, fun law => absurd law wild⟩, wild⟩)
        fun s' less hless => ?_))
      cases less with
      | true =>
        refine ends_require (hwrite r) ?_
        have hstep := ih (done ++ [r]) (gap ++ [r]) rest used (l :: left) s'
          (by simpa using hgap) (by simp at hn ⊢; omega) hleft
          fun law => (sortedBy_cons.mp (hrest law)).2
        simp only [append_assoc, cons_append, nil_append, length_append,
          length_cons, length_nil] at hstep ⊢
        rw [show done.length + (gap.length + 1) + 1 = done.length + (0 + 1) +
          (gap.length + (0 + 1)) by omega]
        exact hstep.add fun m hm => ⟨r :: m, by simp,
          hm.consRight (fun law => law.order) hleft hrest fun law => (hless law).symm⟩
      | false =>
        refine ends_require (hwrite l) ?_
        have hstep := ih (done ++ [l]) gap (r :: rest) (used ++ [l]) left s'
          (by simpa using hgap) (by simp at hn ⊢; omega)
          (fun law => (sortedBy_cons.mp (hleft law)).2) hrest
        simp only [append_assoc, cons_append, nil_append, length_append,
          length_cons, length_nil] at hstep ⊢
        rw [show done.length + (gap.length + 1) = done.length + (0 + 1) + gap.length by omega]
        exact hstep.add fun m hm => ⟨l :: m, by simp,
          hm.consLeft (fun law => law.order) hleft hrest fun law => (hless law).symm⟩
    next more =>
      -- one of the two runs is used up
      simp only [length_append] at more
      exact ends_ok ⟨left ++ rest, hdrop, .of_empty (by omega) hleft hrest⟩

/-- The mirror of `mergeForward_spec`, towards the front. -/
lemma mergeBackward_spec (n : Nat) : ∀ (rest gap done right used : List T) (s : S),
    gap.length = right.length → rest.length + right.length < n →
    (Lawful isLess lt → SortedBy lt rest) → (Lawful isLess lt → SortedBy lt right) →
    Leaves isLess lt (· ++ done) rest right (mergeBackward isLess n (rest.length + gap.length)
      ⟨rest ++ gap ++ done, right ++ used, 0, right.length, rest.length⟩ s) := by
  induction n with
  | zero => omega
  | succ n ih =>
    intro rest gap done right used s hgap hn hrest hright
    have hdrop := drop_backward rest gap done right used hgap
    rw [mergeBackward]
    split
    next more =>
      obtain ⟨rest, l, rfl⟩ := (eq_nil_or_concat' rest).resolve_left
        (ne_nil_of_length_pos more.1)
      obtain ⟨right, r, rfl⟩ := (eq_nil_or_concat' right).resolve_left
        (ne_nil_of_length_pos more.2)
      obtain ⟨gap, g, rfl⟩ := (eq_nil_or_concat' gap).resolve_left
        (ne_nil_of_length_pos (by simp [hgap]))
      have hr : (right ++ [r] ++ used)[(right ++ [r]).length - 1]? = some r := by simp
      have hl : (rest ++ [l] ++ (gap ++ [g]) ++ done)[(rest ++ [l]).length - 1]? = some l := by simp
      have hout : (rest ++ [l]).length + (gap ++ [g]).length - 1 = (rest ++ [l] ++ gap).length := by
        simp only [length_append, length_singleton]
        omega
      have hwrite : ∀ x, write (rest ++ [l] ++ (gap ++ [g]) ++ done) (rest ++ [l] ++ gap).length x =
          some (rest ++ [l] ++ gap ++ x :: done) := by
        intro x
        have := write_middle (rest ++ [l] ++ gap) done g x
        simpa using this
      refine ends_require hr (ends_require hl (ends_ask
        (fun wild s' => ⟨_, hdrop, ⟨.refl _, fun law => absurd law wild⟩, wild⟩)
        fun s' less hless => ?_))
      rw [hout]
      cases less with
      | true =>
        refine ends_require (hwrite l) ?_
        have hstep := ih rest (l :: gap) (l :: done) (right ++ [r]) used s'
          (by simpa using hgap) (by simp at hn ⊢; omega)
          (fun law => (sortedBy_append.mp (hrest law)).1) hright
        simp only [append_assoc, cons_append, nil_append, length_append,
          length_cons, length_nil, Nat.add_sub_cancel] at hstep ⊢
        exact hstep.add fun m hm => ⟨m ++ [l], by simp,
          hm.snocLeft (fun law => law.order) hrest hright fun law => (hless law).symm⟩
      | false =>
        refine ends_require (hwrite r) ?_
        have hstep := ih (rest ++ [l]) gap (r :: done) right (r :: used) s'
          (by simpa using hgap) (by simp at hn ⊢; omega) hrest
          fun law => (sortedBy_append.mp (hright law)).1
        simp only [append_assoc, cons_append, nil_append, length_append,
          length_cons, length_nil, Nat.add_sub_cancel] at hstep ⊢
        rw [show rest.length + (gap.length + 1) = rest.length + (0 + 1) + gap.length by omega]
        exact hstep.add fun m hm => ⟨m ++ [r], by simp,
          hm.snocRight (fun law => law.order) hrest hright fun law => (hless law).symm⟩
    next more =>
      dsimp only at more
      exact ends_ok ⟨rest ++ right, hdrop, .of_empty (by omega) hrest hright⟩

lemma merge_spec (cap : Nat) (a b : List T) (s : S) (room : min a.length b.length ≤ cap)
    (ha : Lawful isLess lt → SortedBy lt a) (hb : Lawful isLess lt → SortedBy lt b) :
    (merge isLess cap (a ++ b) a.length s).Ends
      (fun v _ _ => Merged (Lawful isLess lt) lt a b v) (Unwound isLess lt (a ++ b)) := by
  have hlen : (a ++ b).length - a.length = b.length := by simp
  simp only [merge, hlen]
  rw [if_neg (by simp)]
  split
  · rw [if_neg (by omega), take_left]
    have h := mergeForward_spec isLess lt ((a ++ b).length + 1) [] a b [] a s rfl
      (by simp) ha hb
    simp only [nil_append, length_nil, zero_add] at h
    exact h.leave (fun _ _ _ h => h) fun _ _ h =>
      h.imp fun _ left => ⟨left.1, left.2.1.rearranged.1, left.2.2⟩
  · rw [if_neg (by omega), drop_left]
    have h := mergeBackward_spec isLess lt ((a ++ b).length + 1) a b [] b [] s rfl
      (by simp) ha hb
    simp only [append_nil, ← length_append] at h
    exact h.leave (fun _ _ _ h => h) fun _ _ h =>
      h.imp fun _ left => ⟨left.1, left.2.1.rearranged.1, left.2.2⟩

section

/-- Slices of up to this length get sorted using insertion sort. -/
def maxInsertion : Nat := 20

/-- Very short runs are extended to span at least this many elements. -/
def minRun : Nat := 10

structure Run where
  start : Nat
  len : Nat
  deriving DecidableEq

/-- `runs[i]`; the guards of `collapse` keep every index it uses in range. -/
def runAt (runs : List Run) (i : Nat) : Run := runs.getD i ⟨0, 0⟩

def collapse (runs : List Run) : Option Nat :=
  let n := runs.length
  if 2 ≤ n ∧ ((runAt runs (n - 1)).start = 0 ∨
      (runAt runs (n - 2)).len ≤ (runAt runs (n - 1)).len ∨
      (3 ≤ n ∧ (runAt runs (n - 3)).len ≤ (runAt runs (n - 2)).len + (runAt runs (n - 1)).len) ∨
      (4 ≤ n ∧ (runAt runs (n - 4)).len ≤ (runAt runs (n - 3)).len + (runAt runs (n - 2)).len)) then
    if 3 ≤ n ∧ (runAt runs (n - 3)).len < (runAt runs (n - 1)).len then some (n - 3)
    else some (n - 2)
  else none

/-- `while start > 0 && is_less(v[start], v[start - 1]) == down { start -= 1 }`. -/
def extendRun (isLess : Comparator S T) (down : Bool) (v : List T) :
    Nat → S → Exec (List T) S Nat
  | 0, s => .ok v s 0
  | start + 1, s =>
    require v[start + 1]? fun x => require v[start]? fun prev =>
    (ask isLess v s x prev).bind fun _ s less =>
    if less = down then extendRun isLess down v start s else .ok v s (start + 1)

/-- Finds the next natural run before `end_`, and reverses it if it is strictly descending. -/
def naturalRun (isLess : Comparator S T) (v : List T) (end_ : Nat) (s : S) :
    Exec (List T) S Nat :=
  let start := end_ - 1
  if 0 < start then
    let start := start - 1
    require v[start + 1]? fun x => require v[start]? fun prev =>
    (ask isLess v s x prev).bind fun v s less =>
    if less then
      (extendRun isLess true v start s).bind fun v s start =>
      (within v start end_ fun w => .ok w.reverse s ()).bind fun v s _ => .ok v s start
    else extendRun isLess false v start s
  else .ok v s start

/-- `while start > 0 && end - start < MIN_RUN`. -/
def fillRun (isLess : Comparator S T) (end_ : Nat) : Nat → List T → S → Exec (List T) S Nat
  | 0, v, s => .ok v s 0
  | start + 1, v, s =>
    if end_ - (start + 1) < minRun then
      (within v start end_ fun w => insertHead isLess w s).bind fun v s _ =>
      fillRun isLess end_ start v s
    else .ok v s (start + 1)

/-- `while let Some(r) = collapse(&runs)`. -/
def collapseLoop (isLess : Comparator S T) (cap : Nat) :
    Nat → List Run → List T → S → Exec (List T) S (List Run)
  | 0, _, _, _ => .fault
  | n + 1, runs, v, s =>
    match collapse runs with
    | none => .ok v s runs
    | some r =>
      require runs[r + 1]? fun left => require runs[r]? fun right =>
      (within v left.start (right.start + right.len) fun w =>
        merge isLess cap w left.len s).bind fun v s _ =>
      collapseLoop isLess cap n
        ((runs.set r ⟨left.start, left.len + right.len⟩).eraseIdx (r + 1)) v s

/-- `while end > 0`, and the `debug_assert` behind it. -/
def mergeSortLoop (isLess : Comparator S T) (cap : Nat) :
    Nat → Nat → List Run → List T → S → Exec (List T) S Unit
  | 0, _, _, _, _ => .fault
  | n + 1, end_, runs, v, s =>
    if 0 < end_ then
      (naturalRun isLess v end_ s).bind fun v s start =>
      (fillRun isLess end_ start v s).bind fun v s start =>
      (collapseLoop isLess cap (runs.length + 2) (runs ++ [⟨start, end_ - start⟩]) v s).bind
        fun v s runs => mergeSortLoop isLess cap n start runs v s
    else if runs = [⟨0, v.length⟩] then .ok v s () else .fault

/-- `for i in (0..len - 1).rev()`, from index `i - 1` down. -/
def insertAll (isLess : Comparator S T) : Nat → List T → S → Exec (List T) S Unit
  | 0, v, s => .ok v s ()
  | i + 1, v, s =>
    (within v i v.length fun w => insertHead isLess w s).bind fun v s _ =>
    insertAll isLess i v s

def mergeSort (layout : Layout T) (isLess : Comparator S T) (v : List T) (s : S) :
    Exec (List T) S Unit :=
  if layout.size = 0 then .ok v s ()
  else
    let len := v.length
    if len ≤ maxInsertion then
      if 2 ≤ len then insertAll isLess (len - 1) v s else .ok v s ()
    else mergeSortLoop isLess (len / 2) (len + 1) len [] v s

/-- Going to the right, each later element is less than an earlier one, or none is. -/
def Trend (lt : T → T → Bool) (down : Bool) (v : List T) : Prop :=
  v.Pairwise fun x y => lt y x = down

omit isLess in
lemma Trend.cons (order : StrictWeakOrder lt) {down : Bool} {u x : T} {w : List T}
    (h : Trend lt down (x :: w)) (hu : lt x u = down) : Trend lt down (u :: x :: w) := by
  refine pairwise_cons.mpr ⟨?_, h⟩
  intro y hy
  rcases mem_cons.mp hy with rfl | hy
  · exact hu
  · have hyx := (pairwise_cons.mp h).1 y hy
    cases down with
    | true => exact order.trans y x u hyx hu
    | false => exact order.not_lt_trans hu hyx

lemma extendRun_spec (down : Bool) (us : List T) : ∀ (x : T) (seg post : List T) (s : S),
    (extendRun isLess down (us ++ x :: seg ++ post) us.length s).Ends
      (fun v _ start => v = us ++ x :: seg ++ post ∧ ∃ us' mid, us = us' ++ mid ∧
        start = us'.length ∧
        (Lawful isLess lt → Trend lt down (x :: seg) → Trend lt down (mid ++ x :: seg)))
      (Unwound isLess lt (us ++ x :: seg ++ post)) := by
  induction us using reverseRecOn with
  | nil =>
    intro x seg post s
    exact ends_ok ⟨rfl, [], [], rfl, rfl, fun _ h => h⟩
  | append_singleton us u ih =>
    intro x seg post s
    rw [length_append]
    have hx : (us ++ [u] ++ x :: seg ++ post)[us.length + 1]? = some x := by simp
    have hu : (us ++ [u] ++ x :: seg ++ post)[us.length]? = some u := by simp
    refine ends_require hx (ends_require hu (ends_ask
      (fun wild s' => ⟨.refl _, wild⟩) fun s' less hless => ?_))
    split
    next same =>
      have hstep := ih u (x :: seg) post s'
      simp only [append_assoc, cons_append, nil_append] at hstep ⊢
      refine hstep.imp ?_
      rintro v s'' start ⟨rfl, us', mid, rfl, rfl, htrend⟩
      refine ⟨by simp, us', mid ++ [u], by simp, rfl, fun law h => ?_⟩
      have := htrend law (h.cons lt law.order ((hless law).symm.trans same))
      simpa using this
    · exact ends_ok ⟨rfl, us ++ [u], [], by simp, by simp, fun _ h => h⟩

/-- The run found before `end_` is sorted and lies right before it. -/
def FoundRun (law : Prop) (lt : T → T → Bool) (pre post v : List T) (start : Nat) : Prop :=
  ∃ us seg, v = us ++ seg ++ post ∧ start = us.length ∧ seg ≠ [] ∧
    Rearranged law lt pre (us ++ seg) ∧ (law → SortedBy lt seg)

lemma naturalRun_spec (pre post : List T) (s : S) (nonempty : pre ≠ []) :
    (naturalRun isLess (pre ++ post) pre.length s).Ends
      (fun v _ start => FoundRun (Lawful isLess lt) lt pre post v start)
      (Unwound isLess lt (pre ++ post)) := by
  obtain ⟨us, y, rfl⟩ := (eq_nil_or_concat' pre).resolve_left nonempty
  rcases eq_nil_or_concat' us with rfl | ⟨us, x, rfl⟩
  · -- a single element is left
    exact ends_ok ⟨[], [y], rfl, rfl, by simp, .refl _, fun _ => pairwise_singleton _ _⟩
  · have hlen : (us ++ [x] ++ [y]).length - 1 - 1 = us.length := by simp
    have hy : (us ++ [x] ++ [y] ++ post)[us.length + 1]? = some y := by simp
    have hx : (us ++ [x] ++ [y] ++ post)[us.length]? = some x := by simp
    simp only [naturalRun, hlen]
    rw [if_pos (by simp)]
    refine ends_require hy (ends_require hx (ends_ask
      (fun wild s' => ⟨.refl _, wild⟩) fun s' less hless => ?_))
    have hsame : us ++ x :: [y] ++ post = us ++ [x] ++ [y] ++ post := by simp
    have htrend : Lawful isLess lt → Trend lt less [x, y] := fun law => by
      simpa [Trend] using (hless law).symm
    cases less with
    | true =>
      have hext := extendRun_spec isLess lt true us x [y] post s'
      rw [hsame] at hext
      refine hext.bind ?_
      rintro v s'' start ⟨rfl, us', mid, rfl, rfl, hdown⟩
      refine Ends.bind (Q := fun v _ _ => v = us' ++ (mid ++ [x, y]).reverse ++ post) ?_ ?_
      · rw [show us' ++ mid ++ [x] ++ [y] ++ post = us' ++ (mid ++ [x, y]) ++ post by simp]
        exact ends_within rfl (by simp) (ends_ok rfl)
      · rintro v s''' _ rfl
        refine ends_ok ⟨us', (mid ++ [x, y]).reverse, rfl, rfl, by simp, ⟨?_, fun law => ?_⟩,
          fun law => sortedBy_reverse law.order (hdown law (htrend law))⟩
        · simpa using (reverse_perm (mid ++ [x, y])).append_left us'
        · have := (KeepsTies.refl us').append
            (keepsTies_reverse law.order (hdown law (htrend law)))
          simpa using this
    | false =>
      have hext := extendRun_spec isLess lt false us x [y] post s'
      rw [hsame] at hext
      refine hext.imp ?_
      rintro v s'' start ⟨rfl, us', mid, rfl, rfl, hup⟩
      exact ⟨us', mid ++ [x, y], by simp, rfl, by simp, by simpa using Rearranged.refl _,
        fun law => hup law (htrend law)⟩

lemma insertHead_spec (us : List T) (u : T) (seg post : List T) (s : S)
    (sorted : Lawful isLess lt → SortedBy lt seg) :
    (within (us ++ [u] ++ seg ++ post) us.length (us ++ [u] ++ seg).length fun w =>
        insertHead isLess w s).Ends
      (fun v _ _ => ∃ seg', v = us ++ seg' ++ post ∧
        Rearranged (Lawful isLess lt) lt (us ++ [u] ++ seg) (us ++ seg') ∧
        (Lawful isLess lt → SortedBy lt seg'))
      (Unwound isLess lt (us ++ [u] ++ seg ++ post)) := by
  rw [append_assoc us [u] seg]
  refine ends_within rfl (by simp) ((shiftHead_spec lt (u :: seg) s).mono ?_ ?_)
  · rintro seg' s' _ ⟨hperm, horder⟩
    have hre : Rearranged (Lawful isLess lt) lt (u :: seg) seg' :=
      ⟨hperm, fun law => (horder law).1⟩
    exact ⟨seg', rfl, hre.append_left us, fun law => (horder law).2 (sorted law)⟩
  · rintro seg' s' ⟨hperm, wild⟩
    exact ⟨(hperm.append_left us).append_right post, wild⟩

lemma fillRun_spec (us : List T) : ∀ (seg post : List T) (s : S), seg ≠ [] →
    (Lawful isLess lt → SortedBy lt seg) →
    (fillRun isLess (us ++ seg).length us.length (us ++ seg ++ post) s).Ends
      (fun v _ start => FoundRun (Lawful isLess lt) lt (us ++ seg) post v start)
      (Unwound isLess lt (us ++ seg ++ post)) := by
  induction us using reverseRecOn with
  | nil =>
    intro seg post s nonempty sorted
    exact ends_ok ⟨[], seg, rfl, rfl, nonempty, .refl _, sorted⟩
  | append_singleton us u ih =>
    intro seg post s nonempty sorted
    rw [show (us ++ [u]).length = us.length + 1 by simp, fillRun]
    split
    · refine (insertHead_spec isLess lt us u seg post s sorted).bind ?_
      rintro v s' _ ⟨seg', rfl, hall, sorted'⟩
      rw [← hall.length_eq]
      refine (ih seg' post s' (by rintro rfl; simpa using hall.length_eq) sorted').mono ?_
        fun v s'' h => h.of_perm (hall.1.append_right post)
      rintro v s'' start ⟨us', seg'', rfl, rfl, hne, hre', hsort⟩
      exact ⟨us', seg'', rfl, rfl, hne, hall.trans hre', hsort⟩
    · exact ends_ok ⟨us ++ [u], seg, rfl, by simp, nonempty, .refl _, sorted⟩

/-- The runs on the stack, bottom first, tile `w` from its end at `hi` to its front. -/
def Stacked (law : Prop) (lt : T → T → Bool) : List Run → Nat → List T → Prop
  | [], _, w => w = []
  | r :: rs, hi, w => r.start + r.len = hi ∧ ∃ w' seg, w = w' ++ seg ∧ seg.length = r.len ∧
      (law → SortedBy lt seg) ∧ Stacked law lt rs r.start w'

section
variable {law : Prop} {lt}

omit isLess in
lemma Stacked.push {seg : List T} {k : Nat} (sorted : law → SortedBy lt seg) :
    ∀ {runs : List Run} {hi : Nat} {w : List T}, Stacked law lt runs hi w →
      hi = k + seg.length + w.length →
        Stacked law lt (runs ++ [⟨k, seg.length⟩]) hi (seg ++ w) := by
  intro runs
  induction runs with
  | nil =>
    rintro hi w rfl hhi
    exact ⟨by simpa using hhi.symm, [], seg, by simp, rfl, sorted, rfl⟩
  | cons r rs ih =>
    rintro hi w ⟨hr, w', seg', rfl, hlen, hsort, hrest⟩ hhi
    refine ⟨hr, seg ++ w', seg', by simp, hlen, hsort, ih hrest ?_⟩
    simp only [length_append] at hhi
    omega

omit isLess in
/-- Two neighbours on the stack are adjacent in the slice and may be replaced by one run. -/
lemma Stacked.join {top : List Run} {left right : Run} {k : Nat} :
    ∀ {base : List Run} {hi : Nat} {w : List T},
      Stacked law lt (base ++ right :: left :: top) hi w → hi = k + w.length →
      ∃ w₁ a b w₂, w = w₁ ++ (a ++ b) ++ w₂ ∧ left.start = k + w₁.length ∧ a.length = left.len ∧
        b.length = right.len ∧ right.start = left.start + left.len ∧
        (law → SortedBy lt a) ∧ (law → SortedBy lt b) ∧
        ∀ m, m.length = a.length + b.length → (law → SortedBy lt m) →
          Stacked law lt (base ++ ⟨left.start, left.len + right.len⟩ :: top) hi
            (w₁ ++ m ++ w₂) := by
  intro base
  induction base with
  | nil =>
    rintro hi w ⟨hr, w', b, rfl, hb, hbs, hl, w'', a, rfl, ha, has, hrest⟩ hhi
    simp only [length_append] at hhi
    refine ⟨w'', a, b, [], by simp, by omega, ha, hb, by omega, has, hbs, ?_⟩
    intro m hm hms
    simp only [append_nil]
    exact ⟨by simp only; omega, w'', m, rfl, hm.trans (by rw [ha, hb]), hms, hrest⟩
  | cons r rs ih =>
    rintro hi w ⟨hr, w', seg, rfl, hlen, hsort, hrest⟩ hhi
    simp only [length_append] at hhi
    obtain ⟨w₁, a, b, w₂, rfl, hstart, ha, hb, hadj, has, hbs, hnew⟩ := ih hrest (by omega)
    refine ⟨w₁, a, b, w₂ ++ seg, by simp, hstart, ha, hb, hadj, has, hbs, ?_⟩
    intro m hm hms
    exact ⟨hr, w₁ ++ m ++ w₂, seg, by simp, hlen, hsort, hnew m hm hms⟩

omit isLess in
lemma Stacked.top_start {k : Nat} : ∀ {runs : List Run} {hi : Nat} {w : List T},
    Stacked law lt runs hi w → hi = k + w.length → ∀ r ∈ runs.getLast?, r.start = k := by
  intro runs
  induction runs with
  | nil => simp
  | cons r rs ih =>
    rintro hi w ⟨hr, w', seg, rfl, hlen, _, hrest⟩ hhi t ht
    simp only [length_append] at hhi
    cases rs with
    | nil =>
      obtain rfl : r = t := by simpa using ht
      have : w' = [] := hrest
      subst this
      simp only [length_nil] at hhi
      omega
    | cons r' rs => exact ih hrest (by omega) t (by simpa using ht)

end

omit isLess in
lemma collapse_some {runs : List Run} {r : Nat} (h : collapse runs = some r) :
    r + 1 < runs.length := by
  simp only [collapse] at h
  split at h
  · split at h
    · obtain rfl := Option.some.inj h
      omega
    · obtain rfl := Option.some.inj h
      omega
  · cases h

variable {runs : List Run}

/-- The stack is fully collapsed once the top run starts at the front. -/
lemma collapse_none (h : collapse runs = none)
    (front : ∀ r ∈ runs.getLast?, r.start = 0) : runs.length < 2 := by
  by_contra hn
  have htop : (runAt runs (runs.length - 1)).start = 0 := by
    apply front
    rw [getLast?_eq_getElem?, runAt, getD_eq_getElem?_getD,
      getElem?_eq_getElem (show runs.length - 1 < runs.length by omega)]
    rfl
  simp only [collapse] at h
  rw [if_pos ⟨by omega, .inl htop⟩] at h
  split at h <;> cases h

/-- One pass of the inner loop: the runs `r + 1` and `r` are merged. -/
def mergeAt (cap r : Nat) (runs : List Run) (v : List T) (s : S) : Exec (List T) S (List Run) :=
  require runs[r + 1]? fun left => require runs[r]? fun right =>
  (within v left.start (right.start + right.len) fun w =>
    merge isLess cap w left.len s).bind fun v s _ =>
  .ok v s ((runs.set r ⟨left.start, left.len + right.len⟩).eraseIdx (r + 1))

/-- Finds the next run before `end_` and puts it on the stack. -/
def pushRun (end_ : Nat) (runs : List Run) (v : List T) (s : S) :
    Exec (List T) S (Nat × List Run) :=
  (naturalRun isLess v end_ s).bind fun v s start =>
  (fillRun isLess end_ start v s).bind fun v s start =>
  .ok v s (start, runs ++ [⟨start, end_ - start⟩])

lemma collapseLoop_succ (cap n : Nat) (runs : List Run) (v : List T) (s : S) :
    collapseLoop isLess cap (n + 1) runs v s =
      match collapse runs with
      | none => .ok v s runs
      | some r => (mergeAt isLess cap r runs v s).bind fun v s runs =>
          collapseLoop isLess cap n runs v s := by
  rw [collapseLoop]
  cases collapse runs with
  | none => rfl
  | some r =>
    dsimp only [mergeAt]
    cases runs[r + 1]? with
    | none => rfl
    | some left =>
      cases runs[r]? with
      | none => rfl
      | some right =>
        dsimp only [require]
        rw [Exec.bind_assoc]
        rfl

lemma mergeSortLoop_succ (cap n end_ : Nat) (runs : List Run) (v : List T) (s : S) :
    mergeSortLoop isLess cap (n + 1) end_ runs v s =
      if 0 < end_ then
        (pushRun isLess end_ runs v s).bind fun v s top =>
        (collapseLoop isLess cap (runs.length + 2) top.2 v s).bind fun v s runs =>
        mergeSortLoop isLess cap n top.1 runs v s
      else if runs = [⟨0, v.length⟩] then .ok v s () else .fault := by
  rw [pushRun]
  simp only [Exec.bind_assoc]
  rfl

lemma mergeAt_spec {cap hi r : Nat} {pre w : List T} (s : S)
    (inside : r + 1 < runs.length) (hhi : hi = pre.length + w.length) (hcap : hi / 2 ≤ cap)
    (hst : Stacked (Lawful isLess lt) lt runs hi w) :
    (mergeAt isLess cap r runs (pre ++ w) s).Ends
      (fun v _ runs' => ∃ w', v = pre ++ w' ∧ Rearranged (Lawful isLess lt) lt w w' ∧
        Stacked (Lawful isLess lt) lt runs' hi w' ∧
        ∃ base right left top, runs = base ++ right :: left :: top ∧ base.length = r ∧
          runs' = base ++ ⟨left.start, left.len + right.len⟩ :: top)
      (Unwound isLess lt (pre ++ w)) := by
  obtain ⟨base, right, left, top, rfl, rfl⟩ : ∃ base right left top,
      runs = base ++ right :: left :: top ∧ r = base.length := by
    refine ⟨runs.take r, runs[r], runs[r + 1], runs.drop (r + 2), ?_, ?_⟩
    · rw [← drop_eq_getElem_cons, ← drop_eq_getElem_cons, take_append_drop]
    · simp; omega
  obtain ⟨w₁, a, b, w₂, rfl, hstart, ha, hb, hadj, has, hbs, hnew⟩ := hst.join hhi
  have hleft : (base ++ right :: left :: top)[base.length + 1]? = some left := by simp
  have hright : (base ++ right :: left :: top)[base.length]? = some right := by simp
  have hruns : ((base ++ right :: left :: top).set base.length
      ⟨left.start, left.len + right.len⟩).eraseIdx (base.length + 1) =
      base ++ ⟨left.start, left.len + right.len⟩ :: top := by
    rw [set_append_right _ _ le_rfl, eraseIdx_append_of_length_le (by simp)]
    simp
  simp only [length_append] at hhi
  refine ends_require hleft (ends_require hright ?_)
  rw [hruns]
  have h := merge_spec isLess lt cap a b s (by omega) has hbs
  rw [ha] at h
  rw [show pre ++ (w₁ ++ (a ++ b) ++ w₂) = pre ++ w₁ ++ (a ++ b) ++ w₂ by simp]
  refine ends_within_bind (by simp; omega) (by simp; omega) (.refl _) h ?_
  rintro m s' _ hm
  have hmlen : m.length = a.length + b.length := by simpa using hm.rearranged.length_eq
  exact ends_ok ⟨w₁ ++ m ++ w₂, by simp, (hm.rearranged.append_left w₁).append_right w₂,
    hnew m hmlen hm.sorted, base, right, left, top, rfl, rfl, rfl⟩

lemma collapseLoop_spec (cap hi : Nat) (pre : List T) (n : Nat) :
    ∀ (runs : List Run) (w : List T) (s : S), runs.length < n → hi = pre.length + w.length →
      hi / 2 ≤ cap → Stacked (Lawful isLess lt) lt runs hi w →
      (collapseLoop isLess cap n runs (pre ++ w) s).Ends
        (fun v _ runs' => ∃ w', v = pre ++ w' ∧ Rearranged (Lawful isLess lt) lt w w' ∧
          Stacked (Lawful isLess lt) lt runs' hi w' ∧ collapse runs' = none)
        (Unwound isLess lt (pre ++ w)) := by
  induction n with
  | zero => omega
  | succ n ih =>
    intro runs w s hn hhi hcap hst
    rw [collapseLoop_succ]
    split
    next hnone =>
      exact ends_ok ⟨w, rfl, .refl w, hst, hnone⟩
    next r hsome =>
      refine (mergeAt_spec isLess lt s (collapse_some hsome) hhi hcap hst).bind ?_
      rintro v s' runs' ⟨w', rfl, hre, hst', base, right, left, top, rfl, -, rfl⟩
      have hlen := hre.length_eq
      refine (ih _ w' s' (by simp at hn ⊢; omega) (by omega) hcap hst').mono ?_
        fun v s'' h => h.of_perm (hre.1.append_left pre)
      rintro v s'' runs' ⟨w'', rfl, hre', hst'', hnone⟩
      exact ⟨w'', rfl, hre.trans hre', hst'', hnone⟩

lemma pushRun_spec {hi : Nat} {pre w : List T} (s : S) (more : pre ≠ [])
    (hhi : hi = pre.length + w.length) (hst : Stacked (Lawful isLess lt) lt runs hi w) :
    (pushRun isLess pre.length runs (pre ++ w) s).Ends
      (fun v _ top => ∃ us w', v = us ++ w' ∧ top.1 = us.length ∧ us.length < pre.length ∧
        Rearranged (Lawful isLess lt) lt (pre ++ w) v ∧
        top.2 = runs ++ [⟨us.length, pre.length - us.length⟩] ∧
        Stacked (Lawful isLess lt) lt top.2 hi w')
      (Unwound isLess lt (pre ++ w)) := by
  refine (naturalRun_spec isLess lt pre w s more).bind ?_
  rintro v s₁ start ⟨us, seg, rfl, rfl, hseg, hre, hsort⟩
  have hfill := fillRun_spec isLess lt us seg w s₁ hseg hsort
  rw [hre.length_eq] at hfill
  refine (ends_of_perm (hre.1.append_right w) hfill).bind ?_
  rintro v s₂ start ⟨us', seg', rfl, rfl, hseg', hre', hsort'⟩
  have hre₂ := hre.trans hre'
  have hlen : pre.length = us'.length + seg'.length := by simpa using hre₂.length_eq.symm
  have hpos : 0 < seg'.length := length_pos_of_ne_nil hseg'
  have hrun : pre.length - us'.length = seg'.length := by omega
  rw [hrun, append_assoc]
  refine ends_ok ⟨us', seg' ++ w, rfl, rfl, by omega, ?_, by rw [hrun], ?_⟩
  · simpa using hre₂.append_right w
  · exact hst.push hsort' (by omega)

lemma mergeSortLoop_spec (cap hi : Nat) (n : Nat) :
    ∀ (pre w : List T) (runs : List Run) (s : S), pre.length < n → pre ++ w ≠ [] →
      hi = pre.length + w.length → hi / 2 ≤ cap → Stacked (Lawful isLess lt) lt runs hi w →
      collapse runs = none →
      (mergeSortLoop isLess cap n pre.length runs (pre ++ w) s).Ends
        (fun v _ _ => Rearranged (Lawful isLess lt) lt (pre ++ w) v ∧
          (Lawful isLess lt → SortedBy lt v))
        (Unwound isLess lt (pre ++ w)) := by
  induction n with
  | zero => omega
  | succ n ih =>
    intro pre w runs s hn nonempty hhi hcap hst hnone
    rw [mergeSortLoop_succ]
    split
    next more =>
      refine (pushRun_spec isLess lt s (ne_nil_of_length_pos more) hhi hst).bind ?_
      rintro v s₁ ⟨start, runs₁⟩ ⟨us, w₁, rfl, rfl, shorter, hall, hruns, hst₁⟩
      dsimp only at hruns hst₁ ⊢
      have length : us.length + w₁.length = hi := by simpa [hhi] using hall.length_eq
      refine (ends_of_perm hall.1 (collapseLoop_spec isLess lt cap hi us (runs.length + 2) runs₁ w₁
        s₁ (by simp [hruns]) (by omega) hcap hst₁)).bind ?_
      rintro v s₃ runs' ⟨w', rfl, hre₃, hst', hnone'⟩
      have hall' := hall.trans (hre₃.append_left us)
      have hw' := hre₃.length_eq
      refine (ih us w' runs' s₃ (by omega) ?_ (by omega) hcap hst' hnone').mono ?_
        fun _ _ h => h.of_perm hall'.1
      · exact ne_nil_of_length_pos (by simp; omega)
      · rintro v s₄ _ ⟨hre₄, hsorted⟩
        exact ⟨hall'.trans hre₄, hsorted⟩
    · obtain rfl : pre = [] := eq_nil_of_length_eq_zero (by omega)
      simp only [length_nil, nil_append] at *
      have hshort := collapse_none hnone (hst.top_start hhi)
      match runs, hshort, hst with
      | [], _, hst => exact absurd hst nonempty
      | [r], _, ⟨hr, w', seg, hw, hseg, hsort, hrest⟩ =>
        obtain rfl : w' = [] := hrest
        obtain rfl : w = seg := by simpa using hw
        have hrun : r = ⟨0, w.length⟩ := by
          have : r.start = 0 := by omega
          rw [hseg, ← this]
        rw [hrun, if_pos rfl]
        exact ends_ok ⟨.refl w, hsort⟩

lemma insertAll_spec (us : List T) : ∀ (seg : List T) (s : S),
    (Lawful isLess lt → SortedBy lt seg) →
    (insertAll isLess us.length (us ++ seg) s).Ends
      (fun v _ _ => Rearranged (Lawful isLess lt) lt (us ++ seg) v ∧
        (Lawful isLess lt → SortedBy lt v))
      (Unwound isLess lt (us ++ seg)) := by
  induction us using reverseRecOn with
  | nil =>
    intro seg s sorted
    exact ends_ok ⟨.refl _, sorted⟩
  | append_singleton us u ih =>
    intro seg s sorted
    rw [show (us ++ [u]).length = us.length + 1 by simp]
    have insert := insertHead_spec isLess lt us u seg [] s sorted
    simp only [append_nil] at insert
    refine insert.bind ?_
    rintro v s' _ ⟨seg', rfl, hall, sorted'⟩
    refine (ih seg' s' sorted').mono ?_ fun v s'' h => h.of_perm hall.1
    rintro v s'' _ ⟨hre', hsort⟩
    exact ⟨hall.trans hre', hsort⟩

lemma mergeSort_spec (layout : Layout T) (v : List T) (s : S) :
    (mergeSort layout isLess v s).Ends
      (fun v' _ _ => Rearranged (Lawful isLess lt) lt v v' ∧ (Lawful isLess lt → SortedBy lt v'))
      (Unwound isLess lt v) := by
  simp only [mergeSort]
  split
  next hsize =>
    refine ends_ok ⟨.refl v, fun law => ?_⟩
    -- all elements are equal
    exact pairwise_of_forall fun x y => by
      rw [layout.unique hsize y x, law.order.irrefl]
  · split
    · split
      · obtain ⟨us, u, rfl⟩ := (eq_nil_or_concat' v).resolve_left
          (ne_nil_of_length_pos (by omega))
        have h := insertAll_spec isLess lt us [u] s fun _ => pairwise_singleton _ _
        rwa [show (us ++ [u]).length - 1 = us.length by simp]
      next hlen =>
        refine ends_ok ⟨.refl v, fun _ => ?_⟩
        match v, hlen with
        | [], _ => exact List.Pairwise.nil
        | [u], _ => exact pairwise_singleton _ _
        | _ :: _ :: _, hlen => simp at hlen
    · have h := mergeSortLoop_spec isLess lt (v.length / 2) v.length (v.length + 1) v [] [] s
        (by omega) ?_ (by simp) le_rfl rfl rfl
      · simpa using h
      · rw [append_nil]
        exact ne_nil_of_length_pos (by omega)

end

/-- With a lawful comparison `merge_sort` returns, inside its buffer of half the slice's
length, with a sorted and stable arrangement of the slice. -/
theorem mergeSort_correct (layout : Layout T) (law : Lawful isLess lt) (v : List T) (s : S) :
    ∃ v' s', mergeSort layout isLess v s = .ok v' s' () ∧ v'.Perm v ∧ SortedBy lt v' ∧
      KeepsTies lt v v' := by
  obtain ⟨v', s', _, heq, hre, hsort⟩ :=
    (mergeSort_spec isLess lt layout v s).returns fun _ _ h => h.2 law
  exact ⟨v', s', heq, hre.1, hsort law, hre.2 law⟩

/-- Compares by the tens and counts the calls. -/
def byTens : Comparator Nat Nat := fun s x y => (some (decide (x / 10 < y / 10)), s + 1)

lemma byTens_lawful : Lawful byTens fun x y => decide (x / 10 < y / 10) where
  order := {
    irrefl := by simp
    trans := by simp only [decide_eq_true_eq]; omega
    incomparable := by simp only [decide_eq_false_iff_not]; omega }
  answers := fun _ _ _ => rfl

/-- Long enough to be cut into runs and partitions. -/
def scattered : List Nat := (range 90).map (· * 37 % 100)

theorem mergeSort_correct_byTens :
    ∃ v' s', mergeSort ⟨8, by simp⟩ byTens scattered 0 = .ok v' s' () ∧
      v'.Perm scattered ∧ SortedBy (fun x y => decide (x / 10 < y / 10)) v' ∧
      KeepsTies (fun x y => decide (x / 10 < y / 10)) scattered v' :=
  mergeSort_correct byTens _ ⟨8, by simp⟩ byTens_lawful _ _

example : mergeSort ⟨8, by simp⟩ byTens [31, 12, 35, 10, 30] 0 = .ok [12, 10, 31, 35, 30] 7 () := by
  decide

end MergeSort
