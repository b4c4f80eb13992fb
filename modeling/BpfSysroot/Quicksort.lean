import BpfSysroot.BlockPartition
import BpfSysroot.Heapsort
import BpfSysroot.MergeSort

/-!
# The unstable sort of slices

`partition`, `partition_equal`, `break_patterns`, `choose_pivot`, `recurse` and
`quicksort` of `core/slice/sort.rs`. The body of the loop of `recurse`, up to the
point where it returns, continues or splits the slice, is `pass`; the state at
the loop's head is `Head`. While the slice is partitioned its pivot is held in a
local variable and the guard writes it back, so the rest of the slice is what
the partition works on.
-/

namespace Quicksort

open Unwinding Unwinding.Exec Arrangement InsertionSort BlockPartition Heapsort SliceMemory
variable {S T : Type} {isLess : Comparator S T} {lt : T → T → Bool}

/-- A comparison with the pivot, which stands on the left if `pivotFirst`. -/
def compareWith (isLess : Comparator S T) (pivotFirst : Bool) (pivot : T) (v : List T) (s : S)
    (x : T) : Exec (List T) S Bool :=
  if pivotFirst then ask isLess v s pivot x else ask isLess v s x pivot

/-- `while l < r && is_less(..v[l]..) == want { l += 1 }`, with `n = r - l`. -/
def scanUp (isLess : Comparator S T) (pivotFirst want : Bool) (pivot : T) (v : List T) :
    Nat → Nat → S → Exec (List T) S Nat
  | 0, l, s => .ok v s l
  | n + 1, l, s =>
    require v[l]? fun x =>
    (compareWith isLess pivotFirst pivot v s x).bind fun _ s less =>
    if less = want then scanUp isLess pivotFirst want pivot v n (l + 1) s else .ok v s l

/-- `while l < r && is_less(..v[r - 1]..) == want { r -= 1 }`, with `n = r - l`. -/
def scanDown (isLess : Comparator S T) (pivotFirst want : Bool) (pivot : T) (v : List T) :
    Nat → Nat → S → Exec (List T) S Nat
  | 0, r, s => .ok v s r
  | n + 1, r, s =>
    require v[r - 1]? fun x =>
    (compareWith isLess pivotFirst pivot v s x).bind fun _ s less =>
    if less = want then scanDown isLess pivotFirst want pivot v n (r - 1) s else .ok v s r

/-- Runs `f` on all but the first element, which is saved and written back on the way out. -/
def withPivot {A : Type} (v : List T) (f : T → List T → Exec (List T) S A) : Exec (List T) S A :=
  match v with
  | [] => .fault
  | tmp :: tail => (f tmp tail).leave fun tail => some (tmp :: tail)

def partition (isLess : Comparator S T) (v : List T) (pivot : Nat) (s : S) :
    Exec (List T) S (Nat × Bool) :=
  require (trySwap v 0 pivot) fun v =>
  (withPivot v fun tmp tail =>
    (scanUp isLess false true tmp tail tail.length 0 s).bind fun tail s l =>
    (scanDown isLess false false tmp tail (tail.length - l) tail.length s).bind fun tail s r =>
    (within tail l r fun w => partitionInBlocks isLess w tmp s).bind fun tail s k =>
    .ok tail s (l + k, decide (r ≤ l))).bind fun v s r =>
  require (trySwap v 0 r.1) fun v => .ok v s r

/-- The loop of `partition_equal`, on the slice behind the pivot. -/
def partitionEqualLoop (isLess : Comparator S T) (pivot : T) :
    Nat → Nat → Nat → List T → S → Exec (List T) S Nat
  | 0, _, _, _, _ => .fault
  | n + 1, l, r, v, s =>
    (scanUp isLess true false pivot v (r - l) l s).bind fun v s l =>
    (scanDown isLess true true pivot v (r - l) r s).bind fun v s r =>
    if r ≤ l then .ok v s l
    else
      require (trySwap v l (r - 1)) fun v =>
      partitionEqualLoop isLess pivot n (l + 1) (r - 1) v s

def partitionEqual (isLess : Comparator S T) (v : List T) (pivot : Nat) (s : S) :
    Exec (List T) S Nat :=
  require (trySwap v 0 pivot) fun v =>
  withPivot v fun tmp tail =>
    (partitionEqualLoop isLess tmp (tail.length + 1) 0 tail.length tail s).bind fun tail s l =>
    .ok tail s (l + 1)

/-- One step of the xorshift generator. -/
def genU32 (random : BitVec 32) : BitVec 32 :=
  let random := random ^^^ (random <<< 13)
  let random := random ^^^ (random >>> 17)
  random ^^^ (random <<< 5)

/-- `gen_usize`, for `usize` of `bits` bits: the number and the new generator state. -/
def genUsize (bits : Nat) (random : BitVec 32) : Nat × BitVec 32 :=
  if bits ≤ 32 then
    let random := genU32 random
    (random.toNat % 2 ^ bits, random)
  else
    let high := genU32 random
    let low := genU32 high
    ((high.toNat <<< 32 ||| low.toNat) % 2 ^ bits, low)

/-- `next_power_of_two`, for `n ≥ 2`. -/
def nextPowerOfTwo (n : Nat) : Nat := 2 ^ (Nat.log2 (n - 1) + 1)

/-- `for i in 0..3`, with `n` rounds to go. -/
def breakPatternsLoop (bits modulus pos : Nat) :
    Nat → Nat → BitVec 32 → List T → Option (List T)
  | 0, _, _, v => some v
  | n + 1, i, random, v => do
    let (num, random) := genUsize bits random
    let other := num &&& (modulus - 1)
    let other := if v.length ≤ other then other - v.length else other
    let v ← trySwap v (pos - 1 + i) other
    breakPatternsLoop bits modulus pos n (i + 1) random v

def breakPatterns (bits : Nat) (v : List T) : Option (List T) :=
  let len := v.length
  if 8 ≤ len then
    breakPatternsLoop bits (nextPowerOfTwo len) (len / 4 * 2) 3 0 (BitVec.ofNat 32 len) v
  else some v

/-- Minimum length to choose the median-of-medians method. -/
def shortestMedianOfMedians : Nat := 50

/-- Maximum number of swaps that can be performed in `choose_pivot`. -/
def maxSwaps : Nat := 4 * 3

section
variable (isLess : Comparator S T) (v : List T)

/-- Swaps indices so that `v[a] <= v[b]`; gives both and the count of swaps. -/
def sort2 (a b swaps : Nat) (s : S) : Exec (List T) S (Nat × Nat × Nat) :=
  require v[b]? fun y => require v[a]? fun x =>
  (ask isLess v s y x).bind fun v s less =>
  .ok v s (if less then (b, a, swaps + 1) else (a, b, swaps))

/-- Swaps indices so that `v[a] <= v[b] <= v[c]`; gives the middle one. -/
def sort3 (a b c swaps : Nat) (s : S) : Exec (List T) S (Nat × Nat) :=
  (sort2 isLess v a b swaps s).bind fun v s r₁ =>
  (sort2 isLess v r₁.2.1 c r₁.2.2 s).bind fun v s r₂ =>
  (sort2 isLess v r₁.1 r₂.1 r₂.2.2 s).bind fun v s r₃ => .ok v s (r₃.2.1, r₃.2.2)

/-- Finds the median of `v[a - 1], v[a], v[a + 1]`. -/
def sortAdjacent (a swaps : Nat) (s : S) : Exec (List T) S (Nat × Nat) :=
  sort3 isLess v (a - 1) a (a + 1) swaps s

/-- The part of `choose_pivot` for slices of at least 8 elements. -/
def medianIndex (a b c : Nat) (s : S) : Exec (List T) S (Nat × Nat) :=
  if shortestMedianOfMedians ≤ v.length then
    (sortAdjacent isLess v a 0 s).bind fun v s ra =>
    (sortAdjacent isLess v b ra.2 s).bind fun v s rb =>
    (sortAdjacent isLess v c rb.2 s).bind fun v s rc =>
    sort3 isLess v ra.1 rb.1 rc.1 rc.2 s
  else sort3 isLess v a b c 0 s

def choosePivot (s : S) : Exec (List T) S (Nat × Bool) :=
  let len := v.length
  let a := len / 4 * 1
  let b := len / 4 * 2
  let c := len / 4 * 3
  (if 8 ≤ len then medianIndex isLess v a b c s else .ok v s (b, 0)).bind fun v s r =>
  if r.2 < maxSwaps then .ok v s (r.1, decide (r.2 = 0))
  else .ok v.reverse s (len - 1 - r.1, true)

end

/-- Slices of up to this length get sorted using insertion sort. -/
def maxInsertion : Nat := 20

/-- The local variables of `recurse` at the head of its loop. -/
structure Head (T : Type) where
  v : List T
  pred : Option T
  limit : Nat
  wasBalanced : Bool
  wasPartitioned : Bool

/-- The state in which `recurse(v, is_less, pred, limit)` enters its loop. -/
def Head.enter (v : List T) (pred : Option T) (limit : Nat) : Head T :=
  ⟨v, pred, limit, true, true⟩

/-- `limit` behind the test `!was_balanced`. -/
def Head.nextLimit (h : Head T) : Nat := if h.wasBalanced then h.limit else h.limit - 1

/-- How one pass through the loop's body ends. -/
inductive Pass where
  | done
  | equal (mid : Nat)
  | split (mid : Nat) (wasPartitioned : Bool)
  deriving DecidableEq

/-- `if let Some(p) = pred { if !is_less(p, &v[pivot]) ..`. -/
def pivotEqualsPred (isLess : Comparator S T) (pred : Option T) (v : List T) (pivot : Nat) (s : S) :
    Exec (List T) S Bool :=
  match pred with
  | none => .ok v s false
  | some p => require v[pivot]? fun x =>
    (ask isLess v s p x).bind fun v s less => .ok v s !less

def pass (isLess : Comparator S T) (bits : Nat) (h : Head T) (s : S) : Exec (List T) S Pass :=
  if h.v.length ≤ maxInsertion then
    (insertionSort isLess h.v s).bind fun v s _ => .ok v s .done
  else if h.limit = 0 then
    (heapsort isLess h.v s).bind fun v s _ => .ok v s .done
  else
    require (if h.wasBalanced then some h.v else breakPatterns bits h.v) fun v =>
    (choosePivot isLess v s).bind fun v s choice =>
    (if h.wasBalanced && h.wasPartitioned && choice.2 then partialInsertionSort isLess v s
      else .ok v s false).bind fun v s sorted =>
    if sorted then .ok v s .done
    else
      (pivotEqualsPred isLess h.pred v choice.1 s).bind fun v s equal =>
      if equal then
        (partitionEqual isLess v choice.1 s).bind fun v s mid => .ok v s (.equal mid)
      else
        (partition isLess v choice.1 s).bind fun v s r => .ok v s (.split r.1 r.2)

/-- `was_balanced` after a partition of `len` elements at `mid`. -/
def balanced (len mid : Nat) : Bool := decide (len / 8 ≤ min mid (len - mid))

/-- `left.len() < right.len()` after a split at `mid`. -/
def leftShorter (len mid : Nat) : Bool := decide (mid < len - (mid + 1))

section
variable (h : Head T) (v : List T) (mid : Nat)

/-- The head reached by `continue` after `partition_equal`. -/
def Head.rest : Head T :=
  ⟨v.drop mid, h.pred, h.nextLimit, h.wasBalanced, h.wasPartitioned⟩

/-- The recursive call on the shorter side. -/
def Head.shorter (pivot : T) : Head T :=
  if leftShorter v.length mid then .enter (v.take mid) h.pred h.nextLimit
  else .enter (v.drop (mid + 1)) (some pivot) h.nextLimit

/-- The head at which the loop goes on with the longer side. -/
def Head.longer (pivot : T) (wasPartitioned : Bool) : Head T :=
  if leftShorter v.length mid then
    ⟨v.drop (mid + 1), some pivot, h.nextLimit, balanced v.length mid, wasPartitioned⟩
  else ⟨v.take mid, h.pred, h.nextLimit, balanced v.length mid, wasPartitioned⟩

end

/-- The slice with `w` in place of `v[..mid]`, or of `v[mid + 1..]`. -/
def putSide (left : Bool) (v : List T) (mid : Nat) (w : List T) : Option (List T) :=
  some (if left then w ++ v.drop mid else v.take (mid + 1) ++ w)

def recurse (isLess : Comparator S T) (bits : Nat) : Nat → Head T → S → Exec (List T) S Unit
  | 0, _, _ => .fault
  | n + 1, h, s =>
    (pass isLess bits h s).bind fun v s p =>
    match p with
    | .done => .ok v s ()
    | .equal mid => (recurse isLess bits n (h.rest v mid) s).leave fun w => some (v.take mid ++ w)
    | .split mid wasPartitioned =>
      require v[mid]? fun pivot =>
      let left := leftShorter v.length mid
      ((recurse isLess bits n (h.shorter v mid pivot) s).leave (putSide left v mid)).bind
        fun v' s _ =>
      (recurse isLess bits n (h.longer v mid pivot wasPartitioned) s).leave (putSide (!left) v' mid)

/-- `usize::BITS - v.len().leading_zeros()`. -/
def initialLimit (len : Nat) : Nat := if len = 0 then 0 else Nat.log2 len + 1

def quicksort (layout : Layout T) (bits : Nat) (isLess : Comparator S T) (v : List T) (s : S) :
    Exec (List T) S Unit :=
  if layout.size = 0 then .ok v s ()
  else recurse isLess bits (v.length + 1) (.enter v none (initialLimit v.length)) s

/-- The lawful answer of `compareWith`. -/
def answer (lt : T → T → Bool) (pivotFirst : Bool) (pivot x : T) : Bool :=
  if pivotFirst then lt pivot x else lt x pivot

lemma ends_compareWith (isLess : Comparator S T) (lt : T → T → Bool) {pivotFirst : Bool}
    {pivot x : T} {v : List T} {s : S} {A : Type} {k : List T → S → Bool → Exec (List T) S A}
    {Q : List T → S → A → Prop} (h : ∀ s' b, (Lawful isLess lt →
      b = answer lt pivotFirst pivot x) → (k v s' b).Ends Q (Unwound isLess lt v)) :
    ((compareWith isLess pivotFirst pivot v s x).bind k).Ends Q (Unwound isLess lt v) := by
  cases pivotFirst with
  | false => exact ends_ask (fun wild s' => ⟨.refl _, wild⟩) h
  | true => exact ends_ask (fun wild s' => ⟨.refl _, wild⟩) h

lemma scanUp_spec (pivotFirst want : Bool) (pivot d : T) (v : List T) (n : Nat) :
    ∀ (l : Nat) (s : S), l + n ≤ v.length →
    (scanUp isLess pivotFirst want pivot v n l s).Ends
      (fun v' _ l' => v' = v ∧ l ≤ l' ∧ l' ≤ l + n ∧ (Lawful isLess lt →
        (∀ i, l ≤ i → i < l' → answer lt pivotFirst pivot (view d v i) = want) ∧
        (l' < l + n → answer lt pivotFirst pivot (view d v l') = !want)))
      (Unwound isLess lt v) := by
  induction n with
  | zero =>
    intro l s _
    exact ends_ok ⟨rfl, le_rfl, le_rfl, fun _ => ⟨fun i h h' => by omega, by simp⟩⟩
  | succ n ih =>
    intro l s hl
    refine ends_require (getElem?_eq_view d (by omega))
      (ends_compareWith isLess lt fun s' b hb => ?_)
    split
    next hwant =>
      refine (ih (l + 1) s' (by omega)).imp ?_
      rintro v' s'' l' ⟨rfl, hle, hlt', hlaw⟩
      refine ⟨rfl, by omega, by omega, fun law => ⟨fun i hi hi' => ?_, fun h => ?_⟩⟩
      · by_cases hil : i = l
        · rw [hil, ← hb law, hwant]
        · exact (hlaw law).1 i (by omega) hi'
      · exact (hlaw law).2 (by omega)
    next hwant =>
      refine ends_ok ⟨rfl, le_rfl, by omega, fun law => ⟨fun i hi hi' => by omega, ?_⟩⟩
      intro _
      rw [← hb law]
      exact Bool.eq_not_of_ne hwant

lemma scanDown_spec (pivotFirst want : Bool) (pivot d : T) (v : List T) (n : Nat) :
    ∀ (r : Nat) (s : S), n ≤ r → r ≤ v.length →
    (scanDown isLess pivotFirst want pivot v n r s).Ends
      (fun v' _ r' => v' = v ∧ r' ≤ r ∧ r ≤ r' + n ∧ (Lawful isLess lt →
        (∀ i, r' ≤ i → i < r → answer lt pivotFirst pivot (view d v i) = want) ∧
        (r < r' + n → answer lt pivotFirst pivot (view d v (r' - 1)) = !want)))
      (Unwound isLess lt v) := by
  induction n with
  | zero =>
    intro r s _ _
    exact ends_ok ⟨rfl, le_rfl, le_rfl, fun _ => ⟨fun i h h' => by omega, by simp⟩⟩
  | succ n ih =>
    intro r s hn hr
    refine ends_require (getElem?_eq_view d (by omega))
      (ends_compareWith isLess lt fun s' b hb => ?_)
    split
    next hwant =>
      refine (ih (r - 1) s' (by omega) (by omega)).imp ?_
      rintro v' s'' r' ⟨rfl, hle, hlt', hlaw⟩
      refine ⟨rfl, by omega, by omega, fun law => ⟨fun i hi hi' => ?_, fun h => ?_⟩⟩
      · by_cases hir : i = r - 1
        · rw [hir, ← hb law, hwant]
        · exact (hlaw law).1 i hi (by omega)
      · exact (hlaw law).2 (by omega)
    next hwant =>
      refine ends_ok ⟨rfl, le_rfl, by omega, fun law => ⟨fun i hi hi' => by omega, ?_⟩⟩
      intro _
      rw [← hb law]
      exact Bool.eq_not_of_ne hwant

/-- The pivot stays in front of whatever happens to the rest. -/
lemma ends_withPivot {A : Type} {tmp : T} {tail : List T} {f : T → List T → Exec (List T) S A}
    {Q : List T → S → A → Prop} {U : List T → S → Prop}
    (h : (f tmp tail).Ends (fun t s a => Q (tmp :: t) s a) fun t s => U (tmp :: t) s) :
    (withPivot (tmp :: tail) f).Ends Q U :=
  h.leave (fun _ _ _ hq => ⟨_, rfl, hq⟩) fun _ _ hu => ⟨_, rfl, hu⟩

/-- Exchanging the first element with the last of the front part. -/
lemma trySwap_front (p : T) (small big : List T) :
    ∃ left, left.Perm small ∧
      trySwap (p :: (small ++ big)) 0 small.length = some (left ++ p :: big) := by
  rcases List.eq_nil_or_concat' small with rfl | ⟨small, x, rfl⟩
  · exact ⟨[], .refl _, by simp [trySwap, swap]⟩
  · refine ⟨x :: small, (List.perm_append_singleton x small).symm, ?_⟩
    rw [trySwap_eq (by simp) (by simp)]
    simp [swap]

variable {mid : Nat} {p : T}
variable (lt) in
/-- The part of `partition` in which the pivot is out of the slice. -/
lemma partitionTail_spec (tmp : T) (tail : List T) (s : S) :
    ((scanUp isLess false true tmp tail tail.length 0 s).bind fun tail s l =>
      (scanDown isLess false false tmp tail (tail.length - l) tail.length s).bind fun tail s r =>
      (within tail l r fun w => partitionInBlocks isLess w tmp s).bind fun tail s k =>
      .ok tail s (l + k, decide (r ≤ l))).Ends
      (fun t _ r => ∃ small big, t = small ++ big ∧ r.1 = small.length ∧ t.Perm tail ∧
        (Lawful isLess lt → (∀ x ∈ small, lt x tmp) ∧ ∀ x ∈ big, lt x tmp = false))
      (Unwound isLess lt tail) := by
  refine (scanUp_spec false true tmp tmp tail tail.length 0 s (by simp)).bind ?_
  rintro t s₁ l ⟨rfl, -, hl, hup⟩
  refine (scanDown_spec false false tmp tmp t (t.length - l) t.length s₁ (by omega) le_rfl).bind ?_
  rintro t s₂ r ⟨rfl, hr, hlr, hdown⟩
  -- what the scans have passed stays outside of the block partition
  have hfront : Lawful isLess lt → ∀ x ∈ t.take l, lt x tmp = true :=
    fun law => forall_mem_take tmp fun i hi => (hup law).1 i (Nat.zero_le _) hi
  have hback : Lawful isLess lt → ∀ x ∈ t.drop r, lt x tmp = false :=
    fun law => forall_mem_drop tmp (hdown law).1
  have hle : l ≤ r := by omega
  refine Ends.bind (Q := fun t' _ k => ∃ w, t' = t.take l ++ w ++ t.drop r ∧ k ≤ w.length ∧
    w.Perm ((t.take r).drop l) ∧ (Lawful isLess lt → (∀ x ∈ w.take k, lt x tmp) ∧
      ∀ x ∈ w.drop k, lt x tmp = false)) ?_ ?_
  · refine ends_within_range hle hr
      ((partitionInBlocks_spec isLess lt tmp ((t.take r).drop l) s₂).mono ?_ ?_)
    · rintro w s₃ k ⟨hperm, hk, hlaw⟩
      exact ⟨w, rfl, hk, hperm, fun law => hlaw fun s x => law.answers s x tmp⟩
    · rintro w s₃ ⟨hperm, wild⟩
      exact ⟨perm_within hle hperm, fun law => wild fun s x => law.answers s x tmp⟩
  · rintro t' s₃ k ⟨w, rfl, hk, hperm, hlaw⟩
    refine ends_ok ⟨t.take l ++ w.take k, w.drop k ++ t.drop r, ?_, by simp; omega,
      perm_within hle hperm, fun law => ⟨?_, ?_⟩⟩
    · calc t.take l ++ w ++ t.drop r = t.take l ++ (w.take k ++ w.drop k) ++ t.drop r := by
            rw [List.take_append_drop]
        _ = t.take l ++ w.take k ++ (w.drop k ++ t.drop r) := by simp only [List.append_assoc]
    · intro x hx
      rcases List.mem_append.mp hx with hx | hx
      · exact hfront law x hx
      · exact (hlaw law).1 x hx
    · intro x hx
      rcases List.mem_append.mp hx with hx | hx
      · exact (hlaw law).2 x hx
      · exact hback law x hx

section
variable (v : List T)

lemma partition_spec (pivot : Nat) (s : S) (hpivot : pivot < v.length) :
    (partition isLess v pivot s).Ends
      (fun v' _ r => ∃ left p right, v' = left ++ p :: right ∧ r.1 = left.length ∧ v'.Perm v ∧
        (Lawful isLess lt → (∀ x ∈ left, lt x p) ∧ ∀ x ∈ right, lt x p = false))
      (Unwound isLess lt v) := by
  have hperm := swap_perm v 0 pivot
  refine ends_require (trySwap_eq (by omega) hpivot) ?_
  obtain ⟨tmp, tail, hw⟩ := List.exists_cons_of_length_pos
    (show 0 < (swap v 0 pivot).length by rw [length_swap]; omega)
  rw [hw] at hperm ⊢
  refine Ends.bind (Q := fun t _ r => ∃ small big, t = tmp :: (small ++ big) ∧
    r.1 = small.length ∧ t.Perm v ∧
    (Lawful isLess lt → (∀ x ∈ small, lt x tmp) ∧ ∀ x ∈ big, lt x tmp = false)) ?_ ?_
  · refine ends_withPivot ((partitionTail_spec lt tmp tail s).mono ?_ ?_)
    · rintro t s' r ⟨small, big, rfl, hr, hperm', hlaw⟩
      exact ⟨small, big, rfl, hr, (hperm'.cons tmp).trans hperm, hlaw⟩
    · rintro t s' ⟨hperm', wild⟩
      exact ⟨(hperm'.cons tmp).trans hperm, wild⟩
  · rintro t s' r ⟨small, big, rfl, hr, hperm', hlaw⟩
    obtain ⟨left, hleft, hswap⟩ := trySwap_front tmp small big
    refine ends_require (hr ▸ hswap) (ends_ok ⟨left, tmp, big, rfl, ?_, ?_, fun law => ⟨?_, ?_⟩⟩)
    · rw [hr, hleft.length_eq]
    · have hmid : (left ++ tmp :: big).Perm (tmp :: (left ++ big)) := List.perm_middle
      exact (hmid.trans ((hleft.append_right big).cons tmp)).trans hperm'
    · exact fun x hx => (hlaw law).1 x (hleft.mem_iff.mp hx)
    · exact (hlaw law).2

lemma partitionEqualLoop_stop (pivot : T) (n : Nat) {l r : Nat} (h : r ≤ l) (v : List T) (s : S) :
    partitionEqualLoop isLess pivot (n + 1) l r v s = .ok v s l := by
  simp [partitionEqualLoop, Nat.sub_eq_zero_of_le h, scanUp, scanDown, Exec.bind, h]

/-- In front of `l` nothing is above the pivot, from `r` on everything is. -/
lemma partitionEqualLoop_spec (pivot d : T) (n : Nat) : ∀ (l r : Nat) (v : List T) (s : S),
    l ≤ r → r ≤ v.length → r - l < n →
    (partitionEqualLoop isLess pivot n l r v s).Ends
      (fun v' _ l' => v'.Perm v ∧ l' ≤ v'.length ∧ (Lawful isLess lt →
        (∀ i < l, lt pivot (view d v i) = false) →
        (∀ i, r ≤ i → i < v.length → lt pivot (view d v i)) →
        (∀ i < l', lt pivot (view d v' i) = false) ∧
          ∀ i, l' ≤ i → i < v'.length → lt pivot (view d v' i)))
      (Unwound isLess lt v) := by
  induction n with
  | zero => omega
  | succ n ih =>
    intro l r v s hlr hr hn
    refine (scanUp_spec true false pivot d v (r - l) l s (by omega)).bind ?_
    rintro v s₁ l₁ ⟨rfl, hl₁, hl₁', hup⟩
    refine (scanDown_spec true true pivot d v (r - l₁) r s₁ (by omega) hr).bind ?_
    rintro v s₂ r₁ ⟨rfl, hr₁, hr₁', hdown⟩
    have hfront : Lawful isLess lt → (∀ i < l, lt pivot (view d v i) = false) →
        ∀ i < l₁, lt pivot (view d v i) = false := by
      intro law h i hi
      by_cases hil : i < l
      · exact h i hil
      · exact (hup law).1 i (by omega) hi
    have hback : Lawful isLess lt → (∀ i, r ≤ i → i < v.length → lt pivot (view d v i)) →
        ∀ i, r₁ ≤ i → i < v.length → lt pivot (view d v i) := by
      intro law h i hi hin
      by_cases hir : r ≤ i
      · exact h i hir hin
      · exact (hdown law).1 i hi (by omega)
    split
    · refine ends_ok ⟨.refl _, by omega, fun law hf hb => ⟨hfront law hf, ?_⟩⟩
      intro i hi hin
      exact hback law hb i (by omega) hin
    · have hlast : r < r₁ + (r - l₁) := by omega
      have hswap := view_swap d (v := v) (i := l₁) (j := r₁ - 1) (by omega) (by omega)
      refine ends_require (trySwap_eq (by omega) (by omega)) ?_
      have hperm := swap_perm v l₁ (r₁ - 1)
      by_cases hone : l₁ + 1 ≤ r₁ - 1
      · refine (ih (l₁ + 1) (r₁ - 1) (swap v l₁ (r₁ - 1)) s₂ hone (by rw [length_swap]; omega)
          (by omega)).mono ?_ fun _ _ h => h.of_perm hperm
        rintro v' s₃ l' ⟨hperm', hl', hlaw⟩
        refine ⟨hperm'.trans hperm, hl', fun law hf hb => hlaw law ?_ ?_⟩
        · intro i hi
          rw [hswap]
          by_cases hil : i = l₁
          · rw [hil, swapAt_left]
            exact (hdown law).2 hlast
          · rw [swapAt_of_ne _ hil (by omega)]
            exact hfront law hf i (by omega)
        · intro i hi hin
          rw [length_swap] at hin
          rw [hswap]
          by_cases hir : i = r₁ - 1
          · rw [hir, swapAt_right]
            exact (hup law).2 (by omega)
          · rw [swapAt_of_ne _ (by omega) hir]
            exact hback law hb i (by omega) hin
      · -- one element was called above the pivot and then not: the comparison is not lawful
        obtain ⟨n, rfl⟩ : ∃ m, n = m + 1 := ⟨n - 1, by omega⟩
        rw [partitionEqualLoop_stop pivot n (by omega)]
        refine ends_ok ⟨hperm, by rw [length_swap]; omega, fun law _ _ => ?_⟩
        have habove := (hup law).2 (by omega)
        have hnot := (hdown law).2 hlast
        rw [show r₁ - 1 = l₁ by omega, habove] at hnot
        cases hnot

/-- Nothing in the front part is above the pivot, everything behind it is. -/
lemma partitionEqual_spec (pivot : Nat) (s : S) (d : T) (hpivot : pivot < v.length) :
    (partitionEqual isLess v pivot s).Ends
      (fun v' _ mid => v'.Perm v ∧ 0 < mid ∧ mid ≤ v'.length ∧ (Lawful isLess lt →
        (∀ x ∈ v'.take mid, lt (view d v pivot) x = false) ∧
          ∀ x ∈ v'.drop mid, lt (view d v pivot) x))
      (Unwound isLess lt v) := by
  have hperm := swap_perm v 0 pivot
  have hhead : view d (swap v 0 pivot) 0 = view d v pivot := by
    rw [view_swap d (by omega) hpivot, swapAt_left]
  refine ends_require (trySwap_eq (by omega) hpivot) ?_
  obtain ⟨tmp, tail, hw⟩ := List.exists_cons_of_length_pos
    (show 0 < (swap v 0 pivot).length by rw [length_swap]; omega)
  rw [hw] at hperm hhead ⊢
  obtain rfl : tmp = view d v pivot := hhead
  refine ends_withPivot (Ends.bind (Ends.mono (partitionEqualLoop_spec (view d v pivot) d
    (tail.length + 1) 0 tail.length tail s (Nat.zero_le _) le_rfl (by omega))
    (fun _ _ _ h => h) fun t s' h => ⟨(h.1.cons _).trans hperm, h.2⟩) ?_)
  rintro t s' l ⟨hperm', hl, hlaw⟩
  refine ends_ok ⟨(hperm'.cons _).trans hperm, by omega, by simp; omega, fun law => ?_⟩
  obtain ⟨hfront, hback⟩ := hlaw law (by simp) fun i hi hin => by omega
  constructor
  · rw [List.take_succ_cons, List.forall_mem_cons]
    exact ⟨law.order.irrefl _, forall_mem_take d hfront⟩
  · rw [List.drop_succ_cons]
    exact forall_mem_drop d hback

lemma breakPatternsLoop_spec (bits modulus pos n : Nat) : ∀ (i : Nat) (random : BitVec 32)
    (v : List T), 0 < modulus → modulus ≤ 2 * v.length → pos - 1 + i + n ≤ v.length →
    ∃ w, breakPatternsLoop bits modulus pos n i random v = some w ∧ w.Perm v := by
  induction n with
  | zero => exact fun i random v _ _ _ => ⟨v, rfl, List.Perm.refl v⟩
  | succ n ih =>
    intro i random v hpos hmod hbound
    have hand : (genUsize bits random).1 &&& (modulus - 1) < modulus := by
      have := Nat.and_le_right (n := (genUsize bits random).1) (m := modulus - 1)
      omega
    obtain ⟨other, hdef, hother⟩ : ∃ other,
        (if v.length ≤ (genUsize bits random).1 &&& (modulus - 1)
          then ((genUsize bits random).1 &&& (modulus - 1)) - v.length
          else (genUsize bits random).1 &&& (modulus - 1)) = other ∧ other < v.length :=
      ⟨_, rfl, by split <;> omega⟩
    obtain ⟨w, hrun, hperm⟩ := ih (i + 1) (genUsize bits random).2 (swap v (pos - 1 + i) other) hpos
      (by rw [length_swap]; exact hmod) (by rw [length_swap]; omega)
    refine ⟨w, ?_, hperm.trans (swap_perm _ _ _)⟩
    simp only [breakPatternsLoop, hdef, trySwap_eq (show pos - 1 + i < v.length by omega) hother,
      Option.bind_eq_bind, Option.bind_some]
    exact hrun

lemma breakPatterns_spec (bits : Nat) (v : List T) :
    ∃ w, breakPatterns bits v = some w ∧ w.Perm v := by
  simp only [breakPatterns]
  split
  · apply breakPatternsLoop_spec
    · exact Nat.two_pow_pos _
    · have hlog := Nat.log2_self_le (n := v.length - 1) (by omega)
      rw [nextPowerOfTwo]
      omega
    · omega
  · exact ⟨v, rfl, List.Perm.refl v⟩

lemma sort2_spec (a b swaps : Nat) (s : S) (ha : a < v.length) (hb : b < v.length) :
    (sort2 isLess v a b swaps s).Ends
      (fun v' _ r => v' = v ∧ r.1 < v.length ∧ r.2.1 < v.length) (Unwound isLess lt v) := by
  refine ends_require (List.getElem?_eq_getElem hb) (ends_require (List.getElem?_eq_getElem ha)
    (ends_ask (fun wild s' => ⟨.refl _, wild⟩) fun s' less _ => ?_))
  cases less with
  | true => exact ends_ok ⟨rfl, hb, ha⟩
  | false => exact ends_ok ⟨rfl, ha, hb⟩

lemma sort3_spec (a b c swaps : Nat) (s : S) (ha : a < v.length) (hb : b < v.length)
    (hc : c < v.length) :
    (sort3 isLess v a b c swaps s).Ends (fun v' _ r => v' = v ∧ r.1 < v.length)
      (Unwound isLess lt v) := by
  refine (sort2_spec v a b swaps s ha hb).bind ?_
  rintro v s₁ r₁ ⟨rfl, h₁, h₁'⟩
  refine (sort2_spec v _ c _ s₁ h₁' hc).bind ?_
  rintro v s₂ r₂ ⟨rfl, h₂, _⟩
  refine (sort2_spec v _ _ _ s₂ h₁ h₂).bind ?_
  rintro v s₃ r₃ ⟨rfl, _, h₃⟩
  exact ends_ok ⟨rfl, h₃⟩

lemma medianIndex_spec (s : S) (hlen : 8 ≤ v.length) :
    (medianIndex isLess v (v.length / 4 * 1) (v.length / 4 * 2) (v.length / 4 * 3) s).Ends
      (fun v' _ r => v' = v ∧ r.1 < v.length) (Unwound isLess lt v) := by
  rw [medianIndex]
  split
  · refine (sort3_spec v _ _ _ 0 s (by omega) (by omega) (by omega)).bind ?_
    rintro w s₁ ra ⟨rfl, ha⟩
    refine (sort3_spec w _ _ _ ra.2 s₁ (by omega) (by omega) (by omega)).bind ?_
    rintro w s₂ rb ⟨rfl, hb⟩
    refine (sort3_spec w _ _ _ rb.2 s₂ (by omega) (by omega) (by omega)).bind ?_
    rintro w s₃ rc ⟨rfl, hc⟩
    exact sort3_spec w _ _ _ rc.2 s₃ ha hb hc
  · exact sort3_spec v _ _ _ 0 s (by omega) (by omega) (by omega)

lemma choosePivot_spec (s : S) (nonempty : 0 < v.length) :
    (choosePivot isLess v s).Ends (fun v' _ r => v'.Perm v ∧ r.1 < v'.length)
      (Unwound isLess lt v) := by
  refine Ends.bind (Q := fun v' _ r => v' = v ∧ r.1 < v.length) ?_ ?_
  · split
    next hlen =>
      exact medianIndex_spec v s hlen
    · exact ends_ok ⟨rfl, by omega⟩
  · rintro v s' r ⟨rfl, hr⟩
    split
    · exact ends_ok ⟨.refl _, hr⟩
    · exact ends_ok ⟨List.reverse_perm v, by simp; omega⟩

end

/-- No element of the slice is below its predecessor. -/
def Head.Follows (lt : T → T → Bool) (h : Head T) : Prop :=
  ∀ p ∈ h.pred, ∀ x ∈ h.v, lt x p = false

/-- What one pass has achieved when it ends as `p` says. -/
def Achieved (lt : T → T → Bool) (v : List T) : Pass → Prop
  | .done => SortedBy lt v
  | .equal mid => SortedBy lt (v.take mid) ∧ ∀ x ∈ v.take mid, ∀ y ∈ v.drop mid, lt y x = false
  | .split mid _ => ∀ p ∈ v[mid]?, (∀ x ∈ v.take mid, lt x p) ∧
      ∀ x ∈ v.drop (mid + 1), lt x p = false

/-- A pass that does not return leaves two shorter parts. -/
def Pass.Inside (len : Nat) : Pass → Prop
  | .done => True
  | .equal mid => 0 < mid ∧ mid ≤ len
  | .split mid _ => mid < len

lemma pivotEqualsPred_spec (d : T) (pred : Option T) (v : List T) (pivot : Nat) (s : S)
    (hpivot : pivot < v.length) :
    (pivotEqualsPred isLess pred v pivot s).Ends
      (fun v' _ equal => v' = v ∧ (equal → Lawful isLess lt →
        ∃ p ∈ pred, lt p (view d v pivot) = false))
      (Unwound isLess lt v) := by
  cases pred with
  | none => exact ends_ok ⟨rfl, by simp⟩
  | some p =>
    refine ends_require (getElem?_eq_view d hpivot)
      (ends_ask (fun wild s' => ⟨.refl _, wild⟩) fun s' less hless => ?_)
    refine ends_ok ⟨rfl, fun heq law => ⟨p, rfl, ?_⟩⟩
    rw [← hless law]
    simpa using heq

/-- Where the pivot is not above the predecessor it is a least element, so that the front
part of `partition_equal` holds equivalent elements only. -/
lemma achieved_equal (law : Lawful isLess lt) {p q : T} {v : List T}
    (follows : ∀ x ∈ v, lt x p = false) (hpq : lt p q = false)
    (hfront : ∀ x ∈ v.take mid, lt q x = false) (hback : ∀ x ∈ v.drop mid, lt q x) :
    Achieved lt v (.equal mid) := by
  have least : ∀ x ∈ v, lt x q = false := fun x hx => law.order.not_lt_trans hpq (follows x hx)
  refine ⟨List.pairwise_of_forall_mem_list ?_, ?_⟩
  · intro x hx y hy
    exact law.order.not_lt_trans (hfront x hx) (least y (List.mem_of_mem_take hy))
  · intro x hx y hy
    exact law.order.not_lt_trans (hfront x hx) (law.order.asymm (hback y hy))

lemma drop_past (left : List T) (p : T) (right : List T) :
    (left ++ p :: right).drop (left.length + 1) = right := by
  rw [← List.drop_drop, List.drop_left]
  rfl

lemma perm_take_append {u v w : List T} (perm : w.Perm v)
    (part : u.Perm (w.drop mid)) : (w.take mid ++ u).Perm v := by
  have whole := part.append_left (w.take mid)
  rw [List.take_append_drop] at whole
  exact whole.trans perm

lemma achieved_split {left right : List T} {wasPartitioned : Bool}
    (hleft : ∀ x ∈ left, lt x p) (hright : ∀ x ∈ right, lt x p = false) :
    Achieved lt (left ++ p :: right) (.split left.length wasPartitioned) := by
  intro q hq
  have hpq : p = q := by simpa using hq
  subst hpq
  rw [List.take_left, drop_past]
  exact ⟨hleft, hright⟩

variable (isLess lt) in
lemma pass_spec (bits : Nat) (h : Head T) (s : S) :
    (pass isLess bits h s).Ends
      (fun v _ p => v.Perm h.v ∧ p.Inside v.length ∧
        (p ≠ .done → maxInsertion < h.v.length ∧ h.limit ≠ 0) ∧
        (Lawful isLess lt → h.Follows lt → Achieved lt v p))
      (Unwound isLess lt h.v) := by
  rw [pass]
  split
  · refine (insertionSort_spec h.v s).bind ?_
    rintro v s' _ ⟨hperm, hsort⟩
    exact ends_ok ⟨hperm, trivial, by simp, fun law _ => hsort law⟩
  · split
    · refine (heapsort_spec isLess lt h.v s).bind ?_
      rintro v s' _ ⟨hperm, hsort⟩
      exact ends_ok ⟨hperm, trivial, by simp, fun law _ => hsort law⟩
    next hlimit =>
      have hgo : maxInsertion < h.v.length ∧ h.limit ≠ 0 := ⟨by omega, hlimit⟩
      obtain ⟨v₀, hv₀, hperm₀⟩ : ∃ v₀,
          (if h.wasBalanced then some h.v else breakPatterns bits h.v) = some v₀ ∧
            v₀.Perm h.v := by
        split
        · exact ⟨h.v, rfl, List.Perm.refl _⟩
        · exact breakPatterns_spec bits h.v
      have hpos : 0 < v₀.length := by
        rw [hperm₀.length_eq]
        omega
      refine ends_require hv₀
        ((ends_of_perm hperm₀ (choosePivot_spec v₀ s hpos)).bind ?_)
      rintro v₁ s₁ choice ⟨hperm₁, hpivot⟩
      have hall₁ := hperm₁.trans hperm₀
      refine Ends.bind (Q := fun v₂ _ sorted => v₂.Perm v₁ ∧
        (Lawful isLess lt → sorted = true → SortedBy lt v₂)) ?_ ?_
      · split
        · exact ends_of_perm hall₁ (partialInsertionSort_spec v₁ s₁)
        · exact ends_ok ⟨.refl _, by simp⟩
      · rintro v₂ s₂ sorted ⟨hperm₂, hsorted⟩
        have hall := hperm₂.trans hall₁
        rw [← hperm₂.length_eq] at hpivot
        split
        next hs =>
          exact ends_ok ⟨hall, trivial, by simp, fun law _ => hsorted law hs⟩
        · obtain ⟨d, hd⟩ : ∃ d, d ∈ v₂ := List.exists_mem_of_length_pos (by omega)
          refine (ends_of_perm hall (pivotEqualsPred_spec d h.pred v₂ choice.1 s₂ hpivot)).bind ?_
          rintro v₃ s₃ equal ⟨rfl, hequal⟩
          split
          next heq =>
            refine (ends_of_perm hall (partitionEqual_spec v₃ choice.1 s₃ d hpivot)).bind ?_
            rintro v₄ s₄ mid ⟨hperm₄, hmid, hmid', hlaw⟩
            refine ends_ok ⟨hperm₄.trans hall, ⟨hmid, hmid'⟩, fun _ => hgo, fun law hf => ?_⟩
            obtain ⟨p, hp, hpq⟩ := hequal heq law
            exact achieved_equal law
              (fun x hx => hf p hp x ((hperm₄.trans hall).mem_iff.mp hx)) hpq
              (hlaw law).1 (hlaw law).2
          · refine (ends_of_perm hall (partition_spec v₃ choice.1 s₃ hpivot)).bind ?_
            rintro v₄ s₄ r ⟨left, p, right, rfl, hr, hperm₄, hlaw⟩
            refine ends_ok ⟨hperm₄.trans hall, ?_, fun _ => hgo, fun law _ => ?_⟩
            · simp [Pass.Inside, hr]
            · rw [hr]
              exact achieved_split (hlaw law).1 (hlaw law).2

lemma sorted_of_sides {left right left' right' : List T} (law : Lawful isLess lt)
    (hleft : ∀ x ∈ left, lt x p) (hright : ∀ x ∈ right, lt x p = false)
    (hl : left'.Perm left) (hr : right'.Perm right) (sl : SortedBy lt left')
    (sr : SortedBy lt right') : SortedBy lt (left' ++ p :: right') := by
  have hlp : ∀ x ∈ left', lt p x = false := fun x hx => law.order.asymm (hleft x (hl.mem_iff.mp hx))
  have hrp : ∀ y ∈ right', lt y p = false := fun y hy => hright y (hr.mem_iff.mp hy)
  refine sortedBy_append.mpr ⟨sl, sortedBy_cons.mpr ⟨hrp, sr⟩, ?_⟩
  intro x hx y hy
  rcases List.mem_cons.mp hy with rfl | hy
  · exact hlp x hx
  · exact law.order.not_lt_trans (hlp x hx) (hrp y hy)

/-- Sorting one side in place, while `other` stands on the other side. -/
lemma ends_putSide {side other other' : List T} (left : Bool) {e : Exec (List T) S Unit}
    {P : List T → Prop} (hother : other'.Perm other)
    (hmid : mid = if left then side.length else other.length)
    (he : e.Ends (fun w _ _ => w.Perm side ∧ P w) (Unwound isLess lt side)) :
    (e.leave (putSide left (if left then side ++ p :: other' else other' ++ p :: side) mid)).Ends
      (fun v _ _ => ∃ w, v = (if left then w ++ p :: other' else other' ++ p :: w) ∧
        w.Perm side ∧ P w)
      (Unwound isLess lt (if left then side ++ p :: other else other ++ p :: side)) := by
  have hput : ∀ w, putSide left (if left then side ++ p :: other' else other' ++ p :: side) mid w =
      some (if left then w ++ p :: other' else other' ++ p :: w) := by
    cases left with
    | true => simp [putSide, hmid]
    | false =>
      have : mid + 1 = (other' ++ [p]).length := by simp [hmid, hother.length_eq]
      have htake : (other' ++ p :: side).take (mid + 1) = other' ++ [p] := by
        rw [this, show other' ++ p :: side = other' ++ [p] ++ side by simp, List.take_left]
      simp [putSide, htake]
  refine he.leave ?_ ?_
  · rintro w s _ ⟨hperm, hP⟩
    exact ⟨_, hput w, w, rfl, hperm, hP⟩
  · rintro w s ⟨hperm, wild⟩
    refine ⟨_, hput w, ?_, wild⟩
    cases left with
    | true => exact hperm.append (hother.cons p)
    | false => exact hother.append (hperm.cons p)

lemma recurse_spec (bits : Nat) (n : Nat) : ∀ (h : Head T) (s : S), h.v.length < n →
    (recurse isLess bits n h s).Ends
      (fun v _ _ => v.Perm h.v ∧ (Lawful isLess lt → h.Follows lt → SortedBy lt v))
      (Unwound isLess lt h.v) := by
  induction n with
  | zero => intro h s hn; omega
  | succ n ih =>
    intro h s hn
    refine (pass_spec isLess lt bits h s).bind ?_
    rintro v s' p ⟨hperm, inside, -, achieved⟩
    have hlen := hperm.length_eq
    have follows : ∀ q ∈ h.pred, h.Follows lt → ∀ x ∈ v, lt x q = false :=
      fun q hq hf x hx => hf q hq x (hperm.mem_iff.mp hx)
    cases p with
    | done => exact ends_ok ⟨hperm, achieved⟩
    | equal mid =>
      obtain ⟨hmid, hmid'⟩ := inside
      refine (ih (h.rest v mid) s' (by simp [Head.rest]; omega)).leave ?_ ?_
      · rintro w s'' _ ⟨hw, hsort⟩
        refine ⟨_, rfl, perm_take_append hperm hw, fun law hf => ?_⟩
        obtain ⟨hfront, hbetween⟩ := achieved law hf
        refine sortedBy_append.mpr ⟨hfront, hsort law ?_, ?_⟩
        · exact fun q hq x hx => follows q hq hf x (List.mem_of_mem_drop hx)
        · exact fun x hx y hy => hbetween x hx y (hw.mem_iff.mp hy)
      · rintro w s'' ⟨hw, wild⟩
        exact ⟨_, rfl, perm_take_append hperm hw, wild⟩
    | split mid wasPartitioned =>
      have hmid : mid < v.length := inside
      obtain ⟨left, q, right, rfl, rfl⟩ : ∃ left q right, v = left ++ q :: right ∧
          mid = left.length := by
        refine ⟨v.take mid, v[mid], v.drop (mid + 1), ?_, by simp; omega⟩
        rw [← List.drop_eq_getElem_cons, List.take_append_drop]
      have hdrop := drop_past left q right
      have sides : Lawful isLess lt → h.Follows lt →
          (∀ x ∈ left, lt x q) ∧ ∀ x ∈ right, lt x q = false := by
        intro law hf
        have := achieved law hf q (by simp)
        rwa [List.take_left, hdrop] at this
      refine ends_require (a := q) (by simp) ?_
      simp only [List.length_append, List.length_cons] at hlen
      -- either side is sorted by the recursion
      have part (h' : Head T) (s : S) (less : h'.v.length < n)
          (later : Lawful isLess lt → h.Follows lt → h'.Follows lt) :
          (recurse isLess bits n h' s).Ends
            (fun w _ _ => w.Perm h'.v ∧ (Lawful isLess lt → h.Follows lt → SortedBy lt w))
            (Unwound isLess lt h'.v) := by
        refine (ih h' s less).imp ?_
        rintro w s' _ ⟨hw, hsort⟩
        exact ⟨hw, fun law hf => hsort law (later law hf)⟩
      have hl (b w : Bool) (s : S) := part ⟨left, h.pred, h.nextLimit, b, w⟩ s (by simp only; omega)
        fun _ hf r hr x hx => follows r hr hf x (by simp [show x ∈ left from hx])
      have hr (b w : Bool) (s : S) := part ⟨right, some q, h.nextLimit, b, w⟩ s
        (by simp only; omega)
        fun law hf r hr => Option.some.inj hr ▸ (sides law hf).2
      have finish : ∀ left' right', left'.Perm left → right'.Perm right →
          (Lawful isLess lt → h.Follows lt → SortedBy lt left') →
          (Lawful isLess lt → h.Follows lt → SortedBy lt right') →
          (left' ++ q :: right').Perm h.v ∧
            (Lawful isLess lt → h.Follows lt → SortedBy lt (left' ++ q :: right')) :=
        fun left' right' hl' hr' sl sr => ⟨(hl'.append (hr'.cons q)).trans hperm, fun law hf =>
          sorted_of_sides law (sides law hf).1 (sides law hf).2 hl' hr' (sl law hf)
            (sr law hf)⟩
      -- the left or the right side is sorted first
      cases hside : leftShorter (left ++ q :: right).length left.length with
      | true =>
        simp only [Head.shorter, Head.longer, Head.enter, hside, if_true, List.take_left, hdrop]
        refine (ends_of_perm hperm (ends_putSide true (.refl right) rfl (hl true true s'))).bind ?_
        rintro v s'' _ ⟨left', rfl, hl', sl⟩
        refine (ends_putSide false hl' rfl (hr _ _ s'')).mono ?_
          fun _ _ hu => hu.of_perm hperm
        rintro v _ _ ⟨right', rfl, hr', sr⟩
        exact finish left' right' hl' hr' sl sr
      | false =>
        simp only [Head.shorter, Head.longer, Head.enter, hside, Bool.false_eq_true, if_false,
          List.take_left, hdrop]
        refine (ends_of_perm hperm (ends_putSide false (.refl left) rfl (hr true true s'))).bind ?_
        rintro v s'' _ ⟨right', rfl, hr', sr⟩
        refine (ends_putSide true hr' rfl (hl _ _ s'')).mono ?_
          fun _ _ hu => hu.of_perm hperm
        rintro v _ _ ⟨left', rfl, hl', sl⟩
        exact finish left' right' hl' hr' sl sr

variable (isLess lt) in
lemma quicksort_spec (layout : Layout T) (bits : Nat) (v : List T) (s : S) :
    (quicksort layout bits isLess v s).Ends
      (fun v' _ _ => v'.Perm v ∧ (Lawful isLess lt → SortedBy lt v'))
      (Unwound isLess lt v) := by
  rw [quicksort]
  split
  next hsize =>
    refine ends_ok ⟨.refl v, fun law => ?_⟩
    exact List.pairwise_of_forall fun x y => by
      rw [layout.unique hsize y x, law.order.irrefl]
  · refine (recurse_spec bits (v.length + 1) (.enter v none _) s (by simp [Head.enter])).imp ?_
    rintro v' s' _ ⟨hperm, hsort⟩
    exact ⟨hperm, fun law => hsort law (by simp [Head.Follows, Head.enter])⟩

variable (isLess) in
/-- Whatever the comparison does, neither sort loses or duplicates an element, on return or
after a panic; both terminate and stay in bounds, since `Ends` is false of a fault. -/
theorem sorts_keep_elements (layout : Layout T) (bits : Nat) (v : List T) (s : S) :
    (MergeSort.mergeSort layout isLess v s).Ends (fun v' _ _ => v'.Perm v) (fun v' _ => v'.Perm v) ∧
      (quicksort layout bits isLess v s).Ends (fun v' _ _ => v'.Perm v)
        (fun v' _ => v'.Perm v) := by
  constructor
  · exact (MergeSort.mergeSort_spec isLess (fun _ _ => false) layout v s).mono
      (fun _ _ _ h => h.1.1) fun _ _ h => h.1
  · exact (quicksort_spec isLess (fun _ _ => false) layout bits v s).mono
      (fun _ _ _ h => h.1) fun _ _ h => h.1

end Quicksort
