import BpfSysroot.Quicksort

/-!
# Sorting by a cached key

`sort_by_cached_key` calls the key function along the slice, sorts the pairs of key
and index with the unstable sort, and then brings the elements into that order by
swaps. An index whose element was swapped away is found again by following the
indices, which the swaps overwrite with where they put what they found.
-/

namespace SortByCachedKey

open Unwinding Arrangement SliceMemory
open InsertionSort (Layout)

variable {K S T : Type}

/-- `K: Ord`: a total order, with the equality that belongs to it. -/
structure KeyOrder (K : Type) where
  lt : K → K → Bool
  eq : K → K → Bool
  order : StrictWeakOrder lt
  eq_tied : ∀ a b, eq a b = tied lt a b

inductive IndexType where
  | u8
  | u16
  | u32
  | usize
  deriving DecidableEq

def IndexType.bits : IndexType → Nat
  | .u8 => 8
  | .u16 => 16
  | .u32 => 32
  | .usize => 64

/-- `size_of::<(K, t)>()` for each type of index. -/
structure PairSizes where
  size : IndexType → Nat
  positive : ∀ t, 0 < size t

def PairSizes.layout (sizes : PairSizes) (t : IndexType) : Layout (K × Nat) where
  size := sizes.size t
  unique zero := absurd zero (by have := sizes.positive t; omega)

/-- The smallest type that holds the indices, where a smaller one saves anything. -/
def PairSizes.indexType (sizes : PairSizes) (len : Nat) : IndexType :=
  if sizes.size .u8 < sizes.size .u16 ∧ len ≤ 2 ^ 8 - 1 then .u8
  else if sizes.size .u16 < sizes.size .u32 ∧ len ≤ 2 ^ 16 - 1 then .u16
  else if sizes.size .u32 < sizes.size .usize ∧ len ≤ 2 ^ 32 - 1 then .u32
  else .usize

/-- `lt` of a pair. -/
def KeyOrder.pairLt (ord : KeyOrder K) (a b : K × Nat) : Bool :=
  if !ord.eq a.1 b.1 then ord.lt a.1 b.1 else decide (a.2 < b.2)

def KeyOrder.isLess (ord : KeyOrder K) : Comparator Unit (K × Nat) :=
  fun s a b => (some (ord.pairLt a b), s)

/-- `iter().map(f)`, run to its end. -/
def callKeys (f : S → T → K × S) : List T → S → List K × S
  | [], s => ([], s)
  | x :: v, s =>
    let (k, s) := f s x
    let (keys, s) := callKeys f v s
    (k :: keys, s)

/-- The inner loop: an index below `i` is followed. -/
def follow (indices : List (K × Nat)) (i : Nat) : Nat → Nat → Option Nat
  | 0, _ => none
  | fuel + 1, index =>
    if index < i then do
      let (_, index) ← indices[index]?
      follow indices i fuel index
    else some index

def applyLoop : Nat → Nat → List (K × Nat) → List T → Option (List T)
  | 0, _, _, v => some v
  | count + 1, i, indices, v => do
    let (k, index) ← indices[i]?
    let index ← follow indices i (i + 1) index
    let v ← trySwap v i index
    applyLoop count (i + 1) (indices.set i (k, index)) v

/-- The body of the macro, for one type of index. -/
def sortByKey (ord : KeyOrder K) (sizes : PairSizes) (t : IndexType) (f : S → T → K × S)
    (v : List T) (s : S) : Option (List T × S) :=
  let (keys, s) := callKeys f v s
  let indices := keys.zipIdx.map fun (k, i) => (k, i % 2 ^ t.bits)
  match Quicksort.quicksort (sizes.layout t) 64 ord.isLess indices () with
  | .ok indices _ _ => (applyLoop v.length 0 indices v).map fun v => (v, s)
  | .panic _ _ => none
  | .fault => none

def sortByCachedKey (ord : KeyOrder K) (sizes : PairSizes) (f : S → T → K × S) (v : List T)
    (s : S) : Option (List T × S) :=
  if v.length < 2 then some (v, s)
  else sortByKey ord sizes (sizes.indexType v.length) f v s

section

def indexAt (indices : List (K × Nat)) (p : Nat) : Nat := (indices[p]?.map Prod.snd).getD 0

variable {indices : List (K × Nat)} {i : Nat}

lemma getElem?_eq_indexAt {p : Nat} (h : p < indices.length) :
    ∃ k, indices[p]? = some (k, indexAt indices p) := by
  refine ⟨indices[p].1, ?_⟩
  simp [indexAt, List.getElem?_eq_getElem h]

lemma indexAt_set (h : i < indices.length) (k : K)
    (t p : Nat) : indexAt (indices.set i (k, t)) p = if p = i then t else indexAt indices p := by
  by_cases here : p = i
  · rw [if_pos here, here, indexAt, List.getElem?_set_self h]
    rfl
  · rw [if_neg here, indexAt, List.getElem?_set_ne (Ne.symm here), indexAt]

/-- Indices below `i` lead up from `p` to `c`. -/
inductive Leads (next : Nat → Nat) (i : Nat) : Nat → Nat → Prop
  | stop {p} (above : i ≤ p) : Leads next i p p
  | step {p c} (below : p < i) (up : p < next p) (rest : Leads next i (next p) c) : Leads next i p c

lemma Leads.above {next : Nat → Nat} {i p c : Nat} (h : Leads next i p c) : i ≤ c := by
  induction h with
  | stop above => exact above
  | step _ _ _ ih => exact ih

/-- With an index for `i` itself, what led there goes on to it. -/
lemma Leads.extend {next next' : Nat → Nat} {i p c : Nat} (h : Leads next i p c)
    (same : ∀ j < i, next' j = next j) (up : c = i → i < next' i) :
    Leads next' (i + 1) p (if c = i then next' i else c) := by
  induction h with
  | @stop p above =>
    by_cases here : p = i
    · subst here
      rw [if_pos rfl]
      exact .step (by omega) (up rfl) (.stop (up rfl))
    · rw [if_neg here]
      exact .stop (by omega)
  | @step p c below up' _ ih => exact .step (by omega) (by rwa [same p below]) (by
      rw [same p below]
      exact ih up)

lemma follow_of_leads (hi : i ≤ indices.length) {p c : Nat}
    (h : Leads (indexAt indices) i p c) : ∀ fuel, i ≤ p + fuel →
      follow indices i (fuel + 1) p = some c := by
  induction h with
  | stop above =>
    intro fuel enough
    rw [follow, if_neg (by omega)]
  | @step p c below up _ ih =>
    rintro (_ | fuel) enough
    · omega
    · obtain ⟨k, hk⟩ := getElem?_eq_indexAt (show p < indices.length by omega)
      rw [follow, if_pos below, hk]
      exact ih fuel (by omega)

/-- The slice before position `i` is filled: `origin` says where each element came from, and
the indices lead to every element that has not found its place yet. -/
structure Applying (v : List T) (goal : Nat → Nat) (i : Nat) (indices : List (K × Nat))
    (cur : List T) (origin : Nat → Nat) : Prop where
  length_indices : indices.length = v.length
  length_cur : cur.length = v.length
  later : ∀ j, i ≤ j → indexAt indices j = goal j
  placed : ∀ j, j < i → origin j = goal j
  holds : ∀ j, j < v.length → cur[j]? = v[origin j]?
  leads : ∀ p, p < v.length → (∀ j, j < i → goal j ≠ p) →
    ∃ c, c < v.length ∧ Leads (indexAt indices) i p c ∧ origin c = p

lemma Applying.step {v cur : List T} {goal origin : Nat → Nat}
    (h : Applying v goal i indices cur origin) (hi : i < v.length)
    (bound : goal i < v.length) (fresh : ∀ j < i, goal j ≠ goal i) :
    ∃ k t w origin', indices[i]? = some (k, goal i) ∧
      follow indices i (i + 1) (goal i) = some t ∧ trySwap cur i t = some w ∧
      Applying v goal (i + 1) (indices.set i (k, t)) w origin' := by
  have inside : i < indices.length := by rw [h.length_indices]; exact hi
  obtain ⟨t, ht, leads, origin_t⟩ := h.leads (goal i) bound fresh
  have above := leads.above
  obtain ⟨k, hk⟩ := getElem?_eq_indexAt inside
  rw [h.later i le_rfl] at hk
  have hcur : i < cur.length ∧ t < cur.length := by rw [h.length_cur]; exact ⟨hi, ht⟩
  refine ⟨k, t, swap cur i t, swapAt origin i t, hk, follow_of_leads (by omega) leads _ (by omega),
    trySwap_eq hcur.1 hcur.2, ?_⟩
  refine ⟨by simpa using h.length_indices, by simpa using h.length_cur, ?_, ?_, ?_, ?_⟩
  · intro j hj
    rw [indexAt_set inside, if_neg (by omega)]
    exact h.later j (by omega)
  · intro j hj
    rcases Nat.lt_succ_iff_lt_or_eq.mp hj with before | rfl
    · rw [swapAt_of_ne _ (by omega) (by omega)]
      exact h.placed j before
    · rw [swapAt_left, origin_t]
  · intro j hj
    rw [getElem?_swap hcur.1 hcur.2]
    simp only [swapAt]
    split
    · exact h.holds t ht
    · split
      · exact h.holds i hi
      · exact h.holds j hj
  · intro p hp unplaced
    obtain ⟨c, hc, leads, rfl⟩ := h.leads p hp fun j hj => unplaced j (by omega)
    -- `t` is where the element of `i` was, so the chase for another one does not end there
    have apart : c ≠ t := by
      rintro rfl
      exact unplaced i (by omega) origin_t.symm
    refine ⟨if c = i then t else c, by split <;> omega, ?_, ?_⟩
    · have set_i : indexAt (indices.set i (k, t)) i = t := by
        rw [indexAt_set inside, if_pos rfl]
      have kept (j : Nat) (hj : j < i) : indexAt (indices.set i (k, t)) j = indexAt indices j := by
        rw [indexAt_set inside, if_neg (by omega)]
      have longer := leads.extend kept fun here => by omega
      rwa [set_i] at longer
    · split
      next here =>
        rw [swapAt_right, here]
      next here =>
        exact swapAt_of_ne _ here apart

lemma applyLoop_spec {v : List T} {goal : Nat → Nat} (bound : ∀ i < v.length, goal i < v.length)
    (distinct : ∀ i j, i < j → j < v.length → goal i ≠ goal j) (count : Nat) :
    ∀ i (indices : List (K × Nat)) cur origin, i + count = v.length →
      Applying v goal i indices cur origin → ∃ w, applyLoop count i indices cur = some w ∧
        w.length = v.length ∧ ∀ j < v.length, w[j]? = v[goal j]? := by
  induction count with
  | zero =>
    intro i indices cur origin upto h
    refine ⟨cur, rfl, h.length_cur, ?_⟩
    intro j hj
    rw [h.holds j hj, h.placed j (by omega)]
  | succ count ih =>
    intro i indices cur origin upto h
    obtain ⟨k, t, w, origin', read, found, swapped, next⟩ :=
      h.step (by omega) (bound i (by omega)) fun j hj => distinct j i hj (by omega)
    obtain ⟨u, run, rest⟩ := ih (i + 1) _ w origin' (by omega) next
    refine ⟨u, ?_, rest⟩
    rw [applyLoop, read]
    simp only [Option.bind_eq_bind, Option.bind_some, found, swapped, run]

end

section
variable (ord : KeyOrder K)

/-- Not behind, by key. -/
def KeyOrder.le (a b : T × K) : Bool := !ord.lt b.2 a.2

lemma pairLt_eq (a b : K × Nat) :
    ord.pairLt a b = (ord.lt a.1 b.1 || !ord.lt b.1 a.1 && decide (a.2 < b.2)) := by
  rw [KeyOrder.pairLt, ord.eq_tied, tied]
  grind

lemma isLess_lawful : Lawful ord.isLess ord.pairLt where
  order := by
    have trans := ord.order.trans
    have not_lt_trans {x y z : K} := ord.order.not_lt_trans (x := x) (y := y) (z := z)
    constructor
    · simp [pairLt_eq, ord.order.irrefl]
    · simp only [pairLt_eq]
      grind
    · simp only [pairLt_eq]
      grind
  answers _ _ _ := rfl

/-- Sorted by key and then by position is the stable sort. -/
lemma stable_of_sorted {keyed : List (T × K)} {indexed : List ((T × K) × Nat)}
    (perm : indexed.Perm keyed.zipIdx)
    (sorted : SortedBy ord.pairLt (indexed.map fun p => (p.1.2, p.2))) :
    indexed.map Prod.fst = keyed.mergeSort ord.le := by
  have trans (a b c : T × K) (hab : ord.le a b) (hbc : ord.le b c) :
      ord.le a c := by
    simp only [KeyOrder.le, Bool.not_eq_true'] at *
    exact ord.order.not_lt_trans hab hbc
  have total (a b : T × K) : (ord.le a b || ord.le b a) := by
    have := ord.order.asymm (x := a.2) (y := b.2)
    simp only [KeyOrder.le]
    grind
  have pairwise : indexed.Pairwise fun a b => List.zipIdxLE ord.le a b := by
    refine (List.pairwise_map.mp sorted).imp ?_
    intro a b
    rw [pairLt_eq, List.zipIdxLE, KeyOrder.le, KeyOrder.le]
    grind
  rw [← List.mergeSort_zipIdx]
  congr 1
  apply List.Perm.eq_of_pairwise ?_ pairwise
    (List.pairwise_mergeSort (List.zipIdxLE_trans trans) (List.zipIdxLE_total total) _)
    (perm.trans (List.mergeSort_perm _ _).symm)
  intro a b ha hb hab hba
  have ha := List.mem_zipIdx_iff_getElem?.mp (perm.mem_iff.mp ha)
  have hb := List.mem_zipIdx_iff_getElem?.mp (List.mem_mergeSort.mp hb)
  have same : a.2 = b.2 := by
    rw [List.zipIdxLE] at hab hba
    grind
  rw [← same, ha] at hb
  exact Prod.ext (Option.some.inj hb) same

end

section
variable (f : S → T → K × S)

lemma length_callKeys (v : List T) : ∀ s, (callKeys f v s).1.length = v.length := by
  induction v with
  | nil => exact fun _ => rfl
  | cons x v ih => exact fun s => congrArg (· + 1) (ih (f s x).2)

/-- The key function, with a record of the elements it was called on. -/
def logged (s : List T × S) (x : T) : K × (List T × S) :=
  ((f s.2 x).1, (s.1 ++ [x], (f s.2 x).2))

lemma callKeys_logged (v : List T) : ∀ log s, callKeys (logged f) v (log, s) =
    ((callKeys f v s).1, (log ++ v, (callKeys f v s).2)) := by
  induction v with
  | nil => exact fun log s => by simp [callKeys]
  | cons x v ih =>
    simp only [callKeys, logged, ih]
    simp

end

/-- The indices of a permutation put the elements in its order. -/
lemma applyLoop_indexed {v : List T} {keys : List K} (same : keys.length = v.length)
    {indexed : List ((T × K) × Nat)} (perm : indexed.Perm (v.zip keys).zipIdx) :
    applyLoop v.length 0 (indexed.map fun p => (p.1.2, p.2)) v =
      some (indexed.map fun p => p.1.1) := by
  have length : indexed.length = v.length := by
    rw [perm.length_eq, List.length_zipIdx, List.length_zip, same, Nat.min_self]
  have goal (i : Nat) (hi : i < v.length) :
      indexAt (indexed.map fun p => (p.1.2, p.2)) i = (indexed[i]).2 := by
    simp [indexAt, length, hi]
  have source (i : Nat) (hi : i < v.length) : v[(indexed[i]).2]? = some (indexed[i]).1.1 := by
    have member := perm.mem_iff.mp (List.getElem_mem (show i < indexed.length by omega))
    exact (List.getElem?_zip_eq_some.mp (List.mem_zipIdx_iff_getElem?.mp member)).1
  have bound (i : Nat) (hi : i < v.length) :
      indexAt (indexed.map fun p => (p.1.2, p.2)) i < v.length := by
    rw [goal i hi]
    exact (List.getElem?_eq_some_iff.mp (source i hi)).1
  have distinct (i j : Nat) (hij : i < j) (hj : j < v.length) :
      indexAt (indexed.map fun p => (p.1.2, p.2)) i ≠
        indexAt (indexed.map fun p => (p.1.2, p.2)) j := by
    have nodup : (indexed.map Prod.snd).Nodup := by
      rw [(perm.map Prod.snd).nodup_iff, List.zipIdx_map_snd]
      exact List.nodup_range'
    rw [goal i (by omega), goal j hj]
    exact List.pairwise_iff_getElem.mp (List.pairwise_map.mp nodup) i j (by omega) (by omega) hij
  have start : Applying v (indexAt (indexed.map fun p => (p.1.2, p.2))) 0
      (indexed.map fun p => (p.1.2, p.2)) v id :=
    ⟨by simpa using length, rfl, fun _ _ => rfl, fun _ hj => absurd hj (by omega), fun _ _ => rfl,
      fun p hp _ => ⟨p, hp, .stop (Nat.zero_le p), rfl⟩⟩
  obtain ⟨w, run, hw, holds⟩ := applyLoop_spec bound distinct v.length 0 _ v id (zero_add _) start
  rw [run]
  apply congrArg some
  apply List.ext_getElem?
  intro j
  by_cases hj : j < v.length
  · rw [holds j hj, goal j hj, source j hj]
    simp [length, hj]
  · rw [List.getElem?_eq_none (by omega), List.getElem?_eq_none (by simp; omega)]

lemma sortByKey_spec (ord : KeyOrder K) (sizes : PairSizes) (t : IndexType) (f : S → T → K × S)
    (v : List T) (s : S) (fits : v.length ≤ 2 ^ t.bits) :
    sortByKey ord sizes t f v s =
      some (((v.zip (callKeys f v s).1).mergeSort ord.le).map Prod.fst, (callKeys f v s).2) := by
  have same := length_callKeys f v s
  have whole : (callKeys f v s).1.zipIdx.map (fun (k, i) => (k, i % 2 ^ t.bits)) =
      (callKeys f v s).1.zipIdx := by
    conv_rhs => rw [← List.map_id (callKeys f v s).1.zipIdx]
    apply List.map_congr_left
    intro p hp
    have := List.snd_lt_of_mem_zipIdx hp
    exact Prod.ext rfl (Nat.mod_eq_of_lt (by omega))
  have keyed : (v.zip (callKeys f v s).1).zipIdx.map (fun p => (p.1.2, p.2)) =
      (callKeys f v s).1.zipIdx := by
    have second : (v.zip (callKeys f v s).1).map Prod.snd = (callKeys f v s).1 :=
      List.map_snd_zip (le_of_eq same)
    conv_rhs => rw [← second, List.zipIdx_map]
    rfl
  obtain ⟨sorted, s', _, run, perm, sortedBy⟩ :=
    (Quicksort.quicksort_spec ord.isLess ord.pairLt (sizes.layout t) 64
      (callKeys f v s).1.zipIdx ()).returns fun _ _ unwound => unwound.2 (isLess_lawful ord)
  obtain ⟨indexed, rfl, reordered⟩ : ∃ indexed : List ((T × K) × Nat),
      sorted = indexed.map (fun p => (p.1.2, p.2)) ∧
        indexed.Perm (v.zip (callKeys f v s).1).zipIdx := by
    rw [← keyed] at perm
    exact (congrFun (congrFun (List.eq_map_comp_perm _) sorted) _).mpr perm
  have stable := stable_of_sorted ord reordered (sortedBy (isLess_lawful ord))
  have applied := applyLoop_indexed same reordered
  rw [sortByKey]
  simp only [whole, run, applied, Option.map_some, ← stable, List.map_map]
  rfl

lemma length_le_indexType (sizes : PairSizes) {len : Nat} (fits : len < 2 ^ 64) :
    len ≤ 2 ^ (sizes.indexType len).bits := by
  rw [PairSizes.indexType]
  split
  · simp only [IndexType.bits]
    omega
  split
  · simp only [IndexType.bits]
    omega
  split
  · simp only [IndexType.bits]
    omega
  · simp only [IndexType.bits]
    omega

/-- The slice ends up as its stable sort by the keys, for every type of index. A slice of two or
more elements calls the key function once for each of them, in their order; a shorter one does
not call it. -/
theorem sort_by_cached_key_stable (ord : KeyOrder K) (sizes : PairSizes) (f : S → T → K × S)
    (v : List T) (s : S) (fits : v.length < 2 ^ 64) :
    sortByCachedKey ord sizes (logged f) v ([], s) =
      some (((v.zip (callKeys f v s).1).mergeSort ord.le).map Prod.fst,
        if v.length < 2 then ([], s) else (v, (callKeys f v s).2)) := by
  rw [sortByCachedKey]
  split
  next short =>
    match v, short with
    | [], _ => simp
    | [x], _ => simp [callKeys]
  · rw [sortByKey_spec ord sizes _ (logged f) v ([], s) (length_le_indexType sizes fits),
      callKeys_logged, List.nil_append]

lemma parity_order : StrictWeakOrder fun a b : Nat => decide (a % 2 < b % 2) := by
  constructor
  · simp
  · simp only [decide_eq_true_eq]
    omega
  · simp only [decide_eq_false_iff_not]
    omega

lemma parity_tied (a b : Nat) :
    (a % 2 == b % 2) = tied (fun a b : Nat => decide (a % 2 < b % 2)) a b := by
  simp only [tied]
  grind

/-- Numbers by their parity, the even ones first. -/
def parity : KeyOrder Nat where
  lt a b := decide (a % 2 < b % 2)
  eq a b := a % 2 == b % 2
  order := parity_order
  eq_tied := parity_tied

def words : PairSizes := ⟨fun _ => 16, fun _ => by decide⟩

theorem sort_by_cached_key_parity : [3, 4, 1, 2].length < 2 ^ 64 ∧
    sortByCachedKey parity words (logged fun s x => (x, s + x)) [3, 4, 1, 2] ([], 0) =
      some ([4, 2, 3, 1], ([3, 4, 1, 2], 10)) := by
  rw [sort_by_cached_key_stable parity words (fun s x => (x, s + x)) [3, 4, 1, 2] 0 (by decide)]
  simp [callKeys, List.mergeSort, KeyOrder.le, parity]

/-- A slice of one element never calls the key function. -/
theorem sort_by_cached_key_single :
    sortByCachedKey parity words (logged fun s x => (x, s + 1)) [5] ([], 0) = some ([5], ([], 0)) :=
  rfl

end SortByCachedKey
