import BpfSysroot.InsertionSort

/-!
# Block partition of the slice sorting module

`partition_in_blocks` of `core/slice/sort.rs`. A block on each side is traced
for elements on the wrong side of the pivot, whose offsets are recorded in an
array, and recorded elements are exchanged by one cyclic move. Pointers into the
slice are positions; reads of unwritten offsets, positions outside the slice and
the differences of pointers that would be negative are faults.
-/

namespace BlockPartition

open Unwinding Unwinding.Exec InsertionSort SliceMemory
open Option (bind_eq_bind bind_some)
open List (getElem?_eq_getElem length_append length_singleton mem_cons mem_cons_of_mem map_cons
  of_mem_zip take_append_drop mem_append mem_of_mem_take mem_map mem_map_of_mem)
variable {S T : Type} {isLess : Comparator S T} {lt : T → T → Bool}

/-- Number of elements in a typical block. -/
def block : Nat := 128

/-- `r.offset(-(off as isize) - 1)`, which must not leave the slice. -/
def before (r off : Nat) : Option Nat := if off < r then some (r - off - 1) else none

/-- An `offsets` array with the `start` and `end` pointers into it. -/
structure Offsets where
  cells : List (Option Nat)
  start : Nat
  end_ : Nat

def Offsets.uninit : Offsets := ⟨List.replicate block none, 0, 0⟩

/-- Both pointers are set back to the front of the array. -/
def Offsets.reset (o : Offsets) : Offsets := { o with start := 0, end_ := 0 }

def Offsets.width (o : Offsets) : Nat := o.end_ - o.start

/-- `*end = i as u8; end = end.offset(marked as isize)`. -/
def Offsets.record (o : Offsets) (i : Nat) : Option Offsets := do
  let cells ← write o.cells o.end_ (some (i % 256))
  some { o with cells }

def Offsets.advance (o : Offsets) (marked : Bool) : Offsets :=
  if marked then { o with end_ := o.end_ + 1 } else o

def Offsets.read (o : Offsets) (i : Nat) : Option Nat := o.cells[i]?.join

/-- The tracing loop of one side, with `n` elements to go. An offset is kept when the
comparison with the pivot answers `mark`. -/
def traceBlock (isLess : Comparator S T) (pivot : T) (v : List T) (elem : Nat → Option T)
    (mark : Bool) : Nat → Nat → Offsets → S → Exec (List T) S Offsets
  | 0, _, o, s => .ok v s o
  | n + 1, i, o, s =>
    require (o.record i) fun o =>
    require (elem i) fun x =>
    (ask isLess v s x pivot).bind fun _ s less =>
    traceBlock isLess pivot v elem mark n (i + 1) (o.advance (less == mark)) s

/-- Traces `n` elements from the left side for elements not less than the pivot. -/
def traceLeft (isLess : Comparator S T) (pivot : T) (v : List T) (l n : Nat) (o : Offsets) (s : S) :
    Exec (List T) S Offsets :=
  traceBlock isLess pivot v (fun i => v[l + i]?) false n 0 o.reset s

/-- Traces `n` elements from the right side for elements less than the pivot. -/
def traceRight (isLess : Comparator S T) (pivot : T) (v : List T) (r n : Nat) (o : Offsets)
    (s : S) : Exec (List T) S Offsets :=
  traceBlock isLess pivot v (fun i => (before r i).bind fun q => v[q]?) true n 0 o.reset s

/-- The local variables of the partition loop. -/
structure Blocks where
  l : Nat
  r : Nat
  blockL : Nat
  blockR : Nat
  offsL : Offsets
  offsR : Offsets

namespace Blocks

variable (b : Blocks)

/-- `left!()`. -/
def left : Option Nat := do
  let off ← b.offsL.read b.offsL.start
  some (b.l + off)

/-- `right!()`. -/
def right : Option Nat := do
  let off ← b.offsR.read b.offsR.start
  before b.r off

def nextLeft : Blocks := { b with offsL.start := b.offsL.start + 1 }

def nextRight : Blocks := { b with offsR.start := b.offsR.start + 1 }

/-- Adjusts the block sizes so that both blocks cover the remaining gap, with the
`debug_assert`s on the result. -/
def adjust : Option Blocks := do
  let pendL := b.offsL.start < b.offsL.end_
  let pendR := b.offsR.start < b.offsR.end_
  let gap := b.r - b.l
  let rem ← if pendL ∨ pendR then (if block ≤ gap then some (gap - block) else none) else some gap
  let b' := if pendL then { b with blockR := rem }
    else if pendR then { b with blockL := rem }
    else { b with blockL := rem / 2, blockR := rem - rem / 2 }
  if b'.blockL ≤ block ∧ b'.blockR ≤ block ∧ gap = b'.blockL + b'.blockR then some b' else none

/-- Moves on to the next block on each side that has no offsets left. -/
def finish : Option Blocks := do
  let b := if b.offsL.start = b.offsL.end_ then { b with l := b.l + b.blockL } else b
  if b.offsR.start = b.offsR.end_ then
    if b.blockR ≤ b.r then some { b with r := b.r - b.blockR } else none
  else some b

end Blocks

/-- `for _ in 1..count`, with `n` rounds to go. -/
def cycleLoop : Nat → List T → Blocks → Option (List T × Blocks)
  | 0, v, b => some (v, b)
  | n + 1, v, b => do
    let q ← b.right
    let b := b.nextLeft
    let p ← b.left
    let x ← v[p]?
    let v ← write v q x
    let b := b.nextRight
    let q ← b.right
    let y ← v[q]?
    let v ← write v p y
    cycleLoop n v b

/-- The cyclic permutation of `count` recorded elements of each side. -/
def cycle (count : Nat) (v : List T) (b : Blocks) : Option (List T × Blocks) :=
  if 0 < count then do
    let p ← b.left
    let tmp ← v[p]?
    let q ← b.right
    let y ← v[q]?
    let v ← write v p y
    let (v, b) ← cycleLoop (count - 1) v b
    let q ← b.right
    let v ← write v q tmp
    some (v, b.nextLeft.nextRight)
  else some (v, b)

/-- The block-by-block loop. -/
def partitionLoop (isLess : Comparator S T) (pivot : T) :
    Nat → List T → Blocks → S → Exec (List T) S Blocks
  | 0, _, _, _ => .fault
  | n + 1, v, b, s =>
    if b.r < b.l then .fault
    else
      let isDone := b.r - b.l ≤ 2 * block
      require (if isDone then b.adjust else some b) fun b =>
      (if b.offsL.start = b.offsL.end_ then traceLeft isLess pivot v b.l b.blockL b.offsL s
        else .ok v s b.offsL).bind fun v s offsL =>
      (if b.offsR.start = b.offsR.end_ then traceRight isLess pivot v b.r b.blockR b.offsR s
        else .ok v s b.offsR).bind fun v s offsR =>
      let count := min offsL.width offsR.width
      require (cycle count v { b with offsL, offsR }) fun moved =>
      require moved.2.finish fun b =>
      if isDone then .ok moved.1 s b else partitionLoop isLess pivot n moved.1 b s

/-- Moves the remaining elements of the left block to the far right; gives the final `r`. -/
def sweepLeft : Nat → List T → Blocks → Option (List T × Nat)
  | 0, v, b => some (v, b.r)
  | n + 1, v, b => do
    let off ← b.offsL.read (b.offsL.end_ - 1)
    let q ← before b.r 0
    let v ← trySwap v (b.l + off) q
    sweepLeft n v { b with r := b.r - 1, offsL.end_ := b.offsL.end_ - 1 }

/-- Moves the remaining elements of the right block to the far left; gives the final `l`. -/
def sweepRight : Nat → List T → Blocks → Option (List T × Nat)
  | 0, v, b => some (v, b.l)
  | n + 1, v, b => do
    let off ← b.offsR.read (b.offsR.end_ - 1)
    let q ← before b.r off
    let v ← trySwap v b.l q
    sweepRight n v { b with l := b.l + 1, offsR.end_ := b.offsR.end_ - 1 }

/-- What is left after the loop: at most one block with recorded elements. -/
def sweep (v : List T) (b : Blocks) : Option (List T × Nat) :=
  if b.offsL.start < b.offsL.end_ then
    if b.r - b.l = b.blockL then sweepLeft b.offsL.width v b else none
  else if b.offsR.start < b.offsR.end_ then
    if b.r - b.l = b.blockR then sweepRight b.offsR.width v b else none
  else some (v, b.l)

def partitionInBlocks (isLess : Comparator S T) (v : List T) (pivot : T) (s : S) :
    Exec (List T) S Nat :=
  (partitionLoop isLess pivot (v.length + 1) v
    ⟨0, v.length, block, block, .uninit, .uninit⟩ s).bind fun v s b =>
  require (sweep v b) fun r => .ok r.1 s r.2

/-- The comparison with the pivot always answers, and answers as `lt` does; nothing is said of other
comparisons. -/
def Answers (isLess : Comparator S T) (lt : T → T → Bool) (pivot : T) : Prop :=
  ∀ s x, (isLess s x pivot).1 = some (lt x pivot)

/-- What a panic leaves behind: the elements of `v`, and the comparison to blame. -/
def Stopped (isLess : Comparator S T) (lt : T → T → Bool) (pivot : T) (v : List T) :
    List T → S → Prop :=
  fun v' _ => v'.Perm v ∧ ¬ Answers isLess lt pivot

lemma Stopped.of_perm {pivot : T} {v w v' : List T} {s : S} (h : Stopped isLess lt pivot w v' s)
    (hw : w.Perm v) : Stopped isLess lt pivot v v' s :=
  ⟨h.1.trans hw, h.2⟩

/-- The array holds exactly the offsets `ps` between its two pointers. -/
structure Holds (o : Offsets) (ps : List Nat) : Prop where
  size : o.cells.length = block
  count : o.start + ps.length = o.end_
  fits : o.end_ ≤ block
  cells : (o.cells.take o.end_).drop o.start = ps.map some

namespace Holds
variable {o : Offsets} {p : Nat} {ps : List Nat}

section
variable (h : Holds o ps)
include h

lemma width_eq : o.width = ps.length := by
  have := h.count
  rw [Offsets.width]
  omega

lemma start_lt_end : o.start < o.end_ ↔ ps ≠ [] := by
  have := h.count
  rw [← List.length_pos_iff_ne_nil]
  omega

lemma start_eq_end : o.start = o.end_ ↔ ps = [] := by
  have := h.count
  rw [← List.length_eq_zero_iff]
  omega

lemma read_eq {k : Nat} (hk : k < ps.length) : o.read (o.start + k) = some ps[k] := by
  have hcount := h.count
  have hcell : o.cells[o.start + k]? = some (some ps[k]) := by
    have := congrArg (fun l => l[k]?) h.cells
    simp only [List.getElem?_drop, List.getElem?_map, getElem?_eq_getElem hk,
      Option.map_some] at this
    rwa [List.getElem?_take_of_lt (by omega)] at this
  simp [Offsets.read, hcell]

end

lemma read_first (h : Holds o (p :: ps)) : o.read o.start = some p :=
  h.read_eq (k := 0) (by simp)

lemma read_last (h : Holds o (ps ++ [p])) : o.read (o.end_ - 1) = some p := by
  have hcount := h.count
  have hread := h.read_eq (k := ps.length) (by simp)
  rw [length_append, length_singleton] at hcount
  rw [show o.end_ - 1 = o.start + ps.length by omega, hread]
  simp

lemma tail (h : Holds o (p :: ps)) : Holds { o with start := o.start + 1 } ps where
  size := h.size
  count := by have := h.count; simp only [List.length_cons] at this ⊢; omega
  fits := h.fits
  cells := by
    have := congrArg (List.drop 1) h.cells
    simpa using this

lemma dropLast (h : Holds o (ps ++ [p])) : Holds { o with end_ := o.end_ - 1 } ps := by
  have hcount := h.count
  rw [length_append, length_singleton] at hcount
  refine ⟨h.size, by simp only; omega, by have := h.fits; simp only; omega, ?_⟩
  have hcells := congrArg (List.take ps.length) h.cells
  rw [List.take_drop, List.take_take] at hcells
  rw [show min (o.start + ps.length) o.end_ = o.end_ - 1 by omega] at hcells
  simpa using hcells

lemma reset (h : Holds o ps) : Holds o.reset [] :=
  ⟨h.size, rfl, Nat.zero_le _, rfl⟩

end Holds

lemma holds_uninit : Holds .uninit [] := ⟨by simp [Offsets.uninit], rfl, Nat.zero_le _, rfl⟩

/-- One tracing step: the offset is written behind the recorded ones, then kept or not. -/
lemma Holds.record {o : Offsets} {ps : List Nat} (h : Holds o ps) {i : Nat} (hi : i < block)
    (room : o.end_ < block) : ∃ o', o.record i = some o' ∧
      ∀ marked, Holds (o'.advance marked) (if marked then ps ++ [i] else ps) ∧
        (o'.advance marked).end_ ≤ o.end_ + 1 := by
  have hsize := h.size
  have hcount := h.count
  have hmod : i % 256 = i := Nat.mod_eq_of_lt (by rw [block] at hi; omega)
  refine ⟨{ o with cells := o.cells.set o.end_ (some i) }, ?_, ?_⟩
  · simp [Offsets.record, write, hsize, room, hmod]
  · have hkeep : ((o.cells.set o.end_ (some i)).take o.end_).drop o.start = ps.map some := by
      rw [List.take_set_of_le le_rfl]
      exact h.cells
    intro marked
    cases marked with
    | false =>
      exact ⟨⟨by simpa [Offsets.advance] using hsize, hcount, h.fits, hkeep⟩, Nat.le_succ _⟩
    | true =>
      refine ⟨⟨by simpa [Offsets.advance] using hsize, ?_, room, ?_⟩, le_rfl⟩
      · simp only [Offsets.advance, if_true, length_append, length_singleton]
        omega
      · have hlt : o.end_ < (o.cells.set o.end_ (some i)).length := by simpa [hsize] using room
        have htake : (o.cells.set o.end_ (some i)).take (o.end_ + 1) =
            (o.cells.set o.end_ (some i)).take o.end_ ++ [some i] := by
          rw [List.take_succ_eq_append_getElem hlt]
          simp
        simp only [Offsets.advance, if_true]
        rw [htake, List.drop_append_of_le_length, hkeep]
        · simp
        · simp only [List.length_take, List.length_set, hsize]
          omega

variable (isLess lt)

lemma traceBlock_spec (pivot : T) (v : List T) (elem : Nat → Option T) (x : Nat → T)
    (mark : Bool) (n : Nat) : ∀ (i : Nat) (o : Offsets) (ps : List Nat) (s : S), Holds o ps →
    o.end_ ≤ i → i + n ≤ block → (∀ k < i + n, elem k = some (x k)) →
    (traceBlock isLess pivot v elem mark n i o s).Ends
      (fun v' _ o' => v' = v ∧ ∃ qs, Holds o' (ps ++ qs) ∧ qs.Pairwise (· < ·) ∧
        (∀ q ∈ qs, i ≤ q ∧ q < i + n) ∧
        (Answers isLess lt pivot → ∀ k, i ≤ k → k < i + n → (k ∈ qs ↔ lt (x k) pivot = mark)))
      (Stopped isLess lt pivot v) := by
  induction n with
  | zero =>
    intro i o ps s holds _ _ _
    exact ends_ok ⟨rfl, [], by simpa using holds, List.Pairwise.nil, by simp, by
      omega⟩
  | succ n ih =>
    intro i o ps s holds hend hn helem
    obtain ⟨o', hrec, hadv⟩ := holds.record (i := i) (by omega) (by omega)
    refine ends_require hrec (ends_require (helem i (by omega)) (ends_ask_of
      (fun law => law s (x i)) (fun wild s' => ⟨.refl _, wild⟩) fun s' less hless => ?_))
    obtain ⟨holds', hend'⟩ := hadv (less == mark)
    refine (ih (i + 1) _ _ s' holds' (by omega) (by omega) fun k hk => helem k (by omega)).imp ?_
    rintro v' s'' o'' ⟨rfl, qs, hqs, hinc, hrange, hmark⟩
    refine ⟨rfl, ?_⟩
    by_cases hm : less = mark
    · -- the offset `i` was kept
      simp only [hm, beq_self_eq_true, if_true, List.append_assoc, List.singleton_append] at hqs
      refine ⟨i :: qs, hqs, List.pairwise_cons.mpr ⟨fun q hq => (hrange q hq).1, hinc⟩, ?_, ?_⟩
      · intro q hq
        rcases List.mem_cons.mp hq with rfl | hq
        · omega
        · have := hrange q hq
          omega
      · intro law k hk hk'
        by_cases hki : k = i
        · subst hki
          simp [← hless law, hm]
        · rw [mem_cons, hmark law k (by omega) (by omega)]
          simp [hki]
    · have hbeq : (less == mark) = false := by simpa using hm
      simp only [hbeq, Bool.false_eq_true, if_false] at hqs
      refine ⟨qs, hqs, hinc, fun q hq => by have := hrange q hq; omega, ?_⟩
      intro law k hk hk'
      by_cases hki : k = i
      · subst hki
        rw [← hless law]
        exact ⟨fun hmem => by have := hrange k hmem; omega, fun h => absurd h hm⟩
      · exact hmark law k (by omega) (by omega)

/-- Of the first `n` offsets, `ps` are those with property `P`, in ascending order. -/
structure Marked (law : Prop) (n : Nat) (ps : List Nat) (P : Nat → Prop) : Prop where
  increasing : ps.Pairwise (· < ·)
  below : ∀ p ∈ ps, p < n
  exact : law → ∀ k, k < n → (k ∈ ps ↔ P k)

/-- One side: the offset `k` stands for position `f k`, and those that answer `mark` are kept. A
side that has offsets left is not traced again. -/
lemma traceEither_spec (d pivot : T) (v : List T) {elem : Nat → Option T} {f : Nat → Nat}
    (mark : Bool) {n : Nat} {o : Offsets} {ps : List Nat} (s : S) (holds : Holds o ps)
    (hn : n ≤ block) (inside : ∀ k < n, elem k = some (view d v (f k)))
    (kept : ps ≠ [] →
      Marked (Answers isLess lt pivot) n ps fun k => lt (view d v (f k)) pivot = mark) :
    (if o.start = o.end_ then traceBlock isLess pivot v elem mark n 0 o.reset s
      else .ok v s o).Ends
      (fun v' _ o' => v' = v ∧ ∃ qs, Holds o' qs ∧
        Marked (Answers isLess lt pivot) n qs fun k => lt (view d v (f k)) pivot = mark)
      (Stopped isLess lt pivot v) := by
  split
  · refine (traceBlock_spec isLess lt pivot v _ (fun k => view d v (f k)) mark n 0 o.reset [] s
      holds.reset le_rfl (by omega) fun k hk => inside k (by omega)).imp ?_
    rintro v' s' o' ⟨rfl, qs, hqs, hinc, hrange, hmark⟩
    exact ⟨rfl, qs, hqs, hinc, fun q hq => by have := hrange q hq; omega,
      fun law k hk => hmark law k (Nat.zero_le _) (by omega)⟩
  next hne =>
    exact ends_ok ⟨rfl, ps, holds, kept fun h => hne (holds.start_eq_end.mpr h)⟩

section

/-- The cyclic move as exchanges: the saved element sits at `hole`, and each pair `(p, q)`
moves it to `p` and then on to `q`. -/
def rotate (w : List T) (hole : Nat) : List (Nat × Nat) → List T
  | [] => w
  | (p, q) :: pairs => rotate (swap (swap w hole p) p q) q pairs

lemma rotate_perm (pairs : List (Nat × Nat)) : ∀ (w : List T) (hole : Nat),
    (rotate w hole pairs).Perm w := by
  induction pairs with
  | nil => exact fun w _ => List.Perm.refl w
  | cons pq pairs ih =>
    intro w hole
    exact (ih _ _).trans ((swap_perm _ _ _).trans (swap_perm _ _ _))

/-- The pairs join a position in front of `m` with one behind it, and none occurs twice. -/
structure Apart (n m : Nat) (pairs : List (Nat × Nat)) : Prop where
  front : ∀ x ∈ pairs, x.1 < m
  back : ∀ x ∈ pairs, m ≤ x.2 ∧ x.2 < n
  fsts : (pairs.map Prod.fst).Nodup
  snds : (pairs.map Prod.snd).Nodup

variable {pairs : List (Nat × Nat)}

lemma Apart.tail {n m : Nat} {x : Nat × Nat} (h : Apart n m (x :: pairs)) : Apart n m pairs where
  front := fun y hy => h.front y (mem_cons_of_mem _ hy)
  back := fun y hy => h.back y (mem_cons_of_mem _ hy)
  fsts := (List.nodup_cons.mp h.fsts).2
  snds := (List.nodup_cons.mp h.snds).2

lemma Apart.head_not_mem {n m p q : Nat} (h : Apart n m ((p, q) :: pairs)) :
    (p ∉ pairs.map Prod.fst ∧ q ∉ pairs.map Prod.fst) ∧
      p ∉ pairs.map Prod.snd ∧ q ∉ pairs.map Prod.snd := by
  have hp : p < m := h.front (p, q) (by simp)
  have hq : m ≤ q := (h.back (p, q) (by simp)).1
  refine ⟨⟨(List.nodup_cons.mp h.fsts).1, fun hmem => ?_⟩, fun hmem => ?_,
    (List.nodup_cons.mp h.snds).1⟩
  · obtain ⟨x, hx, rfl⟩ := List.mem_map.mp hmem
    have := h.front x (mem_cons_of_mem _ hx)
    omega
  · obtain ⟨x, hx, rfl⟩ := mem_map.mp hmem
    have := (h.back x (mem_cons_of_mem _ hx)).1
    omega

/-- Exchanging each pair's kinds of element: what was kept in front of `m` by mistake (`kind`
true) goes behind it, and the other way round. -/
lemma rotate_kind (d : T) (kind : T → Bool) {m hole : Nat} {w : List T}
    (hhole : hole < w.length) (apart : Apart w.length m pairs) (hne : ∀ x ∈ pairs, x.2 ≠ hole)
    (hkind : kind (view d w hole))
    (hpairs : ∀ x ∈ pairs, kind (view d w x.1) ∧ kind (view d w x.2) = false) (i : Nat) :
    kind (view d (rotate w hole pairs) i) =
      if i ∈ pairs.map Prod.fst then false
      else if i ∈ pairs.map Prod.snd then true else kind (view d w i) := by
  induction pairs generalizing w hole with
  | nil => simp [rotate]
  | cons pq pairs ih =>
    obtain ⟨p, q⟩ := pq
    have hp : p < m := apart.front (p, q) (by simp)
    obtain ⟨hmq, hqn⟩ : m ≤ q ∧ q < w.length := apart.back (p, q) (by simp)
    have hqh : q ≠ hole := hne (p, q) (by simp)
    obtain ⟨hkp, hkq⟩ : kind (view d w p) ∧ kind (view d w q) = false := hpairs (p, q) (by simp)
    have hview : view d (swap (swap w hole p) p q) = swapAt (swapAt (view d w) hole p) p q := by
      rw [view_swap d (by simp; omega) (by simpa using hqn), view_swap d hhole (by omega)]
    -- the kinds after the two exchanges
    have hnew : ∀ k, kind (view d (swap (swap w hole p) p q) k) =
        if k = p then false else if k = q then true else kind (view d w k) := by
      intro k
      rw [hview]
      by_cases hkp' : k = p
      · subst hkp'
        rw [swapAt_left, swapAt_of_ne _ hqh (by omega)]
        simpa using hkq
      · by_cases hkq' : k = q
        · subst hkq'
          simp [hkind, hkp']
        · rw [swapAt_of_ne _ hkp' hkq']
          by_cases hkh : k = hole
          · subst hkh
            simp [hkp, hkind, hkp']
          · rw [swapAt_of_ne _ hkh hkp']
            simp [hkp', hkq']
    obtain ⟨⟨hpf, hqf⟩, hps, hqs⟩ := apart.head_not_mem
    have hlen : (swap (swap w hole p) p q).length = w.length := by simp
    rw [rotate, ih (by omega) (hlen ▸ apart.tail)
      (fun x hx => ne_of_mem_of_not_mem (mem_map_of_mem hx) hqs) (by rw [hnew]; simp; omega) ?_]
    · simp only [map_cons, mem_cons, hnew]
      by_cases hip : i = p
      · simp [hip, hpf, hps]
      · by_cases hiq : i = q
        · simp [hiq, hqf, hqs, show q ≠ p by omega]
        · simp [hip, hiq]
    · intro x hx
      have hx₁ : x.1 ∈ pairs.map Prod.fst := mem_map_of_mem hx
      have hx₂ : x.2 ∈ pairs.map Prod.snd := mem_map_of_mem hx
      rw [hnew, hnew]
      simpa [ne_of_mem_of_not_mem hx₁ hpf, ne_of_mem_of_not_mem hx₁ hqf,
        ne_of_mem_of_not_mem hx₂ hps, ne_of_mem_of_not_mem hx₂ hqs]
        using hpairs x (mem_cons_of_mem _ hx)

/-- The positions that the next offsets of both sides point at. -/
def pairsOf (l r : Nat) (ps qs : List Nat) : List (Nat × Nat) :=
  (ps.zip qs).map fun x => (l + x.1, r - x.2 - 1)

lemma left_eq {b : Blocks} {p : Nat} {ps : List Nat} (h : Holds b.offsL (p :: ps)) :
    b.left = some (b.l + p) := by
  simp [Blocks.left, h.read_first]

lemma right_eq {b : Blocks} {q : Nat} {qs : List Nat} (h : Holds b.offsR (q :: qs))
    (hq : q < b.r) : b.right = some (b.r - q - 1) := by
  simp [Blocks.right, h.read_first, before, hq]

/-- The block variables after `n` offsets of both sides are used up. -/
def Blocks.skip (b : Blocks) (n : Nat) : Blocks :=
  { b with offsL.start := b.offsL.start + n, offsR.start := b.offsR.start + n }

section
variable (b : Blocks)
include b

@[simp] theorem nextLeft_l : b.nextLeft.l = b.l := rfl
@[simp] theorem nextLeft_r : b.nextLeft.r = b.r := rfl
@[simp] theorem nextRight_l : b.nextRight.l = b.l := rfl
@[simp] theorem nextRight_r : b.nextRight.r = b.r := rfl
@[simp] theorem skip_zero : b.skip 0 = b := rfl

lemma nextLeft_nextRight_skip (n : Nat) : b.nextLeft.nextRight.skip n = b.skip (n + 1) := by
  simp only [Blocks.skip, Blocks.nextLeft, Blocks.nextRight, add_assoc, add_comm 1 n]

lemma skip_nextLeft_nextRight (n : Nat) : (b.skip n).nextLeft.nextRight = b.skip (n + 1) := rfl

end

/-- Filling the hole with the saved element turns one copy into an exchange. -/
lemma set_hole_eq_swap {v : List T} {hole p : Nat} {x : T} (tmp : T) (hhole : hole < v.length)
    (hx : v[p]? = some x) (hne : p ≠ hole) :
    (v.set hole x).set p tmp = swap (v.set hole tmp) hole p := by
  have hp : (v.set hole tmp)[p]? = some x := by
    rw [List.getElem?_set_ne (Ne.symm hne)]
    exact hx
  have hh : (v.set hole tmp)[hole]? = some tmp := by simp [hhole]
  simp [swap, hp, hh]

lemma cycleLoop_spec (tmp : T) (restL restR : List Nat) (n : Nat) :
    ∀ (v : List T) (b : Blocks) (p q : Nat) (ps qs : List Nat),
    Holds b.offsL (p :: ps ++ restL) → Holds b.offsR (q :: qs ++ restR) →
    ps.length = n → qs.length = n → b.r ≤ v.length →
    (∀ x ∈ p :: ps, ∀ y ∈ q :: qs, b.l + x + y + 1 < b.r) →
    ∃ v' hole, cycleLoop n v b = some (v', b.skip n) ∧ (b.skip n).right = some hole ∧
      hole < v'.length ∧ v'.length = v.length ∧
      Holds (b.skip (n + 1)).offsL restL ∧ Holds (b.skip (n + 1)).offsR restR ∧
      v'.set hole tmp =
        rotate (v.set (b.r - q - 1) tmp) (b.r - q - 1) (pairsOf b.l b.r ps qs) := by
  induction n with
  | zero =>
    intro v b p q ps qs hL hR hps hqs hr hgap
    obtain rfl := List.eq_nil_of_length_eq_zero hps
    obtain rfl := List.eq_nil_of_length_eq_zero hqs
    have hq : b.l + p + q + 1 < b.r := hgap p (by simp) q (by simp)
    exact ⟨v, b.r - q - 1, rfl, right_eq hR (by rw [skip_zero]; omega), by omega, rfl,
      hL.tail, hR.tail, rfl⟩
  | succ n ih =>
    intro v b p q ps qs hL hR hps hqs hr hgap
    obtain ⟨p', ps, rfl⟩ := List.exists_cons_of_length_pos (l := ps) (by omega)
    obtain ⟨q', qs, rfl⟩ := List.exists_cons_of_length_pos (l := qs) (by omega)
    have hpq : b.l + p' + q + 1 < b.r := hgap p' (by simp) q (by simp)
    have hpq' : b.l + p' + q' + 1 < b.r := hgap p' (by simp) q' (by simp)
    have hhole : b.r - q - 1 < v.length := by omega
    -- one round: the element at `p'` fills the hole, the one at `q'` fills its place
    obtain ⟨x, hx⟩ : ∃ x, v[b.l + p']? = some x := ⟨_, getElem?_eq_getElem (by omega)⟩
    obtain ⟨y, hy⟩ : ∃ y, (v.set (b.r - q - 1) x)[b.r - q' - 1]? = some y :=
      ⟨_, getElem?_eq_getElem (by simp; omega)⟩
    have hw₁ : write v (b.r - q - 1) x = some (v.set (b.r - q - 1) x) := by
      simp [write, hhole]
    have hw₂ : write (v.set (b.r - q - 1) x) (b.l + p') y =
        some ((v.set (b.r - q - 1) x).set (b.l + p') y) := by
      rw [write, if_pos (by simp; omega)]
    have hstep : cycleLoop (n + 1) v b =
        cycleLoop n ((v.set (b.r - q - 1) x).set (b.l + p') y) b.nextLeft.nextRight := by
      have hleft : b.nextLeft.left = some (b.l + p') := left_eq hL.tail
      have hright : b.nextLeft.nextRight.right = some (b.r - q' - 1) :=
        right_eq hR.tail (by simp only [nextRight_r, nextLeft_r]; omega)
      simp only [cycleLoop, right_eq hR (by omega), hleft, hx, hw₁, hright, hy, hw₂,
        bind_eq_bind, bind_some]
    obtain ⟨v', hole, hrun, hright, hlt, hlen, hLend, hRend, hfill⟩ :=
      ih ((v.set (b.r - q - 1) x).set (b.l + p') y) b.nextLeft.nextRight p' q' ps qs hL.tail hR.tail
        (by simpa using hps) (by simpa using hqs) (by simpa using hr)
        (fun x hx y hy => hgap x (mem_cons_of_mem _ hx) y (mem_cons_of_mem _ hy))
    rw [nextLeft_nextRight_skip] at hrun hright hLend hRend
    refine ⟨v', hole, hstep.trans hrun, hright, hlt, by simpa using hlen, hLend, hRend, ?_⟩
    have hfirst := set_hole_eq_swap tmp hhole hx (by omega)
    have hsecond : ((v.set (b.r - q - 1) x).set (b.l + p') y).set (b.r - q' - 1) tmp =
        swap ((v.set (b.r - q - 1) x).set (b.l + p') tmp) (b.l + p') (b.r - q' - 1) :=
      set_hole_eq_swap tmp (by simp; omega) hy (by omega)
    simp only [nextRight_r, nextLeft_r, nextRight_l, nextLeft_l, hsecond, hfirst] at hfill
    exact hfill

lemma pairsOf_apart {n l r nL nR : Nat} {ps qs : List Nat} (hps : ∀ p ∈ ps, p < nL)
    (hqs : ∀ q ∈ qs, q < nR) (hgap : l + nL + nR ≤ r) (hr : r ≤ n)
    (hlen : ps.length = qs.length) (ndp : ps.Nodup) (ndq : qs.Nodup) :
    Apart n (l + nL) (pairsOf l r ps qs) ∧
      (pairsOf l r ps qs).map Prod.fst = ps.map (l + ·) ∧
      (pairsOf l r ps qs).map Prod.snd = qs.map (r - · - 1) := by
  have hfst : (pairsOf l r ps qs).map Prod.fst = ps.map (l + ·) := by
    conv_rhs => rw [← List.map_fst_zip (le_of_eq hlen)]
    simp [pairsOf]
  have hsnd : (pairsOf l r ps qs).map Prod.snd = qs.map (r - · - 1) := by
    conv_rhs => rw [← List.map_snd_zip (le_of_eq hlen.symm)]
    simp [pairsOf]
  have hmem : ∀ x ∈ pairsOf l r ps qs, ∃ p ∈ ps, ∃ q ∈ qs, x = (l + p, r - q - 1) := by
    intro x hx
    obtain ⟨y, hy, rfl⟩ := mem_map.mp hx
    exact ⟨y.1, (of_mem_zip hy).1, y.2, (of_mem_zip hy).2, rfl⟩
  refine ⟨⟨?_, ?_, ?_, ?_⟩, hfst, hsnd⟩
  · intro x hx
    obtain ⟨p, hp, q, hq, rfl⟩ := hmem x hx
    have := hps p hp
    omega
  · intro x hx
    obtain ⟨p, hp, q, hq, rfl⟩ := hmem x hx
    have := hqs q hq
    omega
  · rw [hfst]
    exact ndp.map fun a b h => by simpa using h
  · rw [hsnd]
    refine List.Nodup.map_on ?_ ndq
    intro x hx y hy heq
    have := hqs x hx
    have := hqs y hy
    omega

/-- The first `count` recorded elements of both sides change places, kind for kind. -/
lemma cycle_spec {nL nR : Nat} (v : List T) (b : Blocks) (ps qs restL restR : List Nat)
    (hL : Holds b.offsL (ps ++ restL)) (hR : Holds b.offsR (qs ++ restR))
    (hlen : ps.length = qs.length) (hps : ∀ p ∈ ps, p < nL) (hqs : ∀ q ∈ qs, q < nR)
    (hgap : b.l + nL + nR ≤ b.r) (hr : b.r ≤ v.length) (ndp : ps.Nodup) (ndq : qs.Nodup) :
    ∃ w, cycle ps.length v b = some (w, b.skip ps.length) ∧
      Holds (b.skip ps.length).offsL restL ∧ Holds (b.skip ps.length).offsR restR ∧ w.Perm v ∧
      ∀ (d : T) (kind : T → Bool), (∀ p ∈ ps, kind (view d v (b.l + p)) = true) →
        (∀ q ∈ qs, kind (view d v (b.r - q - 1)) = false) →
        ∀ i, kind (view d w i) = if i ∈ ps.map (b.l + ·) then false
          else if i ∈ qs.map (b.r - · - 1) then true else kind (view d v i) := by
  cases ps with
  | nil =>
    obtain rfl := List.eq_nil_of_length_eq_zero hlen.symm
    exact ⟨v, rfl, hL, hR, .refl v, by simp⟩
  | cons p ps =>
    obtain ⟨q, qs, rfl⟩ := List.exists_cons_of_length_pos (l := qs) (by simp [← hlen])
    have hp : p < nL := hps p (by simp)
    have hq : q < nR := hqs q (by simp)
    have hpl : b.l + p < v.length := by omega
    have hql : b.r - q - 1 < v.length := by omega
    obtain ⟨tmp, htmp⟩ : ∃ tmp, v[b.l + p]? = some tmp := ⟨_, getElem?_eq_getElem hpl⟩
    obtain ⟨y, hy⟩ : ∃ y, v[b.r - q - 1]? = some y := ⟨_, getElem?_eq_getElem hql⟩
    obtain ⟨v', hole, hrun, hright, hlt, hlen', hLend, hRend, hfill⟩ :=
      cycleLoop_spec tmp restL restR ps.length (v.set (b.l + p) y) b p q ps qs hL hR rfl
        (by simpa using hlen.symm) (by simpa using hr) (fun x hx z hz => by
          have := hps x hx
          have := hqs z hz
          omega)
    -- the first copy and the saved element make an exchange as well
    have hstart : (v.set (b.l + p) y).set (b.r - q - 1) tmp =
        swap (swap v (b.l + p) (b.l + p)) (b.l + p) (b.r - q - 1) := by
      rw [swap_self]
      simp [swap, htmp, hy]
    rw [hstart] at hfill
    have hfill : v'.set hole tmp = rotate v (b.l + p) (pairsOf b.l b.r (p :: ps) (q :: qs)) := hfill
    refine ⟨v'.set hole tmp, ?_, hLend, hRend, hfill ▸ rotate_perm _ _ _, ?_⟩
    · have hw₁ : write v (b.l + p) y = some (v.set (b.l + p) y) := by simp [write, hpl]
      have hw₂ : write v' hole tmp = some (v'.set hole tmp) := by simp [write, hlt]
      simp only [cycle, List.length_cons, Nat.zero_lt_succ, if_true, Nat.add_sub_cancel, left_eq hL,
        htmp, right_eq hR (show q < b.r by omega), hy, hw₁, hrun, hright, hw₂,
        skip_nextLeft_nextRight, bind_eq_bind, bind_some]
    · intro d kind hkp hkq i
      obtain ⟨apart, hfst, hsnd⟩ := pairsOf_apart hps hqs hgap hr hlen ndp ndq
      rw [hfill, rotate_kind d kind hpl apart ?_ (hkp p (by simp)) ?_, hfst, hsnd]
      · intro x hx heq
        have := (apart.back x hx).1
        omega
      · intro x hx
        obtain ⟨z, hz, rfl⟩ := List.mem_map.mp hx
        exact ⟨hkp _ (of_mem_zip hz).1, hkq _ (of_mem_zip hz).2⟩

end

section

/-- Everything in front of `l` is less than the pivot, nothing from `r` on is. -/
structure Settled (lt : T → T → Bool) (pivot d : T) (v : List T) (l r : Nat) : Prop where
  front : ∀ i, i < l → lt (view d v i) pivot
  back : ∀ i, r ≤ i → i < v.length → lt (view d v i) pivot = false

/-- The two blocks fit between `l` and `r`; a block with offsets has been traced. -/
structure Ready (law : Prop) (lt : T → T → Bool) (pivot d : T) (v : List T) (b : Blocks)
    (ps qs : List Nat) : Prop where
  holdL : Holds b.offsL ps
  holdR : Holds b.offsR qs
  inside : b.r ≤ v.length
  fits : b.l + b.blockL + b.blockR ≤ b.r
  sizeL : b.blockL ≤ block
  sizeR : b.blockR ≤ block
  markL : ps ≠ [] → Marked law b.blockL ps fun k => lt (view d v (b.l + k)) pivot = false
  markR : qs ≠ [] → Marked law b.blockR qs fun k => lt (view d v (b.r - k - 1)) pivot
  settled : law → Settled lt pivot d v b.l b.r

structure Traced (law : Prop) (lt : T → T → Bool) (pivot d : T) (v : List T) (b : Blocks)
    (ps qs : List Nat) : Prop extends Ready law lt pivot d v b ps qs where
  tracedL : Marked law b.blockL ps fun k => lt (view d v (b.l + k)) pivot = false
  tracedR : Marked law b.blockR qs fun k => lt (view d v (b.r - k - 1)) pivot = true

variable {law : Prop} {lt} {pivot d : T} {v w : List T} {b : Blocks} {ps qs : List Nat}

lemma Marked.nodup {n : Nat} {P : Nat → Prop} (h : Marked law n ps P) : ps.Nodup :=
  h.increasing.imp ne_of_lt

/-- The offsets behind the first `count` are those that still have the property. -/
lemma Marked.drop {n : Nat} {P Q : Nat → Prop} (h : Marked law n ps P) (count : Nat)
    (hQ : law → ∀ k < n, (Q k ↔ k ∉ ps.take count ∧ P k)) : Marked law n (ps.drop count) Q := by
  refine ⟨h.increasing.sublist (List.drop_sublist _ _),
    fun p hp => h.below p (List.mem_of_mem_drop hp), fun hl k hk => ?_⟩
  have hnd := h.nodup
  rw [← take_append_drop count ps] at hnd
  have hsplit : k ∈ ps ↔ k ∈ ps.take count ∨ k ∈ ps.drop count := by
    conv_lhs => rw [← take_append_drop count ps]
    exact mem_append
  have hdisj : k ∈ ps.take count → k ∉ ps.drop count :=
    fun h₁ h₂ => (List.nodup_append.mp hnd).2.2 k h₁ k h₂ rfl
  rw [hQ hl k hk, ← h.exact hl k hk]
  tauto

/-- The two blocks change as the cyclic move says, and nothing else does. -/
lemma Traced.cycle (h : Traced law lt pivot d v b ps qs) {count : Nat}
    (hps : count ≤ ps.length) (hqs : count ≤ qs.length) :
    ∃ w, BlockPartition.cycle count v b = some (w, b.skip count) ∧ w.Perm v ∧
      Traced law lt pivot d w (b.skip count) (ps.drop count) (qs.drop count) := by
  have hL := h.holdL
  have hR := h.holdR
  have ndp := h.tracedL.nodup
  have ndq := h.tracedR.nodup
  rw [← take_append_drop count ps] at hL ndp
  rw [← take_append_drop count qs] at hR ndq
  have hbelowL : ∀ p ∈ ps.take count, p < b.blockL :=
    fun p hp => h.tracedL.below p (mem_of_mem_take hp)
  have hbelowR : ∀ q ∈ qs.take count, q < b.blockR :=
    fun q hq => h.tracedR.below q (mem_of_mem_take hq)
  have hfits := h.fits
  have hinside := h.inside
  obtain ⟨w, hcycle, hL', hR', hperm, hkind⟩ := cycle_spec v b (ps.take count) (qs.take count)
    (ps.drop count) (qs.drop count) hL hR (by simp; omega) hbelowL hbelowR hfits hinside
    (List.nodup_append.mp ndp).1 (List.nodup_append.mp ndq).1
  rw [List.length_take, min_eq_left hps] at hcycle hL' hR'
  have hlen := hperm.length_eq
  -- under the law, the kinds of all positions after the move
  have hlt : law → ∀ i, lt (view d w i) pivot =
      if i ∈ (ps.take count).map (b.l + ·) then true
      else if i ∈ (qs.take count).map (b.r - · - 1) then false else lt (view d v i) pivot := by
    intro hl i
    have hi := hkind d (fun x => !lt x pivot) (fun p hp => by
        simpa using (h.tracedL.exact hl p (hbelowL p hp)).mp (mem_of_mem_take hp))
      (fun q hq => by
        simpa using (h.tracedR.exact hl q (hbelowR q hq)).mp (mem_of_mem_take hq)) i
    have hflip := congrArg (fun x => !x) hi
    simp only [Bool.not_not] at hflip
    rw [hflip]
    split
    · rfl
    · split
      · rfl
      · simp
  have notFront : ∀ i, (i < b.l ∨ b.l + b.blockL ≤ i) → i ∉ (ps.take count).map (b.l + ·) := by
    rintro i hi hmem
    obtain ⟨p, hp, rfl⟩ := List.mem_map.mp hmem
    have := hbelowL p hp
    omega
  have notBack : ∀ i, (i < b.r - b.blockR ∨ b.r ≤ i) → i ∉ (qs.take count).map (b.r - · - 1) := by
    rintro i hi hmem
    obtain ⟨q, hq, rfl⟩ := List.mem_map.mp hmem
    have := hbelowR q hq
    omega
  have markL : Marked law b.blockL (ps.drop count)
      fun k => lt (view d w (b.l + k)) pivot = false := by
    refine h.tracedL.drop count fun hl k hk => ?_
    have hmem : b.l + k ∈ (ps.take count).map (b.l + ·) ↔ k ∈ ps.take count := by
      rw [mem_map]
      constructor
      · rintro ⟨p, hp, heq⟩
        rwa [show k = p by omega]
      · exact fun hk' => ⟨k, hk', rfl⟩
    rw [hlt hl, if_neg (notBack _ (by omega))]
    simp only [hmem]
    by_cases hk' : k ∈ ps.take count <;> simp [hk']
  have markR : Marked law b.blockR (qs.drop count)
      fun k => lt (view d w (b.r - k - 1)) pivot = true := by
    refine h.tracedR.drop count fun hl k hk => ?_
    have hmem : b.r - k - 1 ∈ (qs.take count).map (b.r - · - 1) ↔ k ∈ qs.take count := by
      rw [mem_map]
      constructor
      · rintro ⟨q, hq, heq⟩
        have := hbelowR q hq
        rwa [show k = q by omega]
      · exact fun hk' => ⟨k, hk', rfl⟩
    rw [hlt hl, if_neg (notFront _ (by omega))]
    simp only [hmem]
    by_cases hk' : k ∈ qs.take count <;> simp [hk']
  refine ⟨w, hcycle, hperm, ⟨⟨hL', hR', hlen ▸ hinside, hfits, h.sizeL, h.sizeR,
    fun _ => markL, fun _ => markR, fun hl => ?_⟩, markL, markR⟩⟩
  have old := h.settled hl
  refine ⟨fun i hi => ?_, fun i hi hin => ?_⟩
  · have hi' : i < b.l := hi
    rw [hlt hl, if_neg (notFront i (.inl hi)), if_neg (notBack i (by omega))]
    exact old.front i hi
  · have hi' : b.r ≤ i := hi
    rw [hlt hl, if_neg (notFront i (by omega)), if_neg (notBack i (.inr hi))]
    exact old.back i hi (by omega)

/-- The state between two rounds: at most one block still has offsets. -/
structure Between (law : Prop) (lt : T → T → Bool) (pivot d : T) (v : List T) (b : Blocks)
    (ps qs : List Nat) : Prop where
  holdL : Holds b.offsL ps
  holdR : Holds b.offsR qs
  order : b.l ≤ b.r
  inside : b.r ≤ v.length
  one : ps = [] ∨ qs = []
  markL : ps ≠ [] → Marked law b.blockL ps fun k => lt (view d v (b.l + k)) pivot = false
  markR : qs ≠ [] → Marked law b.blockR qs fun k => lt (view d v (b.r - k - 1)) pivot
  settled : law → Settled lt pivot d v b.l b.r

lemma Traced.finish (h : Traced law lt pivot d v b ps qs) (one : ps = [] ∨ qs = []) :
    ∃ b', b.finish = some b' ∧ Between law lt pivot d v b' ps qs ∧
      b'.blockL = b.blockL ∧ b'.blockR = b.blockR ∧
      b'.l = (if ps = [] then b.l + b.blockL else b.l) ∧
      b'.r = if qs = [] then b.r - b.blockR else b.r := by
  have hfits := h.fits
  have hinside := h.inside
  have hfinish : b.finish = some { b with
      l := if ps = [] then b.l + b.blockL else b.l
      r := if qs = [] then b.r - b.blockR else b.r } := by
    have hsL := h.holdL.start_eq_end
    have hsR := h.holdR.start_eq_end
    by_cases hp : ps = [] <;> by_cases hq : qs = [] <;>
      simp [Blocks.finish, hsL, hsR, hp, hq, show b.blockR ≤ b.r by omega]
  refine ⟨_, hfinish, ⟨h.holdL, h.holdR, ?_, ?_, one, ?_, ?_, ?_⟩, rfl, rfl, rfl, rfl⟩
  · simp only
    split <;> split <;> omega
  · simp only
    split <;> omega
  · intro hp
    simpa only [hp, if_false] using h.markL hp
  · intro hq
    simpa only [hq, if_false] using h.markR hq
  · intro hl
    have old := h.settled hl
    refine ⟨fun i hi => ?_, fun i hi hin => ?_⟩
    · simp only at hi
      by_cases hil : i < b.l
      · exact old.front i hil
      · split at hi
        next hp =>
          subst hp
          have := h.tracedL.exact hl (i - b.l) (by omega)
          rw [show b.l + (i - b.l) = i by omega] at this
          simpa using this
        · omega
    · simp only at hi
      by_cases hir : b.r ≤ i
      · exact old.back i hir hin
      · split at hi
        next hq =>
          subst hq
          have := h.tracedR.exact hl (b.r - i - 1) (by omega)
          rw [show b.r - (b.r - i - 1) - 1 = i by omega] at this
          simpa using this
        · omega

/-- In the last round the block sizes are adjusted to cover the gap exactly. -/
lemma Between.adjust (h : Between law lt pivot d v b ps qs) (hL : b.blockL = block)
    (hR : b.blockR = block) (room : ps ≠ [] ∨ qs ≠ [] → block ≤ b.r - b.l)
    (last : b.r - b.l ≤ 2 * block) :
    ∃ b', b.adjust = some b' ∧ Ready law lt pivot d v b' ps qs ∧
      b'.l + b'.blockL + b'.blockR = b'.r := by
  have horder := h.order
  have hpL := h.holdL.start_lt_end
  have hpR := h.holdR.start_lt_end
  by_cases hp : ps = []
  · subst hp
    by_cases hq : qs = []
    · subst hq
      refine ⟨{ b with blockL := (b.r - b.l) / 2, blockR := b.r - b.l - (b.r - b.l) / 2 }, ?_,
        ⟨h.holdL, h.holdR, h.inside, by simp only; omega, by simp only; omega, by simp only; omega,
          by simp, by simp, h.settled⟩, by simp only; omega⟩
      simp only [Blocks.adjust, hpL, hpR, ne_eq, not_true_eq_false, or_self, if_false,
        bind_eq_bind, bind_some]
      rw [if_pos (by omega)]
    · have hroom := room (.inr hq)
      refine ⟨{ b with blockL := b.r - b.l - block }, ?_,
        ⟨h.holdL, h.holdR, h.inside, by simp only; omega, by simp only; omega, by simp only; omega,
          by simp, h.markR, h.settled⟩, by simp only; omega⟩
      simp only [Blocks.adjust, hpL, hpR, ne_eq, not_true_eq_false, hq, not_false_eq_true, or_true,
        if_true, if_pos hroom, if_false, bind_eq_bind, bind_some]
      rw [if_pos (by omega)]
  · have hq : qs = [] := h.one.resolve_left hp
    subst hq
    have hroom := room (.inl hp)
    refine ⟨{ b with blockR := b.r - b.l - block }, ?_,
      ⟨h.holdL, h.holdR, h.inside, by simp only; omega, by simp only; omega, by simp only; omega,
        h.markL, by simp, h.settled⟩, by simp only; omega⟩
    simp only [Blocks.adjust, hpL, hpR, ne_eq, not_true_eq_false, hp, not_false_eq_true, true_or,
      if_true, if_pos hroom, bind_eq_bind, bind_some]
    rw [if_pos (by omega)]

end

variable (d : T) (pivot : T)

/-- One round after the block sizes are set: trace, exchange, pass over empty blocks. -/
def round (v : List T) (b : Blocks) (s : S) : Exec (List T) S Blocks :=
  (if b.offsL.start = b.offsL.end_ then traceLeft isLess pivot v b.l b.blockL b.offsL s
    else .ok v s b.offsL).bind fun v s offsL =>
  (if b.offsR.start = b.offsR.end_ then traceRight isLess pivot v b.r b.blockR b.offsR s
    else .ok v s b.offsR).bind fun v s offsR =>
  require (cycle (min offsL.width offsR.width) v { b with offsL, offsR }) fun moved =>
  require moved.2.finish fun b => .ok moved.1 s b

/-- The block sizes of the next round. -/
def Blocks.sized (b : Blocks) : Option Blocks := if b.r - b.l ≤ 2 * block then b.adjust else some b

omit lt in
lemma partitionLoop_succ (n : Nat) (v : List T) (b : Blocks) (s : S) :
    partitionLoop isLess pivot (n + 1) v b s =
      if b.r < b.l then .fault
      else require b.sized fun sized => (round isLess pivot v sized s).bind fun v s b' =>
        if b.r - b.l ≤ 2 * block then .ok v s b' else partitionLoop isLess pivot n v b' s := by
  simp only [round, Exec.bind_assoc, Exec.require_bind]
  rfl

lemma round_spec (v : List T) (b : Blocks) (ps qs : List Nat) (s : S)
    (h : Ready (Answers isLess lt pivot) lt pivot d v b ps qs) :
    (round isLess pivot v b s).Ends
      (fun w _ b' => w.Perm v ∧ ∃ ps' qs',
        Between (Answers isLess lt pivot) lt pivot d w b' ps' qs' ∧
        b'.blockL = b.blockL ∧ b'.blockR = b.blockR ∧
        b'.l = (if ps' = [] then b.l + b.blockL else b.l) ∧
        b'.r = if qs' = [] then b.r - b.blockR else b.r)
      (Stopped isLess lt pivot v) := by
  have hfits := h.fits
  have hinside := h.inside
  refine (traceEither_spec isLess lt d pivot v false s h.holdL h.sizeL ?_ h.markL).bind ?_
  · intro k hk
    exact getElem?_eq_view d (by omega)
  rintro v s₁ offsL ⟨rfl, ps', hps', hmarkL⟩
  refine (traceEither_spec isLess lt d pivot v true s₁ h.holdR h.sizeR ?_ h.markR).bind ?_
  · intro k hk
    rw [before, if_pos (by omega)]
    exact getElem?_eq_view d (by omega)
  rintro v s₂ offsR ⟨rfl, qs', hqs', hmarkR⟩
  have traced : Traced (Answers isLess lt pivot) lt pivot d v { b with offsL, offsR } ps' qs' :=
    ⟨⟨hps', hqs', hinside, hfits, h.sizeL, h.sizeR, fun _ => hmarkL, fun _ => hmarkR, h.settled⟩,
      hmarkL, hmarkR⟩
  rw [hps'.width_eq, hqs'.width_eq]
  obtain ⟨w, hcycle, hperm, traced'⟩ := traced.cycle (min_le_left ps'.length qs'.length)
    (min_le_right _ _)
  refine ends_require hcycle ?_
  obtain ⟨b', hfinish, hbetween, hbL, hbR, hl, hr⟩ := traced'.finish (by
    simp only [List.drop_eq_nil_iff]
    omega)
  exact ends_require hfinish (ends_ok ⟨hperm, _, _, hbetween, hbL, hbR, hl, hr⟩)

/-- The state between two rounds of the loop. -/
def Looping (law : Prop) (lt : T → T → Bool) (pivot d : T) (v : List T) (b : Blocks) : Prop :=
  b.blockL = block ∧ b.blockR = block ∧ ∃ ps qs, Between law lt pivot d v b ps qs ∧
    (ps ≠ [] ∨ qs ≠ [] → block ≤ b.r - b.l)

omit isLess in
/-- The blocks of the next round fit, and in the last round they cover the gap. -/
lemma Looping.sized {law : Prop} {v : List T} {b : Blocks} (h : Looping law lt pivot d v b) :
    ∃ b₁, b.sized = some b₁ ∧ (∃ ps qs, Ready law lt pivot d v b₁ ps qs) ∧
      (if b.r - b.l ≤ 2 * block then b₁.l + b₁.blockL + b₁.blockR = b₁.r else b₁ = b) := by
  obtain ⟨hL, hR, ps, qs, between, room⟩ := h
  by_cases done : b.r - b.l ≤ 2 * block
  · simp only [Blocks.sized, done, if_true]
    obtain ⟨b₁, hadj, ready, covers⟩ := between.adjust hL hR room done
    exact ⟨b₁, hadj, ⟨ps, qs, ready⟩, covers⟩
  · simp only [Blocks.sized, done, if_false]
    exact ⟨b, rfl, ⟨ps, qs, between.holdL, between.holdR, between.inside, by omega, by omega,
      by omega, between.markL, between.markR, between.settled⟩, rfl⟩

lemma Looping.round {v : List T} {b : Blocks} (s : S)
    (h : Looping (Answers isLess lt pivot) lt pivot d v b) (more : ¬ b.r - b.l ≤ 2 * block) :
    (round isLess pivot v b s).Ends
      (fun w _ b' => w.Perm v ∧ Looping (Answers isLess lt pivot) lt pivot d w b' ∧
        b'.r - b'.l < b.r - b.l)
      (Stopped isLess lt pivot v) := by
  obtain ⟨b₁, -, ⟨ps, qs, ready⟩, same⟩ := h.sized
  obtain ⟨hL, hR, -⟩ := h
  rw [if_neg more] at same
  subst same
  have hpos : 0 < block := by decide
  refine (round_spec isLess lt d pivot v b₁ ps qs s ready).imp ?_
  rintro w _ b' ⟨hperm, ps', qs', between, hbL, hbR, hl, hr⟩
  refine ⟨hperm, ⟨by omega, by omega, ps', qs', between, ?_⟩, ?_⟩
  · rintro (hp | hq)
    · rw [hl, hr, if_neg hp, if_pos (between.one.resolve_left hp)]
      omega
    · rw [hl, hr, if_neg hq, if_pos (between.one.resolve_right hq)]
      omega
  · rw [hl, hr]
    rcases between.one with hp | hq
    · split <;> omega
    · rw [if_pos hq]
      split <;> omega

/-- The offsets left at the end belong to a block that is all that remains. -/
lemma partitionLoop_spec (n : Nat) : ∀ (v : List T) (b : Blocks) (s : S),
    Looping (Answers isLess lt pivot) lt pivot d v b → b.r - b.l < n →
    (partitionLoop isLess pivot n v b s).Ends
      (fun v' _ b' => v'.Perm v ∧ ∃ ps' qs',
        Between (Answers isLess lt pivot) lt pivot d v' b' ps' qs' ∧
        (ps' ≠ [] → b'.l + b'.blockL = b'.r) ∧ (qs' ≠ [] → b'.l + b'.blockR = b'.r) ∧
        (ps' = [] → qs' = [] → b'.l = b'.r))
      (Stopped isLess lt pivot v) := by
  induction n with
  | zero => intro v b s _ h; omega
  | succ n ih =>
    intro v b s h hn
    have horder : ¬ b.r < b.l := by
      obtain ⟨-, -, ps, qs, between, -⟩ := h
      exact not_lt.mpr between.order
    obtain ⟨b₁, hsized, ⟨ps, qs, ready⟩, covers⟩ := h.sized
    rw [partitionLoop_succ, if_neg horder]
    refine ends_require hsized ?_
    by_cases hdone : b.r - b.l ≤ 2 * block
    · simp only [hdone, if_true] at covers ⊢
      refine (round_spec isLess lt d pivot v b₁ ps qs s ready).bind ?_
      rintro w s' b' ⟨hperm, ps', qs', hbetween, hbL, hbR, hl, hr⟩
      refine ends_ok ⟨hperm, ps', qs', hbetween, ?_, ?_, ?_⟩
      · intro hp
        rw [hl, hr, if_neg hp, if_pos (hbetween.one.resolve_left hp)]
        omega
      · intro hq
        rw [hl, hr, if_neg hq, if_pos (hbetween.one.resolve_right hq)]
        omega
      · intro hp hq
        rw [hl, hr, if_pos hp, if_pos hq]
        omega
    · simp only [hdone, if_false] at covers ⊢
      subst covers
      refine (h.round isLess lt d pivot s hdone).bind ?_
      rintro w s' b' ⟨hperm, looping, hsmaller⟩
      refine (ih w b' s' looping (by omega)).mono ?_ fun _ _ hu => hu.of_perm hperm
      rintro v' _ b'' ⟨hperm', rest⟩
      exact ⟨hperm'.trans hperm, rest⟩

section
variable {law : Prop} {lt} {d pivot} {ps : List Nat} {n p : Nat}

lemma Marked.lt_last {P : Nat → Prop} (h : Marked law n (ps ++ [p]) P) : ∀ k ∈ ps, k < p :=
  fun k hk => (List.pairwise_append.mp h.increasing).2.2 k hk p (by simp)

lemma Marked.not_last {P : Nat → Prop}
    (h : Marked law n (ps ++ [p]) P) (hl : law) (hne : p ≠ n - 1) : ¬ P (n - 1) := by
  have hp : p < n := h.below p (by simp)
  rw [← h.exact hl (n - 1) (by omega), mem_append, List.mem_singleton]
  rintro (hmem | heq)
  · have := h.lt_last _ hmem
    omega
  · exact hne heq.symm

lemma Marked.dropLast {P Q : Nat → Prop}
    (h : Marked law n (ps ++ [p]) P) (hQ : law → ∀ k < n - 1, (Q k ↔ k ≠ p ∧ P k)) :
    Marked law (n - 1) ps Q := by
  have hp : p < n := h.below p (by simp)
  refine ⟨(List.pairwise_append.mp h.increasing).1, fun k hk => ?_, fun hl k hk => ?_⟩
  · have := h.lt_last k hk
    omega
  · rw [hQ hl k hk, ← h.exact hl k (by omega), mem_append, List.mem_singleton]
    constructor
    · exact fun hmem => ⟨ne_of_lt (h.lt_last k hmem), .inl hmem⟩
    · exact fun ⟨hne, hmem⟩ => hmem.resolve_right hne

/-- One exchange of a sweep: the last offset changes places with the end of the `n` offsets. -/
lemma Marked.exchange {v w : List T} {mark : Bool} {f : Nat → Nat}
    (h : Marked law n (ps ++ [p]) fun k => lt (view d v (f k)) pivot = mark)
    (apart : ∀ j k, j < n → k < n → f j = f k → j = k)
    (hw : view d w = swapAt (view d v) (f p) (f (n - 1))) :
    Marked law (n - 1) ps (fun k => lt (view d w (f k)) pivot = mark) ∧
      (law → lt (view d w (f (n - 1))) pivot = mark) := by
  have hp : p < n := h.below p (by simp)
  rw [hw]
  constructor
  · refine h.dropLast fun hl k hk => ?_
    by_cases hkp : k = p
    · subst hkp
      simp [h.not_last hl (by omega)]
    · have hne : f k ≠ f (n - 1) := fun heq => by
        have := apart k (n - 1) (by omega) (by omega) heq
        omega
      rw [swapAt_of_ne _ (fun heq => hkp (apart k p (by omega) hp heq)) hne]
      simp [hkp]
  · intro hl
    rw [swapAt_right]
    exact (h.exact hl p hp).mp (by simp)

lemma sweepLeft_spec (ps : List Nat) : ∀ (v : List T) (b : Blocks), Holds b.offsL ps →
    b.l ≤ b.r → b.r ≤ v.length → (law → Settled lt pivot d v b.l b.r) →
    Marked law (b.r - b.l) ps (fun k => lt (view d v (b.l + k)) pivot = false) →
    ∃ w m, sweepLeft ps.length v b = some (w, m) ∧ w.Perm v ∧ m ≤ w.length ∧
      (law → Settled lt pivot d w m m) := by
  induction ps using List.reverseRecOn with
  | nil =>
    intro v b _ horder hinside settled marked
    refine ⟨v, b.r, rfl, .refl v, hinside, fun hl => ⟨fun i hi => ?_, (settled hl).back⟩⟩
    by_cases hil : i < b.l
    · exact (settled hl).front i hil
    · have := marked.exact hl (i - b.l) (by omega)
      rw [show b.l + (i - b.l) = i by omega] at this
      simpa using this
  | append_singleton ps p ih =>
    intro v b holds horder hinside settled marked
    have hp : p < b.r - b.l := marked.below p (by simp)
    have hswap := view_swap d (v := v) (i := b.l + p) (j := b.r - 0 - 1) (by omega) (by omega)
    have hend : b.l + (b.r - b.l - 1) = b.r - 0 - 1 := by omega
    obtain ⟨hmarked, hbig⟩ := marked.exchange
      (fun j k _ _ heq => by omega) (by rw [hend, hswap])
    rw [hend] at hbig
    rw [Nat.sub_right_comm] at hmarked
    have hsettled : law → Settled lt pivot d (swap v (b.l + p) (b.r - 0 - 1)) b.l (b.r - 1) := by
      intro hl
      refine ⟨fun i hi => ?_, fun i hi hin => ?_⟩
      · rw [hswap, swapAt_of_ne _ (by omega) (by omega)]
        exact (settled hl).front i hi
      · rw [length_swap] at hin
        by_cases hir : i = b.r - 0 - 1
        · exact hir ▸ hbig hl
        · rw [hswap, swapAt_of_ne _ (by omega) hir]
          exact (settled hl).back i (by omega) hin
    obtain ⟨w, m, hrun, hperm, hm, hend⟩ := ih (swap v (b.l + p) (b.r - 0 - 1))
      { b with r := b.r - 1, offsL.end_ := b.offsL.end_ - 1 } holds.dropLast (by simp only; omega)
      (by simp only [length_swap]; omega) hsettled hmarked
    refine ⟨w, m, ?_, hperm.trans (swap_perm _ _ _), hm, hend⟩
    rw [length_append, length_singleton]
    have htry : trySwap v (b.l + p) (b.r - 0 - 1) = some (swap v (b.l + p) (b.r - 0 - 1)) :=
      trySwap_eq (by omega) (by omega)
    simp only [sweepLeft, holds.read_last, before, show 0 < b.r by omega, if_true, htry,
      bind_eq_bind, bind_some]
    exact hrun

/-- The mirror of `sweepLeft_spec`. -/
lemma sweepRight_spec (qs : List Nat) : ∀ (v : List T) (b : Blocks), Holds b.offsR qs →
    b.l ≤ b.r → b.r ≤ v.length → (law → Settled lt pivot d v b.l b.r) →
    Marked law (b.r - b.l) qs (fun k => lt (view d v (b.r - k - 1)) pivot) →
    ∃ w m, sweepRight qs.length v b = some (w, m) ∧ w.Perm v ∧ m ≤ w.length ∧
      (law → Settled lt pivot d w m m) := by
  induction qs using List.reverseRecOn with
  | nil =>
    intro v b _ horder hinside settled marked
    refine ⟨v, b.l, rfl, .refl v, by omega, fun hl => ⟨(settled hl).front, fun i hi hin => ?_⟩⟩
    by_cases hir : b.r ≤ i
    · exact (settled hl).back i hir hin
    · have := marked.exact hl (b.r - i - 1) (by omega)
      rw [show b.r - (b.r - i - 1) - 1 = i by omega] at this
      simpa using this
  | append_singleton qs q ih =>
    intro v b holds horder hinside settled marked
    have hq : q < b.r - b.l := marked.below q (by simp)
    have hswap := view_swap d (v := v) (i := b.l) (j := b.r - q - 1) (by omega) (by omega)
    have hend : b.r - (b.r - b.l - 1) - 1 = b.l := by omega
    obtain ⟨hmarked, hsmall⟩ := marked.exchange
      (fun j k _ _ heq => by omega) (by rw [hswap, swapAt_comm, hend])
    rw [hend] at hsmall
    have hsettled : law → Settled lt pivot d (swap v b.l (b.r - q - 1)) (b.l + 1) b.r := by
      intro hl
      refine ⟨fun i hi => ?_, fun i hi hin => ?_⟩
      · by_cases hil : i = b.l
        · exact hil ▸ hsmall hl
        · rw [hswap, swapAt_of_ne _ hil (by omega)]
          exact (settled hl).front i (by omega)
      · rw [length_swap] at hin
        rw [hswap, swapAt_of_ne _ (by omega) (by omega)]
        exact (settled hl).back i hi hin
    obtain ⟨w, m, hrun, hperm, hm, hend⟩ := ih (swap v b.l (b.r - q - 1))
      { b with l := b.l + 1, offsR.end_ := b.offsR.end_ - 1 } holds.dropLast (by simp only; omega)
      (by simp only [length_swap]; omega) hsettled hmarked
    refine ⟨w, m, ?_, hperm.trans (swap_perm _ _ _), hm, hend⟩
    rw [length_append, length_singleton]
    have htry : trySwap v b.l (b.r - q - 1) = some (swap v b.l (b.r - q - 1)) :=
      trySwap_eq (by omega) (by omega)
    simp only [sweepRight, holds.read_last, before, show q < b.r by omega, if_true, htry,
      bind_eq_bind, bind_some]
    exact hrun

lemma sweep_spec {v : List T} {b : Blocks} {ps qs : List Nat}
    (h : Between law lt pivot d v b ps qs) (hps : ps ≠ [] → b.l + b.blockL = b.r)
    (hqs : qs ≠ [] → b.l + b.blockR = b.r) (hnone : ps = [] → qs = [] → b.l = b.r) :
    ∃ w m, sweep v b = some (w, m) ∧ w.Perm v ∧ m ≤ w.length ∧
      (law → Settled lt pivot d w m m) := by
  have hpL := h.holdL.start_lt_end
  have hpR := h.holdR.start_lt_end
  simp only [sweep, hpL, hpR, h.holdL.width_eq, h.holdR.width_eq]
  by_cases hp : ps = []
  · by_cases hq : qs = []
    · have heq := hnone hp hq
      have hinside := h.inside
      refine ⟨v, b.l, by simp [hp, hq], .refl v, by omega, fun hl => ?_⟩
      have := h.settled hl
      rwa [← heq] at this
    · have heq := hqs hq
      have hmark := h.markR hq
      rw [show b.blockR = b.r - b.l by omega] at hmark
      obtain ⟨w, m, hrun, rest⟩ := sweepRight_spec qs v b h.holdR h.order h.inside h.settled hmark
      exact ⟨w, m, by simp [hp, hq, show b.r - b.l = b.blockR by omega, hrun], rest⟩
  · have heq := hps hp
    have hmark := h.markL hp
    rw [show b.blockL = b.r - b.l by omega] at hmark
    obtain ⟨w, m, hrun, rest⟩ := sweepLeft_spec ps v b h.holdL h.order h.inside h.settled hmark
    exact ⟨w, m, by simp [hp, show b.r - b.l = b.blockL by omega, hrun], rest⟩

end

/-- The variables before the loop. -/
def Blocks.initial (len : Nat) : Blocks := ⟨0, len, block, block, .uninit, .uninit⟩

omit isLess d in
lemma looping_initial {law : Prop} (v : List T) :
    Looping law lt pivot pivot v (.initial v.length) :=
  ⟨rfl, rfl, [], [], ⟨holds_uninit, holds_uninit, Nat.zero_le _, le_rfl, .inl rfl, by simp,
    by simp, fun _ => ⟨by simp [Blocks.initial], fun i hi hin => by
      simp only [Blocks.initial] at hi; omega⟩⟩, by simp⟩

omit isLess d in
/-- What the final position of a sweep says of the two parts of the slice. -/
lemma Settled.parts {w : List T} {m : Nat} (h : Settled lt pivot pivot w m m) :
    (∀ x ∈ w.take m, lt x pivot) ∧ ∀ x ∈ w.drop m, lt x pivot = false :=
  ⟨forall_mem_take pivot h.front, forall_mem_drop pivot h.back⟩

lemma partitionInBlocks_spec (v : List T) (s : S) :
    (partitionInBlocks isLess v pivot s).Ends
      (fun v' _ mid => v'.Perm v ∧ mid ≤ v'.length ∧
        (Answers isLess lt pivot → (∀ x ∈ v'.take mid, lt x pivot) ∧
          ∀ x ∈ v'.drop mid, lt x pivot = false))
      (Stopped isLess lt pivot v) := by
  refine (partitionLoop_spec isLess lt pivot pivot (v.length + 1) v _ s (looping_initial lt pivot v)
    (by simp [Blocks.initial])).bind ?_
  rintro v' s' b ⟨hperm, ps, qs, hbetween, hps, hqs, hnone⟩
  obtain ⟨w, m, hsweep, hperm', hm, hend⟩ := sweep_spec hbetween hps hqs hnone
  exact ends_require hsweep (ends_ok ⟨hperm'.trans hperm, hm, fun law => (hend law).parts lt pivot⟩)

/-- The states before the rounds of the loop, from its start on a slice. -/
inductive Rounds (v₀ : List T) (s₀ : S) : List T → Blocks → S → Prop
  | start : Rounds v₀ s₀ v₀ (.initial v₀.length) s₀
  | next {v v' : List T} {b b' : Blocks} {s s' : S} : Rounds v₀ s₀ v b s →
      ¬ b.r - b.l ≤ 2 * block → round isLess pivot v b s = .ok v' s' b' → Rounds v₀ s₀ v' b' s'

lemma Rounds.looping {v₀ v : List T} {s₀ s : S} {b : Blocks}
    (rounds : Rounds isLess pivot v₀ s₀ v b s) :
    Looping (Answers isLess lt pivot) lt pivot pivot v b := by
  induction rounds with
  | start => exact looping_initial lt pivot v₀
  | @next v v' b b' s s' before more returned ih =>
    have round := ih.round isLess lt pivot pivot s more
    rw [returned] at round
    exact round.2.1

/-- With a comparison that answers for each element, the partition returns. When its loop ends, at
most one side has offsets left; they are those of the elements on the wrong side in a block that is
all that remains, and the closing swaps complete the partition. In each round the blocks, and so
the offsets that are stored, are below 128. -/
theorem partition_in_blocks_correct (answers : Answers isLess lt pivot) (v : List T) (s : S) :
    (∃ w s' b ps qs v' mid,
      partitionLoop isLess pivot (v.length + 1) v (.initial v.length) s = .ok w s' b ∧
      Between (Answers isLess lt pivot) lt pivot pivot w b ps qs ∧
      (ps ≠ [] → b.l + b.blockL = b.r) ∧ (qs ≠ [] → b.l + b.blockR = b.r) ∧
      (b.offsL.start = b.offsL.end_ ∨ b.offsR.start = b.offsR.end_) ∧
      sweep w b = some (v', mid) ∧ partitionInBlocks isLess v pivot s = .ok v' s' mid ∧
      v'.Perm v ∧ mid = v.countP (fun x => lt x pivot) ∧
      (∀ x ∈ v'.take mid, lt x pivot = true) ∧ ∀ x ∈ v'.drop mid, lt x pivot = false) ∧
    ∀ w b s', Rounds isLess pivot v s w b s' → ∃ sized, b.sized = some sized ∧
      ∀ i, i < sized.blockL ∨ i < sized.blockR → i < block ∧ i % 256 = i := by
  constructor
  · obtain ⟨w, s', b, loop, perm, ps, qs, between, hps, hqs, none⟩ :=
      (partitionLoop_spec isLess lt pivot pivot (v.length + 1) v _ s (looping_initial lt pivot v)
        (by simp [Blocks.initial])).returns fun _ _ h => h.2 answers
    obtain ⟨v', mid, swept, perm', le, ends⟩ := sweep_spec between hps hqs none
    have parts := (ends answers).parts lt pivot
    refine ⟨w, s', b, ps, qs, v', mid, loop, between, hps, hqs, ?_, swept, ?_, perm'.trans perm, ?_,
      parts⟩
    · rw [between.holdL.start_eq_end, between.holdR.start_eq_end]
      exact between.one
    · rw [partitionInBlocks, show (⟨0, v.length, block, block, .uninit, .uninit⟩ : Blocks) =
        .initial v.length from rfl, loop]
      change require (sweep w b) _ = _
      rw [swept]
      rfl
    · rw [← (perm'.trans perm).countP_eq, ← List.take_append_drop mid v', List.countP_append,
        List.countP_eq_length.mpr parts.1, List.countP_eq_zero.mpr (by simpa using parts.2),
        List.length_take_of_le le, add_zero]
  · intro w b s' rounds
    obtain ⟨sized, fits, ⟨ps, qs, ready⟩, -⟩ := (rounds.looping isLess lt pivot).sized
    refine ⟨sized, fits, ?_⟩
    intro i below
    have inside : i < block := by
      have := ready.sizeL
      have := ready.sizeR
      omega
    exact ⟨inside, Nat.mod_eq_of_lt (inside.trans (by decide))⟩

/-- Answers whether an element is less than 3, and counts the calls. -/
def belowThree : Comparator Nat Nat := fun s x _ => (some (decide (x < 3)), s + 1)

theorem partition_in_blocks_belowThree :
    ∃ v' s' mid, partitionInBlocks belowThree [5, 1, 3, 2, 4] 7 0 = .ok v' s' mid ∧
      v'.Perm [5, 1, 3, 2, 4] ∧ mid = 2 := by
  obtain ⟨⟨w, s', b, ps, qs, v', mid, -, -, -, -, -, -, returned, perm, count, -⟩, -⟩ :=
    partition_in_blocks_correct belowThree (fun x _ => decide (x < 3)) 7 (fun _ _ => rfl)
      [5, 1, 3, 2, 4] 0
  exact ⟨v', s', mid, returned, perm, count⟩

end BlockPartition
