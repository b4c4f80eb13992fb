import BpfSysroot.InsertionSort

/-!
# Rotation in place

`ptr_rotate` brings the `right` elements from `mid` on before the `left` elements
that end there. Short ranges and large elements go along the cycles of "add `right`
modulo `left + right`", a small side goes through a buffer on the stack, and all
else swaps blocks until a smaller rotation is left. The memory is the whole list,
and `none` stands for an access outside of it.
-/

namespace Rotate

open Unwinding SliceMemory List
open Nat (add_assoc add_sub_cancel add_zero gcd_le_left mod_eq_of_lt mod_lt)
open Option (bind_eq_bind bind_some)
open InsertionSort (Layout)

variable {T A : Type}

def swapNonoverlapping (v : List T) (x y count : Nat) : Option (List T) :=
  if x + count ≤ y ∨ y + count ≤ x then do
    let xs ← readBlock v x count
    let ys ← readBlock v y count
    let v ← writeBlock v x ys
    writeBlock v y xs
  else none

/-- One round along a cycle: `tmp` goes to `i` and takes up what was there, until the round is
back at `start`. `note` is told the positions that the round comes to by stepping back. -/
def round (note : Nat → A → A) (x left right start : Nat) :
    Nat → List T → T → Nat → A → Option (List T × A)
  | 0, _, _, _, _ => none
  | fuel + 1, v, tmp, i, noted => do
    let next ← v[x + i]?
    let v ← write v (x + i) tmp
    if left ≤ i then
      if i - left = start then
        let v ← write v (x + start) next
        return (v, noted)
      else round note x left right start fuel v next (i - left) (note (i - left) noted)
    else round note x left right start fuel v next (i + right) noted

/-- The first round finds the `gcd` on its way. -/
def firstRound (v : List T) (x left right : Nat) : Option (List T × Nat) := do
  let tmp ← v[x]?
  round (fun i gcd => if i < gcd then i else gcd) x left right 0 (left + right) v tmp right right

/-- The rounds from `starts`, with a count of all rounds started. -/
def laterRounds (x left right : Nat) : List Nat → List T → Nat → Option (List T × Nat)
  | [], v, started => some (v, started)
  | start :: starts, v, started => do
    let tmp ← v[x + start]?
    let (v, _) ← round (fun _ noted => noted) x left right start (left + right) v tmp
      (start + right) ()
    laterRounds x left right starts v (started + 1)

/-- Algorithm 1, with the number of rounds it started. -/
def followCycles (v : List T) (left mid right : Nat) : Option (List T × Nat) := do
  let (v, gcd) ← firstRound v (mid - left) left right
  laterRounds (mid - left) left right (range' 1 (gcd - 1)) v 1

/-- Copies a range to a buffer of `bytes` bytes. -/
def fillBuffer (layout : Layout T) (bytes : Nat) (v : List T) (src count : Nat) :
    Option (List T) :=
  if count * layout.size ≤ bytes then readBlock v src count else none

/-- Algorithm 2. `word` is `size_of::<usize>()`. -/
def throughBuffer (word : Nat) (layout : Layout T) (v : List T) (left mid right : Nat) :
    Option (List T) :=
  let dim := mid - left + right
  if left ≤ right then do
    let buf ← fillBuffer layout (32 * word) v (mid - left) left
    let v ← copy v mid (mid - left) right
    writeBlock v dim buf
  else do
    let buf ← fillBuffer layout (32 * word) v mid right
    let v ← copy v (mid - left) dim left
    writeBlock v (mid - left) buf

/-- Algorithm 3: swaps to the left of `mid` while a whole block is there. -/
def swapDown (right : Nat) : Nat → List T → Nat → Nat → Option (List T × Nat × Nat)
  | 0, _, _, _ => none
  | fuel + 1, v, left, mid => do
    let v ← swapNonoverlapping v (mid - right) mid right
    if left - right < right then return (v, left - right, mid - right)
    else swapDown right fuel v (left - right) (mid - right)

/-- Algorithm 3 for `left < right`. -/
def swapUp (left : Nat) : Nat → List T → Nat → Nat → Option (List T × Nat × Nat)
  | 0, _, _, _ => none
  | fuel + 1, v, mid, right => do
    let v ← swapNonoverlapping v (mid - left) mid left
    if right - left < left then return (v, mid + left, right - left)
    else swapUp left fuel v (mid + left) (right - left)

def rotateLoop (word : Nat) (layout : Layout T) :
    Nat → List T → Nat → Nat → Nat → Option (List T)
  | 0, _, _, _, _ => none
  | fuel + 1, v, left, mid, right =>
    if right = 0 ∨ left = 0 then some v
    else if left + right < 24 ∨ 4 * word < layout.size then
      (followCycles v left mid right).map Prod.fst
    else if min left right ≤ 32 * word / layout.size then throughBuffer word layout v left mid right
    else if right ≤ left then do
      let (v, left, mid) ← swapDown right left v left mid
      rotateLoop word layout fuel v left mid right
    else do
      let (v, mid, right) ← swapUp left right v mid right
      rotateLoop word layout fuel v left mid right

/-- `ptr_rotate`. The caller promises that `[mid - left, mid + right)` is inside. -/
def ptrRotate (word : Nat) (layout : Layout T) (v : List T) (left mid right : Nat) :
    Option (List T) :=
  if layout.size = 0 then some v
  else rotateLoop word layout (left + right + 1) v left mid right

section
variable {left right start : Nat} {k : Nat}

/-- Where a round is after `k` steps. -/
def pos (left right start k : Nat) : Nat := (start + k * right) % (left + right)

lemma pos_lt (hright : 0 < right) (k : Nat) : pos left right start k < left + right :=
  mod_lt _ (by omega)

lemma pos_succ (k : Nat) :
    pos left right start (k + 1) = (pos left right start k + right) % (left + right) := by
  rw [pos, pos, Nat.mod_add_mod, Nat.succ_mul, ← add_assoc]

lemma pos_pred (k : Nat) :
    (pos left right start (k + 1) + left) % (left + right) = pos left right start k := by
  rw [pos, pos, Nat.mod_add_mod, Nat.succ_mul, show start + (k * right + right) + left =
    start + k * right + (left + right) by omega, Nat.add_mod_right]

lemma pos_back (hright : 0 < right) (h : left ≤ pos left right start k) :
    pos left right start (k + 1) = pos left right start k - left := by
  have inside : pos left right start k < left + right := pos_lt hright k
  rw [pos_succ, Nat.mod_eq_sub_mod (by omega), mod_eq_of_lt (by omega)]
  omega

lemma pos_forth (h : pos left right start k < left) :
    pos left right start (k + 1) = pos left right start k + right := by
  rw [pos_succ, mod_eq_of_lt (by omega)]

lemma pos_add_congr {j k : Nat} (h : pos left right start j = pos left right start k) (m : Nat) :
    pos left right start (j + m) = pos left right start (k + m) := by
  induction m with
  | zero => exact h
  | succ m ih => rw [← add_assoc, ← add_assoc, pos_succ, pos_succ, ih]

/-- A round that comes to a position twice has been back at its start in between. -/
lemma pos_sub_of_eq {j d : Nat} (h : pos left right start (j + d) = pos left right start j) :
    pos left right start d = start % (left + right) := by
  have cancel : start + d * right ≡ start [MOD left + right] := by
    apply Nat.ModEq.add_right_cancel' (j * right)
    have : start + d * right + j * right = start + (j + d) * right := by ring
    rw [this]
    exact h
  exact cancel

/-- A round keeps to its class modulo the greatest common divisor. -/
lemma pos_mod_gcd (hstart : start < left.gcd right) (k : Nat) :
    pos left right start k % left.gcd right = start := by
  have total : left.gcd right ∣ left + right :=
    (Nat.gcd_dvd_left left right).add (Nat.gcd_dvd_right left right)
  have steps : left.gcd right ∣ k * right := (Nat.gcd_dvd_right left right).mul_left k
  rw [pos, Nat.mod_mod_of_dvd _ total, Nat.add_mod, Nat.mod_eq_zero_of_dvd steps, add_zero,
    Nat.mod_mod, mod_eq_of_lt hstart]

/-- A round comes to the whole class. -/
lemma exists_pos (hleft : 0 < left) (hright : 0 < right) {p : Nat} (hp : p < left + right)
    (hclass : p % left.gcd right = start) : ∃ k, pos left right start k = p := by
  have divisor : right.gcd (left + right) = left.gcd right := by
    rw [Nat.gcd_add_self_right, Nat.gcd_comm]
  have small : right.gcd (left + right) < left + right := by
    have := gcd_le_left (left + right) hright
    omega
  obtain ⟨m, -, hm⟩ := Nat.exists_mul_mod_eq_gcd small
  refine ⟨m * (p / left.gcd right), ?_⟩
  have steps : right * m ≡ left.gcd right [MOD left + right] := by
    rw [← divisor, Nat.ModEq, hm, mod_eq_of_lt small]
  have whole : start + m * (p / left.gcd right) * right ≡ p [MOD left + right] := calc
    start + m * (p / left.gcd right) * right
      = start + right * m * (p / left.gcd right) := by ring
    _ ≡ start + left.gcd right * (p / left.gcd right) [MOD left + right] :=
      (steps.mul_right _).add_left _
    _ = p := by rw [← hclass, Nat.mod_add_div]
  rw [pos, whole, mod_eq_of_lt hp]

/-- Once a round is back it has nothing more to come to. -/
lemma pos_period (back : pos left right start (k + 1) = pos left right start 0) (j : Nat) :
    ∃ i, 1 ≤ i ∧ i ≤ k + 1 ∧ pos left right start j = pos left right start i := by
  induction j with
  | zero => exact ⟨k + 1, by omega, le_rfl, back.symm⟩
  | succ j ih =>
    obtain ⟨i, hi, hik, same⟩ := ih
    rcases lt_or_ge i (k + 1) with inside | last
    · exact ⟨i + 1, by omega, inside, pos_add_congr same 1⟩
    · obtain rfl : i = k + 1 := by omega
      exact ⟨1, le_rfl, by omega, by simpa using pos_add_congr (same.trans back) 1⟩

end

/-- The positions of `done` hold what the rotation brings there, the others what they held. -/
structure Midway (old : List T) (x left right : Nat) (done : Nat → Prop) (v : List T) : Prop where
  length : v.length = old.length
  outside : ∀ q, q < x ∨ x + (left + right) ≤ q → v[q]? = old[q]?
  moved : ∀ p, p < left + right → done p → v[x + p]? = old[x + (p + left) % (left + right)]?
  still : ∀ p, p < left + right → ¬ done p → v[x + p]? = old[x + p]?

namespace Midway
variable {old v : List T} {x left right : Nat} {done : Nat → Prop}

lemma congr {done' : Nat → Prop} (h : Midway old x left right done v)
    (same : ∀ p < left + right, (done' p ↔ done p)) : Midway old x left right done' v where
  length := h.length
  outside := h.outside
  moved p hp hdone := h.moved p hp ((same p hp).mp hdone)
  still p hp hdone := h.still p hp fun other => hdone ((same p hp).mpr other)

lemma settle (h : Midway old x left right done v) {p : Nat} {tmp : T}
    (fits : x + (left + right) ≤ old.length) (hp : p < left + right)
    (hold : old[x + (p + left) % (left + right)]? = some tmp) :
    ∃ w, write v (x + p) tmp = some w ∧ Midway old x left right (fun q => done q ∨ q = p) w := by
  have inside : x + p < v.length := by rw [h.length]; omega
  refine ⟨v.set (x + p) tmp, if_pos inside, by simpa using h.length, ?_, ?_, ?_⟩
  · intro q hq
    rw [getElem?_set_ne (by omega)]
    exact h.outside q hq
  · intro q hq hdone
    by_cases here : q = p
    · rw [here, getElem?_set_self inside, hold]
    · rw [getElem?_set_ne (by omega)]
      exact h.moved q hq (hdone.resolve_right here)
  · intro q hq hdone
    rw [not_or] at hdone
    rw [getElem?_set_ne (by omega)]
    exact h.still q hq hdone.1

lemma rotated {before lefts rights after : List T}
    (h : Midway (before ++ lefts ++ rights ++ after) before.length lefts.length rights.length
      done v) (all : ∀ p < lefts.length + rights.length, done p) :
    v = before ++ rights ++ lefts ++ after := by
  apply ext_getElem?
  intro q
  by_cases within : before.length ≤ q ∧ q < before.length + (lefts.length + rights.length)
  · obtain ⟨p, rfl⟩ := Nat.exists_eq_add_of_le within.1
    rw [h.moved p (by omega) (all p (by omega))]
    by_cases first : p < rights.length
    · rw [mod_eq_of_lt (by omega)]
      grind
    · rw [Nat.mod_eq_sub_mod (by omega), mod_eq_of_lt (by omega)]
      grind
  · rw [h.outside q (by omega)]
    grind

end Midway

section
variable {old v : List T} {x left right start : Nat}

/-- Done when round `start` has come to its `k`-th position: the earlier rounds and the way
so far. -/
def Done (left right start k p : Nat) : Prop :=
  p % left.gcd right < start ∨ ∃ j, 1 ≤ j ∧ j < k ∧ p = pos left right start j

lemma done_succ {k p : Nat} (hk : 1 ≤ k) :
    Done left right start (k + 1) p ↔ Done left right start k p ∨ p = pos left right start k := by
  constructor
  · rintro (earlier | ⟨j, hj, hjk, rfl⟩)
    · exact .inl (.inl earlier)
    · rcases Nat.lt_succ_iff_lt_or_eq.mp hjk with before | rfl
      · exact .inl (.inr ⟨j, hj, before, rfl⟩)
      · exact .inr rfl
  · rintro ((earlier | ⟨j, hj, hjk, rfl⟩) | rfl)
    · exact .inl earlier
    · exact .inr ⟨j, hj, by omega, rfl⟩
    · exact .inr ⟨k, hk, by omega, rfl⟩

lemma done_back (hleft : 0 < left) (hright : 0 < right) (hstart : start < left.gcd right)
    {k p : Nat} (back : pos left right start (k + 1) = start) (hp : p < left + right) :
    p % left.gcd right < start + 1 ↔ Done left right start (k + 2) p := by
  constructor
  · intro class_
    rcases Nat.lt_succ_iff_lt_or_eq.mp class_ with earlier | this
    · exact .inl earlier
    · obtain ⟨j, rfl⟩ := exists_pos hleft hright hp this
      have home : pos left right start 0 = start := by
        rw [pos, zero_mul, add_zero, mod_eq_of_lt]
        have := gcd_le_left right hleft
        omega
      obtain ⟨i, hi, hik, same⟩ := pos_period (back.trans home.symm) j
      exact .inr ⟨i, hi, by omega, same⟩
  · rintro (earlier | ⟨j, -, -, rfl⟩)
    · omega
    · rw [pos_mod_gcd hstart]
      omega

/-- A round that is under way has not been at its next position before. -/
lemma not_done (hstart : start < left.gcd right) (home : start < left + right) {k : Nat}
    (away : ∀ j, 1 ≤ j → j < k → pos left right start j ≠ start) :
    ¬ Done left right start k (pos left right start k) := by
  rintro (earlier | ⟨j, hj, hjk, same⟩)
  · rw [pos_mod_gcd hstart] at earlier
    omega
  · apply away (k - j) (by omega) (by omega)
    have again : pos left right start (k - j) = start % (left + right) :=
      pos_sub_of_eq (by rwa [Nat.add_sub_cancel' (by omega)])
    rwa [mod_eq_of_lt home] at again

section
variable (note : Nat → A → A) (I : Nat → A → Prop) (hleft : 0 < left) (hright : 0 < right)
  (hstart : start < left.gcd right) (fits : x + (left + right) ≤ old.length)
  (backward : ∀ k a, I k a → pos left right start (k + 1) ≠ start →
    I (k + 1) (note (pos left right start (k + 1)) a))
  (forward : ∀ k a, I k a → right ≤ pos left right start (k + 1) → I (k + 1) a)
include hleft hright hstart fits backward forward

/-- A round puts its class in place. What it notes goes by the law of one step, in each of the
two directions. -/
lemma round_spec (fuel : Nat) : ∀ k v tmp a, left + right ≤ k + fuel →
      (∀ j, 1 ≤ j → j ≤ k + 1 → pos left right start j ≠ start) →
      Midway old x left right (Done left right start (k + 1)) v →
      old[x + pos left right start k]? = some tmp → I (k + 1) a →
      ∃ w b m, round note x left right start fuel v tmp (pos left right start (k + 1)) a =
          some (w, b) ∧ I m b ∧ pos left right start (m + 1) = start ∧
        Midway old x left right (fun p => p % left.gcd right < start + 1) w := by
  have home : start < left + right := by
    have := gcd_le_left right hleft
    omega
  induction fuel with
  | zero =>
    intro k v tmp a enough away
    exfalso
    apply away (left + right) (by omega) (by omega)
    rw [pos, Nat.add_mul_mod_self_left, mod_eq_of_lt home]
  | succ fuel ih =>
    intro k v tmp a enough away midway held hi
    have inside : ∀ j, pos left right start j < left + right := pos_lt hright
    obtain ⟨next, hnext⟩ : ∃ next, old[x + pos left right start (k + 1)]? = some next :=
      ⟨_, getElem?_eq_getElem (by have := inside (k + 1); omega)⟩
    have fresh : ¬ Done left right start (k + 1) (pos left right start (k + 1)) :=
      not_done hstart home fun j hj hjk => away j hj (by omega)
    have read := midway.still _ (inside (k + 1)) fresh
    have goOn (on : pos left right start (k + 2) ≠ start) :
        ∀ j, 1 ≤ j → j ≤ k + 2 → pos left right start j ≠ start := by
      intro j hj hjk
      rcases lt_or_ge j (k + 2) with earlier | now
      · exact away j hj (by omega)
      · rwa [show j = k + 2 by omega]
    obtain ⟨w, hw, midway⟩ := midway.settle fits (inside (k + 1)) (by rwa [pos_pred])
    have midway := midway.congr fun p _ => done_succ (by omega)
    rw [round, read, hnext]
    simp only [bind_eq_bind, bind_some, hw]
    by_cases turn : left ≤ pos left right start (k + 1)
    · rw [if_pos turn, ← pos_back hright turn]
      by_cases back : pos left right start (k + 2) = start
      · rw [if_pos back]
        obtain ⟨u, hu, midway⟩ := midway.settle fits home (by rwa [← back, pos_pred])
        refine ⟨u, a, k + 1, by simp [hu], hi, back, ?_⟩
        apply midway.congr
        intro p hp
        rw [done_back hleft hright hstart back hp, done_succ (by omega), back]
      · rw [if_neg back]
        exact ih (k + 1) w next _ (by omega) (goOn back) midway hnext (backward _ _ hi back)
    · have forth : pos left right start (k + 2) = pos left right start (k + 1) + right :=
        pos_forth (by omega)
      -- no round starts as high as `right`
      have high : left.gcd right ≤ right := Nat.gcd_le_right left hright
      rw [if_neg turn, ← forth]
      exact ih (k + 1) w next a (by omega) (goOn (by omega)) midway hnext
        (forward _ _ hi (by rw [forth]; omega))

lemma round_from_start (a : A)
    (midway : Midway old x left right (fun p => p % left.gcd right < start) v)
    (initial : pos left right start 1 = start + right → I 1 a) :
    ∃ tmp w b m, v[x + start]? = some tmp ∧
      round note x left right start (left + right) v tmp (start + right) a = some (w, b) ∧
      I m b ∧ pos left right start (m + 1) = start ∧
      Midway old x left right (fun p => p % left.gcd right < start + 1) w := by
  have low : left.gcd right ≤ left := gcd_le_left right hleft
  have home : pos left right start 0 = start := by
    rw [pos, zero_mul, add_zero, mod_eq_of_lt (by omega)]
  have first : pos left right start 1 = start + right := by
    rw [pos_forth (by omega), home]
  have fresh : ¬ start % left.gcd right < start := by
    rw [mod_eq_of_lt hstart]
    omega
  obtain ⟨tmp, htmp⟩ : ∃ tmp, old[x + start]? = some tmp := ⟨_, getElem?_eq_getElem (by omega)⟩
  have begun : Midway old x left right (Done left right start 1) v :=
    midway.congr fun p _ => ⟨fun h => h.resolve_right (by omega), .inl⟩
  obtain ⟨w, b, m, run, rest⟩ := round_spec note I hleft hright hstart fits backward forward
    (left + right) 0 v tmp a (by omega)
    (fun j hj hj1 => by rw [show j = 1 by omega]; omega) begun (by rwa [home]) (initial first)
  rw [first] at run
  exact ⟨tmp, w, b, m, (midway.still start (by omega) fresh).trans htmp, run, rest⟩

end

/-- What the first round has found after `k` steps: the least position so far. -/
structure Least (left right k gcd : Nat) : Prop where
  positive : 0 < gcd
  divisor : left.gcd right ∣ gcd
  le_right : gcd ≤ right
  le_pos : ∀ j, 1 ≤ j → j ≤ k → gcd ≤ pos left right 0 j

lemma Least.extend {k gcd next : Nat} (h : Least left right k gcd) (positive : 0 < next)
    (divisor : left.gcd right ∣ next) (le : next ≤ gcd)
    (le_next : next ≤ pos left right 0 (k + 1)) : Least left right (k + 1) next := by
  refine ⟨positive, divisor, le.trans h.le_right, ?_⟩
  intro j hj hjk
  rcases lt_or_ge j (k + 1) with earlier | last
  · exact le.trans (h.le_pos j hj (by omega))
  · rwa [show j = k + 1 by omega]

/-- Back at its start, the first round has found the greatest common divisor. -/
lemma Least.eq_gcd {m gcd : Nat} (h : Least left right m gcd) (hleft : 0 < left)
    (hright : 0 < right) (back : pos left right 0 (m + 1) = 0) : gcd = left.gcd right := by
  have positive : 0 < left.gcd right := Nat.gcd_pos_of_pos_left right hleft
  have low : left.gcd right ≤ left := gcd_le_left right hleft
  obtain ⟨j, hj⟩ : ∃ j, pos left right 0 j = left.gcd right :=
    exists_pos hleft hright (by omega) (Nat.mod_self _)
  have home : pos left right 0 0 = 0 := by simp [pos]
  obtain ⟨i, hi, him, same⟩ := pos_period (back.trans home.symm) j
  have away : i ≠ m + 1 := by
    rintro rfl
    omega
  have reached := h.le_pos i hi (by omega)
  rw [← same, hj] at reached
  exact le_antisymm reached (Nat.le_of_dvd h.positive h.divisor)

lemma firstRound_spec (hleft : 0 < left) (hright : 0 < right)
    (fits : x + (left + right) ≤ old.length) :
    ∃ w, firstRound old x left right = some (w, left.gcd right) ∧
      Midway old x left right (fun p => p % left.gcd right < 1) w := by
  have positive : 0 < left.gcd right := Nat.gcd_pos_of_pos_left right hleft
  have untouched : Midway old x left right (fun p => p % left.gcd right < 0) old :=
    ⟨rfl, fun _ _ => rfl, fun p _ h => absurd h (by omega), fun _ _ _ => rfl⟩
  have begun (first : pos left right 0 1 = 0 + right) : Least left right 1 right := by
    refine ⟨hright, Nat.gcd_dvd_right left right, le_rfl, ?_⟩
    intro j hj hj1
    rw [show j = 1 by omega]
    omega
  have backward (k gcd : Nat) (least : Least left right k gcd) (on : pos left right 0 (k + 1) ≠ 0) :
      Least left right (k + 1)
        (if pos left right 0 (k + 1) < gcd then pos left right 0 (k + 1) else gcd) := by
    have divides : left.gcd right ∣ pos left right 0 (k + 1) :=
      Nat.dvd_of_mod_eq_zero (pos_mod_gcd positive (k + 1))
    split
    · exact least.extend (by omega) divides (by omega) le_rfl
    · exact least.extend least.positive least.divisor le_rfl (by omega)
  have forward (k gcd : Nat) (least : Least left right k gcd)
      (high : right ≤ pos left right 0 (k + 1)) : Least left right (k + 1) gcd :=
    least.extend least.positive least.divisor le_rfl (least.le_right.trans high)
  obtain ⟨tmp, w, gcd, m, htmp, run, least, back, midway⟩ :=
    round_from_start (fun i gcd => if i < gcd then i else gcd) (Least left right) hleft hright
      positive fits backward forward right untouched begun
  rw [least.eq_gcd hleft hright back, zero_add] at run
  rw [add_zero] at htmp
  refine ⟨w, ?_, midway⟩
  rw [firstRound, htmp]
  exact run

lemma laterRounds_spec (hleft : 0 < left) (hright : 0 < right)
    (fits : x + (left + right) ≤ old.length) (count : Nat) : ∀ start v started,
      start + count = left.gcd right →
      Midway old x left right (fun p => p % left.gcd right < start) v →
      ∃ w, laterRounds x left right (range' start count) v started =
          some (w, started + count) ∧
        Midway old x left right (fun p => p % left.gcd right < left.gcd right) w := by
  induction count with
  | zero =>
    intro start v started upto midway
    rw [add_zero] at upto
    exact ⟨v, rfl, by rwa [upto] at midway⟩
  | succ count ih =>
    intro start v started upto midway
    obtain ⟨tmp, w, _, -, htmp, run, -, -, midway⟩ :=
      round_from_start (fun _ noted => noted) (fun _ _ => True) hleft hright (by omega) fits
        (fun _ _ _ _ => trivial) (fun _ _ _ _ => trivial) () midway fun _ => trivial
    obtain ⟨u, rest, midway⟩ := ih (start + 1) w (started + 1) (by omega) midway
    refine ⟨u, ?_, midway⟩
    rw [range'_succ, laterRounds, htmp]
    simp only [bind_eq_bind, bind_some, run]
    rw [rest, add_assoc, add_comm 1 count]

lemma range_le_length (before lefts rights after : List T) :
    before.length + (lefts.length + rights.length) ≤
      (before ++ lefts ++ rights ++ after).length := by
  simp only [length_append]
  omega

/-- Algorithm 1 rotates, in as many rounds as the greatest common divisor says. -/
lemma followCycles_spec (before : List T) {lefts rights : List T} (after : List T)
    (hleft : 0 < lefts.length) (hright : 0 < rights.length) :
    followCycles (before ++ lefts ++ rights ++ after) lefts.length
        (before.length + lefts.length) rights.length =
      some (before ++ rights ++ lefts ++ after, lefts.length.gcd rights.length) := by
  have positive : 0 < lefts.length.gcd rights.length := Nat.gcd_pos_of_pos_left _ hleft
  have fits := range_le_length before lefts rights after
  obtain ⟨v, first, midway⟩ := firstRound_spec hleft hright fits
  obtain ⟨w, later, midway⟩ := laterRounds_spec hleft hright fits
    (lefts.length.gcd rights.length - 1) 1 v 1 (by omega) midway
  rw [followCycles, add_sub_cancel, first]
  simp only [bind_eq_bind, bind_some, later]
  rw [midway.rotated fun p _ => mod_lt p positive, Nat.add_sub_cancel' (by omega)]

end

section
variable {word : Nat} {layout : Layout T}

/-- Neighbouring blocks of one length change places. -/
lemma swapNonoverlapping_adjacent (before xs ys after : List T) (same : xs.length = ys.length) :
    swapNonoverlapping (before ++ xs ++ ys ++ after) before.length (before.length + xs.length)
      ys.length = some (before ++ ys ++ xs ++ after) := by
  have first := readBlock_middle before xs (ys ++ after)
  have second := readBlock_middle (before ++ xs) ys after
  have third := writeBlock_middle before xs (ys ++ after) same.symm
  have fourth := writeBlock_middle (before ++ ys) ys after same
  simp only [length_append, ← append_assoc, same] at first second third fourth
  rw [swapNonoverlapping, same, if_pos (by omega)]
  simp only [first, second, third, fourth, bind_eq_bind, bind_some]

lemma swapDown_spec (before rights : List T) (hright : 0 < rights.length)
    (fuel : Nat) : ∀ lefts after, rights.length ≤ lefts.length → lefts.length ≤ fuel →
      ∃ first second, lefts = first ++ second ∧ first.length < lefts.length ∧
        swapDown rights.length fuel (before ++ lefts ++ rights ++ after) lefts.length
            (before.length + lefts.length) =
          some (before ++ first ++ rights ++ second ++ after, first.length,
            before.length + first.length) := by
  induction fuel with
  | zero =>
    omega
  | succ fuel ih =>
    intro lefts after block enough
    obtain ⟨first, last, rfl, hlast⟩ : ∃ first last, lefts = first ++ last ∧
        last.length = rights.length :=
      ⟨lefts.take (lefts.length - rights.length), lefts.drop (lefts.length - rights.length),
        (take_append_drop _ _).symm, by rw [length_drop]; omega⟩
    rw [length_append] at block enough
    have swapped := swapNonoverlapping_adjacent (before ++ first) last rights after hlast
    simp only [length_append, hlast] at swapped
    rw [swapDown]
    simp only [← append_assoc, length_append, hlast, add_sub_cancel,
      ← add_assoc, swapped, bind_eq_bind, bind_some]
    by_cases over_ : first.length < rights.length
    · rw [if_pos over_]
      exact ⟨first, last, rfl, by omega, rfl⟩
    · obtain ⟨front, back, rfl, shorter, run⟩ := ih first (last ++ after) (by omega) (by omega)
      rw [if_neg over_]
      simp only [← append_assoc] at run ⊢
      refine ⟨front, back ++ last, by simp, by omega, ?_⟩
      rw [run]
      simp

lemma swapUp_spec (lefts after : List T) (hleft : 0 < lefts.length)
    (fuel : Nat) : ∀ before rights, lefts.length ≤ rights.length → rights.length ≤ fuel →
      ∃ first second, rights = first ++ second ∧ second.length < rights.length ∧
        swapUp lefts.length fuel (before ++ lefts ++ rights ++ after)
            (before.length + lefts.length) rights.length =
          some (before ++ first ++ lefts ++ second ++ after,
            before.length + first.length + lefts.length, second.length) := by
  induction fuel with
  | zero =>
    omega
  | succ fuel ih =>
    intro before rights block enough
    obtain ⟨first, last, rfl, hfirst⟩ : ∃ first last, rights = first ++ last ∧
        lefts.length = first.length :=
      ⟨rights.take lefts.length, rights.drop lefts.length,
        (take_append_drop _ _).symm, by rw [length_take]; omega⟩
    rw [length_append] at block enough
    have swapped := swapNonoverlapping_adjacent before lefts first (last ++ after) hfirst
    simp only [← append_assoc, ← hfirst] at swapped
    rw [swapUp]
    simp only [← append_assoc, length_append, ← hfirst, add_sub_cancel,
      Nat.add_sub_cancel_left, swapped, bind_eq_bind, bind_some]
    by_cases over_ : last.length < lefts.length
    · rw [if_pos over_]
      exact ⟨first, last, rfl, by omega, by rw [← hfirst]; rfl⟩
    · obtain ⟨front, back, rfl, shorter, run⟩ := ih (before ++ first) last (by omega) (by omega)
      rw [if_neg over_]
      simp only [← append_assoc, length_append, ← hfirst] at run ⊢
      refine ⟨first ++ front, back, by simp, by omega, ?_⟩
      rw [run]
      simp [add_assoc, hfirst]

lemma throughBuffer_spec (before lefts rights after : List T)
    (fits : min lefts.length rights.length * layout.size ≤ 32 * word) :
    throughBuffer word layout (before ++ lefts ++ rights ++ after) lefts.length
      (before.length + lefts.length) rights.length = some (before ++ rights ++ lefts ++ after) := by
  -- the range, cut where the two sides are to meet
  obtain ⟨p, q, cut, hp, hq⟩ : ∃ p q, lefts ++ rights = p ++ q ∧ p.length = rights.length ∧
      q.length = lefts.length :=
    ⟨(lefts ++ rights).take rights.length, (lefts ++ rights).drop rights.length,
      (take_append_drop _ _).symm, by simp, by simp⟩
  have readLeft := readBlock_middle before lefts (rights ++ after)
  have readRight := readBlock_middle (before ++ lefts) rights after
  rw [throughBuffer, add_sub_cancel]
  simp only [fillBuffer, copy, bind_eq_bind]
  simp only [← append_assoc, length_append] at readLeft readRight
  have whole : before ++ lefts ++ rights ++ after = before ++ p ++ q ++ after := by
    rw [append_assoc before, cut, ← append_assoc]
  split
  next small =>
    rw [min_eq_left small] at fits
    have first := writeBlock_middle before p (q ++ after) hp.symm
    have second := writeBlock_middle (before ++ rights) q after hq.symm
    simp only [← append_assoc, length_append, ← whole] at first second
    simp only [if_pos fits, readLeft, readRight, first, second, bind_some]
  · rw [min_eq_right (by omega)] at fits
    have first := writeBlock_middle (before ++ p) q after hq.symm
    have second := writeBlock_middle before p (lefts ++ after) hp.symm
    simp only [← append_assoc, length_append, ← whole, hp] at first second
    simp only [if_pos fits, readLeft, readRight, first, second, bind_some]

lemma rotateLoop_spec (positive : 0 < layout.size) (fuel : Nat) : ∀ before lefts rights after,
    lefts.length + rights.length < fuel →
      rotateLoop word layout fuel (before ++ lefts ++ rights ++ after) lefts.length
          (before.length + lefts.length) rights.length =
        some (before ++ rights ++ lefts ++ after) := by
  induction fuel with
  | zero =>
    omega
  | succ fuel ih =>
    intro before lefts rights after enough
    rw [rotateLoop]
    by_cases trivial_ : rights.length = 0 ∨ lefts.length = 0
    · rcases trivial_ with none_ | none_ <;> simp [length_eq_zero_iff.mp none_]
    rw [if_neg trivial_]
    split
    · rw [followCycles_spec before after (by omega) (by omega)]
      rfl
    split
    next fits =>
      exact throughBuffer_spec before lefts rights after ((Nat.le_div_iff_mul_le positive).mp fits)
    split
    next block =>
      obtain ⟨first, second, rfl, shorter, run⟩ :=
        swapDown_spec before rights (by omega) lefts.length lefts after block le_rfl
      rw [run]
      have smaller := ih before first rights (second ++ after) (by omega)
      simpa using smaller
    · obtain ⟨first, second, rfl, shorter, run⟩ :=
        swapUp_spec lefts after (by omega) rights.length before rights (by omega) le_rfl
      rw [run]
      have smaller := ih (before ++ first) lefts second after (by omega)
      simpa using smaller

end

/-- For all lengths and all element sizes the rotation terminates and brings the right elements
before the left ones; along the cycles it does so in `gcd(left, right)` rounds, as many as the
first round found. -/
theorem ptr_rotate_rotates (word : Nat) (layout : Layout T) (before lefts rights after : List T) :
    ptrRotate word layout (before ++ lefts ++ rights ++ after) lefts.length
        (before.length + lefts.length) rights.length =
      some (before ++ rights ++ lefts ++ after) ∧
    (0 < lefts.length → 0 < rights.length →
      (∃ v, firstRound (before ++ lefts ++ rights ++ after) before.length lefts.length
        rights.length = some (v, Nat.gcd lefts.length rights.length)) ∧
      followCycles (before ++ lefts ++ rights ++ after) lefts.length
          (before.length + lefts.length) rights.length =
        some (before ++ rights ++ lefts ++ after, Nat.gcd lefts.length rights.length)) := by
  constructor
  · rw [ptrRotate]
    split
    next zero =>
      apply congrArg some
      apply ext_getElem
      · simp only [length_append]
        omega
      · intro i _ _
        exact layout.unique zero _ _
    · exact rotateLoop_spec (by omega) _ before lefts rights after (by omega)
  · intro hleft hright
    obtain ⟨v, first, -⟩ := firstRound_spec hleft hright (range_le_length before lefts rights after)
    exact ⟨⟨v, first⟩, followCycles_spec before after hleft hright⟩

end Rotate
