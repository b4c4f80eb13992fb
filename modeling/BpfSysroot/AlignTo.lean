import Mathlib

/-!
# `align_offset` and `align_to`

`core/src/ptr/mod.rs` and `core/src/slice/mod.rs` on a 64-bit target. A loop that may run on takes
the number of its rounds as fuel and gives nothing when that runs out.
-/

namespace AlignTo

open Nat (add_sub_cancel' mod_eq_of_lt mod_le mod_lt mod_modEq)

def wrappingAdd (x y : Nat) : Nat := (x + y) % 2 ^ 64

def wrappingSub (x y : Nat) : Nat := (x + (2 ^ 64 - y)) % 2 ^ 64

def wrappingMul (x y : Nat) : Nat := x * y % 2 ^ 64

/-- The trailing zeros among the low `w` bits. -/
def cttz : Nat → Nat → Nat
  | 0, _ => 0
  | w + 1, n => if n % 2 = 1 then 0 else cttz w (n / 2) + 1

def invTableMod16 : List Nat := [1, 11, 13, 7, 9, 3, 5, 15]

def modInvLoop (x m : Nat) : Nat → Nat → Nat → Option Nat
  | 0, _, _ => none
  | fuel + 1, inverse, goingMod =>
    let inverse := wrappingMul inverse (wrappingSub 2 (wrappingMul x inverse))
    if m ≤ goingMod then some (inverse &&& (m - 1))
    else modInvLoop x m fuel inverse (wrappingMul goingMod goingMod)

def modInv (fuel x m : Nat) : Option Nat :=
  let tableInverse := invTableMod16.getD ((x &&& (16 - 1)) >>> 1) 0
  if m ≤ 16 then some (tableInverse &&& (m - 1))
  else modInvLoop x m fuel tableInverse (16 * 16)

/-- The pointer is its address, and `stride` is the size of its element. -/
def alignOffset (fuel p stride a : Nat) : Option Nat :=
  if stride = 1 then
    some (wrappingSub (wrappingAdd p (a - 1) &&& wrappingSub 0 a) p)
  else
    let pmoda := p &&& (a - 1)
    if pmoda = 0 then some 0
    else if stride = 0 then some (2 ^ 64 - 1)
    else
      let smoda := stride &&& (a - 1)
      let gcdpow := min (cttz 64 stride) (cttz 64 a)
      let gcd := 1 <<< gcdpow
      if p &&& (gcd - 1) = 0 then do
        let a2 := a >>> gcdpow
        let s2 := smoda >>> gcdpow
        let minusp2 := a2 - (pmoda >>> gcdpow)
        let inverse ← modInv fuel s2 a2
        return wrappingMul minusp2 inverse &&& (a2 - 1)
      else some (2 ^ 64 - 1)

def gcdLoop : Nat → Nat → Nat → Nat → Option Nat
  | 0, _, _, _ => none
  | fuel + 1, a, b, ctzB =>
    let b := b >>> ctzB
    let (a, b) := if a > b then (b, a) else (a, b)
    let b := b - a
    if b = 0 then some a else gcdLoop fuel a b (cttz 64 b)

def gcd (fuel a b : Nat) : Option Nat :=
  if a = 0 then some b
  else if b = 0 then some a
  else do
    let ctzA := cttz 64 a
    let ctzB := cttz 64 b
    let a ← gcdLoop fuel (a >>> ctzA) b ctzB
    return a <<< min ctzA ctzB

/-- A slice by its start and its number of elements. -/
structure Part where
  start : Nat
  len : Nat
deriving DecidableEq

def alignToOffsets (fuel len sizeT sizeU : Nat) : Option (Nat × Nat) := do
  let gcd ← gcd fuel sizeT sizeU
  let ts := sizeU / gcd
  let us := sizeT / gcd
  return (len / ts * us, len % ts)

/-- An empty slice that is not cut from `self` starts at its alignment. -/
def alignTo (fuel sizeT alignT sizeU alignU : Nat) (self : Part) :
    Option (Part × Part × Part) :=
  if sizeU = 0 ∨ sizeT = 0 then some (self, ⟨alignU, 0⟩, ⟨alignT, 0⟩)
  else do
    let offset ← alignOffset fuel self.start sizeT alignU
    if offset > self.len then return (self, ⟨alignU, 0⟩, ⟨alignT, 0⟩)
    let rest : Part := ⟨self.start + offset * sizeT, self.len - offset⟩
    let (usLen, tsLen) ← alignToOffsets fuel rest.len sizeT sizeU
    return (⟨self.start, offset⟩, ⟨rest.start, usLen⟩,
      ⟨rest.start + (rest.len - tsLen) * sizeT, tsLen⟩)

section
variable {n k w x y : Nat}

lemma cttz_spec (pos : 0 < n) (lt : n < 2 ^ w) : 2 ^ cttz w n ∣ n ∧ n / 2 ^ cttz w n % 2 = 1 := by
  induction w generalizing n with
  | zero => omega
  | succ w ih =>
    rw [cttz]
    split
    case isTrue odd => exact ⟨one_dvd n, by rwa [pow_zero, Nat.div_one]⟩
    case isFalse even =>
      obtain ⟨dvd, odd⟩ := ih (n := n / 2) (by omega) (by omega)
      rw [pow_succ', ← Nat.div_div_eq_div_mul]
      exact ⟨(Nat.dvd_div_iff_mul_dvd (by omega)).mp dvd, odd⟩

lemma le_cttz (pos : 0 < n) (lt : n < 2 ^ w) (dvd : 2 ^ k ∣ n) : k ≤ cttz w n := by
  obtain ⟨factor, odd⟩ := cttz_spec pos lt
  by_contra! above
  have two := (Nat.dvd_div_iff_mul_dvd factor).mpr ((pow_dvd_pow 2 above).trans dvd)
  omega

lemma cttz_two_pow (lt : k < w) : cttz w (2 ^ k) = k := by
  have pos : 0 < 2 ^ k := by positivity
  have below : 2 ^ k < 2 ^ w := Nat.pow_lt_pow_right (by decide) lt
  apply le_antisymm
  · exact (Nat.pow_dvd_pow_iff_le_right (by decide)).mp (cttz_spec pos below).1
  · exact le_cttz pos below dvd_rfl

lemma wrappingMul_modEq (x y : Nat) : (wrappingMul x y : ℤ) ≡ x * y [ZMOD (2 ^ 64 : Nat)] := by
  rw [wrappingMul, Int.natCast_mod]
  exact Int.mod_modEq _ _

lemma wrappingSub_modEq (le : y ≤ 2 ^ 64) :
    (wrappingSub x y : ℤ) ≡ x - y [ZMOD (2 ^ 64 : Nat)] := by
  rw [wrappingSub, Int.natCast_mod, Nat.cast_add, Nat.cast_sub le]
  exact (Int.mod_modEq _ _).trans (Int.modEq_iff_dvd.mpr ⟨-1, by ring⟩)

/-- Clearing the low bits of a word with the mask `-2 ^ k`. -/
lemma and_neg_two_pow (lt : x < 2 ^ 64) (le : k ≤ 64) :
    x &&& (2 ^ 64 - 2 ^ k) = x / 2 ^ k * 2 ^ k := by
  have mask : 2 ^ 64 - 2 ^ k = 2 ^ k * (2 ^ (64 - k) - 1) := by
    rw [Nat.mul_sub, ← pow_add, add_sub_cancel' le, mul_one]
  apply Nat.eq_of_testBit_eq
  intro i
  rw [mask, mul_comm (x / _)]
  by_cases low : k ≤ i
  · by_cases high : i < 64
    · simp [Nat.testBit_two_pow_mul, Nat.testBit_div_two_pow, low, show i - k < 64 - k by omega]
    · have small : x < 2 ^ i := lt.trans_le (Nat.pow_le_pow_right (by decide) (by omega))
      simp [Nat.testBit_two_pow_mul, Nat.testBit_div_two_pow, low, Nat.testBit_lt_two_pow small]
  · simp [Nat.testBit_two_pow_mul, low]

end

section
variable {e fuel k n x y : Nat}

/-- One round squares the modulus for which `y` is an inverse of `x`. -/
lemma square_inverse (word : 2 * e ≤ 64) (inv : (x * y : ℤ) ≡ 1 [ZMOD (2 ^ e : Nat)]) :
    (x * wrappingMul y (wrappingSub 2 (wrappingMul x y)) : ℤ) ≡ 1 [ZMOD (2 ^ (2 * e) : Nat)] := by
  have bound : wrappingMul x y ≤ 2 ^ 64 := (mod_lt _ (by decide)).le
  have round : (wrappingMul y (wrappingSub 2 (wrappingMul x y)) : ℤ) ≡ y * (2 - x * y)
      [ZMOD (2 ^ 64 : Nat)] :=
    (wrappingMul_modEq _ _).trans (((wrappingSub_modEq bound).trans
      ((Int.ModEq.refl 2).sub (wrappingMul_modEq x y))).mul_left _)
  have narrow := (round.of_dvd (Int.natCast_dvd_natCast.mpr (pow_dvd_pow 2 word))).mul_left (x : ℤ)
  obtain ⟨q, hq⟩ := inv.symm.dvd
  refine narrow.trans (Int.modEq_iff_dvd.mpr ⟨q * q, ?_⟩)
  calc (1 : ℤ) - x * (y * (2 - x * y)) = (x * y - 1) * (x * y - 1) := by ring
    _ = _ := by rw [hq, two_mul, pow_add, Nat.cast_mul]; ring

lemma table_inverse (odd : x % 2 = 1) :
    (x * (invTableMod16.getD ((x &&& (16 - 1)) >>> 1) 0 : Nat) : ℤ) ≡ 1 [ZMOD (2 ^ 4 : Nat)] := by
  have low : x &&& (16 - 1) = x % 16 := Nat.and_two_pow_sub_one_eq_mod x 4
  have table : ∀ r < 16, r % 2 = 1 → r * invTableMod16.getD (r >>> 1) 0 % 16 = 1 := by decide
  have inv := table (x % 16) (mod_lt x (by decide)) (by omega)
  rw [Nat.mod_mul_mod, ← low] at inv
  exact_mod_cast (show _ ≡ 1 [MOD 2 ^ 4] from inv)

/-- `r` is the inverse of `x` modulo `2 ^ k`. -/
def Inverts (x k r : Nat) : Prop := r < 2 ^ k ∧ x * r ≡ 1 [MOD 2 ^ k]

lemma masked_inverse (le : k ≤ e) (inv : (x * y : ℤ) ≡ 1 [ZMOD (2 ^ e : Nat)]) :
    Inverts x k (y &&& (2 ^ k - 1)) := by
  have inv : x * y ≡ 1 [MOD 2 ^ e] := by exact_mod_cast inv
  rw [Nat.and_two_pow_sub_one_eq_mod]
  exact ⟨mod_lt y (by positivity),
    ((mod_modEq y _).mul_left x).trans (inv.of_dvd (pow_dvd_pow 2 le))⟩

lemma modInvLoop_done (le : k ≤ 2 * e) (word : 2 * e ≤ 64)
    (inv : (x * y : ℤ) ≡ 1 [ZMOD (2 ^ e : Nat)]) :
    ∃ r, modInvLoop x (2 ^ k) (fuel + 1) y (2 ^ (2 * e)) = some r ∧ Inverts x k r := by
  rw [modInvLoop, if_pos (Nat.pow_le_pow_right (by decide) le)]
  exact ⟨_, rfl, masked_inverse le (square_inverse word inv)⟩

/-- The modulus is squared after it was compared, and that must not lead past `2 ^ 32`. -/
lemma modInvLoop_spec (rounds : Nat) (word : 2 * e * 2 ^ rounds ≤ 32)
    (enough : k ≤ 2 * e * 2 ^ rounds) (inv : (x * y : ℤ) ≡ 1 [ZMOD (2 ^ e : Nat)]) :
    ∃ r, modInvLoop x (2 ^ k) (fuel + rounds + 1) y (2 ^ (2 * e)) = some r ∧ Inverts x k r := by
  induction rounds generalizing e y with
  | zero => exact modInvLoop_done (by omega) (by omega) inv
  | succ rounds ih =>
    have small : 2 * (2 * e) * 2 ^ rounds ≤ 32 := by rw [pow_succ] at word; linarith
    have le : 2 * (2 * e) ≤ 32 := (Nat.le_mul_of_pos_right _ (by positivity)).trans small
    by_cases done : k ≤ 2 * e
    · exact modInvLoop_done done (by omega) inv
    · have squared : wrappingMul (2 ^ (2 * e)) (2 ^ (2 * e)) = 2 ^ (2 * (2 * e)) := by
        rw [wrappingMul, ← pow_add, ← two_mul]
        exact mod_eq_of_lt (Nat.pow_lt_pow_right (by decide) (by omega))
      rw [modInvLoop, if_neg (by rwa [Nat.pow_le_pow_iff_right (by decide)]), squared]
      exact ih small (by rw [pow_succ] at enough; linarith) (square_inverse (by omega) inv)

lemma modInv_spec (odd : x % 2 = 1) (small : k ≤ 32) :
    ∃ r, modInv (fuel + 3) x (2 ^ k) = some r ∧ Inverts x k r := by
  have inv := table_inverse odd
  rw [modInv]
  split
  case isTrue le =>
    exact ⟨_, rfl, masked_inverse ((Nat.pow_le_pow_iff_right (by decide)).mp le) inv⟩
  case isFalse => exact modInvLoop_spec 2 (by decide) small inv

/-- Past `2 ^ 32` the square of the modulus is zero, and the loop runs on. -/
lemma modInv_diverges (large : 32 < k) (fuel x : Nat) : modInv fuel x (2 ^ k) = none := by
  have zero (fuel y : Nat) : modInvLoop x (2 ^ k) fuel y 0 = none := by
    induction fuel generalizing y with
    | zero => rfl
    | succ fuel ih => rw [modInvLoop, if_neg (by simp)]; exact ih _
  have wide : 2 ^ 32 < 2 ^ k := Nat.pow_lt_pow_right (by decide) large
  rw [modInv, if_neg (by omega)]
  obtain _ | _ | _ | fuel := fuel
  all_goals simp only [modInvLoop, wrappingMul, Nat.reduceMul, Nat.reduceMod, Nat.reducePow] at *
  all_goals simp only [show ¬ 2 ^ k ≤ 256 by omega, show ¬ 2 ^ k ≤ 65536 by omega,
    show ¬ 2 ^ k ≤ 4294967296 by omega, if_false, zero]

end

section
variable {g j k o p s : Nat}

/-- `o` elements behind `p` the address, taken modulo the address space, is a multiple of `a`. -/
def Aligns (p s a o : Nat) : Prop := a ∣ (p + o * s) % 2 ^ 64

/-- What `align_offset` is to return: the least solution, or `usize::MAX` where there is none. -/
def Solution (p s a r : Nat) : Prop :=
  IsLeast {o | Aligns p s a o} r ∨ (∀ o, ¬ Aligns p s a o) ∧ r = 2 ^ 64 - 1

lemma aligns_iff (hk : k ≤ 63) : Aligns p s (2 ^ k) o ↔ 2 ^ k ∣ p + o * s :=
  Nat.dvd_mod_iff (pow_dvd_pow 2 (by omega))

/-- A solution below the reduced modulus is the least one. -/
lemma isLeast_reduced (hk : g + j ≤ 63) (odd : s % 2 = 1) (lt : o < 2 ^ j)
    (solves : 2 ^ j ∣ p + o * s) :
    IsLeast {o | Aligns (2 ^ g * p) (2 ^ g * s) (2 ^ (g + j)) o} o := by
  have reduced (i : Nat) : Aligns (2 ^ g * p) (2 ^ g * s) (2 ^ (g + j)) i ↔ 2 ^ j ∣ p + i * s := by
    rw [aligns_iff hk, mul_left_comm, ← mul_add, pow_add]
    exact Nat.mul_dvd_mul_iff_left (by positivity)
  refine ⟨(reduced o).mpr solves, fun i hi => ?_⟩
  have zero := Nat.modEq_zero_iff_dvd.mpr ((reduced i).mp hi)
  have same : o * s ≡ i * s [MOD 2 ^ j] :=
    Nat.ModEq.add_left_cancel' p ((Nat.modEq_zero_iff_dvd.mpr solves).trans zero.symm)
  have coprime : Nat.Coprime (2 ^ j) s :=
    (Nat.coprime_two_left.mpr (Nat.odd_iff.mpr odd)).pow_left j
  have unique := same.cancel_right_of_coprime coprime
  calc o = i % 2 ^ j := (mod_eq_of_lt lt).symm.trans unique
    _ ≤ i := mod_le i _

lemma alignOffset_one (hp : p < 2 ^ 64) (hk : k ≤ 63) :
    IsLeast {o | Aligns p 1 (2 ^ k) o}
      (wrappingSub (wrappingAdd p (2 ^ k - 1) &&& wrappingSub 0 (2 ^ k)) p) := by
  have pos : 0 < 2 ^ k := by positivity
  have word : 2 ^ k ∣ 2 ^ 64 := pow_dvd_pow 2 (by omega)
  have mask : wrappingSub 0 (2 ^ k) = 2 ^ 64 - 2 ^ k := by rw [wrappingSub]; omega
  have below := Nat.div_mul_le_self (wrappingAdd p (2 ^ k - 1)) (2 ^ k)
  have above := Nat.lt_div_mul_add (a := wrappingAdd p (2 ^ k - 1)) pos
  have multiple := Nat.dvd_mul_left (2 ^ k) (wrappingAdd p (2 ^ k - 1) / 2 ^ k)
  have bound : wrappingAdd p (2 ^ k - 1) < 2 ^ 64 := Nat.mod_lt _ (by decide)
  rw [mask, and_neg_two_pow bound (by omega)]
  generalize wrappingAdd p (2 ^ k - 1) / 2 ^ k * 2 ^ k = rounded at *
  rw [wrappingAdd] at below above
  rw [wrappingSub]
  have back : (p + (rounded + (2 ^ 64 - p)) % 2 ^ 64 * 1) % 2 ^ 64 = rounded % 2 ^ 64 := by omega
  have solves := (Nat.dvd_mod_iff word).mp (back ▸ (Nat.dvd_mod_iff word).mpr multiple)
  simpa using isLeast_reduced (g := 0) (by omega) (by decide) (by omega) solves

/-- Among bytes the next aligned address is near. -/
lemma alignOffset_bytes (fuel : Nat) (hp : p < 2 ^ 64) (hk : k ≤ 63) :
    ∃ r, alignOffset fuel p 1 (2 ^ k) = some r ∧ r < 2 ^ k ∧ (p + r) % 2 ^ k = 0 := by
  obtain ⟨aligned, least⟩ := alignOffset_one hp hk
  have lt : p % 2 ^ k < 2 ^ k := mod_lt p (by positivity)
  have near : Aligns p 1 (2 ^ k) ((2 ^ k - p % 2 ^ k) % 2 ^ k) := by
    refine (aligns_iff hk).mpr (Nat.modEq_zero_iff_dvd.mp ?_)
    rw [mul_one]
    refine ((mod_modEq p _).symm.add (mod_modEq _ _)).trans ?_
    rw [add_sub_cancel' lt.le]
    exact Nat.modEq_zero_iff_dvd.mpr dvd_rfl
  refine ⟨_, rfl, (least near).trans_lt (mod_lt _ (by positivity)), Nat.mod_eq_zero_of_dvd ?_⟩
  simpa using (aligns_iff hk).mp aligned

/-- The branch of a stride that shares the factor `2 ^ g` with the alignment and the address. -/
lemma alignOffset_reduced (fuel : Nat) (hk : g + j ≤ 63) (hj : 0 < j) (small : j ≤ 32)
    (odd : s % 2 = 1) :
    ∃ r, modInv (fuel + 3) (s % 2 ^ j) (2 ^ j) = some r ∧
      IsLeast {o | Aligns (2 ^ g * p) (2 ^ g * s) (2 ^ (g + j)) o}
        (wrappingMul (2 ^ j - p % 2 ^ j) r &&& (2 ^ j - 1)) := by
  have lt : p % 2 ^ j < 2 ^ j := mod_lt p (by positivity)
  obtain ⟨r, run, -, inv⟩ := modInv_spec
    (by rwa [Nat.mod_mod_of_dvd s (dvd_pow_self 2 hj.ne')]) small
  refine ⟨r, run, ?_⟩
  rw [wrappingMul, Nat.and_two_pow_sub_one_eq_mod, Nat.mod_mod_of_dvd _ (pow_dvd_pow 2 (by omega))]
  refine isLeast_reduced hk odd (mod_lt _ (by positivity)) (Nat.modEq_zero_iff_dvd.mp ?_)
  have inverse : r * s ≡ 1 [MOD 2 ^ j] := by
    rw [mul_comm]
    exact ((mod_modEq s _).symm.mul_right r).trans inv
  calc p + (2 ^ j - p % 2 ^ j) * r % 2 ^ j * s
      ≡ p % 2 ^ j + (2 ^ j - p % 2 ^ j) * r * s [MOD 2 ^ j] :=
        (mod_modEq p _).symm.add ((mod_modEq _ _).mul_right s)
    _ ≡ p % 2 ^ j + (2 ^ j - p % 2 ^ j) * 1 [MOD 2 ^ j] := by
        rw [mul_assoc]
        exact (inverse.mul_left _).add_left _
    _ ≡ 0 [MOD 2 ^ j] := by
        rw [mul_one, add_sub_cancel' lt.le]
        exact Nat.modEq_zero_iff_dvd.mpr dvd_rfl

lemma alignOffset_iff (fuel : Nat) (hp : p < 2 ^ 64) (hs : s < 2 ^ 64) (hk : k ≤ 63) :
    (∃ r, alignOffset (fuel + 3) p s (2 ^ k) = some r ∧ Solution p s (2 ^ k) r) ↔
      s = 1 ∨ 2 ^ k ∣ p ∨ ¬ 2 ^ min (cttz 64 s) k ∣ p ∨ 2 ^ (k - 32) ∣ s := by
  rw [alignOffset]
  by_cases one : s = 1
  · subst one
    exact iff_of_true ⟨_, if_pos rfl, .inl (alignOffset_one hp hk)⟩ (.inl rfl)
  simp only [if_neg one, Nat.and_two_pow_sub_one_eq_mod, cttz_two_pow (show k < 64 by omega)]
  by_cases apart : 2 ^ k ∣ p
  · refine iff_of_true ⟨0, if_pos (Nat.mod_eq_zero_of_dvd apart), .inl ⟨?_, ?_⟩⟩ (.inr (.inl apart))
    · exact (aligns_iff hk).mpr (by simpa using apart)
    · exact fun i _ => Nat.zero_le i
  rw [if_neg fun zero => apart (Nat.dvd_of_mod_eq_zero zero)]
  by_cases zero : s = 0
  · refine iff_of_true ⟨_, if_pos zero, .inr ⟨fun o solves => apart ?_, rfl⟩⟩ (by simp [zero])
    rwa [aligns_iff hk, zero] at solves
  have pos := pos_of_ne_zero zero
  obtain ⟨factor, odd⟩ := cttz_spec pos hs
  have long := le_cttz (k := k - 32) pos hs
  rw [if_neg zero, Nat.one_shiftLeft, Nat.and_two_pow_sub_one_eq_mod]
  generalize cttz 64 s = c at *
  by_cases shared : 2 ^ min c k ∣ p
  · have lt : c < k := by
      by_contra! le
      rw [min_eq_right le] at shared
      exact apart shared
    simp only [one, apart, shared, false_or, not_true, Nat.mod_eq_zero_of_dvd shared, if_true]
    rw [min_eq_left lt.le] at shared ⊢
    obtain ⟨j, rfl⟩ := Nat.exists_eq_add_of_le lt.le
    obtain ⟨s, rfl⟩ := factor
    obtain ⟨p, rfl⟩ := shared
    rw [Nat.mul_div_cancel_left _ (by positivity)] at odd
    simp only [Nat.shiftRight_eq_div_pow, pow_add, Nat.mul_mod_mul_left,
      Nat.mul_div_cancel_left _ (Nat.two_pow_pos c)]
    constructor
    · rintro ⟨r, run, -⟩
      by_contra far
      -- the inverse is asked for modulo `2 ^ j`
      have large : 32 < j := by
        by_contra! near
        exact far (dvd_mul_of_dvd_left (pow_dvd_pow 2 (by omega)) s)
      rw [modInv_diverges large] at run
      cases run
    · intro dvd
      have near := long dvd
      obtain ⟨r, run, least⟩ := alignOffset_reduced fuel hk (by omega) (by omega) odd
      exact ⟨_, by rw [run]; rfl, .inl (by rwa [pow_add] at least)⟩
  · refine iff_of_true ⟨_, if_neg fun rest => shared (Nat.dvd_of_mod_eq_zero rest), .inr ⟨?_, rfl⟩⟩
      (.inr (.inr (.inl shared)))
    intro o solves
    rw [aligns_iff hk] at solves
    have part := (pow_dvd_pow 2 (min_le_right c k)).trans solves
    have step := ((pow_dvd_pow 2 (min_le_left c k)).trans factor).mul_left o
    exact shared ((Nat.dvd_add_left step).mp part)

/-- The congruence is solved, in three rounds of the loop, exactly if no inverse is needed or the
alignment exceeds the stride at most by the factor `2 ^ 32` after their common powers of two are
taken out. -/
theorem align_offset_solves_iff (fuel : Nat) (hp : p < 2 ^ 64) (hs : s < 2 ^ 64) (hk : k ≤ 63) :
    ((∃ r, alignOffset (fuel + 3) p s (2 ^ k) = some r ∧ Solution p s (2 ^ k) r) ↔
      s = 1 ∨ 2 ^ k ∣ p ∨ ¬ 2 ^ min (cttz 64 s) k ∣ p ∨ 2 ^ (k - 32) ∣ s) ∧
    ∀ x < 2 ^ k, x % 2 = 1 →
      ((∃ r, modInv (fuel + 3) x (2 ^ k) = some r ∧ Inverts x k r) ↔ k ≤ 32) := by
  refine ⟨alignOffset_iff fuel hp hs hk, fun x _ odd => ⟨?_, modInv_spec odd⟩⟩
  rintro ⟨r, run, -⟩
  by_contra! large
  rw [modInv_diverges large] at run
  cases run

theorem align_offset_solves_iff_sixteen :
    alignOffset 3 1 3 16 = some 5 ∧ Solution 1 3 16 5 ∧
      ∃ r, alignOffset 3 1 6 (2 ^ 34) = some r ∧ Solution 1 6 (2 ^ 34) r := by
  obtain ⟨r, run, solved⟩ :=
    (align_offset_solves_iff 0 (p := 1) (s := 3) (k := 4) (by decide) (by decide) (by decide)).1.mpr
      (by decide)
  obtain rfl : 5 = r := Option.some.inj run
  exact ⟨run, solved, (align_offset_solves_iff 0 (by decide) (by decide) (by decide)).1.mpr
    (by decide)⟩

/-- The offset exists, but the search for the inverse of 3 modulo `2 ^ 33` never ends. -/
theorem align_offset_runs_on :
    (∀ fuel, alignOffset fuel 1 3 (2 ^ 33) = none) ∧ Aligns 1 3 (2 ^ 33) 5726623061 := by
  refine ⟨fun fuel => ?_, (aligns_iff (by decide)).mpr (by decide)⟩
  show Option.bind (modInv fuel 3 (2 ^ 33)) _ = none
  rw [modInv_diverges (by decide)]
  rfl

end

variable {a b fuel k n p sizeT sizeU : Nat}

lemma gcd_two_pow_mul (odd : a % 2 = 1) (z b : Nat) : Nat.gcd a (2 ^ z * b) = Nat.gcd a b :=
  ((Nat.coprime_two_left.mpr (Nat.odd_iff.mpr odd)).pow_left z).gcd_mul_left_cancel_right b

lemma gcdLoop_spec (fuel : Nat) (odd : a % 2 = 1) (pos : 0 < b) (lt : b < 2 ^ 64)
    (bound : a < 2 ^ 64) (enough : a + b ≤ fuel) :
    gcdLoop fuel a b (cttz 64 b) = some (Nat.gcd a b) := by
  induction fuel generalizing a b with
  | zero => omega
  | succ fuel ih =>
    obtain ⟨⟨c, hc⟩, oddB⟩ := cttz_spec pos lt
    generalize cttz 64 b = z at *
    subst hc
    rw [Nat.mul_div_cancel_left _ (by positivity)] at oddB
    have le : c ≤ 2 ^ z * c := Nat.le_mul_of_pos_left c (by positivity)
    rw [gcd_two_pow_mul odd, gcdLoop, Nat.shiftRight_eq_div_pow,
      Nat.mul_div_cancel_left _ (by positivity)]
    by_cases swap : a > c
    · simp only [if_pos swap, if_neg (show ¬ a - c = 0 by omega)]
      rw [ih oddB (by omega) (by omega) (by omega) (by omega), Nat.gcd_sub_self_right swap.le,
        Nat.gcd_comm]
    · simp only [if_neg swap]
      by_cases done : c - a = 0
      · obtain rfl : a = c := by omega
        rw [if_pos done, Nat.gcd_self]
      · rw [if_neg done, ih odd (by omega) (by omega) bound (by omega),
          Nat.gcd_sub_self_right (by omega)]

lemma gcd_spec (ha : a < 2 ^ 64) (hb : b < 2 ^ 64) (enough : a + b ≤ fuel) :
    gcd fuel a b = some (Nat.gcd a b) := by
  rw [gcd]
  by_cases zeroA : a = 0
  · rw [if_pos zeroA, zeroA, Nat.gcd_zero_left]
  by_cases zeroB : b = 0
  · rw [if_neg zeroA, if_pos zeroB, zeroB, Nat.gcd_zero_right]
  obtain ⟨⟨c, hc⟩, oddA⟩ := cttz_spec (pos_of_ne_zero zeroA) ha
  obtain ⟨⟨d, hd⟩, oddB⟩ := cttz_spec (pos_of_ne_zero zeroB) hb
  have le := Nat.div_le_self a (2 ^ cttz 64 a)
  have loop := gcdLoop_spec fuel oddA (by omega) hb (by omega) (by omega)
  simp only [if_neg zeroA, if_neg zeroB, Nat.shiftRight_eq_div_pow, loop]
  generalize cttz 64 a = y at *
  generalize cttz 64 b = z at *
  subst hc hd
  rw [Nat.mul_div_cancel_left _ (by positivity)] at oddA oddB ⊢
  show some (Nat.gcd c (2 ^ z * d) <<< min y z) = _
  rw [gcd_two_pow_mul oddA, Nat.shiftLeft_eq, mul_comm]
  rcases le_total y z with le | le
  all_goals obtain ⟨t, rfl⟩ := Nat.exists_eq_add_of_le le
  · rw [min_eq_left le, pow_add, mul_assoc, Nat.gcd_mul_left, gcd_two_pow_mul oddA]
  · rw [min_eq_right le, pow_add, mul_assoc, Nat.gcd_mul_left, Nat.gcd_comm (2 ^ t * c),
      gcd_two_pow_mul oddB, Nat.gcd_comm d]

/-- No type has an alignment above `2 ^ 29`, and no slice more than `isize::MAX` bytes. -/
theorem align_to_splits (fuel alignT : Nat) (hp : p < 2 ^ 64) (room : n * sizeT < 2 ^ 63)
    (hT : 0 < sizeT ∧ sizeT < 2 ^ 64) (hU : 0 < sizeU ∧ sizeU < 2 ^ 64) (hk : k ≤ 32) :
    (∃ left middle right, alignTo (fuel + sizeT + sizeU + 3) sizeT alignT sizeU (2 ^ k) ⟨p, n⟩ =
        some (left, middle, right) ∧
      (left.len + right.len) * sizeT + middle.len * sizeU = n * sizeT ∧
      (middle.len ≠ 0 → 2 ^ k ∣ middle.start) ∧
      (left = ⟨p, n⟩ ∨
        left.start = p ∧ middle.start = left.start + left.len * sizeT ∧
        right.start = middle.start + middle.len * sizeU ∧
        right.start + right.len * sizeT = p + n * sizeT ∧
        right.len < sizeU / Nat.gcd sizeT sizeU)) ∧
    ∀ a < 2 ^ 64, ∀ b < 2 ^ 64, gcd (a + b) a b = some (Nat.gcd a b) := by
  refine ⟨?_, fun a ha b hb => gcd_spec ha hb le_rfl⟩
  obtain ⟨offset, run, solved⟩ := (alignOffset_iff (fuel + sizeT + sizeU) hp hT.2
    (show k ≤ 63 by omega)).mpr (by simp [show k - 32 = 0 by omega])
  rw [alignTo, if_neg (by omega)]
  simp only [run]
  by_cases beyond : offset > n
  · refine ⟨⟨p, n⟩, ⟨2 ^ k, 0⟩, ⟨alignT, 0⟩, ?_, by simp, by simp, .inl rfl⟩
    simp [beyond]
  have small : n ≤ n * sizeT := Nat.le_mul_of_pos_right n hT.1
  have aligned : 2 ^ k ∣ p + offset * sizeT := by
    rcases solved with least | ⟨-, none⟩
    · exact (aligns_iff (by omega)).mp least.1
    · omega
  obtain ⟨m, rfl⟩ := Nat.exists_eq_add_of_le (not_lt.mp beyond)
  have counts : alignToOffsets (fuel + sizeT + sizeU + 3) m sizeT sizeU = some
      (m / (sizeU / Nat.gcd sizeT sizeU) * (sizeT / Nat.gcd sizeT sizeU),
        m % (sizeU / Nat.gcd sizeT sizeU)) := by
    rw [alignToOffsets, gcd_spec hT.2 hU.2 (by omega)]
    rfl
  have positive : 0 < sizeU / Nat.gcd sizeT sizeU := Nat.div_gcd_pos_of_pos_right _ hU.1
  have cross : sizeT / Nat.gcd sizeT sizeU * sizeU = sizeU / Nat.gcd sizeT sizeU * sizeT := by
    rw [Nat.div_mul_right_comm (Nat.gcd_dvd_left _ _), mul_comm,
      Nat.div_mul_right_comm (Nat.gcd_dvd_right _ _)]
  generalize sizeU / Nat.gcd sizeT sizeU = ts at *
  generalize sizeT / Nat.gcd sizeT sizeU = us at *
  have middle : m / ts * us * sizeU = (m - m % ts) * sizeT := by
    rw [mul_assoc, cross, ← mul_assoc, Nat.div_mul_self_eq_mod_sub_self]
  have fits := mod_le m ts
  refine ⟨⟨p, offset⟩, ⟨p + offset * sizeT, m / ts * us⟩,
    ⟨p + offset * sizeT + (m - m % ts) * sizeT, m % ts⟩, ?_, ?_, fun _ => aligned,
    .inr ⟨rfl, rfl, by rw [middle], ?_, mod_lt m positive⟩⟩
  · simp [counts]
  · rw [middle, ← add_mul, add_assoc, add_sub_cancel' fits]
  · rw [add_assoc, add_assoc, ← add_mul, ← add_mul, Nat.sub_add_cancel fits]

theorem align_to_splits_bytes : alignTo 8 1 1 4 4 ⟨1, 10⟩ = some (⟨1, 3⟩, ⟨4, 1⟩, ⟨8, 3⟩) ∧
    (3 + 3) * 1 + 1 * 4 = 10 * 1 := by
  obtain ⟨⟨left, middle, right, run, total, -⟩, -⟩ := align_to_splits (n := 10) (p := 1) (k := 2)
    0 1 (by decide) (by decide) (show 0 < 1 ∧ _ by decide) (show 0 < 4 ∧ _ by decide) (by decide)
  have result : alignTo 8 1 1 4 4 ⟨1, 10⟩ = some (⟨1, 3⟩, ⟨4, 1⟩, ⟨8, 3⟩) := by decide
  cases result.symm.trans run
  exact ⟨result, total⟩

end AlignTo
