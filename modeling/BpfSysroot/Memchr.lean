import BpfSysroot.Utf8Validation

/-!
# `memchr` and `memrchr`

`core/src/slice/memchr.rs` on a 64-bit target. The address of the slice decides how it is cut into
words. A word that is not aligned or not inside the slice has no value.
-/

namespace Memchr

open Utf8Validation List Option

section

def loUsize : BitVec 64 := 0x0101010101010101

def hiUsize : BitVec 64 := 0x8080808080808080

def containsZeroByte (x : BitVec 64) : Bool := (x - loUsize) &&& ~~~x &&& hiUsize != 0

def repeatByte (b : UInt8) : BitVec 64 := b.toBitVec.setWidth 64 * (BitVec.allOnes 64 / 255)

def position (x : UInt8) (text : List UInt8) : Option Nat := text.findIdx? (· == x)

def rposition (x : UInt8) (text : List UInt8) : Option Nat :=
  (text.reverse.findIdx? (· == x)).map (text.length - 1 - ·)

variable (address : Nat) (x : UInt8) (text : List UInt8)

/-- Whether one of the two words at an offset may hold `x`. -/
def holdsByte (offset : Nat) : Option Bool := do
  let u ← readWord (some address) text offset
  let v ← readWord (some address) text (offset + usizeBytes)
  return containsZeroByte (u ^^^ repeatByte x) || containsZeroByte (v ^^^ repeatByte x)

/-- The body loop; it gives the offset at which it stops. -/
def searchBody (offset : Nat) : Option Nat :=
  if offset + 2 * usizeBytes ≤ text.length then do
    if ← holdsByte address x text offset then return offset
    searchBody (offset + 2 * usizeBytes)
  else some offset
termination_by text.length - offset
decreasing_by
  have : 0 < usizeBytes := by decide
  omega

/-- At least two words long, so that the subtraction from the length does not wrap around. -/
def memchrGeneralCase : Option (Option Nat) := do
  let offset := min (← alignOffset (some address)) text.length
  match position x (text.take offset) with
  | some index => return some index
  | none =>
    let offset ← searchBody address x text offset
    return (position x (text.drop offset)).map (offset + ·)

def memchr : Option (Option Nat) :=
  if text.length < 2 * usizeBytes then some (position x text) else memchrGeneralCase address x text

/-- The bytes before, in and behind the pairs of words. -/
def alignTo : Option (AlignTo.Part × AlignTo.Part × AlignTo.Part) :=
  AlignTo.alignTo 1 1 1 (2 * usizeBytes) usizeBytes ⟨address % usizeValues, text.length⟩

def searchBodyBack (minAlignedOffset offset : Nat) : Option Nat :=
  if offset > minAlignedOffset then
    if 2 * usizeBytes ≤ offset then do
      if ← holdsByte address x text (offset - 2 * usizeBytes) then return offset
      searchBodyBack minAlignedOffset (offset - 2 * usizeBytes)
    else none
  else some offset
termination_by offset
decreasing_by
  have : 0 < usizeBytes := by decide
  omega

def memrchr : Option (Option Nat) := do
  let (before, _, behind) ← alignTo address text
  let offset := text.length - behind.len
  match rposition x (text.drop offset) with
  | some index => return some (offset + index)
  | none =>
    let offset ← searchBodyBack address x text before.len offset
    return rposition x (text.take offset)

end

lemma mod_digit {d : Nat} (small : d < 256) (n m : Nat) :
    (d + 256 * n) % (256 * m) = d + 256 * (n % m) := by
  have low : (d + 256 * n) / 256 = n := by omega
  rw [Nat.mod_mul, low]
  omega

lemma div_digit {d : Nat} (small : d < 256) (n i : Nat) :
    (d + 256 * n) / 2 ^ (8 * (i + 1) + 7) = n / 2 ^ (8 * i + 7) := by
  have low : (d + 256 * n) / 2 ^ 8 = n := by omega
  rw [show 8 * (i + 1) + 7 = 8 + (8 * i + 7) by omega, pow_add, ← Nat.div_div_eq_div_mul, low]

/-- Subtracting one from every byte borrows into the top bit of the lowest zero. -/
lemma exists_borrow {ds : List Nat} (small : ∀ d ∈ ds, d < 256) (zero : 0 ∈ ds) :
    let ones := Nat.ofDigits 256 (replicate ds.length 1)
    ∃ i < ds.length,
      (256 ^ ds.length - ones + Nat.ofDigits 256 ds) % 256 ^ ds.length / 2 ^ (8 * i + 7) % 2 = 1 ∧
      Nat.ofDigits 256 ds / 2 ^ (8 * i + 7) % 2 = 0 := by
  induction ds with
  | nil => cases zero
  | cons d ds ih =>
    obtain ⟨first, rest⟩ := forall_mem_cons.mp small
    have bound := Nat.ofDigits_lt_base_pow_length (b := 256) (l := replicate ds.length 1)
      (by decide) (by simp)
    rw [length_replicate] at bound
    have power : 256 ^ (ds.length + 1) = 256 * 256 ^ ds.length := Nat.pow_succ'
    simp only [length_cons, replicate_succ, Nat.ofDigits_cons, power]
    generalize 256 ^ ds.length = m at *
    generalize Nat.ofDigits 256 (replicate ds.length 1) = ones at *
    generalize Nat.ofDigits 256 ds = n at *
    rcases Nat.eq_zero_or_pos d with rfl | pos
    · refine ⟨0, by omega, ?_, by omega⟩
      rw [show 256 * m - (1 + 256 * ones) + (0 + 256 * n) = 255 + 256 * (m - ones - 1 + n) by omega,
        mod_digit (by decide)]
      omega
    · obtain ⟨i, less, high, low⟩ := ih rest (by simpa [pos.ne] using zero)
      refine ⟨i + 1, by omega, ?_, ?_⟩
      · rw [show 256 * m - (1 + 256 * ones) + (d + 256 * n) = d - 1 + 256 * (m - ones + n) by omega,
          mod_digit (by omega), div_digit (by omega)]
        exact high
      · rw [div_digit first]
        exact low

lemma containsZeroByte_of_zero {x : BitVec 64} (ds : List Nat) (small : ∀ d ∈ ds, d < 256)
    (length : ds.length = 8) (digits : x.toNat = Nat.ofDigits 256 ds) (zero : 0 ∈ ds) :
    containsZeroByte x := by
  obtain ⟨i, less, high, low⟩ := exists_borrow small zero
  rw [length] at less high
  have masked : ∀ i < 8, hiUsize.getLsbD (8 * i + 7) := by decide
  rw [containsZeroByte, bne_iff_ne]
  intro none
  have bit : ((x - loUsize) &&& ~~~x &&& hiUsize).getLsbD (8 * i + 7) = false := by
    simp [none]
  rw [BitVec.getLsbD_and, BitVec.getLsbD_and, BitVec.getLsbD_not, masked i less] at bit
  rw [← digits] at high
  rw [← digits] at low
  simp [BitVec.getLsbD, Nat.testBit_eq_decide_div_mod_eq, BitVec.toNat_sub, low] at bit
  have far := bit high
  omega

lemma toNat_append {m : Nat} (x : BitVec 8) (y : BitVec m) :
    (x ++ y).toNat = y.toNat + 2 ^ m * x.toNat := by
  rw [BitVec.toNat_append, ← Nat.shiftLeft_add_eq_or_of_lt y.isLt, Nat.shiftLeft_eq, add_comm,
    mul_comm]

/-- A word without `x` in the test has no byte `x`. -/
lemma containsZeroByte_xor {x a b c d e f g h : UInt8} (member : x ∈ [a, b, c, d, e, f, g, h]) :
    containsZeroByte ((h.toBitVec ++ (g.toBitVec ++ (f.toBitVec ++ (e.toBitVec ++ (d.toBitVec ++
      (c.toBitVec ++ (b.toBitVec ++ a.toBitVec))))))) ^^^ repeatByte x) := by
  have repeated : ∀ x : UInt8, repeatByte x = x.toBitVec ++ (x.toBitVec ++ (x.toBitVec ++
      (x.toBitVec ++ (x.toBitVec ++ (x.toBitVec ++ (x.toBitVec ++ x.toBitVec)))))) :=
    forall_byte (by decide +kernel)
  rw [repeated]
  repeat rw [BitVec.xor_append]
  apply containsZeroByte_of_zero
    ([a, b, c, d, e, f, g, h].map fun b => (b.toBitVec ^^^ x.toBitVec).toNat)
  · intro d member
    obtain ⟨b, -, rfl⟩ := mem_map.mp member
    exact BitVec.isLt _
  · rfl
  · repeat rw [toNat_append]
    simp only [map_cons, map_nil, Nat.ofDigits_cons, Nat.ofDigits_nil]
    omega
  · exact mem_map.mpr ⟨x, member, by simp⟩

section
variable {address : Nat} {x : UInt8} {text : List UInt8} {offset : Nat}

/-- Two aligned words inside the slice are read, and the test misses no `x`. -/
lemma holdsByte_spec (aligned : (address + offset) % usizeBytes = 0)
    (room : offset + 2 * usizeBytes ≤ text.length) :
    ∃ found, holdsByte address x text offset = some found ∧ (found = false →
      ∀ j, offset ≤ j → j < offset + 2 * usizeBytes → text[j]? ≠ some x) := by
  have word : ∀ index, (address + index) % usizeBytes = 0 → index + usizeBytes ≤ text.length →
      ∃ w, readWord (some address) text index = some w ∧
        (containsZeroByte (w ^^^ repeatByte x) = false →
          ∀ j, index ≤ j → j < index + usizeBytes → text[j]? ≠ some x) := by
    intro index aligned room
    have length : usizeBytes ≤ (text.drop index).length := by
      rw [length_drop]
      omega
    have at_ : ∀ j, index ≤ j → text[j]? = (text.drop index)[j - index]? := by
      intro j le
      rw [getElem?_drop, Nat.add_sub_cancel' le]
    unfold readWord
    generalize text.drop index = l at length at_
    match l, length with
    | a :: b :: c :: d :: e :: f :: g :: h :: l, _ =>
      refine ⟨_, if_pos aligned, fun absent j low high here => ?_⟩
      have member : x ∈ [a, b, c, d, e, f, g, h] := by
        have front : ([a, b, c, d, e, f, g, h] ++ l)[j - index]? = _ :=
          getElem?_append_left (by simp [usizeBytes] at high ⊢; omega)
        rw [at_ j low] at here
        exact mem_of_getElem? (front.symm.trans here)
      rw [containsZeroByte_xor member] at absent
      cases absent
  obtain ⟨u, readU, missU⟩ := word offset aligned (by omega)
  obtain ⟨v, readV, missV⟩ := word (offset + usizeBytes)
    (by rw [← add_assoc, Nat.add_mod_right, aligned]) (by omega)
  refine ⟨_, by rw [holdsByte, readU, readV]; rfl, fun none j low high => ?_⟩
  obtain ⟨noneU, noneV⟩ := Bool.or_eq_false_iff.mp none
  by_cases first : j < offset + usizeBytes
  · exact missU noneU j low first
  · exact missV noneV j (by omega) (by omega)

lemma searchBody_spec (offset : Nat) (inside : offset ≤ text.length)
    (aligned : (address + offset) % usizeBytes = 0) :
    ∃ stop, searchBody address x text offset = some stop ∧ offset ≤ stop ∧ stop ≤ text.length ∧
      ∀ j, offset ≤ j → j < stop → text[j]? ≠ some x := by
  unfold searchBody
  by_cases room : offset + 2 * usizeBytes ≤ text.length
  · obtain ⟨found, run, miss⟩ := holdsByte_spec (x := x) aligned room
    simp only [if_pos room, run]
    cases found with
    | true => exact ⟨offset, rfl, le_rfl, inside, by omega⟩
    | false =>
      obtain ⟨stop, run', le, inside', miss'⟩ := searchBody_spec (offset + 2 * usizeBytes) room
        (by rw [← add_assoc, Nat.add_mul_mod_self_right, aligned])
      refine ⟨stop, run', by omega, inside', fun j low high => ?_⟩
      by_cases here : j < offset + 2 * usizeBytes
      · exact miss rfl j low here
      · exact miss' j (by omega) high
  · exact ⟨offset, by simp [room], le_rfl, inside, by omega⟩
termination_by text.length - offset
decreasing_by
  have : 0 < usizeBytes := by decide
  omega

lemma searchBodyBack_spec {low : Nat} (aligned : (address + low) % usizeBytes = 0) (pairs : Nat)
    (inside : low + pairs * (2 * usizeBytes) ≤ text.length) :
    ∃ stop, searchBodyBack address x text low (low + pairs * (2 * usizeBytes)) = some stop ∧
      stop ≤ low + pairs * (2 * usizeBytes) ∧
      ∀ j, stop ≤ j → j < low + pairs * (2 * usizeBytes) → text[j]? ≠ some x := by
  induction pairs with
  | zero =>
    unfold searchBodyBack
    exact ⟨low, by simp, by omega, by omega⟩
  | succ pairs ih =>
    have positive : 0 < usizeBytes := by decide
    rw [Nat.succ_mul, ← add_assoc] at inside ⊢
    have aligned' : (address + (low + pairs * (2 * usizeBytes))) % usizeBytes = 0 := by
      rw [← add_assoc, ← mul_assoc, Nat.add_mul_mod_self_right, aligned]
    obtain ⟨found, run, miss⟩ := holdsByte_spec aligned' inside
    unfold searchBodyBack
    rw [if_pos (by omega), Nat.add_sub_cancel, run]
    cases found with
    | true => exact ⟨_, rfl, le_rfl, by omega⟩
    | false =>
      obtain ⟨stop, run', le, miss'⟩ := ih (by omega)
      refine ⟨stop, run', by omega, fun j low' high => ?_⟩
      by_cases here : j < low + pairs * (2 * usizeBytes)
      · exact miss' j low' here
      · exact miss rfl j (by omega) high

end

variable {x : UInt8} {text : List UInt8} {k : Nat}

section
variable (x : UInt8) (text : List UInt8)

def Least : Option Nat → Prop
  | some i => text[i]? = some x ∧ ∀ j < i, text[j]? ≠ some x
  | none => x ∉ text

def Greatest : Option Nat → Prop
  | some i => text[i]? = some x ∧ ∀ j > i, text[j]? ≠ some x
  | none => x ∉ text

lemma position_least : Least x text (position x text) := by
  cases found : position x text with
  | none =>
    intro member
    simpa using findIdx?_eq_none_iff.mp found x member
  | some i =>
    obtain ⟨inside, here, before⟩ := findIdx?_eq_some_iff_getElem.mp found
    refine ⟨by rw [getElem?_eq_getElem inside, eq_of_beq here], fun j less same => ?_⟩
    obtain ⟨_, same⟩ := List.getElem?_eq_some_iff.mp same
    exact before j less (beq_iff_eq.mpr same)

lemma rposition_greatest : Greatest x text (rposition x text) := by
  have least := position_least x text.reverse
  rw [rposition, ← position]
  cases found : position x text.reverse with
  | none =>
    rw [found] at least
    exact fun member => least (mem_reverse.mpr member)
  | some i =>
    rw [found] at least
    obtain ⟨here, before⟩ := least
    have inside : i < text.length := by
      rw [← length_reverse]
      exact (List.getElem?_eq_some_iff.mp here).1
    rw [getElem?_reverse inside] at here
    refine ⟨here, fun j greater same => ?_⟩
    have greater : text.length - 1 - i < j := greater
    obtain ⟨inside', -⟩ := List.getElem?_eq_some_iff.mp same
    refine before (text.length - 1 - j) (by omega) ?_
    rw [getElem?_reverse (by omega), ← same]
    congr 1
    omega

end

lemma position_eq_none_iff : position x text = none ↔ x ∉ text := by
  simp [position, findIdx?_eq_none_iff, forall_mem_ne']

lemma rposition_eq_none_iff : rposition x text = none ↔ x ∉ text := by
  simp [rposition, findIdx?_eq_none_iff, forall_mem_ne']

lemma position_split (inside : k ≤ text.length) : position x text =
    (position x (text.take k)).or ((position x (text.drop k)).map (k + ·)) := by
  have joined := @findIdx?_append _ (text.take k) (text.drop k) (· == x)
  rw [take_append_drop, length_take_of_le inside] at joined
  simpa only [position, add_comm] using joined

lemma rposition_split (inside : k ≤ text.length) : rposition x text =
    ((rposition x (text.drop k)).map (k + ·)).or (rposition x (text.take k)) := by
  have joined := @findIdx?_append _ (text.drop k).reverse (text.take k).reverse (· == x)
  rw [← reverse_append, take_append_drop] at joined
  rw [rposition, rposition, rposition, joined]
  cases found : (text.drop k).reverse.findIdx? (· == x) with
  | none =>
    simp only [Option.none_or, Option.map_none, Option.map_map, length_reverse, length_drop,
      length_take_of_le inside]
    congr 1
    funext i
    simp only [Function.comp]
    omega
  | some i =>
    obtain ⟨less, -⟩ := findIdx?_eq_some_iff_getElem.mp found
    rw [length_reverse, length_drop] at less
    simp
    omega

lemma not_mem_take_iff : x ∉ text.take k ↔ ∀ j < k, text[j]? ≠ some x := by
  simp [mem_iff_getElem?, getElem?_take]

lemma not_mem_drop_iff : x ∉ text.drop k ↔ ∀ j, k ≤ j → text[j]? ≠ some x := by
  simp only [mem_iff_getElem?, getElem?_drop, not_exists]
  constructor
  · intro none j le
    simpa [Nat.add_sub_cancel' le] using none (j - k)
  · intro none j
    exact none (k + j) (by omega)

lemma memchr_eq (address : Nat) (x : UInt8) (text : List UInt8) :
    memchr address x text = some (position x text) := by
  rw [memchr]
  split
  · rfl
  next long =>
    obtain ⟨low, offset, small, aligned⟩ := alignOffset_some address
    have inside : low ≤ text.length := by omega
    simp only [memchrGeneralCase, offset, bind_eq_bind, bind_some, min_eq_left inside]
    cases first : position x (text.take low) with
    | some i => rw [position_split inside, first]; rfl
    | none =>
      obtain ⟨stop, run, -, le, miss⟩ := searchBody_spec _ inside aligned
      have before : position x (text.take stop) = none := by
        rw [position_eq_none_iff, not_mem_take_iff] at first ⊢
        intro j less
        by_cases before : j < low
        · exact first j before
        · exact miss j (by omega) less
      simp only [run]
      rw [position_split le, before]
      rfl

lemma alignTo_eq {address low : Nat} (offset : alignOffset (some address) = some low)
    (text : List UInt8) : (alignTo address text).map (fun parts => (parts.1.len, parts.2.2.len)) =
      some (if low > text.length then (text.length, 0)
        else (low, (text.length - low) % (2 * usizeBytes))) := by
  have sizes : AlignTo.gcd 1 1 (2 * usizeBytes) = some 1 := by decide
  have offset : AlignTo.alignOffset 1 (address % usizeValues) 1 usizeBytes = some low := offset
  rw [alignTo, AlignTo.alignTo, if_neg (by decide), offset, bind_eq_bind, bind_some]
  split <;> simp [AlignTo.alignToOffsets, sizes]

lemma memrchr_eq (address : Nat) (x : UInt8) (text : List UInt8) :
    memrchr address x text = some (rposition x text) := by
  obtain ⟨low, offset, -, aligned⟩ := alignOffset_some address
  obtain ⟨⟨before, mid, behind⟩, parts, lens⟩ := map_eq_some_iff.mp (alignTo_eq offset text)
  simp only [memrchr, parts, bind_eq_bind, bind_some]
  obtain ⟨front, back⟩ := Prod.ext_iff.mp lens
  dsimp only at front back
  rw [front, back]
  by_cases short : low > text.length
  · have stays : searchBodyBack address x text text.length text.length = some text.length := by
      unfold searchBodyBack
      simp
    simp [short, stays, rposition]
  · have whole : text.length - (text.length - low) % (2 * usizeBytes) =
        low + (text.length - low) / (2 * usizeBytes) * (2 * usizeBytes) := by
      simp only [usizeBytes]
      omega
    have inside : low + (text.length - low) / (2 * usizeBytes) * (2 * usizeBytes) ≤
        text.length := by
      omega
    simp only [if_neg short, whole]
    obtain ⟨stop, run, le, miss⟩ := searchBodyBack_spec aligned _ inside
    cases first : rposition x (text.drop _) with
    | some i => rw [rposition_split inside, first]; rfl
    | none =>
      have behind : rposition x (text.drop stop) = none := by
        rw [rposition_eq_none_iff, not_mem_drop_iff] at first ⊢
        intro j le
        by_cases high : j < low + (text.length - low) / (2 * usizeBytes) * (2 * usizeBytes)
        · exact miss j le high
        · exact first j (by omega)
      simp only [run]
      rw [rposition_split (le.trans inside), behind]
      rfl

/-- Both searches return for every address, so that every word they read is aligned and inside the
slice, and what they return is the first or the last place. -/
theorem memchr_finds_ends (address : Nat) (x : UInt8) (text : List UInt8) :
    (∃ r, memchr address x text = some r ∧ Least x text r) ∧
    ∃ r, memrchr address x text = some r ∧ Greatest x text r :=
  ⟨⟨_, memchr_eq address x text, position_least x text⟩,
    ⟨_, memrchr_eq address x text, rposition_greatest x text⟩⟩

end Memchr
