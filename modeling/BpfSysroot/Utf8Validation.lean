import BpfSysroot.AlignTo
import BpfSysroot.Utf8

/-!
# `run_utf8_validation`

`core/src/str/validations.rs` on a 64-bit target. The start of the slice is an
address; `align_offset` may also fail to tell the offset, as in constant
evaluation. A read that leaves the slice, or of a word that is not aligned, has
no result. Every run returns and judges the bytes by the grammar of UTF-8.
-/

namespace Utf8Validation

open Utf8 List Option

section

def usizeBytes : Nat := 8

def usizeValues : Nat := 2 ^ 64

/-- Mask of the value bits of a continuation byte. -/
def contMask : UInt8 := 0x3F

def tagContU8 : UInt8 := 0x80

def nonasciiMask : BitVec 64 := 0x8080808080808080

def containsNonascii (x : BitVec 64) : Bool := x &&& nonasciiMask != 0

/-- `UTF8_CHAR_WIDTH`, by its rows. -/
def charWidths : List Nat :=
  replicate 128 1 ++ replicate 64 0 ++ (replicate 2 0 ++ replicate 30 2) ++
    replicate 16 3 ++ (replicate 5 4 ++ replicate 11 0)

def utf8CharWidth (b : UInt8) : Nat := charWidths.getD b.toNat 0

structure Utf8Error where
  validUpTo : Nat
  errorLen : Option Nat
  deriving DecidableEq

variable (start : Option Nat) (v : List UInt8)

def alignOffset : Option Nat → Option Nat
  | none => some (usizeValues - 1)
  | some address => AlignTo.alignOffset 0 (address % usizeValues) 1 usizeBytes

def wrappingSub (x y : Nat) : Nat := (x + (usizeValues - y % usizeValues)) % usizeValues

/-- The word at an index of the slice; the order of its bytes does not matter. -/
def readWord (index : Nat) : Option (BitVec 64) :=
  match start, v.drop index with
  | some address, a :: b :: c :: d :: e :: f :: g :: h :: _ =>
    if (address + index) % usizeBytes = 0 then
      some (h.toBitVec ++ (g.toBitVec ++ (f.toBitVec ++ (e.toBitVec ++ (d.toBitVec ++
        (c.toBitVec ++ (b.toBitVec ++ a.toBitVec)))))))
    else none
  | _, _ => none

def secondOfThree (first y : UInt8) : Bool :=
  (first == 0xE0 && 0xA0 ≤ y && y ≤ 0xBF) || (0xE1 ≤ first && first ≤ 0xEC && 0x80 ≤ y && y ≤ 0xBF)
    || (first == 0xED && 0x80 ≤ y && y ≤ 0x9F)
    || (0xEE ≤ first && first ≤ 0xEF && 0x80 ≤ y && y ≤ 0xBF)

def secondOfFour (first y : UInt8) : Bool :=
  (first == 0xF0 && 0x90 ≤ y && y ≤ 0xBF) || (0xF1 ≤ first && first ≤ 0xF3 && 0x80 ≤ y && y ≤ 0xBF)
    || (first == 0xF4 && 0x80 ≤ y && y ≤ 0x8F)

def contByte (y : UInt8) : Bool := y &&& ~~~contMask == tagContU8

/-- `next!` and the test of the byte that it reads. -/
def expect (oldOffset index : Nat) (test : UInt8 → Bool) (errorLen : Nat) : Except Utf8Error Nat :=
  match v[index + 1]? with
  | none => .error ⟨oldOffset, none⟩
  | some y => if test y then .ok (index + 1) else .error ⟨oldOffset, some errorLen⟩

/-- The next index after a character of several bytes. -/
def multiByte (oldOffset : Nat) (first : UInt8) : Except Utf8Error Nat :=
  match utf8CharWidth first with
  | 2 => do
    let index ← expect v oldOffset oldOffset contByte 1
    return index + 1
  | 3 => do
    let index ← expect v oldOffset oldOffset (secondOfThree first) 1
    let index ← expect v oldOffset index contByte 2
    return index + 1
  | 4 => do
    let index ← expect v oldOffset oldOffset (secondOfFour first) 1
    let index ← expect v oldOffset index contByte 2
    let index ← expect v oldOffset index contByte 3
    return index + 1
  | _ => .error ⟨oldOffset, some 1⟩

def blocksEnd : Nat :=
  if v.length ≥ 2 * usizeBytes then v.length - 2 * usizeBytes + 1 else 0

/-- The word by word loop over ASCII bytes. -/
def skipBlocks (index : Nat) : Option Nat :=
  if index < blocksEnd v then do
    let zu := containsNonascii (← readWord start v index)
    let zv := containsNonascii (← readWord start v (index + usizeBytes))
    if zu || zv then return index
    else skipBlocks (index + 2 * usizeBytes)
  else
    return index
termination_by blocksEnd v - index
decreasing_by
  have : 0 < usizeBytes := by decide
  omega

/-- The byte by byte loop over ASCII bytes. -/
def skipAscii (index : Nat) : Nat :=
  match h : v[index]? with
  | some b => if b < 128 then skipAscii (index + 1) else index
  | none => index
termination_by v.length - index
decreasing_by
  have := (List.getElem?_eq_some_iff.mp h).1
  omega

/-- The main loop; the fuel bounds its rounds. -/
def validate (align : Nat) : Nat → Nat → Option (Except Utf8Error Unit)
  | 0, _ => none
  | fuel + 1, index =>
    match v[index]? with
    | none => some (.ok ())
    | some first =>
      if first ≥ 128 then
        match multiByte v index first with
        | .error e => some (.error e)
        | .ok index' => validate align fuel index'
      else if align ≠ usizeValues - 1 ∧ wrappingSub align index % usizeBytes = 0 then do
        let index' ← skipBlocks start v index
        validate align fuel (skipAscii v index')
      else
        validate align fuel (index + 1)

def runUtf8Validation : Option (Except Utf8Error Unit) := do
  validate start v (← alignOffset start) (v.length + 1) 0

end

lemma forall_byte {p : UInt8 → Prop} (h : ∀ n : Fin 256, p (UInt8.ofFin n)) (b : UInt8) : p b :=
  h b.toFin

lemma utf8CharWidth_eq : ∀ b : UInt8, utf8CharWidth b = width b :=
  forall_byte (by decide +kernel)

lemma contByte_iff {b : UInt8} : contByte b ↔ Tail b := by
  apply forall_byte (p := fun b => contByte b ↔ Tail b)
  decide +kernel

lemma secondOfThree_iff {a b : UInt8} (hw : width a = 3) :
    secondOfThree a b ↔ Allowed a 0 b := by
  have bounds : 0xE0 ≤ a ∧ a ≤ 0xEF := by
    rcases width_cases a with h | h | h | h | h <;> grind
  rw [secondOfThree, Allowed, least, greatest]
  grind

lemma secondOfFour_iff {a b : UInt8} (hw : width a = 4) :
    secondOfFour a b ↔ Allowed a 0 b := by
  have bounds : 0xF0 ≤ a ∧ a ≤ 0xF4 := by
    rcases width_cases a with h | h | h | h | h <;> grind
  rw [secondOfFour, Allowed, least, greatest]
  grind

lemma width_of_ge {a : UInt8} (h : a ≥ 128) : width a ≠ 1 := by
  rcases width_cases a with h | h | h | h | h <;> grind

lemma append_eq_zero_iff {m n : Nat} {x : BitVec m} {y : BitVec n} :
    x ++ y = 0 ↔ x = 0 ∧ y = 0 := by
  rw [← BitVec.toNat_inj, ← BitVec.toNat_inj, ← BitVec.toNat_inj]
  simp [Nat.or_eq_zero_iff, Nat.shiftLeft_eq]

lemma and_high_bit_eq_zero_iff : ∀ b : UInt8, b.toBitVec &&& 0x80#8 = 0 ↔ b < 128 :=
  forall_byte (by decide +kernel)

/-- The mask looks at each byte of a word. -/
lemma append_and_mask_eq_zero_iff {w : Nat} {b : UInt8} {x m : BitVec w} :
    (b.toBitVec ++ x) &&& (0x80#8 ++ m) = 0 ↔ b < 128 ∧ x &&& m = 0 := by
  rw [BitVec.and_append, append_eq_zero_iff, and_high_bit_eq_zero_iff]

lemma nonasciiMask_eq : nonasciiMask = 0x80#8 ++ (0x80#8 ++ (0x80#8 ++ (0x80#8 ++ (0x80#8 ++
    (0x80#8 ++ (0x80#8 ++ 0x80#8)))))) := by
  decide

section
variable {start : Option Nat} {v : List UInt8} {index : Nat}

lemma text_of_ascii {l : List UInt8} (h : ∀ b ∈ l, b < 128) : Text l := by
  induction l with
  | nil => exact .nil
  | cons b l ih =>
    have first : Sequence [b] := .one (by have := h b mem_cons_self; grind)
    exact .append first (ih fun c hc => h c (mem_cons_of_mem b hc))

/-- An aligned word inside the slice is read, and the test finds out if it is ASCII. -/
lemma readWord_eq {address : Nat} (aligned : (address + index) % usizeBytes = 0)
    (room : index + usizeBytes ≤ v.length) :
    ∃ x, readWord (some address) v index = some x ∧
      (containsNonascii x = false ↔ ∀ b ∈ (v.drop index).take usizeBytes, b < 128) := by
  have length : usizeBytes ≤ (v.drop index).length := by
    rw [length_drop]
    omega
  unfold readWord
  generalize v.drop index = l at length
  match l, length with
  | a :: b :: c :: d :: e :: f :: g :: h :: l, _ =>
    refine ⟨_, if_pos aligned, ?_⟩
    rw [containsNonascii, nonasciiMask_eq, bne_eq_false_iff_eq]
    rw [append_and_mask_eq_zero_iff, append_and_mask_eq_zero_iff, append_and_mask_eq_zero_iff,
      append_and_mask_eq_zero_iff, append_and_mask_eq_zero_iff, append_and_mask_eq_zero_iff,
      append_and_mask_eq_zero_iff, and_high_bit_eq_zero_iff]
    simp only [usizeBytes, take_succ_cons, take_zero, forall_mem_cons]
    grind

/-- The word by word loop stays in the slice and passes over ASCII bytes only. -/
lemma skipBlocks_eq {address : Nat} (index : Nat)
    (aligned : (address + index) % usizeBytes = 0) (inside : index ≤ v.length) :
    ∃ n, skipBlocks (some address) v index = some (index + n) ∧ index + n ≤ v.length ∧
      ∀ b ∈ (v.drop index).take n, b < 128 := by
  unfold skipBlocks
  by_cases more : index < blocksEnd v
  · have room : index + 2 * usizeBytes ≤ v.length := by
      rw [blocksEnd] at more
      split at more <;> omega
    have aligned' : (address + (index + usizeBytes)) % usizeBytes = 0 := by
      rw [← add_assoc, Nat.add_mod_right, aligned]
    have aligned'' : (address + (index + 2 * usizeBytes)) % usizeBytes = 0 := by
      rw [← add_assoc, Nat.add_mul_mod_self_right, aligned]
    obtain ⟨x, read, ascii⟩ := readWord_eq aligned (by omega : index + usizeBytes ≤ v.length)
    obtain ⟨y, read', ascii'⟩ :=
      readWord_eq aligned' (by omega : index + usizeBytes + usizeBytes ≤ v.length)
    by_cases found : (containsNonascii x || containsNonascii y)
    · refine ⟨0, ?_, inside, by simp⟩
      simp only [if_pos more, read, read', bind_eq_bind, bind_some, found, if_true]
      rfl
    · obtain ⟨n, later, inside', rest⟩ := skipBlocks_eq (index + 2 * usizeBytes) aligned'' room
      rw [Bool.not_eq_true, Bool.or_eq_false_iff] at found
      refine ⟨2 * usizeBytes + n, ?_, by omega, ?_⟩
      · simp [more, read, read', found, later, add_assoc]
      · have parts : (v.drop index).take (2 * usizeBytes + n) =
            (v.drop index).take usizeBytes ++ ((v.drop (index + usizeBytes)).take usizeBytes ++
              (v.drop (index + 2 * usizeBytes)).take n) := by
          rw [take_add, Nat.two_mul, take_add, drop_drop, drop_drop, append_assoc]
        rw [parts]
        simp only [mem_append]
        rintro b (hb | hb | hb)
        · exact ascii.mp found.1 b hb
        · exact ascii'.mp found.2 b hb
        · exact rest b hb
  · exact ⟨0, by simp [more], inside, by simp⟩
termination_by v.length - index
decreasing_by
  have : 0 < usizeBytes := by decide
  omega

lemma skipAscii_eq (index : Nat) (inside : index ≤ v.length) :
    ∃ n, skipAscii v index = index + n ∧ index + n ≤ v.length ∧
      (∀ b ∈ (v.drop index).take n, b < 128) ∧
      ∀ b, v[index]? = some b → b < 128 → 0 < n := by
  unfold skipAscii
  cases found : v[index]? with
  | none => exact ⟨0, rfl, inside, by simp, by simp⟩
  | some b =>
    obtain ⟨less, rfl⟩ := List.getElem?_eq_some_iff.mp found
    by_cases ascii : v[index] < 128
    · obtain ⟨n, later, inside', rest, _⟩ := skipAscii_eq (index + 1) less
      refine ⟨n + 1, by simp [ascii, later, Nat.add_assoc, Nat.add_comm 1], by omega, ?_, ?_⟩
      · rw [drop_eq_getElem_cons less, take_succ_cons, forall_mem_cons]
        exact ⟨ascii, rest⟩
      · exact fun _ _ _ => Nat.succ_pos n
    · refine ⟨0, by simp [ascii], inside, by simp, ?_⟩
      rintro _ ⟨rfl⟩ ascii'
      exact absurd ascii' ascii
termination_by v.length - index

end

section
variable {v : List UInt8} {index : Nat} {first : UInt8} {r : List UInt8}

lemma bind_ok {α β : Type} (x : α) (f : α → Except Utf8Error β) :
    (Except.ok x >>= f) = f x := rfl

/-- A byte that is expected is there and allowed, or the bytes are broken at its place. -/
lemma expect_spec {s : List UInt8} (place k : Nat) (test : UInt8 → Bool)
    (here : v.drop index = first :: (s ++ r)) (hplace : place = index + s.length)
    (hk : k = s.length + 1) (fits : Fits first 0 s) (short : k < width first)
    (tests : ∀ b, test b ↔ Allowed first s.length b) :
    (∃ b t, r = b :: t ∧ Fits first 0 (s ++ [b]) ∧ expect v index place test k = .ok (place + 1)) ∨
      ∃ e, expect v index place test k = .error ⟨index, e⟩ ∧ Broken (first :: (s ++ r)) e := by
  subst hplace hk
  have read : v[index + s.length + 1]? = r[0]? := by
    rw [add_assoc, ← getElem?_drop, here, getElem?_cons_succ,
      getElem?_append_right le_rfl, Nat.sub_self]
  rw [expect, read]
  cases r with
  | nil => exact .inr ⟨none, rfl, by rw [append_nil]; exact broken_of_short short fits⟩
  | cons b t =>
    by_cases allowed : test b
    · refine .inl ⟨b, t, rfl, ?_, if_pos allowed⟩
      rw [fits_append, zero_add]
      exact ⟨fits, (tests b).mp allowed, trivial⟩
    · refine .inr ⟨some (s.length + 1), if_neg allowed, broken_of_refused fits short ?_⟩
      exact fun h => allowed ((tests b).mpr h)

/-- A character is passed over, or the error is that of the grammar. -/
lemma multiByte_spec (here : v.drop index = first :: r) (high : first ≥ 128) :
    (∃ n, multiByte v index first = .ok (index + n) ∧ n ≤ r.length + 1 ∧
        Sequence ((first :: r).take n)) ∨
      ∃ e, multiByte v index first = .error ⟨index, e⟩ ∧ Broken (first :: r) e := by
  have tail : ∀ b, contByte b ↔ Tail b := fun _ => contByte_iff
  rw [multiByte, utf8CharWidth_eq]
  rcases width_cases first with ⟨w, _⟩ | ⟨w, _⟩ | ⟨w, low, high⟩ | ⟨w, low, high⟩ | ⟨w, low, high⟩
  · exact .inr ⟨some 1, by rw [w]; rfl, broken_of_width_eq_zero w⟩
  · exact absurd w (width_of_ge high)
  · have second : ∀ b, contByte b ↔ Allowed first 0 b := fun b => by
      rw [contByte_iff, allowed_zero_iff_tail (by grind)]
    rw [w]
    obtain ⟨b, t, rfl, fits, read⟩ | ⟨e, read, broken⟩ :=
      expect_spec (s := []) index 1 contByte here rfl rfl trivial (by omega) second
    · exact .inl ⟨2, by simp only [read]; rfl, by simp, sequence_cons_iff.mpr ⟨w.symm, fits⟩⟩
    · exact .inr ⟨e, by simp only [read]; rfl, broken⟩
  · rw [w]
    obtain ⟨b, t, rfl, fits, read⟩ | ⟨e, read, broken⟩ :=
      expect_spec (s := []) index 1 (secondOfThree first) here rfl rfl trivial (by omega)
        (fun _ => secondOfThree_iff w)
    · obtain ⟨c, t, rfl, fits', read'⟩ | ⟨e, read', broken⟩ :=
        expect_spec (index + 1) 2 contByte here rfl rfl fits (by omega) tail
      · exact .inl ⟨3, by simp only [read, bind_ok, read']; rfl, by simp,
          sequence_cons_iff.mpr ⟨w.symm, fits'⟩⟩
      · exact .inr ⟨e, by simp only [read, bind_ok, read']; rfl, broken⟩
    · exact .inr ⟨e, by simp only [read]; rfl, broken⟩
  · rw [w]
    obtain ⟨b, t, rfl, fits, read⟩ | ⟨e, read, broken⟩ :=
      expect_spec (s := []) index 1 (secondOfFour first) here rfl rfl trivial (by omega)
        (fun _ => secondOfFour_iff w)
    · obtain ⟨c, t, rfl, fits', read'⟩ | ⟨e, read', broken⟩ :=
        expect_spec (index + 1) 2 contByte here rfl rfl fits (by omega) tail
      · obtain ⟨d, t, rfl, fits'', read''⟩ | ⟨e, read'', broken⟩ :=
          expect_spec (index + 1 + 1) 3 contByte here rfl rfl fits' (by omega) tail
        · exact .inl ⟨4, by simp only [read, bind_ok, read', read'']; rfl, by simp,
            sequence_cons_iff.mpr ⟨w.symm, fits''⟩⟩
        · exact .inr ⟨e, by simp only [read, bind_ok, read', read'']; rfl, broken⟩
      · exact .inr ⟨e, by simp only [read, bind_ok, read']; rfl, broken⟩
    · exact .inr ⟨e, by simp only [read]; rfl, broken⟩

end

variable {start : Option Nat} {v : List UInt8} {index : Nat}

/-- An error is where the text ends, with what is wrong there. -/
def Judges (v : List UInt8) : Except Utf8Error Unit → Prop
  | .ok () => Text v
  | .error e => Text (v.take e.validUpTo) ∧ e.validUpTo < v.length ∧
      Broken (v.drop e.validUpTo) e.errorLen

lemma alignOffset_some (address : Nat) : ∃ align, alignOffset (some address) = some align ∧
    align < usizeBytes ∧ (address + align) % usizeBytes = 0 := by
  obtain ⟨align, found, small, aligned⟩ := AlignTo.alignOffset_bytes 0
    (Nat.mod_lt address (by decide : 0 < usizeValues)) (by decide : 3 ≤ 63)
  refine ⟨align, found, small, ?_⟩
  simp only [usizeBytes] at aligned ⊢
  omega

lemma exists_aligned {align : Nat} (offset : alignOffset start = some align)
    (known : align ≠ usizeValues - 1) (aligned : wrappingSub align index % usizeBytes = 0) :
    ∃ address, start = some address ∧ (address + index) % usizeBytes = 0 := by
  cases start with
  | none => exact absurd (some.inj offset).symm known
  | some address =>
    obtain ⟨align', offset', -, whole⟩ := alignOffset_some address
    obtain rfl : align' = align := some.inj (offset'.symm.trans offset)
    refine ⟨address, rfl, ?_⟩
    simp only [wrappingSub, usizeValues, usizeBytes] at aligned whole ⊢
    omega

lemma text_take_add {n : Nat} (before : Text (v.take index)) (here : Text ((v.drop index).take n)) :
    Text (v.take (index + n)) := by
  rw [take_add]
  exact before.append_text here

/-- From a text up to the index, the loop goes on to the end or to the first break. -/
lemma validate_judges {align : Nat} (offset : alignOffset start = some align) (v : List UInt8)
    (fuel : Nat) : ∀ {index}, v.length - index < fuel → index ≤ v.length → Text (v.take index) →
      ∃ r, validate start v align fuel index = some r ∧ Judges v r := by
  induction fuel with
  | zero => exact fun short => absurd short (Nat.not_lt_zero _)
  | succ fuel ih =>
    intro index enough inside before
    rw [validate]
    cases found : v[index]? with
    | none =>
      have whole : v.length ≤ index := List.getElem?_eq_none_iff.mp found
      rw [take_of_length_le whole] at before
      exact ⟨.ok (), rfl, before⟩
    | some first =>
      obtain ⟨less, rfl⟩ := List.getElem?_eq_some_iff.mp found
      have here : v.drop index = v[index] :: v.drop (index + 1) := drop_eq_getElem_cons less
      -- The loop goes on after any text that starts here.
      have go : ∀ n, 0 < n → index + n ≤ v.length → Text ((v.drop index).take n) →
          ∃ r, validate start v align fuel (index + n) = some r ∧ Judges v r :=
        fun n positive room text => ih (by omega) room (text_take_add before text)
      by_cases high : v[index] ≥ 128
      · simp only [if_pos high]
        obtain ⟨n, passed, room, sequence⟩ | ⟨e, failed, broken⟩ := multiByte_spec here high
        · have positive : 0 < n := Nat.pos_of_ne_zero (by rintro rfl; exact sequence.ne_nil rfl)
          rw [← here] at sequence
          rw [length_drop] at room
          simp only [passed]
          exact go n positive (by omega) (text_of_sequence sequence)
        · rw [← here] at broken
          simp only [failed]
          exact ⟨_, rfl, before, less, broken⟩
      · have ascii : v[index] < 128 := by grind
        simp only [if_neg high]
        split
        next aligned =>
          obtain ⟨address, rfl, whole⟩ := exists_aligned offset aligned.1 aligned.2
          obtain ⟨m, skipped, room, block⟩ := skipBlocks_eq index whole inside
          obtain ⟨n, skipped', room', single, moves⟩ := skipAscii_eq (index + m) room
          have positive : 0 < m + n := by
            rcases Nat.eq_zero_or_pos m with rfl | some
            · have := moves v[index] found ascii
              omega
            · omega
          rw [skipped, Option.bind_eq_bind, Option.bind_some, skipped', Nat.add_assoc]
          apply go _ positive (by omega)
          rw [take_add, drop_drop]
          exact (text_of_ascii block).append_text (text_of_ascii single)
        next =>
          apply go 1 Nat.one_pos less
          apply text_of_ascii
          intro b hb
          rw [here, take_succ_cons, take_zero, mem_singleton] at hb
          rwa [hb]

lemma runUtf8Validation_judges (start : Option Nat) (v : List UInt8) :
    ∃ r, runUtf8Validation start v = some r ∧ Judges v r := by
  obtain ⟨align, offset⟩ : ∃ align, alignOffset start = some align := by
    cases start with
    | none => exact ⟨_, rfl⟩
    | some address => exact (alignOffset_some address).imp fun _ => And.left
  rw [runUtf8Validation, offset]
  exact validate_judges offset v (v.length + 1) (Nat.lt_succ_self _) (Nat.zero_le _) .nil

/-- The validator accepts exactly the texts. An error is at the end of the longest text that the
bytes start with; its length is missing if the other bytes are a sequence cut short, and otherwise
says how many of them could begin one, at least one. -/
theorem runUtf8Validation_correct (start : Option Nat) (v : List UInt8) :
    ∃ r, runUtf8Validation start v = some r ∧ (r = .ok () ↔ Text v) ∧
      ∀ e, r = .error e →
        IsGreatest {n | n ≤ v.length ∧ Text (v.take n)} e.validUpTo ∧
        (e.errorLen = none ↔ ∃ s, s ≠ [] ∧ Sequence (v.drop e.validUpTo ++ s)) ∧
        ∀ k, e.errorLen = some k →
          ∃ j, IsGreatest {j | j ≤ (v.drop e.validUpTo).length ∧
            Begins ((v.drop e.validUpTo).take j)} j ∧ k = max 1 j := by
  obtain ⟨r, ran, judges⟩ := runUtf8Validation_judges start v
  refine ⟨r, ran, ?_⟩
  cases r with
  | ok _ => exact ⟨iff_of_true rfl judges, fun _ other => nomatch other⟩
  | error e =>
    obtain ⟨text, less, broken⟩ := judges
    refine ⟨iff_of_false nofun (broken.not_text text less), ?_⟩
    rintro _ ⟨rfl⟩
    exact ⟨broken.isGreatest text less, broken.none_iff_proper, broken.longest⟩

end Utf8Validation
