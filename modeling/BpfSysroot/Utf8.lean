import Mathlib

/-!
# UTF-8

The encoding of RFC 3629: the grammar of one encoded character, texts as
concatenations of them, and what a list of bytes starts with. All facts rest on
two: a byte string is a sequence, or the start of one, if its length suits its
first byte and each later byte is allowed at its place.
-/

namespace Utf8

open List

/-- The bytes of `UTF8-tail`. -/
def Tail (b : UInt8) : Prop := 0x80 ≤ b ∧ b ≤ 0xBF

instance : DecidablePred Tail := fun _ => inferInstanceAs (Decidable (_ ∧ _))

/-- One encoded character. -/
inductive Sequence : List UInt8 → Prop
  | one {a : UInt8} (high : a ≤ 0x7F) : Sequence [a]
  | two {a b : UInt8} (low : 0xC2 ≤ a) (high : a ≤ 0xDF) (hb : Tail b) : Sequence [a, b]
  | threeE0 {b c : UInt8} (low : 0xA0 ≤ b) (high : b ≤ 0xBF) (hc : Tail c) : Sequence [0xE0, b, c]
  | threeE1 {a b c : UInt8} (low : 0xE1 ≤ a) (high : a ≤ 0xEC) (hb : Tail b) (hc : Tail c) :
      Sequence [a, b, c]
  | threeED {b c : UInt8} (low : 0x80 ≤ b) (high : b ≤ 0x9F) (hc : Tail c) : Sequence [0xED, b, c]
  | threeEE {a b c : UInt8} (low : 0xEE ≤ a) (high : a ≤ 0xEF) (hb : Tail b) (hc : Tail c) :
      Sequence [a, b, c]
  | fourF0 {b c d : UInt8} (low : 0x90 ≤ b) (high : b ≤ 0xBF) (hc : Tail c) (hd : Tail d) :
      Sequence [0xF0, b, c, d]
  | fourF1 {a b c d : UInt8} (low : 0xF1 ≤ a) (high : a ≤ 0xF3) (hb : Tail b) (hc : Tail c)
      (hd : Tail d) : Sequence [a, b, c, d]
  | fourF4 {b c d : UInt8} (low : 0x80 ≤ b) (high : b ≤ 0x8F) (hc : Tail c) (hd : Tail d) :
      Sequence [0xF4, b, c, d]

/-- A concatenation of encoded characters. -/
inductive Text : List UInt8 → Prop
  | nil : Text []
  | append {s l : List UInt8} (first : Sequence s) (rest : Text l) : Text (s ++ l)

/-- The start of an encoded character. -/
def Begins (l : List UInt8) : Prop := ∃ r, Sequence (l ++ r)

section

/-- How many bytes a sequence has that starts with the given byte; zero if there is none. -/
def width (a : UInt8) : Nat :=
  if a ≤ 0x7F then 1 else if a < 0xC2 then 0 else if a ≤ 0xDF then 2 else
    if a ≤ 0xEF then 3 else if a ≤ 0xF4 then 4 else 0

/-- The least byte that may follow the first byte. -/
def least (a : UInt8) : UInt8 := if a = 0xE0 then 0xA0 else if a = 0xF0 then 0x90 else 0x80

/-- The greatest byte that may follow the first byte. -/
def greatest (a : UInt8) : UInt8 := if a = 0xED then 0x9F else if a = 0xF4 then 0x8F else 0xBF

/-- The bytes that may stand at a place after the first byte. -/
def Allowed (a : UInt8) : Nat → UInt8 → Prop
  | 0, b => least a ≤ b ∧ b ≤ greatest a
  | _ + 1, b => Tail b

instance (a : UInt8) : ∀ i, DecidablePred (Allowed a i)
  | 0, _ => inferInstanceAs (Decidable (_ ∧ _))
  | _ + 1, _ => inferInstanceAs (Decidable (Tail _))

/-- Each byte is allowed at its place, from the given place on. -/
def Fits (a : UInt8) : Nat → List UInt8 → Prop
  | _, [] => True
  | i, b :: r => Allowed a i b ∧ Fits a (i + 1) r

variable {a b : UInt8} {r : List UInt8}

lemma width_cases (a : UInt8) :
    (width a = 0 ∧ 0x80 ≤ a ∧ (a < 0xC2 ∨ 0xF5 ≤ a)) ∨ (width a = 1 ∧ a ≤ 0x7F) ∨
      (width a = 2 ∧ 0xC2 ≤ a ∧ a ≤ 0xDF) ∨ (width a = 3 ∧ 0xE0 ≤ a ∧ a ≤ 0xEF) ∨
      (width a = 4 ∧ 0xF0 ≤ a ∧ a ≤ 0xF4) := by
  rw [width]
  grind

lemma least_le_greatest (a : UInt8) : least a ≤ greatest a := by
  rw [least, greatest]
  grind

/-- The bytes between most first bytes and the next place are the tail bytes. -/
lemma allowed_zero_iff_tail (ne : a ≠ 0xE0 ∧ a ≠ 0xED ∧ a ≠ 0xF0 ∧ a ≠ 0xF4) :
    Allowed a 0 b ↔ Tail b := by
  rw [Allowed, Tail, least, greatest]
  simp [ne]

lemma fits_append {i : Nat} {r s : List UInt8} :
    Fits a i (r ++ s) ↔ Fits a i r ∧ Fits a (i + r.length) s := by
  induction r generalizing i with
  | nil => simp [Fits]
  | cons b r ih => simp only [cons_append, Fits, ih, length_cons, and_assoc,
      add_assoc, add_comm 1]

lemma Sequence.ne_nil {s : List UInt8} (h : Sequence s) : s ≠ [] := by
  cases h <;> simp

/-- A sequence is a list of the right length with an allowed byte at each place. -/
lemma sequence_cons_iff : Sequence (a :: r) ↔ r.length + 1 = width a ∧ Fits a 0 r := by
  constructor
  · intro h
    cases h with
    | one high => exact ⟨by grind [width], trivial⟩
    | two low high hb =>
      exact ⟨by grind [width], (allowed_zero_iff_tail (by grind)).mpr hb, trivial⟩
    | threeE0 low high hc => exact ⟨rfl, ⟨low, high⟩, hc, trivial⟩
    | threeE1 low high hb hc =>
      exact ⟨by grind [width], (allowed_zero_iff_tail (by grind)).mpr hb, hc, trivial⟩
    | threeED low high hc => exact ⟨rfl, ⟨low, high⟩, hc, trivial⟩
    | threeEE low high hb hc =>
      exact ⟨by grind [width], (allowed_zero_iff_tail (by grind)).mpr hb, hc, trivial⟩
    | fourF0 low high hc hd => exact ⟨rfl, ⟨low, high⟩, hc, hd, trivial⟩
    | fourF1 low high hb hc hd =>
      exact ⟨by grind [width], (allowed_zero_iff_tail (by grind)).mpr hb, hc, hd, trivial⟩
    | fourF4 low high hc hd => exact ⟨rfl, ⟨low, high⟩, hc, hd, trivial⟩
  · rintro ⟨length, fits⟩
    rcases width_cases a with ⟨w, _⟩ | ⟨w, high⟩ | ⟨w, low, high⟩ | ⟨w, low, high⟩ | ⟨w, low, high⟩
    · omega
    · obtain rfl : r = [] := eq_nil_of_length_eq_zero (by omega)
      exact .one high
    · obtain ⟨b, rfl⟩ := length_eq_one_iff.mp (by omega : r.length = 1)
      exact .two low high ((allowed_zero_iff_tail (by grind)).mp fits.1)
    · obtain ⟨b, c, rfl⟩ := length_eq_two.mp (by omega : r.length = 2)
      obtain ⟨hb, hc, _⟩ := fits
      by_cases e0 : a = 0xE0
      · subst e0
        exact .threeE0 hb.1 hb.2 hc
      · by_cases ed : a = 0xED
        · subst ed
          exact .threeED hb.1 hb.2 hc
        · have tail := (allowed_zero_iff_tail (by grind)).mp hb
          by_cases below : a ≤ 0xEC
          · exact .threeE1 (by grind) below tail hc
          · exact .threeEE (by grind) high tail hc
    · obtain ⟨b, c, d, rfl⟩ := length_eq_three.mp (by omega : r.length = 3)
      obtain ⟨hb, hc, hd, _⟩ := fits
      by_cases f0 : a = 0xF0
      · subst f0
        exact .fourF0 hb.1 hb.2 hc hd
      · by_cases f4 : a = 0xF4
        · subst f4
          exact .fourF4 hb.1 hb.2 hc hd
        · exact .fourF1 (by grind) (by grind) ((allowed_zero_iff_tail (by grind)).mp hb) hc hd

/-- Any start of the right shape can be completed, by the least bytes. -/
lemma exists_fits (a : UInt8) (i n : Nat) : ∃ s, s.length = n ∧ Fits a i s := by
  induction n generalizing i with
  | zero => exact ⟨[], rfl, trivial⟩
  | succ n ih =>
    obtain ⟨s, length, fits⟩ := ih (i + 1)
    cases i with
    | zero => exact ⟨least a :: s, by simp [length], ⟨UInt8.le_refl _, least_le_greatest a⟩, fits⟩
    | succ i => exact ⟨0x80 :: s, by simp [length], ⟨by decide, by decide⟩, fits⟩

lemma begins_cons_iff : Begins (a :: r) ↔ r.length + 1 ≤ width a ∧ Fits a 0 r := by
  constructor
  · rintro ⟨s, h⟩
    rw [cons_append] at h
    obtain ⟨length, fits⟩ := sequence_cons_iff.mp h
    rw [length_append] at length
    exact ⟨by omega, (fits_append.mp fits).1⟩
  · rintro ⟨le, fits⟩
    obtain ⟨s, length, fits'⟩ := exists_fits a (0 + r.length) (width a - (r.length + 1))
    refine ⟨s, ?_⟩
    rw [cons_append, sequence_cons_iff, length_append]
    exact ⟨by omega, fits_append.mpr ⟨fits, fits'⟩⟩

lemma begins_nil : Begins [] := ⟨[0], .one (by decide)⟩

end

section
variable {s s' l r : List UInt8}

/-- No sequence is a proper start of another. -/
lemma Sequence.eq_of_append (h : Sequence s) (h' : Sequence s') (same : s ++ l = s' ++ r) :
    s = s' ∧ l = r := by
  obtain _ | ⟨a, t⟩ := s
  · exact absurd rfl h.ne_nil
  · obtain _ | ⟨a', t'⟩ := s'
    · exact absurd rfl h'.ne_nil
    · obtain rfl : a = a' := (List.cons.inj same).1
      have length := (sequence_cons_iff.mp h).1
      have length' := (sequence_cons_iff.mp h').1
      exact append_inj same (by rw [length_cons, length_cons]; omega)

lemma Text.append_iff (h : Text l) : Text (l ++ r) ↔ Text r := by
  induction h with
  | nil => rfl
  | @append s l first rest ih =>
    rw [← ih, append_assoc]
    constructor
    · intro h
      generalize whole : s ++ (l ++ r) = t at h
      cases h with
      | nil => simp [first.ne_nil] at whole
      | append first' rest' =>
        obtain ⟨_, rfl⟩ := first.eq_of_append first' whole
        exact rest'
    · exact .append first

lemma text_of_sequence (h : Sequence s) : Text s := by
  have := Text.append h .nil
  rwa [append_nil] at this

lemma Text.append_text (h : Text l) (h' : Text r) : Text (l ++ r) := h.append_iff.mpr h'

lemma Text.exists_sequence (h : Text l) (ne : l ≠ []) : ∃ n, Sequence (l.take n) := by
  cases h with
  | nil => exact absurd rfl ne
  | @append s l first rest => exact ⟨s.length, by simpa using first⟩

end

section

/-- What is wrong with bytes that do not start with a sequence: they may be cut short; otherwise
they can be the start of one only up to some byte. -/
structure Broken (l : List UInt8) (e : Option Nat) : Prop where
  not_sequence : ∀ n, ¬ Sequence (l.take n)
  none_iff : e = none ↔ Begins l
  longest : ∀ k, e = some k → ∃ j, IsGreatest {j | j ≤ l.length ∧ Begins (l.take j)} j ∧ k = max 1 j

variable {a b : UInt8} {l r s : List UInt8} {e e' : Option Nat}

lemma Broken.unique (h : Broken l e) (h' : Broken l e') : e = e' := by
  cases e with
  | none => exact (h'.none_iff.mpr (h.none_iff.mp rfl)).symm
  | some k =>
    cases e' with
    | none => exact h.none_iff.mpr (h'.none_iff.mp rfl)
    | some k' =>
      obtain ⟨j, greatest, rfl⟩ := h.longest k rfl
      obtain ⟨j', greatest', rfl⟩ := h'.longest k' rfl
      rw [greatest.unique greatest']

lemma broken_of_width_eq_zero (hw : width a = 0) : Broken (a :: r) (some 1) := by
  have never : ∀ {t}, ¬ Begins (a :: t) := by
    intro t h
    have := (begins_cons_iff.mp h).1
    omega
  constructor
  · rintro (_ | n) h
    · exact h.ne_nil rfl
    · exact never ⟨[], by simpa using h⟩
  · simp [never]
  · rintro _ ⟨rfl⟩
    refine ⟨0, ⟨⟨Nat.zero_le _, begins_nil⟩, ?_⟩, rfl⟩
    rintro (_ | j) ⟨_, h⟩
    · exact le_refl 0
    · exact absurd h never

lemma broken_of_short (short : r.length + 1 < width a) (fits : Fits a 0 r) :
    Broken (a :: r) none := by
  constructor
  · rintro (_ | n) h
    · exact h.ne_nil rfl
    · have length := (sequence_cons_iff.mp h).1
      rw [length_take] at length
      omega
  · exact iff_of_true rfl (begins_cons_iff.mpr ⟨short.le, fits⟩)
  · exact fun k h => nomatch h

lemma broken_of_refused (fits : Fits a 0 s) (short : s.length + 1 < width a)
    (refused : ¬ Allowed a s.length b) : Broken (a :: (s ++ b :: r)) (some (s.length + 1)) := by
  have never : ∀ t, ¬ Fits a 0 (s ++ b :: t) := by
    intro t h
    have place := (fits_append.mp h).2.1
    rw [zero_add] at place
    exact refused place
  have cut : ∀ {n}, s.length < n →
      ∃ t, (s ++ b :: r).take n = s ++ b :: t := by
    intro n less
    obtain ⟨m, rfl⟩ := Nat.exists_eq_add_of_lt less
    exact ⟨r.take m, by rw [add_assoc, take_length_add_append, take_succ_cons]⟩
  constructor
  · rintro (_ | n) h
    · exact h.ne_nil rfl
    · rw [take_succ_cons, sequence_cons_iff] at h
      by_cases less : s.length < n
      · obtain ⟨t, same⟩ := cut less
        exact never t (same ▸ h.2)
      · have length := h.1
        rw [length_take] at length
        omega
  · refine iff_of_false nofun (fun h => never r (begins_cons_iff.mp h).2)
  · rintro _ ⟨rfl⟩
    refine ⟨s.length + 1, ⟨⟨?_, ?_⟩, ?_⟩, (max_eq_right (Nat.le_add_left _ _)).symm⟩
    · simp
    · rw [take_succ_cons, take_left]
      exact begins_cons_iff.mpr ⟨short.le, fits⟩
    · rintro (_ | j) ⟨_, h⟩
      · exact Nat.zero_le _
      · by_contra less
        obtain ⟨t, same⟩ := cut (by omega : s.length < j)
        rw [take_succ_cons, same] at h
        exact never t (begins_cons_iff.mp h).2

/-- A text ends where the bytes are broken. -/
lemma Broken.isGreatest {v : List UInt8} {n : Nat} (h : Broken (v.drop n) e)
    (text : Text (v.take n)) (less : n < v.length) :
    IsGreatest {m | m ≤ v.length ∧ Text (v.take m)} n := by
  refine ⟨⟨less.le, text⟩, ?_⟩
  rintro m ⟨le, longer⟩
  by_contra more
  obtain ⟨k, rfl⟩ := Nat.exists_eq_add_of_lt (Nat.lt_of_not_le more)
  rw [Nat.add_assoc, take_add, text.append_iff] at longer
  have ne : (v.drop n).take (k + 1) ≠ [] := by
    intro none_left
    have := congrArg List.length none_left
    rw [length_take, length_drop, length_nil] at this
    omega
  obtain ⟨i, sequence⟩ := longer.exists_sequence ne
  rw [take_take] at sequence
  exact h.not_sequence _ sequence

lemma Broken.not_text {v : List UInt8} {n : Nat} (h : Broken (v.drop n) e)
    (text : Text (v.take n)) (less : n < v.length) : ¬ Text v := by
  intro whole
  have := (h.isGreatest text less).2 ⟨le_refl v.length, by rwa [take_length]⟩
  omega

/-- Cut short means that something is missing. -/
lemma Broken.none_iff_proper (h : Broken l e) : e = none ↔ ∃ s, s ≠ [] ∧ Sequence (l ++ s) := by
  rw [h.none_iff]
  constructor
  · rintro ⟨s, sequence⟩
    refine ⟨s, ?_, sequence⟩
    rintro rfl
    exact h.not_sequence l.length (by simpa using sequence)
  · rintro ⟨s, _, sequence⟩
    exact ⟨s, sequence⟩

end

section
variable {s s' : List UInt8}

/-- The number that a sequence encodes. -/
def value : List UInt8 → Nat
  | [a] => a.toNat
  | [a, b] => a.toNat % 32 * 64 + b.toNat % 64
  | [a, b, c] => a.toNat % 16 * 4096 + b.toNat % 64 * 64 + c.toNat % 64
  | [a, b, c, d] => a.toNat % 8 * 262144 + b.toNat % 64 * 4096 + c.toNat % 64 * 64 + d.toNat % 64
  | _ => 0

/-- The ranges of the bytes of a sequence, as numbers. -/
def Ranges : List UInt8 → Prop
  | [a] => a.toNat ≤ 127
  | [a, b] => 194 ≤ a.toNat ∧ a.toNat ≤ 223 ∧ 128 ≤ b.toNat ∧ b.toNat ≤ 191
  | [a, b, c] => 224 ≤ a.toNat ∧ a.toNat ≤ 239 ∧ 128 ≤ b.toNat ∧ b.toNat ≤ 191 ∧
      128 ≤ c.toNat ∧ c.toNat ≤ 191 ∧ (a.toNat = 224 → 160 ≤ b.toNat) ∧
      (a.toNat = 237 → b.toNat ≤ 159)
  | [a, b, c, d] => 240 ≤ a.toNat ∧ a.toNat ≤ 244 ∧ 128 ≤ b.toNat ∧ b.toNat ≤ 191 ∧
      128 ≤ c.toNat ∧ c.toNat ≤ 191 ∧ 128 ≤ d.toNat ∧ d.toNat ≤ 191 ∧
      (a.toNat = 240 → 144 ≤ b.toNat) ∧ (a.toNat = 244 → b.toNat ≤ 143)
  | _ => False

/-- The same where a surrogate may be encoded. -/
def Shape : List UInt8 → Prop
  | [a, b, c] => 224 ≤ a.toNat ∧ a.toNat ≤ 239 ∧ 128 ≤ b.toNat ∧ b.toNat ≤ 191 ∧
      128 ≤ c.toNat ∧ c.toNat ≤ 191 ∧ (a.toNat = 224 → 160 ≤ b.toNat)
  | s => Ranges s

lemma Ranges.shape (h : Ranges s) : Shape s := by
  match s with
  | [] | [_] | [_, _] | [_, _, _, _] | _ :: _ :: _ :: _ :: _ :: _ => exact h
  | [a, b, c] =>
    obtain ⟨low, high, lowB, highB, lowC, highC, second, -⟩ := h
    exact ⟨low, high, lowB, highB, lowC, highC, second⟩

lemma tail_iff {b : UInt8} : Tail b ↔ 128 ≤ b.toNat ∧ b.toNat ≤ 191 := by
  simp [Tail, UInt8.le_iff_toNat_le]

lemma Sequence.ranges (h : Sequence s) : Ranges s := by
  cases h <;> simp_all [Ranges, tail_iff, UInt8.le_iff_toNat_le] <;> omega

lemma sequence_of_ranges (h : Ranges s) : Sequence s := by
  have le : ∀ {x y : UInt8}, x.toNat ≤ y.toNat → x ≤ y := UInt8.le_iff_toNat_le.mpr
  match s with
  | [a] => exact .one (le h)
  | [a, b] =>
    obtain ⟨low, high, hb⟩ := h
    exact .two (le low) (le high) (tail_iff.mpr hb)
  | [a, b, c] =>
    obtain ⟨low, high, lowB, highB, lowC, highC, e0, ed⟩ := h
    have lowA : 0xE0 ≤ a := le low
    have highA : a ≤ 0xEF := le high
    refine sequence_cons_iff.mpr ⟨by grind [width], ⟨?_, ?_⟩, tail_iff.mpr ⟨lowC, highC⟩, trivial⟩
    · have second : a = 0xE0 → 0xA0 ≤ b := fun h => le (e0 (h ▸ rfl))
      have : 0x80 ≤ b := le lowB
      grind [least]
    · have second : a = 0xED → b ≤ 0x9F := fun h => le (ed (h ▸ rfl))
      have : b ≤ 0xBF := le highB
      grind [greatest]
  | [a, b, c, d] =>
    obtain ⟨low, high, lowB, highB, lowC, highC, lowD, highD, f0, f4⟩ := h
    have lowA : 0xF0 ≤ a := le low
    refine sequence_cons_iff.mpr ⟨by grind [width], ⟨?_, ?_⟩, tail_iff.mpr ⟨lowC, highC⟩,
      tail_iff.mpr ⟨lowD, highD⟩, trivial⟩
    · have second : a = 0xF0 → 0x90 ≤ b := fun h => le (f0 (h ▸ rfl))
      have : 0x80 ≤ b := le lowB
      grind [least]
    · have second : a = 0xF4 → b ≤ 0x8F := fun h => le (f4 (h ▸ rfl))
      have : b ≤ 0xBF := le highB
      grind [greatest]

lemma Sequence.isValidChar (h : Sequence s) : (value s).isValidChar := by
  have ranges := h.ranges
  match s with
  | [a] | [a, b] | [a, b, c] | [a, b, c, d] =>
    simp only [Ranges, value, Nat.isValidChar] at ranges ⊢
    omega

/-- The encoding of a number. -/
def encoding (n : Nat) : List UInt8 :=
  if n < 0x80 then [.ofNat n]
  else if n < 0x800 then [.ofNat (192 + n / 64), .ofNat (128 + n % 64)]
  else if n < 0x10000 then
    [.ofNat (224 + n / 4096), .ofNat (128 + n / 64 % 64), .ofNat (128 + n % 64)]
  else
    [.ofNat (240 + n / 262144), .ofNat (128 + n / 4096 % 64), .ofNat (128 + n / 64 % 64),
      .ofNat (128 + n % 64)]

lemma ofNat_eq_of_toNat {n : Nat} {b : UInt8} (h : n = b.toNat) : UInt8.ofNat n = b := by
  rw [h, UInt8.ofNat_toNat]

lemma encoding_value_of_shape (ranges : Shape s) : encoding (value s) = s := by
  match s with
  | [a] =>
    have number : value [a] = a.toNat := rfl
    simp only [Shape, Ranges] at ranges
    rw [encoding, if_pos (by omega), number, UInt8.ofNat_toNat]
  | [a, b] =>
    have number : value [a, b] = a.toNat % 32 * 64 + b.toNat % 64 := rfl
    simp only [Shape, Ranges] at ranges
    rw [encoding, if_neg (by omega), if_pos (by omega), ofNat_eq_of_toNat (b := a) (by omega),
      ofNat_eq_of_toNat (b := b) (by omega)]
  | [a, b, c] =>
    have number : value [a, b, c] = a.toNat % 16 * 4096 + b.toNat % 64 * 64 + c.toNat % 64 := rfl
    simp only [Shape] at ranges
    rw [encoding, if_neg (by omega), if_neg (by omega), if_pos (by omega),
      ofNat_eq_of_toNat (b := a) (by omega), ofNat_eq_of_toNat (b := b) (by omega),
      ofNat_eq_of_toNat (b := c) (by omega)]
  | [a, b, c, d] =>
    have number : value [a, b, c, d] = a.toNat % 8 * 262144 + b.toNat % 64 * 4096 +
      c.toNat % 64 * 64 + d.toNat % 64 := rfl
    simp only [Shape, Ranges] at ranges
    rw [encoding, if_neg (by omega), if_neg (by omega), if_neg (by omega),
      ofNat_eq_of_toNat (b := a) (by omega), ofNat_eq_of_toNat (b := b) (by omega),
      ofNat_eq_of_toNat (b := c) (by omega), ofNat_eq_of_toNat (b := d) (by omega)]

lemma encoding_value (h : Sequence s) : encoding (value s) = s :=
  encoding_value_of_shape h.ranges.shape

/-- The encoding of a scalar value is a sequence that stands for it. -/
lemma sequence_encoding {n : Nat} (valid : n.isValidChar) :
    Sequence (encoding n) ∧ value (encoding n) = n := by
  have byte : ∀ k < 256, (UInt8.ofNat k).toNat = k := fun k small =>
    UInt8.toNat_ofNat_of_lt' small
  rw [encoding]
  split
  next small =>
    refine ⟨sequence_of_ranges ?_, byte n (by omega)⟩
    simp only [Ranges, byte n (by omega)]
    omega
  next =>
    split
    next =>
      have first := byte (192 + n / 64) (by omega)
      have second := byte (128 + n % 64) (by omega)
      refine ⟨sequence_of_ranges ?_, ?_⟩ <;> simp only [Ranges, value, first, second] <;> omega
    next =>
      split
      next =>
        have first := byte (224 + n / 4096) (by omega)
        have second := byte (128 + n / 64 % 64) (by omega)
        have third := byte (128 + n % 64) (by omega)
        refine ⟨sequence_of_ranges ?_, ?_⟩ <;> simp only [Ranges, value, first, second, third] <;>
          omega
      next =>
        have first := byte (240 + n / 262144) (by omega)
        have second := byte (128 + n / 4096 % 64) (by omega)
        have third := byte (128 + n / 64 % 64) (by omega)
        have fourth := byte (128 + n % 64) (by omega)
        refine ⟨sequence_of_ranges ?_, ?_⟩ <;>
          simp only [Ranges, value, first, second, third, fourth] <;> omega

end

variable {s : List UInt8}

/-- An encoded code point of generalized UTF-8, in which a surrogate is encoded as well. -/
inductive Generalized : List UInt8 → Prop
  | scalar {s : List UInt8} (h : Sequence s) : Generalized s
  | surrogate {b c : UInt8} (low : 0xA0 ≤ b) (high : b ≤ 0xBF) (hc : Tail c) :
      Generalized [0xED, b, c]

lemma Generalized.shape (h : Generalized s) : Shape s := by
  cases h with
  | scalar h => exact h.ranges.shape
  | surrogate low high hc =>
    rw [tail_iff] at hc
    rw [UInt8.le_iff_toNat_le] at low high
    simp [Shape] at low high ⊢
    omega

lemma Generalized.value_lt (h : Generalized s) : value s < 0x110000 := by
  have shape := h.shape
  match s with
  | [a] | [a, b] | [a, b, c] | [a, b, c, d] =>
    simp only [Shape, Ranges, value] at shape ⊢
    omega

lemma generalized_encoding {n : Nat} (small : n < 0x110000) :
    Generalized (encoding n) ∧ value (encoding n) = n := by
  by_cases valid : n.isValidChar
  · obtain ⟨sequence, number⟩ := sequence_encoding valid
    exact ⟨.scalar sequence, number⟩
  · have byte : ∀ k < 256, (UInt8.ofNat k).toNat = k := fun k small =>
      UInt8.toNat_ofNat_of_lt' small
    have first : 224 + n / 4096 = 237 := by omega
    have second := byte (128 + n / 64 % 64) (by omega)
    have third := byte (128 + n % 64) (by omega)
    rw [encoding, if_neg (by omega), if_neg (by omega), if_pos (by omega), first]
    constructor
    · apply Generalized.surrogate
      · rw [UInt8.le_iff_toNat_le]
        show 160 ≤ _
        omega
      · rw [UInt8.le_iff_toNat_le]
        show _ ≤ 191
        omega
      · rw [tail_iff]
        omega
    · show 237 % 16 * 4096 + _ + _ = n
      omega

/-- The later bytes of a code point are no boundaries. -/
lemma cont_of_shape {s : List UInt8} (shape : Shape s) {i : Nat} {b : UInt8} (pos : 0 < i)
    (at_i : s[i]? = some b) : 128 ≤ b.toNat ∧ b.toNat ≤ 191 := by
  match s, i, pos with
  | [a], i + 1, _ => simp at at_i
  | [a, b'], 1, _ | [a, b', c], 1, _ | [a, b', c], 2, _ | [a, b', c, d], 1, _
  | [a, b', c, d], 2, _ | [a, b', c, d], 3, _ =>
    simp at at_i
    simp only [Shape, Ranges, at_i] at shape
    omega
  | [a, b'], i + 2, _ | [a, b', c], i + 3, _ | [a, b', c, d], i + 4, _ => simp at at_i

/-- Bytes are split between two encodings wherever no later byte of one stands. -/
lemma split_of_boundary {A : Type} {f : A → List UInt8} {l : List A}
    (shape : ∀ a ∈ l, Shape (f a)) (n : Nat)
    (boundary : ∀ b, (l.flatMap f)[n]? = some b → ¬ (128 ≤ b.toNat ∧ b.toNat ≤ 191)) :
    ∃ k, (l.flatMap f).take n = (l.take k).flatMap f ∧
      (l.flatMap f).drop n = (l.drop k).flatMap f := by
  induction l generalizing n with
  | nil => exact ⟨0, by simp⟩
  | cons a l ih =>
    rw [flatMap_cons] at boundary ⊢
    rcases Nat.eq_zero_or_pos n with rfl | pos
    · exact ⟨0, by simp⟩
    by_cases inside : n < (f a).length
    · have here : (f a)[n]? = some (f a)[n] := getElem?_eq_getElem inside
      have cont := cont_of_shape (shape a mem_cons_self) pos here
      exact absurd cont (boundary _ (by rw [getElem?_append_left inside, here]))
    · rw [getElem?_append_right (by omega)] at boundary
      obtain ⟨k, taken, dropped⟩ :=
        ih (fun b member => shape b (mem_cons_of_mem a member)) _ boundary
      refine ⟨k + 1, ?_, ?_⟩
      · rw [take_append, take_of_length_le (by omega), taken, take_succ_cons, flatMap_cons]
      · rw [drop_append, drop_of_length_le (by omega), dropped, nil_append, drop_succ_cons]

end Utf8
