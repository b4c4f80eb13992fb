import BpfSysroot.NetAddr

/-!
# What the address readers do on printed texts

Each reader is described on a printed text followed by a rest that it does not touch, and
the readers of a whole address are chained by these rests. The parser tries an embedded
address of version 4 at every group; it fails on a group because no dot follows.
-/

namespace NetAddr

open DisplayInt Numerals List Option
open ParseInt (toDigit toDigit_eq_some_iff)

section
variable {bits radix n : Nat} {maxDigits : Option Nat} {s rest : List UInt8}

/-- The numeral of a number, with small letters. -/
def text (radix n : Nat) : List UInt8 := (numeral radix n).map lowerDigit

/-- The rest of the input does not go on with a digit. -/
def NoDigit (radix : Nat) (rest : List UInt8) : Prop :=
  ∀ c ∈ rest.head?, toDigit c radix = none

lemma toDigit_lowerDigit {d : Nat} (small : d < radix) (le : radix ≤ 16) :
    toDigit (lowerDigit d) radix = some d := by
  have table : ∀ y : Fin 16, ParseInt.digitValue (lowerDigit y.val) = some y.val := by decide
  rw [toDigit_eq_some_iff]
  exact ⟨table ⟨d, by omega⟩, small⟩

lemma text_ten (n : Nat) : ascii (numeral 10 n) = text 10 n := by
  have table : ∀ y : Fin 10, digitByte y.val = lowerDigit y.val := by decide
  apply map_congr_left
  intro d member
  exact table ⟨d, (canonical_numeral (by decide) n).digits d member⟩

lemma mem_text_ne {b : UInt8} (other : ∀ y : Fin 16, lowerDigit y.val ≠ b) (n : Nat) :
    ∀ c ∈ text 16 n, c ≠ b := by
  intro c member
  obtain ⟨d, inside, rfl⟩ := mem_map.mp member
  exact other ⟨d, (canonical_numeral (by decide) _).digits d inside⟩

lemma text_ne_nil (hb : 1 < radix) (n : Nat) : text radix n ≠ [] := by
  have nonempty := (canonical_numeral hb n).nonempty
  simpa [text] using nonempty

lemma readDigits_append (le : radix ≤ 16) (wide : 8 ≤ bits) (stop : NoDigit radix rest)
    (ds : List Nat) (digits : ∀ d ∈ ds, d < radix) (result count : Nat)
    (fits : ds.foldl (fun n d => n * radix + d) result < 2 ^ bits)
    (short : ∀ max ∈ maxDigits, count + ds.length ≤ max) :
    readDigits bits radix maxDigits (ds.map lowerDigit ++ rest) result count =
      some (ds.foldl (fun n d => n * radix + d) result, count + ds.length, rest) := by
  have room : 2 ^ 8 ≤ 2 ^ bits := Nat.pow_le_pow_right (by decide) wide
  induction ds generalizing result count with
  | nil =>
    cases rest with
    | nil => rfl
    | cons c rest =>
      have none : toDigit c radix = none := stop c rfl
      simp [readDigits, none]
  | cons d ds ih =>
    have digit := digits d mem_cons_self
    have positive : 0 < radix := by omega
    -- the accumulator only grows, so it fits at each step
    have grows := (le_foldl positive ds (result * radix + d)).trans_lt fits
    have mul : checkedMul bits result radix = some (result * radix) := if_pos ⟨by omega, by omega⟩
    have add : checkedAdd bits (result * radix) d = some (result * radix + d) :=
      if_pos ⟨by omega, grows⟩
    have few : maxDigits.any (count + 1 > ·) = false := by
      cases maxDigits with
      | none => rfl
      | some max =>
        have enough := short max rfl
        rw [length_cons] at enough
        simp only [any_some, decide_eq_false_iff_not]
        omega
    have later := ih (fun e member => digits e (mem_cons_of_mem d member))
      (result * radix + d) (count + 1) fits
      (fun max member => by
        have enough := short max member
        rw [length_cons] at enough
        omega)
    simp only [map_cons, cons_append, readDigits, toDigit_lowerDigit digit le, mul, add,
      few, bind_eq_bind, bind_some, Bool.false_eq_true, if_false, later,
      foldl_cons, length_cons]
    congr 3
    omega

lemma readNumber_text (hb : 1 < radix) (le : radix ≤ 16) (wide : 8 ≤ bits)
    (fits : n < 2 ^ bits) (short : ∀ max ∈ maxDigits, (text radix n).length ≤ max)
    (stop : NoDigit radix rest) :
    readNumber bits radix maxDigits (text radix n ++ rest) = some (n, rest) := by
  obtain ⟨digits, total, nonempty, -⟩ := canonical_numeral hb n
  rw [value_eq_foldl] at total
  have read := readDigits_append le wide stop (numeral radix n) digits 0 0
    (by rw [total]; exact fits) (by simpa [text] using short)
  have some_digit : 0 + (numeral radix n).length ≠ 0 := by
    have positive := length_pos_iff.mpr nonempty
    omega
  rw [total] at read
  simp only [readNumber, text, read, bind_eq_bind, bind_some, if_neg some_digit]

lemma readNumber_decimal (wide : 8 ≤ bits) (fits : n < 2 ^ bits) (stop : NoDigit 10 rest) :
    readNumber bits 10 none (text 10 n ++ rest) = some (n, rest) :=
  readNumber_text (by decide) (by decide) wide fits (by simp) stop

lemma readDigits_rest {result count v k : Nat}
    (done : readDigits bits radix maxDigits s result count = some (v, k, rest)) :
    rest = s.dropWhile fun c => (toDigit c radix).isSome := by
  induction s generalizing result count with
  | nil =>
    cases done
    rfl
  | cons c s ih =>
    rw [readDigits] at done
    cases digit : toDigit c radix with
    | none =>
      simp only [digit, some.injEq, Prod.mk.injEq] at done
      rw [dropWhile_cons, digit]
      exact done.2.2.symm
    | some d =>
      simp only [digit, bind_eq_bind, bind_eq_some_iff] at done
      obtain ⟨_, -, _, -, done⟩ := done
      split at done
      · cases done
      · rw [dropWhile_cons, digit]
        exact ih done

lemma readNumber_rest {v : Nat} (done : readNumber bits radix maxDigits s = some (v, rest)) :
    rest = s.dropWhile fun c => (toDigit c radix).isSome := by
  simp only [readNumber, bind_eq_bind, bind_eq_some_iff, Prod.exists] at done
  obtain ⟨v', k, rest', read, done⟩ := done
  split at done
  · cases done
  · cases done
    exact readDigits_rest read

lemma readNumber_none (stop : NoDigit radix s) : readNumber bits radix maxDigits s = none := by
  cases s with
  | nil => rfl
  | cons c s =>
    have none : toDigit c radix = none := stop c rfl
    simp [readNumber, readDigits, none]

end

section
variable {s rest : List UInt8}

/-- Four numbers with dots between them. -/
def Ipv4Addr.text (ip : Ipv4Addr) : List UInt8 :=
  NetAddr.text 10 ip.a.toNat ++ 46 :: (NetAddr.text 10 ip.b.toNat ++ 46 ::
    (NetAddr.text 10 ip.c.toNat ++ 46 :: NetAddr.text 10 ip.d.toNat))

lemma display_text {t : IntType} {n : Nat} (unsigned : t.signed = false)
    (small : n < 2 ^ t.width) : DisplayInt.display t n = some (text 10 n) := by
  have inside : t.Contains n := by
    have upper : (n : Int) < 2 ^ t.width := by exact_mod_cast small
    simp only [IntType.Contains, IntType.min, IntType.max, unsigned, Bool.false_eq_true, if_false]
    omega
  rw [display_eq inside, decide_eq_true (Int.natCast_nonneg n), Int.natAbs_natCast, text_ten]
  rfl

lemma Ipv4Addr.pieces_eq (ip : Ipv4Addr) :
    ∃ pieces, ip.pieces = some pieces ∧ pieces.flatten = ip.text := by
  simp [Ipv4Addr.pieces, display_text (t := .u8) rfl (UInt8.toNat_lt _), Ipv4Addr.text]

lemma noDigit_cons {c : UInt8} {radix : Nat} (none : toDigit c radix = none) :
    NoDigit radix (c :: rest) := by
  intro d member
  cases member
  exact none

lemma readOctet_text (index : Nat) (x : UInt8) (stop : NoDigit 10 rest) :
    readOctet index ((if index > 0 then [46] else []) ++ text 10 x.toNat ++ rest) =
      some (x, rest) := by
  have number := readNumber_decimal (by decide) x.toNat_lt stop
  by_cases first : index > 0
  · simp [readOctet, readSeparator, first, readGivenChar, number]
  · simp [readOctet, readSeparator, first, number]

lemma readIpv4Addr_text (ip : Ipv4Addr) (stop : NoDigit 10 rest) :
    readIpv4Addr (ip.text ++ rest) = some (ip, rest) := by
  have dot : ∀ more, NoDigit 10 (46 :: more) := fun more => noDigit_cons (by decide)
  have a := readOctet_text 0 ip.a (dot (text 10 ip.b.toNat ++ 46 :: (text 10 ip.c.toNat ++
    46 :: text 10 ip.d.toNat) ++ rest))
  have b := readOctet_text 1 ip.b (dot (text 10 ip.c.toNat ++ 46 :: text 10 ip.d.toNat ++ rest))
  have c := readOctet_text 2 ip.c (dot (text 10 ip.d.toNat ++ rest))
  have d := readOctet_text 3 ip.d stop
  simp only [gt_iff_lt, lt_irrefl, if_false, Nat.zero_lt_succ, if_true, nil_append,
    cons_append, append_assoc] at a b c d
  simp only [readIpv4Addr, Ipv4Addr.text, append_assoc, cons_append, a, b, c, d,
    Option.bind_eq_bind, Option.bind_some, Option.pure_def]

/-- Without a dot after the first number there is no address. -/
lemma readIpv4Addr_none
    (dotless : ∀ c ∈ (s.dropWhile fun c => (toDigit c 10).isSome).head?, c ≠ 46) :
    readIpv4Addr s = none := by
  by_contra found
  obtain ⟨⟨ip, rest⟩, found⟩ := ne_none_iff_exists'.mp found
  simp only [readIpv4Addr, bind_eq_bind, bind_eq_some_iff, Prod.exists] at found
  obtain ⟨a, after, first, b, s₂, second, -⟩ := found
  simp only [readOctet, readSeparator, Option.bind_eq_bind, Option.bind_eq_some_iff, Prod.exists,
    gt_iff_lt, Nat.lt_irrefl, if_false, Option.pure_def, Option.some.injEq, Prod.mk.injEq] at first
  obtain ⟨x, s₁, number, -, rfl⟩ := first
  obtain rfl := readNumber_rest number
  cases left : s.dropWhile fun c => (toDigit c 10).isSome with
  | nil => simp [readOctet, readSeparator, left, readGivenChar] at second
  | cons c more =>
    have other : c ≠ 46 := dotless c (by rw [left]; rfl)
    simp [readOctet, readSeparator, left, readGivenChar, other] at second

end

section
variable {s rest : List UInt8} {gs xs ys : List UInt16}

lemma fmtInt_eq (left : Nat) {x : Nat} (small : x < 16 ^ (left + 1)) (buf : List UInt8) :
    fmtInt (left + 1) x buf = text 16 x ++ buf := by
  induction left generalizing x buf with
  | zero =>
    rw [Nat.pow_one] at small
    simp [fmtInt, text, numeral_of_lt small, Nat.mod_eq_of_lt small, Nat.div_eq_of_lt small]
  | succ left ih =>
    rw [fmtInt]
    by_cases digit : x < 16
    · simp [text, numeral_of_lt digit, Nat.mod_eq_of_lt digit, Nat.div_eq_of_lt digit]
    · have high : x / 16 < 16 ^ (left + 1) := by
        apply Nat.div_lt_of_lt_mul
        rwa [← pow_succ']
      have more : x / 16 ≠ 0 := by omega
      simp [more, ih high, text, numeral_of_le (by decide : 1 < 16) (Nat.le_of_not_lt digit)]

/-- What a formatter without a width writes before a number. -/
def flagText (f : Formatter) : List UInt8 :=
  (if f.signPlus then [43] else []) ++ if f.alternate then [48, 120] else []

@[simp]
lemma flagText_new : flagText .new = [] := rfl

lemma lowerHex_eq {f : Formatter} (width : f.width = none) (x : UInt16) :
    lowerHex f x = flagText f ++ text 16 x.toNat := by
  have small : x.toNat < 16 ^ (127 + 1) := x.toNat_lt.trans_le (by decide)
  simp only [lowerHex, padIntegral, width, fmtInt_eq 127 small, append_nil]
  rfl

lemma length_text_le {radix n k : Nat} (hb : 1 < radix) (small : n < radix ^ (k + 1)) :
    (text radix n).length ≤ k + 1 := by
  rw [text, length_map]
  exact length_numeral_le hb small

lemma length_hex_le (x : UInt16) : (text 16 x.toNat).length ≤ 4 :=
  length_text_le (by decide) (x.toNat_lt.trans_le (by decide))

variable (gs : List UInt16)

/-- Groups with colons between them. -/
def groupsText : List UInt8 :=
  [58].intercalate (gs.map fun g => text 16 g.toNat)

/-- Groups with a colon before each. -/
def laterText : List UInt8 := gs.flatMap fun g => 58 :: text 16 g.toNat

lemma groupsText_cons (g : UInt16) (gs : List UInt16) :
    groupsText (g :: gs) = text 16 g.toNat ++ laterText gs := by
  induction gs generalizing g with
  | nil => simp [groupsText, laterText, intercalate]
  | cons h gs ih =>
    have tail := ih h
    simp only [groupsText, laterText, intercalate, map_cons, flatMap_cons,
      intersperse_cons_cons, flatten_cons] at tail ⊢
    rw [tail]
    simp

lemma flatten_fmtSubslice : (fmtSubslice .new gs).flatten = groupsText gs := by
  cases gs with
  | nil => rfl
  | cons g gs =>
    rw [groupsText_cons, fmtSubslice, flatten_cons, laterText]
    simp only [lowerHex_eq (f := .new) rfl, flagText_new, nil_append]
    congr 1
    induction gs with
    | nil => rfl
    | cons h gs ih => simp [flatMap_cons, ih]

section
variable {f : Formatter} (width : f.width = none)
include width

lemma fmtSubslice_quiet (quiet : flagText f = []) : fmtSubslice f gs = fmtSubslice .new gs := by
  cases gs <;> simp [fmtSubslice, lowerHex_eq width, lowerHex_eq (f := .new) rfl, quiet]

lemma length_fmtSubslice : (fmtSubslice f gs).flatten.length =
    (groupsText gs).length + gs.length * (flagText f).length := by
  cases gs with
  | nil => simp [fmtSubslice, groupsText]
  | cons g gs =>
    rw [groupsText_cons, fmtSubslice, flatten_cons, laterText]
    simp only [lowerHex_eq width, length_append, length_cons, add_mul]
    induction gs with
    | nil => simp; omega
    | cons h gs ih =>
      simp [flatMap_cons, add_mul] at ih ⊢
      omega

end

/-- What a group is not continued by. -/
def Stops (rest : List UInt8) : Prop :=
  ∀ c ∈ rest.head?, toDigit c 16 = none ∧ c ≠ 46

/-- What ends a list of groups: if a colon follows, then no group follows it. -/
def Closes (rest : List UInt8) : Prop :=
  Stops rest ∧ ∀ more, rest = 58 :: more → NoDigit 16 more

lemma noDigit_ten (stop : NoDigit 16 s) : NoDigit 10 s := by
  intro c member
  have none := stop c member
  cases digit : toDigit c 10 with
  | none => rfl
  | some d =>
    obtain ⟨value, small⟩ := toDigit_eq_some_iff.mp digit
    rw [toDigit_eq_some_iff.mpr ⟨value, by omega⟩] at none
    cases none

lemma Stops.noDigit (stops : Stops rest) : NoDigit 16 rest := fun c member => (stops c member).1

lemma stops_colon (more : List UInt8) : Stops (58 :: more) := by
  intro c member
  cases member
  decide

lemma stops_later (stops : Stops rest) (gs : List UInt16) : Stops (laterText gs ++ rest) := by
  cases gs with
  | nil => exact stops
  | cons g gs => exact stops_colon _

lemma readIpv4Addr_noDigit (stop : NoDigit 10 s) : readIpv4Addr s = none := by
  simp [readIpv4Addr, readOctet, readSeparator, readNumber_none stop]

/-- No group is the beginning of an embedded address. -/
lemma readIpv4Addr_group (g : UInt16) (stops : Stops rest) :
    readIpv4Addr (text 16 g.toNat ++ rest) = none := by
  have none := noDigit_ten stops.noDigit
  have kept : rest.dropWhile (fun c => (toDigit c 10).isSome) = rest := by
    cases rest with
    | nil => rfl
    | cons c rest => simp [none c rfl]
  apply readIpv4Addr_none
  intro c member
  rw [dropWhile_append] at member
  split at member
  · rw [kept] at member
    exact (stops c member).2
  next some_left =>
    obtain ⟨d, more, left⟩ := exists_cons_of_ne_nil
      (fun empty => some_left (isEmpty_iff.mpr empty))
    rw [left] at member
    cases member
    have inside : c ∈ (text 16 g.toNat).dropWhile fun c => (toDigit c 10).isSome := by
      rw [left]
      exact mem_cons_self
    exact mem_text_ne (by decide) _ c ((dropWhile_sublist _).mem inside)

lemma readGroups_group (left i : Nat) (g : UInt16) (stops : Stops rest) :
    readGroups (left + 1) i ((if i > 0 then [58] else []) ++ text 16 g.toNat ++ rest) =
      (g :: (readGroups left (i + 1) rest).1, (readGroups left (i + 1) rest).2) := by
  have number : readNumber 16 16 (some 4) (text 16 g.toNat ++ rest) = some (g.toNat, rest) :=
    readNumber_text (by decide) (by decide) (by decide) g.toNat_lt
      (by rintro max ⟨⟩; exact length_hex_le g) stops.noDigit
  have embedded := readIpv4Addr_group g stops
  by_cases first : i > 0 <;>
    simp [readGroups, readSeparator, first, readGivenChar, number, embedded]

lemma readGroups_end (left i : Nat) (closes : Closes rest) :
    readGroups left (i + 1) rest = ([], false, rest) := by
  cases left with
  | zero => rfl
  | succ left =>
    cases rest with
    | nil => simp [readGroups, readSeparator, readGivenChar]
    | cons c more =>
      by_cases colon : c = 58
      · subst colon
        have none := closes.2 more rfl
        simp [readGroups, readSeparator, readGivenChar, readNumber_none none,
          readIpv4Addr_noDigit (noDigit_ten none)]
      · simp [readGroups, readSeparator, readGivenChar, colon]

lemma readGroups_empty (left : Nat) (stop : NoDigit 16 rest) :
    readGroups left 0 rest = ([], false, rest) := by
  cases left with
  | zero => rfl
  | succ left =>
    simp [readGroups, readSeparator, readNumber_none stop, readIpv4Addr_noDigit (noDigit_ten stop)]

lemma readGroups_later {left i : Nat} (le : gs.length ≤ left) (closes : Closes rest) :
    readGroups left (i + 1) (laterText gs ++ rest) = (gs, false, rest) := by
  induction gs generalizing left i with
  | nil => exact readGroups_end left i closes
  | cons g gs ih =>
    cases left with
    | zero => exact absurd le (Nat.not_succ_le_zero _)
    | succ left =>
      have group := readGroups_group left (i + 1) g (stops_later closes.1 gs)
      rw [ih (Nat.le_of_succ_le_succ le)] at group
      simpa [laterText] using group

lemma readGroups_groupsText {left : Nat} (le : gs.length ≤ left)
    (closes : Closes rest) : readGroups left 0 (groupsText gs ++ rest) = (gs, false, rest) := by
  cases gs with
  | nil => exact readGroups_empty left closes.1.noDigit
  | cons g gs =>
    cases left with
    | zero => exact absurd le (Nat.not_succ_le_zero _)
    | succ left =>
      have group := readGroups_group left 0 g (stops_later closes.1 gs)
      rw [readGroups_later gs (Nat.le_of_succ_le_succ le) closes] at group
      simpa [groupsText_cons] using group

end

variable {s more rest : List UInt8} {xs ys gs : List UInt16} {ip : Ipv6Addr}

lemma toBeBytes_fromBeBytes (x y : UInt8) : toBeBytes (fromBeBytes x y) = [x, y] := by
  have small := y.toNat_lt
  have large := x.toNat_lt
  have total : (fromBeBytes x y).toNat = 2 ^ 8 * x.toNat + y.toNat := by
    rw [fromBeBytes, UInt16.toNat_or, UInt16.toNat_shiftLeft, Nat.two_pow_add_eq_or_of_lt small,
      Nat.shiftLeft_eq, Nat.mod_eq_of_lt (by simp; omega), mul_comm]
    rfl
  have high : (fromBeBytes x y >>> 8).toUInt8 = x := by
    apply UInt8.toNat_inj.mp
    simp
    omega
  have low : (fromBeBytes x y).toUInt8 = y := by
    apply UInt8.toNat_inj.mp
    rw [UInt16.toNat_toUInt8]
    omega
  rw [toBeBytes, high, low]

lemma flatMap_pairs {k : Nat} {octets : List UInt8} (even : octets.length = 2 * k) :
    (Ipv6Addr.pairs octets).flatMap toBeBytes = octets ∧ (Ipv6Addr.pairs octets).length = k := by
  induction k generalizing octets with
  | zero =>
    obtain rfl := eq_nil_of_length_eq_zero even
    exact ⟨rfl, rfl⟩
  | succ k ih =>
    match octets, even with
    | x :: y :: octets, even =>
      obtain ⟨bytes, length⟩ := ih (by simpa [mul_add] using even)
      simp [Ipv6Addr.pairs, toBeBytes_fromBeBytes, bytes, length]

lemma Ipv6Addr.length_segments (ip : Ipv6Addr) : ip.segments.length = 8 :=
  (flatMap_pairs ip.length).2

lemma Ipv6Addr.ofSegments_eq (ip : Ipv6Addr) (eight : gs.length = 8) (same : gs = ip.segments) :
    ofSegments gs eight = ip := by
  subst same
  cases ip with
  | mk octets length =>
    have bytes := (flatMap_pairs (k := 8) length).1
    simp only [ofSegments, segments, bytes]

lemma readIpv6Addr_whole (ip : Ipv6Addr) (closes : Closes rest) :
    readIpv6Addr (groupsText ip.segments ++ rest) = some (ip, rest) := by
  have eight := ip.length_segments
  have front := readGroups_groupsText ip.segments (le_of_eq eight) closes
  simp only [readIpv6Addr, front, eight, dite_true, ip.ofSegments_eq eight rfl]

lemma readIpv6Addr_split {flag : Bool} (front : readGroups 8 0 s = (xs, false, 58 :: 58 :: more))
    (few : xs.length ≠ 8) (back : readGroups (7 - xs.length) 0 more = (ys, flag, rest))
    (same : concat xs ys = ip.segments) : readIpv6Addr s = some (ip, rest) := by
  have address := ip.ofSegments_eq (same ▸ ip.length_segments) same
  simp [readIpv6Addr, front, few, back, readGivenChar, address]

lemma closes_colons (stop : NoDigit 16 more) : Closes (58 :: more) := by
  refine ⟨stops_colon _, ?_⟩
  rintro _ ⟨⟩
  exact stop

lemma noDigit_colon (more : List UInt8) : NoDigit 16 (58 :: more) := noDigit_cons (by decide)

/-- The two sides of `::`, which stands for at least two groups. -/
lemma readIpv6Addr_compressed (few : xs.length + ys.length ≤ 6) (closes : Closes rest)
    (same : concat xs ys = ip.segments) :
    readIpv6Addr (groupsText xs ++ 58 :: 58 :: (groupsText ys ++ rest)) = some (ip, rest) := by
  have front := readGroups_groupsText xs (by omega : xs.length ≤ 8)
    (closes_colons (noDigit_colon (groupsText ys ++ rest)))
  have back := readGroups_groupsText ys (by omega : ys.length ≤ 7 - xs.length) closes
  exact readIpv6Addr_split front (by omega) back same

variable (v4 : Ipv4Addr)
include v4

lemma readGroups_embedded (left : Nat) (stop : NoDigit 10 rest) :
    readGroups (left + 2) 0 (v4.text ++ rest) =
      ([fromBeBytes v4.a v4.b, fromBeBytes v4.c v4.d], true, rest) := by
  simp [readGroups, readSeparator, readIpv4Addr_text v4 stop]

lemma readGroups_embedded_later (left i : Nat) (stop : NoDigit 10 rest) :
    readGroups (left + 2) (i + 1) (58 :: (v4.text ++ rest)) =
      ([fromBeBytes v4.a v4.b, fromBeBytes v4.c v4.d], true, rest) := by
  simp [readGroups, readSeparator, readGivenChar, readIpv4Addr_text v4 stop]

lemma readIpv6Addr_compatible (stop : NoDigit 10 rest)
    (same : concat [] [fromBeBytes v4.a v4.b, fromBeBytes v4.c v4.d] = ip.segments) :
    readIpv6Addr (58 :: 58 :: (v4.text ++ rest)) = some (ip, rest) := by
  have front := readGroups_empty 8 (noDigit_colon (58 :: (v4.text ++ rest)))
  exact readIpv6Addr_split front (by decide) (readGroups_embedded v4 5 stop) same

lemma readIpv6Addr_mapped (stop : NoDigit 10 rest)
    (same : concat [] [0xffff, fromBeBytes v4.a v4.b, fromBeBytes v4.c v4.d] = ip.segments) :
    readIpv6Addr (58 :: 58 :: (text 16 0xffff ++ 58 :: (v4.text ++ rest))) = some (ip, rest) := by
  have front := readGroups_empty 8
    (noDigit_colon (58 :: (text 16 0xffff ++ 58 :: (v4.text ++ rest))))
  have back := readGroups_group 6 0 0xffff (stops_colon (v4.text ++ rest))
  rw [readGroups_embedded_later v4 4 0 stop] at back
  exact readIpv6Addr_split front (by decide) back same

end NetAddr
