import BpfSysroot.NetAddrReaders

/-!
# Printed addresses are read back

An address of version 6 is printed as its groups around the first longest run of zeros, or
with an embedded address of version 4. `Printed` lists the forms; each is read back, is not
taken for an address of version 4 and fits in the buffer. Sockets put brackets, scope and
port around it. Last come the flags for numbers, which the groups see.
-/

namespace NetAddr

open DisplayInt Numerals List

section
variable {gs : List UInt16} {start len : Nat} {longest current : Span} {g : UInt16}

/-- The segments from `start` on, `len` of them, are zero. -/
def IsRun (gs : List UInt16) (start len : Nat) : Prop :=
  start + len ≤ gs.length ∧ ∀ i, start ≤ i → i < start + len → gs[i]? = some 0

/-- No run of zeros is longer, and none of the same length comes before it. -/
structure FirstLongest (gs : List UInt16) (z : Span) : Prop where
  run : IsRun gs z.start z.len
  longest : ∀ start len, IsRun gs start len → len ≤ z.len
  first : 0 < z.len → ∀ start, IsRun gs start z.len → z.start ≤ start

/-- The longest run at the end. -/
structure Trailing (gs : List UInt16) (z : Span) : Prop where
  ends : 0 < z.len → z.start + z.len = gs.length
  run : 0 < z.len → IsRun gs z.start z.len
  longest : ∀ start len, start + len = gs.length → IsRun gs start len → len ≤ z.len

/-- A run in front of another segment, or one that ends with it. -/
lemma isRun_concat (run : IsRun (gs ++ [g]) start len) :
    IsRun gs start len ∨
      start + len = gs.length + 1 ∧ (0 < len → g = 0 ∧ IsRun gs start (len - 1)) := by
  obtain ⟨le, zeros⟩ := run
  rw [length_append, length_singleton] at le
  rcases lt_or_ge gs.length (start + len) with beyond | inside
  · refine .inr ⟨by omega, fun pos => ⟨?_, by omega, ?_⟩⟩
    · have last := zeros gs.length (by omega) beyond
      simpa using last
    · intro i low high
      have zero := zeros i low (by omega)
      rwa [getElem?_append_left (by omega)] at zero
  · refine .inl ⟨inside, ?_⟩
    intro i low high
    have zero := zeros i low high
    rwa [getElem?_append_left (by omega)] at zero

lemma IsRun.append (run : IsRun gs start len) (more : List UInt16) :
    IsRun (gs ++ more) start len := by
  obtain ⟨le, zeros⟩ := run
  refine ⟨by rw [length_append]; omega, ?_⟩
  intro i low high
  rw [getElem?_append_left (by omega)]
  exact zeros i low high

lemma Trailing.extend (trailing : Trailing gs current) :
    Trailing (gs ++ [0])
      ⟨if current.len = 0 then gs.length else current.start, current.len + 1⟩ := by
  have place : (if current.len = 0 then gs.length else current.start) + (current.len + 1) =
      gs.length + 1 := by
    split
    · omega
    · have ends := trailing.ends (by omega)
      omega
  refine ⟨fun _ => by simpa using place, fun _ => ⟨by simpa using place.le, ?_⟩, ?_⟩
  · intro i low high
    simp only at low high
    rcases lt_or_ge i gs.length with before | last
    · rw [getElem?_append_left before]
      split at low
      · omega
      · have run := trailing.run (by omega)
        have ends := trailing.ends (by omega)
        exact run.2 i low (by omega)
    · have same : i = gs.length := by omega
      simp [same]
  · intro start len ends run
    rcases isRun_concat run with ⟨inside, -⟩ | ⟨at_end, shorter⟩
    · simp at ends
      omega
    · rcases Nat.eq_zero_or_pos len with zero | pos
      · omega
      · have bound := trailing.longest start (len - 1) (by omega) (shorter pos).2
        exact (by omega : len ≤ current.len + 1)

lemma Trailing.clear (nonzero : g ≠ 0) : Trailing (gs ++ [g]) ⟨0, 0⟩ := by
  refine ⟨fun pos => absurd pos (lt_irrefl 0), fun pos => absurd pos (lt_irrefl 0), ?_⟩
  intro start len ends run
  rcases isRun_concat run with ⟨inside, -⟩ | ⟨-, shorter⟩
  · simp at ends
    omega
  · exact Nat.le_of_not_lt fun pos => nonzero (shorter pos).1

lemma FirstLongest.extend (best : FirstLongest gs longest) (trailing : Trailing (gs ++ [0]) current)
    (pos : 0 < current.len) :
    FirstLongest (gs ++ [0]) (if current.len > longest.len then current else longest) := by
  have ends := trailing.ends pos
  rw [length_append, length_singleton] at ends
  have inside := best.run.1
  -- every run is at the end or was there before
  have cases : ∀ start len, IsRun (gs ++ [0]) start len →
      len ≤ longest.len ∧ IsRun gs start len ∨ len ≤ current.len ∧ start + len = gs.length + 1 := by
    intro start len run
    rcases isRun_concat run with old | ⟨at_end, -⟩
    · exact .inl ⟨best.longest start len old, old⟩
    · exact .inr ⟨trailing.longest start len (by simpa using at_end) run, at_end⟩
  split
  · refine ⟨trailing.run pos, ?_, ?_⟩
    · intro start len run
      rcases cases start len run with ⟨le, -⟩ | ⟨le, -⟩ <;> omega
    · intro _ start run
      rcases cases start current.len run with ⟨le, -⟩ | ⟨-, at_end⟩ <;> omega
  · refine ⟨best.run.append [0], ?_, ?_⟩
    · intro start len run
      rcases cases start len run with ⟨le, -⟩ | ⟨le, -⟩ <;> omega
    · intro some_run start run
      rcases cases start longest.len run with ⟨-, old⟩ | ⟨-, at_end⟩
      · exact best.first some_run start old
      · omega

lemma FirstLongest.skip (best : FirstLongest gs longest) (nonzero : g ≠ 0) :
    FirstLongest (gs ++ [g]) longest := by
  have old : ∀ start len, 0 < len → IsRun (gs ++ [g]) start len → IsRun gs start len := by
    intro start len pos run
    rcases isRun_concat run with old | ⟨-, shorter⟩
    · exact old
    · exact absurd (shorter pos).1 nonzero
  refine ⟨best.run.append [g], ?_, ?_⟩
  · intro start len run
    rcases Nat.eq_zero_or_pos len with zero | pos
    · omega
    · exact best.longest start len (old start len pos run)
  · intro pos start run
    exact best.first pos start (old start _ pos run)

lemma zeroesLoop_spec (rest : List UInt16) (best : FirstLongest gs longest)
    (trailing : Trailing gs current) :
    FirstLongest (gs ++ rest) (zeroesLoop rest gs.length longest current) := by
  induction rest generalizing gs longest current with
  | nil =>
    rw [append_nil]
    exact best
  | cons g rest ih =>
    have length : (gs ++ [g]).length = gs.length + 1 := by simp
    have split : gs ++ g :: rest = gs ++ [g] ++ rest := by simp
    rw [zeroesLoop, split, ← length]
    by_cases zero : g = 0
    · subst zero
      exact ih (best.extend trailing.extend (Nat.succ_pos _)) trailing.extend
    · rw [if_neg zero]
      exact ih (best.skip zero) (Trailing.clear zero)

lemma zeroes_spec (gs : List UInt16) : FirstLongest gs (zeroes gs) := by
  have none : ∀ start len, IsRun [] start len → len ≤ 0 := by
    intro start len run
    have le := run.1
    rw [length_nil] at le
    omega
  have best : FirstLongest [] ⟨0, 0⟩ :=
    ⟨⟨le_refl 0, fun i low high => absurd high (Nat.not_lt_zero i)⟩, none,
      fun pos => absurd pos (lt_irrefl 0)⟩
  have trailing : Trailing [] ⟨0, 0⟩ :=
    ⟨fun pos => absurd pos (lt_irrefl 0), fun pos => absurd pos (lt_irrefl 0),
      fun start len _ run => none start len run⟩
  exact zeroesLoop_spec gs best trailing

lemma IsRun.split (run : IsRun gs start len) :
    gs = gs.take start ++ List.replicate len 0 ++ gs.drop (start + len) := by
  obtain ⟨le, zeros⟩ := run
  have middle : (gs.drop start).take len = List.replicate len 0 := by
    apply ext_getElem?
    intro i
    rw [getElem?_take, getElem?_drop, getElem?_replicate]
    split
    · rw [zeros (start + i) (by omega) (by omega)]
    · rfl
  rw [← middle, ← drop_drop, append_assoc, take_append_drop, take_append_drop]

lemma concat_run (eight : gs.length = 8) (run : IsRun gs start len) :
    concat (gs.take start) (gs.drop (start + len)) = gs := by
  have le := run.1
  have split := run.split
  have first : (gs.take start).length = start := by rw [length_take]; omega
  have last : 8 - (gs.drop (start + len)).length = start + len := by rw [length_drop]; omega
  rw [concat, last, take_append, first, Nat.add_sub_cancel_left, take_replicate,
    min_eq_left (by omega), take_of_length_le (by omega)]
  exact split.symm

end

section
variable {a b x y t r : List UInt8} {gs : List UInt16}

/-- No two colons next to each other. -/
def Separate (t : List UInt8) : Prop := t.IsChain fun a b => ¬(a = 58 ∧ b = 58)

lemma text_no_colon (g : UInt16) : ∀ c ∈ text 16 g.toNat, c ≠ 58 := mem_text_ne (by decide) _

lemma separate_append (colonless : ∀ c ∈ t, c ≠ 58) (separate : Separate r) :
    Separate (t ++ r) := by
  induction t with
  | nil => exact separate
  | cons c t ih =>
    have other := colonless c mem_cons_self
    refine (ih fun d member => colonless d (mem_cons_of_mem c member)).cons ?_
    rintro d - ⟨colon, -⟩
    exact other colon

lemma separate_later (gs : List UInt16) : Separate (laterText gs ++ [58]) := by
  induction gs with
  | nil => exact isChain_singleton _
  | cons g gs ih =>
    have colonless := text_no_colon g
    have chunk := separate_append colonless ih
    obtain ⟨c, more, digits⟩ := exists_cons_of_ne_nil (text_ne_nil (by decide : 1 < 16) g.toNat)
    rw [laterText, flatMap_cons, cons_append, cons_append, append_assoc]
    refine chunk.cons ?_
    rintro d first ⟨-, colon⟩
    rw [digits] at first
    cases Option.some.inj first
    exact colonless c (by rw [digits]; exact mem_cons_self) colon

lemma separate_front (gs : List UInt16) : Separate (groupsText gs ++ [58]) := by
  cases gs with
  | nil => exact isChain_singleton _
  | cons g gs =>
    rw [groupsText_cons, append_assoc]
    exact separate_append (text_no_colon g) (separate_later gs)

lemma separate_back (gs : List UInt16) : Separate (58 :: groupsText gs) := by
  cases gs with
  | nil => exact isChain_singleton _
  | cons g gs =>
    have whole := (separate_later (g :: gs)).left_of_append
    rwa [laterText, flatMap_cons, cons_append, ← laterText, ← groupsText_cons] at whole

lemma Separate.no_colons (separate : Separate t) : t ≠ x ++ 58 :: 58 :: y := by
  rintro rfl
  have pair := (List.isChain_append_cons_cons.mp separate).2.1
  exact pair ⟨rfl, rfl⟩

/-- Two colons between parts that have none, and do not end or begin with one, are the only
ones. -/
lemma colons_unique (front : Separate (a ++ [58])) (back : Separate (58 :: b)) :
    a ++ 58 :: 58 :: b = x ++ 58 :: 58 :: y ↔ x = a ∧ y = b := by
  constructor
  · intro same
    rcases List.append_eq_append_iff.mp same with ⟨e, rfl, rest⟩ | ⟨e, rfl, rest⟩
    · -- the second pair is at or after the first
      match e, rest with
      | [], rest => simpa using rest.symm
      | c :: e, rest =>
        rw [(List.cons.inj rest).2] at back
        exact absurd rfl back.no_colons
    · match e, rest with
      | [], rest => simpa using rest
      | c :: e, rest =>
        obtain ⟨rfl, later⟩ := List.cons.inj rest
        rw [append_assoc] at front
        cases e with
        | nil => exact absurd rfl front.no_colons
        | cons d e =>
          obtain ⟨rfl, -⟩ := List.cons.inj later
          exact absurd rfl front.no_colons
  · rintro ⟨rfl, rfl⟩
    rfl

end

section
variable {ip : Ipv6Addr} {t rest : List UInt8}

/-- The forms in which an address of version 6 is printed. -/
inductive Printed (ip : Ipv6Addr) : List UInt8 → Prop where
  | compatible (v4 : Ipv4Addr)
      (same : concat [] [fromBeBytes v4.a v4.b, fromBeBytes v4.c v4.d] = ip.segments) :
      Printed ip (58 :: 58 :: v4.text)
  | mapped (v4 : Ipv4Addr)
      (same : concat [] [0xffff, fromBeBytes v4.a v4.b, fromBeBytes v4.c v4.d] = ip.segments) :
      Printed ip (58 :: 58 :: (text 16 0xffff ++ 58 :: v4.text))
  | compressed (long : 1 < (zeroes ip.segments).len) :
      Printed ip (groupsText (ip.segments.take (zeroes ip.segments).start) ++ 58 :: 58 ::
        groupsText (ip.segments.drop ((zeroes ip.segments).start + (zeroes ip.segments).len)))
  | whole (short : ¬1 < (zeroes ip.segments).len) : Printed ip (groupsText ip.segments)

lemma fromBeBytes_toBeBytes (u : UInt16) : fromBeBytes (u >>> 8).toUInt8 u.toUInt8 = u := by
  have small := u.toNat_lt
  have low : u.toNat % 2 ^ 8 < 2 ^ 8 := Nat.mod_lt _ (by decide)
  apply UInt16.toNat_inj.mp
  rw [fromBeBytes, UInt16.toNat_or, UInt16.toNat_shiftLeft, UInt8.toNat_toUInt16,
    UInt16.toNat_toUInt8, UInt16.toNat_shiftRight, Nat.shiftRight_eq_div_pow]
  have high : (u.toNat / 2 ^ 8 % 2 ^ 8) <<< 8 % 2 ^ 16 = 2 ^ 8 * (u.toNat / 2 ^ 8) := by
    omega
  refine Eq.trans (congrArg (· ||| u.toNat % 2 ^ 8) high) ?_
  rw [← Nat.two_pow_add_eq_or_of_lt low, Nat.div_add_mod]

lemma toIpv4_eq {v4 : Ipv4Addr} (embedded : ip.toIpv4 = some v4) :
    ∃ x, ip.segments = [0, 0, 0, 0, 0, x, fromBeBytes v4.a v4.b, fromBeBytes v4.c v4.d] ∧
      (x = 0 ∨ x = 0xffff) := by
  rw [Ipv6Addr.toIpv4] at embedded
  split at embedded
  next x ab cd same =>
    split at embedded
    next marker =>
      simp only [toBeBytes, Option.some.injEq] at embedded
      subst embedded
      exact ⟨x, by rw [same, fromBeBytes_toBeBytes, fromBeBytes_toBeBytes], marker⟩
    · cases embedded
  · cases embedded

/-- The addresses of zeros and at most one more group. -/
lemma Ipv6Addr.printed_zeros {octets : List UInt8} (n : Nat) (gs : List UInt16)
    (same : (ip.s6Addr == octets)) (zeros : pairs octets = List.replicate n 0 ++ gs)
    (span : zeroes (pairs octets) = ⟨0, n⟩) (long : 1 < n) :
    Printed ip (58 :: 58 :: groupsText gs) := by
  obtain rfl := beq_iff_eq.mp same
  have printed : Printed ip _ := .compressed (span ▸ long)
  rw [Ipv6Addr.segments, span, zeros] at printed
  simp at printed
  exact printed

lemma text_ffff : text 16 0xffff = [102, 102, 102, 102] := by
  decide

lemma Ipv6Addr.pieces_printed (ip : Ipv6Addr) :
    ∃ pieces, ip.pieces .new = some pieces ∧ Printed ip pieces.flatten := by
  rw [Ipv6Addr.pieces]
  by_cases unspecified : ip.isUnspecified
  · exact ⟨_, if_pos unspecified, printed_zeros 8 [] unspecified rfl rfl (by decide)⟩
  by_cases loopback : ip.isLoopback
  · have printed := printed_zeros 7 [1] loopback rfl rfl (by decide)
    exact ⟨_, (if_neg unspecified).trans (if_pos loopback), printed⟩
  rw [if_neg unspecified, if_neg loopback]
  cases embedded : ip.toIpv4 with
  | some v4 =>
    obtain ⟨x, same, marker⟩ := toIpv4_eq embedded
    obtain ⟨pieces, written, joined⟩ := v4.pieces_eq
    rcases marker with rfl | rfl
    · refine ⟨[58, 58] :: pieces, by simp [written, same], ?_⟩
      rw [flatten_cons, joined]
      exact .compatible v4 same.symm
    · refine ⟨[58, 58, 102, 102, 102, 102, 58] :: pieces, by simp [written, same], ?_⟩
      have printed := Printed.mapped v4 same.symm
      rw [flatten_cons, joined]
      exact printed
  | none =>
    by_cases long : 1 < (zeroes ip.segments).len
    · refine ⟨_, if_pos long, ?_⟩
      have printed := Printed.compressed long
      simpa [flatten_fmtSubslice] using printed
    · refine ⟨_, if_neg long, ?_⟩
      rw [flatten_fmtSubslice]
      exact .whole long

/-- A printed address is read back, whatever closes it. -/
lemma Printed.read (printed : Printed ip t) (closes : Closes rest) :
    readIpv6Addr (t ++ rest) = some (ip, rest) := by
  have stop := noDigit_ten closes.1.noDigit
  have eight := ip.length_segments
  cases printed with
  | compatible v4 same => exact readIpv6Addr_compatible v4 stop same
  | mapped v4 same =>
    have read := readIpv6Addr_mapped v4 stop same
    simpa using read
  | compressed long =>
    have run := (zeroes_spec ip.segments).run
    have le := run.1
    have few : (ip.segments.take (zeroes ip.segments).start).length +
        (ip.segments.drop ((zeroes ip.segments).start + (zeroes ip.segments).len)).length ≤ 6 := by
      rw [length_take, length_drop]
      omega
    have read := readIpv6Addr_compressed few closes (concat_run eight run)
    simpa using read
  | whole short => exact readIpv6Addr_whole ip closes

/-- A printed address of version 6 is never taken for one of version 4. -/
lemma Printed.not_ipv4 (printed : Printed ip t) (closes : Closes rest) :
    readIpv4Addr (t ++ rest) = none := by
  have colons : ∀ more, readIpv4Addr (58 :: more) = none := fun more =>
    readIpv4Addr_noDigit (noDigit_ten (noDigit_colon more))
  have groups : ∀ gs more, Stops more → gs ≠ [] → readIpv4Addr (groupsText gs ++ more) = none := by
    intro gs more stops nonempty
    obtain ⟨g, gs, rfl⟩ := exists_cons_of_ne_nil nonempty
    rw [groupsText_cons, append_assoc]
    exact readIpv4Addr_group g (stops_later stops gs)
  cases printed with
  | compatible v4 same => exact colons _
  | mapped v4 same => exact colons _
  | compressed long =>
    rw [append_assoc]
    cases front : ip.segments.take (zeroes ip.segments).start with
    | nil => exact colons _
    | cons g gs => exact groups _ _ (stops_colon _) (cons_ne_nil g gs)
  | whole short =>
    have eight := ip.length_segments
    apply groups _ _ closes.1
    intro empty
    rw [empty] at eight
    cases eight

/-- How a text without an embedded address uses `::`: for the first longest run of at least
two zeros and nowhere else, or not at all if there is no such run. -/
def UsesColons (gs : List UInt16) (t : List UInt8) : Prop :=
  (∃ z, 2 ≤ z.len ∧ FirstLongest gs z ∧ ∀ x y, t = x ++ 58 :: 58 :: y ↔
    x = groupsText (gs.take z.start) ∧ y = groupsText (gs.drop (z.start + z.len))) ∨
  (∀ start len, IsRun gs start len → len < 2) ∧ t = groupsText gs ∧ ∀ x y, t ≠ x ++ 58 :: 58 :: y

lemma dot_mem_text (v4 : Ipv4Addr) : 46 ∈ v4.text := by
  simp [Ipv4Addr.text]

lemma Printed.usesColons (printed : Printed ip t) (dotless : 46 ∉ t) :
    UsesColons ip.segments t := by
  have best := zeroes_spec ip.segments
  cases printed with
  | compatible v4 same => exact absurd (dot_mem_text v4) (by simpa using dotless)
  | mapped v4 same =>
    refine absurd (dot_mem_text v4) fun member => dotless ?_
    simp [member]
  | compressed long =>
    refine .inl ⟨zeroes ip.segments, long, best, fun x y => ?_⟩
    exact colons_unique (separate_front _) (separate_back _)
  | whole short =>
    refine .inr ⟨?_, rfl, fun x y => ?_⟩
    · intro start len run
      have le := best.longest start len run
      omega
    · exact Separate.no_colons (separate_front ip.segments).left_of_append

end

section
variable {ip : Ipv6Addr} {t : List UInt8}

lemma Ipv4Addr.length_text_le (ip : Ipv4Addr) : ip.text.length ≤ 15 := by
  have octet : ∀ x : UInt8, (NetAddr.text 10 x.toNat).length ≤ 3 := fun x =>
    NetAddr.length_text_le (by decide) (x.toNat_lt.trans (by decide))
  have a := octet ip.a
  have b := octet ip.b
  have c := octet ip.c
  have d := octet ip.d
  simp only [Ipv4Addr.text, length_append, length_cons]
  omega

lemma length_laterText_le (gs : List UInt16) : (laterText gs).length ≤ 5 * gs.length := by
  induction gs with
  | nil => exact le_refl 0
  | cons g gs ih =>
    have digits := length_hex_le g
    rw [laterText] at ih
    rw [laterText, flatMap_cons, length_append, length_cons, length_cons]
    omega

lemma length_groupsText_le (gs : List UInt16) : (groupsText gs).length ≤ 5 * gs.length - 1 := by
  cases gs with
  | nil => exact le_refl 0
  | cons g gs =>
    have digits := length_hex_le g
    have later := length_laterText_le gs
    rw [groupsText_cons, length_append, length_cons]
    omega

lemma Printed.length_le (printed : Printed ip t) : t.length ≤ 39 := by
  have eight := ip.length_segments
  cases printed with
  | compatible v4 same =>
    have dotted := v4.length_text_le
    simp only [length_cons]
    omega
  | mapped v4 same =>
    have dotted := v4.length_text_le
    simp only [text_ffff, length_cons, length_append, length_nil]
    omega
  | compressed long =>
    have le := (zeroes_spec ip.segments).run.1
    have front := length_groupsText_le (ip.segments.take (zeroes ip.segments).start)
    have back := length_groupsText_le
      (ip.segments.drop ((zeroes ip.segments).start + (zeroes ip.segments).len))
    rw [length_take] at front
    rw [length_drop] at back
    simp only [length_append, length_cons]
    omega
  | whole short =>
    have all := length_groupsText_le ip.segments
    omega

lemma writeSlice_eq (pieces : List (List UInt8)) {room : Nat}
    (fits : pieces.flatten.length ≤ room) : writeSlice room pieces = some pieces.flatten := by
  induction pieces generalizing room with
  | nil => rfl
  | cons piece pieces ih =>
    rw [flatten_cons, length_append] at fits
    rw [writeSlice, if_pos (by omega), ih (by omega), Option.map_some, flatten_cons]

lemma pad_plain {f : Formatter} (width : f.width = none) (precision : f.precision = none)
    (s : List UInt8) : pad f s = s := by
  simp [pad, width, precision]

/-- The text is written as it is, or it fits in the buffer. -/
lemma display_eq (f : Formatter) {bufLen : Nat} {text : Formatter → Option (List (List UInt8))}
    {pieces : List (List UInt8)} (fits : pieces.flatten.length ≤ bufLen)
    (written : text .new = some pieces)
    (direct : f.width = none → f.precision = none → text f = some pieces) :
    display f bufLen text = some (pad f pieces.flatten) := by
  by_cases plain : (f.precision.isNone && f.width.isNone)
  · obtain ⟨precision, width⟩ : f.precision = none ∧ f.width = none := by simpa using plain
    simp [display, width, precision, pad_plain, direct]
  · simp [display, plain, written, writeSlice_eq pieces fits]

end

section
variable {rest : List UInt8}

lemma readPort_text (port : UInt16) (stop : NoDigit 10 rest) :
    readPort (58 :: (text 10 port.toNat ++ rest)) = some (port, rest) := by
  simp [readPort, readGivenChar, readNumber_decimal (by decide) port.toNat_lt stop]

lemma readScopeId_text (id : UInt32) (stop : NoDigit 10 rest) :
    readScopeId (37 :: (text 10 id.toNat ++ rest)) = some (id, rest) := by
  simp [readScopeId, readGivenChar, readNumber_decimal (by decide) id.toNat_lt stop]

lemma noDigit_nil (radix : Nat) : NoDigit radix [] := by
  rintro c ⟨⟩

lemma closes_nil : Closes [] := by
  constructor
  · rintro c ⟨⟩
  · rintro more ⟨⟩

/-- A byte that is no digit, no dot and no colon closes an address. -/
lemma closes_cons {c : UInt8} (digit : ParseInt.toDigit c 16 = none) (dot : c ≠ 46)
    (colon : c ≠ 58) (more : List UInt8) : Closes (c :: more) := by
  constructor
  · intro d member
    cases Option.some.inj member
    exact ⟨digit, dot⟩
  · intro later same
    exact absurd (List.cons.inj same).1 colon

def SocketAddrV4.text (addr : SocketAddrV4) : List UInt8 :=
  addr.ip.text ++ 58 :: NetAddr.text 10 addr.port.toNat

lemma SocketAddrV4.pieces_eq (addr : SocketAddrV4) :
    ∃ pieces, addr.pieces = some pieces ∧ pieces.flatten = addr.text := by
  obtain ⟨pieces, written, joined⟩ := addr.ip.pieces_eq
  simp [SocketAddrV4.pieces, written, display_text (t := .u16) rfl (UInt16.toNat_lt _), joined,
    SocketAddrV4.text]

lemma readSocketAddrV4_text (addr : SocketAddrV4) :
    readSocketAddrV4 addr.text = some (addr, []) := by
  have ip := readIpv4Addr_text addr.ip
    (noDigit_cons (by decide) : NoDigit 10 (58 :: (text 10 addr.port.toNat ++ [])))
  have port := readPort_text addr.port (noDigit_nil 10)
  rw [append_nil] at ip port
  simp [readSocketAddrV4, SocketAddrV4.text, ip, port]

/-- What is printed between the address and the bracket. -/
def scopeText (id : UInt32) : List UInt8 := if id = 0 then [] else 37 :: text 10 id.toNat

def SocketAddrV6.text (addr : SocketAddrV6) (ip : List UInt8) : List UInt8 :=
  91 :: (ip ++ (scopeText addr.scopeId ++ 93 :: 58 :: NetAddr.text 10 addr.port.toNat))

lemma SocketAddrV6.pieces_eq (addr : SocketAddrV6) :
    ∃ pieces ip, addr.pieces = some pieces ∧ Printed addr.ip ip ∧
      pieces.flatten = addr.text ip := by
  obtain ⟨pieces, written, printed⟩ := addr.ip.pieces_printed
  by_cases zero : addr.scopeId = 0 <;>
    simp [SocketAddrV6.pieces, written, display_text (t := .u16) rfl (UInt16.toNat_lt _),
      display_text (t := .u32) rfl (UInt32.toNat_lt _), SocketAddrV6.text, scopeText, zero, printed]

lemma closes_bracket (more : List UInt8) : Closes (93 :: more) :=
  closes_cons (by decide) (by decide) (by decide) more

lemma readSocketAddrV6_text (addr : SocketAddrV6) (flow : addr.flowinfo = 0) {ip : List UInt8}
    (printed : Printed addr.ip ip) : readSocketAddrV6 (addr.text ip) = some (addr, []) := by
  rw [SocketAddrV6.text]
  have port := readPort_text addr.port (noDigit_nil 10)
  rw [append_nil] at port
  have whole : addr = ⟨addr.ip, addr.port, 0, addr.scopeId⟩ := by rw [← flow]
  by_cases zero : addr.scopeId = 0
  · have address := printed.read (closes_bracket (58 :: text 10 addr.port.toNat))
    rw [zero] at whole
    simp [readSocketAddrV6, readGivenChar, scopeText, zero, address, readScopeId, port, ← whole]
  · have address := printed.read (closes_cons (by decide) (by decide) (by decide)
      (text 10 addr.scopeId.toNat ++ 93 :: 58 :: text 10 addr.port.toNat) : Closes (37 :: _))
    have scope := readScopeId_text addr.scopeId
      (noDigit_ten (closes_bracket (58 :: text 10 addr.port.toNat)).1.noDigit)
    simp [readSocketAddrV6, readGivenChar, scopeText, zero, address, scope, port, ← whole]

end

section
variable {f : Formatter}

lemma parseWith_ok {α : Type} {inner : Parser α} {s : List UInt8} {x : α}
    (read : inner s = some (x, [])) : parseWith inner s = .ok x := by
  rw [parseWith, read]

lemma length_port_le (port : UInt16) : (text 10 port.toNat).length ≤ 5 :=
  length_text_le (by decide) (port.toNat_lt.trans (by decide))

lemma Ipv4Addr.fmt_eq (f : Formatter) (ip : Ipv4Addr) : ip.fmt f = some (pad f ip.text) := by
  obtain ⟨pieces, written, joined⟩ := ip.pieces_eq
  rw [Ipv4Addr.fmt, ← joined]
  exact display_eq f (joined ▸ ip.length_text_le) written fun _ _ => written

/-- The forms that are not written segment by segment. -/
def Ipv6Addr.isSpecial (ip : Ipv6Addr) : Bool :=
  ip.isUnspecified || ip.isLoopback || ip.toIpv4.isSome

/-- Where no segment sees `#` or `+`, the text is that of `{}`, cut and padded. -/
lemma Ipv6Addr.fmt_quiet (ip : Ipv6Addr) {f : Formatter}
    (quiet : f.width = none → f.precision = none → ip.isSpecial = false → flagText f = []) :
    ∃ t, Printed ip t ∧ ip.fmt .new = some t ∧ ip.fmt f = some (pad f t) := by
  obtain ⟨pieces, written, printed⟩ := ip.pieces_printed
  refine ⟨_, printed, display_eq .new printed.length_le written fun _ _ => written,
    display_eq f printed.length_le written fun width precision => ?_⟩
  rw [← written]
  cases special : ip.isSpecial with
  | false => simp [Ipv6Addr.pieces, fmtSubslice_quiet _ width (quiet width precision special)]
  | true =>
    simp only [isSpecial, Bool.or_eq_true, or_assoc, Option.isSome_iff_exists] at special
    rcases special with is | is | ⟨v4, is⟩ <;> simp [Ipv6Addr.pieces, is]

/-- Else each segment that is printed gets what the flags ask for. -/
lemma Ipv6Addr.fmt_loud {f : Formatter} {ip : Ipv6Addr} (width : f.width = none)
    (precision : f.precision = none) (general : ip.isSpecial = false) :
    ∃ s t n, ip.fmt .new = some s ∧ ip.fmt f = some t ∧
      t.length = s.length + (n + 1) * (flagText f).length := by
  obtain ⟨⟨unspecified, loopback⟩, embedded⟩ : (ip.isUnspecified = false ∧ ip.isLoopback = false) ∧
      ip.toIpv4 = none := by simpa [isSpecial] using general
  have direct {f : Formatter} (width : f.width = none) (precision : f.precision = none) :
      ip.fmt f = (ip.pieces f).map flatten := by
    simp [Ipv6Addr.fmt, display, width, precision, Option.map_eq_bind]
  simp only [direct width precision, direct (f := .new) rfl rfl, Ipv6Addr.pieces, unspecified,
    loopback, embedded, Bool.false_eq_true, if_false]
  by_cases long : 1 < (zeroes ip.segments).len
  · have printed := Printed.compressed long
    simp only [gt_iff_lt, if_pos long]
    generalize take _ ip.segments = front, drop _ ip.segments = back at printed ⊢
    obtain ⟨n, count⟩ : ∃ n, front.length + back.length = n + 1 := by
      refine Nat.exists_eq_succ_of_ne_zero fun none => ?_
      obtain ⟨rfl, rfl⟩ : front = [] ∧ back = [] := by simpa using none
      -- only the address of zeros is printed as `::`
      have read := printed.read closes_nil
      have zeros : readIpv6Addr [58, 58] = some (ofSegments (List.replicate 8 0) rfl, []) := by
        decide
      cases zeros.symm.trans read
      cases unspecified
    refine ⟨_, _, n, rfl, rfl, ?_⟩
    simp only [flatten_append, length_append, length_fmtSubslice _ width, flatten_fmtSubslice,
      ← count, add_mul]
    omega
  · simp only [gt_iff_lt, if_neg long]
    refine ⟨_, _, 7, rfl, rfl, ?_⟩
    rw [length_fmtSubslice _ width, flatten_fmtSubslice, ip.length_segments]

lemma SocketAddrV4.fmt_eq (f : Formatter) (addr : SocketAddrV4) :
    addr.fmt f = some (pad f addr.text) := by
  obtain ⟨pieces, written, joined⟩ := addr.pieces_eq
  have ip := addr.ip.length_text_le
  have port := length_port_le addr.port
  rw [SocketAddrV4.fmt, ← joined]
  refine display_eq f ?_ written fun _ _ => written
  rw [joined, SocketAddrV4.text, length_append, length_cons]
  omega

lemma SocketAddrV6.fmt_eq (f : Formatter) (addr : SocketAddrV6) :
    ∃ ip, Printed addr.ip ip ∧ addr.fmt f = some (pad f (addr.text ip)) := by
  obtain ⟨pieces, ip, written, printed, joined⟩ := addr.pieces_eq
  have address := printed.length_le
  have port := length_port_le addr.port
  have scope : (scopeText addr.scopeId).length ≤ 11 := by
    have digits := length_text_le (k := 9) (by decide : 1 < 10)
      (addr.scopeId.toNat_lt.trans (by decide))
    rw [scopeText]
    split
    · exact Nat.zero_le _
    · rw [length_cons]
      omega
  refine ⟨ip, printed, ?_⟩
  rw [SocketAddrV6.fmt, ← joined]
  refine display_eq f ?_ written fun _ _ => written
  simp only [joined, SocketAddrV6.text, length_cons, length_append]
  omega

end

/-- Printed addresses are read back, by the parser of their own type and by that of both
versions; texts without an embedded address use `::` as they should; and with a width or a
precision the text fits in the buffer. -/
theorem addresses_round_trip :
    (∀ f : Formatter, f.width = none → f.precision = none → f.alternate = false →
      f.signPlus = false →
      (∀ ip : Ipv4Addr, ∃ t, ip.fmt f = some t ∧ (IpAddr.v4 ip).fmt f = some t ∧
        Ipv4Addr.fromStr t = .ok ip ∧ IpAddr.fromStr t = .ok (.v4 ip)) ∧
      (∀ ip : Ipv6Addr, ∃ t, ip.fmt f = some t ∧ (IpAddr.v6 ip).fmt f = some t ∧
        Ipv6Addr.fromStr t = .ok ip ∧ IpAddr.fromStr t = .ok (.v6 ip) ∧
        (46 ∉ t → UsesColons ip.segments t)) ∧
      (∀ addr : SocketAddrV4, ∃ t, addr.fmt f = some t ∧ (SocketAddr.v4 addr).fmt f = some t ∧
        SocketAddrV4.fromStr t = .ok addr ∧ SocketAddr.fromStr t = .ok (.v4 addr)) ∧
      (∀ addr : SocketAddrV6, addr.flowinfo = 0 →
        ∃ t, addr.fmt f = some t ∧ (SocketAddr.v6 addr).fmt f = some t ∧
          SocketAddrV6.fromStr t = .ok addr ∧ SocketAddr.fromStr t = .ok (.v6 addr))) ∧
    (∀ f : Formatter, (∀ ip : IpAddr, ∃ t, ip.fmt f = some t) ∧
      (∀ addr : SocketAddr, ∃ t, addr.fmt f = some t)) := by
  constructor
  · intro f width precision alternate plus
    have plain := pad_plain width precision
    refine ⟨fun ip => ?_, fun ip => ?_, fun addr => ?_, fun addr flow => ?_⟩
    · have written := ip.fmt_eq f
      rw [plain] at written
      have read := readIpv4Addr_text ip (noDigit_nil 10)
      rw [List.append_nil] at read
      exact ⟨_, written, written, parseWith_ok read, parseWith_ok (by rw [readIpAddr, read])⟩
    · obtain ⟨t, printed, -, written⟩ := ip.fmt_quiet (f := f)
        fun _ _ _ => by simp [flagText, alternate, plus]
      rw [plain] at written
      have read := printed.read closes_nil
      have other := printed.not_ipv4 closes_nil
      rw [List.append_nil] at read other
      exact ⟨_, written, written, parseWith_ok read,
        parseWith_ok (by rw [readIpAddr, other, read]; rfl), printed.usesColons⟩
    · have written := addr.fmt_eq f
      rw [plain] at written
      have read := readSocketAddrV4_text addr
      exact ⟨_, written, written, parseWith_ok read, parseWith_ok (by rw [readSocketAddr, read])⟩
    · obtain ⟨ip, printed, written⟩ := addr.fmt_eq f
      rw [plain] at written
      have read := readSocketAddrV6_text addr flow printed
      exact ⟨_, written, written, parseWith_ok read,
        parseWith_ok (by rw [readSocketAddr, read]; rfl)⟩
  · intro f
    constructor
    · rintro (ip | ip)
      · exact ⟨_, ip.fmt_eq f⟩
      · by_cases loud : f.width = none ∧ f.precision = none ∧ ip.isSpecial = false
        · obtain ⟨_, _, _, -, written, -⟩ := Ipv6Addr.fmt_loud loud.1 loud.2.1 loud.2.2
          exact ⟨_, written⟩
        · obtain ⟨_, -, -, written⟩ := ip.fmt_quiet (f := f)
            fun width precision general => absurd ⟨width, precision, general⟩ loud
          exact ⟨_, written⟩
    · rintro (addr | addr)
      · exact ⟨_, addr.fmt_eq f⟩
      · obtain ⟨_, -, written⟩ := addr.fmt_eq f
        exact ⟨_, written⟩

/-- A scoped address on a port. -/
theorem addresses_round_trip_scoped :
    ∃ t, SocketAddrV6.fmt .new
        ⟨Ipv6Addr.ofSegments [0xfe80, 0, 0, 0, 0, 0, 0, 1] rfl, 443, 0, 3⟩ = some t ∧
      SocketAddr.fromStr t =
        .ok (.v6 ⟨Ipv6Addr.ofSegments [0xfe80, 0, 0, 0, 0, 0, 0, 1] rfl, 443, 0, 3⟩) := by
  obtain ⟨t, written, -, -, read⟩ :=
    (addresses_round_trip.1 .new rfl rfl rfl rfl).2.2.2
      ⟨Ipv6Addr.ofSegments [0xfe80, 0, 0, 0, 0, 0, 0, 1] rfl, 443, 0, 3⟩ rfl
  exact ⟨t, written, read⟩

/-- The text is that of `{}`, cut and padded, exactly if no segment sees `#` or `+`. -/
theorem ipv6_fmt_ignores_flags_iff (ip : Ipv6Addr) (f : Formatter) :
    (∃ text, ip.fmt .new = some text ∧ ip.fmt f = some (pad f text)) ↔
      f.width.isSome ∨ f.precision.isSome ∨ ip.isSpecial ∨
        f.alternate = false ∧ f.signPlus = false := by
  constructor
  · rintro ⟨text, plain, shown⟩
    by_contra loud
    simp only [not_or, Bool.not_eq_true, Option.isSome_eq_false_iff,
      Option.isNone_iff_eq_none] at loud
    obtain ⟨width, precision, general, flags⟩ := loud
    obtain ⟨s, t, n, same, other, length⟩ := Ipv6Addr.fmt_loud width precision general
    rw [pad_plain width precision] at shown
    cases plain.symm.trans same
    cases shown.symm.trans other
    have none : (flagText f).length = 0 := by simpa using length
    rw [length_eq_zero_iff, flagText] at none
    exact flags (by simpa [and_comm] using none)
  · intro quiet
    obtain ⟨t, -, shown⟩ := ip.fmt_quiet (f := f) fun width precision general => by
      simp [width, precision, general] at quiet
      simp [flagText, quiet]
    exact ⟨t, shown⟩

def sample : Ipv6Addr := .ofSegments [0x2001, 1, 2, 3, 4, 5, 6, 7] rfl

/-- `format!("{:#}", ip)`. -/
theorem ipv6_fmt_prefixes_segments :
    sample.fmt { Formatter.new with alternate := true } ≠ sample.fmt .new := by
  decide

end NetAddr
