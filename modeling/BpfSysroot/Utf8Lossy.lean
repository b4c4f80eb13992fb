import BpfSysroot.Utf8Validation

/-!
# Lossy decoding

`Utf8LossyChunksIter` of `core/src/str/lossy.rs` and `String::from_utf8_lossy` of
`alloc/src/string.rs`. The chunk iterator pads a slice with zero bytes instead of
asking for its end. It cuts every slice where the validator does.
-/

namespace Utf8Lossy

open Utf8 Utf8Validation List Option

section

structure Chunk where
  valid : List UInt8
  broken : List UInt8
  deriving DecidableEq

variable (source : List UInt8)

def safeGet (i : Nat) : UInt8 := source[i]?.getD 0

/-- `xs[lo..hi]`; no result if it would panic. -/
def slice (lo hi : Nat) : Option (List UInt8) :=
  if lo ≤ hi ∧ hi ≤ source.length then some ((source.take hi).drop lo) else none

def continues (b : UInt8) : Bool := b &&& 192 == 128

/-- Tests the byte at an index; an error is found before it. -/
def check (i : Nat) (test : UInt8 → Bool) : Except Nat Nat :=
  if test (safeGet source i) then .ok (i + 1) else .error i

/-- The index after a character, or the index at which the macro `error!` stands. -/
def character (i : Nat) (byte : UInt8) : Except Nat Nat :=
  if byte < 128 then
    .ok i
  else
    match utf8CharWidth byte with
    | 2 => check source i continues
    | 3 => do
      let i ← check source i (secondOfThree byte)
      check source i continues
    | 4 => do
      let i ← check source i (secondOfFour byte)
      let i ← check source i continues
      check source i continues
    | _ => .error i

/-- Where the loop finds an error, if it does; the fuel bounds its rounds. -/
def scan : Nat → Nat → Option (Option (Nat × Nat))
  | 0, _ => none
  | fuel + 1, i =>
    match source[i]? with
    | none => some none
    | some byte =>
      match character source (i + 1) byte with
      | .ok i' => scan fuel i'
      | .error i' => some (some (i, i'))

def next : Option (Option Chunk × List UInt8) :=
  if source.isEmpty then
    some (none, source)
  else do
    match ← scan source (source.length + 1) 0 with
    | some (before, after) =>
      let valid ← slice source 0 before
      let broken ← slice source before after
      return (some ⟨valid, broken⟩, ← slice source after source.length)
    | none => return (some ⟨source, []⟩, [])

def collect : Nat → List UInt8 → Option (List Chunk)
  | 0, _ => none
  | fuel + 1, source => do
    match ← next source with
    | (none, _) => return []
    | (some chunk, rest) => return chunk :: (← collect fuel rest)

def chunks : Option (List Chunk) := collect (source.length + 1) source

inductive Cow
  | borrowed (bytes : List UInt8)
  | owned (bytes : List UInt8)
  deriving DecidableEq

def Cow.bytes : Cow → List UInt8
  | .borrowed bytes => bytes
  | .owned bytes => bytes

/-- The bytes of U+FFFD. -/
def replacement : List UInt8 := [0xEF, 0xBF, 0xBD]

def pushChunk (res : List UInt8) (chunk : Chunk) : List UInt8 :=
  let res := res ++ chunk.valid
  if !chunk.broken.isEmpty then res ++ replacement else res

def fromUtf8Lossy (v : List UInt8) : Option Cow := do
  match ← next v with
  | (none, _) => return .borrowed []
  | (some chunk, rest) =>
    if chunk.valid.length = v.length then
      -- The debug assertion that nothing is broken.
      if chunk.broken.isEmpty then return .borrowed chunk.valid else none
    else
      let others ← collect v.length rest
      return .owned (others.foldl pushChunk (pushChunk [] chunk))

end

/-- A slice cut by the result of its validation, and what is left. -/
def cut (v : List UInt8) : Except Utf8Error Unit → Chunk × List UInt8
  | .ok () => (⟨v, []⟩, [])
  | .error e =>
    let rest := v.drop e.validUpTo
    let n := e.errorLen.getD rest.length
    (⟨v.take e.validUpTo, rest.take n⟩, rest.drop n)

/-- The chunks that repeated validation gives, for a slice that starts at the given address. -/
def revalidate : Nat → Option Nat → List UInt8 → Option (List Chunk)
  | 0, _, _ => none
  | _ + 1, _, [] => some []
  | fuel + 1, start, v => do
    let (chunk, rest) := cut v (← runUtf8Validation start v)
    return chunk :: (← revalidate fuel (start.map (· + (v.length - rest.length))) rest)

/-- The text that repeated validation gives, with one replacement for each error. -/
def repaired : Nat → Option Nat → List UInt8 → Option (List UInt8)
  | 0, _, _ => none
  | _ + 1, _, [] => some []
  | fuel + 1, start, v => do
    let r ← runUtf8Validation start v
    let (chunk, rest) := cut v r
    let text := match r with
      | .ok () => chunk.valid
      | .error _ => chunk.valid ++ replacement
    return text ++ (← repaired fuel (start.map (· + (v.length - rest.length))) rest)

section
variable {source : List UInt8} {i j k : Nat} {first : UInt8} {r : List UInt8}

/-- An error of the validator as the index after its bytes. -/
def toIndex (source : List UInt8) : Except Utf8Error Nat → Except Nat Nat
  | .ok j => .ok j
  | .error e => .error (e.validUpTo + e.errorLen.getD (source.drop e.validUpTo).length)

/-- A test that refuses the padding finds what the validator finds at this byte. -/
lemma check_bind {test : UInt8 → Bool} {f : Nat → Except Nat Nat} {g : Nat → Except Utf8Error Nat}
    (padding : test 0 = false) (le : i ≤ j) (inside : j < source.length) (hk : j + 1 = i + k)
    (later : j + 1 < source.length → f (j + 2) = toIndex source (g (j + 1))) :
    (check source (j + 1) test >>= f) = toIndex source (expect source i j test k >>= g) := by
  rw [check, safeGet, expect]
  cases found : source[j + 1]? with
  | none =>
    have short : source.length = j + 1 := by
      have := getElem?_eq_none_iff.mp found
      omega
    have count : i + (source.drop i).length = j + 1 := by
      rw [length_drop]
      omega
    exact (congrArg (· >>= f) (if_neg (by simp [padding]))).trans (congrArg Except.error count.symm)
  | some y =>
    rw [getD_some]
    by_cases passed : test y
    · rw [if_pos passed]
      exact (later (List.getElem?_eq_some_iff.mp found).1).trans (by simp only [if_pos passed]; rfl)
    · rw [if_neg passed]
      exact (congrArg Except.error hk).trans (by simp only [if_neg passed]; rfl)

/-- A character of several bytes is read as the validator reads it. -/
lemma character_eq (less : i < source.length) (high : ¬first < 128) :
    character source (i + 1) first = toIndex source (multiByte source i first) := by
  rw [character, if_neg high, multiByte]
  have last {j k : Nat} (le : i ≤ j) (inside : j < source.length) (hk : j + 1 = i + k) :
      check source (j + 1) continues =
        toIndex source (expect source i j contByte k >>= fun j => pure (j + 1)) :=
    (bind_pure _).symm.trans (check_bind rfl le inside hk fun _ => rfl)
  generalize utf8CharWidth first = w
  rcases w with _ | _ | _ | _ | _ | w
  · rfl
  · rfl
  · exact last le_rfl less rfl
  · exact check_bind (by simp [secondOfThree]) le_rfl less rfl fun more => last (by omega) more rfl
  · exact check_bind (by simp [secondOfFour]) le_rfl less rfl fun more =>
      check_bind rfl (by omega) more rfl fun more => last (by omega) more rfl
  · rfl

lemma character_spec (less : i < source.length) (here : source.drop i = first :: r) :
    (∃ n, character source (i + 1) first = .ok (i + n) ∧ n ≤ r.length + 1 ∧
        Sequence ((first :: r).take n)) ∨
      ∃ e n, character source (i + 1) first = .error (i + n) ∧ Broken (first :: r) e ∧
        n = e.getD (first :: r).length := by
  by_cases ascii : first < 128
  · exact .inl ⟨1, if_pos ascii, by simp, .one (by grind)⟩
  rw [character_eq less ascii]
  obtain ⟨n, passed, rest⟩ | ⟨e, failed, broken⟩ := multiByte_spec here (by grind)
  · exact .inl ⟨n, by rw [passed]; rfl, rest⟩
  · exact .inr ⟨e, _, by rw [failed]; rfl, broken, by rw [here]⟩

end

section
variable {v source : List UInt8} {r r' : Except Utf8Error Unit}

lemma judges_unique (h : Judges v r) (h' : Judges v r') : r = r' := by
  cases r with
  | ok _ =>
    cases r' with
    | ok _ => rfl
    | error e' => exact absurd h (h'.2.2.not_text h'.1 h'.2.1)
  | error e =>
    cases r' with
    | ok _ => exact absurd h' (h.2.2.not_text h.1 h.2.1)
    | error e' =>
      obtain ⟨text, less, broken⟩ := h
      obtain ⟨text', less', broken'⟩ := h'
      have same := (broken.isGreatest text less).unique (broken'.isGreatest text' less')
      obtain ⟨n, k⟩ := e
      obtain ⟨n', k'⟩ := e'
      obtain rfl : n = n' := same
      obtain rfl : k = k' := broken.unique broken'
      rfl

lemma errorLen_bounds {l : List UInt8} {e : Option Nat} (broken : Broken l e) (ne : l ≠ []) :
    0 < e.getD l.length ∧ e.getD l.length ≤ l.length := by
  have positive := length_pos_iff.mpr ne
  cases e with
  | none => exact ⟨positive, le_rfl⟩
  | some k =>
    obtain ⟨j, greatest, rfl⟩ := broken.longest k rfl
    have le : j ≤ l.length := greatest.1.1
    rw [getD_some]
    omega

/-- Where the loop stops, by the result of the validation. -/
def stop (v : List UInt8) : Except Utf8Error Unit → Option (Nat × Nat)
  | .ok () => none
  | .error e => some (e.validUpTo, e.validUpTo + e.errorLen.getD (v.drop e.validUpTo).length)

lemma scan_eq (fuel : Nat) : ∀ {i}, source.length - i < fuel → i ≤ source.length →
    Text (source.take i) → ∃ r, Judges source r ∧ scan source fuel i = some (stop source r) := by
  induction fuel with
  | zero => exact fun short => absurd short (Nat.not_lt_zero _)
  | succ fuel ih =>
    intro i enough inside before
    rw [scan]
    cases found : source[i]? with
    | none =>
      have whole : source.length ≤ i := List.getElem?_eq_none_iff.mp found
      rw [take_of_length_le whole] at before
      exact ⟨.ok (), before, rfl⟩
    | some byte =>
      obtain ⟨less, rfl⟩ := List.getElem?_eq_some_iff.mp found
      have here : source.drop i = source[i] :: source.drop (i + 1) := drop_eq_getElem_cons less
      obtain ⟨n, passed, room, sequence⟩ | ⟨e, n, failed, broken, count⟩ := character_spec less here
      · have positive : 0 < n := Nat.pos_of_ne_zero (by rintro rfl; exact sequence.ne_nil rfl)
        rw [← here] at sequence
        rw [length_drop] at room
        simp only [passed]
        exact ih (by omega) (by omega) (text_take_add before (text_of_sequence sequence))
      · rw [← here] at broken count
        simp only [failed, count]
        exact ⟨.error ⟨i, e⟩, ⟨before, less, broken⟩, rfl⟩

lemma slice_eq {lo hi : Nat} (le : lo ≤ hi) (inside : hi ≤ source.length) :
    slice source lo hi = some ((source.drop lo).take (hi - lo)) := by
  rw [slice, if_pos ⟨le, inside⟩, drop_take]

/-- The iterator cuts a slice as the validator does. -/
lemma next_eq (ne : source ≠ []) :
    ∃ r, Judges source r ∧ next source = some (some (cut source r).1, (cut source r).2) := by
  obtain ⟨r, judges, scanned⟩ := scan_eq (source.length + 1) (Nat.lt_succ_self _)
    (Nat.zero_le _) Text.nil
  refine ⟨r, judges, ?_⟩
  rw [next, if_neg (by simpa using ne), scanned]
  cases r with
  | ok _ => rfl
  | error e =>
    obtain ⟨text, less, broken⟩ := judges
    have bounds := errorLen_bounds broken (by simpa using less)
    simp only [cut, stop, Option.bind_eq_bind, Option.bind_some]
    generalize e.errorLen.getD (source.drop e.validUpTo).length = n at bounds ⊢
    rw [length_drop] at bounds
    rw [slice_eq (Nat.zero_le _) less.le, slice_eq (Nat.le_add_right _ _) (by omega),
      slice_eq (by omega) le_rfl]
    simp [take_of_length_le]

end

section
variable {v : List UInt8} {r : Except Utf8Error Unit}

/-- A chunk as it is written to the result. -/
def Chunk.replaced (c : Chunk) : List UInt8 :=
  c.valid ++ if c.broken.isEmpty then [] else replacement

/-- What repeated validation makes of a slice. -/
structure Splits (v : List UInt8) (cs : List Chunk) : Prop where
  flat : cs.flatMap (fun c => c.valid ++ c.broken) = v
  texts : ∀ c ∈ cs, Text c.valid
  last : ∀ c ∈ cs.dropLast, c.broken ≠ []
  empty : v = [] → cs = []

lemma broken_ne_nil {e : Utf8Error} (judges : Judges v (.error e)) :
    (cut v (.error e)).1.broken ≠ [] := by
  obtain ⟨_, less, broken⟩ := judges
  have rest_ne : v.drop e.validUpTo ≠ [] := by simpa using less
  have bounds := errorLen_bounds broken rest_ne
  simp only [cut, ne_eq, take_eq_nil_iff, not_or]
  exact ⟨by omega, rest_ne⟩

/-- A cut takes something off the slice, and leaves something only after a broken part. -/
lemma cut_spec (ne : v ≠ []) (judges : Judges v r) :
    (cut v r).1.valid ++ (cut v r).1.broken ++ (cut v r).2 = v ∧ Text (cut v r).1.valid ∧
      (cut v r).2.length < v.length ∧ ((cut v r).2 ≠ [] → (cut v r).1.broken ≠ []) := by
  cases r with
  | ok _ => exact ⟨by simp [cut], judges, length_pos_iff.mpr ne, absurd rfl⟩
  | error e =>
    have some_broken := broken_ne_nil judges
    obtain ⟨text, less, broken⟩ := judges
    have bounds := errorLen_bounds broken (by simpa using less)
    refine ⟨?_, text, ?_, fun _ => some_broken⟩
    · simp only [cut]
      rw [append_assoc, take_append_drop, take_append_drop]
    · simp only [cut, length_drop] at bounds ⊢
      omega

lemma revalidate_succ (fuel : Nat) {start : Option Nat} (ne : v ≠ [])
    (ran : runUtf8Validation start v = some r) :
    revalidate (fuel + 1) start v = (revalidate fuel
      (start.map (· + (v.length - (cut v r).2.length))) (cut v r).2).map ((cut v r).1 :: ·) := by
  cases v with
  | nil => exact absurd rfl ne
  | cons b t => simp [revalidate, ran, map_eq_bind]

lemma repaired_succ (fuel : Nat) {start : Option Nat} (ne : v ≠ [])
    (ran : runUtf8Validation start v = some r) (judges : Judges v r) :
    repaired (fuel + 1) start v = (repaired fuel
      (start.map (· + (v.length - (cut v r).2.length))) (cut v r).2).map
        ((cut v r).1.replaced ++ ·) := by
  cases v with
  | nil => exact absurd rfl ne
  | cons b t =>
    cases r with
    | ok _ => simp [repaired, ran, map_eq_bind, Chunk.replaced, cut]
    | error e =>
      have broken : (cut (b :: t) (.error e)).1.broken ≠ [] := broken_ne_nil judges
      simp [repaired, ran, map_eq_bind, Chunk.replaced, broken]

lemma collect_succ (fuel : Nat) {chunk : Chunk} {rest : List UInt8}
    (called : next v = some (some chunk, rest)) :
    collect (fuel + 1) v = (collect fuel rest).map (chunk :: ·) := by
  simp [collect, called, map_eq_bind]

lemma splits_cons {c : Chunk} {rest : List UInt8} {cs : List Chunk} (ne : v ≠ [])
    (whole : c.valid ++ c.broken ++ rest = v) (text : Text c.valid)
    (broken : rest ≠ [] → c.broken ≠ []) (splits : Splits rest cs) : Splits v (c :: cs) := by
  obtain ⟨flat, texts, last, empty⟩ := splits
  refine ⟨by rw [flatMap_cons, flat, whole], by simpa using ⟨text, texts⟩, ?_, fun h => absurd h ne⟩
  cases cs with
  | nil => simp
  | cons d ds =>
    have rest_ne : rest ≠ [] := fun h => absurd (empty h) (cons_ne_nil d ds)
    simp only [dropLast_cons_cons, forall_mem_cons]
    exact ⟨broken rest_ne, last⟩

lemma collect_eq (fuel : Nat) : ∀ {v : List UInt8} (start : Option Nat), v.length < fuel →
    ∃ cs, collect fuel v = some cs ∧ revalidate fuel start v = some cs ∧
      repaired fuel start v = some (cs.flatMap Chunk.replaced) ∧ Splits v cs := by
  induction fuel with
  | zero => exact fun _ short => absurd short (Nat.not_lt_zero _)
  | succ fuel ih =>
    intro v start enough
    by_cases empty : v = []
    · subst empty
      exact ⟨[], rfl, rfl, rfl, rfl, by simp, by simp, fun _ => rfl⟩
    · obtain ⟨r, judges, called⟩ := next_eq empty
      obtain ⟨r', ran, judges'⟩ := runUtf8Validation_judges start v
      obtain rfl : r = r' := judges_unique judges judges'
      obtain ⟨whole, text, shorter, broken⟩ := cut_spec empty judges
      obtain ⟨cs, collected, revalidated, repairedRest, splits⟩ :=
        ih (start.map (· + (v.length - (cut v r).2.length)))
          (lt_of_lt_of_le shorter (Nat.le_of_lt_succ enough))
      refine ⟨(cut v r).1 :: cs, ?_, ?_, ?_, splits_cons empty whole text broken splits⟩
      · rw [collect_succ fuel called, collected]
        rfl
      · rw [revalidate_succ fuel empty ran, revalidated]
        rfl
      · rw [repaired_succ fuel empty ran judges, repairedRest]
        rfl

end

variable {v : List UInt8}

lemma foldl_pushChunk (cs : List Chunk) (res : List UInt8) :
    cs.foldl pushChunk res = res ++ cs.flatMap Chunk.replaced := by
  induction cs generalizing res with
  | nil => simp
  | cons c cs ih =>
    rw [foldl_cons, ih]
    cases empty : c.broken.isEmpty <;> simp [pushChunk, Chunk.replaced, empty]

lemma text_flatMap_replaced {cs : List Chunk} (texts : ∀ c ∈ cs, Text c.valid) :
    Text (cs.flatMap Chunk.replaced) := by
  have written : Text replacement := text_of_sequence (.threeEE (by decide) (by decide)
    ⟨by decide, by decide⟩ ⟨by decide, by decide⟩)
  induction cs with
  | nil => exact .nil
  | cons c cs ih =>
    obtain ⟨first, others⟩ := forall_mem_cons.mp texts
    refine (first.append_text ?_).append_text (ih others)
    split
    next => exact .nil
    next => exact written

/-- A valid slice is borrowed; otherwise the chunks are written one after the other. -/
lemma fromUtf8Lossy_eq {r : Except Utf8Error Unit} {cs : List Chunk} (judges : Judges v r)
    (collected : collect (v.length + 1) v = some cs) :
    ∃ cow, fromUtf8Lossy v = some cow ∧ cow.bytes = cs.flatMap Chunk.replaced ∧
      (r = .ok () → cow = .borrowed v) ∧ (r ≠ .ok () → ∃ bytes, cow = .owned bytes) := by
  by_cases empty : v = []
  · subst empty
    cases collected
    obtain rfl : r = .ok () := judges_unique judges .nil
    exact ⟨.borrowed [], rfl, rfl, fun _ => rfl, absurd rfl⟩
  · obtain ⟨r', judges', called⟩ := next_eq empty
    obtain rfl : r = r' := judges_unique judges judges'
    rw [collect_succ _ called, map_eq_some_iff] at collected
    obtain ⟨others, collected, rfl⟩ := collected
    cases r with
    | ok _ =>
      obtain ⟨n, count⟩ := Nat.exists_eq_succ_of_ne_zero (mt length_eq_zero_iff.mp empty)
      rw [count] at collected
      cases collected
      refine ⟨.borrowed v, ?_, ?_, fun _ => rfl, absurd rfl⟩
      · simp [fromUtf8Lossy, called, cut]
      · simp [Cow.bytes, Chunk.replaced, cut]
    | error e =>
      have shorter : (cut v (.error e)).1.valid.length ≠ v.length := by
        have less := judges.2.1
        simp only [cut, length_take]
        omega
      refine ⟨.owned (others.foldl pushChunk (pushChunk [] (cut v (.error e)).1)), ?_, ?_, nofun,
        fun _ => ⟨_, rfl⟩⟩
      · simp [fromUtf8Lossy, called, shorter, collected]
      · exact foldl_pushChunk ((cut v (.error e)).1 :: others) []

/-- The chunks are those of repeated validation. They make up the slice, their valid parts are
texts, and only the last one may have no broken part. A lossy string has one replacement for each
reported error, and it is the slice itself if and only if the slice is valid. -/
theorem lossy_agrees (start : Option Nat) (v : List UInt8) :
    ∃ cs cow, chunks v = some cs ∧ revalidate (v.length + 1) start v = some cs ∧
      cs.flatMap (fun c => c.valid ++ c.broken) = v ∧ (∀ c ∈ cs, Text c.valid) ∧
      (∀ c ∈ cs.dropLast, c.broken ≠ []) ∧
      fromUtf8Lossy v = some cow ∧ repaired (v.length + 1) start v = some cow.bytes ∧
      (cow = .borrowed v ↔ runUtf8Validation start v = some (.ok ())) ∧
      (cow.bytes = v ↔ runUtf8Validation start v = some (.ok ())) := by
  obtain ⟨cs, collected, revalidated, repairedAll, splits⟩ :=
    collect_eq (v.length + 1) start (Nat.lt_succ_self _)
  obtain ⟨r, ran, judges⟩ := runUtf8Validation_judges start v
  obtain ⟨cow, made, written, borrowed, owned⟩ := fromUtf8Lossy_eq judges collected
  obtain ⟨flat, texts, last, _⟩ := splits
  refine ⟨cs, cow, collected, revalidated, flat, texts, last, made, written ▸ repairedAll, ?_, ?_⟩
  · rw [ran, some.injEq]
    constructor
    · intro same
      by_contra invalid
      obtain ⟨bytes, other⟩ := owned invalid
      rw [other] at same
      exact nomatch same
    · exact borrowed
  · rw [ran, some.injEq]
    constructor
    · intro same
      have text : Judges v (.ok ()) := by
        rw [← same, written]
        exact text_flatMap_replaced texts
      exact judges_unique judges text
    · intro valid
      rw [borrowed valid]
      rfl

/-- Whatever the bytes, the lossy string is valid, and a second conversion borrows it. -/
theorem lossy_settles (start : Option Nat) (v : List UInt8) :
    ∃ cow, fromUtf8Lossy v = some cow ∧ runUtf8Validation start cow.bytes = some (.ok ()) ∧
      fromUtf8Lossy cow.bytes = some (.borrowed cow.bytes) := by
  have converts (v : List UInt8) := collect_eq (v := v) (v.length + 1) start (Nat.lt_succ_self _)
  obtain ⟨cs, collected, -, -, splits⟩ := converts v
  obtain ⟨r, -, judges⟩ := runUtf8Validation_judges start v
  obtain ⟨cow, made, written, -⟩ := fromUtf8Lossy_eq judges collected
  have text : Judges cow.bytes (.ok ()) := written ▸ text_flatMap_replaced splits.texts
  obtain ⟨r', ran, judges'⟩ := runUtf8Validation_judges start cow.bytes
  obtain rfl := judges_unique judges' text
  obtain ⟨_, collected', -⟩ := converts cow.bytes
  obtain ⟨cow', again, -, borrowed, -⟩ := fromUtf8Lossy_eq judges' collected'
  exact ⟨cow, made, ran, borrowed rfl ▸ again⟩

end Utf8Lossy
