import BpfSysroot.RawVec

/-!
# Joining strings

`join_generic_copy` of `alloc/src/str.rs`. Every call of `borrow` may give another answer: an
element is what it answers where it is asked. The arms of `spezialize_for_lengths` differ in
nothing but the length that the separator is known to have.
-/

namespace StrJoin

open List

open RawVec (checkedAdd checkedMul usizeValues)

variable {T : Type}

/-- The answers of `borrow`, where `none` is a panic: to the pass over the lengths, to the call
that splits the target, and to the call whose elements are copied. -/
structure Element (T : Type) where
  measured : Option (List T)
  sized : Option (List T)
  copied : Option (List T)

/-- The slots after those that were written are not initialised. -/
structure Target (T : Type) where
  written : List T
  room : Nat

inductive Joined (T : Type) where
  | panic
  /-- Undefined behaviour. -/
  | fault
  | vec (slots : List (Option T))
  deriving DecidableEq

/-- `copy_slice_and_advance`, which evaluates its argument twice. -/
def Target.copySliceAndAdvance (t : Target T) (sized copied : Option (List T)) :
    Option (Target T) := do
  let len := (← sized).length
  if len ≤ t.room then
    let bytes ← copied
    if bytes.length = len then return ⟨t.written ++ bytes, t.room - len⟩ else none
  else none

def copyRest (sep : List T) : Target T → List (Element T) → Option (Target T)
  | t, [] => some t
  | t, s :: rest => do
    let t ← t.copySliceAndAdvance (some sep) (some sep)
    copyRest sep (← t.copySliceAndAdvance s.sized s.copied) rest

def addLengths : Nat → List (Element T) → Option Nat
  | n, [] => some n
  | n, s :: rest => do addLengths (← checkedAdd n (← s.measured).length) rest

/-- The total length, unless `borrow` or `expect` panics. -/
def totalLen (slice : List (Element T)) (sep : List T) : Option Nat := do
  addLengths (← checkedMul sep.length (slice.length - 1)) slice

/-- `grants` says for which capacities there is memory. -/
def joinGenericCopy (grants : Nat → Bool) (slice : List (Element T)) (sep : List T) : Joined T :=
  match slice with
  | [] => .vec []
  | first :: rest =>
    match totalLen slice sep with
    | none => .panic
    | some len =>
      if grants len then
        match first.copied with
        | none => .panic
        | some result =>
          -- `get_unchecked_mut(pos..len)` on a range that must not be reversed
          if len < result.length then .fault
          else
            match copyRest sep ⟨result, len - result.length⟩ rest with
            | none => .panic
            | some t => .vec (t.written.map some ++ replicate t.room none)
      else .panic

/-- What the second pass copies after the first element, if it gets through. -/
def copies (sep : List T) : List (Element T) → Option (List T)
  | [] => some []
  | s :: rest => do
    let sized ← s.sized
    let bytes ← s.copied
    if bytes.length = sized.length then return sep ++ bytes ++ (← copies sep rest) else none

/-- Copies what there is room for. -/
def Target.add (t : Target T) (bytes : List T) : Option (Target T) :=
  if bytes.length ≤ t.room then some ⟨t.written ++ bytes, t.room - bytes.length⟩ else none

lemma Target.add_append (t : Target T) (a b : List T) :
    (t.add a).bind (·.add b) = t.add (a ++ b) := by
  rw [Target.add, Target.add]
  by_cases fits : a.length ≤ t.room
  · simp [fits, Target.add, Nat.sub_sub, Nat.le_sub_iff_add_le' fits]
  · have over_ : ¬ a.length + b.length ≤ t.room := by omega
    simp [fits, over_]

lemma copySliceAndAdvance_eq (t : Target T) {sized bytes : List T}
    (same : bytes.length = sized.length) :
    t.copySliceAndAdvance (some sized) (some bytes) = t.add bytes := by
  simp [Target.copySliceAndAdvance, Target.add, same]

lemma copyRest_eq (sep : List T) (rest : List (Element T)) (t : Target T) :
    copyRest sep t rest = (copies sep rest).bind t.add := by
  induction rest generalizing t with
  | nil => simp [copyRest, copies, Target.add]
  | cons s rest ih =>
    obtain ⟨_, _ | sized, _ | bytes⟩ := s
    case some.some =>
      by_cases same : bytes.length = sized.length
      · cases later : copies sep rest with
        | none => simp [copyRest, copies, ih, later]
        | some more =>
          simp [copyRest, copies, copySliceAndAdvance_eq, ih, later, same, Target.add_append]
      · simp [copyRest, copies, Target.copySliceAndAdvance, same]
    all_goals simp [copyRest, copies, Target.copySliceAndAdvance]

section
variable {grants : Nat → Bool} {first : Element T} {rest : List (Element T)} {sep : List T}
  {len : Nat} {bytes : List T}

/-- The run from the first copy on. -/
lemma joinGenericCopy_eq (measured : totalLen (first :: rest) sep = some len)
    (granted : grants len) (answer : first.copied = some bytes)
    (within : bytes.length ≤ len) :
    joinGenericCopy grants (first :: rest) sep = match copies sep rest with
      | none => .panic
      | some more =>
        if bytes.length + more.length ≤ len then
          .vec ((bytes ++ more).map some ++
            replicate (len - (bytes.length + more.length)) none)
        else .panic := by
  rw [joinGenericCopy, measured]
  simp only [granted, if_pos, answer, if_neg (not_lt.mpr within), copyRest_eq]
  cases copies sep rest with
  | none => rfl
  | some more =>
    by_cases fits : more.length ≤ len - bytes.length
    · have whole : bytes.length + more.length ≤ len := by omega
      simp [Target.add, fits, whole, Nat.sub_sub]
    · have whole : ¬ bytes.length + more.length ≤ len := by omega
      simp [Target.add, fits, whole]

end

/-- What is returned is what was copied, in every slot. -/
def Sound (slice : List (Element T)) (sep : List T) : Joined T → Prop
  | .panic => True
  | .fault => False
  | .vec slots => slice = [] ∧ slots = [] ∨
      ∃ first ∈ slice.head?, ∃ bytes ∈ first.copied, ∃ more ∈ copies sep slice.tail,
        slots = (bytes ++ more).map some

/-- The second pass bears out the length: the first element does not exceed it, and what is
copied, if all is copied, does not stay behind it. -/
def Trusted (slice : List (Element T)) (sep : List T) (len : Nat) : Prop :=
  ∀ first ∈ slice.head?, ∀ bytes ∈ first.copied,
    bytes.length ≤ len ∧ ∀ more ∈ copies sep slice.tail, len ≤ bytes.length + more.length

lemma sound_iff (grants : Nat → Bool) (slice : List (Element T)) (sep : List T) :
    Sound slice sep (joinGenericCopy grants slice sep) ↔
      ∀ len, totalLen slice sep = some len → grants len = true → Trusted slice sep len := by
  cases slice with
  | nil => simp [joinGenericCopy, Sound, Trusted]
  | cons first rest =>
    cases measured : totalLen (first :: rest) sep with
    | none => simp [joinGenericCopy, measured, Sound]
    | some len =>
      by_cases granted : grants len = true
      · cases answer : first.copied with
        | none => simp [joinGenericCopy, measured, Sound, Trusted, answer, granted]
        | some bytes =>
          by_cases within : bytes.length ≤ len
          · rw [joinGenericCopy_eq measured granted answer within]
            cases copied : copies sep rest with
            | none => simp [Sound, Trusted, answer, within, copied, granted]
            | some more =>
              by_cases fits : bytes.length + more.length ≤ len
              · simp [Sound, Trusted, answer, within, copied, granted, fits, Nat.sub_eq_zero_iff_le]
              · have long : len ≤ bytes.length + more.length := by omega
                simp [Sound, Trusted, answer, within, copied, granted, fits, long]
          · simp [joinGenericCopy, measured, Sound, Trusted, answer, granted, within,
              Nat.lt_of_not_le]
      · simp [joinGenericCopy, measured, Sound, granted]

/-- An element whose `borrow` always gives `bytes`. -/
def Element.constant (bytes : List T) : Element T := ⟨some bytes, some bytes, some bytes⟩

lemma addLengths_constant (parts : List (List T)) {n : Nat} (small : n < usizeValues) :
    addLengths n (parts.map .constant) = if n + (parts.map length).sum < usizeValues then
      some (n + (parts.map length).sum) else none := by
  induction parts generalizing n with
  | nil => simp [addLengths, small]
  | cons bytes parts ih =>
    by_cases fits : n + bytes.length < usizeValues
    · simp [addLengths, Element.constant, checkedAdd, fits, ih fits, add_assoc]
    · have long : ¬ n + (bytes.length + (parts.map length).sum) < usizeValues := by omega
      simp [addLengths, Element.constant, checkedAdd, fits, long]

lemma copies_constant (sep : List T) (parts : List (List T)) :
    copies sep (parts.map .constant) = some (parts.flatMap (sep ++ ·)) := by
  induction parts with
  | nil => rfl
  | cons bytes parts ih => simp [copies, Element.constant, ih]

section
variable (sep bytes : List T) (parts : List (List T))

lemma intercalate_cons : sep.intercalate (bytes :: parts) = bytes ++ parts.flatMap (sep ++ ·) := by
  induction parts generalizing bytes with
  | nil => simp
  | cons next parts ih => simp [ih]

lemma length_intercalate_cons : (sep.intercalate (bytes :: parts)).length =
      sep.length * parts.length + ((bytes :: parts).map length).sum := by
  rw [intercalate_cons]
  induction parts with
  | nil => simp
  | cons next parts ih =>
    simp only [flatMap_cons, length_append, length_cons, map_cons, sum_cons] at ih ⊢
    rw [Nat.mul_succ]
    omega

lemma totalLen_constant : totalLen ((bytes :: parts).map .constant) sep =
      if (sep.intercalate (bytes :: parts)).length < usizeValues then
        some (sep.intercalate (bytes :: parts)).length else none := by
  rw [totalLen, checkedMul, length_intercalate_cons, length_map, length_cons, Nat.add_sub_cancel]
  by_cases small : sep.length * parts.length < usizeValues
  · simp only [small, if_pos, Option.bind_eq_bind, Option.bind_some, addLengths_constant]
  · rw [if_neg small, if_neg (by omega)]
    rfl

end

/-- Exactly when the second pass bears out the length is every slot written. If `borrow` is
consistent, the elements and the separators are interleaved, unless there is no memory for them. -/
theorem join_writes_every_slot_iff (grants : Nat → Bool) (slice : List (Element T)) (sep : List T) :
    (Sound slice sep (joinGenericCopy grants slice sep) ↔
      ∀ len, totalLen slice sep = some len → grants len → Trusted slice sep len) ∧
    ∀ parts : List (List T), slice = parts.map .constant →
      let joined := sep.intercalate parts
      joinGenericCopy grants slice sep =
        if parts = [] ∨ joined.length < usizeValues ∧ grants joined.length = true then
          .vec (joined.map some)
        else .panic := by
  refine ⟨sound_iff grants slice sep, ?_⟩
  rintro (_ | ⟨bytes, parts⟩) rfl <;> intro joined
  · rfl
  · have measured := totalLen_constant sep bytes parts
    have whole : joined = _ := intercalate_cons sep bytes parts
    rw [map_cons] at measured ⊢
    by_cases small : joined.length < usizeValues
    · rw [if_pos small] at measured
      by_cases granted : grants joined.length
      · rw [joinGenericCopy_eq measured granted rfl (by simp [intercalate_cons]),
          if_pos (.inr ⟨small, granted⟩), copies_constant, whole]
        simp [intercalate_cons]
      · simp [joinGenericCopy, measured, granted, joined]
    · rw [if_neg small] at measured
      simp [joinGenericCopy, measured, small]

/-- An element that is shorter when it is asked for its bytes. -/
theorem join_exposes_unwritten_slot :
    joinGenericCopy (fun _ => true) [⟨some [97, 98], some [], some [97]⟩] [(44 : UInt8)] =
      .vec [some 97, none] := by
  decide

theorem join_writes_every_slot_iff_letters :
    joinGenericCopy (fun _ => true) ([[97], [98]].map .constant) [(44 : UInt8)] =
      .vec [some 97, some 44, some 98] :=
  (join_writes_every_slot_iff _ _ _).2 _ rfl

end StrJoin
