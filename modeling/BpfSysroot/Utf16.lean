import Mathlib

/-!
# Potentially ill-formed UTF-16

Code points, surrogates included, as numbers, and the 16-bit units they are written
with. A sequence of code points in which no lead surrogate stands right before a
trail surrogate is determined by its units, and every sequence of units is written by
one such sequence.
-/

namespace Utf16

open List

def IsLead (n : Nat) : Prop := 0xD800 ≤ n ∧ n ≤ 0xDBFF

def IsTrail (n : Nat) : Prop := 0xDC00 ≤ n ∧ n ≤ 0xDFFF

instance : DecidablePred IsLead := fun _ => inferInstanceAs (Decidable (_ ∧ _))

instance : DecidablePred IsTrail := fun _ => inferInstanceAs (Decidable (_ ∧ _))

/-- The code point of a surrogate pair. -/
def join (lead trail : Nat) : Nat := (lead - 0xD800) * 0x400 + (trail - 0xDC00) + 0x10000

/-- The units of a code point. -/
def units (n : Nat) : List Nat :=
  if n < 0x10000 then [n]
  else [(n - 0x10000) / 0x400 + 0xD800, (n - 0x10000) % 0x400 + 0xDC00]

/-- No lead surrogate is directly followed by a trail surrogate. -/
def Unpaired (points : List Nat) : Prop := points.IsChain fun a b => ¬ (IsLead a ∧ IsTrail b)

/-- The code points that a sequence of units stands for. -/
def decode : List Nat → List Nat
  | [] => []
  | [u] => [u]
  | u :: u₂ :: rest =>
    if IsLead u ∧ IsTrail u₂ then join u u₂ :: decode rest else u :: decode (u₂ :: rest)

/-- For each unit whether it is a surrogate without its other half; `before` stands before them. -/
def unpaired (before : Option Nat) : List Nat → List Bool
  | [] => []
  | u :: rest =>
    decide ((IsLead u ∧ ∀ x ∈ rest.head?, ¬ IsTrail x) ∨ (IsTrail u ∧ ∀ x ∈ before, ¬ IsLead x)) ::
      unpaired (some u) rest

/-- What `unpaired` says of the units of a code point. -/
def flags (n : Nat) : List Bool :=
  if IsLead n ∨ IsTrail n then [true] else (units n).map fun _ => false

section
variable {u v n : Nat}

lemma units_of_lt (small : n < 0x10000) : units n = [n] := if_pos small

lemma units_join (lead : IsLead u) (trail : IsTrail v) : units (join u v) = [u, v] := by
  obtain ⟨lowLead, highLead⟩ := lead
  obtain ⟨lowTrail, highTrail⟩ := trail
  rw [join, units, if_neg (by omega)]
  congr 2 <;> omega

lemma join_bounds (lead : IsLead u) (trail : IsTrail v) :
    0x10000 ≤ join u v ∧ join u v < 0x110000 := by
  obtain ⟨lowLead, highLead⟩ := lead
  obtain ⟨lowTrail, highTrail⟩ := trail
  rw [join]
  omega

lemma exists_join (large : 0x10000 ≤ n) (bound : n < 0x110000) :
    ∃ u v, IsLead u ∧ IsTrail v ∧ n = join u v := by
  refine ⟨(n - 0x10000) / 0x400 + 0xD800, (n - 0x10000) % 0x400 + 0xDC00, ?_, ?_, ?_⟩
  · rw [IsLead]
    omega
  · rw [IsTrail]
    omega
  · rw [join]
    omega

lemma not_isTrail_join (lead : IsLead u) (trail : IsTrail v) : ¬ IsTrail (join u v) := by
  have := join_bounds lead trail
  rw [IsTrail]
  omega

lemma not_isLead_join (lead : IsLead u) (trail : IsTrail v) : ¬ IsLead (join u v) := by
  have := join_bounds lead trail
  rw [IsLead]
  omega

end

variable {v points : List Nat} {u : Nat}

lemma units_decode (small : ∀ u ∈ v, u < 0x10000) : (decode v).flatMap units = v := by
  fun_induction decode v with
  | case1 => rfl
  | case2 u =>
    rw [flatMap_singleton, units_of_lt (small u (by simp))]
  | case3 u u₂ rest pair ih =>
    rw [flatMap_cons, units_join pair.1 pair.2, ih fun x h => small x (by simp [h])]
    rfl
  | case4 u u₂ rest _ ih =>
    rw [flatMap_cons, units_of_lt (small u (by simp)), ih fun x h => small x (by simp_all)]
    rfl

lemma not_lead_trail : ¬ (IsLead u ∧ IsTrail u) := by
  rintro ⟨⟨-, high⟩, low, -⟩
  omega

lemma unpaired_alone {rest : List Nat} {before : Option Nat} (small : u < 0x10000)
    (free : ∀ x ∈ before, ¬ (IsLead x ∧ IsTrail u))
    (alone : ∀ x ∈ rest.head?, ¬ (IsLead u ∧ IsTrail x)) :
    unpaired before (u :: rest) = flags u ++ unpaired (some u) rest := by
  rw [unpaired, flags, units_of_lt small]
  by_cases lead : IsLead u <;> by_cases trail : IsTrail u <;> simp_all

/-- A surrogate stands alone in the code points if and only if it has no other half. -/
lemma flags_decode (small : ∀ u ∈ v, u < 0x10000) {before : Option Nat}
    (free : ∀ u ∈ before, ∀ x ∈ v.head?, ¬ (IsLead u ∧ IsTrail x)) :
    (decode v).flatMap flags = unpaired before v := by
  fun_induction decode v generalizing before with
  | case1 => rfl
  | case2 u =>
    rw [unpaired_alone (small u (by simp)) (fun x h => free x h u rfl) (by simp)]
    rfl
  | case3 u u₂ rest pair ih =>
    have after : _ = unpaired (some u₂) rest := ih (fun x h => small x (by simp [h])) (by
      rintro _ ⟨⟩ x - ⟨lead, -⟩
      exact not_lead_trail ⟨lead, pair.2⟩)
    have first : ¬ IsTrail u := fun trail => not_lead_trail ⟨pair.1, trail⟩
    have second : ¬ IsLead u₂ := fun lead => not_lead_trail ⟨lead, pair.2⟩
    have joined := not_isLead_join pair.1 pair.2
    have joined' := not_isTrail_join pair.1 pair.2
    simp [flags, unpaired, units_join pair.1 pair.2, after, first, second, joined, joined', pair]
  | case4 u u₂ rest alone ih =>
    have after : _ = unpaired (some u) _ := ih (fun x h => small x (by simp_all)) (by
      rintro _ ⟨⟩ _ ⟨⟩
      exact alone)
    rw [unpaired_alone (small u (by simp)) (fun x h => free x h u rfl) (by simpa using alone),
      flatMap_cons, after]

lemma decode_lt (small : ∀ u ∈ v, u < 0x10000) : ∀ n ∈ decode v, n < 0x110000 := by
  fun_induction decode v with
  | case1 => simp
  | case2 u =>
    intro n member
    have := small u (by simp)
    rw [mem_singleton] at member
    omega
  | case3 u u₂ rest pair ih =>
    intro n member
    rcases mem_cons.mp member with rfl | later
    · exact (join_bounds pair.1 pair.2).2
    · exact ih (fun x h => small x (by simp [h])) n later
  | case4 u u₂ rest _ ih =>
    intro n member
    rcases mem_cons.mp member with rfl | later
    · have := small n (by simp)
      omega
    · exact ih (fun x h => small x (by simp_all)) n later

lemma decode_alone (alone : ∀ x ∈ v.head?, ¬ (IsLead u ∧ IsTrail x)) :
    decode (u :: v) = u :: decode v := by
  cases v with
  | nil => rfl
  | cons x rest => rw [decode, if_neg (alone x rfl)]

/-- What is decoded first is a pair or the first unit. -/
lemma head_decode (v : List Nat) : ∀ n ∈ (decode (u :: v)).head?, n = u ∨ ¬ IsTrail n := by
  intro n first
  cases v with
  | nil =>
    simp only [decode, head?_cons, Option.mem_def, Option.some.injEq] at first
    exact .inl first.symm
  | cons u₂ rest =>
    rw [decode] at first
    split at first <;> simp only [head?_cons, Option.mem_def, Option.some.injEq] at first
    next pair =>
      exact .inr (first ▸ not_isTrail_join pair.1 pair.2)
    · exact .inl first.symm

lemma unpaired_decode (v : List Nat) : Unpaired (decode v) := by
  fun_induction decode v with
  | case1 => exact .nil
  | case2 u => exact .singleton u
  | case3 u u₂ rest pair ih =>
    refine isChain_cons.mpr ⟨?_, ih⟩
    rintro n - ⟨lead, -⟩
    exact not_isLead_join pair.1 pair.2 lead
  | case4 u u₂ rest alone ih =>
    refine isChain_cons.mpr ⟨?_, ih⟩
    rintro n first ⟨lead, trail⟩
    rcases head_decode rest n first with rfl | other
    · exact alone ⟨lead, trail⟩
    · exact other trail

/-- The units of an unpaired sequence decode to it. -/
lemma decode_units (bound : ∀ n ∈ points, n < 0x110000) (unpaired : Unpaired points) :
    decode (points.flatMap units) = points := by
  induction points with
  | nil => rfl
  | cons n points ih =>
    obtain ⟨first, later⟩ := isChain_cons.mp unpaired
    have rest := ih (fun x h => bound x (by simp [h])) later
    rw [flatMap_cons]
    by_cases small : n < 0x10000
    · rw [units_of_lt small]
      -- the unit after a lead surrogate would have to be a trail surrogate on its own
      cases points with
      | nil => rfl
      | cons m points =>
        by_cases plane : m < 0x10000
        · rw [flatMap_cons, units_of_lt plane] at rest ⊢
          simp only [cons_append, nil_append] at rest ⊢
          rw [decode, if_neg (first m rfl), rest]
        · obtain ⟨u, v, lead, trail, rfl⟩ := exists_join (by omega) (bound m (by simp))
          rw [flatMap_cons, units_join lead trail] at rest ⊢
          have alone : ¬ (IsLead n ∧ IsTrail u) := by
            rintro ⟨-, other⟩
            have low := other.1
            have high := lead.2
            omega
          simp only [cons_append, nil_append] at rest ⊢
          rw [decode, if_neg alone, rest]
    · obtain ⟨u, v, lead, trail, rfl⟩ := exists_join (by omega) (bound n (by simp))
      rw [units_join lead trail]
      simp only [cons_append, nil_append]
      rw [decode, if_pos ⟨lead, trail⟩, rest]

lemma units_injective {others : List Nat} (bound : ∀ n ∈ points, n < 0x110000)
    (unpaired : Unpaired points) (bound' : ∀ n ∈ others, n < 0x110000)
    (unpaired' : Unpaired others) (same : points.flatMap units = others.flatMap units) :
    points = others := by
  rw [← decode_units bound unpaired, same, decode_units bound' unpaired']

end Utf16
