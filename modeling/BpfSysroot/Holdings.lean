import Mathlib

/-!
# Holdings

The members of a finite group hold things, and the pool is all that they hold together. When one
member exchanges some of its things for others, the pool changes by just these.
-/

namespace Holdings

universe u v

variable {ι : Type u} {α : Type v} [Fintype ι] [DecidableEq ι]

def pool (held : ι → Multiset α) : Multiset α := ∑ i, held i

omit [DecidableEq ι] in
lemma mem_pool {held : ι → Multiset α} {x : α} : x ∈ pool held ↔ ∃ i, x ∈ held i := by
  simp [pool, Multiset.mem_sum]

variable (held : ι → Multiset α)

/-- What the others hold. -/
def rest (i : ι) : Multiset α := ∑ j ∈ Finset.univ.erase i, held j

lemma pool_eq (i : ι) : pool held = held i + rest held i :=
  (Finset.add_sum_erase _ _ (Finset.mem_univ i)).symm

lemma pool_update (i : ι) (things : Multiset α) :
    pool (Function.update held i things) = things + rest held i := by
  rw [pool_eq _ i, Function.update_self]
  congr 1
  refine Finset.sum_congr rfl fun j other => ?_
  exact Function.update_of_ne (Finset.ne_of_mem_erase other) _ _

lemma mem_rest {held : ι → Multiset α} {i j : ι} {x : α} (other : j ≠ i) (mem : x ∈ held j) :
    x ∈ rest held i :=
  Multiset.mem_sum.mpr ⟨j, Finset.mem_erase.mpr ⟨other, Finset.mem_univ j⟩, mem⟩

/-- A member gives some things away and gets others. -/
lemma exchange (i : ι) {given kept : Multiset α}
    (gotten : Multiset α) (before : held i = given + kept) :
    ∃ frame, pool held = given + frame ∧
      pool (Function.update held i (gotten + kept)) = gotten + frame := by
  refine ⟨kept + rest held i, ?_, ?_⟩
  · rw [pool_eq held i, before, add_assoc]
  · rw [pool_update, add_assoc]

/-- A member gives some things to another. -/
lemma pool_give (i j : ι) {given kept : Multiset α} (before : held i = given + kept) :
    pool (Function.update (Function.update held i kept) j
      (given + Function.update held i kept j)) = pool held := by
  rw [pool_update, add_assoc, ← pool_eq, pool_update, ← add_assoc, ← before, ← pool_eq]

end Holdings
