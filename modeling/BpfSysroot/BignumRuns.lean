import BpfSysroot.BignumDivision

/-!
# Runs on a pool of bignums

A program works on a pool of bignums by calls that name them by their place: a call makes a
new one, changes one in place or only looks at it. `perform` is one call of the code and
`calculate` the same call on integers, where nothing overflows. A run in which no call panics
is followed by the integers, with the same answers at every observer.
-/

namespace Bignum

open Option (map_eq_some_iff map_some bind_eq_bind bind_eq_some_iff pure_def)

/-- The operations, on the places of a pool. -/
inductive Call where
  | fromSmall (v : UInt32)
  | fromU64 (v : UInt64)
  | add (i j : Nat)
  | addSmall (i : Nat) (v : UInt32)
  | sub (i j : Nat)
  | mulSmall (i : Nat) (v : UInt32)
  | mulPow2 (i bits : Nat)
  | mulPow5 (i e : Nat)
  | mulDigits (i : Nat) (other : List UInt32)
  | divRemSmall (i : Nat) (v : UInt32)
  | divRem (i d q r : Nat)
  | isZero (i : Nat)
  | bitLength (i : Nat)
  | getBit (i bit : Nat)
  | eq (i j : Nat)
  | cmp (i j : Nat)

/-- What a call returns beside the bignum it changes. -/
inductive Answer where
  | unit
  | remainder (r : UInt32)
  | bool (b : Bool)
  | length (bits : Nat)
  | bit (b : UInt8)
  | ordering (o : Ordering)
deriving DecidableEq

section
variable {α : Type}

def create (pool : List α) (made : Option α) : Option (List α × Answer) :=
  made.map fun a => (pool ++ [a], .unit)

/-- The value at place `i` is overwritten, and the answer comes from the operation. -/
def update (pool : List α) (i : Nat) (op : α → Option (α × Answer)) :
    Option (List α × Answer) := do
  let (b, answer) ← op (← pool[i]?)
  return (pool.set i b, answer)

/-- An operation with a second operand, at place `j`. -/
def combine (pool : List α) (i j : Nat) (op : α → α → Option (α × Answer)) :
    Option (List α × Answer) := do
  let b ← pool[j]?
  update pool i (op · b)

/-- An operation that has no result of its own. -/
def silent (result : Option α) : Option (α × Answer) := result.map (·, .unit)

/-- An observer leaves the value. -/
def observe (a : α) (answer : Option Answer) : Option (α × Answer) := answer.map (a, ·)

/-- The quotient goes to place `q` and the remainder to place `r`. -/
def divide (pool : List α) (i d q r : Nat) (op : α → α → Option (α × α)) :
    Option (List α × Answer) := do
  let a ← pool[i]?
  let b ← pool[d]?
  -- the borrows of `q` and `r` are of places that exist
  if q < pool.length ∧ r < pool.length then
    let (quotient, remainder) ← op a b
    return ((pool.set q quotient).set r remainder, .unit)
  else none

end

/-- A call of the code. -/
def perform (pool : List Big) : Call → Option (List Big × Answer)
  | .fromSmall v => create pool (some (fromSmall v))
  | .fromU64 v => create pool (fromU64 v)
  | .add i j => combine pool i j fun a b => silent (add a b)
  | .addSmall i v => update pool i fun a => silent (addSmall a v)
  | .sub i j => combine pool i j fun a b => silent (sub a b)
  | .mulSmall i v => update pool i fun a => silent (mulSmall a v)
  | .mulPow2 i bits => update pool i fun a => silent (mulPow2 a bits)
  | .mulPow5 i e => update pool i fun a => silent (mulPow5 a e)
  | .mulDigits i other => update pool i fun a => silent (mulDigits a other)
  | .divRemSmall i v =>
    update pool i fun a => (divRemSmall a v).map fun (q, r) => (q, .remainder r)
  | .divRem i d q r => divide pool i d q r divRem
  | .isZero i => update pool i fun a => observe a ((isZero a).map .bool)
  | .bitLength i => update pool i fun a => observe a ((bitLength a).map .length)
  | .getBit i k => update pool i fun a => observe a ((getBit a k).map .bit)
  | .eq i j => combine pool i j fun a b => observe a (some (.bool (eq a b)))
  | .cmp i j => combine pool i j fun a b => observe a ((cmp a b).map .ordering)

/-- The same call on integers. -/
def calculate (pool : List Nat) : Call → Option (List Nat × Answer)
  | .fromSmall v => create pool (some v.toNat)
  | .fromU64 v => create pool (some v.toNat)
  | .add i j => combine pool i j fun a b => silent (some (a + b))
  | .addSmall i v => update pool i fun a => silent (some (a + v.toNat))
  | .sub i j => combine pool i j fun a b => silent (if b ≤ a then some (a - b) else none)
  | .mulSmall i v => update pool i fun a => silent (some (a * v.toNat))
  | .mulPow2 i bits => update pool i fun a => silent (some (a * 2 ^ bits))
  | .mulPow5 i e => update pool i fun a => silent (some (a * 5 ^ e))
  | .mulDigits i other => update pool i fun a => silent (some (a * value other))
  | .divRemSmall i v => update pool i fun a =>
    if v.toNat = 0 then none
    else some (a / v.toNat, .remainder (UInt32.ofNat (a % v.toNat)))
  | .divRem i d q r => divide pool i d q r fun a b =>
    if b = 0 then none else some (a / b, a % b)
  | .isZero i => update pool i fun a => observe a (some (.bool (decide (a = 0))))
  | .bitLength i => update pool i fun a => observe a (some (.length (Nat.size a)))
  | .getBit i k => update pool i fun a => observe a (some (.bit (bit (a.testBit k))))
  | .eq i j => combine pool i j fun a b => observe a (some (.bool (decide (a = b))))
  | .cmp i j => combine pool i j fun a b => observe a (some (.ordering (compare a b)))

/-- A run of calls, with the answers in order. -/
def run {α : Type} (step : List α → Call → Option (List α × Answer)) :
    List α → List Call → Option (List α × List Answer)
  | pool, [] => some (pool, [])
  | pool, call :: calls => do
    let (pool, answer) ← step pool call
    let (pool, answers) ← run step pool calls
    return (pool, answer :: answers)

/-- When the sizes, which are only estimates, leave room for the operation. -/
def Fits (pool : List Big) : Call → Prop
  | .mulPow2 i bits => ∀ a, pool[i]? = some a → ShiftFits a.size bits
  | .mulDigits i other => ∀ a, pool[i]? = some a → ProductFits a other
  | .getBit _ bit => bit / digitbits < n
  | _ => True

section
variable {fits : Prop} {pool : List Big}

/-- Every bignum of the pool has zeros at and above its size. -/
def AllValid (pool : List Big) : Prop := ∀ b ∈ pool, Valid b

/-- An operation on a bignum follows an operation on its value. -/
structure Follows (fits : Prop) (concrete : Option (Big × Answer))
    (abstract : Option (Nat × Answer)) : Prop where
  spec : ∀ b answer, concrete = some (b, answer) →
    fits ∧ Valid b ∧ abstract = some (b.toNat, answer)
  returns : fits → ∀ v answer, abstract = some (v, answer) → v < radix ^ n → ∃ r, concrete = some r

lemma follows_silent {result : Option Big} {v : Nat} (computes : Computes fits result v) :
    Follows fits (silent result) (silent (some v)) where
  spec b answer done := by
    rw [silent, map_eq_some_iff] at done
    obtain ⟨c, made, pair⟩ := done
    cases pair
    obtain ⟨holds, valid, total⟩ := computes.spec b made
    exact ⟨holds, valid, by rw [total, silent, map_some]⟩
  returns holds w answer same less := by
    cases same
    obtain ⟨b, made⟩ := computes.returns holds less
    exact ⟨_, by rw [made, silent, map_some]⟩

lemma follows_observe {a : Big} {seen expected : Option Answer} (valid : Valid a)
    (spec : ∀ answer, seen = some answer → fits ∧ expected = some answer)
    (returns : fits → ∃ answer, seen = some answer) :
    Follows fits (observe a seen) (observe a.toNat expected) where
  spec b answer done := by
    rw [observe, map_eq_some_iff] at done
    obtain ⟨c, made, pair⟩ := done
    cases pair
    exact ⟨(spec _ made).1, valid, by rw [(spec _ made).2, observe, map_some]⟩
  returns holds _ _ _ _ := by
    obtain ⟨answer, made⟩ := returns holds
    exact ⟨_, by rw [made, observe, map_some]⟩

lemma AllValid.set (all : AllValid pool) {b : Big} (valid : Valid b) (i : Nat) :
    AllValid (pool.set i b) := by
  intro c member
  rcases List.mem_or_eq_of_mem_set member with old | rfl
  · exact all c old
  · exact valid

lemma AllValid.get (all : AllValid pool) {i : Nat} {b : Big} (read : pool[i]? = some b) :
    Valid b := all b (List.mem_of_getElem? read)

/-- A call follows the call on integers. -/
structure PoolFollows (fits : Prop) (concrete : Option (List Big × Answer))
    (abstract : Option (List Nat × Answer)) : Prop where
  spec : ∀ pool answer, concrete = some (pool, answer) →
    fits ∧ AllValid pool ∧ abstract = some (pool.map Big.toNat, answer)
  returns : fits → ∀ values answer, abstract = some (values, answer) →
    (∀ v ∈ values, v < radix ^ n) → ∃ r, concrete = some r

lemma create_follows (all : AllValid pool) {made : Option Big} {v : Nat}
    (computes : Computes fits made v) :
    PoolFollows fits (create pool made) (create (pool.map Big.toNat) (some v)) where
  spec pool' answer done := by
    rw [create, map_eq_some_iff] at done
    obtain ⟨b, new, pair⟩ := done
    cases pair
    obtain ⟨holds, valid, total⟩ := computes.spec b new
    refine ⟨holds, ?_, ?_⟩
    · intro c member
      rcases List.mem_append.mp member with old | last
      · exact all c old
      · rw [List.mem_singleton.mp last]
        exact valid
    · rw [← total, create, map_some, List.map_append, List.map_singleton]
  returns holds values answer same small := by
    cases same
    obtain ⟨b, new⟩ := computes.returns holds (small v (by simp))
    exact ⟨_, by rw [create, new, map_some]⟩

lemma update_follows (all : AllValid pool) {i : Nat} {op : Big → Option (Big × Answer)}
    {op' : Nat → Option (Nat × Answer)}
    (follows : ∀ a, pool[i]? = some a → Valid a → Follows fits (op a) (op' a.toNat)) :
    PoolFollows fits (update pool i op) (update (pool.map Big.toNat) i op') where
  spec pool' answer done := by
    simp only [update, bind_eq_bind, bind_eq_some_iff, pure_def,
      Option.some.injEq, Prod.mk.injEq, Prod.exists] at done
    obtain ⟨a, read, b, _, made, rfl, rfl⟩ := done
    obtain ⟨holds, valid, total⟩ := (follows a read (all.get read)).spec b _ made
    refine ⟨holds, all.set valid i, ?_⟩
    simp [update, read, total, List.map_set]
  returns holds values answer done small := by
    simp only [update, List.getElem?_map, bind_eq_bind, bind_eq_some_iff, map_eq_some_iff, pure_def,
      Option.some.injEq, Prod.mk.injEq, Prod.exists] at done
    obtain ⟨-, ⟨a, read, rfl⟩, v, _, made, rfl, rfl⟩ := done
    have inside := (List.getElem?_eq_some_iff.mp read).1
    have less := small v (List.mem_set (by rwa [List.length_map]) v)
    obtain ⟨r, done⟩ := (follows a read (all.get read)).returns holds v _ made less
    simp [update, read, done]

lemma combine_follows (all : AllValid pool) {i j : Nat} {op : Big → Big → Option (Big × Answer)}
    {op' : Nat → Nat → Option (Nat × Answer)}
    (follows : ∀ a b, Valid a → Valid b → Follows fits (op a b) (op' a.toNat b.toNat)) :
    PoolFollows fits (combine pool i j op) (combine (pool.map Big.toNat) i j op') := by
  rw [combine, combine, List.getElem?_map]
  cases read : pool[j]? with
  | none => exact ⟨fun _ _ done => (nomatch done), fun _ _ _ done => (nomatch done)⟩
  | some b => exact update_follows all fun a _ first => follows a b first (all.get read)

lemma divide_follows (all : AllValid pool) {i d q r : Nat} :
    PoolFollows True (divide pool i d q r divRem)
      (divide (pool.map Big.toNat) i d q r
        fun a b => if b = 0 then none else some (a / b, a % b)) where
  spec pool' answer done := by
    simp only [divide, bind_eq_bind, bind_eq_some_iff] at done
    obtain ⟨a, readA, b, readB, done⟩ := done
    have spec := divRem_spec (all.get readA) (all.get readB)
    split_ifs at done spec with places zero
    · simp [spec] at done
    · obtain ⟨quotient, remainder, divided, validQ, validR, totalQ, totalR⟩ := spec
      rw [divided] at done
      cases done
      refine ⟨trivial, (all.set validQ q).set validR r, ?_⟩
      simp [divide, readA, readB, places, zero, List.map_set, totalQ, totalR]
  returns holds values answer done small := by
    simp only [divide, List.getElem?_map, bind_eq_bind, bind_eq_some_iff, map_eq_some_iff,
      List.length_map] at done
    obtain ⟨-, ⟨a, readA, rfl⟩, -, ⟨b, readB, rfl⟩, done⟩ := done
    have spec := divRem_spec (all.get readA) (all.get readB)
    split_ifs at done spec with places zero
    · simp at done
    · obtain ⟨quotient, remainder, divided, -⟩ := spec
      simp [divide, readA, readB, places, divided]

lemma perform_follows (all : AllValid pool) (call : Call) :
    PoolFollows (Fits pool call) (perform pool call) (calculate (pool.map Big.toNat) call) := by
  cases call with
  | fromSmall v => exact create_follows all (fromSmall_computes v)
  | fromU64 v => exact create_follows all (fromU64_computes v)
  | add i j => exact combine_follows all fun a b ha hb => follows_silent (add_computes ha hb)
  | addSmall i v => exact update_follows all fun a _ ha => follows_silent (addSmall_computes ha v)
  | sub i j =>
    refine combine_follows all fun a b ha hb => ?_
    have spec := sub_spec ha hb
    split at spec
    next le =>
      obtain ⟨rest, made, valid, total, -⟩ := spec
      rw [if_pos le, made]
      refine follows_silent ⟨fun b same => ?_, fun _ _ => ⟨rest, rfl⟩⟩
      cases same
      exact ⟨trivial, valid, by omega⟩
    next lt =>
      rw [if_neg lt, spec]
      exact ⟨fun _ _ done => (nomatch done), fun _ _ _ done => (nomatch done)⟩
  | mulSmall i v => exact update_follows all fun a _ ha => follows_silent (mulSmall_computes ha v)
  | mulPow2 i bits =>
    refine update_follows all fun a read ha => follows_silent ?_
    simpa [Fits, read] using mulPow2_computes ha bits
  | mulPow5 i e => exact update_follows all fun a _ ha => follows_silent (mulPow5_computes ha e)
  | mulDigits i other =>
    refine update_follows all fun a read ha => follows_silent ?_
    simpa [Fits, read] using mulDigits_computes ha other
  | divRemSmall i v =>
    refine update_follows all fun a _ ha => ?_
    have spec := divRemSmall_spec ha v
    split at spec
    next zero =>
      rw [if_pos zero, spec]
      exact ⟨fun _ _ done => (nomatch done), fun _ _ _ done => (nomatch done)⟩
    next nonzero =>
      obtain ⟨q, r, made, valid, quotient, remainder⟩ := spec
      rw [if_neg nonzero, made, ← quotient, ← remainder, UInt32.ofNat_toNat]
      refine ⟨fun b answer done => ?_, fun _ _ _ _ _ => ⟨_, rfl⟩⟩
      cases done
      exact ⟨trivial, valid, rfl⟩
  | divRem i d q r => exact divide_follows all
  | isZero i =>
    refine update_follows all fun a _ ha => ?_
    rw [isZero_spec ha]
    exact follows_observe ha (fun _ seen => ⟨trivial, seen⟩) fun _ => ⟨_, rfl⟩
  | bitLength i =>
    refine update_follows all fun a _ ha => ?_
    rw [bitLength_spec ha]
    exact follows_observe ha (fun _ seen => ⟨trivial, seen⟩) fun _ => ⟨_, rfl⟩
  | getBit i k =>
    refine update_follows all fun a _ ha => follows_observe ha ?_ fun inside => ?_
    · intro seen made
      rw [map_eq_some_iff] at made
      obtain ⟨b, read, rfl⟩ := made
      have inside := getBit_inside ha read
      rw [getBit_spec ha inside, Option.some.injEq] at read
      exact ⟨inside, by rw [read]⟩
    · exact ⟨_, by rw [getBit_spec ha inside, map_some]⟩
  | eq i j =>
    refine combine_follows all fun a b ha hb => ?_
    rw [eq_spec ha hb]
    exact follows_observe ha (fun _ seen => ⟨trivial, seen⟩) fun _ => ⟨_, rfl⟩
  | cmp i j =>
    refine combine_follows all fun a b ha hb => ?_
    rw [cmp_spec ha hb]
    exact follows_observe ha (fun _ seen => ⟨trivial, seen⟩) fun _ => ⟨_, rfl⟩

lemma run_follows {pool' : List Big} {calls : List Call} {answers : List Answer}
    (all : AllValid pool) (done : run perform pool calls = some (pool', answers)) :
    AllValid pool' ∧
      run calculate (pool.map Big.toNat) calls = some (pool'.map Big.toNat, answers) := by
  induction calls generalizing pool answers with
  | nil =>
    cases done
    exact ⟨all, rfl⟩
  | cons call calls ih =>
    simp only [run, bind_eq_bind, bind_eq_some_iff, pure_def,
      Option.some.injEq, Prod.mk.injEq, Prod.exists] at done
    obtain ⟨mid, answer, first, last, rest, tail, rfl, rfl⟩ := done
    obtain ⟨-, valid, head⟩ := (perform_follows all call).spec mid answer first
    obtain ⟨validLast, total⟩ := ih valid tail
    refine ⟨validLast, ?_⟩
    simp only [run, head, total, bind_eq_bind, Option.bind_some, pure_def]

lemma allValid_nil : AllValid [] := fun b member => by cases member

end

/-- A run on an empty pool in which no call panics leaves bignums with zeros at and above
their sizes, whose values are those of the run on integers, with the same answers. -/
theorem runs_exact (calls : List Call) (pool : List Big) (answers : List Answer)
    (done : run perform [] calls = some (pool, answers)) :
    (∀ b ∈ pool, Valid b) ∧ run calculate [] calls = some (pool.map Big.toNat, answers) := by
  exact run_follows allValid_nil done

/-- A run with a carry into a second digit, a borrow back and a division. -/
def sampleCalls : List Call :=
  [.fromSmall 0xffffffff, .fromU64 0x100000001, .fromSmall 7, .fromSmall 0, .add 0 1,
    .bitLength 0, .divRem 0 2 3 1, .cmp 3 0, .sub 0 3, .isZero 1]

theorem runs_exact_sample :
    ∃ pool answers, run perform [] sampleCalls = some (pool, answers) ∧
      (∀ b ∈ pool, Valid b) ∧
      run calculate [] sampleCalls = some (pool.map Big.toNat, answers) := by
  have some : (run perform [] sampleCalls).isSome := by decide +kernel
  obtain ⟨⟨pool, answers⟩, done⟩ := Option.isSome_iff_exists.mp some
  exact ⟨pool, answers, done, runs_exact sampleCalls pool answers done⟩

/-- On the bignums that a run leaves, an operation whose exact result is in range returns exactly
if the sizes leave room for it. -/
theorem runs_return_iff (calls : List Call) (pool : List Big) (answers : List Answer)
    (done : run perform [] calls = some (pool, answers)) (call : Call) (values : List Nat)
    (answer : Answer) (exact : calculate (pool.map Big.toNat) call = some (values, answer))
    (small : ∀ v ∈ values, v < 2 ^ 1280) :
    (∃ pool' answer', perform pool call = some (pool', answer')) ↔ Fits pool call := by
  have follows := perform_follows (run_follows allValid_nil done).1 call
  have range : radix ^ n = 2 ^ 1280 := by rw [radix, n, ← pow_mul]
  rw [← range] at small
  constructor
  · rintro ⟨pool', answer', returned⟩
    exact (follows.spec pool' answer' returned).1
  · intro fits
    obtain ⟨⟨pool', answer'⟩, returned⟩ := follows.returns fits values answer exact small
    exact ⟨pool', answer', returned⟩

/-- A shift by a digit and a bit. -/
theorem runs_return_iff_shift :
    ∃ pool' answer', perform [fromSmall 7] (.mulPow2 0 33) = some (pool', answer') :=
  (runs_return_iff [.fromSmall 7] _ [.unit] rfl (.mulPow2 0 33) [7 * 2 ^ 33] .unit
    (by decide +kernel) (by decide +kernel)).mpr (by
      rintro a ⟨⟩
      simp [ShiftFits, digitbits, n, fromSmall])

/-- Zero from `from_u64` has no digits, and its shift by one bit fails, though it is zero. -/
theorem mulPow2_zero_fails :
    run perform [] [.fromU64 0] = some ([⟨0, List.replicate n 0⟩], [.unit]) ∧
      calculate [Big.toNat ⟨0, List.replicate n 0⟩] (.mulPow2 0 1) = some ([0], .unit) ∧
      perform [⟨0, List.replicate n 0⟩] (.mulPow2 0 1) = none := by
  have made : fromU64 0 = some ⟨0, List.replicate n 0⟩ := by
    rw [fromU64, fromU64Loop, dif_neg (by decide)]
  exact ⟨by simp only [run, perform, made]; rfl, by decide +kernel, rfl⟩

end Bignum
