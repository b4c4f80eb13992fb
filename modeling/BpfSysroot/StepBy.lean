import BpfSysroot.DoubleEnded

/-!
# Stepping through an iterator

`StepBy` keeps one less than its step and whether the first element is still to be taken. From
either end it walks over every step-th element of its source, and the loop with which `nth` avoids
an overflowing product ends at the element that the product names.
-/

structure StepBy (σ : Type) where
  iter : σ
  step : Nat
  firstTake : Bool
  deriving DecidableEq

namespace StepBy

open DoubleEnded Nat List

variable {σ α : Type}

/-- The methods of the source that the adapter calls. -/
structure Source (σ α : Type) where
  next : σ → Option α × σ
  nth : Nat → σ → Option α × σ
  nthBack : Nat → σ → Option α × σ
  len : σ → Nat
  sizeHint : σ → Nat × Option Nat

def new (iter : σ) (step : Nat) : Option (StepBy σ) :=
  if step ≠ 0 then some ⟨iter, step - 1, true⟩ else none

/-- Subtraction of `usize`, with no result where it would wrap. -/
def sub (a b : Nat) : Option Nat :=
  if b ≤ a then some (a - b) else none

/-- The loop of `nth`; `max` is `usize::MAX`. -/
def nthLoop (max : Nat) (src : Source σ α) : Nat → Nat → Nat → σ → Option (Option α × σ)
  | 0, _, _, _ => none
  | fuel + 1, n, step, iter => do
    if n * step ≤ max then
      return src.nth (← sub (n * step) 1) iter
    let divN := max / n
    let divStep := max / step
    let nthN := divN * n
    let nthStep := divStep * step
    if nthN > nthStep then
      let rest ← sub step divN
      nthLoop max src fuel n rest (src.nth (← sub nthN 1) iter).2
    else
      let rest ← sub n divStep
      nthLoop max src fuel rest step (src.nth (← sub nthStep 1) iter).2

variable (max : Nat) (src : Source σ α)

section
variable (t : StepBy σ)

/-- The answer of the source, with the adapter over what is left of it. -/
def onto (answer : Option α × σ) : Option α × StepBy σ :=
  (answer.1, { t with iter := answer.2 })

def next : Option α × StepBy σ :=
  if t.firstTake then
    onto { t with firstTake := false } (src.next t.iter)
  else
    onto t (src.nth t.step t.iter)

section
variable (n : Nat) (t : StepBy σ)

def jump : Option (Option α × StepBy σ) :=
  (nthLoop max src (n + (t.step + 1)) n (t.step + 1) t.iter).map (onto t)

/-- `nth` once the first element is taken; `n + 1` steps may not be a `usize`. -/
def nthRest : Option (Option α × StepBy σ) :=
  if n = max then
    jump max src n (onto t (src.nth t.step t.iter)).2
  else
    jump max src (n + 1) t

def nth : Option (Option α × StepBy σ) :=
  if t.firstTake then
    let (first, t) := next src t
    if n = 0 then some (first, t) else nthRest max src (n - 1) t
  else
    nthRest max src n t

def nextBackIndex : Nat :=
  let rem := src.len t.iter % (t.step + 1)
  if t.firstTake then if rem = 0 then t.step else rem - 1 else rem

def nextBack : Option α × StepBy σ :=
  onto t (src.nthBack (nextBackIndex src t) t.iter)

def nthBack : Option α × StepBy σ :=
  onto t (src.nthBack (min (min (n * (t.step + 1)) max + nextBackIndex src t) max) t.iter)

end

def size (n : Nat) : Nat :=
  if t.firstTake then if n = 0 then 0 else 1 + (n - 1) / (t.step + 1) else n / (t.step + 1)

def sizeHint : Nat × Option Nat :=
  let (low, high) := src.sizeHint t.iter
  (t.size low, high.map t.size)

def call : Call → Option (Option α × StepBy σ)
  | .next => some (next src t)
  | .nth n => nth max src n t
  | .nextBack => some (nextBack src t)
  | .nthBack n => some (nthBack max src n t)

/-- Every `step`-th element of a list, after skipping the first `k`. -/
def everyFrom (step : Nat) : Nat → List α → List α
  | _, [] => []
  | 0, x :: l => x :: everyFrom step (step - 1) l
  | k + 1, _ :: l => everyFrom step k l

/-- An exact-size double-ended source that lists `l` when `R s l`, asked with indices of `usize`. -/
structure Lists (R : σ → List α → Prop) : Prop where
  next {s l} : R s l → (src.next s).1 = l[0]? ∧ R (src.next s).2 (l.drop 1)
  nth {s l n} : R s l → n ≤ max → (src.nth n s).1 = l[n]? ∧ R (src.nth n s).2 (l.drop (n + 1))
  nthBack {s l n} : R s l → n ≤ max → (src.nthBack n s).1 = l.reverse[n]? ∧
    R (src.nthBack n s).2 (l.take (l.length - (n + 1)))
  len {s l} : R s l → src.len s = l.length ∧ l.length ≤ max
  sizeHint {s l} : R s l → src.sizeHint s = (l.length, some l.length)

/-- How many elements of the source come before the next item. -/
def skip : Nat :=
  if t.firstTake then 0 else t.step

end

/-- `m` holds every `step + 1`-th element of `l` after the first `off`. -/
def Items (off step : Nat) (l m : List α) : Prop :=
  ∀ j, m[j]? = l[off + j * (step + 1)]?

lemma items_everyFrom {step : Nat} (k : Nat) (l : List α) :
    Items k step l (everyFrom (step + 1) k l) := by
  intro j
  induction l generalizing k j with
  | nil => simp [everyFrom]
  | cons x l ih =>
    cases k with
    | succ k => rw [everyFrom, ih, add_right_comm, getElem?_cons_succ]
    | zero =>
      cases j with
      | zero => simp [everyFrom]
      | succ j =>
        rw [everyFrom, getElem?_cons_succ, ih, Nat.add_sub_cancel,
          show 0 + (j + 1) * (step + 1) = step + j * (step + 1) + 1 by ring,
          getElem?_cons_succ]

variable {max : Nat} {src : Source σ α} {R : σ → List α → Prop} {off step n : Nat} {l m : List α}

section
variable (items : Items off step l m)
include items

lemma Items.lt_iff (j : Nat) : j < m.length ↔ off + j * (step + 1) < l.length := by
  rw [← not_le, ← not_le, ← getElem?_eq_none_iff, items, getElem?_eq_none_iff]

lemma Items.after (n : Nat) :
    Items step step (l.drop (off + n * (step + 1) + 1)) (m.drop (n + 1)) := by
  intro j
  rw [getElem?_drop, getElem?_drop, items]
  congr 1
  ring

/-- Index `i` from the end of the source is index `n` from the end of the items. -/
lemma Items.before {i : Nat}
    (inside : n < m.length → i + 1 + off + (m.length - (n + 1)) * (step + 1) = l.length)
    (outside : m.length ≤ n → l.length ≤ i) :
    l.reverse[i]? = m.reverse[n]? ∧
      Items off step (l.take (l.length - (i + 1))) (m.take (m.length - (n + 1))) := by
  by_cases lt : n < m.length
  · have start : l.length - (i + 1) = off + (m.length - (n + 1)) * (step + 1) := by omega
    refine ⟨?_, fun j => ?_⟩
    · rw [getElem?_reverse (by omega), getElem?_reverse lt, Nat.sub_right_comm,
        ← Nat.sub_add_eq, start, Nat.sub_right_comm, ← Nat.sub_add_eq, items]
    · simp only [getElem?_take, items j, start, Nat.add_lt_add_iff_left,
        Nat.mul_lt_mul_right step.succ_pos]
  · have length := outside (by omega)
    refine ⟨?_, fun j => ?_⟩
    · rw [getElem?_eq_none (by simpa), getElem?_eq_none (by simpa using lt)]
    · simp [show l.length - (i + 1) = 0 by omega, show m.length - (n + 1) = 0 by omega]

end

variable {t : StepBy σ} {s : σ}

lemma lt_size_iff (n j : Nat) : j < t.size n ↔ t.skip + j * (t.step + 1) < n := by
  cases first : t.firstTake with
  | true =>
    cases n with
    | zero => simp [size, first]
    | succ n =>
      simp [size, skip, first, Nat.one_add, Nat.le_div_iff_mul_le]
  | false =>
    simp only [size, skip, first, Bool.false_eq_true, if_false, Nat.lt_iff_add_one_le,
      Nat.le_div_iff_mul_le (Nat.add_one_pos t.step), add_mul j, one_mul]
    omega

lemma Items.size_eq (items : Items t.skip t.step l m) : t.size l.length = m.length :=
  eq_of_forall_lt_iff fun j => (lt_size_iff l.length j).trans (items.lt_iff j).symm

/-- Where the last item is, counted from the end of the source. -/
lemma nextBackIndex_spec (src : Source σ α) (t : StepBy σ) : nextBackIndex src t ≤ t.step ∧
    nextBackIndex src t + t.size (src.len t.iter) * (t.step + 1) + t.skip
      = src.len t.iter + t.step := by
  generalize length : src.len t.iter = n
  cases first : t.firstTake with
  | true =>
    cases n with
    | zero => simp [nextBackIndex, size, skip, first, length]
    | succ n =>
      have split := mod_add_div' n (t.step + 1)
      have lt : n % (t.step + 1) < t.step + 1 := mod_lt n t.step.succ_pos
      by_cases last : n % (t.step + 1) = t.step
      · have succ : (n + 1) % (t.step + 1) = 0 := by rw [← mod_add_mod, last, mod_self]
        simp [nextBackIndex, size, skip, first, length, succ, add_mul]
        omega
      · have succ : (n + 1) % (t.step + 1) = n % (t.step + 1) + 1 := by
          rw [← mod_add_mod, mod_eq_of_lt (by omega)]
        simp [nextBackIndex, size, skip, first, length, succ, add_mul]
        omega
  | false =>
    have split := mod_add_div' n (t.step + 1)
    have lt : n % (t.step + 1) < t.step + 1 := mod_lt n t.step.succ_pos
    simp only [nextBackIndex, size, skip, first, length, Bool.false_eq_true, if_false]
    omega

variable (R max) in
/-- The adapter has the items `m` left. -/
def Walks (t : StepBy σ) (m : List α) : Prop :=
  t.step < max ∧ ∃ l, R t.iter l ∧ Items t.skip t.step l m

variable (R max) in
/-- A call returned the answer of a list and left the items that the list is left with. -/
def Returns (result : Option (Option α × StepBy σ)) (answer : Option α × List α) : Prop :=
  ∃ t, result = some (answer.1, t) ∧ Walks max R t answer.2

lemma ask_tail (m : List α) (n : Nat) : ask (.nth n) m.tail = ask (.nth (n + 1)) m := by
  simp [ask]

lemma ask_first (m : List α) : ask .next m = ask (.nth 0) m := by
  simp [ask, head?_eq_getElem?]

lemma ask_last (m : List α) : ask .nextBack m = ask (.nthBack 0) m := by
  simp [ask, dropLast_eq_take, ← head?_eq_getElem?]

/-- A jump stays within `usize` and leaves part of the other factor. -/
lemma div_mul_fits {a b : Nat} (pos : 0 < a) (le : a ≤ max) (large : max < a * b) :
    0 < max / a * a ∧ max / a * a ≤ max ∧ 0 < max / a ∧ max / a < b :=
  have div_pos := Nat.div_pos le pos
  ⟨mul_pos div_pos pos, div_mul_le_self .., div_pos, (div_lt_iff_lt_mul pos).2 (by rwa [mul_comm])⟩

section
variable (lists : Lists max src R)
include lists

/-- The loop reads the element that the product names, also where the product overflows. -/
lemma nthLoop_spec (fuel : Nat) : ∀ {n step s l}, R s l → 0 < n → n ≤ max → 0 < step →
    step ≤ max → n + step ≤ fuel → ∃ s', nthLoop max src fuel n step s
      = some (l[n * step - 1]?, s') ∧ R s' (l.drop (n * step)) := by
  induction fuel with
  | zero => omega
  | succ fuel ih =>
    intro n step s l holds n_pos n_le step_pos step_le enough
    have pos := Nat.mul_pos n_pos step_pos
    by_cases fits : n * step ≤ max
    · obtain ⟨item, rest⟩ := lists.nth holds (by omega : n * step - 1 ≤ max)
      rw [Nat.sub_add_cancel pos] at rest
      exact ⟨_, by simp [nthLoop, fits, sub, Nat.succ_le_of_lt pos, ← item], rest⟩
    -- the source moves on by `j` elements, and a smaller product is left
    have go {j a b : Nat} (j_pos : 0 < j) (j_le : j ≤ max) (a_pos : 0 < a) (a_le : a ≤ max)
        (b_pos : 0 < b) (b_le : b ≤ max) (less : a + b < n + step) (total : j + a * b = n * step) :
        ∃ s', nthLoop max src fuel a b (src.nth (j - 1) s).2 = some (l[n * step - 1]?, s') ∧
          R s' (l.drop (n * step)) := by
      have rest := (lists.nth holds (by omega : j - 1 ≤ max)).2
      rw [Nat.sub_add_cancel j_pos] at rest
      obtain ⟨s', found, holds⟩ := ih rest a_pos a_le b_pos b_le (by omega)
      rw [List.getElem?_drop, ← Nat.add_sub_assoc (Nat.mul_pos a_pos b_pos), total] at found
      rw [List.drop_drop, total] at holds
      exact ⟨s', found, holds⟩
    have large := not_le.1 fits
    obtain ⟨n_jump, n_fits, n_div, n_lt⟩ := div_mul_fits n_pos n_le large
    obtain ⟨s_jump, s_fits, s_div, s_lt⟩ := div_mul_fits step_pos step_le (Nat.mul_comm .. ▸ large)
    by_cases more : max / n * n > max / step * step
    · simp only [nthLoop, fits, more, sub, n_lt.le, Nat.succ_le_of_lt n_jump, if_true, if_false,
        Option.bind_eq_bind, Option.bind_some]
      refine go n_jump n_fits n_pos n_le (by omega) (by omega) (by omega) ?_
      rw [mul_comm n, ← add_mul, Nat.add_sub_cancel' n_lt.le, mul_comm]
    · simp only [nthLoop, fits, more, sub, s_lt.le, Nat.succ_le_of_lt s_jump, if_true, if_false,
        Option.bind_eq_bind, Option.bind_some]
      refine go s_jump s_fits (by omega) (by omega) step_pos step_le (by omega) ?_
      rw [← add_mul, Nat.add_sub_cancel' s_lt.le]

/-- A call at the back that reaches `n` items from the end, cut to `usize`. -/
lemma back_spec (walks : Walks max R t m) {i : Nat}
    (at_index : i = min (n * (t.step + 1) + nextBackIndex src t) max) :
    Returns max R (some (onto t (src.nthBack i t.iter))) (ask (.nthBack n) m) := by
  obtain ⟨bound, l, holds, items⟩ := walks
  obtain ⟨length, small⟩ := lists.len holds
  obtain ⟨-, last⟩ := nextBackIndex_spec src t
  rw [length, items.size_eq] at last
  have inside (lt : n < m.length) :
      i + 1 + t.skip + (m.length - (n + 1)) * (t.step + 1) = l.length := by
    obtain ⟨d, more⟩ := Nat.exists_eq_add_of_lt lt
    simp only [more, add_mul, Nat.add_sub_add_right, Nat.add_sub_cancel_left] at last at_index ⊢
    omega
  have outside (le : m.length ≤ n) : l.length ≤ i := by
    have more := Nat.mul_le_mul_right (t.step + 1) le
    have skip_le : t.skip ≤ t.step := by unfold skip; split <;> omega
    omega
  obtain ⟨same, rest⟩ := items.before inside outside
  obtain ⟨item, holds⟩ := lists.nthBack holds (by omega : i ≤ max)
  exact ⟨_, congrArg (fun x => some (x, _)) (item.trans same), bound, _, holds, rest⟩

lemma next_spec (walks : Walks max R t m) :
    ∃ s, next src t = (m.head?, ⟨s, t.step, false⟩) ∧ Walks max R ⟨s, t.step, false⟩ m.tail := by
  obtain ⟨iter, step, first⟩ := t
  obtain ⟨bound, l, holds, items⟩ := walks
  have item := items 0
  have after := items.after 0
  rw [zero_mul] at item after
  rw [head?_eq_getElem?, ← drop_one]
  cases first with
  | true =>
    obtain ⟨same, rest⟩ := lists.next holds
    exact ⟨_, congrArg (·, _) (same.trans item.symm), bound, _, rest, after⟩
  | false =>
    obtain ⟨same, rest⟩ := lists.nth holds bound.le
    exact ⟨_, congrArg (·, _) (same.trans item.symm), bound, _, rest, after⟩

lemma jump_spec (walks : Walks max R ⟨s, step, false⟩ m) (lt : n < max) :
    Returns max R (jump max src (n + 1) ⟨s, step, false⟩) (ask (.nth n) m) := by
  obtain ⟨bound, l, holds, items⟩ := walks
  obtain ⟨s', found, rest⟩ := nthLoop_spec lists _ holds n.succ_pos lt step.succ_pos bound le_rfl
  rw [show (n + 1) * (step + 1) = step + n * (step + 1) + 1 by ring] at found rest
  exact ⟨⟨s', step, false⟩, by rw [jump, found, ask, items]; rfl, bound, _, rest, items.after n⟩

lemma nthRest_spec (walks : Walks max R ⟨s, step, false⟩ m) (le : n ≤ max) :
    Returns max R (nthRest max src n ⟨s, step, false⟩) (ask (.nth n) m) := by
  rw [nthRest]
  split
  next last =>
    -- one step is taken first, and the `n` that remain fit
    obtain ⟨k, rfl⟩ : ∃ k, n = k + 1 := ⟨n - 1, by have := walks.1; omega⟩
    obtain ⟨s', stepped, after⟩ := next_spec lists walks
    have moved : (onto ⟨s, step, false⟩ (src.nth step s)).2 = _ := congrArg Prod.snd stepped
    rw [moved, ← ask_tail]
    exact jump_spec lists after le
  next => exact jump_spec lists walks (by omega)

lemma call_answers {c : Call} (small : c.index ≤ max) :
    Answers (call max src) (Walks max R) c := by
  intro t m walks
  cases c with
  | next =>
    obtain ⟨s, item, walks⟩ := next_spec lists walks
    exact ⟨_, congrArg some item, walks⟩
  | nth n =>
    obtain ⟨iter, step, first⟩ := t
    cases first with
    | false => exact nthRest_spec lists walks small
    | true =>
      obtain ⟨s, item, after⟩ := next_spec lists walks
      rw [call, nth, item]
      cases n with
      | zero => exact ask_first m ▸ ⟨_, rfl, after⟩
      | succ n => exact ask_tail m n ▸ nthRest_spec lists after (le_of_succ_le small)
  | nextBack =>
    have index : nextBackIndex src t ≤ max := (nextBackIndex_spec src t).1.trans walks.1.le
    exact ask_last m ▸ back_spec lists walks (by omega)
  | nthBack n => exact back_spec lists walks (by omega)

end

/-- Any run of calls on the adapter ends, with the answers that the same calls have on the list of
every `step`-th element, and `size_hint` is then the length of what is left of that list. -/
theorem walks_every (lists : Lists max src R) (holds : R s l) (pos : 0 < step) (le : step ≤ max)
    (calls : List Call) (indices : ∀ c ∈ calls, c.index ≤ max) :
    (new s step).bind (run (call max src) calls) = some (replies calls (everyFrom step 0 l)) ∧
      ∃ t m, (new s step).bind (stateAfter (call max src) calls) = some t ∧
        m = rest calls (everyFrom step 0 l) ∧ sizeHint src t = (m.length, some m.length) := by
  obtain ⟨k, rfl⟩ := Nat.exists_eq_succ_of_ne_zero pos.ne'
  have walks : Walks max R ⟨s, k, true⟩ (everyFrom (k + 1) 0 l) :=
    ⟨le, l, holds, items_everyFrom 0 l⟩
  obtain ⟨ran, t, reached, -, l', holds, items⟩ := run_answers calls
    (fun c mem => call_answers lists (indices c mem)) walks
  refine ⟨ran, t, _, reached, rfl, ?_⟩
  rw [sizeHint, lists.sizeHint holds, ← items.size_eq]
  rfl

/-- Lists as sources. -/
def listSource : Source (List α) α where
  next l := (l[0]?, l.drop 1)
  nth n l := (l[n]?, l.drop (n + 1))
  nthBack n l := (l.reverse[n]?, l.take (l.length - (n + 1)))
  len := length
  sizeHint l := (l.length, some l.length)

/-- The last index of `usize` times the step is none. -/
theorem walks_every_sample :
    (new [0, 1, 2, 3, 4, 5] 2).bind
        (run (call (2 ^ 64 - 1) listSource) [.nextBack, .next, .nth (2 ^ 64 - 1)]) =
        some [some 4, some 0, none] ∧
      ∃ t m, (new [0, 1, 2, 3, 4, 5] 2).bind (stateAfter (call (2 ^ 64 - 1) listSource)
        [.nextBack, .next, .nth (2 ^ 64 - 1)]) = some t ∧
        m = rest [.nextBack, .next, .nth (2 ^ 64 - 1)] (everyFrom 2 0 [0, 1, 2, 3, 4, 5]) ∧
        sizeHint listSource t = (m.length, some m.length) :=
  walks_every (R := fun s l => s = l ∧ l.length ≤ 2 ^ 64 - 1)
    ⟨fun h => by simp [h.1, listSource]; omega, fun h _ => by simp [h.1, listSource]; omega,
      fun h _ => by simp [h.1, listSource]; omega, fun h => ⟨h.1 ▸ rfl, h.2⟩,
      fun h => by simp [h.1, listSource]⟩ ⟨rfl, by decide⟩ (by decide) (by decide) _ (by decide)

end StepBy
