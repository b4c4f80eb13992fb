import BpfSysroot.SliceMemory

/-!
# Heap order on the implicit binary tree of an array

Position `i > 0` hangs below `(i - 1) / 2`. The order relation is any total
preorder, so distinct elements may be equivalent. Sifting is described by what
is still open while one element is out of place: on the way down the edges
below it, on the way up the edge above it, and on the way to the bottom both.
Each direction has a step rule and a stop rule; no algorithm is fixed here.
-/

namespace HeapOrder

open SliceMemory

universe u
variable {T : Type u} {le : T → T → Prop}
variable {i n p c lo : Nat} {a b : Nat → T}

def parent (i : Nat) : Nat := (i - 1) / 2

lemma parent_lt (h : 0 < i) : parent i < i := by
  rw [parent]; omega

/-- The edges below `n` that hang from positions `lo` and later are in order. -/
def Ordered (le : T → T → Prop) (a : Nat → T) (lo n : Nat) : Prop :=
  ∀ i, 0 < i → i < n → lo ≤ parent i → le (a i) (a (parent i))

/-- Only the edges below `p` may be out of order, and what hangs below `p`
fits below the parent of `p`. -/
structure DownOpen (le : T → T → Prop) (a : Nat → T) (lo n p : Nat) : Prop where
  edges : ∀ i, 0 < i → i < n → lo ≤ parent i → parent i ≠ p → le (a i) (a (parent i))
  grand : ∀ i, 0 < i → i < n → parent i = p → 0 < p → lo ≤ parent p → le (a i) (a (parent p))

/-- Only the edge above `p` may be out of order. -/
structure UpOpen (le : T → T → Prop) (a : Nat → T) (n p : Nat) : Prop where
  edges : ∀ i, 0 < i → i < n → i ≠ p → le (a i) (a (parent i))
  grand : ∀ i, 0 < i → i < n → parent i = p → 0 < p → le (a i) (a (parent p))

/-- The edges above and below `p` may be out of order. -/
structure BothOpen (le : T → T → Prop) (a : Nat → T) (n p : Nat) : Prop where
  edges : ∀ i, 0 < i → i < n → i ≠ p → parent i ≠ p → le (a i) (a (parent i))
  grand : ∀ i, 0 < i → i < n → parent i = p → 0 < p → le (a i) (a (parent p))

/-- `c` is a child of `p` inside the array and no other child exceeds it. -/
structure GreatestChild (le : T → T → Prop) (a : Nat → T) (n p c : Nat) : Prop where
  pos : 0 < c
  inside : c < n
  child : parent c = p
  greatest : ∀ i, 0 < i → i < n → parent i = p → le (a i) (a c)

lemma GreatestChild.lt (h : GreatestChild le a n p c) : p < c :=
  h.child ▸ parent_lt h.pos

lemma child_eq (hi : 0 < i) (hp : parent i = p) : i = 2 * p + 1 ∨ i = 2 * p + 2 := by
  rw [parent] at hp
  omega

/-- The left child is a greatest one if the right child is missing or not above it. -/
lemma greatestChild_left (refl : ∀ x, le x x) (hn : 2 * p + 1 < n)
    (hright : 2 * p + 2 < n → le (a (2 * p + 2)) (a (2 * p + 1))) :
    GreatestChild le a n p (2 * p + 1) := by
  refine ⟨by omega, hn, by rw [parent]; omega, ?_⟩
  intro i hi hin hp
  rcases child_eq hi hp with rfl | rfl
  · exact refl _
  · exact hright hin

lemma greatestChild_right (refl : ∀ x, le x x) (hn : 2 * p + 2 < n)
    (hleft : le (a (2 * p + 1)) (a (2 * p + 2))) : GreatestChild le a n p (2 * p + 2) := by
  refine ⟨by omega, hn, by rw [parent]; omega, ?_⟩
  intro i hi hin hp
  rcases child_eq hi hp with rfl | rfl
  · exact hleft
  · exact refl _

lemma Ordered.mono {lo' n' : Nat} (h : Ordered le a lo n) (hlo : lo ≤ lo') (hn : n' ≤ n) :
    Ordered le a lo' n' :=
  fun i hi hin hp => h i hi (by omega) (by omega)

/-- No edge hangs from the second half of the array. -/
lemma ordered_half (a : Nat → T) (n : Nat) : Ordered le a (n / 2) n := by
  intro i hi hin hp
  rw [parent] at hp
  omega

lemma Ordered.downOpen (h : Ordered le a (p + 1) n) : DownOpen le a p n p where
  edges := fun i hi hin hlo hne => h i hi hin (by omega)
  grand := fun i hi hin hp hpos hlo => by have := parent_lt hpos; omega

/-- Replacing the root opens only the edges below it. -/
lemma Ordered.downOpen_root (h : Ordered le a 0 n) (same : ∀ i, 0 < i → i < n → b i = a i) :
    DownOpen le b 0 n 0 where
  edges := fun i hi hin _ hne => by
    have hpos : 0 < parent i := by omega
    rw [same i hi hin, same _ hpos (by have := parent_lt hi; omega)]
    exact h i hi hin (by omega)
  grand := fun i hi hin hp hpos => by omega

lemma Ordered.bothOpen_root (h : Ordered le a 0 n) (same : ∀ i, 0 < i → i < n → b i = a i) :
    BothOpen le b n 0 where
  edges := fun i hi hin _ hne => (h.downOpen_root same).edges i hi hin (Nat.zero_le _) hne
  grand := fun i hi hin hp hpos => by omega

/-- A new last element opens only the edge above it. -/
lemma Ordered.upOpen_last (h : Ordered le a 0 n) (same : ∀ i < n, b i = a i) :
    UpOpen le b (n + 1) n where
  edges := fun i hi hin hne => by
    have hlt : i < n := by omega
    rw [same i hlt, same _ (by have := parent_lt hi; omega)]
    exact h i hi hlt (Nat.zero_le _)
  grand := fun i hi hin hp => by have := parent_lt hi; omega

/-- An element below its greatest child trades places with it. -/
lemma DownOpen.step (h : DownOpen le a lo n p) (hc : GreatestChild le a n p c) (hlo : lo ≤ p)
    (hlt : le (a p) (a c)) : DownOpen le (swapAt a p c) lo n c := by
  have hpc := hc.lt
  constructor
  · intro i hi hin hpl hne
    by_cases hip : i = p
    · subst i
      have hpp := parent_lt hi
      rw [swapAt_left, swapAt_of_ne a (by omega) (by omega)]
      exact h.grand c hc.pos hc.inside hc.child hi hpl
    · by_cases hic : i = c
      · subst i
        rw [swapAt_right, hc.child, swapAt_left]
        exact hlt
      · rw [swapAt_of_ne a hip hic]
        by_cases hpi : parent i = p
        · rw [hpi, swapAt_left]
          exact hc.greatest i hi hin hpi
        · rw [swapAt_of_ne a hpi hne]
          exact h.edges i hi hin hpl hpi
  · intro i hi hin hpi _ _
    have hci : c < i := hpi ▸ parent_lt hi
    rw [hc.child, swapAt_left, swapAt_of_ne a (by omega) (by omega)]
    have := h.edges i hi hin (by omega) (by omega)
    rwa [hpi] at this

lemma DownOpen.stop (h : DownOpen le a lo n p)
    (below : ∀ i, 0 < i → i < n → parent i = p → le (a i) (a p)) : Ordered le a lo n := by
  intro i hi hin hlo
  by_cases hp : parent i = p
  · rw [hp]
    exact below i hi hin hp
  · exact h.edges i hi hin hlo hp

/-- On the way to the bottom the greatest child moves up whatever is sifted. -/
lemma BothOpen.step (h : BothOpen le a n p) (hc : GreatestChild le a n p c) :
    BothOpen le (swapAt a p c) n c := by
  have hpc := hc.lt
  constructor
  · intro i hi hin hic hne
    by_cases hip : i = p
    · subst i
      have hpp := parent_lt hi
      rw [swapAt_left, swapAt_of_ne a (by omega) (by omega)]
      exact h.grand c hc.pos hc.inside hc.child hi
    · rw [swapAt_of_ne a hip hic]
      by_cases hpi : parent i = p
      · rw [hpi, swapAt_left]
        exact hc.greatest i hi hin hpi
      · rw [swapAt_of_ne a hpi hne]
        exact h.edges i hi hin hip hpi
  · intro i hi hin hpi _
    have hci : c < i := hpi ▸ parent_lt hi
    rw [hc.child, swapAt_left, swapAt_of_ne a (by omega) (by omega)]
    have := h.edges i hi hin (by omega) (by omega)
    rwa [hpi] at this

/-- Without children below `p` only the edge above it is left open. -/
lemma BothOpen.upOpen (h : BothOpen le a n p) (bottom : n ≤ 2 * p + 1) : UpOpen le a n p := by
  have childless : ∀ i, 0 < i → i < n → parent i ≠ p := by
    intro i hi hin hp
    rw [parent] at hp
    omega
  exact ⟨fun i hi hin hne => h.edges i hi hin hne (childless i hi hin), h.grand⟩

/-- An element above its parent trades places with it. -/
lemma UpOpen.step (trans : ∀ x y z, le x y → le y z → le x z) (h : UpOpen le a n p) (hpos : 0 < p)
    (hpn : p < n) (hle : le (a (parent p)) (a p)) :
    UpOpen le (swapAt a p (parent p)) n (parent p) := by
  have hpp := parent_lt hpos
  -- everything else that hangs below the parent stays below the moved element
  have sibling : ∀ i, 0 < i → i < n → parent i = parent p → i ≠ p → le (a i) (a p) := by
    intro i hi hin hpi hne
    have hedge := h.edges i hi hin hne
    rw [hpi] at hedge
    exact trans _ _ _ hedge hle
  constructor
  · intro i hi hin hne
    by_cases hip : i = p
    · subst i
      rw [swapAt_left, swapAt_right]
      exact hle
    · rw [swapAt_of_ne a hip hne]
      by_cases hpi : parent i = p
      · rw [hpi, swapAt_left]
        exact h.grand i hi hin hpi hpos
      · by_cases hpi' : parent i = parent p
        · rw [hpi', swapAt_right]
          exact sibling i hi hin hpi' hip
        · rw [swapAt_of_ne a hpi hpi']
          exact h.edges i hi hin hip
  · intro i hi hin hpi hpos'
    have hgg := parent_lt hpos'
    have above := h.edges (parent p) hpos' (by omega) (by omega)
    rw [swapAt_of_ne a (show parent (parent p) ≠ p by omega) (by omega)]
    by_cases hip : i = p
    · subst i
      rw [swapAt_left]
      exact above
    · have hii := parent_lt hi
      rw [swapAt_of_ne a hip (by omega)]
      have hedge := h.edges i hi hin hip
      rw [hpi] at hedge
      exact trans _ _ _ hedge above

lemma UpOpen.stop (h : UpOpen le a n p) (above : 0 < p → p < n → le (a p) (a (parent p))) :
    Ordered le a 0 n := by
  intro i hi hin _
  by_cases hip : i = p
  · subst i
    exact above hi hin
  · exact h.edges i hi hin hip

/-- The root of an ordered array is a greatest element. -/
lemma Ordered.le_root (refl : ∀ x, le x x) (trans : ∀ x y z, le x y → le y z → le x z)
    (h : Ordered le a 0 n) (i : Nat) (hi : i < n) : le (a i) (a 0) := by
  induction i using Nat.strongRecOn with
  | ind i ih =>
    by_cases h0 : i = 0
    · subst i
      exact refl _
    · have hlt := parent_lt (pos_of_ne_zero h0)
      exact trans _ _ _ (h i (by omega) hi (Nat.zero_le _)) (ih _ hlt (by omega))

end HeapOrder
