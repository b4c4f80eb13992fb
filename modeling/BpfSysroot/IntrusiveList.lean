import Mathlib

/-!
# Lists linked through memory

Nodes at addresses hold the address of the next one. `Chain next p l` says that following
the links from `p` visits the addresses of `l` and ends at the null address. Only the
links of the nodes that are visited matter, so that other nodes may come and go.
-/

namespace IntrusiveList

universe u

variable {α : Type u} {null : α} {next next' : α → Option α} {p : α} {l : List α}

/-- The list that starts at an address; `next a` is the link of the node at `a`, if there is
one. -/
def Chain (null : α) (next : α → Option α) : α → List α → Prop
  | p, [] => p = null
  | p, a :: l => p = a ∧ a ≠ null ∧ ∃ q, next a = some q ∧ Chain null next q l

lemma Chain.congr (same : ∀ a ∈ l, next' a = next a) (chain : Chain null next p l) :
    Chain null next' p l := by
  induction l generalizing p with
  | nil => exact chain
  | cons a l ih =>
    obtain ⟨rfl, nonnull, q, link, rest⟩ := chain
    refine ⟨rfl, nonnull, q, (same p List.mem_cons_self).trans link, ?_⟩
    exact ih (fun b member => same b (List.mem_cons_of_mem p member)) rest

lemma Chain.cons (chain : Chain null next p l) {a : α} (nonnull : a ≠ null)
    (link : next a = some p) : Chain null next a (a :: l) := ⟨rfl, nonnull, p, link, chain⟩

/-- The list from an address that is not null begins there. -/
lemma Chain.head (chain : Chain null next p l) (nonnull : p ≠ null) :
    ∃ q rest, l = p :: rest ∧ next p = some q ∧ Chain null next q rest := by
  cases l with
  | nil => exact absurd chain nonnull
  | cons a l =>
    obtain ⟨rfl, -, q, link, rest⟩ := chain
    exact ⟨q, l, rfl, link, rest⟩

lemma Chain.of_null (chain : Chain null next null l) : l = [] := by
  cases l with
  | nil => rfl
  | cons a l => exact absurd chain.1.symm chain.2.1

end IntrusiveList
