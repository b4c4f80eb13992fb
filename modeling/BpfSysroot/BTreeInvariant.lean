import BpfSysroot.BTreeShape

/-!
# Well-formed maps

What must hold of a map between two operations: its nodes form a tree whose height is the stored
one, all other nodes have at least `MIN_LEN` pairs and none more than `CAPACITY`, the links lead
back to the parents, the keys are ascending, and the length is the number of pairs.
-/

namespace BTree

open CellHeap Alternation BTree.Tree List

variable {K V : Type}

/-- The map owns the nodes `c`, which hold the pairs `kvs`. -/
def Holds (m : BTreeMap) (c : Cells (Node K V)) (kvs : List (K × V)) : Prop :=
  match m.root with
  | none => c = 0 ∧ kvs = []
  | some root =>
    ∃ T : Tree (K × V) (root.height + 1), root.node = T.addr ∧ c = cells none T ∧
      Sized (rootLeast root.height) T ∧ T.entries = kvs

/-- Strictly ascending keys. -/
def Ascends (cmp : K → K → Ordering) (kvs : List (K × V)) : Prop :=
  kvs.Pairwise (fun x y => cmp x.1 y.1 = .lt)

structure WellFormed (cmp : K → K → Ordering) (m : BTreeMap) (c : Cells (Node K V))
    (kvs : List (K × V)) : Prop where
  holds : Holds m c kvs
  length : m.length = kvs.length
  ascends : Ascends cmp kvs

/-- A tree of height 1 with the keys from 0 to 10 in ascending order. -/
def sample : Tree (Nat × Nat) 2 :=
  node 2 ⟨leaf 0 [(0, 0), (1, 1), (2, 2), (3, 3), (4, 4)],
    [((5, 5), leaf 1 [(6, 6), (7, 7), (8, 8), (9, 9), (10, 10)])]⟩

lemma sample_formed :
    WellFormed compare ⟨some ⟨1, 2⟩, 11⟩ (cells none sample)
      ((range 11).map (fun n => (n, n))) where
  holds := by
    refine ⟨sample, rfl, rfl, ?_, by decide⟩
    refine ⟨by decide, by decide, ?_⟩
    intro c hc
    simp only [sample, body_node, items_mk, map_cons, map_nil, mem_cons,
      not_mem_nil, or_false] at hc
    rcases hc with rfl | rfl
    · exact sized_leaf.mpr (by decide)
    · exact sized_leaf.mpr (by decide)
  length := rfl
  ascends := by
    unfold Ascends
    decide

end BTree
