import BpfSysroot.BTreeShape

/-!
# What the operations on nodes do

One rule for each operation of `BTreeNode` that reads a node or goes to a neighbour of it: on which
nodes it runs and what it returns.
-/

namespace BTree

open CellHeap Alternation BTree.Tree

variable {K V : Type} {m : Cells (Node K V)} {n : NodeRef} {N : Node K V} {idx : Nat}

section
variable (there : (n.node, N) ∈ m)
include there

lemma gives_len : Gives (len n) m N.kvs.length m :=
  (gives_read there).bind (gives_pure _)

lemma gives_newKv (bound : idx < N.kvs.length) : Gives (newKv n idx) m ⟨n, idx⟩ m :=
  (gives_len there).bind ((gives_check bound).bind (gives_pure _))

lemma gives_newEdge (bound : idx ≤ N.kvs.length) : Gives (newEdge n idx) m ⟨n, idx⟩ m :=
  (gives_len there).bind ((gives_check bound).bind (gives_pure _))

lemma gives_firstEdge : Gives (firstEdge n) m ⟨n, 0⟩ m :=
  gives_newEdge there (Nat.zero_le _)

lemma gives_lastEdge : Gives (lastEdge n) m ⟨n, N.kvs.length⟩ m :=
  (gives_len there).bind (gives_newEdge there le_rfl)

lemma gives_leftKv (bound : idx ≤ N.kvs.length) :
    Gives (leftKv ⟨n, idx⟩) m (if 0 < idx then some ⟨n, idx - 1⟩ else none) m := by
  unfold leftKv
  dsimp only
  split
  · exact (gives_newKv there (by omega)).bind (gives_pure _)
  · exact gives_pure _

lemma gives_rightKv :
    Gives (rightKv ⟨n, idx⟩) m (if idx < N.kvs.length then some ⟨n, idx⟩ else none) m := by
  apply (gives_len there).bind
  split
  · exact (gives_newKv there ‹_›).bind (gives_pure _)
  · exact gives_pure _

lemma gives_ascend :
    Gives (ascend n) m (N.parent.map (fun link => ⟨⟨n.height + 1, link.1⟩, link.2⟩)) m :=
  (gives_read there).bind (gives_pure _)

end

lemma gives_descend (child : Nat) (there : (n.node, N) ∈ m) (edge : N.edges[idx]? = some child) :
    Gives (descend ⟨n, idx⟩) m ⟨n.height - 1, child⟩ m := by
  apply (gives_read there).bind
  rw [edge]
  exact (gives_need child).bind (gives_pure _)

lemma gives_intoKv {kv : K × V} (there : (n.node, N) ∈ m) (pair : N.kvs[idx]? = some kv) :
    Gives (intoKv ⟨n, idx⟩) m kv m := by
  apply (gives_read there).bind
  rw [pair]
  exact gives_need kv

end BTree
