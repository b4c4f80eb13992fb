import BpfSysroot.CellHeap

/-!
# Nodes of B-trees

`alloc/src/collections/btree/node.rs`: nodes in a heap, with pointers to their
children and back to their parents, and the operations that insert and split. The
marker types are erased; a reference to a node carries its height, and a handle is
a position in a node, either of a key-value pair or of an edge. Assertions, debug
assertions, `unreachable!` and unchecked accesses are checks.
-/

namespace BTree

open CellHeap

def b : Nat := 6

def capacity : Nat := 2 * b - 1

def minLenAfterSplit : Nat := b - 1

def kvIdxCenter : Nat := b - 1

def edgeIdxLeftOfCenter : Nat := b - 1

def edgeIdxRightOfCenter : Nat := b

/-- A `LeafNode`, or the `InternalNode` around it, which has at least one edge. The index of the
node in its parent is stored with the parent, since it is only initialized then. The arrays of
keys and values always change together, so they are one list of the initialized pairs. -/
structure Node (K V : Type) where
  parent : Option (Nat × Nat)
  kvs : List (K × V)
  edges : List Nat

structure NodeRef where
  height : Nat
  node : Nat
  deriving DecidableEq

structure Handle where
  node : NodeRef
  idx : Nat
  deriving DecidableEq

/-- None of the modelled functions panics. -/
abbrev Code (K V A : Type) := Prog Empty (Node K V) A

inductive LeftOrRight (A : Type)
  | left (a : A)
  | right (a : A)
  deriving DecidableEq

variable {K V : Type}

section
variable {A : Type}

/-- The slice has one more slot than `xs`. -/
def sliceInsert (xs : List A) (idx : Nat) (val : A) : Code K V (List A) := do
  check (idx < xs.length + 1)
  return xs.insertIdx idx val

end

section
variable (n : NodeRef)

def len : Code K V Nat := do
  return (← read n.node).kvs.length

def newKv (idx : Nat) : Code K V Handle := do
  check (idx < (← len n))
  return ⟨n, idx⟩

def newEdge (idx : Nat) : Code K V Handle := do
  check (idx ≤ (← len n))
  return ⟨n, idx⟩

def firstEdge : Code K V Handle := newEdge n 0

def lastEdge : Code K V Handle := do
  newEdge n (← len n)

def leftEdge (kv : Handle) : Code K V Handle := newEdge kv.node kv.idx

def rightEdge (kv : Handle) : Code K V Handle := newEdge kv.node (kv.idx + 1)

def leftKv (edge : Handle) : Code K V (Option Handle) := do
  if 0 < edge.idx then
    return some (← newKv edge.node (edge.idx - 1))
  else
    return none

def rightKv (edge : Handle) : Code K V (Option Handle) := do
  if edge.idx < (← len edge.node) then
    return some (← newKv edge.node edge.idx)
  else
    return none

/-- The edge of the parent that points to the node, unless the node is a root. -/
def ascend : Code K V (Option Handle) := do
  return (← read n.node).parent.map (fun link => ⟨⟨n.height + 1, link.1⟩, link.2⟩)

end

def descend (edge : Handle) : Code K V NodeRef := do
  let node ← need (← read edge.node.node).edges[edge.idx]?
  return ⟨edge.node.height - 1, node⟩

def intoKv (kv : Handle) : Code K V (K × V) := do
  need (← read kv.node.node).kvs[kv.idx]?

/-- Replaces the pair and returns the old one. -/
def replaceKv (kv : Handle) (new : K × V) : Code K V (K × V) := do
  let n ← read kv.node.node
  let old ← need n.kvs[kv.idx]?
  write kv.node.node { n with kvs := n.kvs.set kv.idx new }
  return old

def setParentLink (n : NodeRef) (link : Option (Nat × Nat)) : Code K V Unit := do
  write n.node { ← read n.node with parent := link }

def correctParentLink (edge : Handle) : Code K V Unit := do
  let child ← descend edge
  setParentLink child (some (edge.node.node, edge.idx))

/-- Corrects the links of `count` children, from index `start` on. -/
def correctChildrensParentLinks (n : NodeRef) : Nat → Nat → Code K V Unit
  | _, 0 => pure ()
  | start, count + 1 => do
    correctParentLink (← newEdge n start)
    correctChildrensParentLinks n (start + 1) count

def newLeaf : Code K V NodeRef := do
  return ⟨0, ← alloc ⟨none, [], []⟩⟩

def pushInternalLevel (root : NodeRef) : Code K V NodeRef := do
  let newRoot : NodeRef := ⟨root.height + 1, ← alloc ⟨none, [], [root.node]⟩⟩
  correctParentLink (← firstEdge newRoot)
  return newRoot

section
variable (n : NodeRef) (kv : K × V)

/-- `push` of an internal node; writing behind the last edge. -/
def push (edge : NodeRef) : Code K V Unit := do
  check (edge.height = n.height - 1)
  let node ← read n.node
  let idx := node.kvs.length
  check (idx < capacity)
  write n.node { node with kvs := node.kvs ++ [kv], edges := node.edges ++ [edge.node] }
  correctParentLink (← newEdge n (idx + 1))

end

structure SplitResult (K V : Type) where
  left : NodeRef
  kv : K × V
  right : NodeRef

inductive InsertResult (K V : Type)
  | fit (kv : Handle)
  | split (result : SplitResult K V)

/-- The index of the pair to split at, and where to insert then. -/
def splitpoint (edgeIdx : Nat) : Nat × LeftOrRight Nat :=
  if edgeIdx < edgeIdxLeftOfCenter then (kvIdxCenter - 1, .left edgeIdx)
  else if edgeIdx = edgeIdxLeftOfCenter then (kvIdxCenter, .left edgeIdx)
  else if edgeIdx = edgeIdxRightOfCenter then (kvIdxCenter, .right 0)
  else (kvIdxCenter + 1, .right (edgeIdx - (kvIdxCenter + 1 + 1)))

/-- Keeps the pairs before the handle; returns its pair and those behind it. -/
def splitLeafData (kv : Handle) : Code K V ((K × V) × List (K × V)) := do
  let n ← read kv.node.node
  let middle ← need n.kvs[kv.idx]?
  write kv.node.node { n with kvs := n.kvs.take kv.idx }
  return (middle, n.kvs.drop (kv.idx + 1))

def splitLeaf (kv : Handle) : Code K V (SplitResult K V) := do
  let (middle, rest) ← splitLeafData kv
  return ⟨kv.node, middle, ⟨0, ← alloc ⟨none, rest, []⟩⟩⟩

def splitInternal (kv : Handle) : Code K V (SplitResult K V) := do
  let (middle, rest) ← splitLeafData kv
  let n ← read kv.node.node
  check (kv.idx + rest.length + 2 ≤ n.edges.length)
  write kv.node.node { n with edges := n.edges.take (kv.idx + 1) }
  let right : NodeRef := ⟨kv.node.height, ← alloc ⟨none, rest, n.edges.drop (kv.idx + 1)⟩⟩
  correctChildrensParentLinks right 0 (rest.length + 1)
  return ⟨kv.node, middle, right⟩

section
variable (edge : Handle) (kv : K × V)

/-- `insert_fit` of a leaf; the pair's position serves as the pointer to its value. -/
def insertFitLeaf : Code K V Handle := do
  let n ← read edge.node.node
  check (n.kvs.length < capacity)
  write edge.node.node { n with kvs := ← sliceInsert n.kvs edge.idx kv }
  return edge

def insertLeaf : Code K V (InsertResult K V × Handle) := do
  if (← len edge.node) < capacity then
    let valPtr ← insertFitLeaf edge kv
    return (.fit (← newKv edge.node edge.idx), valPtr)
  else
    check (edge.idx ≤ capacity)
    let (middleKvIdx, insertion) := splitpoint edge.idx
    let result ← splitLeaf (← newKv edge.node middleKvIdx)
    let insertionEdge ← match insertion with
      | .left insertIdx => newEdge result.left insertIdx
      | .right insertIdx => newEdge result.right insertIdx
    let valPtr ← insertFitLeaf insertionEdge kv
    return (.split result, valPtr)

/-- `insert_fit` of an internal node. -/
def insertFit (child : NodeRef) : Code K V Unit := do
  let n ← read edge.node.node
  check (n.kvs.length < capacity)
  check (child.height = edge.node.height - 1)
  let newLen := n.kvs.length + 1
  let kvs ← sliceInsert n.kvs edge.idx kv
  let edges ← sliceInsert n.edges (edge.idx + 1) child.node
  write edge.node.node { n with kvs := kvs, edges := edges }
  correctChildrensParentLinks edge.node (edge.idx + 1) (newLen - edge.idx)

def insertInternal (child : NodeRef) : Code K V (InsertResult K V) := do
  check (child.height = edge.node.height - 1)
  if (← len edge.node) < capacity then
    insertFit edge kv child
    return .fit (← newKv edge.node edge.idx)
  else
    check (edge.idx ≤ capacity)
    let (middleKvIdx, insertion) := splitpoint edge.idx
    let result ← splitInternal (← newKv edge.node middleKvIdx)
    let insertionEdge ← match insertion with
      | .left insertIdx => newEdge result.left insertIdx
      | .right insertIdx => newEdge result.right insertIdx
    insertFit insertionEdge kv child
    return .split result

/-- The loop of `insert_recursing`. -/
def insertUpwards : Nat → SplitResult K V → Code K V (InsertResult K V)
  | 0, _ => violation
  | fuel + 1, split => do
    match ← ascend split.left with
    | some parent =>
      match ← insertInternal parent split.kv split.right with
      | .fit handle => return .fit handle
      | .split split => insertUpwards fuel split
    | none => return .split split

def insertRecursing : Code K V (InsertResult K V × Handle) := do
  match ← insertLeaf edge kv with
  | (.fit handle, ptr) => return (.fit handle, ptr)
  | (.split split, valPtr) => return (← insertUpwards (← cellBound) split, valPtr)

end

end BTree
