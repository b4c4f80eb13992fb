import BpfSysroot.BTreeNode

/-!
# Searching and walking in B-trees

`search.rs` and `navigate.rs` of `alloc/src/collections/btree`. A key to look up
is only ever compared with the keys of the tree, so it is given by how it
compares: `key k` is the ordering of the key relative to `k`. Loops that go down
recurse on the height; loops that go up are bounded by the number of cells.
-/

namespace BTree

open CellHeap

variable {K V : Type}

inductive SearchResult
  | found (kv : Handle)
  | goDown (edge : Handle)

/-- The index in `kvs[i..]`, counted from the start, and whether the key is there. -/
def searchLinear (key : K → Ordering) : List (K × V) → Nat → Nat × Bool
  | [], i => (i, false)
  | (k, _) :: rest, i =>
    match key k with
    | .gt => searchLinear key rest (i + 1)
    | .eq => (i, true)
    | .lt => (i, false)

def searchNode (key : K → Ordering) (n : NodeRef) : Code K V SearchResult := do
  match searchLinear key (← read n.node).kvs 0 with
  | (idx, true) => return .found (← newKv n idx)
  | (idx, false) => return .goDown (← newEdge n idx)

/-- `search_tree`, with the height of the node. -/
def searchTreeAt (key : K → Ordering) : Nat → NodeRef → Code K V SearchResult
  | 0, n => searchNode key n
  | h + 1, n => do
    match ← searchNode key n with
    | .found handle => return .found handle
    | .goDown handle => searchTreeAt key h (← descend handle)

def searchTree (key : K → Ordering) (n : NodeRef) : Code K V SearchResult :=
  searchTreeAt key n.height n

def firstLeafEdgeAt : Nat → NodeRef → Code K V Handle
  | 0, n => firstEdge n
  | h + 1, n => do firstLeafEdgeAt h (← descend (← firstEdge n))

def firstLeafEdge (n : NodeRef) : Code K V Handle := firstLeafEdgeAt n.height n

def lastLeafEdgeAt : Nat → NodeRef → Code K V Handle
  | 0, n => lastEdge n
  | h + 1, n => do lastLeafEdgeAt h (← descend (← lastEdge n))

def lastLeafEdge (n : NodeRef) : Code K V Handle := lastLeafEdgeAt n.height n

def nextLeafEdge (kv : Handle) : Code K V Handle := do
  if kv.node.height = 0 then
    rightEdge kv
  else
    firstLeafEdge (← descend (← rightEdge kv))

def nextBackLeafEdge (kv : Handle) : Code K V Handle := do
  if kv.node.height = 0 then
    leftEdge kv
  else
    lastLeafEdge (← descend (← leftEdge kv))

/-- Frees a node with the layout that its height calls for. -/
def deallocate (n : NodeRef) : Code K V Unit := do
  let node ← read n.node
  check (n.height = 0 ↔ node.edges = [])
  free n.node

def deallocateAndAscend (n : NodeRef) : Code K V (Option Handle) := do
  let ret ← ascend n
  deallocate n
  return ret

/-- The loops of `next_kv_unchecked_dealloc` and `next_back_kv_unchecked_dealloc`. -/
def adjacentKvDealloc (beside : Handle → Code K V (Option Handle)) : Nat → Handle → Code K V Handle
  | 0, _ => violation
  | fuel + 1, edge => do
    match ← beside edge with
    | some kv => return kv
    | none => adjacentKvDealloc beside fuel (← need (← deallocateAndAscend edge.node))

def nextKvUncheckedDealloc (edge : Handle) : Code K V Handle := do
  adjacentKvDealloc rightKv (← cellBound) edge

def nextBackKvUncheckedDealloc (edge : Handle) : Code K V Handle := do
  adjacentKvDealloc leftKv (← cellBound) edge

/-- `next_unchecked` of an owned tree. -/
def nextUncheckedOwned (edge : Handle) : Code K V (Handle × (K × V)) := do
  let kv ← nextKvUncheckedDealloc edge
  let pair ← intoKv kv
  return (← nextLeafEdge kv, pair)

def nextBackUncheckedOwned (edge : Handle) : Code K V (Handle × (K × V)) := do
  let kv ← nextBackKvUncheckedDealloc edge
  let pair ← intoKv kv
  return (← nextBackLeafEdge kv, pair)

/-- The loop that frees a node and all its ancestors. -/
def deallocateUpwards : Nat → NodeRef → Code K V Unit
  | 0, _ => violation
  | fuel + 1, n => do
    match ← deallocateAndAscend n with
    | some parent => deallocateUpwards fuel parent.node
    | none => return ()

def fullRangeAt : Nat → NodeRef → NodeRef → Code K V (Handle × Handle)
  | 0, minNode, maxNode => do
    return (← firstEdge minNode, ← lastEdge maxNode)
  | h + 1, minNode, maxNode => do
    let front ← firstEdge minNode
    let back ← lastEdge maxNode
    fullRangeAt h (← descend front) (← descend back)

def fullRange (root : NodeRef) : Code K V (Handle × Handle) := fullRangeAt root.height root root

end BTree
