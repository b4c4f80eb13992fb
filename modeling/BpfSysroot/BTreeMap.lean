import BpfSysroot.BTreeNavigate

/-!
# `BTreeMap`

`map.rs` and `map/entry.rs` of `alloc/src/collections/btree`. An operation that
changes the map returns the new one. A value that is handed out by reference is
given by its position. `IntoIter` frees the nodes on its way.
-/

namespace BTree

open CellHeap

variable {K V : Type}

def minLen : Nat := minLenAfterSplit

structure IntoIter where
  front : Option Handle
  back : Option Handle
  length : Nat

namespace IntoIter

def next (it : IntoIter) : Code K V (Option (K × V) × IntoIter) := do
  if it.length = 0 then
    return (none, it)
  else
    let (front, kv) ← nextUncheckedOwned (← need it.front)
    return (some kv, { it with front := some front, length := it.length - 1 })

def nextBack (it : IntoIter) : Code K V (Option (K × V) × IntoIter) := do
  if it.length = 0 then
    return (none, it)
  else
    let (back, kv) ← nextBackUncheckedOwned (← need it.back)
    return (some kv, { it with back := some back, length := it.length - 1 })

def call (front : Bool) (it : IntoIter) : Code K V (Option (K × V) × IntoIter) :=
  if front then it.next else it.nextBack

/-- Calls `next` (for `true`) and `next_back` (for `false`) in the order of the script. -/
def calls : List Bool → IntoIter → Code K V (List (Option (K × V)) × IntoIter)
  | [], it => return ([], it)
  | front :: script, it => do
    let (x, it) ← it.call front
    let (rest, it) ← calls script it
    return (x :: rest, it)

/-- Drops the pairs that are left; returns them, and the iterator with none. If the drop of a pair
panics, a guard goes on with the same loop. -/
def dropPairs : Nat → IntoIter → Code K V (List (K × V) × IntoIter)
  | 0, _ => violation
  | n + 1, it => do
    match ← it.next with
    | (some kv, it) => do
      let (dropped, it) ← dropPairs n it
      return (kv :: dropped, it)
    | (none, it) => return ([], it)

/-- Drops the iterator and returns the pairs that are dropped with it. One pile of nodes from a
leaf to the root is left standing after the pairs. -/
def drop (it : IntoIter) : Code K V (List (K × V)) := do
  let (dropped, it) ← dropPairs (it.length + 1) it
  match it.front with
  | some front =>
    deallocateUpwards (← cellBound) front.node
    return dropped
  | none => return dropped

end IntoIter

structure BTreeMap where
  root : Option NodeRef
  length : Nat

namespace BTreeMap

def new : BTreeMap := ⟨none, 0⟩

variable (m : BTreeMap)

/-- The root, which is allocated if it is not there yet. -/
def ensureIsOwned : Code K V NodeRef :=
  match m.root with
  | some root => pure root
  | none => newLeaf

def getKeyValue (key : K → Ordering) : Code K V (Option (K × V)) := do
  match m.root with
  | none => return none
  | some root =>
    match ← searchTree key root with
    | .found handle => return some (← intoKv handle)
    | .goDown _ => return none

inductive Entry (K : Type)
  | occupied (handle : Handle)
  | vacant (key : K) (handle : Handle)

/-- Also returns the map, whose root may have been allocated. -/
def entry (cmp : K → K → Ordering) (key : K) : Code K V (Entry K × BTreeMap) := do
  let root ← m.ensureIsOwned
  let m := { m with root := some root }
  match ← searchTree (cmp key) root with
  | .found handle => return (.occupied handle, m)
  | .goDown handle => return (.vacant key handle, m)

/-- `VacantEntry::insert`: the position of the new value, and the map. -/
def vacantInsert (handle : Handle) (key : K) (value : V) : Code K V (Handle × BTreeMap) := do
  match ← insertRecursing handle (key, value) with
  | (.fit _, valPtr) => return (valPtr, { m with length := m.length + 1 })
  | (.split ins, valPtr) =>
    let root ← pushInternalLevel (← need m.root)
    push root ins.kv ins.right
    return (valPtr, ⟨some root, m.length + 1⟩)

/-- `OccupiedEntry::insert`: the old value. -/
def occupiedInsert (handle : Handle) (value : V) : Code K V V := do
  let (key, old) ← intoKv handle
  let _ ← replaceKv handle (key, value)
  return old

def insert (cmp : K → K → Ordering) (key : K) (value : V) : Code K V (Option V × BTreeMap) := do
  let (entry, m) ← m.entry cmp key
  match entry with
  | .occupied handle => return (some (← occupiedInsert handle value), m)
  | .vacant key handle =>
    let (_, m) ← m.vacantInsert handle key value
    return (none, m)

def intoIter : Code K V IntoIter := do
  match m.root with
  | some root =>
    let (f, b) ← fullRange root
    return ⟨some f, some b, m.length⟩
  | none => return ⟨none, none, 0⟩

end BTreeMap
end BTree
