import BpfSysroot.HeapOrder

/-!
# `alloc::collections::BinaryHeap`

The heap is its backing vector. Sifting moves a `Hole` through the vector; the
hole's unchecked accesses are partial here, and `none` stands for an access
that the code may not make. Elements are compared by a lawful `Ord`, given by
`cmp`; equivalent elements need not be equal. The loops take fuel, and every
caller passes enough of it.
-/

namespace BinaryHeap

open SliceMemory HeapOrder

variable {T : Type}

/-- A slice with the element at `pos` taken out into `elt`. -/
structure Hole (T : Type) where
  data : List T
  elt : T
  pos : Nat

namespace Hole

def new (data : List T) (pos : Nat) : Option (Hole T) :=
  data[pos]?.map fun elt => ⟨data, elt, pos⟩

def get (hole : Hole T) (index : Nat) : Option T :=
  if index = hole.pos then none else hole.data[index]?

def moveTo (hole : Hole T) (index : Nat) : Option (Hole T) :=
  (hole.get index).map fun x => ⟨hole.data.set hole.pos x, hole.elt, index⟩

/-- `Drop for Hole`: the element goes back where the hole ended up. -/
def drop (hole : Hole T) : List T := hole.data.set hole.pos hole.elt

end Hole

section
variable (cmp : T → T → Ordering)

def siftUpLoop (start : Nat) : Nat → Hole T → Option (Hole T)
  | 0, _ => none
  | fuel + 1, hole =>
    if start < hole.pos then do
      let parent := (hole.pos - 1) / 2
      let above ← hole.get parent
      if (cmp hole.elt above).isLE then
        some hole
      else
        siftUpLoop start fuel (← hole.moveTo parent)
    else
      some hole

variable (data : List T)

/-- Returns the vector and the position where the element came to rest. -/
def siftUp (start pos : Nat) : Option (List T × Nat) := do
  let hole ← Hole.new data pos
  let hole ← siftUpLoop cmp start (pos + 1) hole
  some (hole.drop, hole.pos)

/-- `child += (hole.get(child) <= hole.get(child + 1)) as usize`. -/
def greaterChild (hole : Hole T) (child : Nat) : Option Nat := do
  let left ← hole.get child
  let right ← hole.get (child + 1)
  some (if (cmp left right).isLE then child + 1 else child)

def siftDownRangeLoop (last : Nat) : Nat → Hole T → Nat → Option (Hole T)
  | 0, _, _ => none
  | fuel + 1, hole, child =>
    if child < last then do
      let child ← greaterChild cmp hole child
      let below ← hole.get child
      if (cmp hole.elt below).isGE then
        some hole
      else
        let hole ← hole.moveTo child
        siftDownRangeLoop last fuel hole (2 * hole.pos + 1)
    else if child = last then do
      let below ← hole.get child
      if (cmp hole.elt below).isLT then hole.moveTo child else some hole
    else
      some hole

/-- `end - 1` is computed on `usize`; every caller passes `end > 0`. -/
def siftDownRange (pos end_ : Nat) : Option (List T) := do
  let hole ← Hole.new data pos
  if end_ = 0 then none
  let hole ← siftDownRangeLoop cmp (end_ - 1) end_ hole (2 * pos + 1)
  some hole.drop

def siftDown (pos : Nat) : Option (List T) :=
  siftDownRange cmp data pos data.length

def siftDownToBottomLoop (last : Nat) : Nat → Hole T → Nat → Option (Hole T)
  | 0, _, _ => none
  | fuel + 1, hole, child =>
    if child < last then do
      let child ← greaterChild cmp hole child
      let hole ← hole.moveTo child
      siftDownToBottomLoop last fuel hole (2 * hole.pos + 1)
    else if child = last then
      hole.moveTo child
    else
      some hole

def siftDownToBottom (pos : Nat) : Option (List T) := do
  let end_ := data.length
  let start := pos
  let hole ← Hole.new data pos
  let hole ← siftDownToBottomLoop cmp (end_ - 1) end_ hole (2 * pos + 1)
  let r ← siftUp cmp hole.drop start hole.pos
  some r.1

def rebuildLoop : Nat → List T → Option (List T)
  | 0, data => some data
  | n + 1, data => do
    let data ← siftDown cmp data n
    rebuildLoop n data

def rebuild : Option (List T) := rebuildLoop cmp (data.length / 2) data

/-- `From<Vec<T>>`. -/
def fromVec (vec : List T) : Option (List T) := rebuild cmp vec

def peek : Option T := data[0]?

def push (item : T) : Option (List T) := do
  let oldLen := data.length
  let r ← siftUp cmp (data ++ [item]) 0 oldLen
  some r.1

/-- `Vec::pop` takes the last element; it trades places with the root. -/
def pop : Option (Option T × List T) :=
  match data.getLast? with
  | none => some (none, data)
  | some item =>
    match data.dropLast with
    | [] => some (some item, [])
    | root :: rest => do
      let data ← siftDownToBottom cmp (item :: rest) 0
      some (some root, data)

structure PeekMut (T : Type) where
  heap : List T
  sift : Bool

def peekMut : Option (PeekMut T) :=
  if data.length = 0 then none else some ⟨data, false⟩

/-- `DerefMut` marks the guard before the top element is edited. -/
def PeekMut.edit (guard : PeekMut T) (f : T → T) : PeekMut T :=
  ⟨guard.heap.modify 0 f, true⟩

def PeekMut.drop (guard : PeekMut T) : Option (List T) :=
  if guard.sift then siftDown cmp guard.heap 0 else some guard.heap

/-- `PeekMut::pop` clears `sift`, so that the drop that follows does nothing. -/
def PeekMut.pop (guard : PeekMut T) : Option (T × List T) := do
  let r ← BinaryHeap.pop cmp guard.heap
  let value ← r.1
  let heap ← PeekMut.drop cmp ⟨r.2, false⟩
  some (value, heap)

def extend (data : List T) : List T → Option (List T)
  | [] => some data
  | elem :: iter => do
    let data ← push cmp data elem
    extend data iter

def log2Fast (x : Nat) : Nat := Nat.log2 x

def betterToRebuild (len1 len2 : Nat) : Bool :=
  2 * (len1 + len2) < len2 * log2Fast len1

/-- Returns `self` and `other` as the call leaves them. -/
def append (self other : List T) : Option (List T × List T) :=
  let (self, other) := if self.length < other.length then (other, self) else (self, other)
  if other.length = 0 then
    some (self, other)
  else if betterToRebuild self.length other.length then do
    let data ← rebuild cmp (self ++ other)
    some (data, [])
  else do
    let data ← extend cmp self other
    some (data, [])

/-- `Vec::retain` with a predicate that carries a state. -/
def retainVec {S : Type} (f : S → T → Bool × S) : S → List T → List T
  | _, [] => []
  | s, x :: rest =>
    if (f s x).1 then x :: retainVec f (f s x).2 rest else retainVec f (f s x).2 rest

def retain {S : Type} (f : S → T → Bool × S) (s : S) (data : List T) : Option (List T) :=
  rebuild cmp (retainVec f s data)

def intoSortedVecLoop : Nat → List T → Option (List T)
  | 0, data => some data
  | end_ + 1, data =>
    if end_ = 0 then
      some data
    else do
      let data ← siftDownRange cmp (swap data 0 end_) 0 end_
      intoSortedVecLoop end_ data

def intoSortedVec : Option (List T) := intoSortedVecLoop cmp data.length data

end

namespace Hole
variable (d : T) {hole : Hole T}

lemma length_drop : hole.drop.length = hole.data.length := by simp [drop]

lemma view_drop_pos (hp : hole.pos < hole.data.length) : view d hole.drop hole.pos = hole.elt := by
  rw [drop, view_set d _ hp, if_pos rfl]

lemma get_eq {index : Nat} (hp : hole.pos < hole.data.length)
    (hi : index < hole.data.length) (hne : index ≠ hole.pos) :
    hole.get index = some (view d hole.drop index) := by
  rw [get, if_neg hne, getElem?_eq_view d hi, drop, view_set d _ hp, if_neg hne]

/-- Moving the hole exchanges two elements of the slice that dropping it leaves. -/
lemma moveTo_eq {n index : Nat} (hn : n ≤ hole.data.length) (hp : hole.pos < n)
    (hi : index < n) (hne : index ≠ hole.pos) :
    ∃ hole', hole.moveTo index = some hole' ∧ hole'.pos = index ∧
      hole'.data.length = hole.data.length ∧ SwapsBelow n hole.drop hole'.drop ∧
      view d hole'.drop = swapAt (view d hole.drop) hole.pos index := by
  have hget := get_eq d (hp.trans_le hn) (hi.trans_le hn) hne
  have hp' : hole.pos < hole.drop.length := by
    rw [length_drop]
    omega
  have hi' : index < hole.drop.length := by
    rw [length_drop]
    omega
  have hswap : (Hole.mk (hole.data.set hole.pos (view d hole.drop index)) hole.elt index).drop =
      swap hole.drop hole.pos index := by
    rw [swap, getElem?_eq_view d hp', getElem?_eq_view d hi', view_drop_pos d (hp.trans_le hn)]
    simp [drop]
  refine ⟨_, by rw [moveTo, hget]; rfl, rfl, by simp, ?_, ?_⟩
  · rw [hswap]
    exact .head hp hi (.refl _)
  · rw [hswap, view_swap d hp' hi']

lemma new_eq {data : List T} {pos : Nat} (hp : pos < data.length) :
    ∃ hole, Hole.new data pos = some hole ∧ hole.pos = pos ∧
      hole.data = data ∧ hole.drop = data := by
  refine ⟨⟨data, data[pos], pos⟩, by simp [Hole.new, hp], rfl, rfl, ?_⟩
  simp [drop]

end Hole

section
variable (cmp : T → T → Ordering) [Std.TransCmp cmp] {x y : T}

/-- The order that `cmp` decides. -/
def Le (x y : T) : Prop := (cmp x y).isLE = true

lemma le_refl (x : T) : Le cmp x x := by simp [Le, Std.ReflCmp.compare_self]

lemma le_trans (x y z : T) (hxy : Le cmp x y) (hyz : Le cmp y z) : Le cmp x z :=
  Std.TransCmp.isLE_trans hxy hyz

lemma le_of_not_le (h : ¬ Le cmp x y) : Le cmp y x := by
  rw [Le, @Std.OrientedCmp.eq_swap _ cmp _ y x]
  simp only [Le] at h
  cases hc : cmp x y <;> simp_all

lemma le_of_isGE (h : (cmp x y).isGE) : Le cmp y x := by
  rw [Le, @Std.OrientedCmp.eq_swap _ cmp _ y x]
  cases hc : cmp x y <;> simp_all

omit [Std.TransCmp cmp] in
lemma le_of_not_isGE {x y : T} (h : ¬ (cmp x y).isGE) : Le cmp x y := by
  rw [Le]
  cases hc : cmp x y <;> simp_all

omit [Std.TransCmp cmp] in
lemma le_of_isLT {x y : T} (h : (cmp x y).isLT) : Le cmp x y := by
  rw [Le]
  cases hc : cmp x y <;> simp_all

lemma le_of_not_isLT (h : ¬ (cmp x y).isLT) : Le cmp y x := by
  apply le_of_isGE cmp
  cases hc : cmp x y <;> simp_all

lemma siftUpLoop_spec (d : T) (fuel : Nat) (hole : Hole T)
    (hp : hole.pos < hole.data.length) (enough : hole.pos < fuel)
    (up : UpOpen (Le cmp) (view d hole.drop) hole.data.length hole.pos) :
    ∃ hole', siftUpLoop cmp 0 fuel hole = some hole' ∧
      SwapsBelow hole.data.length hole.drop hole'.drop ∧
      Ordered (Le cmp) (view d hole'.drop) 0 hole.data.length := by
  induction fuel generalizing hole with
  | zero => omega
  | succ fuel ih =>
    by_cases hpos : 0 < hole.pos
    · have hlt : (hole.pos - 1) / 2 < hole.data.length := by omega
      have hne : (hole.pos - 1) / 2 ≠ hole.pos := by omega
      have helt := Hole.view_drop_pos d hp
      simp only [siftUpLoop, if_pos hpos, Hole.get_eq d hp hlt hne, Option.bind_eq_bind,
        Option.bind_some]
      by_cases hle : (cmp hole.elt (view d hole.drop ((hole.pos - 1) / 2))).isLE
      · rw [if_pos hle]
        refine ⟨hole, rfl, .refl _, up.stop ?_⟩
        intro _ _
        rwa [helt]
      · obtain ⟨hole', hmove, hpos', hlen', hswap, hview⟩ := Hole.moveTo_eq d le_rfl hp hlt hne
        rw [if_neg hle, hmove]
        have up' := up.step (le_trans cmp) hpos hp (by rw [helt]; exact le_of_not_le cmp hle)
        obtain ⟨hole'', hrun, hswaps, hord⟩ := ih hole' (by omega) (by omega) (by
          rw [hview, hlen', hpos']
          exact up')
        rw [hlen'] at hswaps hord
        exact ⟨hole'', hrun, hswap.trans hswaps, hord⟩
    · rw [siftUpLoop, if_neg hpos]
      exact ⟨hole, rfl, .refl _, up.stop (fun h => absurd h hpos)⟩

lemma siftUp_spec (d : T) (data : List T) (pos : Nat) (hp : pos < data.length)
    (up : UpOpen (Le cmp) (view d data) data.length pos) :
    ∃ r, siftUp cmp data 0 pos = some r ∧ SwapsBelow data.length data r.1 ∧
      Ordered (Le cmp) (view d r.1) 0 data.length := by
  obtain ⟨hole, hnew, hpos, hdata, hdrop⟩ := Hole.new_eq hp
  obtain ⟨hole', hrun, hswaps, hord⟩ := siftUpLoop_spec cmp d (pos + 1) hole
    (by rw [hpos, hdata]; exact hp) (by omega) (by rwa [hpos, hdata, hdrop])
  rw [hdata, hdrop] at hswaps
  rw [hdata] at hord
  refine ⟨(hole'.drop, hole'.pos), ?_, hswaps, hord⟩
  simp [siftUp, hnew, hrun]

lemma greaterChild_spec (d : T) (hole : Hole T) {n : Nat} (hn : n ≤ hole.data.length)
    (hc : 2 * hole.pos + 1 < n - 1) :
    ∃ c, greaterChild cmp hole (2 * hole.pos + 1) = some c ∧
      GreatestChild (Le cmp) (view d hole.drop) n hole.pos c := by
  have hp : hole.pos < hole.data.length := by omega
  have hleft := Hole.get_eq d hp (show 2 * hole.pos + 1 < hole.data.length by omega) (by omega)
  have hright := Hole.get_eq d hp (show 2 * hole.pos + 1 + 1 < hole.data.length by omega)
    (by omega)
  simp only [greaterChild, hleft, hright, Option.bind_eq_bind, Option.bind_some]
  refine ⟨_, rfl, ?_⟩
  split
  next hle =>
    exact greatestChild_right (le_refl cmp) (by omega) hle
  next hle =>
    exact greatestChild_left (le_refl cmp) (by omega) fun _ => le_of_not_le cmp hle

lemma lastChild_greatest (a : Nat → T) {n p : Nat} (hc : 2 * p + 1 = n - 1) (hn : 0 < n) :
    GreatestChild (Le cmp) a n p (2 * p + 1) :=
  greatestChild_left (le_refl cmp) (by omega) fun h => by omega

lemma siftDownRangeLoop_spec (d : T) (lo n fuel : Nat) (hole : Hole T)
    (hn : n ≤ hole.data.length) (hp : hole.pos < n) (hlo : lo ≤ hole.pos)
    (enough : n ≤ fuel + hole.pos) (down : DownOpen (Le cmp) (view d hole.drop) lo n hole.pos) :
    ∃ hole', siftDownRangeLoop cmp (n - 1) fuel hole (2 * hole.pos + 1) = some hole' ∧
      hole'.data.length = hole.data.length ∧ SwapsBelow n hole.drop hole'.drop ∧
      Ordered (Le cmp) (view d hole'.drop) lo n := by
  induction fuel generalizing hole with
  | zero => omega
  | succ fuel ih =>
    have hpl : hole.pos < hole.data.length := by omega
    have helt := Hole.view_drop_pos d hpl
    by_cases hchild : 2 * hole.pos + 1 < n - 1
    · obtain ⟨c, hgreater, hgc⟩ := greaterChild_spec cmp d hole hn hchild
      have hgt := hgc.lt
      have hci := hgc.inside
      simp only [siftDownRangeLoop, if_pos hchild, hgreater, Option.bind_eq_bind,
        Option.bind_some, Hole.get_eq d hpl (show c < hole.data.length by omega) (by omega)]
      by_cases hge : (cmp hole.elt (view d hole.drop c)).isGE
      · rw [if_pos hge]
        refine ⟨hole, rfl, rfl, .refl _, down.stop ?_⟩
        intro i hi hin hpar
        rw [helt]
        exact le_trans cmp _ _ _ (hgc.greatest i hi hin hpar) (le_of_isGE cmp hge)
      · obtain ⟨hole', hmove, hpos', hlen', hswaps, hview⟩ := Hole.moveTo_eq d hn hp hci hgt.ne'
        have down' := down.step hgc hlo (by rw [helt]; exact le_of_not_isGE cmp hge)
        rw [if_neg hge, hmove]
        obtain ⟨hole'', hrun, hlen'', hswaps', hord⟩ := ih hole' (by omega) (by omega)
          (by omega) (by omega) (by rwa [hview, hpos'])
        exact ⟨hole'', hrun, by omega, hswaps.trans hswaps', hord⟩
    · by_cases hlast : 2 * hole.pos + 1 = n - 1
      · have hgc := lastChild_greatest cmp (view d hole.drop) hlast (by omega)
        simp only [siftDownRangeLoop, if_neg hchild, if_pos hlast, Option.bind_eq_bind,
          Option.bind_some, Hole.get_eq d hpl
            (show 2 * hole.pos + 1 < hole.data.length by omega) (by omega)]
        by_cases hlt : (cmp hole.elt (view d hole.drop (2 * hole.pos + 1))).isLT
        · obtain ⟨hole', hmove, _, hlen', hswaps, hview⟩ :=
            Hole.moveTo_eq d hn hp hgc.inside hgc.lt.ne'
          have down' := down.step hgc hlo (by rw [helt]; exact le_of_isLT cmp hlt)
          rw [if_pos hlt]
          refine ⟨hole', hmove, hlen', hswaps, hview ▸ down'.stop ?_⟩
          intro i hi hin hpar
          rw [parent] at hpar
          omega
        · rw [if_neg hlt]
          refine ⟨hole, rfl, rfl, .refl _, down.stop ?_⟩
          intro i hi hin hpar
          rw [helt]
          exact le_trans cmp _ _ _ (hgc.greatest i hi hin hpar) (le_of_not_isLT cmp hlt)
      · rw [siftDownRangeLoop, if_neg hchild, if_neg hlast]
        refine ⟨hole, rfl, rfl, .refl _, down.stop ?_⟩
        intro i hi hin hpar
        rw [parent] at hpar
        omega

lemma siftDownRange_spec (d : T) (data : List T) {pos lo n : Nat} (hn : n ≤ data.length)
    (hp : pos < n) (hlo : lo ≤ pos) (down : DownOpen (Le cmp) (view d data) lo n pos) :
    ∃ data', siftDownRange cmp data pos n = some data' ∧ SwapsBelow n data data' ∧
      Ordered (Le cmp) (view d data') lo n := by
  obtain ⟨hole, hnew, hpos, hdata, hdrop⟩ := Hole.new_eq (show pos < data.length by omega)
  obtain ⟨hole', hrun, _, hswaps, hord⟩ := siftDownRangeLoop_spec cmp d lo n n hole
    (by rwa [hdata]) (by omega) (by omega) (by omega) (by rwa [hpos, hdrop])
  rw [hdrop] at hswaps
  refine ⟨hole'.drop, ?_, hswaps, hord⟩
  have hn0 : n ≠ 0 := by omega
  rw [hpos] at hrun
  simp [siftDownRange, hnew, hrun, hn0]

lemma siftDownToBottomLoop_spec (d : T) (fuel : Nat) (hole : Hole T)
    (hp : hole.pos < hole.data.length) (enough : hole.data.length ≤ fuel + hole.pos)
    (both : BothOpen (Le cmp) (view d hole.drop) hole.data.length hole.pos) :
    ∃ hole', siftDownToBottomLoop cmp (hole.data.length - 1) fuel hole (2 * hole.pos + 1) =
        some hole' ∧
      hole'.data.length = hole.data.length ∧ hole'.pos < hole.data.length ∧
      SwapsBelow hole.data.length hole.drop hole'.drop ∧
      UpOpen (Le cmp) (view d hole'.drop) hole.data.length hole'.pos := by
  induction fuel generalizing hole with
  | zero => omega
  | succ fuel ih =>
    by_cases hchild : 2 * hole.pos + 1 < hole.data.length - 1
    · obtain ⟨c, hgreater, hgc⟩ := greaterChild_spec cmp d hole le_rfl hchild
      have hgt := hgc.lt
      have hci := hgc.inside
      obtain ⟨hole', hmove, hpos', hlen', hswaps, hview⟩ := Hole.moveTo_eq d le_rfl hp hci hgt.ne'
      simp only [siftDownToBottomLoop, if_pos hchild, hgreater, Option.bind_eq_bind,
        Option.bind_some, hmove]
      obtain ⟨hole'', hrun, hlen'', hpos'', hswaps', up⟩ := ih hole' (by omega) (by omega)
        (by rw [hview, hpos', hlen']; exact both.step hgc)
      rw [hlen'] at hrun hswaps' up
      exact ⟨hole'', hrun, by omega, by omega, hswaps.trans hswaps', up⟩
    · by_cases hlast : 2 * hole.pos + 1 = hole.data.length - 1
      · have hgc := lastChild_greatest cmp (view d hole.drop) hlast (by omega)
        obtain ⟨hole', hmove, hpos', hlen', hswaps, hview⟩ :=
          Hole.moveTo_eq d le_rfl hp hgc.inside hgc.lt.ne'
        rw [siftDownToBottomLoop, if_neg hchild, if_pos hlast]
        refine ⟨hole', hmove, hlen', by omega, hswaps, ?_⟩
        rw [hview, hpos']
        exact (both.step hgc).upOpen (by omega)
      · rw [siftDownToBottomLoop, if_neg hchild, if_neg hlast]
        exact ⟨hole, rfl, rfl, hp, .refl _, both.upOpen (by omega)⟩

lemma siftDownToBottom_spec (d : T) (data : List T) (hn : 0 < data.length)
    (both : BothOpen (Le cmp) (view d data) data.length 0) :
    ∃ data', siftDownToBottom cmp data 0 = some data' ∧ SwapsBelow data.length data data' ∧
      Ordered (Le cmp) (view d data') 0 data.length := by
  obtain ⟨hole, hnew, hpos, hdata, hdrop⟩ := Hole.new_eq hn
  obtain ⟨hole', hrun, hlen', hpos', hswaps, up⟩ := siftDownToBottomLoop_spec cmp d data.length
    hole (by rwa [hpos, hdata]) (by rw [hdata]; omega) (by rwa [hpos, hdata, hdrop])
  rw [hdata, hdrop] at hswaps
  rw [hdata] at hlen' hpos' up
  have hld : hole'.drop.length = data.length := by rw [Hole.length_drop, hlen']
  obtain ⟨r, hup, hswaps', hord⟩ := siftUp_spec cmp d hole'.drop hole'.pos (by rwa [hld])
    (by rwa [hld])
  rw [hld] at hswaps' hord
  rw [hpos, hdata] at hrun
  refine ⟨r.1, ?_, hswaps.trans hswaps', hord⟩
  simp [siftDownToBottom, hnew, hrun, hup]

end

variable (cmp : T → T → Ordering)

/-- Every element of the backing vector is at most its parent. -/
def HeapOrdered (data : List T) : Prop :=
  ∀ i x y, 0 < i → data[i]? = some x → data[(i - 1) / 2]? = some y → Le cmp x y

lemma heapOrdered_iff (d : T) (data : List T) :
    HeapOrdered cmp data ↔ Ordered (Le cmp) (view d data) 0 data.length := by
  constructor
  · intro h i hi hin _
    exact h i _ _ hi (getElem?_eq_view d hin) (getElem?_eq_view d (by omega))
  · intro h i x y hi hx hy
    obtain ⟨hin, rfl⟩ := List.getElem?_eq_some_iff.mp hx
    obtain ⟨hpin, rfl⟩ := List.getElem?_eq_some_iff.mp hy
    rw [getElem_eq_view d hin, getElem_eq_view d hpin]
    exact h i hi hin (Nat.zero_le _)

variable [Std.TransCmp cmp] {data : List T} {rest : List T}

lemma HeapOrdered.le_head {root : T} (h : HeapOrdered cmp (root :: rest)) :
    ∀ x ∈ root :: rest, Le cmp x root := by
  intro x hx
  obtain ⟨i, hi, rfl⟩ := List.getElem_of_mem hx
  have hle := ((heapOrdered_iff cmp root _).mp h).le_root (le_refl cmp) (le_trans cmp) i hi
  rw [getElem_eq_view root hi]
  exact hle

lemma push_spec (h : HeapOrdered cmp data) (item : T) :
    ∃ data', push cmp data item = some data' ∧ HeapOrdered cmp data' ∧
      data'.Perm (item :: data) := by
  have hup : UpOpen (Le cmp) (view item (data ++ [item])) (data.length + 1) data.length :=
    ((heapOrdered_iff cmp item data).mp h).upOpen_last
      (fun i hi => view_append_left item hi)
  obtain ⟨r, hrun, hswaps, hord⟩ := siftUp_spec cmp item (data ++ [item]) data.length (by simp)
    (by simpa using hup)
  refine ⟨r.1, by simp [push, hrun], (heapOrdered_iff cmp item _).mpr ?_, ?_⟩
  · rwa [hswaps.length_eq]
  · exact hswaps.perm.trans (List.perm_append_singleton item data)

/-- `pop` needs no order between the root and the rest, only that some root would fit. -/
lemma pop_spec {root x : T} (h : HeapOrdered cmp (root :: rest)) :
    ∃ data', pop cmp (x :: rest) = some (some x, data') ∧ HeapOrdered cmp data' ∧
      data'.Perm rest := by
  rcases List.eq_nil_or_concat rest with rfl | ⟨init, item, rfl⟩
  · refine ⟨[], by simp [pop], ?_, List.Perm.refl _⟩
    intro i y z hi hy
    simp at hy
  · rw [List.concat_eq_append] at h ⊢
    have hord := ((heapOrdered_iff cmp root _).mp h).mono (Nat.le_refl 0)
      (show (item :: init).length ≤ (root :: (init ++ [item])).length by simp)
    have same : ∀ i, 0 < i → i < (item :: init).length →
        view root (item :: init) i = view root (root :: (init ++ [item])) i := by
      intro i hi hin
      obtain ⟨k, rfl⟩ := Nat.exists_eq_add_of_lt hi
      exact (view_append_left root (by omega)).symm
    obtain ⟨data', hrun, hswaps, hord'⟩ := siftDownToBottom_spec cmp root (item :: init)
      (by simp) (hord.bothOpen_root same)
    refine ⟨data', ?_, (heapOrdered_iff cmp root _).mpr ?_, ?_⟩
    · have hlast : (x :: (init ++ [item])).getLast? = some item := by
        rw [← List.cons_append]
        exact List.getLast?_concat
      have hinit : (x :: (init ++ [item])).dropLast = x :: init := by
        rw [← List.cons_append, List.dropLast_concat]
      simp [pop, hlast, hinit, hrun]
    · rwa [hswaps.length_eq]
    · exact hswaps.perm.trans (List.perm_append_singleton item init).symm

lemma siftDown_root_spec {root x : T} (h : HeapOrdered cmp (root :: rest)) :
    ∃ data', siftDown cmp (x :: rest) 0 = some data' ∧ HeapOrdered cmp data' ∧
      data'.Perm (x :: rest) := by
  have hord := (heapOrdered_iff cmp root _).mp h
  have same : ∀ i, 0 < i → i < (root :: rest).length →
      view root (x :: rest) i = view root (root :: rest) i := by
    intro i hi _
    obtain ⟨k, rfl⟩ := Nat.exists_eq_add_of_lt hi
    simp [view]
  obtain ⟨data', hrun, hswaps, hord'⟩ := siftDownRange_spec cmp root (x :: rest)
    le_rfl (by simp) (Nat.le_refl 0) (hord.downOpen_root same)
  refine ⟨data', hrun, (heapOrdered_iff cmp root _).mpr ?_, hswaps.perm⟩
  rwa [hswaps.length_eq]

lemma rebuildLoop_spec (d : T) (n : Nat) (data : List T) (hn : n ≤ data.length)
    (h : Ordered (Le cmp) (view d data) n data.length) :
    ∃ data', rebuildLoop cmp n data = some data' ∧ SwapsBelow data.length data data' ∧
      Ordered (Le cmp) (view d data') 0 data.length := by
  induction n generalizing data with
  | zero => exact ⟨data, rfl, .refl _, h⟩
  | succ n ih =>
    obtain ⟨data1, hrun, hswaps, hord⟩ := siftDownRange_spec cmp d data le_rfl
      (show n < data.length by omega) (Nat.le_refl n) h.downOpen
    have hlen := hswaps.length_eq
    obtain ⟨data2, hrun', hswaps', hord'⟩ := ih data1 (by omega) (by rwa [hlen])
    rw [hlen] at hswaps' hord'
    refine ⟨data2, ?_, hswaps.trans hswaps', hord'⟩
    simp [rebuildLoop, siftDown, hrun, hrun']

lemma rebuild_spec (data : List T) :
    ∃ data', rebuild cmp data = some data' ∧ HeapOrdered cmp data' ∧ data'.Perm data := by
  cases data with
  | nil =>
    refine ⟨[], by simp [rebuild, rebuildLoop], ?_, List.Perm.refl _⟩
    intro i y z hi hy
    simp at hy
  | cons d rest =>
    obtain ⟨data', hrun, hswaps, hord⟩ := rebuildLoop_spec cmp d ((d :: rest).length / 2)
      (d :: rest) (by omega) (ordered_half _ _)
    refine ⟨data', hrun, (heapOrdered_iff cmp d _).mpr ?_, hswaps.perm⟩
    rwa [hswaps.length_eq]

lemma extend_spec (h : HeapOrdered cmp data) (items : List T) :
    ∃ data', extend cmp data items = some data' ∧ HeapOrdered cmp data' ∧
      data'.Perm (data ++ items) := by
  induction items generalizing data with
  | nil => exact ⟨data, rfl, h, by simp⟩
  | cons item items ih =>
    obtain ⟨data1, hpush, hord, hperm⟩ := push_spec cmp h item
    obtain ⟨data2, hrun, hord', hperm'⟩ := ih hord
    refine ⟨data2, by simp [extend, hpush, hrun], hord', hperm'.trans ?_⟩
    exact (hperm.append_right items).trans List.perm_middle.symm

lemma append_spec {self other : List T} (h : HeapOrdered cmp self) (h' : HeapOrdered cmp other) :
    ∃ data, append cmp self other = some (data, []) ∧ HeapOrdered cmp data ∧
      data.Perm (self ++ other) := by
  -- both ways of joining, for a longer and a shorter heap
  have join : ∀ a b : List T, HeapOrdered cmp a →
      ∃ data, (if b.length = 0 then some (a, b)
        else if betterToRebuild a.length b.length = true then do
          let data ← rebuild cmp (a ++ b)
          some (data, [])
        else do
          let data ← extend cmp a b
          some (data, [])) = some (data, []) ∧
        HeapOrdered cmp data ∧ data.Perm (a ++ b) := by
    intro a b ha
    by_cases hb : b.length = 0
    · have hnil := List.eq_nil_of_length_eq_zero hb
      subst b
      exact ⟨a, by simp, ha, by simp⟩
    · rw [if_neg hb]
      split
      · obtain ⟨data, hrun, hord, hperm⟩ := rebuild_spec cmp (a ++ b)
        exact ⟨data, by simp [hrun], hord, hperm⟩
      · obtain ⟨data, hrun, hord, hperm⟩ := extend_spec cmp ha b
        exact ⟨data, by simp [hrun], hord, hperm⟩
  by_cases hlt : self.length < other.length
  · obtain ⟨data, hrun, hord, hperm⟩ := join other self h'
    refine ⟨data, ?_, hord, hperm.trans List.perm_append_comm⟩
    simpa only [append, if_pos hlt] using hrun
  · obtain ⟨data, hrun, hord, hperm⟩ := join self other h
    refine ⟨data, ?_, hord, hperm⟩
    simpa only [append, if_neg hlt] using hrun

/-- The part from `m` on is in its final order and above the heap before it. -/
structure SortedFrom (d : T) (data : List T) (m : Nat) : Prop where
  heap : Ordered (Le cmp) (view d data) 0 m
  above : ∀ j, m ≤ j → j < data.length → ∀ i, i < m → Le cmp (view d data i) (view d data j)
  sorted : ∀ i j, m ≤ i → i < j → j < data.length → Le cmp (view d data i) (view d data j)

omit [Std.TransCmp cmp] in
lemma SortedFrom.pairwise {d : T} {data : List T} {m : Nat} (h : SortedFrom cmp d data m)
    (hm : m ≤ 1) : data.Pairwise (Le cmp) := by
  rw [List.pairwise_iff_getElem]
  intro i j hi hj hij
  rw [getElem_eq_view d hi, getElem_eq_view d hj]
  by_cases him : m ≤ i
  · exact h.sorted i j him hij hj
  · exact h.above j (by omega) hj i (by omega)

/-- Exchanging the root with the end of the heap adds the root to the sorted part. -/
lemma SortedFrom.step {d : T} {m : Nat} (h : SortedFrom cmp d data (m + 1))
    (hm : 0 < m) (hlen : m < data.length) :
    ∃ data', siftDownRange cmp (swap data 0 m) 0 m = some data' ∧
      SwapsBelow (m + 1) data data' ∧ SortedFrom cmp d data' m := by
  have h0 : 0 < data.length := by omega
  have hview := view_swap d h0 hlen
  have below : ∀ i < m + 1, Le cmp (view d data i) (view d data 0) :=
    h.heap.le_root (le_refl cmp) (le_trans cmp)
  have same : ∀ i, 0 < i → i < m → view d (swap data 0 m) i = view d data i := by
    intro i hi him
    rw [hview]
    exact swapAt_of_ne _ (by omega) (by omega)
  have down := (h.heap.mono (Nat.le_refl 0) (Nat.le_succ m)).downOpen_root same
  obtain ⟨data', hrun, hswaps, hord⟩ := siftDownRange_spec cmp d (swap data 0 m)
    (by simp; omega) hm (Nat.le_refl 0) down
  have hlen' : data'.length = data.length := by rw [hswaps.length_eq, length_swap]
  have tail : ∀ k, m ≤ k → view d data' k = if k = m then view d data 0 else view d data k := by
    intro k hk
    rw [hswaps.view_of_ge d (by simp; omega) k hk, hview]
    split
    next heq =>
      rw [heq, swapAt_right]
    · exact swapAt_of_ne _ (by omega) (by omega)
  -- before the sift every position of the heap part holds an element of the old heap
  have old : ∀ i < m, ∃ i' < m + 1, view d data' i = view d data i' := by
    refine hswaps.forall_view d (by simp; omega)
      (P := fun x => ∃ i' < m + 1, x = view d data i') ?_
    intro i him
    by_cases hi0 : i = 0
    · subst i
      exact ⟨m, by omega, by rw [hview, swapAt_left]⟩
    · exact ⟨i, by omega, same i (by omega) him⟩
  refine ⟨data', hrun, .head (by omega) (by omega) (hswaps.mono (by omega)), hord, ?_, ?_⟩
  · intro j hmj hj i him
    obtain ⟨i', hi', heq⟩ := old i him
    rw [heq, tail j hmj]
    split
    · exact below i' hi'
    · exact h.above j (by omega) (by omega) i' hi'
  · intro i j hmi hij hj
    rw [tail i hmi, tail j (by omega), if_neg (show j ≠ m by omega)]
    split
    · exact h.above j (by omega) (by omega) 0 (by omega)
    · exact h.sorted i j (by omega) hij (by omega)

lemma intoSortedVecLoop_spec (d : T) (m : Nat) (data : List T) (hm : m ≤ data.length)
    (h : SortedFrom cmp d data m) :
    ∃ data', intoSortedVecLoop cmp m data = some data' ∧ data'.Perm data ∧
      data'.Pairwise (Le cmp) := by
  induction m generalizing data with
  | zero => exact ⟨data, rfl, .refl _, h.pairwise cmp (by omega)⟩
  | succ m ih =>
    by_cases hm0 : m = 0
    · subst m
      exact ⟨data, by simp [intoSortedVecLoop], .refl _, h.pairwise cmp (by omega)⟩
    · obtain ⟨data1, hrun, hswaps, hnext⟩ := h.step cmp (by omega) (by omega)
      have hlen := hswaps.length_eq
      obtain ⟨data2, hrun', hperm, hsorted⟩ := ih data1 (by omega) hnext
      refine ⟨data2, ?_, hperm.trans hswaps.perm, hsorted⟩
      simp [intoSortedVecLoop, hm0, hrun, hrun']

lemma intoSortedVec_spec (h : HeapOrdered cmp data) :
    ∃ data', intoSortedVec cmp data = some data' ∧ data'.Perm data ∧
      data'.Pairwise (Le cmp) := by
  cases data with
  | nil => exact ⟨[], rfl, .refl _, List.Pairwise.nil⟩
  | cons d rest =>
    refine intoSortedVecLoop_spec cmp d _ _ le_rfl ⟨(heapOrdered_iff cmp d _).mp h, ?_, ?_⟩
    · omega
    · omega

end BinaryHeap
