import BpfSysroot.HeapOrder
import BpfSysroot.InsertionSort

/-!
# Heapsort of the slice sorting module

`heapsort` of `core/slice/sort.rs`, the fallback of the unstable sort. All its
indices are checked ones, so an index out of range would be a panic of its own;
it is a fault here and never happens.
-/

namespace Heapsort

open Unwinding Unwinding.Exec Arrangement InsertionSort HeapOrder SliceMemory
variable {S T : Type} {isLess : Comparator S T} {lt : T → T → Bool}

def greaterChild (isLess : Comparator S T) (node : Nat) (v : List T) (s : S) :
    Exec (List T) S Nat :=
  let left := 2 * node + 1
  let right := 2 * node + 2
  if right < v.length then
    require v[left]? fun x => require v[right]? fun y =>
    (ask isLess v s x y).bind fun v s less => .ok v s (if less then right else left)
  else .ok v s left

def siftDown (isLess : Comparator S T) : Nat → Nat → List T → S → Exec (List T) S Unit
  | 0, _, _, _ => .fault
  | n + 1, node, v, s =>
    (greaterChild isLess node v s).bind fun v s greater =>
    if v.length ≤ greater then .ok v s ()
    else
      require v[node]? fun x => require v[greater]? fun y =>
      (ask isLess v s x y).bind fun v s less =>
      if less then
        require (trySwap v node greater) fun v => siftDown isLess n greater v s
      else .ok v s ()

/-- `for i in (0..v.len() / 2).rev()`, from index `i - 1` down. -/
def buildHeap (isLess : Comparator S T) : Nat → List T → S → Exec (List T) S Unit
  | 0, v, s => .ok v s ()
  | i + 1, v, s =>
    (siftDown isLess (v.length + 1) i v s).bind fun v s _ => buildHeap isLess i v s

/-- `for i in (1..v.len()).rev()`, from index `i` down. -/
def popMaximal (isLess : Comparator S T) : Nat → List T → S → Exec (List T) S Unit
  | 0, v, s => .ok v s ()
  | i + 1, v, s =>
    require (trySwap v 0 (i + 1)) fun v =>
    (within v 0 (i + 1) fun w => siftDown isLess (w.length + 1) 0 w s).bind fun v s _ =>
    popMaximal isLess i v s

def heapsort (isLess : Comparator S T) (v : List T) (s : S) : Exec (List T) S Unit :=
  (buildHeap isLess (v.length / 2) v s).bind fun v s _ =>
  popMaximal isLess (v.length - 1) v s

/-- The order the heap keeps: `x` is not above `y`. -/
def Le (lt : T → T → Bool) (x y : T) : Prop := lt y x = false

lemma le_refl (order : StrictWeakOrder lt) (x : T) : Le lt x x := order.irrefl x

lemma le_trans (order : StrictWeakOrder lt) (x y z : T) (hxy : Le lt x y) (hyz : Le lt y z) :
    Le lt x z := order.not_lt_trans hxy hyz

variable (isLess lt)

lemma greaterChild_spec (d : T) (node : Nat) (v : List T) (s : S) :
    (greaterChild isLess node v s).Ends
      (fun v' _ c => v' = v ∧ node < c ∧ (v.length ≤ c → v.length ≤ 2 * node + 1) ∧
        (Lawful isLess lt → c < v.length → GreatestChild (Le lt) (view d v) v.length node c))
      (Unwound isLess lt v) := by
  simp only [greaterChild]
  split
  next hright =>
    refine ends_require (getElem?_eq_view d (by omega)) (ends_require (getElem?_eq_view d hright)
      (ends_ask (fun wild s' => ⟨.refl _, wild⟩) fun s' less hless => ?_))
    cases less with
    | true =>
      refine ends_ok ⟨rfl, by simp only [if_true]; omega, by simp only [if_true]; omega, ?_⟩
      intro law _
      exact greatestChild_right (le_refl law.order) hright (law.order.asymm (hless law).symm)
    | false =>
      refine ends_ok ⟨rfl, by simp only [Bool.false_eq_true, if_false]; omega, fun h => h, ?_⟩
      intro law _
      exact greatestChild_left (le_refl law.order) (by omega) fun _ => (hless law).symm
  next hright =>
    refine ends_ok ⟨rfl, by omega, fun h => h, fun law hleft => ?_⟩
    exact greatestChild_left (le_refl law.order) hleft fun h => absurd h hright

lemma siftDown_spec (d : T) (lo n : Nat) : ∀ (node : Nat) (v : List T) (s : S),
    node < v.length → v.length < n + node →
    (siftDown isLess n node v s).Ends
      (fun v' _ _ => v'.Perm v ∧ (Lawful isLess lt → lo ≤ node →
        DownOpen (Le lt) (view d v) lo v.length node → Ordered (Le lt) (view d v') lo v.length))
      (Unwound isLess lt v) := by
  induction n with
  | zero => omega
  | succ n ih =>
    intro node v s hnode hn
    refine (greaterChild_spec isLess lt d node v s).bind ?_
    rintro v s' c ⟨rfl, hc, hout, hgreatest⟩
    split
    · refine ends_ok ⟨.refl _, fun law _ down => down.stop ?_⟩
      intro i hi hin hp
      rcases child_eq hi hp with rfl | rfl <;> omega
    · have hcl : c < v.length := by omega
      refine ends_require (getElem?_eq_view d hnode) (ends_require (getElem?_eq_view d hcl)
        (ends_ask (fun wild s' => ⟨.refl _, wild⟩) fun s'' less hless => ?_))
      cases less with
      | false =>
        refine ends_ok ⟨.refl _, fun law _ down => down.stop ?_⟩
        intro i hi hin hp
        exact le_trans law.order _ _ _ ((hgreatest law hcl).greatest i hi hin hp)
          (hless law).symm
      | true =>
        refine ends_require (trySwap_eq hnode hcl) ?_
        have hperm := swap_perm v node c
        refine (ih c (swap v node c) s'' (by simpa using hcl) (by simp; omega)).mono ?_
          fun _ _ h => h.of_perm hperm
        rintro v' s''' _ ⟨hperm', hord⟩
        refine ⟨hperm'.trans hperm, fun law hlo down => ?_⟩
        have hstep := down.step (hgreatest law hcl) hlo (law.order.asymm (hless law).symm)
        rw [length_swap, view_swap d hnode hcl] at hord
        exact hord law (by omega) hstep

lemma buildHeap_spec (d : T) (i : Nat) : ∀ (v : List T) (s : S), i ≤ v.length / 2 →
    (buildHeap isLess i v s).Ends
      (fun v' _ _ => v'.Perm v ∧ (Lawful isLess lt →
        Ordered (Le lt) (view d v) i v.length → Ordered (Le lt) (view d v') 0 v.length))
      (Unwound isLess lt v) := by
  induction i with
  | zero =>
    intro v s _
    exact ends_ok ⟨.refl _, fun _ h => h⟩
  | succ i ih =>
    intro v s hi
    refine (siftDown_spec isLess lt d i (v.length + 1) i v s (by omega) (by omega)).bind ?_
    rintro v' s' _ ⟨hperm, hord⟩
    have hlen := hperm.length_eq
    refine (ih v' s' (by omega)).mono ?_ fun _ _ h => h.of_perm hperm
    rintro v'' s'' _ ⟨hperm', hord'⟩
    rw [hlen] at hord'
    exact ⟨hperm'.trans hperm, fun law h => hord' law (hord law le_rfl h.downOpen)⟩

/-- The heap in front, what has been popped behind it. -/
structure Popping (lt : T → T → Bool) (d : T) (heap popped : List T) : Prop where
  ordered : Ordered (Le lt) (view d heap) 0 heap.length
  sorted : SortedBy lt popped
  below : ∀ x ∈ heap, ∀ y ∈ popped, lt y x = false

lemma popMaximal_spec (d : T) (i : Nat) : ∀ (heap popped : List T) (s : S), heap.length = i + 1 →
    (popMaximal isLess i (heap ++ popped) s).Ends
      (fun v _ _ => v.Perm (heap ++ popped) ∧
        (Lawful isLess lt → Popping lt d heap popped → SortedBy lt v))
      (Unwound isLess lt (heap ++ popped)) := by
  induction i with
  | zero =>
    intro heap popped s hlen
    obtain ⟨x, rfl⟩ := List.length_eq_one_iff.mp hlen
    refine ends_ok ⟨.refl _, fun _ h => ?_⟩
    exact sortedBy_cons.mpr ⟨h.below x (by simp), h.sorted⟩
  | succ i ih =>
    intro heap popped s hlen
    -- the maximum `x` is exchanged with the last element `z` of the heap
    obtain ⟨x, tail, rfl⟩ := List.exists_cons_of_length_pos (l := heap) (by omega)
    obtain ⟨mid, z, rfl⟩ := (List.eq_nil_or_concat' tail).resolve_left
      (List.ne_nil_of_length_pos (by simp at hlen; omega))
    have hmid : mid.length = i := by simpa using hlen
    have hswap : trySwap (x :: (mid ++ [z]) ++ popped) 0 (i + 1) =
        some (z :: mid ++ x :: popped) := by
      subst hmid
      rw [trySwap_eq (by simp) (by simp)]
      simp [swap]
    have hall : (z :: mid ++ x :: popped).Perm (x :: (mid ++ [z]) ++ popped) := by
      have hrot : (z :: mid ++ [x]).Perm (x :: (mid ++ [z])) :=
        (List.perm_append_singleton x (z :: mid)).trans
          ((List.perm_append_singleton z mid).symm.cons x)
      simpa using hrot.append_right popped
    refine ends_require hswap ?_
    rw [show z :: mid ++ x :: popped = [] ++ (z :: mid) ++ x :: popped by simp] at hall ⊢
    refine ends_within_bind rfl (by simp [hmid]) hall
      (siftDown_spec isLess lt d 0 ((z :: mid).length + 1) 0 (z :: mid) s (by simp) (by simp)) ?_
    rintro heap' s' _ ⟨hperm, hord⟩
    have hall' := (hperm.append_right (x :: popped)).trans hall
    refine (ih heap' (x :: popped) s' (by simpa [hmid] using hperm.length_eq)).mono ?_
      fun _ _ h => h.of_perm hall'
    rintro v s'' _ ⟨hv, hsorted⟩
    refine ⟨hv.trans hall', fun law pop => hsorted law ⟨?_, ?_, ?_⟩⟩
    · rw [hperm.length_eq]
      apply hord law le_rfl
      refine (pop.ordered.mono le_rfl (by simp)).downOpen_root ?_
      intro k hk hkn
      obtain ⟨k, rfl⟩ : ∃ k', k = k' + 1 := ⟨k - 1, by omega⟩
      have hkm : k < mid.length := by simpa using hkn
      exact (view_append_left d hkm).symm
    · exact sortedBy_cons.mpr ⟨pop.below x (by simp), pop.sorted⟩
    · intro u hu y hy
      have hu' : u ∈ x :: (mid ++ [z]) := by
        have := hperm.mem_iff.mp hu
        simp only [List.mem_cons, List.mem_append] at this ⊢
        tauto
      rcases List.mem_cons.mp hy with rfl | hy
      · -- the root is a maximum of the heap
        obtain ⟨k, hk, rfl⟩ := List.getElem_of_mem hu'
        have := pop.ordered.le_root (le_refl law.order) (le_trans law.order) k hk
        rw [getElem_eq_view d hk]
        exact this
      · exact pop.below u hu' y hy

lemma heapsort_spec (v : List T) (s : S) :
    (heapsort isLess v s).Ends
      (fun v' _ _ => v'.Perm v ∧ (Lawful isLess lt → SortedBy lt v'))
      (Unwound isLess lt v) := by
  cases v with
  | nil =>
    have hnil : heapsort isLess [] s = .ok [] s () := by
      simp [heapsort, buildHeap, popMaximal, Exec.bind]
    rw [hnil]
    exact ends_ok ⟨.refl _, fun _ => List.Pairwise.nil⟩
  | cons d v =>
    refine (buildHeap_spec isLess lt d _ (d :: v) s le_rfl).bind ?_
    rintro v' s' _ ⟨hperm, hord⟩
    have hlen : v'.length = v'.length - 1 + 1 := by
      have := hperm.length_eq
      simp only [List.length_cons] at this
      omega
    have h := popMaximal_spec isLess lt d (v'.length - 1) v' [] s' hlen
    rw [List.append_nil] at h
    refine h.mono ?_ fun _ _ h => h.of_perm hperm
    rintro v'' s'' _ ⟨hperm', hsort⟩
    refine ⟨hperm'.trans hperm, fun law => hsort law ⟨?_, List.Pairwise.nil, by simp⟩⟩
    rw [hperm.length_eq]
    exact hord law (ordered_half _ _)

end Heapsort
