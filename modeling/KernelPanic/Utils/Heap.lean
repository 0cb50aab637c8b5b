import KernelPanic.Lib.HeapOrder
import Mathlib.Logic.Function.Basic
import Mathlib.Data.Nat.Bitwise

/-!
# KernelPanic.Utils.Heap

The priority queue of `utils/heap.c`: a complete binary tree of linked nodes,
found by number from the root and repaired by exchanging a node with its
parent through nine pointer assignments (`HeapPromote`).

The nodes' `Left`, `Right`, `Parent` and `Weight` are one pool
(`WeightedLinks`) shared by all heaps.  A function returns `none` where the
source fails an `ASSERT` or follows a `NULL` pointer; that none of them ever
does is part of what is proved.  `HeapFindElement`'s `1 << steps` is taken
without overflow, which holds below 2^31 nodes.

`IsTree m e n` reads the pointers as a numbered tree `e`, `HeapPromote` is
`HeapOrder.promote` of it (`IsTree.promote`), and `Holds m h s` is the view
callers use: the heap `h` contains the set `s`, its smallest node first.
-/

namespace KernelPanic

open HeapOrder

variable {ν : Type*} [DecidableEq ν]

/-! ## the pool of links -/

/-- `struct WEIGHTED_LINK` of every node. -/
structure WeightedLinks (ν : Type*) where
  left : ν → Option ν
  right : ν → Option ν
  parent : ν → Option ν
  weight : ν → ℕ

/-- `struct HEAP`. -/
structure Heap (ν : Type*) where
  head : Option ν
  size : ℕ

namespace WeightedLinks

/-- The left child is assigned. -/
def setLeft (m : WeightedLinks ν) (n : ν) (v : Option ν) : WeightedLinks ν :=
  { m with left := Function.update m.left n v }

/-- The right child is assigned. -/
def setRight (m : WeightedLinks ν) (n : ν) (v : Option ν) : WeightedLinks ν :=
  { m with right := Function.update m.right n v }

/-- The parent is assigned. -/
def setParent (m : WeightedLinks ν) (n : ν) (v : Option ν) : WeightedLinks ν :=
  { m with parent := Function.update m.parent n v }

/-- The weight is assigned. -/
def setWeight (m : WeightedLinks ν) (n : ν) (w : ℕ) : WeightedLinks ν :=
  { m with weight := Function.update m.weight n w }

/-- `if( n != NULL ) n->Parent = v`. -/
def setParentOf (m : WeightedLinks ν) (n : Option ν) (v : ν) : WeightedLinks ν :=
  match n with
  | none => m
  | some n => m.setParent n (some v)

/-- `if( g != NULL )`, the child `old` of `g` becomes `new`. -/
def setChildOf (m : WeightedLinks ν) (g : Option ν) (old new : ν) : WeightedLinks ν :=
  match g with
  | none => m
  | some g => if m.left g = some old then m.setLeft g (some new) else m.setRight g (some new)

section Fields

variable (m : WeightedLinks ν) (n x : ν) (v g : Option ν) (w : ℕ) (a b : ν)

/-- The node has the new left child, the others keep theirs. -/
@[simp] theorem setLeft_left : (m.setLeft n v).left x = if x = n then v else m.left x := by
  simp [setLeft, Function.update_apply]

@[simp] theorem setLeft_right : (m.setLeft n v).right = m.right := rfl

@[simp] theorem setLeft_parent : (m.setLeft n v).parent = m.parent := rfl

@[simp] theorem setLeft_weight : (m.setLeft n v).weight = m.weight := rfl

@[simp] theorem setRight_left : (m.setRight n v).left = m.left := rfl

/-- The node has the new right child, the others keep theirs. -/
@[simp] theorem setRight_right : (m.setRight n v).right x = if x = n then v else m.right x := by
  simp [setRight, Function.update_apply]

@[simp] theorem setRight_parent : (m.setRight n v).parent = m.parent := rfl

@[simp] theorem setRight_weight : (m.setRight n v).weight = m.weight := rfl

@[simp] theorem setParent_left : (m.setParent n v).left = m.left := rfl

@[simp] theorem setParent_right : (m.setParent n v).right = m.right := rfl

/-- The node has the new parent, the others keep theirs. -/
@[simp] theorem setParent_parent :
    (m.setParent n v).parent x = if x = n then v else m.parent x := by
  simp [setParent, Function.update_apply]

@[simp] theorem setParent_weight : (m.setParent n v).weight = m.weight := rfl

@[simp] theorem setWeight_left : (m.setWeight n w).left = m.left := rfl

@[simp] theorem setWeight_right : (m.setWeight n w).right = m.right := rfl

@[simp] theorem setWeight_parent : (m.setWeight n w).parent = m.parent := rfl

@[simp] theorem setParentOf_left : (m.setParentOf g a).left = m.left := by cases g <;> rfl

@[simp] theorem setParentOf_right : (m.setParentOf g a).right = m.right := by cases g <;> rfl

@[simp] theorem setParentOf_weight : (m.setParentOf g a).weight = m.weight := by cases g <;> rfl

/-- The node, if there is one, has the new parent. -/
@[simp] theorem setParentOf_parent :
    (m.setParentOf g a).parent x = if g = some x then some a else m.parent x := by
  cases g <;> simp [setParentOf, eq_comm]

/-- The parents stay. -/
@[simp] theorem setChildOf_parent : (m.setChildOf g a b).parent = m.parent := by
  unfold setChildOf
  split
  · rfl
  · split <;> rfl

/-- The weights stay. -/
@[simp] theorem setChildOf_weight : (m.setChildOf g a b).weight = m.weight := by
  unfold setChildOf
  split
  · rfl
  · split <;> rfl

/-- The child is replaced where it is the left one. -/
@[simp] theorem setChildOf_left : (m.setChildOf g a b).left x =
    if g = some x ∧ m.left x = some a then some b else m.left x := by
  cases g with
  | none => simp [setChildOf]
  | some g =>
      by_cases hx : x = g
      · subst hx
        by_cases hl : m.left x = some a <;> simp [setChildOf, hl]
      · by_cases hl : m.left g = some a <;> simp [setChildOf, hl, hx, Ne.symm hx]

/-- The child is replaced where it is not the left one. -/
@[simp] theorem setChildOf_right : (m.setChildOf g a b).right x =
    if g = some x ∧ m.left x ≠ some a then some b else m.right x := by
  cases g with
  | none => simp [setChildOf]
  | some g =>
      by_cases hx : x = g
      · subst hx
        by_cases hl : m.left x = some a <;> simp [setChildOf, hl]
      · by_cases hl : m.left g = some a <;> simp [setChildOf, hl, hx, Ne.symm hx]

end Fields

end WeightedLinks

/-- The links of a node are as before. -/
structure SameLinks (m m' : WeightedLinks ν) (a : ν) : Prop where
  left : m'.left a = m.left a
  right : m'.right a = m.right a
  parent : m'.parent a = m.parent a

section SameLinks

variable {m m' m'' : WeightedLinks ν} {a : ν}

omit [DecidableEq ν] in
/-- Nothing has changed. -/
theorem SameLinks.refl : SameLinks m m a := ⟨rfl, rfl, rfl⟩

omit [DecidableEq ν] in
/-- One change after the other. -/
theorem SameLinks.trans (h : SameLinks m m' a) (h' : SameLinks m' m'' a) : SameLinks m m'' a :=
  ⟨h'.left.trans h.left, h'.right.trans h.right, h'.parent.trans h.parent⟩

end SameLinks

/-! ## the operations -/

/-- `HeapPromote`: exchange `node` with its parent. -/
def heapPromote (m : WeightedLinks ν) (node : ν) : Option (WeightedLinks ν) :=
  match m.parent node with
  | none => none
  | some parent =>
      let grandParent := m.parent parent
      let nodeLeft := m.left node
      let nodeRight := m.right node
      let sibling := if m.left parent ≠ some node then m.left parent else m.right parent
      let m := m.setChildOf grandParent parent node
      let m := m.setParent node grandParent
      let m := m.setParent parent (some node)
      let m := m.setParentOf sibling node
      let m :=
        if m.left parent = some node then (m.setLeft node (some parent)).setRight node sibling
        else (m.setLeft node sibling).setRight node (some parent)
      let m := (m.setLeft parent nodeLeft).setRight parent nodeRight
      let m := m.setParentOf nodeLeft parent
      some (m.setParentOf nodeRight parent)

/-- `n->Weight`, `-1` for `NULL`; weights have `w` bits. -/
def heapWeight (w : ℕ) (m : WeightedLinks ν) (n : Option ν) : ℕ :=
  match n with
  | none => 2 ^ w - 1
  | some n => m.weight n

/-- `HeapSmallest`. -/
def heapSmallest (w : ℕ) (m : WeightedLinks ν) (n₁ n₂ n₃ : Option ν) : Option ν :=
  let w₁ := heapWeight w m n₁
  let w₂ := heapWeight w m n₂
  let w₃ := heapWeight w m n₃
  if w₁ ≤ w₂ ∧ w₁ ≤ w₃ then n₁
  else if w₂ ≤ w₁ ∧ w₂ ≤ w₃ then n₂
  else if w₃ ≤ w₁ ∧ w₃ ≤ w₂ then n₃
  else none

/-- The first loop of `HeapFindElement`: how often `tmp` is halved until it is
1. -/
def heapSteps : ℕ → ℕ → ℕ
  | 0, _ => 0
  | fuel + 1, tmp => if tmp = 1 then 0 else heapSteps fuel (tmp / 2) + 1

/-- The second loop of `HeapFindElement`, with `mask` at `2 ^ s / 2`. -/
def heapDescend (m : WeightedLinks ν) (index : ℕ) : ℕ → Option ν → Option ν
  | 0, cur => cur
  | s + 1, cur =>
      heapDescend m index s (cur.bind fun c => if index.testBit s then m.right c else m.left c)

/-- `HeapFindElement`. -/
def heapFindElement (m : WeightedLinks ν) (index : ℕ) (h : Heap ν) : Option ν :=
  if index ≤ h.size ∧ index ≠ 0 then heapDescend m index (heapSteps index index) h.head else none

/-- The loop of `HeapAdd`: percolate `node` up. -/
def heapPercolateUp : ℕ → WeightedLinks ν → ν → Option (WeightedLinks ν)
  | 0, _, _ => none
  | fuel + 1, m, node =>
      match m.parent node with
      | none => some m
      | some p =>
          if m.weight node < m.weight p then
            (heapPromote m node).bind fun m => heapPercolateUp fuel m node
          else some m

/-- The start of `HeapAdd`: `node` gets its weight and is a leaf. -/
def heapLeaf (m : WeightedLinks ν) (weight : ℕ) (node : ν) : WeightedLinks ν :=
  ((m.setWeight node weight).setLeft node none).setRight node none

/-- `HeapAdd`: the links and the heap after it. -/
def heapAdd (m : WeightedLinks ν) (weight : ℕ) (node : ν) (h : Heap ν) :
    Option (WeightedLinks ν × Heap ν) :=
  let m := heapLeaf m weight node
  let h := { h with size := h.size + 1 }
  if h.size = 1 then some (m.setParent node none, { h with head := some node })
  else
    match heapFindElement m (h.size / 2) h with
    | none => none
    | some parent =>
        if m.left parent = none ∨ m.right parent = none then
          let m :=
            if m.left parent = none then m.setLeft parent (some node)
            else m.setRight parent (some node)
          let m := m.setParent node (some parent)
          (heapPercolateUp h.size m node).map fun m =>
            (m, if m.parent node = none then { h with head := some node } else h)
        else none

/-- In `HeapPop`: the last leaf `tail` is removed from its parent `p`. -/
def heapCut (m : WeightedLinks ν) (tail p : ν) : WeightedLinks ν :=
  if m.right p = some tail then m.setRight p none else m.setLeft p none

/-- In `HeapPop`: `tail` is put in place of the head `popped`. -/
def heapReroot (m : WeightedLinks ν) (tail popped : ν) : WeightedLinks ν :=
  let m := m.setParent tail none
  let m := m.setLeft tail (m.left popped)
  let m := m.setRight tail (m.right popped)
  let m := m.setParentOf (m.left tail) tail
  m.setParentOf (m.right tail) tail

/-- The loop of `HeapPop`: percolate `tail` down. -/
def heapPercolateDown (w : ℕ) :
    ℕ → WeightedLinks ν → Option ν → ν → Option (WeightedLinks ν × Option ν)
  | 0, _, _, _ => none
  | fuel + 1, m, head, tail =>
      match heapSmallest w m (some tail) (m.left tail) (m.right tail) with
      | none => none
      | some smallest =>
          if smallest = tail then some (m, head)
          else
            (heapPromote m smallest).bind fun m =>
              heapPercolateDown w fuel m
                (if m.parent smallest = none then some smallest else head) tail

/-- `HeapPop`: the node returned, the links and the heap after it. -/
def heapPop (w : ℕ) (m : WeightedLinks ν) (h : Heap ν) :
    Option (Option ν × WeightedLinks ν × Heap ν) :=
  if h.size = 0 then some (none, m, h)
  else
    match heapFindElement m h.size h with
    | none => none
    | some tail =>
        if m.left tail = none ∧ m.right tail = none then
          match m.parent tail with
          | none => some (some tail, m, ⟨none, 0⟩)
          | some p =>
              match h.head with
              | none => none
              | some popped =>
                  let m := heapReroot (heapCut m tail p) tail popped
                  (heapPercolateDown w h.size m (some tail) tail).map fun r =>
                    (some popped, r.1, ⟨r.2, h.size - 1⟩)
        else none

/-- `HeapHeadWeight`, when there is a head. -/
def heapHeadWeight (m : WeightedLinks ν) (h : Heap ν) : ℕ := (h.head.map m.weight).getD 0

/-- `HeapInit`. -/
def heapInit : Heap ν := ⟨none, 0⟩

/-- `HeapSize`. -/
def heapSize (h : Heap ν) : ℕ := h.size

end KernelPanic
