import KernelPanic.Lib.SearchTree
import KernelPanic.Utils.Heap

/-!
# KernelPanic.Utils.Avl

The search tree of linked nodes (`utils/avl.c`), which its source means to balance
one day.

A function returns `none` where the source fails an `ASSERT`, follows a `NULL`
pointer or goes around a loop more often than `fuel` allows; that none of them
does, with fuel for every node of the tree, is part of what is proved.

`Shape m t p` reads the links as the tree `t` under the node `p`, and `Above` does
the same for the path to a place in it, so that an operation is the writes to the
nodes around one place.
-/

namespace KernelPanic

open SearchTree

variable {ν : Type*} [DecidableEq ν]

/-! ## the code -/

/-- `struct AVL_TREE`, with the links of all nodes. -/
structure AvlTree (ν : Type*) where
  links : WeightedLinks ν
  head : Option ν

/-- `AvlInit`. -/
def avlInit (m : WeightedLinks ν) : AvlTree ν := { links := m, head := none }

/-- The loop of `AvlAdd`, from `parent` on. -/
def avlAddParent (m : WeightedLinks ν) (node : ν) : ℕ → ν → Option ν
  | 0, _ => none
  | fuel + 1, parent =>
    if m.weight node > m.weight parent then
      match m.right parent with
      | some right => avlAddParent m node fuel right
      | none => some parent
    else
      match m.left parent with
      | some left => avlAddParent m node fuel left
      | none => some parent

/-- `AvlAdd`. -/
def avlAdd (fuel : ℕ) (weight : ℕ) (node : ν) (tree : AvlTree ν) : Option (AvlTree ν) :=
  let m := tree.links.setWeight node weight
  let m := m.setLeft node none
  let m := m.setRight node none
  match tree.head with
  | none => some { links := m.setParent node none, head := some node }
  | some head => do
    let parent ← avlAddParent m node fuel head
    if m.weight node > m.weight parent then
      if m.right parent = none then
        some { tree with links := (m.setRight parent (some node)).setParent node (some parent) }
      else none
    else
      if m.left parent = none then
        some { tree with links := (m.setLeft parent (some node)).setParent node (some parent) }
      else none

/-- The loop of `AvlFind`, from `node` on. -/
def avlFindFrom (m : WeightedLinks ν) (weight : ℕ) : ℕ → Option ν → Option (Option ν)
  | _, none => some none
  | 0, some _ => none
  | fuel + 1, some node =>
    if m.weight node = weight then some (some node)
    else if weight > m.weight node then avlFindFrom m weight fuel (m.right node)
    else avlFindFrom m weight fuel (m.left node)

/-- `AvlFind`. -/
def avlFind (fuel : ℕ) (weight : ℕ) (tree : AvlTree ν) : Option (Option ν) :=
  avlFindFrom tree.links weight fuel tree.head

/-- The loop of `AvlDelete`, from `rightMost` on. -/
def avlRightMost (m : WeightedLinks ν) : ℕ → ν → Option ν
  | 0, _ => none
  | fuel + 1, rightMost =>
    match m.right rightMost with
    | some right => avlRightMost m fuel right
    | none => some rightMost

/-- Where three of the four cases of `AvlDelete` replace the parent's link or the
head of the tree. -/
def avlReplace (tree : AvlTree ν) (parent : Option ν) (node : ν) (child : Option ν) :
    Option (AvlTree ν) :=
  match parent with
  | some parent =>
    if tree.links.left parent = some node then
      some { tree with links := tree.links.setLeft parent child }
    else if tree.links.right parent = some node then
      some { tree with links := tree.links.setRight parent child }
    else none
  | none => if tree.head = some node then some { tree with head := child } else none

/-- The fourth, where the `ASSERT` assigns. -/
def avlReplaceAssigned (tree : AvlTree ν) (parent : Option ν) (node : ν) (child : Option ν) :
    Option (AvlTree ν) :=
  match parent with
  | some parent =>
    if tree.links.left parent = some node then
      some { tree with links := tree.links.setLeft parent child }
    else
      let m := tree.links.setRight parent (some node)
      some { tree with links := m.setRight parent child }
  | none => if tree.head = some node then some { tree with head := child } else none

/-- `AvlDelete`, until the tree is consistent. -/
def avlUnlink (fuel : ℕ) (node : ν) (tree : AvlTree ν) : Option (AvlTree ν) :=
  let parent := tree.links.parent node
  match tree.links.left node, tree.links.right node with
  | none, none => avlReplace tree parent node none
  | some left, some right => do
    let tree := { tree with links := tree.links.setParent left parent }
    let tree ← avlReplace tree parent node (some left)
    let rightMost ← avlRightMost tree.links fuel left
    let m := tree.links.setRight rightMost (some right)
    some { tree with links := m.setParent right (some rightMost) }
  | some left, none =>
    let tree := { tree with links := tree.links.setParent left parent }
    avlReplace tree parent node (some left)
  | none, some right =>
    let tree := { tree with links := tree.links.setParent right parent }
    avlReplaceAssigned tree parent node (some right)

/-- `AvlDelete`. -/
def avlDelete (fuel : ℕ) (node : ν) (tree : AvlTree ν) : Option (AvlTree ν) := do
  let tree ← avlUnlink fuel node tree
  let m := tree.links.setParent node none
  let m := m.setLeft node none
  some { tree with links := m.setRight node none }

/-! ## what the links stand for -/

namespace Avl

open BinaryTree

/-- The links of the nodes are those of the tree, under the node `parent`. -/
def Shape (m : WeightedLinks ν) : BinaryTree ν → Option ν → Prop
  | nil, _ => True
  | node n l r, parent =>
    m.parent n = parent ∧ m.left n = top l ∧ m.right n = top r ∧
      Shape m l (some n) ∧ Shape m r (some n)

/-- The links along the path are those around a place where the node `here` is. -/
def Above (m : WeightedLinks ν) : List (Step ν) → Option ν → Prop
  | [], _ => True
  | .left n r :: path, here =>
    m.parent n = aboveOf path ∧ m.left n = here ∧ m.right n = top r ∧ Shape m r (some n) ∧
      Above m path (some n)
  | .right n l :: path, here =>
    m.parent n = aboveOf path ∧ m.left n = top l ∧ m.right n = here ∧ Shape m l (some n) ∧
      Above m path (some n)

/-- Reading the links from the head gives the tree, and no node occurs twice. -/
structure Reads (tree : AvlTree ν) (t : BinaryTree ν) : Prop where
  head : tree.head = top t
  shape : Shape tree.links t none
  nodup : (inorder t).Nodup

variable {m m' : WeightedLinks ν} {t s l r : BinaryTree ν} {p q here : Option ν} {n a b : ν}
  {path : List (Step ν)} {tree : AvlTree ν} {fuel : ℕ}

omit [DecidableEq ν] in
theorem Shape.frame (h : Shape m t p) (hsame : ∀ n ∈ inorder t, SameLinks m m' n) :
    Shape m' t p := by
  induction t generalizing p with
  | nil => trivial
  | node n l r ihl ihr =>
      obtain ⟨hp, hleft, hright, hl, hr⟩ := h
      obtain ⟨hl', hr', hp'⟩ := hsame n (by simp)
      exact ⟨hp'.trans hp, hl'.trans hleft, hr'.trans hright,
        ihl hl fun x hx => hsame x (by simp [hx]), ihr hr fun x hx => hsame x (by simp [hx])⟩

/-- The nodes around a place. -/
def around (path : List (Step ν)) : List ν := before path ++ after path

omit [DecidableEq ν] in
theorem mem_around {step : Step ν} {x : ν} : x ∈ around (step :: path) ↔
    x = step.above ∨ x ∈ inorder step.side ∨ x ∈ around path := by
  cases step <;> simp [around, before, after, Step.above, Step.side] <;> tauto

omit [DecidableEq ν] in
theorem nodup_plug : (inorder (plug path t)).Nodup ↔
    (inorder t).Nodup ∧ (around path).Nodup ∧ ∀ x ∈ inorder t, x ∉ around path := by
  rw [inorder_plug, around]
  grind

omit [DecidableEq ν] in
theorem nodup_around {step : Step ν} : (around (step :: path)).Nodup ↔
    step.above ∉ inorder step.side ∧ step.above ∉ around path ∧ (inorder step.side).Nodup ∧
      (around path).Nodup ∧ ∀ x ∈ inorder step.side, x ∉ around path := by
  cases step <;> simp [around, before, after, Step.above, Step.side] <;> grind

omit [DecidableEq ν] in
theorem Above.frame (h : Above m path here) (hsame : ∀ n ∈ around path, SameLinks m m' n) :
    Above m' path here := by
  induction path generalizing here with
  | nil => trivial
  | cons step path ih =>
      have hside : ∀ x ∈ inorder step.side, SameLinks m m' x :=
        fun x hx => hsame x (mem_around.mpr (.inr (.inl hx)))
      have hrest : ∀ x ∈ around path, SameLinks m m' x :=
        fun x hx => hsame x (mem_around.mpr (.inr (.inr hx)))
      obtain ⟨hl', hr', hp'⟩ := hsame step.above (mem_around.mpr (.inl rfl))
      cases step with
      | left n r =>
          obtain ⟨hp, hleft, hright, hr, hpath⟩ := h
          exact ⟨hp'.trans hp, hl'.trans hleft, hr'.trans hright, hr.frame hside, ih hpath hrest⟩
      | right n l =>
          obtain ⟨hp, hleft, hright, hl, hpath⟩ := h
          exact ⟨hp'.trans hp, hl'.trans hleft, hr'.trans hright, hl.frame hside, ih hpath hrest⟩

omit [DecidableEq ν] in
/-- The links of the whole are those along the path and those of the tree there. -/
theorem shape_plug :
    Shape m (plug path t) none ↔ Above m path (top t) ∧ Shape m t (aboveOf path) := by
  induction path generalizing t with
  | nil => simp [plug, Above, aboveOf]
  | cons step path ih =>
      rw [plug, ih]
      cases step <;> simp [Step.fill, Above, Shape, aboveOf, Step.above] <;> tauto

/-! ## replacing what is at a place -/

/-- The write to the node above the place. -/
def setHole (m : WeightedLinks ν) : List (Step ν) → Option ν → WeightedLinks ν
  | [], _ => m
  | .left n _ :: _, here => m.setLeft n here
  | .right n _ :: _, here => m.setRight n here

@[simp] theorem setHole_weight : (setHole m path here).weight = m.weight := by
  unfold setHole
  split <;> rfl

theorem setHole_frame (h : n ∉ around path) : SameLinks m (setHole m path here) n := by
  match path with
  | [] => exact .refl
  | .left b r :: path =>
      have hne : n ≠ b := fun heq => h (mem_around.mpr (.inl heq))
      exact ⟨by simp [setHole, hne], rfl, rfl⟩
  | .right b l :: path =>
      have hne : n ≠ b := fun heq => h (mem_around.mpr (.inl heq))
      exact ⟨rfl, by simp [setHole, hne], rfl⟩

theorem Above.setHole (h : Above m path here) (hnodup : (around path).Nodup) (new : Option ν) :
    Above (setHole m path new) path new := by
  match path with
  | [] => trivial
  | .left n r :: path =>
      obtain ⟨hp, hleft, hright, hr, hpath⟩ := h
      obtain ⟨hside, habove, -⟩ := nodup_around.mp hnodup
      refine ⟨hp, by simp [Avl.setHole], hright, hr.frame fun x hx => ?_, hpath.frame fun x hx => ?_⟩
      · exact ⟨by simp [Avl.setHole, show x ≠ n from fun heq => hside (heq ▸ hx)], rfl, rfl⟩
      · exact ⟨by simp [Avl.setHole, show x ≠ n from fun heq => habove (heq ▸ hx)], rfl, rfl⟩
  | .right n l :: path =>
      obtain ⟨hp, hleft, hright, hl, hpath⟩ := h
      obtain ⟨hside, habove, -⟩ := nodup_around.mp hnodup
      refine ⟨hp, hleft, by simp [Avl.setHole], hl.frame fun x hx => ?_, hpath.frame fun x hx => ?_⟩
      · exact ⟨rfl, by simp [Avl.setHole, show x ≠ n from fun heq => hside (heq ▸ hx)], rfl⟩
      · exact ⟨rfl, by simp [Avl.setHole, show x ≠ n from fun heq => habove (heq ▸ hx)], rfl⟩

omit [DecidableEq ν] in
theorem top_plug_cons {step : Step ν} : top (plug (step :: path) t) = top (plug (step :: path) s) := by
  induction path generalizing step t s with
  | nil => cases step <;> rfl
  | cons step' path ih => exact ih

/-- The replacement of a node that is at the place. -/
theorem avlReplace_spec (hhead : tree.head = top (plug path (node n l r)))
    (habove : Above tree.links path (some n)) (hn : n ∉ around path) :
    avlReplace tree (aboveOf path) n (top t) =
      some { links := setHole tree.links path (top t), head := top (plug path t) } := by
  match path with
  | [] =>
      have hhead' : tree.head = some n := hhead
      simp [avlReplace, aboveOf, hhead', setHole, plug]
  | .left b r' :: path =>
      obtain ⟨-, hleft, -⟩ := habove
      simp [avlReplace, aboveOf, Step.above, hleft, setHole, hhead,
        top_plug_cons (t := node n l r) (s := t)]
  | .right b l' :: path =>
      obtain ⟨-, hleft, hright, -⟩ := habove
      have hne : top l' ≠ some n := fun htop =>
        hn (mem_around.mpr (.inr (.inl (top_mem htop))))
      simp [avlReplace, aboveOf, Step.above, hleft, hright, hne, setHole, hhead,
        top_plug_cons (t := node n l r) (s := t)]

/-- The assignment in the fourth case makes no difference where the `ASSERT` it was
meant for would hold. -/
theorem avlReplaceAssigned_eq {tree' : AvlTree ν} (h : avlReplace tree p n here = some tree') :
    avlReplaceAssigned tree p n here = some tree' := by
  unfold avlReplace at h
  unfold avlReplaceAssigned
  cases p with
  | none => exact h
  | some parent =>
      have htwice : (tree.links.setRight parent (some n)).setRight parent here =
          tree.links.setRight parent here := by simp [WeightedLinks.setRight]
      simp only at h ⊢
      split at h
      · rw [if_pos ‹_›]
        exact h
      · rw [if_neg ‹_›, htwice]
        split at h
        · exact h
        · simp at h

/-! ## subtrees -/

/-- The top of a tree under another node. -/
theorem Shape.reparent (h : Shape m (node a l r) p) (hnodup : (inorder (node a l r)).Nodup)
    (q : Option ν) : Shape (m.setParent a q) (node a l r) q := by
  have hne : ∀ x, x ∈ inorder l ∨ x ∈ inorder r → x ≠ a := by
    rintro x hx rfl
    simp at hnodup
    grind
  obtain ⟨-, hleft, hright, hl, hr⟩ := h
  refine ⟨by simp, hleft, hright, hl.frame fun x hx => ?_, hr.frame fun x hx => ?_⟩
  · exact ⟨rfl, rfl, by simp [hne x (.inl hx)]⟩
  · exact ⟨rfl, rfl, by simp [hne x (.inr hx)]⟩

/-- The loop of **`AvlDelete`** comes to the node that the other tree is to be hung
under. -/
theorem Shape.hang {sl sr : BinaryTree ν} (hs : s = node b sl sr) (ht : Shape m t p)
    (htop : top t = some a) (hsq : Shape m s q) (hnodup : (inorder t ++ inorder s).Nodup)
    (hfuel : t.numNodes ≤ fuel) :
    ∃ z, avlRightMost m fuel a = some z ∧ z ∈ inorder t ∧
      Shape ((m.setRight z (some b)).setParent b (some z)) (hang t s) p := by
  subst hs
  induction t generalizing p a fuel with
  | nil => simp at htop
  | node c l r _ ih =>
      obtain rfl : c = a := by simpa using htop
      obtain ⟨hp, hleft, hright, hl, hr⟩ := ht
      simp only [inorder_node, List.nodup_append, List.nodup_cons, List.mem_append, List.mem_cons]
        at hnodup
      simp only [numNodes] at hfuel
      obtain ⟨fuel, rfl⟩ : ∃ k, fuel = k + 1 := ⟨fuel - 1, by omega⟩
      cases r with
      | nil =>
          refine ⟨c, by simp [avlRightMost, hright], by simp, ?_⟩
          have hcb : c ≠ b := by grind
          refine ⟨by simp [hcb, hp], by simpa using hleft, by simp, hl.frame fun x hx => ?_, ?_⟩
          · exact ⟨rfl, by simp [show x ≠ c by grind], by simp [show x ≠ b by grind]⟩
          · refine Shape.reparent (hsq.frame fun x hx => ?_) (by simp; grind) _
            exact ⟨rfl, by simp [show x ≠ c by simp at hx; grind], rfl⟩
      | node d rl rr =>
          have hright' : (inorder (node d rl rr) ++ inorder (node b sl sr)).Nodup := by
            simp only [inorder_node (a := b), List.nodup_append, List.nodup_cons, List.mem_append,
              List.mem_cons]
            grind
          have hrfuel : (node d rl rr).numNodes ≤ fuel := by omega
          obtain ⟨z, hz, hmem, hshape⟩ := ih hr rfl hrfuel hright'
          refine ⟨z, by simpa [avlRightMost, hright] using hz, by simp at hmem ⊢; tauto, ?_⟩
          have hcz : c ≠ z := by grind [inorder_node]
          have hcb : c ≠ b := by grind
          refine ⟨by simp [hcb, hp], by simpa using hleft, by simpa [hcz] using hright,
            hl.frame fun x hx => ?_, hshape⟩
          exact ⟨rfl, by simp [show x ≠ z by grind [inorder_node]], by simp [show x ≠ b by grind]⟩

end Avl

end KernelPanic
