import KernelPanic.Utils.Avl

/-!
# KernelPanic.Utils.Avl.Tree

What the operations of `utils/avl.c` do to the tree that the links stand for:
`AvlAdd` puts the node where the search for its weight ends (`Reads.add`),
`AvlDelete` hangs the node's right subtree under its left one (`Reads.delete`), and
`AvlFind` looks its weight up.
-/

namespace KernelPanic

namespace Avl

open BinaryTree SearchTree

variable {ν : Type*} [DecidableEq ν] {m m' : WeightedLinks ν} {t s l r : BinaryTree ν}
  {p q here : Option ν} {n a b x : ν} {path : List (Step ν)} {tree tree' : AvlTree ν} {fuel w : ℕ}

/-! ## deletion -/

/-- The tree `t` has been put at the place of a tree, and the links of the nodes not
in `nodes` are as they were. -/
structure Patched (tree tree' : AvlTree ν) (path : List (Step ν)) (t : BinaryTree ν)
    (nodes : List ν) : Prop where
  head : tree'.head = top (plug path t)
  above : Above tree'.links path (top t)
  shape : Shape tree'.links t (aboveOf path)
  weight : tree'.links.weight = tree.links.weight
  frame : ∀ x, x ∉ nodes → SameLinks tree.links tree'.links x

/-- A replacement, where the subtree to come is there already. -/
theorem avlReplace_patched (hhead : tree.head = top (plug path (node n l r)))
    (habove : Above tree.links path (some n)) (hn : n ∉ around path) (hpath : (around path).Nodup)
    (ht : Shape tree.links t (aboveOf path)) (hdisj : ∀ x ∈ inorder t, x ∉ around path) :
    ∃ tree', avlReplace tree (aboveOf path) n (top t) = some tree' ∧
      Patched tree tree' path t (around path) := by
  refine ⟨_, avlReplace_spec hhead habove hn, rfl, habove.setHole hpath _, ?_, setHole_weight, ?_⟩
  · exact ht.frame fun x hx => setHole_frame (hdisj x hx)
  · exact fun x hx => setHole_frame hx

/-- A subtree that takes its parent's place. -/
theorem avlReplace_reparented (hhead : tree.head = top (plug path (node n l r)))
    (habove : Above tree.links path (some n)) (hn : n ∉ around path) (hpath : (around path).Nodup)
    {ta tb : BinaryTree ν} (ht : Shape tree.links (node a ta tb) q)
    (hnodup : (inorder (node a ta tb)).Nodup)
    (hdisj : ∀ x ∈ inorder (node a ta tb), x ∉ around path) :
    ∃ tree',
      avlReplace { tree with links := tree.links.setParent a (aboveOf path) } (aboveOf path) n
        (some a) = some tree' ∧ Patched tree tree' path (node a ta tb) (a :: around path) := by
  have ha : a ∉ around path := hdisj a (by simp)
  have hsame : ∀ x, x ≠ a → SameLinks tree.links (tree.links.setParent a (aboveOf path)) x :=
    fun x hx => ⟨rfl, rfl, by simp [hx]⟩
  have habove' : Above (tree.links.setParent a (aboveOf path)) path (some n) :=
    habove.frame fun x hx => hsame x fun heq => ha (heq ▸ hx)
  have hhead' : AvlTree.head { tree with links := tree.links.setParent a (aboveOf path) } =
      top (plug path (node n l r)) := hhead
  obtain ⟨tree', hreplace, hpatched⟩ :=
    avlReplace_patched hhead' habove' hn hpath (ht.reparent hnodup _) hdisj
  refine ⟨tree', hreplace, hpatched.head, hpatched.above, hpatched.shape, hpatched.weight, ?_⟩
  intro x hx
  rw [List.mem_cons, not_or] at hx
  exact (hsame x hx.1).trans (hpatched.frame x hx.2)

/-- The four cases of **`AvlDelete`** are one. -/
theorem avlUnlink_spec (h : Reads tree (plug path (node n l r))) (hfuel : l.numNodes ≤ fuel) :
    ∃ tree', avlUnlink fuel n tree = some tree' ∧
      Patched tree tree' path (hang l r) (inorder (plug path (node n l r))) := by
  obtain ⟨habove, hp, hleft, hright, hl, hr⟩ := shape_plug.mp h.shape
  obtain ⟨hnode, hpath, hdisj⟩ := nodup_plug.mp h.nodup
  have hn : n ∉ around path := hdisj n (by simp)
  have hdl : ∀ x ∈ inorder l, x ∉ around path := fun x hx => hdisj x (by simp [hx])
  have hdr : ∀ x ∈ inorder r, x ∉ around path := fun x hx => hdisj x (by simp [hx])
  have hmem : ∀ x, x ∈ inorder (plug path (node n l r)) ↔
      x ∈ around path ∨ x ∈ inorder l ∨ x = n ∨ x ∈ inorder r := by
    intro x
    simp [inorder_plug, around]
    tauto
  rw [inorder_node, List.nodup_append, List.nodup_cons] at hnode
  unfold avlUnlink
  rw [hp, hleft, hright]
  cases l with
  | nil =>
      cases r with
      | nil =>
          obtain ⟨tree', hreplace, hpatched⟩ :=
            avlReplace_patched (t := nil) h.head habove hn hpath trivial (by simp)
          refine ⟨tree', hreplace, { hpatched with frame := fun x hx => hpatched.frame x ?_ }⟩
          exact fun haround => hx ((hmem x).mpr (.inl haround))
      | node b ra rb =>
          obtain ⟨tree', hreplace, hpatched⟩ :=
            avlReplace_reparented h.head habove hn hpath hr hnode.2.1.2 hdr
          refine ⟨tree', avlReplaceAssigned_eq hreplace,
            { hpatched with frame := fun x hx => hpatched.frame x ?_ }⟩
          grind [inorder_node]
  | node a la lb =>
      cases r with
      | nil =>
          obtain ⟨tree', hreplace, hpatched⟩ :=
            avlReplace_reparented h.head habove hn hpath hl hnode.1 hdl
          rw [hang_nil_right]
          refine ⟨tree', hreplace, { hpatched with frame := fun x hx => hpatched.frame x ?_ }⟩
          grind [inorder_node]
      | node b ra rb =>
          obtain ⟨tree', hreplace, hpatched⟩ :=
            avlReplace_reparented h.head habove hn hpath hl hnode.1 hdl
          have hr' : Shape tree'.links (node b ra rb) (some n) := by
            refine hr.frame fun x hx => hpatched.frame x ?_
            grind [inorder_node]
          obtain ⟨z, hz, hzl, hshape⟩ := hpatched.shape.hang rfl rfl hr' (by grind) hfuel
          refine ⟨{ tree' with links := (tree'.links.setRight z (some b)).setParent b (some z) },
            by simp [hreplace, hz], ?_⟩
          have hsame : ∀ x, x ≠ z → x ≠ b → SameLinks tree'.links
              ((tree'.links.setRight z (some b)).setParent b (some z)) x :=
            fun x hxz hxb => ⟨rfl, by simp [hxz], by simp [hxb]⟩
          have hb : b ∈ inorder (node b ra rb) := by simp
          have haz : ∀ x ∈ around path, x ≠ z := fun x hx heq => hdl z hzl (heq ▸ hx)
          have hab : ∀ x ∈ around path, x ≠ b := fun x hx heq => hdr b hb (heq ▸ hx)
          have htop : top (plug path (node a la lb)) = top (plug path (hang (node a la lb) (node b ra rb))) := by
            cases path with
            | nil => rfl
            | cons step path => exact top_plug_cons
          refine ⟨hpatched.head.trans htop, hpatched.above.frame fun x hx => hsame x (haz x hx) (hab x hx),
            hshape, hpatched.weight, fun x hx => ?_⟩
          have houtside := mt (hmem x).mpr hx
          refine (hpatched.frame x ?_).trans (hsame x ?_ ?_)
          all_goals grind [inorder_node]

/-- **`AvlDelete`** hangs the right subtree of the node under its left one, and
clears the node's links. -/
theorem Reads.delete (h : Reads tree (plug path (node n l r))) (hfuel : l.numNodes ≤ fuel) :
    ∃ tree', avlDelete fuel n tree = some tree' ∧ Reads tree' (plug path (hang l r)) ∧
      tree'.links.weight = tree.links.weight ∧
      (tree'.links.left n = none ∧ tree'.links.right n = none ∧ tree'.links.parent n = none) ∧
      ∀ x ∉ inorder (plug path (node n l r)), SameLinks tree.links tree'.links x := by
  obtain ⟨tree', hunlink, hpatched⟩ := avlUnlink_spec h hfuel
  have hnodup := h.nodup
  rw [inorder_plug, inorder_node] at hnodup
  have hsame : ∀ x, x ≠ n → SameLinks tree'.links
      (((tree'.links.setParent n none).setLeft n none).setRight n none) x :=
    fun x hx => ⟨by simp [hx], by simp [hx], by simp [hx]⟩
  refine ⟨{ tree' with links := ((tree'.links.setParent n none).setLeft n none).setRight n none },
    by simp [avlDelete, hunlink], ⟨hpatched.head, ?_, ?_⟩, hpatched.weight, by simp, fun x hx => ?_⟩
  · have hgone : n ∉ inorder (plug path (hang l r)) := by
      rw [inorder_plug, inorder_hang]
      grind
    exact (shape_plug.mpr ⟨hpatched.above, hpatched.shape⟩).frame fun x hx =>
      hsame x fun heq => hgone (heq ▸ hx)
  · rw [inorder_plug, inorder_hang]
    grind
  · refine (hpatched.frame x hx).trans (hsame x fun heq => hx ?_)
    simp [heq, inorder_plug]

/-! ## addition -/

omit [DecidableEq ν] in
/-- The loop of **`AvlAdd`** ends at the node above the place where the search for the
weight ends. -/
theorem avlAddParent_spec (n : ν) (path : List (Step ν)) (ht : Shape m t p) (htop : top t = some a) (hfuel : t.numNodes ≤ fuel) :
    ∃ b, avlAddParent m n fuel a = some b ∧
      ∃ step rest, descend m.weight (m.weight n) t path = step :: rest ∧ step.above = b ∧
        (m.weight n > m.weight b ↔ ∃ l, step = .right b l) := by
  induction t generalizing p a fuel path with
  | nil => simp at htop
  | node c l r ihl ihr =>
      obtain rfl : c = a := by simpa using htop
      obtain ⟨hp, hleft, hright, hl, hr⟩ := ht
      simp only [numNodes] at hfuel
      obtain ⟨fuel, rfl⟩ : ∃ k, fuel = k + 1 := ⟨fuel - 1, by omega⟩
      unfold avlAddParent descend
      by_cases hlt : m.weight c < m.weight n
      · simp only [hlt, gt_iff_lt, ↓reduceIte, hright]
        cases r with
        | nil => exact ⟨c, rfl, _, _, rfl, rfl, by simp [hlt]⟩
        | node d rl rr => exact ihr _ hr rfl (by omega)
      · simp only [hlt, gt_iff_lt, ↓reduceIte, hleft]
        cases l with
        | nil => exact ⟨c, rfl, _, _, rfl, rfl, by simp [hlt]⟩
        | node d ll lr => exact ihl _ hl rfl (by omega)

/-- A node without children, linked from above and to what is above it. -/
def linkNode (m : WeightedLinks ν) (path : List (Step ν)) (n : ν) : WeightedLinks ν :=
  (setHole m path (some n)).setParent n (aboveOf path)

theorem linkNode_frame (hx : x ∉ around path) (hxn : x ≠ n) :
    SameLinks m (linkNode m path n) x := by
  have hsame : SameLinks m (setHole m path (some n)) x := setHole_frame hx
  exact hsame.trans ⟨rfl, rfl, by simp [linkNode, hxn]⟩

theorem Above.linkNode (habove : Above m path none) (hleft : m.left n = none)
    (hright : m.right n = none) (hnodup : (inorder (plug path (node n nil nil))).Nodup) :
    Shape (linkNode m path n) (plug path (node n nil nil)) none := by
  obtain ⟨-, haround, hdisj⟩ := nodup_plug.mp hnodup
  have hn : n ∉ around path := hdisj n (by simp)
  have hsame : ∀ x, x ≠ n → SameLinks (Avl.setHole m path (some n)) (Avl.linkNode m path n) x :=
    fun x hx => ⟨rfl, rfl, by simp [Avl.linkNode, hx]⟩
  have hhole : SameLinks m (Avl.setHole m path (some n)) n := setHole_frame hn
  refine shape_plug.mpr ⟨(habove.setHole haround _).frame fun x hx => ?_, ?_⟩
  · exact hsame x fun heq => hn (heq ▸ hx)
  · exact ⟨by simp [Avl.linkNode], hhole.left.trans hleft, hhole.right.trans hright, trivial, trivial⟩

/-- **`AvlAdd`** puts the node where the search for its weight ends. -/
theorem Reads.add (h : Reads tree t) (hn : n ∉ inorder t) (hfuel : t.numNodes ≤ fuel) :
    ∃ tree', avlAdd fuel w n tree = some tree' ∧
      tree'.links.weight = Function.update tree.links.weight n w ∧
      Reads tree' (plug (descend tree'.links.weight w t []) (node n nil nil)) ∧
      ∀ x ∉ inorder t, x ≠ n → SameLinks tree.links tree'.links x := by
  obtain ⟨m, hm⟩ : ∃ m, m = ((tree.links.setWeight n w).setLeft n none).setRight n none := ⟨_, rfl⟩
  have hweight : m.weight = Function.update tree.links.weight n w := by rw [hm]; rfl
  have hwn : m.weight n = w := by rw [hweight, Function.update_self]
  have hsame : ∀ x, x ≠ n → SameLinks tree.links m x := by
    intro x hx
    exact ⟨by simp [hm, hx], by simp [hm, hx], by simp [hm]⟩
  have hshape : Shape m t none := h.shape.frame fun x hx => hsame x fun heq => hn (heq ▸ hx)
  obtain ⟨path, hpath⟩ : ∃ path, path = descend m.weight w t [] := ⟨_, rfl⟩
  have hplug : plug path nil = t := by rw [hpath, plug_descend]; rfl
  have habove : Above m path none := (shape_plug.mp (hplug ▸ hshape)).1
  have hmem : ∀ x, x ∈ around path ↔ x ∈ inorder t := by
    intro x
    rw [← hplug, inorder_plug, around]
    simp
  have hnodup : (inorder (plug path (node n nil nil))).Nodup := by
    have haround : (around path).Nodup := (nodup_plug.mp (hplug ▸ h.nodup)).2.1
    exact nodup_plug.mpr ⟨by simp, haround, by simpa [hmem] using hn⟩
  have hlinked := habove.linkNode (n := n) (by simp [hm]) (by simp [hm]) hnodup
  have hweight' : (linkNode m path n).weight = Function.update tree.links.weight n w := by
    rw [← hweight]
    simp [linkNode]
  suffices hcode : avlAdd fuel w n tree =
      some { links := linkNode m path n, head := top (plug path (node n nil nil)) } by
    refine ⟨_, hcode, hweight', ?_, fun x hx hxn => ?_⟩
    · rw [hweight', ← hweight, ← hpath]
      exact ⟨rfl, hlinked, hnodup⟩
    · exact (hsame x hxn).trans (linkNode_frame (mt (hmem x).mp hx) hxn)
  unfold avlAdd
  cases t with
  | nil =>
      have hhead : tree.head = none := h.head
      subst hpath
      simp only [hhead, ← hm]
      rfl
  | node c l r =>
      have hhead : tree.head = some c := h.head
      obtain ⟨b, hloop, step, rest, hstep, rfl, hside⟩ :=
        avlAddParent_spec n [] hshape rfl hfuel
      rw [hwn, ← hpath] at hstep
      subst hstep
      have htop : top (plug (step :: rest) (node n nil nil)) = tree.head := by
        rw [top_plug_cons (s := nil), hplug, h.head]
      simp only [hhead, ← hm, hloop, Option.bind_eq_bind, Option.bind_some, htop]
      cases step with
      | left b r =>
          have hleft : m.left b = none := habove.2.1
          have hle : ¬m.weight n > m.weight b := by simpa [Step.above] using hside
          simp only [Step.above, hle, ↓reduceIte, hleft, linkNode, setHole]
          rfl
      | right b l =>
          have hright : m.right b = none := habove.2.2.1
          have hgt : m.weight n > m.weight b := by simpa [Step.above] using hside
          simp only [Step.above, hgt, ↓reduceIte, hright, linkNode, setHole]
          rfl

/-! ## lookup -/

omit [DecidableEq ν] in
/-- **`AvlFind`** looks the weight up. -/
theorem avlFindFrom_eq (ht : Shape m t p) (hfuel : t.numNodes ≤ fuel) :
    avlFindFrom m w fuel (top t) = some (lookup m.weight w t) := by
  induction t generalizing p fuel with
  | nil => rw [top_nil, avlFindFrom]; rfl
  | node n l r ihl ihr =>
      obtain ⟨hp, hleft, hright, hl, hr⟩ := ht
      simp only [numNodes] at hfuel
      obtain ⟨fuel, rfl⟩ : ∃ k, fuel = k + 1 := ⟨fuel - 1, by omega⟩
      rw [top_node, avlFindFrom, lookup, hleft, hright, ihl hl (by omega), ihr hr (by omega)]
      split_ifs <;> rfl

/-! ## the links alone -/

/-- The node is found from the link by `Left` and `Right`. -/
inductive Reach (m : WeightedLinks ν) : Option ν → ν → Prop
  | here (n : ν) : Reach m (some n) n
  | left {a n : ν} : Reach m (m.left a) n → Reach m (some a) n
  | right {a n : ν} : Reach m (m.right a) n → Reach m (some a) n

omit [DecidableEq ν] in
theorem Shape.reach (ht : Shape m t p) : Reach m (top t) n ↔ n ∈ inorder t := by
  induction t generalizing p with
  | nil =>
      refine iff_of_false (fun h => ?_) (by simp)
      cases h
  | node a l r ihl ihr =>
      obtain ⟨-, hleft, hright, hl, hr⟩ := ht
      rw [inorder_node, List.mem_append, List.mem_cons, ← ihl hl, ← ihr hr, ← hleft, ← hright]
      constructor
      · intro h
        cases h with
        | here => exact .inr (.inl rfl)
        | left h => exact .inl h
        | right h => exact .inr (.inr h)
      · rintro (h | rfl | h)
        · exact .left h
        · exact .here n
        · exact .right h

omit [DecidableEq ν] in
theorem Shape.parent_top (ht : Shape m t p) (htop : top t = some a) : m.parent a = p := by
  cases t with
  | nil => simp at htop
  | node b l r =>
      obtain rfl : b = a := by simpa using htop
      exact ht.1

omit [DecidableEq ν] in
/-- The node above a place is its parent. -/
theorem Above.child (h : Above m path (some b)) (ha : aboveOf path = some a) :
    a ∈ around path ∧ (m.left a = some b ∨ m.right a = some b) := by
  match path with
  | [] => simp [aboveOf] at ha
  | .left c r :: path =>
      obtain rfl : c = a := by simpa [aboveOf, Step.above] using ha
      exact ⟨mem_around.mpr (.inl rfl), .inl h.2.1⟩
  | .right c l :: path =>
      obtain rfl : c = a := by simpa [aboveOf, Step.above] using ha
      exact ⟨mem_around.mpr (.inl rfl), .inr h.2.2.1⟩

end Avl

end KernelPanic
