import KernelPanic.Lib.Run
import KernelPanic.Utils.Avl.Tree
import Mathlib.Data.List.Induction

/-!
# KernelPanic.Utils.Avl.Run

Sequences of `AvlAdd` and `AvlDelete`.

`IsSearchTree` says of the links alone, and of what has been added and deleted,
that they are a search tree; `avl_isSearchTree` that they are one after any calls.
-/

namespace KernelPanic

open Avl SearchTree

/-! ## runs -/

/-- A call of a function that changes the tree. -/
inductive AvlCall (ν : Type*) where
  | add (weight : ℕ) (node : ν)
  | delete (node : ν)

/-- The weights of the nodes that were added and not deleted. -/
abbrev AvlHeld (ν : Type*) := ν → Option ℕ

variable {ν : Type*} [DecidableEq ν]

/-- The call on the tree. -/
def avlCall (fuel : ℕ) (tree : AvlTree ν) : AvlCall ν → Option (AvlTree ν)
  | .add weight node => avlAdd fuel weight node tree
  | .delete node => avlDelete fuel node tree

/-- What is held after the call. -/
def AvlCall.held (held : AvlHeld ν) : AvlCall ν → AvlHeld ν
  | .add weight node => Function.update held node (some weight)
  | .delete node => Function.update held node none

/-- What was added by the calls and not deleted by them. -/
def avlHeld (calls : List (AvlCall ν)) : AvlHeld ν := calls.foldl AvlCall.held fun _ => none

/-- The node is added when it is not in the tree, and deleted when it is. -/
def AvlCall.Legal (held : AvlHeld ν) : AvlCall ν → Prop
  | .add _ node => held node = none
  | .delete node => held node ≠ none

/-- Each call is legal after those before it. -/
def LegalCalls (calls : List (AvlCall ν)) : Prop :=
  ∀ earlier call later, calls = earlier ++ call :: later → call.Legal (avlHeld earlier)

/-- The tree after the calls. -/
structure IsSearchTree (fuel : ℕ) (calls : List (AvlCall ν)) (tree : AvlTree ν) : Prop where
  nodes : ∀ n, Reach tree.links tree.head n ↔ avlHeld calls n ≠ none
  weight : ∀ n w, avlHeld calls n = some w → tree.links.weight n = w
  left_le : ∀ a b, Reach tree.links tree.head a → Reach tree.links (tree.links.left a) b →
    tree.links.weight b ≤ tree.links.weight a
  right_gt : ∀ a b, Reach tree.links tree.head a → Reach tree.links (tree.links.right a) b →
    tree.links.weight a < tree.links.weight b
  sorted : ∃ t, Reads tree t ∧
    (inorder t).Pairwise fun a b => tree.links.weight a ≤ tree.links.weight b
  parent_child : ∀ a b, Reach tree.links tree.head a →
    tree.links.left a = some b ∨ tree.links.right a = some b → tree.links.parent b = some a
  child_parent : ∀ a b, Reach tree.links tree.head b → tree.links.parent b = some a →
    Reach tree.links tree.head a ∧ (tree.links.left a = some b ∨ tree.links.right a = some b)
  head : ∀ n, Reach tree.links tree.head n → (tree.links.parent n = none ↔ tree.head = some n)
  deleted : ∀ n, .delete n ∈ calls → avlHeld calls n = none →
    tree.links.left n = none ∧ tree.links.right n = none ∧ tree.links.parent n = none
  find : ∀ w, ∃ found, avlFind fuel w tree = some found ∧
    match found with
    | some n => Reach tree.links tree.head n ∧ tree.links.weight n = w
    | none => ∀ n, Reach tree.links tree.head n → tree.links.weight n ≠ w

/-! ## the invariant -/

variable {calls : List (AvlCall ν)} {call : AvlCall ν} {tree : AvlTree ν} {t : BinaryTree ν}
  {fuel : ℕ} {n : ν}

/-- After the calls the links stand for the tree. -/
structure AvlInvariant (calls : List (AvlCall ν)) (tree : AvlTree ν) (t : BinaryTree ν) : Prop where
  reads : Reads tree t
  ordered : Ordered tree.links.weight t
  nodes : ∀ n, n ∈ inorder t ↔ avlHeld calls n ≠ none
  weight : ∀ n w, avlHeld calls n = some w → tree.links.weight n = w
  deleted : ∀ n, .delete n ∈ calls → avlHeld calls n = none →
    tree.links.left n = none ∧ tree.links.right n = none ∧ tree.links.parent n = none
  size : t.numNodes ≤ calls.length

/-- What is held after one more call. -/
theorem avlHeld_concat : avlHeld (calls ++ [call]) = call.held (avlHeld calls) := by
  simp [avlHeld]

theorem legalCalls_nil : LegalCalls ([] : List (AvlCall ν)) := by
  intro earlier call later h
  simp at h

/-- One more legal call. -/
theorem legalCalls_concat :
    LegalCalls (calls ++ [call]) ↔ LegalCalls calls ∧ call.Legal (avlHeld calls) := by
  constructor
  · refine fun h => ⟨fun earlier call' later heq => ?_, h calls call [] rfl⟩
    exact h earlier call' (later ++ [call]) (by simp [heq])
  · rintro ⟨hcalls, hcall⟩ earlier call' later heq
    obtain rfl | ⟨later, last, rfl⟩ := later.eq_nil_or_concat'
    · obtain ⟨rfl, hlast⟩ := List.append_inj' heq rfl
      obtain rfl : call = call' := by simpa using hlast
      exact hcall
    · rw [← List.cons_append, ← List.append_assoc] at heq
      exact hcalls earlier call' later (List.append_inj' heq rfl).1

/-- A node whose links are as they were has them cleared still. -/
theorem AvlInvariant.cleared (h : AvlInvariant calls tree t) {tree' : AvlTree ν}
    (hsame : SameLinks tree.links tree'.links n) (hdel : .delete n ∈ calls)
    (hheld : avlHeld calls n = none) :
    tree'.links.left n = none ∧ tree'.links.right n = none ∧ tree'.links.parent n = none := by
  obtain ⟨hl, hr, hp⟩ := h.deleted n hdel hheld
  exact ⟨hsame.left.trans hl, hsame.right.trans hr, hsame.parent.trans hp⟩

/-- The empty tree. -/
theorem AvlInvariant.init (m : WeightedLinks ν) : AvlInvariant [] (avlInit m) .nil := by
  refine ⟨⟨rfl, trivial, List.nodup_nil⟩, trivial, ?_, ?_, ?_, le_rfl⟩
  all_goals simp [avlHeld]

/-- `AvlAdd` links the node in. -/
theorem AvlInvariant.add (h : AvlInvariant calls tree t) {w : ℕ} (hlegal : avlHeld calls n = none)
    (hfuel : calls.length ≤ fuel) :
    ∃ tree' t', avlAdd fuel w n tree = some tree' ∧
      AvlInvariant (calls ++ [.add w n]) tree' t' := by
  have hn : n ∉ inorder t := by simp [h.nodes, hlegal]
  obtain ⟨tree', hadd, hweight, hreads, hframe⟩ := h.reads.add (w := w) hn (h.size.trans hfuel)
  have hkeys : ∀ a ∈ inorder t, tree.links.weight a = tree'.links.weight a := by
    intro a ha
    have hne : a ≠ n := fun heq => hn (heq ▸ ha)
    rw [hweight, Function.update_of_ne hne]
  have hordered := (h.ordered.congr hkeys).add (a := n) (k := w) (by simp [hweight])
  have hperm : (inorder (plug
      (descend tree'.links.weight w t []) (.node n .nil .nil))).Perm
      (n :: inorder t) := by
    have hplug : plug (descend tree'.links.weight w t []) (hang .nil .nil) = t := plug_descend
    exact perm_hang.trans (.of_eq (by rw [hplug]))
  refine ⟨tree', _, hadd, hreads, hordered, fun x => ?nodes, fun x v hx => ?weight,
    fun x hx hheld => ?deleted, ?size⟩
  case nodes =>
    rw [hperm.mem_iff, List.mem_cons, h.nodes, avlHeld_concat, AvlCall.held]
    by_cases hxn : x = n <;> simp [hxn]
  case weight =>
    rw [avlHeld_concat, AvlCall.held] at hx
    rw [hweight]
    by_cases hxn : x = n
    · simpa [hxn] using hx
    · rw [Function.update_of_ne hxn] at hx ⊢
      exact h.weight x v hx
  case deleted =>
    rw [avlHeld_concat, AvlCall.held] at hheld
    have hxn : x ≠ n := by
      rintro rfl
      simp at hheld
    rw [Function.update_of_ne hxn] at hheld
    exact h.cleared (hframe x (by simp [h.nodes, hheld]) hxn) (by simpa using hx) hheld
  case size =>
    have hsize := h.size
    rw [numNodes_eq] at hsize ⊢
    rw [hperm.length_eq, List.length_cons, List.length_append, List.length_singleton]
    omega

/-- `AvlDelete` takes the node out. -/
theorem AvlInvariant.delete (h : AvlInvariant calls tree t) (hlegal : avlHeld calls n ≠ none)
    (hfuel : calls.length ≤ fuel) :
    ∃ tree' t', avlDelete fuel n tree = some tree' ∧
      AvlInvariant (calls ++ [.delete n]) tree' t' := by
  obtain ⟨path, l, r, rfl⟩ := exists_plug ((h.nodes n).mpr hlegal)
  have hperm : (inorder (plug path (.node n l r))).Perm (n :: inorder (plug path (hang l r))) :=
    perm_hang
  have hsize := h.size
  rw [numNodes_eq, hperm.length_eq, List.length_cons] at hsize
  have hl : l.numNodes ≤ fuel := by
    rw [inorder_plug, inorder_hang] at hsize
    simp only [List.length_append] at hsize
    rw [numNodes_eq]
    omega
  obtain ⟨tree', hdelete, hreads, hweight, hcleared, hframe⟩ := h.reads.delete hl
  have hnodup := h.reads.nodup
  rw [hperm.nodup_iff, List.nodup_cons] at hnodup
  refine ⟨tree', _, hdelete, hreads, hweight ▸ h.ordered.remove, fun x => ?nodes, fun x v hx => ?weight,
    fun x hx hheld => ?deleted, ?size⟩
  case nodes =>
    have hx := h.nodes x
    rw [hperm.mem_iff, List.mem_cons] at hx
    rw [avlHeld_concat, AvlCall.held]
    by_cases hxn : x = n
    · simp [hxn, hnodup.1]
    · simpa [hxn] using hx
  case weight =>
    rw [avlHeld_concat, AvlCall.held] at hx
    by_cases hxn : x = n
    · simp [hxn] at hx
    · rw [Function.update_of_ne hxn] at hx
      rw [hweight]
      exact h.weight x v hx
  case deleted =>
    by_cases hxn : x = n
    · exact hxn ▸ hcleared
    · rw [avlHeld_concat, AvlCall.held, Function.update_of_ne hxn] at hheld
      exact h.cleared (hframe x (by simp [h.nodes, hheld])) (by simpa [hxn] using hx) hheld
  case size =>
    rw [numNodes_eq, List.length_append, List.length_singleton]
    omega

/-- The invariant holds after any legal calls, and no call fails. -/
theorem AvlInvariant.run (m : WeightedLinks ν) (hlegal : LegalCalls calls)
    (hfuel : calls.length ≤ fuel) :
    ∃ tree t, Run.exec (avlCall fuel) (avlInit m) calls = some tree ∧ AvlInvariant calls tree t := by
  induction calls using List.reverseRecOn with
  | nil => exact ⟨avlInit m, .nil, rfl, .init m⟩
  | append_singleton calls call ih =>
      rw [List.length_append, List.length_singleton] at hfuel
      obtain ⟨hearlier, hcall⟩ := legalCalls_concat.mp hlegal
      obtain ⟨tree, t, hrun, hinv⟩ := ih hearlier (by omega)
      have hone : ∃ tree' t', avlCall fuel tree call = some tree' ∧
          AvlInvariant (calls ++ [call]) tree' t' := by
        cases call with
        | add weight node => exact hinv.add hcall (by omega)
        | delete node => exact hinv.delete hcall (by omega)
      obtain ⟨tree', t', hstep, hinv'⟩ := hone
      exact ⟨tree', t', by simp [Run.exec_append, hrun, Run.exec_cons, hstep], hinv'⟩

/-! ## the links -/

/-- The invariant gives the promises. -/
theorem AvlInvariant.isSearchTree (h : AvlInvariant calls tree t) (hfuel : calls.length ≤ fuel) :
    IsSearchTree fuel calls tree := by
  have hshape := h.reads.shape
  have hreach : ∀ n, Reach tree.links tree.head n ↔ n ∈ inorder t := by
    intro n
    rw [h.reads.head, hshape.reach]
  have hplace : ∀ a, Reach tree.links tree.head a → ∃ path l r, t = plug path (.node a l r) :=
    fun a ha => exists_plug ((hreach a).mp ha)
  refine
    { nodes := fun n => (hreach n).trans (h.nodes n), weight := h.weight, left_le := ?left_le,
      right_gt := ?right_gt, sorted := ⟨t, h.reads, h.ordered.pairwise⟩,
      parent_child := ?parent_child, child_parent := ?child_parent, head := ?head,
      deleted := h.deleted, find := ?find }
  case left_le =>
    intro a b ha hb
    obtain ⟨path, l, r, rfl⟩ := hplace a ha
    obtain ⟨-, -, hleft, -, hl, -⟩ := shape_plug.mp hshape
    rw [hleft, hl.reach] at hb
    exact (ordered_plug.mp h.ordered).1.1 b hb
  case right_gt =>
    intro a b ha hb
    obtain ⟨path, l, r, rfl⟩ := hplace a ha
    obtain ⟨-, -, -, hright, -, hr⟩ := shape_plug.mp hshape
    rw [hright, hr.reach] at hb
    exact (ordered_plug.mp h.ordered).1.2.1 b hb
  case parent_child =>
    intro a b ha hchild
    obtain ⟨path, l, r, rfl⟩ := hplace a ha
    obtain ⟨-, -, hleft, hright, hl, hr⟩ := shape_plug.mp hshape
    rw [hleft, hright] at hchild
    exact hchild.elim hl.parent_top hr.parent_top
  case child_parent =>
    intro a b hb hparent
    obtain ⟨path, l, r, rfl⟩ := hplace b hb
    obtain ⟨habove, hp, -⟩ := shape_plug.mp hshape
    obtain ⟨ha, hchild⟩ := habove.child (hp.symm.trans hparent)
    refine ⟨(hreach a).mpr ?_, hchild⟩
    rw [inorder_plug]
    grind [around]
  case head =>
    intro n hn
    obtain ⟨path, l, r, rfl⟩ := hplace n hn
    obtain ⟨-, hp, -⟩ := shape_plug.mp hshape
    refine ⟨fun hnone => ?_, fun hhead => hshape.parent_top (h.reads.head.symm.trans hhead)⟩
    rw [hp] at hnone
    cases path with
    | nil => exact h.reads.head
    | cons step path => simp [aboveOf] at hnone
  case find =>
    intro w
    have hsize := h.size
    have hfind : avlFind fuel w tree = some (lookup tree.links.weight w t) := by
      rw [avlFind, h.reads.head, avlFindFrom_eq hshape (by omega)]
    have hspec := h.ordered.lookup_spec (k := w)
    refine ⟨_, hfind, ?_⟩
    cases hlookup : lookup tree.links.weight w t with
    | none => simpa only [hlookup, hreach] using hspec
    | some n => simpa only [hlookup, hreach] using hspec

/-- **The search tree** stays one: after `AvlInit`, whatever the links were before, and
any calls that add nodes which are not in it and delete nodes which are. -/
theorem avl_isSearchTree (m : WeightedLinks ν) (calls : List (AvlCall ν))
    (hlegal : LegalCalls calls) (fuel : ℕ) (hfuel : calls.length ≤ fuel) :
    ∃ tree, Run.exec (avlCall fuel) (avlInit m) calls = some tree ∧
      IsSearchTree fuel calls tree := by
  obtain ⟨tree, t, hrun, hinv⟩ := AvlInvariant.run m hlegal hfuel
  exact ⟨tree, hrun, hinv.isSearchTree hfuel⟩

/-- Two nodes of one weight, the upper of them deleted. -/
theorem avl_isSearchTree_two :
    ∃ tree : AvlTree (Fin 2),
      Run.exec (avlCall 3) (avlInit ⟨fun _ => none, fun _ => none, fun _ => none, 0⟩)
        [.add 7 0, .add 7 1, .delete 0] = some tree ∧
      IsSearchTree 3 [.add 7 0, .add 7 1, .delete 0] tree := by
  refine avl_isSearchTree _ _ ?_ 3 (by decide)
  have hone : LegalCalls ([] ++ [AvlCall.add 7 (0 : Fin 2)]) :=
    legalCalls_concat.mpr ⟨legalCalls_nil, rfl⟩
  have htwo : LegalCalls ([.add 7 0] ++ [AvlCall.add 7 (1 : Fin 2)]) :=
    legalCalls_concat.mpr ⟨hone, rfl⟩
  exact legalCalls_concat.mpr ⟨htwo, by simp [AvlCall.Legal, avlHeld, AvlCall.held]⟩

end KernelPanic
