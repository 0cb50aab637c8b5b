import Mathlib.Data.Tree.Basic
import Mathlib.Data.List.Nodup
import Mathlib.Order.Lattice

/-!
# KernelPanic.Lib.SearchTree

Search trees in which equal keys go to the left, and places in them.

A place is the path from it up to the root, the innermost step first, and `plug`
puts a tree there.  Whether the whole is in order is a question about the tree
and about what each step of the path admits (`ordered_plug`), so that an element
is added where the search for its key ends, and removed by hanging its right
subtree under the last element of its left one.

Nothing here names a particular program.
-/

namespace SearchTree

open BinaryTree

variable {α κ : Type*}

/-- The elements in order. -/
def inorder : BinaryTree α → List α
  | nil => []
  | node a l r => inorder l ++ a :: inorder r

/-- The element at the top. -/
def top : BinaryTree α → Option α
  | nil => none
  | node a _ _ => some a

/-- The tree `s` under the last element of another. -/
def hang : BinaryTree α → BinaryTree α → BinaryTree α
  | nil, s => s
  | node a l r, s => node a l (hang r s)

/-- A step down: the element above and the subtree on its other side. -/
inductive Step (α : Type*) where
  | left (above : α) (right : BinaryTree α)
  | right (above : α) (left : BinaryTree α)

/-- The node above. -/
def Step.above : Step α → α
  | left a _ => a
  | right a _ => a

/-- The tree on the other side of it. -/
def Step.side : Step α → BinaryTree α
  | left _ r => r
  | right _ l => l

/-- The tree with `t` in its place. -/
def Step.fill : Step α → BinaryTree α → BinaryTree α
  | left a r, t => node a t r
  | right a l, t => node a l t

/-- The tree at the place. -/
def plug : List (Step α) → BinaryTree α → BinaryTree α
  | [], t => t
  | step :: path, t => plug path (step.fill t)

/-- The element above the place. -/
def aboveOf (path : List (Step α)) : Option α := path.head?.map Step.above

/-- What is before the place. -/
def before : List (Step α) → List α
  | [] => []
  | .left _ _ :: path => before path
  | .right a l :: path => before path ++ (inorder l ++ [a])

/-- What is after the place. -/
def after : List (Step α) → List α
  | [] => []
  | .left a r :: path => a :: inorder r ++ after path
  | .right _ _ :: path => after path

@[simp] theorem inorder_nil : inorder (nil : BinaryTree α) = [] := rfl

@[simp] theorem inorder_node {a : α} {l r : BinaryTree α} :
    inorder (node a l r) = inorder l ++ a :: inorder r := rfl

@[simp] theorem top_nil : top (nil : BinaryTree α) = none := rfl

@[simp] theorem top_node {a : α} {l r : BinaryTree α} : top (node a l r) = some a := rfl

@[simp] theorem hang_nil_left {s : BinaryTree α} : hang nil s = s := rfl

@[simp] theorem hang_node {a : α} {l r s : BinaryTree α} :
    hang (node a l r) s = node a l (hang r s) := rfl

/-- Nothing is hung on. -/
@[simp] theorem hang_nil_right {t : BinaryTree α} : hang t nil = t := by
  induction t with
  | nil => rfl
  | node a l r _ ih => rw [hang, ih]

variable {t s l r : BinaryTree α} {path : List (Step α)} {step : Step α} {a b : α}

/-- A tree that is hung on comes last. -/
@[simp] theorem inorder_hang : inorder (hang t s) = inorder t ++ inorder s := by
  induction t with
  | nil => rfl
  | node a l r _ ih => simp [hang, ih]

/-- The nodes around the place come before and after those in it. -/
theorem inorder_plug : inorder (plug path t) = before path ++ inorder t ++ after path := by
  induction path generalizing t with
  | nil => simp [plug, before, after]
  | cons step path ih => cases step <;> simp [plug, before, after, ih, Step.fill]

/-- What a place gains or loses with the element at its top. -/
theorem perm_hang :
    (inorder (plug path (node a l r))).Perm (a :: inorder (plug path (hang l r))) := by
  simp only [inorder_plug, inorder_node, inorder_hang, List.append_assoc, List.cons_append]
  rw [← List.append_assoc, ← List.append_assoc (before path)]
  exact List.perm_middle

/-- Every node is listed once for each time it occurs. -/
theorem numNodes_eq : t.numNodes = (inorder t).length := by
  induction t with
  | nil => rfl
  | node a l r ihl ihr => simp [ihl, ihr]; omega

/-- The root is in the tree. -/
theorem top_mem (h : top t = some a) : a ∈ inorder t := by
  cases t with
  | nil => simp at h
  | node b l r => simp_all

/-- Every element has its place. -/
theorem exists_plug (h : a ∈ inorder t) : ∃ path l r, t = plug path (node a l r) := by
  suffices h : ∀ path, ∃ path' l r, plug path t = plug path' (node a l r) from h []
  induction t with
  | nil => simp at h
  | node b l r ihl ihr =>
      intro path
      simp only [inorder_node, List.mem_append, List.mem_cons] at h
      obtain h | rfl | h := h
      · exact ihl h (.left b r :: path)
      · exact ⟨path, l, r, rfl⟩
      · exact ihr h (.right b l :: path)

/-! ## the order -/

variable [LinearOrder κ] {key : α → κ} {k : κ}

/-- A search tree. -/
def Ordered (key : α → κ) : BinaryTree α → Prop
  | nil => True
  | node a l r =>
    (∀ b ∈ inorder l, key b ≤ key a) ∧ (∀ b ∈ inorder r, key a < key b) ∧
      Ordered key l ∧ Ordered key r

/-- The search for the key takes the step. -/
def Step.Admits (key : α → κ) (k : κ) : Step α → Prop
  | left a _ => k ≤ key a
  | right a _ => key a < k

/-- A tree is ordered when its parts are, and the node above is between them. -/
theorem ordered_fill : Ordered key (step.fill t) ↔
    Ordered key t ∧ (∀ b ∈ inorder t, step.Admits key (key b)) ∧ Ordered key (step.fill nil) := by
  cases step <;> simp [Step.fill, Ordered, Step.Admits] <;> tauto

/-- The nodes of a tree are those of its parts. -/
theorem mem_fill : b ∈ inorder (step.fill t) ↔ b ∈ inorder t ∨ b ∈ inorder (step.fill nil) := by
  cases step <;> simp [Step.fill]
  all_goals tauto

/-- **Order at a place**: of the tree there, of what the path admits, and of the
rest. -/
theorem ordered_plug : Ordered key (plug path t) ↔
    Ordered key t ∧ (∀ step ∈ path, ∀ b ∈ inorder t, step.Admits key (key b)) ∧
      Ordered key (plug path nil) := by
  induction path generalizing t with
  | nil => simp [plug, Ordered]
  | cons step path ih =>
      rw [plug, plug, ih, ih (t := step.fill nil), ordered_fill]
      simp only [mem_fill (t := t), List.forall_mem_cons]
      grind

/-- A tree whose keys are greater may be hung on. -/
theorem ordered_hang (ht : Ordered key t) (hs : Ordered key s)
    (hlt : ∀ a ∈ inorder t, ∀ b ∈ inorder s, key a < key b) : Ordered key (hang t s) := by
  induction t with
  | nil => exact hs
  | node a l r _ ih =>
      obtain ⟨hl, hr, hol, hor⟩ := ht
      have hrest := ih hor fun b hb => hlt b (by simp [hb])
      refine ⟨hl, fun b hb => ?_, hol, hrest⟩
      rw [inorder_hang, List.mem_append] at hb
      exact hb.elim (hr b) (hlt a (by simp) b)

/-- The order depends on the keys of the nodes alone. -/
theorem Ordered.congr {key' : α → κ} (h : Ordered key t)
    (hkey : ∀ a ∈ inorder t, key a = key' a) : Ordered key' t := by
  induction t with
  | nil => trivial
  | node a l r ihl ihr =>
      obtain ⟨hl, hr, hol, hor⟩ := h
      refine ⟨?_, ?_, ihl hol fun b hb => hkey b (by simp [hb]), ihr hor fun b hb => hkey b (by simp [hb])⟩
      · grind [inorder_node]
      · grind [inorder_node]

/-- **Removal**: the right subtree hung under the left one takes the place of both. -/
theorem Ordered.remove (h : Ordered key (plug path (node a l r))) :
    Ordered key (plug path (hang l r)) := by
  rw [ordered_plug] at h ⊢
  obtain ⟨⟨hl, hr, hol, hor⟩, hadmits, hrest⟩ := h
  refine ⟨ordered_hang hol hor fun b hb c hc => (hl b hb).trans_lt (hr c hc), ?_, hrest⟩
  intro step hstep b hb
  refine hadmits step hstep b ?_
  simp_all [or_left_comm]

/-- The elements of a search tree in order are in the order of their keys. -/
theorem Ordered.pairwise (h : Ordered key t) :
    (inorder t).Pairwise fun a b => key a ≤ key b := by
  induction t with
  | nil => exact .nil
  | node a l r ihl ihr =>
      obtain ⟨hl, hr, hol, hor⟩ := h
      rw [inorder_node, List.pairwise_append, List.pairwise_cons]
      refine ⟨ihl hol, ⟨fun b hb => (hr b hb).le, ihr hor⟩, fun b hb c hc => ?_⟩
      obtain rfl | hc := List.mem_cons.mp hc
      · exact hl b hb
      · exact (hl b hb).trans (hr c hc).le

/-! ## searches -/

/-- Where the search for the key ends. -/
def descend (key : α → κ) (k : κ) : BinaryTree α → List (Step α) → List (Step α)
  | nil, path => path
  | node a l r, path =>
    if key a < k then descend key k r (.right a l :: path)
    else descend key k l (.left a r :: path)

/-- The first element with the key on the way down. -/
def lookup (key : α → κ) (k : κ) : BinaryTree α → Option α
  | nil => none
  | node a l r =>
    if key a = k then some a else if key a < k then lookup key k r else lookup key k l

/-- The search leads to an empty place of the same tree. -/
theorem plug_descend : plug (descend key k t path) nil = plug path t := by
  induction t generalizing path with
  | nil => rfl
  | node a l r ihl ihr =>
      unfold descend
      split
      · rw [ihr]; rfl
      · rw [ihl]; rfl

/-- The key may stand where the search for it leads. -/
theorem admits_descend (h : ∀ step ∈ path, step.Admits key k) :
    ∀ step ∈ descend key k t path, step.Admits key k := by
  induction t generalizing path with
  | nil => exact h
  | node a l r ihl ihr =>
      unfold descend
      split
      · exact ihr (List.forall_mem_cons.mpr ⟨‹key a < k›, h⟩)
      · exact ihl (List.forall_mem_cons.mpr ⟨not_lt.mp ‹¬key a < k›, h⟩)

/-- **Addition** at the end of the search. -/
theorem Ordered.add (h : Ordered key t) (hk : key a = k) :
    Ordered key (plug (descend key k t []) (node a nil nil)) := by
  rw [ordered_plug, plug_descend]
  refine ⟨by simp [Ordered], fun step hstep b hb => ?_, h⟩
  obtain rfl : b = a := by simpa using hb
  rw [hk]
  exact admits_descend (by simp) step hstep

/-- **Lookup** finds an element with the key if there is one. -/
theorem Ordered.lookup_spec (h : Ordered key t) :
    match lookup key k t with
    | some a => a ∈ inorder t ∧ key a = k
    | none => ∀ a ∈ inorder t, key a ≠ k := by
  induction t with
  | nil => simp [lookup]
  | node a l r ihl ihr =>
      obtain ⟨hl, hr, hol, hor⟩ := h
      unfold lookup
      split_ifs with heq hlt
      · simp [heq]
      · grind [inorder_node]
      · grind [inorder_node]

end SearchTree
