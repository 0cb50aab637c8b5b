import Mathlib.Data.List.Chain
import Mathlib.Data.List.Nodup
import Mathlib.Logic.Function.Basic

/-!
# KernelPanic.Utils.LinkedList

The intrusive circular list of `utils/linkedlist.c`.  Nodes carry their own
`Next` and `Prev`, so all lists share one pool of links (`Links`) and a list
is only a head pointer; nothing records whether a node is linked already.

`IsList m head l` says that reading the links from `head` gives the cycle `l`.
The operations are the source's assignments in the source's order, and the
theorems say what each does to the sequence: enqueue appends, push prepends,
pop removes and returns the first node.  Enqueue and push need the node to be
in no list; `IsList.enqueue_linked` says what becomes of a list when one of
its nodes is enqueued a second time.
-/

namespace KernelPanic

variable {ν : Type*} [DecidableEq ν]

/-! ## the pool of links -/

/-- `struct LINKED_LIST_LINK` of every node. -/
structure Links (ν : Type*) where
  next : ν → ν
  prev : ν → ν

namespace Links

def setNext (m : Links ν) (n v : ν) : Links ν := { m with next := Function.update m.next n v }

def setPrev (m : Links ν) (n v : ν) : Links ν := { m with prev := Function.update m.prev n v }

variable (m : Links ν) (n v a : ν)

@[simp] theorem setNext_prev : (m.setNext n v).prev = m.prev := rfl

@[simp] theorem setPrev_next : (m.setPrev n v).next = m.next := rfl

@[simp] theorem setNext_next : (m.setNext n v).next a = if a = n then v else m.next a := by
  simp [setNext, Function.update_apply]

@[simp] theorem setPrev_prev : (m.setPrev n v).prev a = if a = n then v else m.prev a := by
  simp [setPrev, Function.update_apply]

end Links

/-! ## the operations -/

/-- `LinkedListInsert`: link `node` in before `list`, or make it a list of its
own when `list` is `NULL`. -/
def linkedListInsert (m : Links ν) (node : ν) : Option ν → Links ν
  | none => (m.setNext node node).setPrev node node
  | some list =>
      let m := m.setNext node list
      let m := m.setPrev node (m.prev list)
      let m := m.setNext (m.prev list) node
      m.setPrev list node

/-- `LinkedListRemove`. -/
def linkedListRemove (m : Links ν) (node : ν) : Links ν :=
  let m := m.setNext (m.prev node) (m.next node)
  let m := m.setPrev (m.next node) (m.prev node)
  let m := m.setNext node node
  m.setPrev node node

/-- `LinkedListPush`: the links and the head after it. -/
def linkedListPush (m : Links ν) (node : ν) (head : Option ν) : Links ν × Option ν :=
  (linkedListInsert m node head, some node)

/-- `LinkedListEnqueue`: the links and the head after it. -/
def linkedListEnqueue (m : Links ν) (node : ν) (head : Option ν) : Links ν × Option ν :=
  let m := linkedListInsert m node head
  (m, some (m.next node))

/-- `LinkedListPop`: the node returned, the links and the head after it. -/
def linkedListPop (m : Links ν) (head : Option ν) : Option ν × Links ν × Option ν :=
  match head with
  | none => (none, m, none)
  | some top =>
      if top = m.next top then (some top, m, none)
      else (some top, linkedListRemove m top, some (m.next top))

/-- `LinkedListIsEmpty`. -/
def linkedListIsEmpty (head : Option ν) : Bool := head.isNone

/-! ## what a head pointer stands for -/

/-- `b` follows `a`: both links say so. -/
def Links.Linked (m : Links ν) (a b : ν) : Prop := m.next a = b ∧ m.prev b = a

/-- Reading the links from `head` gives the circular list `l`: `head` is its
first node (`NULL` when there is none), no node occurs twice, and each node is
linked to the one after it, the last to the first. -/
structure IsList (m : Links ν) (head : Option ν) (l : List ν) : Prop where
  head_eq : head = l.head?
  nodup : l.Nodup
  linked : (l ++ l.head?.toList).IsChain m.Linked

variable {m m' : Links ν} {head : Option ν} {l : List ν} {n : ν}

omit [DecidableEq ν] in
theorem isList_nil : IsList m none [] := ⟨rfl, List.nodup_nil, .nil⟩

omit [DecidableEq ν] in
theorem IsList.head_eq_none (h : IsList m head l) : head = none ↔ l = [] := by
  rw [h.head_eq, List.head?_eq_none_iff]

/- A chain of links only reads `Next` of all but its last node and `Prev` of
all but its first. -/
omit [DecidableEq ν] in
theorem chain_frame (h : l.IsChain m.Linked) (hnext : ∀ a ∈ l.dropLast, m'.next a = m.next a)
    (hprev : ∀ b ∈ l.tail, m'.prev b = m.prev b) : l.IsChain m'.Linked := by
  induction l with
  | nil => exact .nil
  | cons a l ih =>
      cases l with
      | nil => exact .singleton a
      | cons b l =>
          obtain ⟨hab, hrest⟩ := List.isChain_cons_cons.mp h
          have hna : m'.next a = m.next a := hnext a (by simp)
          have hpb : m'.prev b = m.prev b := hprev b (by simp)
          refine List.isChain_cons_cons.mpr ⟨⟨hna.trans hab.1, hpb.trans hab.2⟩, ?_⟩
          refine ih hrest (fun c hc => hnext c ?_) (fun c hc => hprev c ?_)
          · rw [List.dropLast_cons_cons]
            exact List.mem_cons_of_mem a hc
          · exact List.mem_cons_of_mem b hc

omit [DecidableEq ν] in
/-- **Frame**: a list is untouched by writes to the links of other nodes. -/
theorem IsList.frame (h : IsList m head l) (hnext : ∀ a ∈ l, m'.next a = m.next a)
    (hprev : ∀ a ∈ l, m'.prev a = m.prev a) : IsList m' head l := by
  refine ⟨h.head_eq, h.nodup, chain_frame h.linked (fun a ha => hnext a ?_) fun b hb => hprev b ?_⟩
  · cases l with
    | nil => simp at ha
    | cons x xs =>
        rw [List.head?_cons, Option.toList_some, List.dropLast_concat] at ha
        exact ha
  · cases l with
    | nil => simp at hb
    | cons x xs =>
        simp only [List.head?_cons, Option.toList_some, List.cons_append, List.tail_cons,
          List.mem_append, List.mem_singleton] at hb
        obtain hb | hb := hb
        · exact List.mem_cons_of_mem x hb
        · rw [hb]; exact List.mem_cons_self

omit [DecidableEq ν] in
/-- A non-empty list, opened at its last link. -/
theorem isList_concat_iff {ys : List ν} {x z : ν} (hx : (ys ++ [z]).head? = some x) :
    IsList m head (ys ++ [z]) ↔ head = some x ∧ (ys ++ [z]).Nodup ∧
      (ys ++ [z]).IsChain m.Linked ∧ m.Linked z x := by
  have hsplit : ys ++ [z] ++ [x] = ys ++ z :: x :: [] := by simp
  constructor
  · intro h
    have hchain := h.linked
    rw [hx, Option.toList_some, hsplit, List.isChain_append_cons_cons] at hchain
    exact ⟨h.head_eq.trans hx, h.nodup, hchain.1, hchain.2.1⟩
  · rintro ⟨hhead, hnd, hchain, hlast⟩
    refine ⟨hhead.trans hx.symm, hnd, ?_⟩
    rw [hx, Option.toList_some, hsplit, List.isChain_append_cons_cons]
    exact ⟨hchain, hlast, .singleton x⟩

/-! ## insert, enqueue and push -/

/-- `Next` after an insert before `x`. -/
theorem linkedListInsert_next {x : ν} (hx : n ≠ x) (a : ν) :
    (linkedListInsert m n (some x)).next a =
      if a = m.prev x then n else if a = n then x else m.next a := by
  simp [linkedListInsert, Ne.symm hx]

/-- `Prev` after an insert before `x`. -/
theorem linkedListInsert_prev {x : ν} (a : ν) :
    (linkedListInsert m n (some x)).prev a =
      if a = x then n else if a = n then m.prev x else m.prev a := by
  simp [linkedListInsert]

/-- Inserting before the first node links the new node in after the last. -/
theorem linkedListInsert_chain {ys : List ν} {x z : ν} (h : IsList m head (ys ++ [z]))
    (hx : (ys ++ [z]).head? = some x) (hn : n ∉ ys ++ [z]) :
    (ys ++ [z] ++ [n]).IsChain (linkedListInsert m n (some x)).Linked ∧
      (linkedListInsert m n (some x)).Linked n x := by
  obtain ⟨-, hnd, hchain, hlast⟩ := (isList_concat_iff hx).mp h
  have hxmem : x ∈ ys ++ [z] := List.mem_of_mem_head? hx
  have hnx : n ≠ x := fun e => hn (e ▸ hxmem)
  have hnz : n ≠ z := fun e => hn (e ▸ by simp)
  have hzys : z ∉ ys := by
    rw [List.nodup_append] at hnd
    exact fun hz => hnd.2.2 z hz z (by simp) rfl
  constructor
  · have hsplit : ys ++ [z] ++ [n] = ys ++ z :: n :: [] := by simp
    rw [hsplit, List.isChain_append_cons_cons]
    refine ⟨chain_frame hchain (fun a ha => ?_) fun b hb => ?_, ⟨?_, ?_⟩, .singleton n⟩
    · rw [List.dropLast_concat] at ha
      have haz : a ≠ z := fun e => hzys (e ▸ ha)
      have han : a ≠ n := fun e => hn (e ▸ by simp [ha])
      rw [linkedListInsert_next hnx, hlast.2, if_neg haz, if_neg han]
    · have hbx : b ≠ x := by
        intro e
        subst e
        cases ys with
        | nil => simp at hb
        | cons y ys =>
            simp only [List.cons_append, List.head?_cons, Option.some.injEq] at hx
            subst hx
            exact (List.nodup_cons.mp hnd).1 hb
      have hbn : b ≠ n := fun e => hn (e ▸ List.mem_of_mem_tail hb)
      rw [linkedListInsert_prev, if_neg hbx, if_neg hbn]
    · rw [linkedListInsert_next hnx, hlast.2, if_pos rfl]
    · rw [linkedListInsert_prev, if_neg hnx, if_pos rfl, hlast.2]
  · constructor
    · rw [linkedListInsert_next hnx, hlast.2, if_neg hnz, if_pos rfl]
    · rw [linkedListInsert_prev, if_pos rfl]

/-- **Enqueue** appends a node that is in no list. -/
theorem IsList.enqueue (h : IsList m head l) (hn : n ∉ l) :
    IsList (linkedListEnqueue m n head).1 (linkedListEnqueue m n head).2 (l ++ [n]) := by
  obtain rfl | ⟨ys, z, rfl⟩ := List.eq_nil_or_concat' l
  · rw [h.head_eq_none.mpr rfl]
    exact (isList_concat_iff (x := n) rfl).mpr
      ⟨by simp [linkedListEnqueue, linkedListInsert], List.nodup_singleton n, .singleton n,
        by simp [linkedListEnqueue, linkedListInsert, Links.Linked]⟩
  · obtain ⟨x, hx⟩ : ∃ x, (ys ++ [z]).head? = some x := Option.isSome_iff_exists.mp (by simp)
    have hhead : head = some x := h.head_eq.trans hx
    subst hhead
    obtain ⟨hchain, hnx⟩ := linkedListInsert_chain h hx hn
    refine (isList_concat_iff (x := x) (by rw [List.head?_append, hx]; rfl)).mpr ⟨?_, ?_, hchain, hnx⟩
    · exact congrArg some hnx.1
    · rw [List.nodup_append]
      exact ⟨h.nodup, List.nodup_singleton n, fun a ha b hb e => hn (by simp_all)⟩

/-! ## pop -/

/-- `Next` after removing `x`, linked between `z` and `y`. -/
theorem linkedListRemove_next {x y z : ν} (hy : m.next x = y) (hz : m.prev x = z) (a : ν) :
    (linkedListRemove m x).next a = if a = x then x else if a = z then y else m.next a := by
  simp [linkedListRemove, hy, hz]

/-- `Prev` after removing `x`, linked between `z` and `y`. -/
theorem linkedListRemove_prev {x y z : ν} (hy : m.next x = y) (hz : m.prev x = z) (hzx : z ≠ x)
    (a : ν) :
    (linkedListRemove m x).prev a = if a = x then x else if a = y then z else m.prev a := by
  simp [linkedListRemove, hy, hz, Ne.symm hzx]

/-- Removing the first of several nodes closes the cycle behind it. -/
theorem IsList.remove_head {x y : ν} {ys : List ν} (h : IsList m (some x) (x :: y :: ys)) :
    m.next x = y ∧ IsList (linkedListRemove m x) (some y) (y :: ys) := by
  obtain ⟨ws, z, hwz⟩ : ∃ ws z, y :: ys = ws ++ [z] := by
    obtain hnil | hcat := List.eq_nil_or_concat' (y :: ys)
    · simp at hnil
    · exact hcat
  rw [hwz, ← List.cons_append] at h
  obtain ⟨-, hnd, hchain, hlast⟩ := (isList_concat_iff (x := x) rfl).mp h
  rw [List.cons_append, ← hwz] at hnd hchain
  obtain ⟨hxy, hchain⟩ := List.isChain_cons_cons.mp hchain
  obtain ⟨hxnot, hnd⟩ := List.nodup_cons.mp hnd
  have hzx : z ≠ x := fun e => hxnot (by rw [hwz, ← e]; simp)
  refine ⟨hxy.1, ?_⟩
  have hy : (ws ++ [z]).head? = some y := by rw [← hwz]; rfl
  rw [hwz] at hchain hnd hxnot ⊢
  refine (isList_concat_iff hy).mpr ⟨rfl, hnd, chain_frame hchain (fun a ha => ?_) fun b hb => ?_,
    ?_, ?_⟩
  · rw [List.dropLast_concat] at ha
    have hax : a ≠ x := fun e => hxnot (e ▸ by simp [ha])
    have haz : a ≠ z := by
      rw [List.nodup_append] at hnd
      exact fun e => hnd.2.2 a ha z (by simp) e
    rw [linkedListRemove_next hxy.1 hlast.2, if_neg hax, if_neg haz]
  · have hbx : b ≠ x := fun e => hxnot (e ▸ List.mem_of_mem_tail hb)
    have hby : b ≠ y := by
      rw [← hwz] at hnd hb
      exact fun e => (List.nodup_cons.mp hnd).1 (e ▸ hb)
    rw [linkedListRemove_prev hxy.1 hlast.2 hzx, if_neg hbx, if_neg hby]
  · rw [linkedListRemove_next hxy.1 hlast.2, if_neg hzx, if_pos rfl]
  · have hyx : y ≠ x := fun e => hxnot (e ▸ List.mem_of_mem_head? hy)
    rw [linkedListRemove_prev hxy.1 hlast.2 hzx, if_neg hyx, if_pos rfl]

/-- **Pop** returns the first node, `NULL` exactly when there is none, and
leaves the rest. -/
theorem IsList.pop (h : IsList m head l) :
    (linkedListPop m head).1 = l.head? ∧
      IsList (linkedListPop m head).2.1 (linkedListPop m head).2.2 l.tail := by
  have hhead := h.head_eq
  match l with
  | [] =>
      subst hhead
      exact ⟨rfl, isList_nil⟩
  | [x] =>
      subst hhead
      have hone : IsList m (some x) ([] ++ [x]) := h
      have hlast := ((isList_concat_iff (x := x) rfl).mp hone).2.2.2
      simp only [linkedListPop, List.head?_cons, hlast.1, ↓reduceIte, List.tail_cons]
      exact ⟨trivial, isList_nil⟩
  | x :: y :: ys =>
      subst hhead
      obtain ⟨hxy, hrest⟩ := h.remove_head
      have hne : ¬ x = y := fun e => (List.nodup_cons.mp h.nodup).1 (e ▸ List.mem_cons_self)
      simp only [linkedListPop, List.head?_cons, hxy, hne, ↓reduceIte, List.tail_cons]
      exact ⟨trivial, hrest⟩

/-! ## enqueueing a node that is linked already -/

omit [DecidableEq ν] in
/-- Reading a chain stays inside every set that `Next` does not leave. -/
theorem chain_mem_of_closed {S : ν → Prop} (hnext : ∀ x, S x → S (m.next x)) {x : ν}
    (h : (x :: l).IsChain m.Linked) (hx : S x) : ∀ y ∈ x :: l, S y := by
  induction l generalizing x with
  | nil => simpa using hx
  | cons z l ih =>
      obtain ⟨hxz, hrest⟩ := List.isChain_cons_cons.mp h
      have hz : S z := hxz.1 ▸ hnext x hx
      intro y hy
      obtain rfl | hy := List.mem_cons.mp hy
      · exact hx
      · exact ih hrest hz y hy

omit [DecidableEq ν] in
/-- A list stays inside every set that holds its head and that `Next` does not
leave. -/
theorem IsList.mem_of_closed {S : ν → Prop} (h : IsList m head l)
    (hhead : ∀ x, head = some x → S x) (hnext : ∀ x, S x → S (m.next x)) : ∀ y ∈ l, S y := by
  cases l with
  | nil => simp
  | cons x l =>
      have hchain : (x :: (l ++ [x])).IsChain m.Linked := h.linked
      intro y hy
      refine chain_mem_of_closed hnext hchain (hhead x h.head_eq) y ?_
      rw [← List.cons_append]
      exact List.mem_append_left [x] hy

omit [DecidableEq ν] in
/-- `Next` of a node in the front of a list is in the front, or the node right
after it. -/
theorem chain_next_mem {l₁ l₂ : List ν} (h : (l₁ ++ n :: l₂).IsChain m.Linked) {x : ν}
    (hx : x ∈ l₁) : m.next x ∈ l₁ ++ [n] := by
  obtain ⟨as, bs, rfl⟩ := List.append_of_mem hx
  cases bs with
  | nil =>
      rw [List.append_assoc, List.cons_append, List.nil_append,
        List.isChain_append_cons_cons] at h
      simp [h.2.1.1]
  | cons b bs =>
      rw [List.append_assoc, List.cons_append, List.cons_append,
        List.isChain_append_cons_cons] at h
      simp [h.2.1.1]

omit [DecidableEq ν] in
/-- A head pointer does not read two different sets of nodes. -/
theorem IsList.subset {l' : List ν} (h : IsList m head l) (h' : IsList m head l') : l' ⊆ l := by
  refine h'.mem_of_closed (S := (· ∈ l)) (fun x hx => ?_) fun x hx => ?_
  · exact List.mem_of_mem_head? (h.head_eq ▸ hx)
  · cases l with
    | nil => simp at hx
    | cons y l =>
        have hchain : (y :: l ++ y :: []).IsChain m.Linked := h.linked
        have hmem := chain_next_mem hchain hx
        obtain hm | hm := List.mem_append.mp hmem
        · exact hm
        · exact List.mem_singleton.mp hm ▸ List.mem_cons_self

/-- A node alone in its list may be enqueued once more. -/
theorem IsList.enqueue_alone (h : IsList m head [n]) :
    IsList (linkedListEnqueue m n head).1 (linkedListEnqueue m n head).2 [n] := by
  have hhead : head = some n := h.head_eq
  subst hhead
  have hone : IsList m (some n) ([] ++ [n]) := h
  have hlast := ((isList_concat_iff (x := n) rfl).mp hone).2.2.2
  show IsList _ _ ([] ++ [n])
  refine (isList_concat_iff (x := n) rfl).mpr
    ⟨?_, List.nodup_singleton n, .singleton n, ?_, ?_⟩ <;>
  simp [linkedListEnqueue, linkedListInsert, hlast.2]

/-- Enqueueing `n` and popping returns a node other than `u`, and leaves `u` in
no reading of the list. -/
def LosesNode (m : Links ν) (head : Option ν) (n u : ν) : Prop :=
  let r := linkedListEnqueue m n head
  let p := linkedListPop r.1 r.2
  p.1 ≠ some u ∧ ∀ l, IsList p.2.1 p.2.2 l → u ∉ l

/-- A node that the enqueue links to itself is popped alone: all others are
lost. -/
theorem losesNode_of_self {x u : ν} (hself : (linkedListInsert m n (some x)).next n = n)
    (hu : u ≠ n) : LosesNode m (some x) n u := by
  have hpop : linkedListPop (linkedListEnqueue m n (some x)).1
      (linkedListEnqueue m n (some x)).2 = (some n, linkedListInsert m n (some x), none) := by
    simp [linkedListEnqueue, linkedListPop, hself]
  simp only [LosesNode, hpop]
  refine ⟨fun e => hu (Option.some.inj e).symm, fun l hl => ?_⟩
  rw [hl.head_eq_none.mp rfl]
  exact List.not_mem_nil

/-- A node enqueued again from the middle of its list is linked back to the
first node: all nodes behind it are lost. -/
theorem losesNode_of_middle {x u : ν} {l₁ l₂ : List ν}
    (h : IsList m head (x :: l₁ ++ n :: l₂)) (hu : u ∈ l₂) : LosesNode m head n u := by
  have hhead : head = some x := h.head_eq
  subst hhead
  obtain ⟨hnx, hux, hnu, hul⟩ : n ≠ x ∧ u ≠ x ∧ n ≠ u ∧ u ∉ l₁ := by
    have hnd := h.nodup
    simp only [List.cons_append, List.nodup_cons, List.mem_append, List.mem_cons,
      List.nodup_append] at hnd
    grind
  have hchain : (x :: l₁ ++ n :: (l₂ ++ [x])).IsChain m.Linked := by
    simpa using h.linked
  have hprev : m.prev x ∈ l₂ := by
    obtain ⟨ys, z, rfl⟩ : ∃ ys z, l₂ = ys ++ [z] :=
      (List.eq_nil_or_concat' l₂).resolve_left (List.ne_nil_of_mem hu)
    have hl : IsList m (some x) ((x :: l₁ ++ n :: ys) ++ [z]) := by simpa using h
    have hlast := ((isList_concat_iff (x := x) rfl).mp hl).2.2.2
    simp [hlast.2]
  have hfront : ∀ a ∈ x :: l₁, a ≠ m.prev x ∧ a ≠ n := by
    have hdisj := (List.nodup_append'.mp h.nodup).2.2
    exact fun a ha => ⟨fun e => hdisj ha (List.mem_cons_of_mem n (e ▸ hprev)),
      fun e => hdisj ha (e ▸ List.mem_cons_self)⟩
  have hnprev : n ≠ m.prev x := fun e => by
    have hback := (List.nodup_append'.mp h.nodup).2.1
    exact (List.nodup_cons.mp hback).1 (e ▸ hprev)
  have hnext : ∀ a ∈ x :: l₁, (linkedListInsert m n (some x)).next a = m.next a := fun a ha => by
    rw [linkedListInsert_next hnx, if_neg (hfront a ha).1, if_neg (hfront a ha).2]
  have hnn : (linkedListInsert m n (some x)).next n = x := by
    rw [linkedListInsert_next hnx, if_neg hnprev, if_pos rfl]
  have hpx : (linkedListInsert m n (some x)).prev x = n := by
    rw [linkedListInsert_prev, if_pos rfl]
  have hxy := hnext x List.mem_cons_self
  have hyx : x ≠ m.next x := fun e => by
    have hback : m.prev (m.next x) = x := by
      cases l₁ <;> obtain ⟨hl, -⟩ := List.isChain_cons_cons.mp hchain <;> rw [hl.1, hl.2]
    rw [← e] at hback
    exact (hfront x List.mem_cons_self).1 hback.symm
  have hpop : linkedListPop (linkedListEnqueue m n (some x)).1
      (linkedListEnqueue m n (some x)).2 =
        (some x, linkedListRemove (linkedListInsert m n (some x)) x, some (m.next x)) := by
    simp [linkedListEnqueue, linkedListPop, hnn, hxy, hyx]
  simp only [LosesNode, hpop]
  refine ⟨fun e => hux (Option.some.inj e).symm, fun l hl hmem => ?_⟩
  have hS := hl.mem_of_closed (S := fun a => a ∈ x :: l₁ ++ [n]) ?_ ?_ u hmem
  · simp only [List.cons_append, List.mem_cons, List.mem_append, List.not_mem_nil, or_false] at hS
    obtain hS | hS | hS := hS
    · exact hux hS
    · exact hul hS
    · exact hnu hS.symm
  · intro a ha
    exact Option.some.inj ha ▸ chain_next_mem hchain List.mem_cons_self
  · intro a ha
    rw [linkedListRemove_next hxy hpx]
    split
    · exact List.mem_cons_self
    · split
      · exact chain_next_mem hchain List.mem_cons_self
      · next han =>
          have hal : a ∈ x :: l₁ := (List.mem_append.mp ha).resolve_right (by simpa using han)
          rw [hnext a hal]
          exact chain_next_mem hchain hal

/-- **A node linked beside others must not be enqueued again**: the pop that
follows loses another node. -/
theorem IsList.enqueue_linked (h : IsList m head l) (hn : n ∈ l) (hl : l ≠ [n]) :
    ∃ u ∈ l, LosesNode m head n u := by
  obtain ⟨l₁, l₂, rfl⟩ := List.append_of_mem hn
  have hnd : l₁.Disjoint (n :: l₂) := (List.nodup_append'.mp h.nodup).2.2
  match l₁, l₂ with
  | [], [] => exact absurd rfl hl
  | [], u :: l₂ =>
      have hhead : head = some n := h.head_eq
      have hun : u ≠ n := fun e => (List.nodup_cons.mp h.nodup).1 (by simp [e])
      subst hhead
      exact ⟨u, by simp, losesNode_of_self (by simp [linkedListInsert]) hun⟩
  | x :: l₁, [] =>
      have hhead : head = some x := h.head_eq
      have hxn : x ≠ n := fun e => hnd (by simp [e]) (List.mem_singleton.mpr rfl)
      have hx : (x :: l₁ ++ [n]).head? = some x := rfl
      have hlast := ((isList_concat_iff hx).mp h).2.2.2
      subst hhead
      refine ⟨x, by simp, losesNode_of_self ?_ hxn⟩
      rw [linkedListInsert_next (Ne.symm hxn), hlast.2, if_pos rfl]
  | x :: l₁, u :: l₂ => exact ⟨u, by simp, losesNode_of_middle h List.mem_cons_self⟩

end KernelPanic
