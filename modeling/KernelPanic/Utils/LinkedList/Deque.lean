import KernelPanic.Lib.Run
import KernelPanic.Utils.LinkedList
import Mathlib.Data.List.Cycle

/-!
# KernelPanic.Utils.LinkedList.Deque

The lists of `utils/linkedlist.c` are deques.

All lists lie in one pool of links, and a list is only its `Head`.  The
abstract state is a sequence of nodes for each list: push prepends, enqueue
appends, pop removes the first.  A node may be added only when it is in no
list; where it has been before, and what links it was left with, does not
matter.

`linkedLists_are_deques` says that after any such calls every list is a
circular list of its members in the order of its sequence, and that a call on
one list leaves the links of the members of all others alone.
-/

namespace KernelPanic

open Run

variable {ι ν : Type*} [DecidableEq ι] [DecidableEq ν]

/-! ## the calls -/

/-- `LinkedListInit`. -/
def linkedListInit : Option ν := none

/-- `LinkedListPeek`. -/
def linkedListPeek (head : Option ν) : Option ν := head

/-- The loop of `DumpList`: the nodes it comes to, `none` when `fuel` is used up
before it is back at `head`. -/
def dumpLoop (m : Links ν) (head : ν) : ℕ → ν → Option (List ν)
  | 0, _ => none
  | fuel + 1, cur =>
      if m.next cur ≠ head then (dumpLoop m head fuel (m.next cur)).map (cur :: ·)
      else some [cur]

/-- `DumpList`. -/
def dumpList (m : Links ν) (fuel : ℕ) : Option ν → Option (List ν)
  | none => some []
  | some head => dumpLoop m head fuel head

/-- The pool of links, `Head` of each list, and what the pops so far have
returned. -/
structure ListPool (ι ν : Type*) where
  links : Links ν
  head : ι → Option ν
  returned : List (Option ν)

inductive ListCall (ι ν : Type*) where
  | push (node : ν) (list : ι)
  | enqueue (node : ν) (list : ι)
  | pop (list : ι)
deriving DecidableEq

/-- The list the call is about. -/
def ListCall.list : ListCall ι ν → ι
  | push _ list => list
  | enqueue _ list => list
  | pop list => list

namespace ListPool

/-- After `LinkedListInit` of every list; the links are what was in memory. -/
def init (m : Links ν) : ListPool ι ν := ⟨m, fun _ => linkedListInit, []⟩

/-- `LinkedListPush`, `LinkedListEnqueue` or `LinkedListPop`. -/
def call (s : ListPool ι ν) : ListCall ι ν → ListPool ι ν
  | .push node list =>
      let r := linkedListPush s.links node (s.head list)
      { s with links := r.1, head := Function.update s.head list r.2 }
  | .enqueue node list =>
      let r := linkedListEnqueue s.links node (s.head list)
      { s with links := r.1, head := Function.update s.head list r.2 }
  | .pop list =>
      let r := linkedListPop s.links (s.head list)
      ⟨r.2.1, Function.update s.head list r.2.2, s.returned ++ [r.1]⟩

end ListPool

/-! ## deques -/

/-- The members of each list in order, and what the pops so far have returned. -/
structure Deques (ι ν : Type*) where
  members : ι → List ν
  returned : List (Option ν)

namespace Deques

def empty : Deques ι ν := ⟨fun _ => [], []⟩

/-- A call may be made: the node it adds is in no list. -/
def Permits (d : Deques ι ν) : ListCall ι ν → Prop
  | .push node _ => ∀ i, node ∉ d.members i
  | .enqueue node _ => ∀ i, node ∉ d.members i
  | .pop _ => True

def call (d : Deques ι ν) : ListCall ι ν → Deques ι ν
  | .push node list => { d with members := Function.update d.members list (node :: d.members list) }
  | .enqueue node list => { d with members := Function.update d.members list (d.members list ++ [node]) }
  | .pop list =>
      ⟨Function.update d.members list (d.members list).tail,
        d.returned ++ [(d.members list).head?]⟩

open Classical in
/-- A call, when it may be made. -/
noncomputable def step (d : Deques ι ν) (c : ListCall ι ν) : Option (Deques ι ν) :=
  if d.Permits c then some (d.call c) else none

end Deques

/-- The list at `head` is the deque `l`: its nodes are one cycle in the order of
`l`, by `Next` forwards and by `Prev` backwards, and reading it from `head` until
`head` comes again gives `l`. -/
structure IsDeque (m : Links ν) (head : Option ν) (l : List ν) : Prop where
  nodup : l.Nodup
  next : ∀ a (ha : a ∈ l), m.next a = l.next a ha
  prev : ∀ a (ha : a ∈ l), m.prev a = l.prev a ha
  inverse : ∀ a ∈ l, m.prev (m.next a) = a ∧ m.next (m.prev a) = a
  empty : head = none ↔ l = []
  isEmpty : linkedListIsEmpty head = l.isEmpty
  peek : linkedListPeek head = l.head?
  reading : ∀ fuel ≥ l.length, dumpList m fuel head = some l

variable {m : Links ν} {head : Option ν} {l : List ν} {n : ν}

/-! ## reading a list -/

section reading

omit [DecidableEq ν]

/-- Neighbours in a list are linked. -/
theorem IsList.linked_getElem (h : IsList m head l) {i : ℕ} (hi : i < l.length)
    (hnext : (i + 1) % l.length < l.length) : m.Linked l[i] l[(i + 1) % l.length] := by
  obtain ⟨x, hx⟩ : ∃ x, l.head? = some x := by
    cases l with
    | nil => simp at hi
    | cons x l => exact ⟨x, rfl⟩
  have hlinked := h.linked
  rw [hx, Option.toList_some, List.isChain_iff_getElem] at hlinked
  have hstep := hlinked i (by simpa using hi)
  rw [List.getElem_append_left hi] at hstep
  by_cases hlast : i + 1 < l.length
  · rw [List.getElem_append_left hlast] at hstep
    simpa only [Nat.mod_eq_of_lt hlast] using hstep
  · have hlen : i + 1 = l.length := by omega
    have hfirst : l[0] = x := by
      rw [List.head?_eq_getElem?, List.getElem?_eq_getElem (by omega)] at hx
      exact Option.some.inj hx
    simp only [hlen, Nat.mod_self, List.getElem_concat_length] at hstep ⊢
    rwa [hfirst]

end reading

theorem IsList.next_eq (h : IsList m head l) {a : ν} (ha : a ∈ l) : m.next a = l.next a ha := by
  obtain ⟨i, hi, rfl⟩ := List.getElem_of_mem ha
  rw [List.next_getElem l h.nodup i hi]
  exact (h.linked_getElem hi (Nat.mod_lt _ (by omega))).1

omit [DecidableEq ν] in
theorem IsList.prev_next (h : IsList m head l) {a : ν} (ha : a ∈ l) : m.prev (m.next a) = a := by
  obtain ⟨i, hi, rfl⟩ := List.getElem_of_mem ha
  have hlinked := h.linked_getElem hi (Nat.mod_lt _ (by omega))
  rw [hlinked.1]
  exact hlinked.2

theorem IsList.prev_eq (h : IsList m head l) {a : ν} (ha : a ∈ l) : m.prev a = l.prev a ha := by
  have hback := h.prev_next (List.prev_mem l a ha)
  rwa [h.next_eq (List.prev_mem l a ha), List.next_prev l h.nodup] at hback

theorem IsList.next_prev (h : IsList m head l) {a : ν} (ha : a ∈ l) : m.next (m.prev a) = a := by
  rw [h.prev_eq ha, h.next_eq (List.prev_mem l a ha), List.next_prev l h.nodup]

/-- The loop reads a chain to its end, where `head` comes again. -/
theorem dumpLoop_eq {x : ν} {fuel : ℕ} (h : (n :: l ++ [x]).IsChain m.Linked) (hx : x ∉ l)
    (hf : l.length < fuel) : dumpLoop m x fuel n = some (n :: l) := by
  induction l generalizing n fuel with
  | nil =>
      cases fuel with
      | zero => cases hf
      | succ fuel =>
          obtain ⟨hlinked, -⟩ := List.isChain_cons_cons.mp h
          have hback : m.next n = x := hlinked.1
          simp [dumpLoop, hback]
  | cons a l ih =>
      cases fuel with
      | zero => cases hf
      | succ fuel =>
          obtain ⟨hlinked, hrest⟩ := List.isChain_cons_cons.mp h
          have hnext : m.next n = a := hlinked.1
          have hne : a ≠ x := fun e => hx (e ▸ List.mem_cons_self)
          have hread := ih hrest (fun hmem => hx (List.mem_cons_of_mem a hmem))
            (Nat.lt_of_succ_lt_succ hf)
          simp [dumpLoop, hnext, hne, hread]

/-- **`DumpList`** reads the members in order. -/
theorem IsList.dumpList_eq (h : IsList m head l) {fuel : ℕ} (hf : l.length ≤ fuel) :
    dumpList m fuel head = some l := by
  have hhead := h.head_eq
  cases l with
  | nil =>
      subst hhead
      rfl
  | cons x l =>
      subst hhead
      exact dumpLoop_eq h.linked (List.nodup_cons.mp h.nodup).1 hf

theorem IsList.isDeque (h : IsList m head l) : IsDeque m head l where
  nodup := h.nodup
  next a ha := h.next_eq ha
  prev a ha := h.prev_eq ha
  inverse a ha := ⟨h.prev_next ha, h.next_prev ha⟩
  empty := h.head_eq_none
  isEmpty := by
    rw [linkedListIsEmpty, h.head_eq]
    cases l <;> rfl
  peek := h.head_eq
  reading fuel hf := h.dumpList_eq hf

/-! ## what a call writes -/

/-- Inserting before the first node writes only to the list's members and to the
new node. -/
theorem IsList.insert_frame (h : IsList m head l) {a : ν} (ha : a ∉ l) (han : a ≠ n) :
    (linkedListInsert m n head).next a = m.next a ∧
      (linkedListInsert m n head).prev a = m.prev a := by
  cases hhead : head with
  | none => simp [linkedListInsert, han]
  | some x =>
      have hx : x ∈ l := List.mem_of_mem_head? (h.head_eq.symm.trans hhead)
      have hax : a ≠ x := fun e => ha (e ▸ hx)
      have hprev : a ≠ m.prev x := fun e => ha (e ▸ h.prev_eq hx ▸ List.prev_mem l x hx)
      simp [linkedListInsert, han, hax, hprev]

/-- Removing a member writes only to the list's members. -/
theorem IsList.remove_frame (h : IsList m head l) (hn : n ∈ l) {a : ν} (ha : a ∉ l) :
    (linkedListRemove m n).next a = m.next a ∧ (linkedListRemove m n).prev a = m.prev a := by
  have han : a ≠ n := fun e => ha (e ▸ hn)
  have hnext : a ≠ m.next n := fun e => ha (e ▸ h.next_eq hn ▸ List.next_mem l n hn)
  have hprev : a ≠ m.prev n := fun e => ha (e ▸ h.prev_eq hn ▸ List.prev_mem l n hn)
  simp [linkedListRemove, han, hnext, hprev]

/-- **Push** prepends a node that is in no list. -/
theorem IsList.push (h : IsList m head l) (hn : n ∉ l) :
    IsList (linkedListPush m n head).1 (linkedListPush m n head).2 (n :: l) := by
  obtain rfl | ⟨ys, z, rfl⟩ := List.eq_nil_or_concat' l
  · have hhead : head = none := h.head_eq_none.mpr rfl
    subst hhead
    have hone := h.enqueue hn
    have hself : (linkedListInsert m n none).next n = n := by simp [linkedListInsert]
    rw [linkedListEnqueue, hself] at hone
    exact hone
  · obtain ⟨x, hx⟩ : ∃ x, (ys ++ [z]).head? = some x := Option.isSome_iff_exists.mp (by simp)
    have hhead : head = some x := h.head_eq.trans hx
    subst hhead
    obtain ⟨hchain, hnx⟩ := linkedListInsert_chain h hx hn
    have hsplit : ys ++ [z] ++ [n] = ys ++ z :: n :: [] := by simp
    rw [hsplit, List.isChain_append_cons_cons] at hchain
    obtain ⟨hfront, hzn, -⟩ := hchain
    have hall : (n :: (ys ++ [z])).IsChain (linkedListInsert m n (some x)).Linked := by
      cases ys with
      | nil =>
          obtain rfl : z = x := Option.some.inj hx
          exact List.isChain_cons_cons.mpr ⟨hnx, hfront⟩
      | cons y ys =>
          obtain rfl : y = x := Option.some.inj hx
          exact List.isChain_cons_cons.mpr ⟨hnx, hfront⟩
    have hlast : (n :: ys ++ [z]).head? = some n := rfl
    exact (isList_concat_iff hlast).mpr ⟨rfl, List.nodup_cons.mpr ⟨hn, h.nodup⟩, hall, hzn⟩

/-- A pop writes only to the list's members. -/
theorem IsList.pop_frame (h : IsList m head l) {a : ν} (ha : a ∉ l) :
    (linkedListPop m head).2.1.next a = m.next a ∧
      (linkedListPop m head).2.1.prev a = m.prev a := by
  cases hhead : head with
  | none => exact ⟨rfl, rfl⟩
  | some x =>
      have hx : x ∈ l := List.mem_of_mem_head? (h.head_eq.symm.trans hhead)
      unfold linkedListPop
      split
      · cases ‹some x = none›
      · next top htop =>
          obtain rfl : x = top := Option.some.inj htop
          split
          · exact ⟨rfl, rfl⟩
          · exact h.remove_frame hx ha

/-! ## the calls keep the deques -/

/-- The lists are the deques `d`, and no node is in two of them. -/
structure Represents (s : ListPool ι ν) (d : Deques ι ν) : Prop where
  list : ∀ i, IsList s.links (s.head i) (d.members i)
  apart : ∀ i j, i ≠ j → (d.members i).Disjoint (d.members j)
  returned : s.returned = d.returned

/-- The links of `a` are the same before and after. -/
def LinksKept (m m' : Links ν) (a : ν) : Prop := m'.next a = m.next a ∧ m'.prev a = m.prev a

variable {s : ListPool ι ν} {d d' : Deques ι ν} {c : ListCall ι ν}

omit [DecidableEq ι] [DecidableEq ν] in
theorem represents_init (m : Links ν) : Represents (ListPool.init m : ListPool ι ν) .empty where
  list _ := isList_nil
  apart _ _ _ := List.disjoint_nil_left []
  returned := rfl

/-- **Frame**: a call on one list changes no link of a node in another. -/
theorem Represents.frame (h : Represents s d) (hc : d.Permits c) {j : ι} (hj : j ≠ c.list) {a : ν}
    (ha : a ∈ d.members j) : LinksKept s.links (s.call c).links a := by
  cases c with
  | push node list =>
      have hne : a ≠ node := fun e => hc j (e ▸ ha)
      exact (h.list list).insert_frame (fun hl => h.apart j list hj ha hl) hne
  | enqueue node list =>
      have hne : a ≠ node := fun e => hc j (e ▸ ha)
      exact (h.list list).insert_frame (fun hl => h.apart j list hj ha hl) hne
  | pop list => exact (h.list list).pop_frame (fun hl => h.apart j list hj ha hl)

theorem ListPool.head_call_of_ne {j : ι} (hj : j ≠ c.list) : (s.call c).head j = s.head j := by
  cases c <;> exact Function.update_of_ne hj ..

omit [DecidableEq ν] in
theorem Deques.members_call_of_ne {j : ι} (hj : j ≠ c.list) :
    (d.call c).members j = d.members j := by
  cases c <;> exact Function.update_of_ne hj ..

omit [DecidableEq ν] in
/-- The members of a list after a call on it were its members, or in no list. -/
theorem Deques.mem_call (hc : d.Permits c) {a : ν} (ha : a ∈ (d.call c).members c.list) :
    a ∈ d.members c.list ∨ ∀ j, a ∉ d.members j := by
  cases c with
  | push node list =>
      simp only [Deques.call, ListCall.list, Function.update_self, List.mem_cons] at ha
      obtain rfl | ha := ha
      · exact .inr hc
      · exact .inl ha
  | enqueue node list =>
      simp only [Deques.call, ListCall.list, Function.update_self, List.mem_append,
        List.mem_singleton] at ha
      obtain ha | rfl := ha
      · exact .inl ha
      · exact .inr hc
  | pop list =>
      simp only [Deques.call, ListCall.list, Function.update_self] at ha
      exact .inl (List.mem_of_mem_tail ha)

/-- A call does to its list what it does to the deque. -/
theorem Represents.call_list (h : Represents s d) (hc : d.Permits c) :
    IsList (s.call c).links ((s.call c).head c.list) ((d.call c).members c.list) := by
  cases c with
  | push node list =>
      simp only [ListPool.call, Deques.call, ListCall.list, Function.update_self]
      exact (h.list list).push (hc list)
  | enqueue node list =>
      simp only [ListPool.call, Deques.call, ListCall.list, Function.update_self]
      exact (h.list list).enqueue (hc list)
  | pop list =>
      simp only [ListPool.call, Deques.call, ListCall.list, Function.update_self]
      exact (h.list list).pop.2

/-- **A call that may be made keeps the deques.** -/
theorem Represents.call (h : Represents s d) (hc : d.Permits c) :
    Represents (s.call c) (d.call c) where
  list i := by
    by_cases hi : i = c.list
    · rw [hi]
      exact h.call_list hc
    · rw [ListPool.head_call_of_ne hi, Deques.members_call_of_ne hi]
      exact (h.list i).frame (fun a ha => (h.frame hc hi ha).1) fun a ha => (h.frame hc hi ha).2
  apart i j hij := by
    -- Only the list of the call has members that it did not have before.
    have hother : ∀ j, j ≠ c.list →
        ((d.call c).members c.list).Disjoint ((d.call c).members j) := by
      intro j hj a ha haj
      rw [Deques.members_call_of_ne hj] at haj
      obtain hold | hnew := Deques.mem_call hc ha
      · exact h.apart j c.list hj haj hold
      · exact hnew j haj
    by_cases hi : i = c.list
    · rw [hi]
      exact hother j fun hj => hij (hi.trans hj.symm)
    · by_cases hj : j = c.list
      · rw [hj]
        exact (hother i hi).symm
      · rw [Deques.members_call_of_ne hi, Deques.members_call_of_ne hj]
        exact h.apart i j hij
  returned := by
    cases c with
    | push node list => exact h.returned
    | enqueue node list => exact h.returned
    | pop list =>
        have hpop := (h.list list).pop.1
        rw [ListPool.call, Deques.call, hpop, h.returned]

/-- The same over any calls that may be made. -/
theorem Represents.run {calls : List (ListCall ι ν)} (h : Represents s d)
    (hrun : exec Deques.step d calls = some d') : Represents (calls.foldl ListPool.call s) d' := by
  induction calls generalizing s d with
  | nil =>
      rw [exec_nil, Option.some.injEq] at hrun
      exact hrun ▸ h
  | cons c calls ih =>
      obtain ⟨t, hstep, hrest⟩ := exec_cons_eq_some.mp hrun
      obtain ⟨hc, ht⟩ := Option.ite_none_right_eq_some.mp hstep
      rw [Option.some.injEq] at ht
      subst ht
      exact ih (h.call hc) hrest

/-- **The lists of one pool are deques**, after any calls of which each adds a
node that is in no list; and the next call changes no link of a node in another
list. -/
theorem linkedLists_are_deques (m : Links ν) (calls : List (ListCall ι ν))
    (hrun : exec Deques.step .empty calls = some d) :
    let s : ListPool ι ν := calls.foldl ListPool.call (.init m)
    (∀ i, IsDeque s.links (s.head i) (d.members i)) ∧
      (∀ i j, i ≠ j → (d.members i).Disjoint (d.members j)) ∧
      s.returned = d.returned ∧
      ∀ c, d.Permits c → ∀ j ≠ c.list, (s.call c).head j = s.head j ∧
        ∀ a ∈ d.members j, LinksKept s.links (s.call c).links a := by
  intro s
  have hrep : Represents s d := (represents_init m).run hrun
  exact ⟨fun i => (hrep.list i).isDeque, hrep.apart, hrep.returned, fun c hc j hj =>
    ⟨ListPool.head_call_of_ne hj, fun a ha => hrep.frame hc hj ha⟩⟩

/-- Two lists, the second of which gets a node that the first has given back. -/
def sampleCalls : List (ListCall Bool ℕ) :=
  [.push 1 true, .enqueue 2 false, .push 3 true, .pop true, .enqueue 3 false]

theorem linkedLists_are_deques_sample :
    let s : ListPool Bool ℕ := sampleCalls.foldl ListPool.call (.init ⟨fun _ => 0, fun _ => 7⟩)
    IsDeque s.links (s.head false) [2, 3] ∧ IsDeque s.links (s.head true) [1] ∧
      s.returned = [some 3] := by
  have hrun : exec Deques.step .empty sampleCalls =
      some (sampleCalls.foldl Deques.call .empty) := by
    simp [exec, sampleCalls, Deques.step, Deques.Permits, Deques.call, Deques.empty]
  obtain ⟨hlist, -, hreturned, -⟩ := linkedLists_are_deques ⟨fun _ => 0, fun _ => 7⟩ sampleCalls hrun
  exact ⟨hlist false, hlist true, hreturned⟩

end KernelPanic
