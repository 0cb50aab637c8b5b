import Mathlib.Algebra.Group.Nat.Defs
import Mathlib.Logic.Function.Basic
import Mathlib.Data.List.Count

/-!
# KernelPanic.Utils.AtomicList

The lock-free stack of `utils/atomiclist.c`, one memory access at a time.

`AtomicListPush` and `AtomicListPop` are routines that a nested interrupt can
suspend between any two of their memory accesses, so each is given as a
function from the registers and the memory to the registers and the memory
after its *next* access (`pushAccess`, `popAccess`), `none` once it has
returned.  `complete` runs a routine with nothing in between; that is what a
nested interrupt does, and `atomicListPush_eq` / `atomicListPop_eq` are its
effect on the list.

The head cell is `union ATOMIC_UNION` with the field layout of the 64-bit PC
build: `void *`, `COUNT` and `DOUBLE_COUNT` are 8 bytes each, so `Atomic`
overlays `Tuple.Pointer` alone and `Tuple.Generation` lies behind it.
-/

namespace KernelPanic

variable {ν : Type*} [DecidableEq ν]

/-! ## memory -/

/-- `union ATOMIC_UNION`: `Tuple.Pointer` (`NULL` is `none`) and the
`COUNT` after it. -/
structure AtomicUnion (ν : Type*) where
  pointer : Option ν
  generation : Nat
deriving DecidableEq

namespace AtomicUnion

/-- Reading `Atomic`: eight bytes, the ones `Tuple.Pointer` occupies. -/
def atomic (u : AtomicUnion ν) : Option ν := u.pointer

/-- Writing `Atomic`: `Tuple.Generation` keeps its bytes. -/
def setAtomic (u : AtomicUnion ν) (a : Option ν) : AtomicUnion ν := { u with pointer := a }

end AtomicUnion

/-- The memory the list code touches: `Next` of every node, and the head. -/
structure AtomicMem (ν : Type*) where
  next : ν → Option ν
  head : AtomicUnion ν

/-- `CompareAndSwap` and `DoubleCompareAndSwap`
(`__sync_val_compare_and_swap`): the new contents of the cell, and the old
ones, which are returned. -/
def compareAndSwap {α : Type*} [DecidableEq α] (var old next : α) : α × α :=
  (if var = old then next else var, var)

/-! ## AtomicListPush -/

/-- The next memory access of `AtomicListPush`. -/
inductive PushPc where
  | loadHead
  | storeNext
  | loadExpected
  | swap
  | loopTest
  | returned
deriving DecidableEq

/-- The registers of `AtomicListPush`: the value on its way into
`node->Next`, the separately loaded expected value, and what the
compare-and-swap returned. -/
structure PushRegs (ν : Type*) where
  pc : PushPc
  loaded : Option ν
  expected : Option ν
  observed : Option ν

def pushStart : PushRegs ν := ⟨.loadHead, none, none, none⟩

/-- One memory access of `AtomicListPush(node, list)`. -/
def pushAccess (node : ν) (r : PushRegs ν) (m : AtomicMem ν) :
    Option (PushRegs ν × AtomicMem ν) :=
  match r.pc with
  | .loadHead => some ({ r with pc := .storeNext, loaded := m.head.pointer }, m)
  | .storeNext =>
      some ({ r with pc := .loadExpected },
        { m with next := Function.update m.next node r.loaded })
  | .loadExpected => some ({ r with pc := .swap, expected := m.head.pointer }, m)
  | .swap =>
      let c := compareAndSwap m.head.pointer r.expected (some node)
      some ({ r with pc := .loopTest, observed := c.2 },
        { m with head := { m.head with pointer := c.1 } })
  | .loopTest =>
      some ({ r with pc := if m.next node ≠ r.observed then .loadHead else .returned }, m)
  | .returned => none

/-! ## AtomicListPop -/

/-- The next memory access of `AtomicListPop`. -/
inductive PopPc where
  | loadHead
  | loadNext
  | swap
  | returned
deriving DecidableEq

/-- The locals of `AtomicListPop`: the two unions, the generation taken from
`oldHead.Tuple`, and the node returned. -/
structure PopRegs (ν : Type*) where
  pc : PopPc
  oldHead : AtomicUnion ν
  newHead : AtomicUnion ν
  generation : Nat
  result : Option ν

/-- The unions start with whatever was on the stack. -/
def popStart (junk : AtomicUnion ν) : PopRegs ν := ⟨.loadHead, junk, junk, 0, none⟩

/-- One memory access of `AtomicListPop(list)`. -/
def popAccess (r : PopRegs ν) (m : AtomicMem ν) : Option (PopRegs ν × AtomicMem ν) :=
  match r.pc with
  | .loadHead =>
      let oldHead := r.oldHead.setAtomic m.head.atomic
      match oldHead.pointer with
      | none => some ({ r with pc := .returned, oldHead := oldHead, result := none }, m)
      | some _ =>
          some ({ r with pc := .loadNext, oldHead := oldHead,
                         generation := oldHead.generation }, m)
  | .loadNext =>
      let next := r.oldHead.pointer.bind m.next
      let generation := (r.generation + 1) % 2 ^ 64
      some ({ r with pc := .swap, generation := generation, newHead := ⟨next, generation⟩ }, m)
  | .swap =>
      let c := compareAndSwap m.head.atomic r.oldHead.atomic r.newHead.atomic
      let m := { m with head := m.head.setAtomic c.1 }
      if r.oldHead.atomic ≠ c.2 then
        some ({ r with pc := .loadHead }, m)
      else
        some ({ r with pc := .returned, result := r.oldHead.pointer }, m)
  | .returned => none

/-- The swap of a pop that finds the pointer it loaded in the head. -/
theorem popAccess_swap_same {r : PopRegs ν} {m : AtomicMem ν} (hpc : r.pc = .swap)
    (h : m.head.pointer = r.oldHead.pointer) :
    popAccess r m = some ({ r with pc := .returned, result := r.oldHead.pointer },
      { m with head := { m.head with pointer := r.newHead.pointer } }) := by
  simp [popAccess, hpc, compareAndSwap, AtomicUnion.atomic, AtomicUnion.setAtomic, h]

/-- The swap of a pop that finds another pointer there. -/
theorem popAccess_swap_diff {r : PopRegs ν} {m : AtomicMem ν} (hpc : r.pc = .swap)
    (h : m.head.pointer ≠ r.oldHead.pointer) :
    popAccess r m = some ({ r with pc := .loadHead }, m) := by
  simp [popAccess, hpc, compareAndSwap, AtomicUnion.atomic, AtomicUnion.setAtomic, h, Ne.symm h]

/-! ## uninterrupted execution -/

/-- Run a routine for at most `k` accesses, with nothing in between. -/
def complete {ρ μ : Type*} (routine : ρ → μ → Option (ρ × μ)) : Nat → ρ → μ → ρ × μ
  | 0, r, m => (r, m)
  | k + 1, r, m =>
      match routine r m with
      | none => (r, m)
      | some (r', m') => complete routine k r' m'

/-- `AtomicListPush` with nothing in between: five accesses. -/
def atomicListPush (m : AtomicMem ν) (node : ν) : AtomicMem ν :=
  (complete (pushAccess node) 5 pushStart m).2

/-- `AtomicListPop` with nothing in between: at most three accesses. -/
def atomicListPop (m : AtomicMem ν) : Option ν × AtomicMem ν :=
  let c := complete popAccess 3 (popStart ⟨none, 0⟩) m
  (c.1.result, c.2)

/-- `AtomicListInit`. -/
def atomicListInit (m : AtomicMem ν) : AtomicMem ν := { m with head := ⟨none, 0⟩ }

/-- An uninterrupted push goes through its loop once. -/
theorem pushAccess_complete (m : AtomicMem ν) (node : ν) :
    complete (pushAccess node) 5 pushStart m =
      (⟨.returned, m.head.pointer, m.head.pointer, m.head.pointer⟩,
        ⟨Function.update m.next node m.head.pointer, { m.head with pointer := some node }⟩) := by
  simp [complete, pushAccess, pushStart, compareAndSwap]

/-- An uninterrupted push links the node in front. -/
theorem atomicListPush_eq (m : AtomicMem ν) (node : ν) :
    atomicListPush m node =
      ⟨Function.update m.next node m.head.pointer, { m.head with pointer := some node }⟩ := by
  rw [atomicListPush, pushAccess_complete]

/-- An uninterrupted pop of an empty list returns `NULL`. -/
theorem atomicListPop_none (m : AtomicMem ν) (h : m.head.pointer = none) :
    atomicListPop m = (none, m) := by
  simp [atomicListPop, complete, popAccess, popStart, AtomicUnion.atomic,
    AtomicUnion.setAtomic, h]

/-- An uninterrupted pop of a non-empty list unlinks its first node. -/
theorem atomicListPop_some (m : AtomicMem ν) (a : ν) (h : m.head.pointer = some a) :
    atomicListPop m = (some a, { m with head := { m.head with pointer := m.next a } }) := by
  simp [atomicListPop, complete, popAccess, popStart, AtomicUnion.atomic,
    AtomicUnion.setAtomic, compareAndSwap, h]

/-! ## what a list holds -/

/-- Following `Next` from `p` visits exactly `l` and then reaches `NULL`. -/
def Follows (next : ν → Option ν) : Option ν → List ν → Prop
  | p, [] => p = none
  | p, a :: l => p = some a ∧ Follows next (next a) l

/-- The memory is a well-formed list holding `l`, first node first. -/
def AtomicMem.Holds (m : AtomicMem ν) (l : List ν) : Prop := Follows m.next m.head.pointer l

variable {next : ν → Option ν} {p : Option ν} {l l' : List ν}

omit [DecidableEq ν] in
/-- What a pointer leads to is determined by the `Next` fields. -/
theorem Follows.unique (h : Follows next p l) (h' : Follows next p l') : l = l' := by
  induction l generalizing p l' with
  | nil =>
      cases l' with
      | nil => rfl
      | cons b l' => rw [h] at h'; exact absurd h'.1 (by simp)
  | cons a l ih =>
      cases l' with
      | nil => rw [h'] at h; exact absurd h.1 (by simp)
      | cons b l' =>
          have hab : a = b := Option.some.inj (h.1.symm.trans h'.1)
          subst hab
          rw [ih h.2 h'.2]

omit [DecidableEq ν] in
/-- A node on the way leads to the rest of the list. -/
theorem Follows.suffix {u v : List ν} {a : ν} (h : Follows next p (u ++ a :: v)) :
    Follows next (some a) (a :: v) := by
  induction u generalizing p with
  | nil => exact ⟨rfl, h.2⟩
  | cons b u ih => exact ih h.2

omit [DecidableEq ν] in
/-- A walk that reaches `NULL` visits no node twice. -/
theorem Follows.nodup (h : Follows next p l) : l.Nodup := by
  induction l generalizing p with
  | nil => exact List.nodup_nil
  | cons a l ih =>
      refine List.nodup_cons.mpr ⟨fun ha => ?_, ih h.2⟩
      obtain ⟨u, v, rfl⟩ := List.append_of_mem ha
      have hv : v = u ++ a :: v := (Follows.suffix h.2).2.unique h.2
      have hlen := congrArg List.length hv
      simp at hlen
      omega

/-- Writing `Next` of a node that is not on the list changes nothing. -/
theorem Follows.update {n : ν} {q : Option ν} (h : Follows next p l) (hn : n ∉ l) :
    Follows (Function.update next n q) p l := by
  induction l generalizing p with
  | nil => exact h
  | cons a l ih =>
      have han : a ≠ n := fun e => hn (e ▸ List.mem_cons_self)
      refine ⟨h.1, ?_⟩
      rw [Function.update_of_ne han]
      exact ih h.2 fun hl => hn (List.mem_cons_of_mem a hl)

/-- **Sequential push**: an uninterrupted push of a node that is not on the
list puts it in front. -/
theorem AtomicMem.Holds.push {m : AtomicMem ν} {n : ν} (h : m.Holds l) (hn : n ∉ l) :
    (atomicListPush m n).Holds (n :: l) := by
  rw [atomicListPush_eq]
  refine ⟨rfl, ?_⟩
  dsimp only
  rw [Function.update_self]
  exact Follows.update h hn

/-- **Sequential pop**: an uninterrupted pop returns the first node, `NULL`
exactly when there is none, and leaves the rest. -/
theorem AtomicMem.Holds.pop {m : AtomicMem ν} (h : m.Holds l) :
    (atomicListPop m).1 = l.head? ∧ (atomicListPop m).2.Holds l.tail ∧
      (atomicListPop m).2.next = m.next := by
  cases l with
  | nil => rw [atomicListPop_none m h]; exact ⟨rfl, h, rfl⟩
  | cons a l => rw [atomicListPop_some m a h.1]; exact ⟨rfl, h.2, rfl⟩

end KernelPanic
