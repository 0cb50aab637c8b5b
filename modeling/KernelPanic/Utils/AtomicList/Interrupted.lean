import KernelPanic.Lib.Run
import KernelPanic.Utils.AtomicList

/-!
# KernelPanic.Utils.AtomicList.Interrupted

`AtomicListPush` and `AtomicListPop` under nested interrupts: between any two
memory accesses of the routine, any number of complete pushes and pops of
other nodes may run.  `Interrupted.step` is that machine, and it logs what the
interrupts put on the list and took off it; `HoldsExactly` is the accounting
both routines are meant to keep.

Neither keeps it unconditionally.

* `AtomicListPush` reads the head twice, once into `node->Next` and once for
  the value the compare-and-swap expects.  Swap and loop test agree as long as
  the head equals both readings or neither (`SwapAgrees`); then the push is
  correct whatever the interrupts do.  When they disagree the node is linked
  in front of a stale successor, or not linked at all.
* `AtomicListPop` compares eight bytes, the pointer; the generation behind it
  takes no part.  It is correct exactly when the head's `Next` is still the
  one it loaded (`NextUnchanged`).
-/

namespace KernelPanic

open Run

variable {ν ρ : Type*} [DecidableEq ν]

/-! ## the machine -/

/-- What happens next: the routine makes its next memory access, or a nested
interrupt performs a complete list operation. -/
inductive ListEvent (ν : Type*) where
  | access
  | push (n : ν)
  | pop
deriving DecidableEq

/-- A routine under way: its registers, the memory, and the nodes interrupts
have pushed and popped so far. -/
structure Interrupted (ρ ν : Type*) where
  regs : ρ
  mem : AtomicMem ν
  pushed : List ν
  popped : List ν

namespace Interrupted

/-- One event.  `l₀` is what the list held at the start; an interrupt pushes
only a node that is not on the list and that no other owner (`reserved`) is
pushing. -/
def step (routine : ρ → AtomicMem ν → Option (ρ × AtomicMem ν)) (l₀ reserved : List ν) :
    Interrupted ρ ν → ListEvent ν → Option (Interrupted ρ ν)
  | s, .access => (routine s.regs s.mem).map fun c => { s with regs := c.1, mem := c.2 }
  | s, .push n =>
      if n ∉ reserved ∧ (s.pushed ++ l₀).count n ≤ s.popped.count n then
        some { s with mem := atomicListPush s.mem n, pushed := n :: s.pushed }
      else none
  | s, .pop =>
      let c := atomicListPop s.mem
      some { s with mem := c.2, popped := c.1.toList ++ s.popped }

end Interrupted

/-- Following `Next` from the head reaches `NULL` and visits exactly the nodes
that `came` and did not go (`went`), each as often as it is owed: once. -/
def HoldsExactly (m : AtomicMem ν) (came went : List ν) : Prop :=
  ∃ l, m.Holds l ∧ ∀ x, l.count x + went.count x = came.count x

variable {m : AtomicMem ν} {came went l : List ν} {n : ν}

/-- A complete push of a node that is not owed keeps the accounts. -/
theorem HoldsExactly.push (h : HoldsExactly m came went) (hn : came.count n ≤ went.count n) :
    HoldsExactly (atomicListPush m n) (n :: came) went := by
  obtain ⟨l, hl, hc⟩ := h
  have hnl : n ∉ l := by
    have hcn := hc n
    exact List.count_eq_zero.mp (by omega)
  refine ⟨n :: l, hl.push hnl, fun x => ?_⟩
  have hcx := hc x
  rw [List.count_cons, List.count_cons]
  omega

/-- A complete pop keeps the accounts. -/
theorem HoldsExactly.pop (h : HoldsExactly m came went) :
    HoldsExactly (atomicListPop m).2 came ((atomicListPop m).1.toList ++ went) := by
  obtain ⟨l, hl, hc⟩ := h
  obtain ⟨hres, htail, -⟩ := hl.pop
  refine ⟨l.tail, htail, fun x => ?_⟩
  have hcx := hc x
  rw [hres]
  cases l with
  | nil => simpa using hcx
  | cons a l =>
      simp only [List.head?_cons, Option.toList_some, List.tail_cons, List.cons_append,
        List.nil_append, List.count_cons] at hcx ⊢
      omega

/-- The accounts determine the list. -/
theorem HoldsExactly.count_eq (h : HoldsExactly m came went) (hl : m.Holds l) (x : ν) :
    l.count x + went.count x = came.count x := by
  obtain ⟨l', hl', hc⟩ := h
  rw [Follows.unique hl hl']
  exact hc x

theorem HoldsExactly.congr {came' : List ν} (h : HoldsExactly m came went)
    (hc : ∀ x, came.count x = came'.count x) : HoldsExactly m came' went := by
  obtain ⟨l, hl, hcount⟩ := h
  exact ⟨l, hl, fun x => (hcount x).trans (hc x)⟩

/-- A complete pop writes no `Next` field. -/
theorem atomicListPop_next (m : AtomicMem ν) : (atomicListPop m).2.next = m.next := by
  cases h : m.head.pointer with
  | none => rw [atomicListPop_none m h]
  | some a => rw [atomicListPop_some m a h]

/-! ## AtomicListPush -/

/-- `AtomicListPush(node, list)` under interrupts. -/
abbrev pushStep (l₀ : List ν) (node : ν) :
    Interrupted (PushRegs ν) ν → ListEvent ν → Option (Interrupted (PushRegs ν) ν) :=
  Interrupted.step (pushAccess node) l₀ [node]

/-- The accounts a push owes when it returns: the old nodes, the nodes the
interrupts pushed, and its own, less the nodes the interrupts popped. -/
def PushOk (l₀ : List ν) (node : ν) (s : Interrupted (PushRegs ν) ν) : Prop :=
  HoldsExactly s.mem (node :: (s.pushed ++ l₀)) s.popped

/-- At its compare-and-swap, the head equals the expected value exactly when
it equals the value stored in `node->Next`: the swap happens iff the loop
then ends. -/
def SwapAgrees (s : Interrupted (PushRegs ν) ν) : ListEvent ν → Prop
  | .access =>
      s.regs.pc = .swap →
        (s.mem.head.pointer = s.regs.expected ↔ s.mem.head.pointer = s.regs.loaded)
  | _ => True

instance (s : Interrupted (PushRegs ν) ν) (e : ListEvent ν) : Decidable (SwapAgrees s e) :=
  match e with
  | .access => inferInstanceAs (Decidable (_ → (_ ↔ _)))
  | .push _ => isTrue trivial
  | .pop => isTrue trivial

/-- The nodes this push has linked: its own, once its swap was made and the
loop is about to end or has ended. -/
def PushRegs.own (node : ν) (r : PushRegs ν) : List ν :=
  match r.pc with
  | .returned => [node]
  | .loopTest => if r.observed = r.loaded then [node] else []
  | _ => []

/-- What holds between any two events of a push whose swaps agree. -/
structure PushInv (l₀ : List ν) (node : ν) (s : Interrupted (PushRegs ν) ν) : Prop where
  fresh : (s.pushed ++ l₀).count node = 0
  stored : s.regs.pc = .loadExpected ∨ s.regs.pc = .swap ∨ s.regs.pc = .loopTest →
    s.mem.next node = s.regs.loaded
  accounts : HoldsExactly s.mem (s.regs.own node ++ (s.pushed ++ l₀)) s.popped

variable {l₀ : List ν} {node : ν} {s s' : Interrupted (PushRegs ν) ν}

/-- Before the swap the node is not on the list. -/
theorem PushInv.not_mem (h : PushInv l₀ node s) (hown : s.regs.own node = [])
    (hl : s.mem.Holds l) : node ∉ l := by
  have hc := h.accounts.count_eq hl node
  rw [hown, List.nil_append, h.fresh] at hc
  exact List.count_eq_zero.mp (by omega)

theorem pushInv_push (h : PushInv l₀ node s) (hn : n ≠ node)
    (hfree : (s.pushed ++ l₀).count n ≤ s.popped.count n) :
    PushInv l₀ node { s with mem := atomicListPush s.mem n, pushed := n :: s.pushed } where
  fresh := by
    rw [List.cons_append, List.count_cons_of_ne hn]
    exact h.fresh
  stored hpc := by
    rw [atomicListPush_eq]
    exact (Function.update_of_ne hn.symm _ _).trans (h.stored hpc)
  accounts := by
    have hown : (s.regs.own node).count n = 0 := by
      unfold PushRegs.own
      split <;> (try split) <;> simp [Ne.symm hn]
    have hacc := h.accounts.push (n := n) (by rw [List.count_append, hown]; omega)
    refine hacc.congr fun x => ?_
    simp only [List.count_cons, List.count_append, List.cons_append]
    omega

theorem pushInv_pop (h : PushInv l₀ node s) :
    PushInv l₀ node { s with
      mem := (atomicListPop s.mem).2, popped := (atomicListPop s.mem).1.toList ++ s.popped } where
  fresh := h.fresh
  stored hpc := by
    dsimp only
    rw [atomicListPop_next]
    exact h.stored hpc
  accounts := h.accounts.pop

/-- One access of a push whose swap agrees keeps the invariant. -/
theorem pushInv_access (h : PushInv l₀ node s) (hagree : SwapAgrees s .access)
    {c : PushRegs ν × AtomicMem ν} (hc : pushAccess node s.regs s.mem = some c) :
    PushInv l₀ node { s with regs := c.1, mem := c.2 } := by
  obtain ⟨⟨pc, loaded, expected, observed⟩, m, pushed, popped⟩ := s
  have hacc := h.accounts
  cases pc with
  | loadHead =>
      simp only [pushAccess, Option.some.injEq] at hc
      subst hc
      exact ⟨h.fresh, by simp, hacc⟩
  | storeNext =>
      simp only [pushAccess, Option.some.injEq] at hc
      subst hc
      obtain ⟨l, hl, hcount⟩ := hacc
      exact ⟨h.fresh, fun _ => Function.update_self .., l, hl.update (h.not_mem rfl hl), hcount⟩
  | loadExpected =>
      simp only [pushAccess, Option.some.injEq] at hc
      subst hc
      exact ⟨h.fresh, fun _ => h.stored (.inl rfl), hacc⟩
  | swap =>
      simp only [pushAccess, compareAndSwap, Option.some.injEq] at hc
      subst hc
      have hnext : m.next node = loaded := h.stored (.inr (.inl rfl))
      have hiff : m.head.pointer = expected ↔ m.head.pointer = loaded := hagree rfl
      refine ⟨h.fresh, fun _ => hnext, ?_⟩
      by_cases hsw : m.head.pointer = loaded
      · -- the swap is made, and `node->Next` is the head it replaces
        obtain ⟨l, hl, hcount⟩ := hacc
        refine ⟨node :: l, ⟨if_pos (hiff.mpr hsw), ?_⟩, fun x => ?_⟩
        · dsimp only
          rw [hnext, ← hsw]
          exact hl
        · have hx := hcount x
          simp only [PushRegs.own, List.nil_append] at hx
          simp only [PushRegs.own, hsw, ↓reduceIte, List.cons_append, List.nil_append,
            List.count_cons]
          omega
      · simp only [PushRegs.own, hsw, ↓reduceIte, mt hiff.mp hsw]
        exact hacc
  | loopTest =>
      simp only [pushAccess, Option.some.injEq] at hc
      subst hc
      have hnext : m.next node = loaded := h.stored (.inr (.inr rfl))
      simp only [PushRegs.own] at hacc
      by_cases hob : observed = loaded
      · simp only [hnext, hob, ↓reduceIte, ne_eq, not_true_eq_false] at hacc ⊢
        exact ⟨h.fresh, by simp, hacc⟩
      · simp only [hnext, hob, ↓reduceIte, ne_eq, Ne.symm hob, not_false_eq_true] at hacc ⊢
        exact ⟨h.fresh, by simp, hacc⟩
  | returned => simp [pushAccess] at hc

/-- One event of a push whose swaps agree keeps the invariant. -/
theorem pushInv_step (e : ListEvent ν) (h : PushInv l₀ node s) (hagree : SwapAgrees s e)
    (hs : pushStep l₀ node s e = some s') : PushInv l₀ node s' := by
  cases e with
  | access =>
      obtain ⟨c, hc, rfl⟩ := Option.map_eq_some_iff.mp hs
      exact pushInv_access h hagree hc
  | push n =>
      simp only [Interrupted.step] at hs
      split at hs
      · next hfree =>
          rw [← Option.some.inj hs]
          exact pushInv_push h (by simpa using hfree.1) hfree.2
      · contradiction
  | pop =>
      rw [← Option.some.inj hs]
      exact pushInv_pop h

theorem pushInv_start {m₀ : AtomicMem ν} (hl : m₀.Holds l₀) (hn : node ∉ l₀) :
    PushInv l₀ node ⟨pushStart, m₀, [], []⟩ where
  fresh := List.count_eq_zero.mpr hn
  stored := by simp [pushStart]
  accounts := ⟨l₀, hl, fun _ => rfl⟩

/-- A node linked to itself in front: the walk never reaches `NULL`. -/
theorem not_holdsExactly_of_loop (hhead : m.head.pointer = some n) (hnext : m.next n = some n) :
    ¬ HoldsExactly m came went := by
  rintro ⟨l, hl, -⟩
  unfold AtomicMem.Holds at hl
  rw [hhead] at hl
  cases l with
  | nil => exact absurd hl (by simp [Follows])
  | cons a l =>
      obtain ⟨ha, hrest⟩ := hl
      rw [← Option.some.inj ha, hnext] at hrest
      have heq : l = a :: l := hrest.unique ⟨ha, by rwa [← Option.some.inj ha, hnext]⟩
      exact absurd (congrArg List.length heq) (by simp)

/-- A swap that disagrees loses: left alone, the push returns and the accounts
are wrong.  Either the head was swapped for a node with a stale successor, and
the second round then links the node to itself, or the head was not swapped
and the loop ends all the same. -/
theorem not_pushOk_of_disagree (h : PushInv l₀ node s) (hpc : s.regs.pc = .swap)
    (hdis : ¬ SwapAgrees s .access) :
    (complete (pushAccess node) 7 s.regs s.mem).1.pc = .returned ∧
      ¬ PushOk l₀ node { s with
        regs := (complete (pushAccess node) 7 s.regs s.mem).1
        mem := (complete (pushAccess node) 7 s.regs s.mem).2 } := by
  obtain ⟨⟨pc, loaded, expected, observed⟩, m, pushed, popped⟩ := s
  simp only at hpc
  subst hpc
  have hnext : m.next node = loaded := h.stored (.inr (.inl rfl))
  simp only [SwapAgrees, forall_const] at hdis
  by_cases hexp : m.head.pointer = expected
  · have hld : m.head.pointer ≠ loaded := fun e => hdis ⟨fun _ => e, fun _ => hexp⟩
    have hne : ¬ loaded = expected := fun e => hld (hexp.trans e.symm)
    simp only [complete, pushAccess, compareAndSwap, hexp, hnext, hne, ↓reduceIte, ne_eq,
      not_false_eq_true, Function.update_self, not_true_eq_false, true_and]
    exact not_holdsExactly_of_loop rfl (Function.update_self ..)
  · have hld : m.head.pointer = loaded := by
      by_contra hld
      exact hdis ⟨fun e => absurd e hexp, fun e => absurd e hld⟩
    subst hld
    simp only [complete, pushAccess, compareAndSwap, hexp, hnext, ↓reduceIte, ne_eq,
      not_true_eq_false, true_and]
    intro hok
    obtain ⟨l, hl, hc⟩ := h.accounts
    have hone := hok.count_eq hl node
    have hzero := hc node
    simp only [PushRegs.own, List.nil_append] at hzero
    rw [List.count_cons_self] at hone
    dsimp only at hone hzero
    omega

/-- **Interrupted push.**  For every well-formed list, every node not on it
and every run of complete pushes and pops between its accesses in which every
compare-and-swap so far has agreed: if the push has returned, the list holds
exactly the old nodes, the interrupts' nodes and its own, less those popped,
each once; and if it is at a compare-and-swap that disagrees, then, left alone
from there, it returns with the accounts wrong. -/
theorem atomicListPush_interrupted (m₀ : AtomicMem ν) (l₀ : List ν) (node : ν)
    (hl : m₀.Holds l₀) (hn : node ∉ l₀) (es : List (ListEvent ν))
    (s : Interrupted (PushRegs ν) ν)
    (hrun : exec (pushStep l₀ node) ⟨pushStart, m₀, [], []⟩ es = some s)
    (hagree : Along (pushStep l₀ node) SwapAgrees ⟨pushStart, m₀, [], []⟩ es) :
    (s.regs.pc = .returned → PushOk l₀ node s) ∧
      (s.regs.pc = .swap → ¬ SwapAgrees s .access →
        (complete (pushAccess node) 7 s.regs s.mem).1.pc = .returned ∧
          ¬ PushOk l₀ node { s with
            regs := (complete (pushAccess node) 7 s.regs s.mem).1
            mem := (complete (pushAccess node) 7 s.regs s.mem).2 }) := by
  have hinv : PushInv l₀ node s :=
    exec_induction (fun _ e _ h hP hs => pushInv_step e h hP hs) (pushInv_start hl hn) hagree hrun
  refine ⟨fun hpc => ?_, fun hpc hdis => not_pushOk_of_disagree hinv hpc hdis⟩
  have hacc := hinv.accounts
  rw [PushRegs.own, hpc] at hacc
  exact hacc

/-- A list that holds node 0. -/
def sampleMem : AtomicMem Nat := ⟨fun _ => none, ⟨some 0, 0⟩⟩

/-- Node 1 is pushed; one interrupt pushes node 2 after the second load of the
head, another pops it again after the swap has failed. -/
def samplePush : List (ListEvent Nat) :=
  [.access, .access, .access, .push 2, .access, .access, .pop,
    .access, .access, .access, .access, .access]

theorem atomicListPush_interrupted_sample :
    ∃ s, exec (pushStep [0] 1) ⟨pushStart, sampleMem, [], []⟩ samplePush = some s ∧
      PushOk [0] 1 s := by
  obtain ⟨s, hs⟩ : ∃ s, exec (pushStep [0] 1) ⟨pushStart, sampleMem, [], []⟩ samplePush = some s :=
    Option.isSome_iff_exists.mp (by decide)
  have hpc : (exec (pushStep [0] 1) ⟨pushStart, sampleMem, [], []⟩ samplePush).map (·.regs.pc) =
      some .returned := by decide
  rw [hs] at hpc
  refine ⟨s, hs, ?_⟩
  exact (atomicListPush_interrupted sampleMem [0] 1 ⟨rfl, rfl⟩ (by decide) samplePush s hs
    (by decide)).1 (Option.some.inj hpc)

/-- The same push, with node 2 pushed between the two loads of the head. -/
def sampleLostPush : List (ListEvent Nat) :=
  [.access, .access, .push 2, .access, .access, .access,
    .access, .access, .access, .access, .access]

/-- One interrupt between the two loads of the head is enough: the push of
node 1 returns with node 1 linked to itself, and nodes 0 and 2 are lost. -/
theorem atomicListPush_loses_nodes :
    sampleMem.Holds [0] ∧ 1 ∉ [0] ∧
      ∃ s, exec (pushStep [0] 1) ⟨pushStart, sampleMem, [], []⟩ sampleLostPush = some s ∧
        s.regs.pc = .returned ∧ ¬ PushOk [0] 1 s :=
  ⟨⟨rfl, rfl⟩, by decide, _, rfl, rfl, not_holdsExactly_of_loop rfl rfl⟩

/-! ## AtomicListPop -/

/-- `AtomicListPop(list)` under interrupts; they may push again what they or
others have popped. -/
abbrev popStep (l₀ : List ν) :
    Interrupted (PopRegs ν) ν → ListEvent ν → Option (Interrupted (PopRegs ν) ν) :=
  Interrupted.step popAccess l₀ []

/-- What a pop owes when the access from `s` to `s'` makes it return: it
returns `NULL` or a node that was on the list when it swapped, and the list
then holds the old nodes and the interrupts' nodes, less those the interrupts
popped and less its own. -/
def PopOk (l₀ : List ν) (s s' : Interrupted (PopRegs ν) ν) : Prop :=
  (s'.regs.result = none ∨ ∃ n l, s'.regs.result = some n ∧ s.mem.Holds l ∧ n ∈ l) ∧
    HoldsExactly s'.mem (s'.pushed ++ l₀) (s'.regs.result.toList ++ s'.popped)

/-- If the swap is about to find the pointer it loaded in the head, then the
node there still has the `Next` it had when `node->Next` was loaded. -/
def NextUnchanged (s : Interrupted (PopRegs ν) ν) : Prop :=
  s.regs.pc = .swap → s.mem.head.pointer = s.regs.oldHead.pointer →
    s.mem.head.pointer.bind s.mem.next = s.regs.newHead.pointer

/-- What holds between any two events of a pop that has not returned. -/
structure PopInv (l₀ : List ν) (s : Interrupted (PopRegs ν) ν) : Prop where
  accounts : s.regs.pc ≠ .returned → HoldsExactly s.mem (s.pushed ++ l₀) s.popped
  nonempty : s.regs.pc = .loadNext ∨ s.regs.pc = .swap → s.regs.oldHead.pointer ≠ none

variable {t t' : Interrupted (PopRegs ν) ν}

/-- One access keeps the invariant: until it returns, a pop writes nothing. -/
theorem popInv_access (h : PopInv l₀ t) {c : PopRegs ν × AtomicMem ν}
    (hc : popAccess t.regs t.mem = some c) : PopInv l₀ { t with regs := c.1, mem := c.2 } := by
  obtain ⟨⟨pc, oldHead, newHead, generation, result⟩, m, pushed, popped⟩ := t
  have hne := h.nonempty
  cases pc with
  | loadHead =>
      have hacc := h.accounts (by simp)
      simp only [popAccess] at hc
      split at hc
      · simp only [Option.some.injEq] at hc
        subst hc
        exact ⟨fun hpc => absurd rfl hpc, by simp⟩
      · next a ha =>
          simp only [Option.some.injEq] at hc
          subst hc
          exact ⟨fun _ => hacc, fun _ => by rw [ha]; simp⟩
  | loadNext =>
      have hacc := h.accounts (by simp)
      simp only [popAccess, Option.some.injEq] at hc
      subst hc
      exact ⟨fun _ => hacc, fun _ => hne (.inl rfl)⟩
  | swap =>
      have hacc := h.accounts (by simp)
      by_cases hsame : m.head.pointer = oldHead.pointer
      · rw [popAccess_swap_same rfl hsame, Option.some.injEq] at hc
        subst hc
        exact ⟨fun hpc => absurd rfl hpc, by simp⟩
      · rw [popAccess_swap_diff rfl hsame, Option.some.injEq] at hc
        subst hc
        exact ⟨fun _ => hacc, by simp⟩
  | returned => simp [popAccess] at hc

/-- One event keeps the invariant. -/
theorem popInv_step (e : ListEvent ν) (h : PopInv l₀ t) (hs : popStep l₀ t e = some t') :
    PopInv l₀ t' := by
  cases e with
  | access =>
      obtain ⟨c, hc, rfl⟩ := Option.map_eq_some_iff.mp hs
      exact popInv_access h hc
  | push n =>
      simp only [Interrupted.step] at hs
      split at hs
      · next hfree =>
          rw [← Option.some.inj hs]
          exact ⟨fun hpc => (h.accounts hpc).push hfree.2, h.nonempty⟩
      · contradiction
  | pop =>
      rw [← Option.some.inj hs]
      exact ⟨fun hpc => (h.accounts hpc).pop, h.nonempty⟩

/-- Two pointers into one list that lead to the same nodes are equal: one of
them cannot lead to a proper suffix, nor to a node that is not on the list. -/
theorem Follows.pointer_eq {next : ν → Option ν} {p q : Option ν} {l l' : List ν}
    (h : Follows next p l) (h' : Follows next q l') (hc : ∀ x, l.count x = l'.count x) :
    p = q := by
  have hperm : l.Perm l' := List.perm_iff_count.mpr hc
  cases l' with
  | nil =>
      rw [List.Perm.eq_nil hperm] at h
      exact Eq.trans h (Eq.symm h')
  | cons b l' =>
      have hb : b ∈ l := hperm.mem_iff.mpr List.mem_cons_self
      obtain ⟨u, v, rfl⟩ := List.append_of_mem hb
      have hv : b :: v = b :: l' := (Follows.suffix h).unique (h'.1 ▸ h')
      have hu : u = [] := by
        have hlen := hperm.length_eq
        rw [← hv, List.length_append] at hlen
        exact List.length_eq_zero_iff.mp (by omega)
      subst hu
      rw [h.1, h'.1]

/-- The access that makes a pop return keeps the accounts exactly when the
head's `Next` has not changed under it. -/
theorem popOk_iff (h : PopInv l₀ t) (hs : popStep l₀ t .access = some t')
    (hret : t'.regs.pc = .returned) : PopOk l₀ t t' ↔ NextUnchanged t := by
  obtain ⟨⟨pc, oldHead, newHead, generation, result⟩, m, pushed, popped⟩ := t
  obtain ⟨c, hc, rfl⟩ := Option.map_eq_some_iff.mp hs
  cases pc with
  | loadHead =>
      have hacc := h.accounts (by simp)
      simp only [popAccess] at hc
      split at hc
      · simp only [Option.some.injEq] at hc
        subst hc
        exact ⟨fun _ hpc => by simp at hpc, fun _ => ⟨.inl rfl, hacc⟩⟩
      · simp only [Option.some.injEq] at hc
        subst hc
        simp at hret
  | loadNext =>
      simp only [popAccess, Option.some.injEq] at hc
      subst hc
      simp at hret
  | swap =>
      obtain ⟨l, hl, hcount⟩ := h.accounts (by simp)
      obtain ⟨a, ha⟩ := Option.ne_none_iff_exists'.mp (h.nonempty (.inr rfl))
      simp only at ha
      by_cases hsame : m.head.pointer = oldHead.pointer
      · rw [popAccess_swap_same rfl hsame, Option.some.injEq] at hc
        subst hc
        have hhead : m.head.pointer = some a := hsame.trans ha
        cases l with
        | nil => exact absurd (hhead.symm.trans hl) (by simp)
        | cons b l =>
            obtain ⟨hb, hrest⟩ := hl
            have hab : a = b := Option.some.inj (hhead.symm.trans hb)
            subst hab
            simp only [PopOk, NextUnchanged, hhead, ha, Option.bind_some, forall_const,
              Option.toList_some, List.cons_append, List.nil_append]
            constructor
            · rintro ⟨-, l', hl', hcount'⟩
              refine hrest.pointer_eq hl' fun x => ?_
              have hx := hcount x
              have hx' := hcount' x
              simp only [List.count_cons] at hx hx'
              omega
            · intro hnext
              refine ⟨.inr ⟨a, a :: l, rfl, ⟨hhead, hrest⟩, List.mem_cons_self⟩, l, ?_,
                fun x => ?_⟩
              · exact hnext ▸ hrest
              · have hx := hcount x
                simp only [List.count_cons] at hx ⊢
                omega
      · rw [popAccess_swap_diff rfl hsame, Option.some.injEq] at hc
        subst hc
        simp at hret
  | returned => simp [popAccess] at hc

/-- **Interrupted pop.**  For every well-formed list and every run of complete
pushes and pops between its accesses, the access that makes the pop return
leaves the accounts right if and only if the head's `Next` is then the one the
pop loaded. -/
theorem atomicListPop_interrupted (m₀ : AtomicMem ν) (l₀ : List ν) (junk : AtomicUnion ν)
    (hl : m₀.Holds l₀) (es : List (ListEvent ν)) (s s' : Interrupted (PopRegs ν) ν)
    (hrun : exec (popStep l₀) ⟨popStart junk, m₀, [], []⟩ es = some s)
    (hs : popStep l₀ s .access = some s') (hret : s'.regs.pc = .returned) :
    PopOk l₀ s s' ↔ NextUnchanged s := by
  have hstart : PopInv l₀ ⟨popStart junk, m₀, [], []⟩ :=
    ⟨fun _ => ⟨l₀, hl, fun _ => rfl⟩, by simp [popStart]⟩
  exact popOk_iff (exec_invariant (fun _ e _ h hs => popInv_step e h hs) hstart hrun) hs hret

/-- A list that holds nodes 0, 1 and 2. -/
def sampleMem3 : AtomicMem Nat :=
  ⟨fun n => if n = 0 then some 1 else if n = 1 then some 2 else none, ⟨some 0, 0⟩⟩

/-- Interrupts pop node 0 and put it back while a pop holds its loads. -/
def samplePop : List (ListEvent Nat) := [.access, .access, .pop, .push 0]

/-- Interrupts pop nodes 0 and 1 and put node 0 back. -/
def sampleAba : List (ListEvent Nat) := [.access, .access, .pop, .pop, .push 0]

theorem atomicListPop_interrupted_sample :
    ∃ s s', exec (popStep [0, 1, 2]) ⟨popStart ⟨none, 0⟩, sampleMem3, [], []⟩ samplePop = some s ∧
      popStep [0, 1, 2] s .access = some s' ∧ PopOk [0, 1, 2] s s' :=
  ⟨_, _, rfl, rfl, (atomicListPop_interrupted sampleMem3 [0, 1, 2] ⟨none, 0⟩
    ⟨rfl, rfl, rfl, rfl⟩ samplePop _ _ rfl rfl rfl).mpr fun _ _ => rfl⟩

/-- A node in front of the list that is not owed. -/
theorem not_holdsExactly_of_head (hhead : m.head.pointer = some n)
    (hn : came.count n ≤ went.count n) : ¬ HoldsExactly m came went := by
  rintro ⟨l, hl, hcount⟩
  cases l with
  | nil => exact absurd (hhead.symm.trans hl) (by simp)
  | cons a l =>
      have ha : n = a := Option.some.inj (hhead.symm.trans hl.1)
      have hone := hcount n
      rw [← ha, List.count_cons_self] at hone
      omega

/-- The generation is not compared: with nodes 0 and 1 popped and node 0 back
in front of node 2, the swap still succeeds, and node 1, which an interrupt
has popped, is in front of the list again. -/
theorem atomicListPop_not_immune :
    sampleMem3.Holds [0, 1, 2] ∧
      ∃ s s', exec (popStep [0, 1, 2]) ⟨popStart ⟨none, 0⟩, sampleMem3, [], []⟩ sampleAba =
          some s ∧
        popStep [0, 1, 2] s .access = some s' ∧ s'.regs.pc = .returned ∧
        1 ∈ s'.popped ∧ 1 ∉ s'.pushed ∧ s'.mem.head.pointer = some 1 ∧ ¬ PopOk [0, 1, 2] s s' := by
  refine ⟨⟨rfl, rfl, rfl, rfl⟩, _, _, rfl, rfl, rfl, by decide, by decide, rfl, ?_⟩
  exact fun hok => not_holdsExactly_of_head (n := 1) rfl (by decide) hok.2

end KernelPanic
