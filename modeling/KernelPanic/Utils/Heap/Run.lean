import KernelPanic.Lib.Run
import KernelPanic.Utils.Heap.Queue
import Mathlib.Data.Nat.Bits
import Mathlib.Data.Nat.Bitwise

/-!
# KernelPanic.Utils.Heap.Run

The heap over whole sequences of `HeapAdd` and `HeapPop`, starting from
`HeapInit`.  `HeapOk` says what the pointers look like to somebody who follows
them from `Head`: node number `i` is the one reached by the bits of `i` below its
leading one.  `heap_priority_queue` says that they always look so, and that every
`HeapPop` returns a lightest node.
-/

namespace KernelPanic

open Run HeapOrder

variable {ν : Type*} [DecidableEq ν] {m : WeightedLinks ν} {h : Heap ν} {e : ℕ → Option ν}
  {w n i : ℕ}

/-! ## numbers of nodes -/

/-- The node reached from `Head` by the bits of `i` below its leading one, the
highest first: `Left` for 0 and `Right` for 1. -/
def nodeNumber (m : WeightedLinks ν) (h : Heap ν) (i : ℕ) : Option ν :=
  i.bits.dropLast.reverse.foldl
    (fun cur b => cur.bind fun c => if b then m.right c else m.left c) h.head

/-- The lowest bit, and the bits above it. -/
theorem bits_eq_cons (hn : n ≠ 0) : n.bits = decide (n % 2 = 1) :: (n / 2).bits := by
  obtain heven | hodd := Nat.mod_two_eq_zero_or_one n
  · have hdouble := Nat.bit0_bits (n / 2) (by omega)
    rw [show 2 * (n / 2) = n by omega] at hdouble
    simpa [heven] using hdouble
  · have hdouble := Nat.bit1_bits (n / 2)
    rw [show 2 * (n / 2) + 1 = n by omega] at hdouble
    simpa [hodd] using hdouble

omit [DecidableEq ν] in
theorem nodeNumber_one : nodeNumber m h 1 = h.head := by
  simp [nodeNumber]

omit [DecidableEq ν] in
/-- The last step to node number `i` is made from node number `i / 2`. -/
theorem nodeNumber_step (hi : 2 ≤ i) :
    nodeNumber m h i =
      (nodeNumber m h (i / 2)).bind fun c => if i % 2 = 1 then m.right c else m.left c := by
  have hne : (i / 2).bits ≠ [] := by
    rw [bits_eq_cons (by omega)]
    exact List.cons_ne_nil _ _
  rw [nodeNumber, bits_eq_cons (by omega), List.dropLast_cons_of_ne_nil hne, List.reverse_cons,
    List.foldl_append]
  simp [nodeNumber]

omit [DecidableEq ν] in
/-- In a numbered tree, the bits lead to the node of that number. -/
theorem IsTree.nodeNumber_eq (ht : IsTree m e n) (hhead : h.head = e 1) (h1 : 1 ≤ i) (hn : i ≤ n) :
    nodeNumber m h i = e i := by
  induction i using Nat.strong_induction_on with
  | _ i ih =>
      obtain rfl | hi : i = 1 ∨ 2 ≤ i := by omega
      · rw [nodeNumber_one, hhead]
      · obtain ⟨a, ha⟩ := ht.exists_eq (i := i / 2) (by omega) (by omega)
        rw [nodeNumber_step hi, ih (i / 2) (by omega) (by omega) (by omega), ha, Option.bind_some,
          ht.left _ _ ha, ht.right _ _ ha]
        split
        · rw [show 2 * (i / 2) + 1 = i by omega]
        · rw [show 2 * (i / 2) = i by omega]

/-! ## HeapFindElement on the machine -/

/-- The second loop of `HeapFindElement` as the machine runs it, for at most
`fuel` rounds: `mask` is an `unsigned int`. -/
def heapMaskLoop (m : WeightedLinks ν) (index : ℕ) : ℕ → ℕ → Option ν → Option ν
  | 0, _, cur => cur
  | fuel + 1, mask, cur =>
      if mask > 0 then
        heapMaskLoop m index fuel (mask / 2)
          (cur.bind fun c => if mask &&& index ≠ 0 then m.right c else m.left c)
      else cur

omit [DecidableEq ν] in
/-- The masks are the bits below the leading one.  Below `2 ^ 31` nodes there are
at most thirty of them, and `1 << steps` is exact. -/
theorem heapMaskLoop_eq {index s : ℕ} (hs : s ≤ 30) (cur : Option ν) :
    heapMaskLoop m index 31 ((1 <<< s) % 2 ^ 32 / 2) cur = heapDescend m index s cur := by
  have hmask : (1 <<< s) % 2 ^ 32 = 2 ^ s := by
    rw [Nat.one_shiftLeft]
    exact Nat.mod_eq_of_lt (Nat.pow_lt_pow_right (by omega) (by omega))
  rw [hmask]
  suffices hloop : ∀ fuel, s < fuel →
      heapMaskLoop m index fuel (2 ^ s / 2) cur = heapDescend m index s cur from
    hloop 31 (by omega)
  clear hmask hs
  intro fuel hfuel
  induction fuel generalizing s cur with
  | zero => omega
  | succ fuel ih =>
      cases s with
      | zero => simp [heapMaskLoop, heapDescend]
      | succ s =>
          have hhalf : 2 ^ (s + 1) / 2 = 2 ^ s := by
            rw [Nat.pow_succ, Nat.mul_div_cancel _ (by omega)]
          have hbit : 2 ^ s &&& index ≠ 0 ↔ index.testBit s = true := by
            rw [Nat.two_pow_and]
            cases index.testBit s <;> simp
          rw [heapMaskLoop, hhalf, if_pos (Nat.two_pow_pos s), ih _ (by omega), heapDescend]
          simp only [hbit]

/-- `HeapFindElement` as the machine runs it. -/
def heapFindMasked (m : WeightedLinks ν) (index : ℕ) (h : Heap ν) : Option ν :=
  if index ≤ h.size ∧ index ≠ 0 then
    if heapSteps index index = 0 then h.head
    else heapMaskLoop m index 31 ((1 <<< heapSteps index index) % 2 ^ 32 / 2) h.head
  else none

omit [DecidableEq ν] in
theorem heapFindMasked_eq (hsize : h.size < 2 ^ 31) :
    heapFindMasked m i h = heapFindElement m i h := by
  unfold heapFindMasked heapFindElement
  split
  · next hi =>
      have hsteps : i / 2 ^ heapSteps i i = 1 := heapSteps_spec (by omega) le_rfl
      have hpow : 2 ^ heapSteps i i ≤ i := by
        rw [← Nat.one_le_div_iff (Nat.two_pow_pos _), hsteps]
      have hlt : heapSteps i i < 31 :=
        (Nat.pow_lt_pow_iff_right (by omega : 1 < 2)).mp (by omega)
      split
      · next hzero => rw [hzero, heapDescend]
      · exact heapMaskLoop_eq (by omega) _
  · rfl

/-! ## runs -/

inductive HeapOp (ν : Type*) where
  | add (weight : ℕ) (node : ν)
  | pop

/-- A heap, the nodes that were added and not popped, with the weight each was
added with, and what `HeapPop` has returned. -/
structure HeapRun (ν : Type*) where
  links : WeightedLinks ν
  heap : Heap ν
  inside : List (ν × ℕ)
  popped : List (Option ν)

namespace HeapRun

/-- `HeapInit`. -/
def start (links : WeightedLinks ν) : HeapRun ν := ⟨links, heapInit, [], []⟩

/-- A node is added only when it is not in the heap, with any weight, while the
heap has less than `2 ^ 31` nodes. -/
def Allowed (w : ℕ) (s : HeapRun ν) : HeapOp ν → Prop
  | .add weight node =>
      weight < 2 ^ w ∧ node ∉ s.inside.map Prod.fst ∧ s.heap.size + 1 < 2 ^ 31
  | .pop => True

instance (w : ℕ) (s : HeapRun ν) : (op : HeapOp ν) → Decidable (s.Allowed w op)
  | .add _ _ => inferInstanceAs (Decidable (_ ∧ _ ∧ _))
  | .pop => isTrue trivial

/-- One operation; it has no result when an `ASSERT` fails or a loop does not
end. -/
def step (w : ℕ) (s : HeapRun ν) : HeapOp ν → Option (HeapRun ν)
  | .add weight node =>
      (heapAdd s.links weight node s.heap).map fun r =>
        ⟨r.1, r.2, (node, weight) :: s.inside, s.popped⟩
  | .pop =>
      (heapPop w s.links s.heap).map fun r =>
        ⟨r.2.1, r.2.2, s.inside.filter fun x => some x.1 ≠ r.1, s.popped ++ [r.1]⟩

end HeapRun

open HeapRun

/-- What the pointers of a heap that contains `inside` look like. -/
structure HeapOk (m : WeightedLinks ν) (h : Heap ν) (inside : List (ν × ℕ)) : Prop where
  /-- The nodes are those numbered from 1 to `Size`. -/
  mem : ∀ a, (∃ k, (a, k) ∈ inside) ↔ ∃ i, 1 ≤ i ∧ i ≤ h.size ∧ nodeNumber m h i = some a
  exists_node : ∀ i, 1 ≤ i → i ≤ h.size → ∃ a, nodeNumber m h i = some a
  inj : ∀ i j a, 1 ≤ i → i ≤ h.size → 1 ≤ j → j ≤ h.size → nodeNumber m h i = some a →
    nodeNumber m h j = some a → i = j
  left : ∀ i a, 1 ≤ i → i ≤ h.size → nodeNumber m h i = some a →
    m.left a = if 2 * i ≤ h.size then nodeNumber m h (2 * i) else none
  right : ∀ i a, 1 ≤ i → i ≤ h.size → nodeNumber m h i = some a →
    m.right a = if 2 * i + 1 ≤ h.size then nodeNumber m h (2 * i + 1) else none
  parent : ∀ i a, 1 ≤ i → i ≤ h.size → nodeNumber m h i = some a →
    m.parent a = if i = 1 then none else nodeNumber m h (i / 2)
  /-- `Head` is the one node without a parent. -/
  head : ∀ a k, (a, k) ∈ inside → (m.parent a = none ↔ h.head = some a)
  weight : ∀ a k, (a, k) ∈ inside → m.weight a = k
  ordered : ∀ a k p, (a, k) ∈ inside → m.parent a = some p → m.weight p ≤ m.weight a
  /-- `HeapHeadWeight` is the least weight. -/
  headWeight : inside ≠ [] → ∃ x ∈ inside, heapHeadWeight m h = x.2 ∧ ∀ y ∈ inside, x.2 ≤ y.2
  /-- `HeapFindElement` finds node number `i`. -/
  find : ∀ i, 1 ≤ i → i ≤ h.size → heapFindMasked m i h = nodeNumber m h i

/-- `HeapPop` returns `NULL` exactly when the heap is empty, and else a node of
least weight. -/
def PopsLeast (w : ℕ) (s : HeapRun ν) : HeapOp ν → Prop
  | .add _ _ => True
  | .pop => ∃ r s', s.step w .pop = some s' ∧ s'.popped = s.popped ++ [r] ∧
      (r = none ↔ s.inside = []) ∧
      ∀ a, r = some a → ∃ k, (a, k) ∈ s.inside ∧ ∀ y ∈ s.inside, k ≤ y.2

/-! ## the invariant -/

structure HeapInv (w : ℕ) (s : HeapRun ν) : Prop where
  holds : Holds w s.links s.heap {a | a ∈ s.inside.map Prod.fst}
  weight : ∀ x ∈ s.inside, s.links.weight x.1 = x.2
  size : s.heap.size < 2 ^ 31

variable {s s' : HeapRun ν}

omit [DecidableEq ν] in
theorem mem_inside {inside : List (ν × ℕ)} {a : ν} :
    a ∈ inside.map Prod.fst ↔ ∃ k, (a, k) ∈ inside := by
  simp

omit [DecidableEq ν] in
theorem heapInv_start (links : WeightedLinks ν) : HeapInv w (start links) where
  holds := by
    have hempty : {a : ν | a ∈ (start links).inside.map Prod.fst} = ∅ := by
      simp [start]
    rw [hempty]
    exact holds_init
  weight x hx := absurd hx List.not_mem_nil
  size := Nat.two_pow_pos 31

omit [DecidableEq ν] in
/-- The pointers of a heap are as they should be. -/
theorem HeapInv.heapOk (hinv : HeapInv w s) : HeapOk s.links s.heap s.inside := by
  obtain ⟨e, he, hmem⟩ := hinv.holds
  have hnum : ∀ i, 1 ≤ i → i ≤ s.heap.size → nodeNumber s.links s.heap i = e i :=
    fun i h1 hn => he.tree.nodeNumber_eq he.head h1 hn
  have hnode : ∀ a, (∃ k, (a, k) ∈ s.inside) ↔ ∃ i, e i = some a := fun a => by
    rw [← mem_inside, ← hmem a]
    rfl
  constructor
  case mem =>
    intro a
    rw [hnode]
    constructor
    · rintro ⟨i, hi⟩
      obtain ⟨h1, hn⟩ := he.tree.pos hi
      exact ⟨i, h1, hn, (hnum i h1 hn).trans hi⟩
    · rintro ⟨i, h1, hn, hi⟩
      exact ⟨i, (hnum i h1 hn).symm.trans hi⟩
  case exists_node =>
    intro i h1 hn
    rw [hnum i h1 hn]
    exact he.tree.exists_eq h1 hn
  case inj =>
    intro i j a hi1 hin hj1 hjn hia hja
    rw [hnum i hi1 hin] at hia
    rw [hnum j hj1 hjn] at hja
    exact he.tree.inj i j a hia hja
  case left =>
    intro i a h1 hn hia
    rw [hnum i h1 hn] at hia
    rw [he.tree.left i a hia]
    split
    · next hle => rw [hnum _ (by omega) hle]
    · exact he.tree.eq_none (by omega)
  case right =>
    intro i a h1 hn hia
    rw [hnum i h1 hn] at hia
    rw [he.tree.right i a hia]
    split
    · next hle => rw [hnum _ (by omega) hle]
    · exact he.tree.eq_none (by omega)
  case parent =>
    intro i a h1 hn hia
    rw [hnum i h1 hn] at hia
    rw [he.tree.parent i a hia]
    split
    · exact he.tree.eq_none (by omega)
    · rw [hnum _ (by omega) (by omega)]
  case head =>
    intro a k ha
    obtain ⟨i, hi⟩ := (hnode a).mp ⟨k, ha⟩
    obtain ⟨h1, hn⟩ := he.tree.pos hi
    rw [he.tree.parent i a hi, he.head, he.tree.eq_iff hi, ← Option.not_isSome_iff_eq_none,
      he.tree.dom]
    omega
  case weight => exact fun a k ha => hinv.weight _ ha
  case ordered =>
    intro a k p ha hp
    obtain ⟨i, hi⟩ := (hnode a).mp ⟨k, ha⟩
    rw [he.tree.parent i a hi] at hp
    have hi1 := he.tree.pos hi
    have hp1 := he.tree.pos hp
    rw [← weightAt_eq (m := s.links) hi, ← weightAt_eq (m := s.links) hp]
    exact he.ordered i (by omega) hi1.2
  case headWeight =>
    intro hne
    obtain ⟨x, hx⟩ := List.exists_mem_of_ne_nil _ hne
    have hnonempty : {a | a ∈ s.inside.map Prod.fst}.Nonempty :=
      ⟨x.1, List.mem_map_of_mem hx⟩
    obtain ⟨a, ha, -, hweight, hmin⟩ := hinv.holds.headWeight hnonempty
    obtain ⟨k, hk⟩ := mem_inside.mp ha
    refine ⟨(a, k), hk, hweight.trans (hinv.weight _ hk), fun y hy => ?_⟩
    have hle := hmin y.1 (List.mem_map_of_mem hy)
    rwa [hinv.weight _ hk, hinv.weight _ hy] at hle
  case find =>
    intro i h1 hn
    rw [heapFindMasked_eq hinv.size, he.tree.find he.head hn h1 hn, hnum i h1 hn]

/-! ## one operation -/

theorem HeapInv.add (hinv : HeapInv w s) {weight : ℕ} {node : ν}
    (hop : s.Allowed w (.add weight node)) :
    ∃ s', s.step w (.add weight node) = some s' ∧ HeapInv w s' := by
  obtain ⟨hweight, hnode, hsize⟩ := hop
  obtain ⟨m', h', hadd, hholds, hw, hsize', -⟩ :=
    hinv.holds.add (c := node) hnode (k := weight) (by omega)
  refine ⟨⟨m', h', (node, weight) :: s.inside, s.popped⟩, by rw [HeapRun.step, hadd]; rfl, ?_, ?_, ?_⟩
  · have hset : {a | a ∈ ((node, weight) :: s.inside).map Prod.fst} =
        insert node {a | a ∈ s.inside.map Prod.fst} := by
      ext a
      simp only [List.map_cons, List.mem_cons, Set.mem_ofPred_eq, Set.mem_insert_iff]
    rw [hset]
    exact hholds
  · intro x hx
    rw [hw]
    obtain rfl | hx := List.mem_cons.mp hx
    · exact Function.update_self ..
    · have hne : x.1 ≠ node := fun heq => hnode (heq ▸ List.mem_map_of_mem hx)
      rw [Function.update_of_ne hne, hinv.weight x hx]
  · rw [hsize']
    exact hsize

theorem HeapInv.pop (hinv : HeapInv w s) :
    PopsLeast w s .pop ∧ ∃ s', s.step w .pop = some s' ∧ HeapInv w s' := by
  by_cases hne : s.inside = []
  · have hzero : s.heap.size = 0 := by
      have hpos := hinv.holds.size_pos
      simp only [hne, List.map_nil, List.not_mem_nil, Set.ofPred_false, Set.not_nonempty_empty,
        iff_false] at hpos
      omega
    have hstep : s.step w .pop = some ⟨s.links, s.heap, s.inside, s.popped ++ [none]⟩ := by
      simp [HeapRun.step, heapPop, hzero, hne]
    exact ⟨⟨none, _, hstep, rfl, iff_of_true rfl hne, fun a ha => by cases ha⟩, _, hstep,
      hinv.holds, hinv.weight, hinv.size⟩
  · obtain ⟨x, hx⟩ := List.exists_mem_of_ne_nil _ hne
    obtain ⟨a, m', h', hpop, -, ha, hmin, hholds, hw, hsize, -⟩ :=
      hinv.holds.pop ⟨x.1, List.mem_map_of_mem hx⟩
    obtain ⟨k, hk⟩ := mem_inside.mp ha
    have hstep : s.step w .pop =
        some ⟨m', h', s.inside.filter fun x => some x.1 ≠ some a, s.popped ++ [some a]⟩ := by
      rw [HeapRun.step, hpop]
      rfl
    refine ⟨⟨some a, _, hstep, rfl, iff_of_false (by simp) hne, fun b hb => ?_⟩, _, hstep, ?_, ?_, ?_⟩
    · obtain rfl := Option.some.inj hb
      refine ⟨k, hk, fun y hy => ?_⟩
      have hle := hmin y.1 (List.mem_map_of_mem hy)
      rwa [hinv.weight _ hk, hinv.weight _ hy] at hle
    · have hset : {b | b ∈ (s.inside.filter fun x => some x.1 ≠ some a).map Prod.fst} =
          {b | b ∈ s.inside.map Prod.fst} \ {a} := by
        ext b
        simp only [Set.mem_ofPred_eq, Set.mem_sdiff, Set.mem_singleton_iff, mem_inside,
          List.mem_filter, decide_eq_true_eq, ne_eq, Option.some.injEq]
        exact exists_and_right
      rw [hset]
      exact hholds
    · intro y hy
      rw [hw]
      exact hinv.weight y (List.mem_of_mem_filter hy)
    · have hlt := hinv.size
      simp only
      omega

/-- **The heap is a priority queue.**  Over every sequence of `HeapAdd` and
`HeapPop`, starting from `HeapInit`: no `ASSERT` fails and every loop ends, the
pointers are those of a complete tree in order that contains exactly the nodes
added and not popped, and every `HeapPop` returns a lightest one. -/
theorem heap_priority_queue (w : ℕ) (links : WeightedLinks ν) (ops : List (HeapOp ν))
    (hops : Along (HeapRun.step w) (Allowed w) (start links) ops) :
    ∃ s, exec (HeapRun.step w) (start links) ops = some s ∧ HeapOk s.links s.heap s.inside ∧
      Along (HeapRun.step w) (PopsLeast w) (start links) ops := by
  obtain ⟨s, hrun, hinv, hpops⟩ := exec_progress (I := HeapInv w) (Q := PopsLeast w)
    (fun s op hs hop => by
      cases op with
      | add weight node => exact ⟨trivial, hs.add hop⟩
      | pop => exact hs.pop)
    (heapInv_start links) hops
  exact ⟨s, hrun, hinv.heapOk, hpops⟩

/-- Three nodes, two of them as heavy as a weight can be. -/
theorem heap_priority_queue_sample :
    ∃ s, exec (HeapRun.step 64)
        (start (⟨fun _ => none, fun _ => none, fun _ => none, fun _ => 0⟩ : WeightedLinks ℕ))
        [.add (2 ^ 64 - 1) 0, .add (2 ^ 64 - 1) 1, .add 7 2, .pop, .pop] = some s ∧
      HeapOk s.links s.heap s.inside ∧ s.popped = [some 2, some 0] := by
  have hops : Along (HeapRun.step 64) (Allowed 64)
      (start (⟨fun _ => none, fun _ => none, fun _ => none, fun _ => 0⟩ : WeightedLinks ℕ))
      [.add (2 ^ 64 - 1) 0, .add (2 ^ 64 - 1) 1, .add 7 2, .pop, .pop] := by decide
  obtain ⟨s, hrun, hok, -⟩ := heap_priority_queue 64 _ _ hops
  have hpopped : (exec (HeapRun.step 64)
      (start (⟨fun _ => none, fun _ => none, fun _ => none, fun _ => 0⟩ : WeightedLinks ℕ))
      [.add (2 ^ 64 - 1) 0, .add (2 ^ 64 - 1) 1, .add 7 2, .pop, .pop]).map (·.popped) =
        some [some 2, some 0] := by decide
  rw [hrun, Option.map_some, Option.some.injEq] at hpopped
  exact ⟨s, hrun, hok, hpopped⟩

end KernelPanic
