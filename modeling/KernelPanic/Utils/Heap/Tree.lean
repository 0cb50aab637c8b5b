import KernelPanic.Utils.Heap

/-!
# KernelPanic.Utils.Heap.Tree

The pointers of a heap read as a numbered tree.  `IsTree m e n` says that the
nodes `e 1 … e n` are linked as a complete binary tree, whatever their
weights; the three things the heap does to pointers are all it takes:
exchanging a node with its parent, adding a last leaf and taking it away.
-/

namespace KernelPanic

open HeapOrder

variable {ν : Type*} [DecidableEq ν] {m m' : WeightedLinks ν} {e : ℕ → Option ν} {n i : ℕ}
  {c p : ν}

/-- The nodes numbered `1 … n` are distinct and linked as a complete binary
tree. -/
structure IsTree (m : WeightedLinks ν) (e : ℕ → Option ν) (n : ℕ) : Prop where
  dom : ∀ i, (e i).isSome ↔ 1 ≤ i ∧ i ≤ n
  inj : ∀ i j a, e i = some a → e j = some a → i = j
  left : ∀ i a, e i = some a → m.left a = e (2 * i)
  right : ∀ i a, e i = some a → m.right a = e (2 * i + 1)
  parent : ∀ i a, e i = some a → m.parent a = e (i / 2)

namespace IsTree

omit [DecidableEq ν] in
theorem eq_none (h : IsTree m e n) (hi : i = 0 ∨ n < i) : e i = none := by
  rw [← Option.not_isSome_iff_eq_none, h.dom]
  omega

omit [DecidableEq ν] in
theorem exists_eq (h : IsTree m e n) (h1 : 1 ≤ i) (hn : i ≤ n) : ∃ a, e i = some a :=
  Option.isSome_iff_exists.mp ((h.dom i).mpr ⟨h1, hn⟩)

omit [DecidableEq ν] in
theorem pos (h : IsTree m e n) (hc : e i = some c) : 1 ≤ i ∧ i ≤ n :=
  (h.dom i).mp (by rw [hc]; rfl)

omit [DecidableEq ν] in
/-- Two numbers of nodes are equal when the nodes are. -/
theorem eq_iff (h : IsTree m e n) {j : ℕ} (hc : e i = some c) : e j = some c ↔ j = i :=
  ⟨fun hj => h.inj j i c hj hc, fun hj => hj ▸ hc⟩

end IsTree

/-! ## exchanging a node with its parent -/

/-- The node `HeapPromote` calls `sibling`. -/
def heapSibling (m : WeightedLinks ν) (c p : ν) : Option ν :=
  if m.left p ≠ some c then m.left p else m.right p

/-- The pointers after a `HeapPromote` of `c` under `p`. -/
structure Promoted (m : WeightedLinks ν) (c p : ν) (m' : WeightedLinks ν) : Prop where
  left : ∀ x, m'.left x = if x = p then m.left c
    else if x = c then if m.left p = some c then some p else heapSibling m c p
    else if m.parent p = some x ∧ m.left x = some p then some c else m.left x
  right : ∀ x, m'.right x = if x = p then m.right c
    else if x = c then if m.left p = some c then heapSibling m c p else some p
    else if m.parent p = some x ∧ m.left x ≠ some p then some c else m.right x
  parent : ∀ x, m'.parent x = if m.left c = some x ∨ m.right c = some x then some p
    else if heapSibling m c p = some x ∨ x = p then some c
    else if x = c then m.parent p else m.parent x
  weight : m'.weight = m.weight

theorem heapPromote_spec (hp : m.parent c = some p) (hgp : m.parent p ≠ some p) :
    ∃ m', heapPromote m c = some m' ∧ Promoted m c p m' := by
  by_cases hl : m.left p = some c
  · refine ⟨_, by simp [heapPromote, hp, hl, hgp]; rfl, fun x => ?_, fun x => ?_, fun x => ?_, ?_⟩
    · by_cases hxp : x = p
      · simp [hxp]
      · by_cases hxc : x = c <;> simp [hxp, hxc, hl]
    · by_cases hxp : x = p
      · simp [hxp]
      · by_cases hxc : x = c <;> simp [hxp, hxc, hl, heapSibling]
    · simp [heapSibling, hl]
      grind
    · simp
  · refine ⟨_, by simp [heapPromote, hp, hl, hgp]; rfl, fun x => ?_, fun x => ?_, fun x => ?_, ?_⟩
    · by_cases hxp : x = p
      · simp [hxp]
      · by_cases hxc : x = c <;> simp [hxp, hxc, hl, heapSibling]
    · by_cases hxp : x = p
      · simp [hxp]
      · by_cases hxc : x = c <;> simp [hxp, hxc, hl]
    · simp [heapSibling, hl]
      grind
    · simp

omit [DecidableEq ν] in
/-- A node of the tree after an exchange: the old parent, the promoted node, or
one that has kept its number. -/
theorem promote_eq_some (hc : e i = some c) (hp : e (i / 2) = some p) (hi : 2 ≤ i) {k : ℕ} {a : ν}
    (hk : HeapOrder.promote e i k = some a) :
    (k = i ∧ a = p) ∨ (k = i / 2 ∧ a = c) ∨ (k ≠ i ∧ k ≠ i / 2 ∧ e k = some a) := by
  by_cases hki : k = i
  · subst hki
    rw [promote_self, hp] at hk
    exact .inl ⟨rfl, (Option.some.inj hk).symm⟩
  · by_cases hkp : k = i / 2
    · subst hkp
      rw [promote_parent e hi, hc] at hk
      exact .inr (.inl ⟨rfl, (Option.some.inj hk).symm⟩)
    · rw [promote_of_ne e hki hkp] at hk
      exact .inr (.inr ⟨hki, hkp, hk⟩)

/-- The sibling of node `i` is the other node with its parent. -/
theorem IsTree.sibling (h : IsTree m e n) (hc : e i = some c) (hp : e (i / 2) = some p) :
    (m.left p = some c ↔ i % 2 = 0) ∧
      heapSibling m c p = if i % 2 = 0 then e (i + 1) else e (i - 1) := by
  have hleft : m.left p = some c ↔ i % 2 = 0 := by
    rw [h.left _ _ hp, h.eq_iff hc]
    omega
  refine ⟨hleft, ?_⟩
  unfold heapSibling
  by_cases heven : i % 2 = 0
  · have h2 : 2 * (i / 2) + 1 = i + 1 := by omega
    rw [if_neg (not_not.mpr (hleft.mpr heven)), if_pos heven, h.right _ _ hp, h2]
  · have h2 : 2 * (i / 2) = i - 1 := by omega
    rw [if_pos (mt hleft.mp heven), if_neg heven, h.left _ _ hp, h2]

section Promote

variable (h : IsTree m e n) (hc : e i = some c) (hi : 2 ≤ i) (hp : e (i / 2) = some p)
include h hc hi hp

omit [DecidableEq ν] in
theorem IsTree.ne_parent : c ≠ p := fun hcp => by
  have := h.inj i (i / 2) c hc (hcp ▸ hp)
  omega

omit [DecidableEq ν] in
theorem IsTree.promote_inj {k j : ℕ} {a : ν} (hk : HeapOrder.promote e i k = some a)
    (hj : HeapOrder.promote e i j = some a) : k = j := by
  have hcp := h.ne_parent hc hi hp
  obtain ⟨rfl, rfl⟩ | ⟨rfl, rfl⟩ | ⟨hki, hkp, hek⟩ := promote_eq_some hc hp hi hk <;>
  obtain ⟨rfl, hja⟩ | ⟨rfl, hja⟩ | ⟨hji, hjp, hej⟩ := promote_eq_some hc hp hi hj
  · rfl
  · exact absurd hja (Ne.symm hcp)
  · exact absurd (h.inj _ _ _ hej hp) hjp
  · exact absurd hja hcp
  · rfl
  · exact absurd (h.inj _ _ _ hej hc) hji
  · exact absurd (h.inj _ _ _ (hja ▸ hek) hp) hkp
  · exact absurd (h.inj _ _ _ (hja ▸ hek) hc) hki
  · exact h.inj k j a hek hej

variable (hm : Promoted m c p m') {k : ℕ} {a : ν} (hk : HeapOrder.promote e i k = some a)
include hm hk

theorem IsTree.promote_left : m'.left a = HeapOrder.promote e i (2 * k) := by
  have hcp := h.ne_parent hc hi hp
  obtain ⟨hleft, hsib⟩ := h.sibling hc hp
  rw [hm.left]
  obtain ⟨rfl, rfl⟩ | ⟨rfl, rfl⟩ | ⟨hki, hkp, hek⟩ := promote_eq_some hc hp hi hk
  · rw [if_pos rfl, h.left _ _ hc, promote_of_ne e (by omega) (by omega)]
  · rw [if_neg hcp, if_pos rfl, hsib]
    by_cases heven : i % 2 = 0
    · have h2 : 2 * (i / 2) = i := by omega
      rw [if_pos (hleft.mpr heven), h2, promote_self, hp]
    · have h2 : 2 * (i / 2) = i - 1 := by omega
      rw [if_neg (mt hleft.mp heven), if_neg heven, h2, promote_of_ne e (by omega) (by omega)]
  · have hap : a ≠ p := fun hap => hkp (h.inj _ _ _ hek (hap ▸ hp))
    have hac : a ≠ c := fun hac => hki (h.inj _ _ _ hek (hac ▸ hc))
    rw [if_neg hap, if_neg hac, h.left _ _ hek, h.parent _ _ hp]
    simp only [h.eq_iff hek, h.eq_iff hp]
    by_cases h2 : 2 * k = i / 2
    · rw [if_pos ⟨by omega, h2⟩, h2, promote_parent e hi, hc]
    · rw [if_neg (fun hand => h2 hand.2), promote_of_ne e (by omega) h2]

theorem IsTree.promote_right : m'.right a = HeapOrder.promote e i (2 * k + 1) := by
  have hcp := h.ne_parent hc hi hp
  obtain ⟨hleft, hsib⟩ := h.sibling hc hp
  rw [hm.right]
  obtain ⟨rfl, rfl⟩ | ⟨rfl, rfl⟩ | ⟨hki, hkp, hek⟩ := promote_eq_some hc hp hi hk
  · rw [if_pos rfl, h.right _ _ hc, promote_of_ne e (by omega) (by omega)]
  · rw [if_neg hcp, if_pos rfl, hsib]
    by_cases heven : i % 2 = 0
    · have h2 : 2 * (i / 2) + 1 = i + 1 := by omega
      rw [if_pos (hleft.mpr heven), if_pos heven, h2, promote_of_ne e (by omega) (by omega)]
    · have h2 : 2 * (i / 2) + 1 = i := by omega
      rw [if_neg (mt hleft.mp heven), h2, promote_self, hp]
  · have hap : a ≠ p := fun hap => hkp (h.inj _ _ _ hek (hap ▸ hp))
    have hac : a ≠ c := fun hac => hki (h.inj _ _ _ hek (hac ▸ hc))
    rw [if_neg hap, if_neg hac, h.left _ _ hek, h.right _ _ hek, h.parent _ _ hp]
    simp only [h.eq_iff hek, ne_eq, h.eq_iff hp]
    by_cases h2 : 2 * k + 1 = i / 2
    · rw [if_pos ⟨by omega, by omega⟩, h2, promote_parent e hi, hc]
    · have hkpos := (h.pos hek).1
      rw [promote_of_ne e (by omega) h2]
      by_cases hgrand : i / 2 / 2 = k ∧ ¬ 2 * k = i / 2
      · exact absurd hgrand (by omega)
      · rw [if_neg hgrand]

theorem IsTree.promote_parent : m'.parent a = HeapOrder.promote e i (k / 2) := by
  have hcp := h.ne_parent hc hi hp
  obtain ⟨-, hsib⟩ := h.sibling hc hp
  have hsib' : ∀ j b, e j = some b → (heapSibling m c p = some b ↔ j / 2 = i / 2 ∧ j ≠ i) := by
    intro j b hj
    have hjpos := h.pos hj
    rw [hsib]
    split <;> rw [h.eq_iff hj] <;> omega
  have hchild : ∀ j b, e j = some b → (m.left c = some b ∨ m.right c = some b ↔ j / 2 = i) := by
    intro j b hj
    rw [h.left _ _ hc, h.right _ _ hc, h.eq_iff hj, h.eq_iff hj]
    omega
  rw [hm.parent]
  obtain ⟨rfl, rfl⟩ | ⟨rfl, rfl⟩ | ⟨hki, hkp, hek⟩ := promote_eq_some hc hp hi hk
  · simp only [hchild _ _ hp, or_true, if_true]
    rw [if_neg (by omega), HeapOrder.promote_parent e hi, hc]
  · simp only [hchild _ _ hc, hsib' _ _ hc]
    rw [if_neg (by omega), if_neg (by simp [hcp]), if_pos trivial, h.parent _ _ hp,
      promote_of_ne e (by omega) (by omega)]
  · have hap : a ≠ p := fun hap => hkp (h.inj _ _ _ hek (hap ▸ hp))
    have hac : a ≠ c := fun hac => hki (h.inj _ _ _ hek (hac ▸ hc))
    simp only [hchild _ _ hek, hsib' _ _ hek, hap, hac, or_false, if_false]
    by_cases hk2 : k / 2 = i
    · rw [if_pos hk2, hk2, promote_self, hp]
    · by_cases hk3 : k / 2 = i / 2
      · rw [if_neg hk2, if_pos ⟨hk3, hki⟩, hk3, HeapOrder.promote_parent e hi, hc]
      · rw [if_neg hk2, if_neg (fun hand => hk3 hand.1), h.parent _ _ hek,
          promote_of_ne e hk2 hk3]

end Promote

/-- **`HeapPromote` exchanges a node with its parent.** -/
theorem IsTree.promote (h : IsTree m e n) (hc : e i = some c) (hi : 2 ≤ i)
    (hp : e (i / 2) = some p) (hm : Promoted m c p m') : IsTree m' (HeapOrder.promote e i) n where
  dom k := by
    by_cases hki : k = i
    · rw [hki, promote_self, ← h.dom i]
      simp [hc, hp]
    · by_cases hkp : k = i / 2
      · rw [hkp, HeapOrder.promote_parent e hi, ← h.dom (i / 2)]
        simp [hc, hp]
      · rw [promote_of_ne e hki hkp, h.dom]
  inj k j a hk hj := h.promote_inj hc hi hp hk hj
  left k a hk := h.promote_left hc hi hp hm hk
  right k a hk := h.promote_right hc hi hp hm hk
  parent k a hk := h.promote_parent hc hi hp hm hk

/-! ## finding a node by its number -/

/-- The first loop counts the bits below the leading one. -/
theorem heapSteps_spec {fuel tmp : ℕ} (h1 : 1 ≤ tmp) (hf : tmp ≤ fuel) :
    tmp / 2 ^ heapSteps fuel tmp = 1 := by
  induction fuel generalizing tmp with
  | zero => omega
  | succ fuel ih =>
      by_cases htmp : tmp = 1
      · simp [heapSteps, htmp]
      · simp only [heapSteps, htmp, if_false]
        have hhalf : tmp / 2 / 2 ^ heapSteps fuel (tmp / 2) = 1 := ih (by omega) (by omega)
        rwa [Nat.div_div_eq_div_mul, ← Nat.pow_succ'] at hhalf

omit [DecidableEq ν] in
/-- The second loop reads the bits of the number from the leading one down:
after all but `s` of them it is at node `index / 2 ^ s`. -/
theorem IsTree.descend (h : IsTree m e n) {index s : ℕ} (hn : index ≤ n)
    (h1 : 1 ≤ index / 2 ^ s) : heapDescend m index s (e (index / 2 ^ s)) = e index := by
  induction s with
  | zero => simp [heapDescend]
  | succ s ih =>
      have hhalf : index / 2 ^ (s + 1) = index / 2 ^ s / 2 := by
        rw [Nat.div_div_eq_div_mul, Nat.pow_succ]
      have hle : index / 2 ^ (s + 1) ≤ n := (Nat.div_le_self _ _).trans hn
      obtain ⟨a, ha⟩ := h.exists_eq h1 hle
      rw [hhalf] at h1 ha
      rw [← ih (by omega), heapDescend, hhalf, ha, Option.bind_some, Nat.testBit_eq_decide_div_mod_eq,
        h.left _ _ ha, h.right _ _ ha]
      by_cases hbit : index / 2 ^ s % 2 = 1
      · have hodd : 2 * (index / 2 ^ s / 2) + 1 = index / 2 ^ s := by omega
        simp [hbit, hodd]
      · have heven : 2 * (index / 2 ^ s / 2) = index / 2 ^ s := by omega
        simp [hbit, heven]

omit [DecidableEq ν] in
/-- **`HeapFindElement`** finds node number `index`. -/
theorem IsTree.find (h : IsTree m e n) {hp : Heap ν} {index : ℕ} (hhead : hp.head = e 1)
    (hsize : index ≤ hp.size) (h1 : 1 ≤ index) (hn : index ≤ n) :
    heapFindElement m index hp = e index := by
  have hsteps := heapSteps_spec h1 le_rfl
  rw [heapFindElement, if_pos ⟨hsize, by omega⟩, hhead, ← hsteps]
  exact h.descend hn (by rw [hsteps])

/-! ## the last leaf and the root -/

omit [DecidableEq ν] in
/-- **Frame**: a tree is untouched by writes to the links of other nodes. -/
theorem IsTree.frame (h : IsTree m e n) (hl : ∀ i a, e i = some a → m'.left a = m.left a)
    (hr : ∀ i a, e i = some a → m'.right a = m.right a)
    (hp : ∀ i a, e i = some a → m'.parent a = m.parent a) : IsTree m' e n where
  dom := h.dom
  inj := h.inj
  left i a ha := (hl i a ha).trans (h.left i a ha)
  right i a ha := (hr i a ha).trans (h.right i a ha)
  parent i a ha := (hp i a ha).trans (h.parent i a ha)

omit [DecidableEq ν] in
/-- A node of the tree after node `j` has been replaced. -/
theorem update_eq_some {j k : ℕ} {v : Option ν} {a : ν} (hk : Function.update e j v k = some a) :
    (k = j ∧ v = some a) ∨ (k ≠ j ∧ e k = some a) := by
  by_cases hkj : k = j
  · subst hkj
    rw [Function.update_self] at hk
    exact .inl ⟨rfl, hk⟩
  · rw [Function.update_of_ne hkj] at hk
    exact .inr ⟨hkj, hk⟩

omit [DecidableEq ν] in
/-- A new last leaf. -/
theorem IsTree.addLast (h : IsTree m e n) (hnew : ∀ i, e i ≠ some c)
    (hcl : m'.left c = none) (hcr : m'.right c = none) (hcp : m'.parent c = e ((n + 1) / 2))
    (hl : ∀ i a, e i = some a → m'.left a = if 2 * i = n + 1 then some c else m.left a)
    (hr : ∀ i a, e i = some a → m'.right a = if 2 * i + 1 = n + 1 then some c else m.right a)
    (hp : ∀ i a, e i = some a → m'.parent a = m.parent a) :
    IsTree m' (Function.update e (n + 1) (some c)) (n + 1) := by
  refine ⟨fun i => ?_, fun i j a hi hj => ?_, fun i a hi => ?_, fun i a hi => ?_, fun i a hi => ?_⟩
  · rw [Function.update_apply]
    split
    · simp only [Option.isSome_some, true_iff]
      omega
    · rw [h.dom]
      omega
  · obtain ⟨rfl, hia⟩ | ⟨hin, hia⟩ := update_eq_some hi <;>
    obtain ⟨rfl, hja⟩ | ⟨hjn, hja⟩ := update_eq_some hj
    · rfl
    · exact absurd (hia ▸ hja) (hnew j)
    · exact absurd (hja ▸ hia) (hnew i)
    · exact h.inj i j a hia hja
  · obtain ⟨rfl, hia⟩ | ⟨hin, hia⟩ := update_eq_some hi
    · rw [← Option.some.inj hia, hcl, Function.update_of_ne (by omega), h.eq_none (by omega)]
    · rw [hl i a hia, Function.update_apply, h.left i a hia]
  · obtain ⟨rfl, hia⟩ | ⟨hin, hia⟩ := update_eq_some hi
    · rw [← Option.some.inj hia, hcr, Function.update_of_ne (by omega), h.eq_none (by omega)]
    · rw [hr i a hia, Function.update_apply, h.right i a hia]
  · obtain ⟨rfl, hia⟩ | ⟨hin, hia⟩ := update_eq_some hi
    · rw [← Option.some.inj hia, hcp, Function.update_of_ne (by omega)]
    · have hpos := h.pos hia
      rw [hp i a hia, h.parent i a hia, Function.update_of_ne (by omega)]

omit [DecidableEq ν] in
/-- The last leaf taken away. -/
theorem IsTree.removeLast (h : IsTree m e (n + 1))
    (hl : ∀ i a, e i = some a → i ≤ n → m'.left a = if 2 * i = n + 1 then none else m.left a)
    (hr : ∀ i a, e i = some a → i ≤ n → m'.right a = if 2 * i + 1 = n + 1 then none else m.right a)
    (hp : ∀ i a, e i = some a → i ≤ n → m'.parent a = m.parent a) :
    IsTree m' (Function.update e (n + 1) none) n := by
  have hsome : ∀ i a, Function.update e (n + 1) none i = some a → e i = some a ∧ i ≤ n := by
    intro i a hi
    obtain ⟨-, hia⟩ | ⟨hin, hia⟩ := update_eq_some hi
    · cases hia
    · have := h.pos hia
      exact ⟨hia, by omega⟩
  refine ⟨fun i => ?_, fun i j a hi hj => h.inj i j a (hsome i a hi).1 (hsome j a hj).1,
    fun i a hi => ?_, fun i a hi => ?_, fun i a hi => ?_⟩
  · rw [Function.update_apply]
    split
    · simp only [Option.isSome_none, Bool.false_eq_true, false_iff]
      omega
    · rw [h.dom]
      omega
  · obtain ⟨hia, hin⟩ := hsome i a hi
    rw [hl i a hia hin, Function.update_apply, h.left i a hia]
  · obtain ⟨hia, hin⟩ := hsome i a hi
    rw [hr i a hia hin, Function.update_apply, h.right i a hia]
  · obtain ⟨hia, hin⟩ := hsome i a hi
    rw [hp i a hia hin, Function.update_of_ne (by omega), h.parent i a hia]

omit [DecidableEq ν] in
/-- Another node in the root's place. -/
theorem IsTree.replaceRoot (h : IsTree m e n) (hn : 1 ≤ n) (hnew : ∀ i, e i ≠ some c)
    (hcl : m'.left c = e 2) (hcr : m'.right c = e 3) (hcp : m'.parent c = none)
    (hl : ∀ i a, 2 ≤ i → e i = some a → m'.left a = m.left a)
    (hr : ∀ i a, 2 ≤ i → e i = some a → m'.right a = m.right a)
    (hp : ∀ i a, 2 ≤ i → e i = some a →
      m'.parent a = if i / 2 = 1 then some c else m.parent a) :
    IsTree m' (Function.update e 1 (some c)) n := by
  refine ⟨fun i => ?_, fun i j a hi hj => ?_, fun i a hi => ?_, fun i a hi => ?_, fun i a hi => ?_⟩
  · rw [Function.update_apply]
    split
    · simp only [Option.isSome_some, true_iff]
      omega
    · rw [h.dom]
  · obtain ⟨rfl, hia⟩ | ⟨hin, hia⟩ := update_eq_some hi <;>
    obtain ⟨rfl, hja⟩ | ⟨hjn, hja⟩ := update_eq_some hj
    · rfl
    · exact absurd (hia ▸ hja) (hnew j)
    · exact absurd (hja ▸ hia) (hnew i)
    · exact h.inj i j a hia hja
  · obtain ⟨rfl, hia⟩ | ⟨hin, hia⟩ := update_eq_some hi
    · rw [← Option.some.inj hia, hcl, Function.update_of_ne (by omega)]
    · have hpos := h.pos hia
      rw [hl i a (by omega) hia, Function.update_of_ne (by omega), h.left i a hia]
  · obtain ⟨rfl, hia⟩ | ⟨hin, hia⟩ := update_eq_some hi
    · rw [← Option.some.inj hia, hcr, Function.update_of_ne (by omega)]
    · have hpos := h.pos hia
      rw [hr i a (by omega) hia, Function.update_of_ne (by omega), h.right i a hia]
  · obtain ⟨rfl, hia⟩ | ⟨hin, hia⟩ := update_eq_some hi
    · rw [← Option.some.inj hia, hcp, Function.update_of_ne (by omega), h.eq_none (by omega)]
    · have hpos := h.pos hia
      rw [hp i a (by omega) hia, Function.update_apply, h.parent i a hia]

end KernelPanic
