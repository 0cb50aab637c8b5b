import KernelPanic.Utils.Heap.Tree
import Mathlib.Data.Set.Insert

/-!
# KernelPanic.Utils.Heap.Queue

`HeapAdd` and `HeapPop` as operations on a set of nodes.  `Holds w m h s` says
that heap `h` contains exactly the nodes `s`: its pointers form a tree of them
(`IsTree`) in heap order (`HeapOrder.Ordered`) with weights of at most `w`
bits.  Adding inserts a node, popping removes one of least weight, and both
leave the nodes of every other heap alone.
-/

namespace KernelPanic

open HeapOrder

variable {ν : Type*} [DecidableEq ν] {m m' : WeightedLinks ν} {e e' : ℕ → Option ν} {n i w : ℕ}
  {c p : ν}

/-- The weight of node number `k`. -/
def weightAt (m : WeightedLinks ν) (e : ℕ → Option ν) (k : ℕ) : ℕ := ((e k).map m.weight).getD 0

omit [DecidableEq ν] in
theorem weightAt_eq {k : ℕ} (hk : e k = some c) : weightAt m e k = m.weight c := by
  simp [weightAt, hk]

omit [DecidableEq ν] in
theorem weightAt_promote (hw : m'.weight = m.weight) :
    weightAt m' (promote e i) = promote (weightAt m e) i := by
  funext k
  unfold weightAt promote
  rw [hw]
  split
  · rfl
  · split <;> rfl

/-! ## one exchange -/

/-- An exchange writes only links of the tree. -/
theorem IsTree.promote_frame (h : IsTree m e n) (hc : e i = some c) (hp : e (i / 2) = some p)
    (hm : Promoted m c p m') {a : ν} (ha : ∀ k, e k ≠ some a) : SameLinks m m' a := by
  have hac : a ≠ c := fun hac => ha i (hac ▸ hc)
  have hap : a ≠ p := fun hap => ha (i / 2) (hap ▸ hp)
  have hgrand : m.parent p ≠ some a := h.parent _ _ hp ▸ ha _
  have hsib : heapSibling m c p ≠ some a := by
    rw [(h.sibling hc hp).2]
    split <;> exact ha _
  have hchild : ¬ (m.left c = some a ∨ m.right c = some a) := by
    rw [h.left _ _ hc, h.right _ _ hc]
    exact fun hor => hor.elim (ha _) (ha _)
  refine ⟨?_, ?_, ?_⟩
  · rw [hm.left, if_neg hap, if_neg hac, if_neg fun hand => hgrand hand.1]
  · rw [hm.right, if_neg hap, if_neg hac, if_neg fun hand => hgrand hand.1]
  · rw [hm.parent, if_neg hchild, if_neg fun hor => hor.elim hsib hap, if_neg hac]

/-- `HeapPromote` of a node that has a parent. -/
theorem IsTree.heapPromote (h : IsTree m e n) (hc : e i = some c) (hi : 2 ≤ i) :
    ∃ m', KernelPanic.heapPromote m c = some m' ∧ IsTree m' (HeapOrder.promote e i) n ∧
      m'.weight = m.weight ∧ ∀ a, (∀ k, e k ≠ some a) → SameLinks m m' a := by
  obtain ⟨p, hp⟩ := h.exists_eq (i := i / 2) (by omega) (by have := (h.pos hc).2; omega)
  have hpar : m.parent c = some p := (h.parent _ _ hc).trans hp
  have hgp : m.parent p ≠ some p := by
    rw [h.parent _ _ hp]
    intro hg
    have := h.inj _ _ _ hg hp
    omega
  obtain ⟨m', hm', hprom⟩ := heapPromote_spec hpar hgp
  exact ⟨m', hm', h.promote hc hi hp hprom, hprom.weight,
    fun a ha => h.promote_frame hc hp hprom ha⟩

/-! ## percolating -/

/-- What a percolation does to a tree: the same nodes, now in order. -/
structure Percolated (m : WeightedLinks ν) (e : ℕ → Option ν) (n : ℕ) (m' : WeightedLinks ν)
    (e' : ℕ → Option ν) : Prop where
  tree : IsTree m' e' n
  ordered : Ordered (weightAt m' e') n
  weight : m'.weight = m.weight
  mem : ∀ a, (∃ k, e' k = some a) ↔ ∃ k, e k = some a
  frame : ∀ a, (∀ k, e k ≠ some a) → SameLinks m m' a

omit [DecidableEq ν] in
/-- A percolation after an exchange is a percolation. -/
theorem Percolated.of_promote {m₁ : WeightedLinks ν} (hw : m₁.weight = m.weight)
    (hf : ∀ a, (∀ k, e k ≠ some a) → SameLinks m m₁ a)
    (h : Percolated m₁ (promote e i) n m' e') : Percolated m e n m' e' where
  tree := h.tree
  ordered := h.ordered
  weight := h.weight.trans hw
  mem a := (h.mem a).trans (exists_promote_iff e i (some a))
  frame a ha := by
    have ha' : ∀ k, promote e i k ≠ some a := by
      have := mt (exists_promote_iff e i (some a)).mp (not_exists.mpr ha)
      exact not_exists.mp this
    exact (hf a ha).trans (h.frame a ha')

/-- **Percolating up** from the only node out of place puts the tree in order;
the node becomes the root exactly when it ends without a parent. -/
theorem heapPercolateUp_spec {fuel : ℕ} (h : IsTree m e n) (hc : e i = some c)
    (ho : UpOrdered (weightAt m e) n i) (hf : i ≤ fuel) :
    ∃ m' e', heapPercolateUp fuel m c = some m' ∧ Percolated m e n m' e' ∧
      e' 1 = if m'.parent c = none then some c else e 1 := by
  induction fuel generalizing m e i with
  | zero =>
      have := (h.pos hc).1
      omega
  | succ fuel ih =>
      have hpos := h.pos hc
      by_cases hi : i = 1
      · -- the node is the root
        have hpar : m.parent c = none := (h.parent _ _ hc).trans (h.eq_none (by omega))
        refine ⟨m, e, by simp [heapPercolateUp, hpar], ⟨h, ho.ordered (by omega), rfl,
          fun _ => Iff.rfl, fun _ _ => .refl⟩, ?_⟩
        rw [if_pos hpar, ← hi, hc]
      · obtain ⟨p, hp⟩ := h.exists_eq (i := i / 2) (by omega) (by omega)
        have hpar : m.parent c = some p := (h.parent _ _ hc).trans hp
        by_cases hlt : m.weight c < m.weight p
        · obtain ⟨m₁, hm₁, htree, hw, hframe⟩ := h.heapPromote hc (by omega)
          have hlt' : weightAt m e i < weightAt m e (i / 2) := by
            rw [weightAt_eq hc, weightAt_eq hp]
            exact hlt
          have ho₁ : UpOrdered (weightAt m₁ (promote e i)) n (i / 2) := by
            rw [weightAt_promote hw]
            exact ho.promote (by omega) hpos.2 hlt'
          have hc₁ : promote e i (i / 2) = some c := (promote_parent e (by omega)).trans hc
          obtain ⟨m', e', hrun, hperc, hroot⟩ := ih htree hc₁ ho₁ (by omega)
          refine ⟨m', e', ?_, hperc.of_promote hw hframe, ?_⟩
          · simp [heapPercolateUp, hpar, hlt, hm₁, hrun]
          · rw [hroot]
            by_cases h1 : i / 2 = 1
            · rw [h1] at hc₁
              have hroot' : e' 1 = some c := by
                rw [hroot, hc₁, ite_self]
              have hnone : m'.parent c = none :=
                (hperc.tree.parent _ _ hroot').trans (hperc.tree.eq_none (by omega))
              rw [if_pos hnone, if_pos hnone]
            · rw [promote_of_ne e (by omega) (by omega)]
        · refine ⟨m, e, by simp [heapPercolateUp, hpar, hlt], ⟨h, ho.ordered fun _ => ?_, rfl,
            fun _ => Iff.rfl, fun _ _ => .refl⟩, ?_⟩
          · rw [weightAt_eq hc, weightAt_eq hp]
            omega
          · rw [if_neg (by simp [hpar])]

omit [DecidableEq ν] in
theorem heapWeight_eq {k : ℕ} (hk : e k = some c) : heapWeight w m (e k) = weightAt m e k := by
  simp [heapWeight, weightAt, hk]

omit [DecidableEq ν] in
/-- **`HeapSmallest`** of a node and its children: the node itself when no child
is smaller, else the smaller child.  A missing child has the largest weight,
so it is never picked. -/
theorem heapSmallest_spec (h : IsTree m e n) (hc : e i = some c)
    (hmax : ∀ k a, e k = some a → m.weight a ≤ 2 ^ w - 1) :
    (heapSmallest w m (some c) (m.left c) (m.right c) = some c ∧
      ∀ k, 2 ≤ k → k ≤ n → k / 2 = i → weightAt m e i ≤ weightAt m e k) ∨
    ∃ j s, heapSmallest w m (some c) (m.left c) (m.right c) = some s ∧ e j = some s ∧
      2 ≤ j ∧ j / 2 = i ∧ weightAt m e j < weightAt m e i ∧
      ∀ k, k ≤ n → k / 2 = i → weightAt m e j ≤ weightAt m e k := by
  have hpos := h.pos hc
  have hin : ∀ k, 1 ≤ k → k ≤ n → heapWeight w m (e k) = weightAt m e k := fun k h1 hk => by
    obtain ⟨a, ha⟩ := h.exists_eq h1 hk
    exact heapWeight_eq ha
  have hout : ∀ k, n < k → heapWeight w m (e k) = 2 ^ w - 1 := fun k hk => by
    rw [h.eq_none (.inr hk)]
    rfl
  have hle : weightAt m e i ≤ 2 ^ w - 1 := by
    rw [weightAt_eq hc]
    exact hmax i c hc
  have hchild : ∀ k, k / 2 = i → k = 2 * i ∨ k = 2 * i + 1 := by omega
  rw [h.left _ _ hc, h.right _ _ hc, ← hc]
  unfold heapSmallest
  rw [hin i hpos.1 hpos.2]
  have hl := hin (2 * i) (by omega)
  have hl' := hout (2 * i)
  have hr := hin (2 * i + 1) (by omega)
  have hr' := hout (2 * i + 1)
  generalize heapWeight w m (e (2 * i)) = w₂ at hl hl' ⊢
  generalize heapWeight w m (e (2 * i + 1)) = w₃ at hr hr' ⊢
  by_cases hself : weightAt m e i ≤ w₂ ∧ weightAt m e i ≤ w₃
  · refine .inl ⟨if_pos hself, fun k _ hkn hk => ?_⟩
    obtain rfl | rfl := hchild k hk <;> omega
  · rw [if_neg hself]
    by_cases hleft : w₂ ≤ weightAt m e i ∧ w₂ ≤ w₃
    · obtain ⟨a, ha⟩ := h.exists_eq (i := 2 * i) (by omega) (by omega)
      rw [if_pos hleft]
      refine .inr ⟨2 * i, a, ha, ha, by omega, by omega, by omega, fun k hkn hk => ?_⟩
      obtain rfl | rfl := hchild k hk <;> omega
    · obtain ⟨b, hb⟩ := h.exists_eq (i := 2 * i + 1) (by omega) (by omega)
      rw [if_neg hleft, if_pos (by omega)]
      refine .inr ⟨2 * i + 1, b, hb, hb, by omega, by omega, by omega, fun k hkn hk => ?_⟩
      obtain rfl | rfl := hchild k hk <;> omega

/-- **Percolating down** from the only node out of place puts the tree in order
and keeps track of the root. -/
theorem heapPercolateDown_spec {fuel : ℕ} (h : IsTree m e n) (hc : e i = some c)
    (ho : DownOrdered (weightAt m e) n i) (hmax : ∀ k a, e k = some a → m.weight a ≤ 2 ^ w - 1)
    (hf : n < i + fuel) :
    ∃ m' e', heapPercolateDown w fuel m (e 1) c = some (m', e' 1) ∧ Percolated m e n m' e' := by
  induction fuel generalizing m e i with
  | zero =>
      have := (h.pos hc).2
      omega
  | succ fuel ih =>
      have hpos := h.pos hc
      obtain ⟨hself, hmin⟩ | ⟨j, s, hs, hj, hj2, hji, hlt, hmin⟩ := heapSmallest_spec h hc hmax
      · exact ⟨m, e, by simp [heapPercolateDown, hself], h, ho.ordered hmin, rfl,
          fun _ => Iff.rfl, fun _ _ => .refl⟩
      · have hsc : s ≠ c := fun hsc => by
          have := h.inj j i s hj (hsc ▸ hc)
          omega
        have hjpos := h.pos hj
        obtain ⟨m₁, hm₁, htree, hw, hframe⟩ := h.heapPromote hj hj2
        have hs₁ : promote e j i = some s := by rw [← hji, promote_parent e hj2, hj]
        have hc₁ : promote e j j = some c := by rw [promote_self, hji, hc]
        have ho₁ : DownOrdered (weightAt m₁ (promote e j)) n j := by
          rw [weightAt_promote hw]
          exact (hji ▸ ho).promote hj2 hjpos.2 (hji ▸ hlt) (hji ▸ hmin)
        have hmax₁ : ∀ k a, promote e j k = some a → m₁.weight a ≤ 2 ^ w - 1 := by
          intro k a hk
          obtain ⟨k', hk'⟩ := (exists_promote_iff e j (some a)).mp ⟨k, hk⟩
          rw [hw]
          exact hmax k' a hk'
        -- `Head` follows the root: it changes only when the exchange is at the top.
        have hhead : (if m₁.parent s = none then some s else e 1) = promote e j 1 := by
          rw [htree.parent _ _ hs₁]
          by_cases h1 : i = 1
          · rw [h1] at hs₁ ⊢
            rw [if_pos (htree.eq_none (by omega)), hs₁]
          · obtain ⟨g, hg⟩ := htree.exists_eq (i := i / 2) (by omega) (by omega)
            rw [if_neg (by simp [hg]), promote_of_ne e (by omega) (by omega)]
        obtain ⟨m', e', hrun, hperc⟩ := ih htree hc₁ ho₁ hmax₁ (by omega)
        refine ⟨m', e', ?_, hperc.of_promote hw hframe⟩
        simp [heapPercolateDown, hs, hsc, hm₁, hhead, hrun]

/-! ## the heap as a set -/

/-- Heap `h` is the numbered tree `e`, in order. -/
structure IsHeap (w : ℕ) (m : WeightedLinks ν) (h : Heap ν) (e : ℕ → Option ν) : Prop where
  tree : IsTree m e h.size
  head : h.head = e 1
  ordered : Ordered (weightAt m e) h.size
  bound : ∀ k a, e k = some a → m.weight a ≤ 2 ^ w - 1

/-- Heap `h` contains exactly the nodes of `s`. -/
def Holds (w : ℕ) (m : WeightedLinks ν) (h : Heap ν) (s : Set ν) : Prop :=
  ∃ e, IsHeap w m h e ∧ ∀ a, a ∈ s ↔ ∃ k, e k = some a

variable {h h' : Heap ν} {s s' : Set ν}

omit [DecidableEq ν] in
/-- The links from the head on say what every number stands for. -/
theorem IsHeap.unique {e e' : ℕ → Option ν} (he : IsHeap w m h e) (he' : IsHeap w m h e') : e = e' := by
  funext k
  induction k using Nat.strong_induction_on with
  | _ k ih =>
      obtain rfl | rfl | h2 : k = 0 ∨ k = 1 ∨ 2 ≤ k := by omega
      · rw [he.tree.eq_none (.inl rfl), he'.tree.eq_none (.inl rfl)]
      · rw [← he.head, ← he'.head]
      · by_cases hk : k ≤ h.size
        · obtain ⟨a, ha⟩ := he.tree.exists_eq (i := k / 2) (by omega) (by omega)
          have ha' : e' (k / 2) = some a := ih (k / 2) (by omega) ▸ ha
          obtain heven | hodd := Nat.mod_two_eq_zero_or_one k
          · have hkk : k = 2 * (k / 2) := by omega
            rw [hkk, ← he.tree.left _ a ha, ← he'.tree.left _ a ha']
          · have hkk : k = 2 * (k / 2) + 1 := by omega
            rw [hkk, ← he.tree.right _ a ha, ← he'.tree.right _ a ha']
        · rw [he.tree.eq_none (.inr (by omega)), he'.tree.eq_none (.inr (by omega))]

omit [DecidableEq ν] in
/-- A heap contains one set of nodes. -/
theorem Holds.unique (hh : Holds w m h s) (hh' : Holds w m h s') : s = s' := by
  obtain ⟨e, he, hs⟩ := hh
  obtain ⟨e', he', hs'⟩ := hh'
  ext a
  rw [hs, hs', he.unique he']

omit [DecidableEq ν] in
theorem holds_init : Holds w m heapInit ∅ :=
  ⟨fun _ => none, ⟨⟨fun i => by simp [heapInit]; omega, by simp, by simp, by simp, by simp⟩, rfl,
    fun k h2 hk => by simp [heapInit] at hk; omega, by simp⟩, by simp⟩

omit [DecidableEq ν] in
theorem Holds.size_pos (hh : Holds w m h s) : 0 < h.size ↔ s.Nonempty := by
  obtain ⟨e, he, hs⟩ := hh
  constructor
  · intro hpos
    obtain ⟨a, ha⟩ := he.tree.exists_eq (i := 1) le_rfl hpos
    exact ⟨a, (hs a).mpr ⟨1, ha⟩⟩
  · rintro ⟨a, ha⟩
    obtain ⟨k, hk⟩ := (hs a).mp ha
    have := he.tree.pos hk
    omega

omit [DecidableEq ν] in
theorem Holds.weight_le (hh : Holds w m h s) {a : ν} (ha : a ∈ s) : m.weight a ≤ 2 ^ w - 1 := by
  obtain ⟨e, he, hs⟩ := hh
  obtain ⟨k, hk⟩ := (hs a).mp ha
  exact he.bound k a hk

omit [DecidableEq ν] in
/-- **Frame**: a heap is untouched by writes to other nodes. -/
theorem Holds.frame (hh : Holds w m h s) (hl : ∀ a ∈ s, SameLinks m m' a)
    (hw : ∀ a ∈ s, m'.weight a = m.weight a) : Holds w m' h s := by
  obtain ⟨e, he, hs⟩ := hh
  have hmem : ∀ k a, e k = some a → a ∈ s := fun k a hk => (hs a).mpr ⟨k, hk⟩
  have hwt : weightAt m' e = weightAt m e := by
    funext k
    cases hk : e k with
    | none => simp [weightAt, hk]
    | some a => rw [weightAt_eq hk, weightAt_eq hk, hw a (hmem k a hk)]
  refine ⟨e, ⟨he.tree.frame ?_ ?_ ?_, he.head, hwt ▸ he.ordered, fun k a hk => ?_⟩, hs⟩
  · exact fun k a hk => (hl a (hmem k a hk)).left
  · exact fun k a hk => (hl a (hmem k a hk)).right
  · exact fun k a hk => (hl a (hmem k a hk)).parent
  · rw [hw a (hmem k a hk)]
    exact he.bound k a hk

omit [DecidableEq ν] in
/-- **The head** is a node of least weight. -/
theorem Holds.headWeight (hh : Holds w m h s) (hne : s.Nonempty) :
    ∃ a ∈ s, h.head = some a ∧ heapHeadWeight m h = m.weight a ∧
      ∀ b ∈ s, m.weight a ≤ m.weight b := by
  have hpos := hh.size_pos.mpr hne
  obtain ⟨e, he, hs⟩ := hh
  obtain ⟨a, ha⟩ := he.tree.exists_eq (i := 1) le_rfl hpos
  have hhead := he.head.trans ha
  refine ⟨a, (hs a).mpr ⟨1, ha⟩, hhead, by simp [heapHeadWeight, hhead], fun b hb => ?_⟩
  obtain ⟨k, hk⟩ := (hs b).mp hb
  have hkpos := he.tree.pos hk
  rw [← weightAt_eq (m := m) ha, ← weightAt_eq (m := m) hk]
  exact he.ordered.root_le hkpos.1 hkpos.2

/-! ## HeapAdd -/

/-- Linking the new node under its parent makes it the last leaf. -/
theorem IsTree.link (ht : IsTree m e n) (hnew : ∀ k, e k ≠ some c) {k : ℕ} (hn : 1 ≤ n)
    (hp : e ((n + 1) / 2) = some p) :
    let m₁ := heapLeaf m k c
    let m₂ := if m₁.left p = none then m₁.setLeft p (some c) else m₁.setRight p (some c)
    (m₁.left p = none ∨ m₁.right p = none) ∧
      IsTree (m₂.setParent c (some p)) (Function.update e (n + 1) (some c)) (n + 1) := by
  intro m₁ m₂
  have hne : ∀ j a, e j = some a → a ≠ c := fun j a hj hac => hnew j (hac ▸ hj)
  have hpc := hne _ _ hp
  have hl : m₁.left p = none ↔ 2 * ((n + 1) / 2) = n + 1 := by
    have hleft : m₁.left p = e (2 * ((n + 1) / 2)) := by
      simp [m₁, heapLeaf, hpc, ht.left _ _ hp]
    rw [hleft, ← Option.not_isSome_iff_eq_none, ht.dom]
    omega
  have hr : m₁.right p = e (2 * ((n + 1) / 2) + 1) := by
    simp [m₁, heapLeaf, hpc, ht.right _ _ hp]
  constructor
  · by_cases heven : 2 * ((n + 1) / 2) = n + 1
    · exact .inl (hl.mpr heven)
    · exact .inr (hr.trans (ht.eq_none (by omega)))
  · have hcase : ∀ j a, e j = some a → (a = p ↔ j = (n + 1) / 2) := fun j a hj =>
      ⟨fun hap => ht.inj _ _ _ hj (hap ▸ hp), fun hjp => by
        rw [hjp, hp] at hj
        exact (Option.some.inj hj).symm⟩
    by_cases heven : 2 * ((n + 1) / 2) = n + 1
    · have hm₂ : m₂ = m₁.setLeft p (some c) := if_pos (hl.mpr heven)
      rw [hm₂]
      refine ht.addLast hnew ?_ ?_ ?_ (fun j a hj => ?_) (fun j a hj => ?_) fun j a hj => ?_
      · simp [m₁, heapLeaf, Ne.symm hpc]
      · simp [m₁, heapLeaf]
      · simp [hp]
      · have hiff : a = p ↔ 2 * j = n + 1 := (hcase j a hj).trans (by omega)
        simp [m₁, heapLeaf, hne j a hj, hiff]
      · rw [if_neg (by omega)]
        simp [m₁, heapLeaf, hne j a hj]
      · simp [m₁, heapLeaf, hne j a hj]
    · have hm₂ : m₂ = m₁.setRight p (some c) := if_neg (mt hl.mp heven)
      rw [hm₂]
      refine ht.addLast hnew ?_ ?_ ?_ (fun j a hj => ?_) (fun j a hj => ?_) fun j a hj => ?_
      · simp [m₁, heapLeaf]
      · simp [m₁, heapLeaf, Ne.symm hpc]
      · simp [hp]
      · rw [if_neg (by omega)]
        simp [m₁, heapLeaf, hne j a hj]
      · have hiff : a = p ↔ 2 * j + 1 = n + 1 := (hcase j a hj).trans (by omega)
        simp [m₁, heapLeaf, hne j a hj, hiff]
      · simp [m₁, heapLeaf, hne j a hj]

omit [DecidableEq ν] in
theorem exists_update_iff {j : ℕ} (hj : e j = none) {a : ν} :
    (∃ i, Function.update e j (some c) i = some a) ↔ a = c ∨ ∃ i, e i = some a := by
  constructor
  · rintro ⟨i, hi⟩
    obtain ⟨-, hia⟩ | ⟨-, hia⟩ := update_eq_some hi
    · exact .inl (Option.some.inj hia).symm
    · exact .inr ⟨i, hia⟩
  · rintro (rfl | ⟨i, hi⟩)
    · exact ⟨j, Function.update_self ..⟩
    · have hij : i ≠ j := fun hij => by simp [hij, hj] at hi
      exact ⟨i, (Function.update_of_ne hij ..).trans hi⟩

section Add

variable (hnew : ∀ j, e j ≠ some c) {k : ℕ} (hw : m'.weight = Function.update m.weight c k)
include hnew

omit [DecidableEq ν] in
theorem ne_new {j : ℕ} {a : ν} (hj : e j = some a) : a ≠ c := fun hac => hnew j (hac ▸ hj)

include hw

/-- The weights of the old nodes, with a new last leaf. -/
theorem weightAt_addLast {j : ℕ} (hj : j ≠ n) :
    weightAt m' (Function.update e n (some c)) j = weightAt m e j := by
  unfold weightAt
  rw [Function.update_of_ne hj, hw]
  cases hej : e j with
  | none => rfl
  | some a => simp [Function.update_of_ne (ne_new hnew hej)]

/-- Only the new last leaf may be out of place. -/
theorem IsHeap.upOrdered_addLast (he : IsHeap w m h e) :
    UpOrdered (weightAt m' (Function.update e (h.size + 1) (some c))) (h.size + 1)
      (h.size + 1) where
  off j hj hjn hne := by
    rw [weightAt_addLast hnew hw (by omega), weightAt_addLast hnew hw hne]
    exact he.ordered j hj (by omega)
  grand h2 j hjn hpar := by omega

theorem IsHeap.bound_addLast (he : IsHeap w m h e) (hk : k ≤ 2 ^ w - 1) {j : ℕ} {a : ν}
    (hj : Function.update e (h.size + 1) (some c) j = some a) : m'.weight a ≤ 2 ^ w - 1 := by
  rw [hw]
  obtain ⟨-, hja⟩ | ⟨-, hja⟩ := update_eq_some hj
  · rw [← Option.some.inj hja, Function.update_self]
    exact hk
  · rw [Function.update_of_ne (ne_new hnew hja)]
    exact he.bound j a hja

end Add

/-- **`HeapAdd`** inserts a node that is in no heap, and writes only links of
this heap's nodes. -/
theorem Holds.add (hh : Holds w m h s) (hc : c ∉ s) {k : ℕ} (hk : k ≤ 2 ^ w - 1) :
    ∃ m' h', heapAdd m k c h = some (m', h') ∧ Holds w m' h' (insert c s) ∧
      m'.weight = Function.update m.weight c k ∧ h'.size = h.size + 1 ∧
      ∀ a, a ∉ s → a ≠ c → SameLinks m m' a := by
  obtain ⟨e, he, hs⟩ := hh
  have hnew : ∀ j, e j ≠ some c := fun j hj => hc ((hs c).mpr ⟨j, hj⟩)
  have hlast : e (h.size + 1) = none := he.tree.eq_none (by omega)
  have hmem : ∀ a, a ∈ insert c s ↔
      ∃ j, Function.update e (h.size + 1) (some c) j = some a := fun a => by
    rw [exists_update_iff hlast, Set.mem_insert_iff, hs]
  by_cases hsize : h.size = 0
  · -- the node is the first element
    let m' := (heapLeaf m k c).setParent c none
    have hw : m'.weight = Function.update m.weight c k := rfl
    have hframe : ∀ a, a ≠ c → SameLinks m m' a := fun a hac =>
      ⟨by simp [m', heapLeaf, hac], by simp [m', heapLeaf, hac], by simp [m', heapLeaf, hac]⟩
    refine ⟨m', ⟨some c, h.size + 1⟩, by simp [heapAdd, hsize, m', heapLeaf], ?_, hw, rfl,
      fun a _ hac => hframe a hac⟩
    refine ⟨_, ⟨?_, ?_, (he.upOrdered_addLast hnew hw).ordered ?_,
      fun j a => he.bound_addLast hnew hw hk⟩, hmem⟩
    · refine he.tree.addLast hnew ?_ ?_ ?_ (fun j a hj => ?_) (fun j a hj => ?_) fun j a hj => ?_
      · simp [m', heapLeaf]
      · simp [m', heapLeaf]
      · rw [he.tree.eq_none (i := (h.size + 1) / 2) (by omega)]
        simp [m']
      all_goals
        have := he.tree.pos hj
        omega
    · rw [hsize]
      simp
    · omega
  · obtain ⟨p, hp⟩ := he.tree.exists_eq (i := (h.size + 1) / 2) (by omega) (by omega)
    obtain ⟨hspot, htree⟩ := he.tree.link hnew (k := k) (by omega) hp
    have hleaf : IsTree (heapLeaf m k c) e h.size := by
      refine he.tree.frame ?_ ?_ ?_ <;> intro j a hj <;>
        simp [heapLeaf, ne_new hnew hj]
    have hfind : heapFindElement (heapLeaf m k c) ((h.size + 1) / 2) ⟨h.head, h.size + 1⟩ =
        e ((h.size + 1) / 2) :=
      hleaf.find he.head (by show (h.size + 1) / 2 ≤ h.size + 1; omega) (by omega) (by omega)
    let m₁ := (if (heapLeaf m k c).left p = none then (heapLeaf m k c).setLeft p (some c)
      else (heapLeaf m k c).setRight p (some c)).setParent c (some p)
    have hw : m₁.weight = Function.update m.weight c k := by
      simp only [m₁]
      split <;> rfl
    have hlinked : Function.update e (h.size + 1) (some c) (h.size + 1) = some c :=
      Function.update_self ..
    obtain ⟨m', e', hrun, hperc, hroot⟩ :=
      heapPercolateUp_spec htree hlinked (he.upOrdered_addLast hnew hw) le_rfl
    have hw' := hperc.weight.trans hw
    have hsizes : (if m'.parent c = none then (⟨some c, h.size + 1⟩ : Heap ν)
        else ⟨h.head, h.size + 1⟩).size = h.size + 1 := by
      split <;> rfl
    refine ⟨m', if m'.parent c = none then ⟨some c, h.size + 1⟩ else ⟨h.head, h.size + 1⟩,
      ?_, ⟨e', ⟨?_, ?_, ?_, ?_⟩, fun a => ?_⟩, hw', hsizes, fun a has hac => ?_⟩
    · simp only [heapAdd]
      rw [if_neg (by omega)]
      simp only [hfind, hp]
      show (if (heapLeaf m k c).left p = none ∨ (heapLeaf m k c).right p = none then
        Option.map _ (heapPercolateUp (h.size + 1) m₁ c) else none) = _
      rw [if_pos hspot, hrun]
      rfl
    · rw [hsizes]
      exact hperc.tree
    · rw [hroot, Function.update_of_ne (by omega), ← he.head]
      split <;> rfl
    · rw [hsizes]
      exact hperc.ordered
    · intro j a hj
      obtain ⟨j', hj'⟩ := (hperc.mem a).mp ⟨j, hj⟩
      rw [hperc.weight]
      exact he.bound_addLast hnew hw hk hj'
    · rw [hmem, hperc.mem]
    · have hap : a ≠ p := fun hap => has ((hs a).mpr ⟨_, hap ▸ hp⟩)
      have hlinks : SameLinks m m₁ a := by
        simp only [m₁]
        split <;> constructor <;> simp [heapLeaf, hac, hap]
      refine hlinks.trans (hperc.frame a fun j hj => ?_)
      have := (hmem a).mpr ⟨j, hj⟩
      obtain hins | hins := Set.mem_insert_iff.mp this
      · exact hac hins
      · exact has hins

/-! ## HeapPop -/

/-- The tree without its last leaf. -/
theorem IsTree.cut (ht : IsTree m e (n + 1)) {t : ν} (htail : e (n + 1) = some t)
    (hp : e ((n + 1) / 2) = some p) : IsTree (heapCut m t p) (Function.update e (n + 1) none) n := by
  have hcase : ∀ j a, e j = some a → (a = p ↔ j = (n + 1) / 2) := fun j a hj =>
    ⟨fun hap => ht.inj _ _ _ hj (hap ▸ hp), fun hjp => by
      rw [hjp, hp] at hj
      exact (Option.some.inj hj).symm⟩
  have hright : m.right p = some t ↔ 2 * ((n + 1) / 2) + 1 = n + 1 := by
    rw [ht.right _ _ hp, ht.eq_iff htail]
  unfold heapCut
  split
  · next hr =>
      have hodd := hright.mp hr
      refine ht.removeLast (fun j a hj hjn => ?_) (fun j a hj hjn => ?_) fun j a hj hjn => rfl
      · rw [if_neg (by omega)]
        simp
      · have hiff : a = p ↔ 2 * j + 1 = n + 1 := (hcase j a hj).trans (by omega)
        simp [hiff]
  · next hr =>
      have heven := mt hright.mpr hr
      refine ht.removeLast (fun j a hj hjn => ?_) (fun j a hj hjn => ?_) fun j a hj hjn => rfl
      · have hiff : a = p ↔ 2 * j = n + 1 := (hcase j a hj).trans (by omega)
        simp [hiff]
      · rw [if_neg (by omega)]
        simp

/-- The tree with another node in the root's place. -/
theorem IsTree.reroot (ht : IsTree m e n) (hn : 1 ≤ n) {t r : ν} (hr : e 1 = some r)
    (hnew : ∀ j, e j ≠ some t) : IsTree (heapReroot m t r) (Function.update e 1 (some t)) n := by
  have hl := ht.left _ _ hr
  have hr' := ht.right _ _ hr
  refine ht.replaceRoot hn hnew ?_ ?_ ?_ (fun j a hj hja => ?_) (fun j a hj hja => ?_)
    fun j a hj hja => ?_
  · simp [heapReroot, hl]
  · simp [heapReroot, hr']
  · have h2 : e 2 ≠ some t := hnew 2
    have h3 : e 3 ≠ some t := hnew 3
    simp [heapReroot, hl, hr', h2, h3]
  · simp [heapReroot, ne_new hnew hja]
  · simp [heapReroot, ne_new hnew hja]
  · have h2 : e 2 = some a ↔ j = 2 := (ht.eq_iff hja).trans eq_comm
    have h3 : e 3 = some a ↔ j = 3 := (ht.eq_iff hja).trans eq_comm
    simp [heapReroot, hl, hr', h2, h3, ne_new hnew hja]
    by_cases hone : j / 2 = 1
    · have hj23 : j = 3 ∨ j = 2 := by omega
      obtain rfl | rfl := hj23 <;> simp
    · rw [if_neg (by omega), if_neg (by omega), if_neg hone]

/-- The only node of a heap of size one. -/
theorem IsHeap.pop_single (he : IsHeap w m h e) (hsize : h.size = 1) {r : ν} (hr : e 1 = some r) :
    heapPop w m h = some (some r, m, ⟨none, 0⟩) := by
  have hfind : heapFindElement m h.size h = some r := by
    rw [he.tree.find he.head le_rfl (by omega) le_rfl, hsize, hr]
  have hl : m.left r = none := (he.tree.left _ _ hr).trans (he.tree.eq_none (by omega))
  have hright : m.right r = none := (he.tree.right _ _ hr).trans (he.tree.eq_none (by omega))
  have hp : m.parent r = none := (he.tree.parent _ _ hr).trans (he.tree.eq_none (by omega))
  simp [heapPop, hsize ▸ hfind, hsize, hl, hright, hp]

/-- The loop of `HeapPop` starts from the tree without its last leaf, which has
taken the root's place. -/
theorem IsHeap.pop_eq (he : IsHeap w m h e) (hsize : h.size = n + 1) (hn : 1 ≤ n) {t r : ν}
    (ht : e (n + 1) = some t) (hp : e ((n + 1) / 2) = some p) (hr : e 1 = some r) :
    heapPop w m h = (heapPercolateDown w (n + 1) (heapReroot (heapCut m t p) t r) (some t) t).map
      fun x => (some r, x.1, ⟨x.2, n⟩) := by
  have hfind : heapFindElement m (n + 1) h = some t := by
    rw [he.tree.find he.head (by omega) (by omega) (by omega), ht]
  have hl : m.left t = none := (he.tree.left _ _ ht).trans (he.tree.eq_none (by omega))
  have hright : m.right t = none := (he.tree.right _ _ ht).trans (he.tree.eq_none (by omega))
  have hpar : m.parent t = some p := (he.tree.parent _ _ ht).trans hp
  have hhead : h.head = some r := he.head.trans hr
  simp [heapPop, hsize, hfind, hl, hright, hpar, hhead]

theorem heapReroot_weight {t r : ν} : (heapReroot (heapCut m t p) t r).weight = m.weight := by
  simp only [heapReroot, heapCut]
  split <;> simp

/-- Cutting and re-rooting write only links of the tree. -/
theorem IsTree.reroot_frame (ht : IsTree m e n) {t r x : ν} {j : ℕ} (htail : e j = some t)
    (hp : e (j / 2) = some p) (hr : e 1 = some r) (hx : ∀ k, e k ≠ some x) :
    SameLinks m (heapReroot (heapCut m t p) t r) x := by
  have hxt : x ≠ t := fun hxt => hx _ (hxt ▸ htail)
  have hxp : x ≠ p := fun hxp => hx _ (hxp ▸ hp)
  have hl : ∀ v, m.left v = some x → ∀ k, e k ≠ some v := fun v hv k hk =>
    hx _ ((ht.left k v hk).symm.trans hv)
  have hr' : ∀ v, m.right v = some x → ∀ k, e k ≠ some v := fun v hv k hk =>
    hx _ ((ht.right k v hk).symm.trans hv)
  have hcut : (heapCut m t p).left r ≠ some x ∧ (heapCut m t p).right r ≠ some x := by
    have h1 : m.left r ≠ some x := fun h => hl r h 1 hr
    have h2 : m.right r ≠ some x := fun h => hr' r h 1 hr
    unfold heapCut
    split <;> simp [h1, h2]
  have hlinks : SameLinks m (heapCut m t p) x := by
    unfold heapCut
    split <;> constructor <;> simp [hxp]
  refine hlinks.trans ⟨?_, ?_, ?_⟩
  · simp [heapReroot, hxt]
  · simp [heapReroot, hxt]
  · simp [heapReroot, hxt, hcut.1, hcut.2]

omit [DecidableEq ν] in
/-- Without its root, and with its last leaf there instead, the tree has all its
other nodes. -/
theorem IsTree.exists_reroot_iff (h : IsTree m e (n + 1)) (hn : 1 ≤ n) {t r a : ν}
    (ht : e (n + 1) = some t) (hr : e 1 = some r) :
    (∃ j, Function.update (Function.update e (n + 1) none) 1 (some t) j = some a) ↔
      (∃ j, e j = some a) ∧ a ≠ r := by
  constructor
  · rintro ⟨j, hj⟩
    obtain ⟨-, hja⟩ | ⟨hj1, hja⟩ := update_eq_some hj
    · obtain rfl := Option.some.inj hja
      refine ⟨⟨n + 1, ht⟩, fun htr => ?_⟩
      have := h.inj _ _ _ ht (htr ▸ hr)
      omega
    · obtain ⟨-, hnone⟩ | ⟨-, hja⟩ := update_eq_some hja
      · cases hnone
      · exact ⟨⟨j, hja⟩, fun har => hj1 (h.inj _ _ _ hja (har ▸ hr))⟩
  · rintro ⟨⟨j, hj⟩, har⟩
    have hj1 : j ≠ 1 := fun hj1 => by
      rw [hj1, hr] at hj
      exact har (Option.some.inj hj).symm
    by_cases hjn : j = n + 1
    · rw [hjn, ht] at hj
      exact ⟨1, (Function.update_self ..).trans hj⟩
    · exact ⟨j, by rw [Function.update_of_ne hj1, Function.update_of_ne hjn, hj]⟩

/-- **`HeapPop`** removes a node of least weight, and writes only links of this
heap's nodes. -/
theorem Holds.pop (hh : Holds w m h s) (hne : s.Nonempty) :
    ∃ a m' h', heapPop w m h = some (some a, m', h') ∧ h.head = some a ∧ a ∈ s ∧
      (∀ b ∈ s, m.weight a ≤ m.weight b) ∧ Holds w m' h' (s \ {a}) ∧
      m'.weight = m.weight ∧ h'.size + 1 = h.size ∧ ∀ x, x ∉ s → SameLinks m m' x := by
  obtain ⟨r, hrs, hhead, -, hmin⟩ := hh.headWeight hne
  have hpos := hh.size_pos.mpr hne
  obtain ⟨e, he, hs⟩ := hh
  have hr : e 1 = some r := he.head.symm.trans hhead
  obtain ⟨n, hn⟩ : ∃ n, h.size = n + 1 := ⟨h.size - 1, by omega⟩
  have htree : IsTree m e (n + 1) := hn ▸ he.tree
  by_cases hn0 : n = 0
  · have hone : s \ {r} = ∅ := by
      ext a
      simp only [Set.mem_sdiff, Set.mem_singleton_iff, Set.mem_empty_iff_false, iff_false, not_and,
        not_not]
      intro ha
      obtain ⟨k, hk⟩ := (hs a).mp ha
      have := htree.pos hk
      have hk1 : k = 1 := by omega
      rw [hk1, hr] at hk
      exact (Option.some.inj hk).symm
    refine ⟨r, m, ⟨none, 0⟩, he.pop_single (by omega) hr, hhead, hrs, hmin, ?_, rfl,
      by simp only []; omega, fun _ _ => .refl⟩
    rw [hone]
    exact holds_init
  · obtain ⟨t, ht⟩ := htree.exists_eq (i := n + 1) (by omega) le_rfl
    obtain ⟨p, hp⟩ := htree.exists_eq (i := (n + 1) / 2) (by omega) (by omega)
    have hcut := htree.cut ht hp
    have hnew : ∀ j, Function.update e (n + 1) none j ≠ some t := fun j hj => by
      obtain ⟨-, hjt⟩ | ⟨hjn, hjt⟩ := update_eq_some hj
      · cases hjt
      · exact hjn (htree.inj _ _ _ hjt ht)
    have hr₁ : Function.update e (n + 1) none 1 = some r :=
      (Function.update_of_ne (by omega) ..).trans hr
    have htree₂ := hcut.reroot (by omega) hr₁ hnew
    set e₂ := Function.update (Function.update e (n + 1) none) 1 (some t) with he₂
    have hroot : e₂ 1 = some t := Function.update_self ..
    have hsame : ∀ j, 2 ≤ j → j ≤ n → e₂ j = e j := fun j h2 hjn => by
      rw [he₂, Function.update_of_ne (by omega), Function.update_of_ne (by omega)]
    have hmem : ∀ a, a ∈ s \ {r} ↔ ∃ j, e₂ j = some a := fun a => by
      rw [Set.mem_sdiff, Set.mem_singleton_iff, hs, htree.exists_reroot_iff (by omega) ht hr]
    have hwt : ∀ j, 2 ≤ j → j ≤ n →
        weightAt (heapReroot (heapCut m t p) t r) e₂ j = weightAt m e j := fun j h2 hjn => by
      unfold weightAt
      rw [hsame j h2 hjn, heapReroot_weight]
    have hdown : DownOrdered (weightAt (heapReroot (heapCut m t p) t r) e₂) n 1 :=
      ⟨fun j h2 hjn hj1 => by
        rw [hwt _ (by omega) (by omega), hwt j h2 hjn]
        exact he.ordered j h2 (by omega), fun h21 => by omega⟩
    have hbound : ∀ j a, e₂ j = some a →
        (heapReroot (heapCut m t p) t r).weight a ≤ 2 ^ w - 1 := fun j a hj => by
      obtain ⟨k, hk⟩ := (hs a).mp ((hmem a).mpr ⟨j, hj⟩).1
      rw [heapReroot_weight]
      exact he.bound k a hk
    obtain ⟨m', e', hrun, hperc⟩ := heapPercolateDown_spec htree₂ hroot hdown hbound
      (show n < 1 + (n + 1) by omega)
    refine ⟨r, m', ⟨e' 1, n⟩, ?_, hhead, hrs, hmin, ⟨e', ⟨hperc.tree, rfl, hperc.ordered, ?_⟩, ?_⟩,
      ?_, ?_, ?_⟩
    · rw [he.pop_eq hn (by omega) ht hp hr, ← hroot, hrun]
      rfl
    · intro j a hj
      obtain ⟨k, hk⟩ := (hperc.mem a).mp ⟨j, hj⟩
      rw [hperc.weight]
      exact hbound k a hk
    · intro a
      rw [hperc.mem, hmem]
    · rw [hperc.weight, heapReroot_weight]
    · exact hn.symm
    · intro x hx
      have hxe : ∀ k, e k ≠ some x := fun k hk => hx ((hs x).mpr ⟨k, hk⟩)
      refine (htree.reroot_frame ht hp hr hxe).trans (hperc.frame x fun k hk => ?_)
      exact hx ((hmem x).mpr ⟨k, hk⟩).1

end KernelPanic
