import Mathlib.Order.Lattice
import Mathlib.Tactic.Common

/-!
# KernelPanic.Lib.HeapOrder

Heap order on a complete binary tree.  The nodes are numbered from 1, row by
row, so node `i` has the children `2 * i` and `2 * i + 1` and the parent
`i / 2`; a tree of `n` nodes is a function on the numbers `1 … n`.

A heap is repaired by exchanging a node with its parent (`promote`), upwards
after an insertion and downwards after a removal.  `UpOrdered f n i` and
`DownOrdered f n i` say that only node `i` is out of place; each is kept by the
exchange its direction makes, and gives `Ordered` when the repair stops.

Nothing here names a particular heap.
-/

namespace HeapOrder

variable {α β : Type*}

/-- Exchange node `i` with its parent. -/
def promote (f : ℕ → β) (i : ℕ) : ℕ → β := fun k =>
  if k = i then f (i / 2) else if k = i / 2 then f i else f k

@[simp] theorem promote_self (f : ℕ → β) (i : ℕ) : promote f i i = f (i / 2) := by simp [promote]

theorem promote_parent (f : ℕ → β) {i : ℕ} (hi : 2 ≤ i) : promote f i (i / 2) = f i := by
  have hne : i / 2 ≠ i := by omega
  simp [promote, hne]

theorem promote_of_ne (f : ℕ → β) {i k : ℕ} (hi : k ≠ i) (hp : k ≠ i / 2) :
    promote f i k = f k := by
  simp [promote, hi, hp]

/-- The exchange only moves nodes. -/
theorem exists_promote_iff (f : ℕ → β) (i : ℕ) (b : β) :
    (∃ k, promote f i k = b) ↔ ∃ k, f k = b := by
  constructor
  · rintro ⟨k, hk⟩
    unfold promote at hk
    split at hk
    · exact ⟨_, hk⟩
    · split at hk <;> exact ⟨_, hk⟩
  · rintro ⟨k, rfl⟩
    by_cases hi : k = i
    · subst hi
      by_cases hp : k / 2 = k
      · exact ⟨k, by rw [promote_self, hp]⟩
      · exact ⟨k / 2, by simp [promote, hp]⟩
    · by_cases hp : k = i / 2
      · exact ⟨i, by rw [promote_self, hp]⟩
      · exact ⟨k, promote_of_ne f hi hp⟩

section Order

variable [LinearOrder α] {f : ℕ → α} {n i k : ℕ}

/-- No node is smaller than its parent. -/
def Ordered (f : ℕ → α) (n : ℕ) : Prop := ∀ k, 2 ≤ k → k ≤ n → f (k / 2) ≤ f k

/-- Ordered, but for node `i` and its parent. -/
structure UpOrdered (f : ℕ → α) (n i : ℕ) : Prop where
  off : ∀ k, 2 ≤ k → k ≤ n → k ≠ i → f (k / 2) ≤ f k
  grand : 2 ≤ i → ∀ k, k ≤ n → k / 2 = i → f (i / 2) ≤ f k

/-- Ordered, but for node `i` and its children. -/
structure DownOrdered (f : ℕ → α) (n i : ℕ) : Prop where
  off : ∀ k, 2 ≤ k → k ≤ n → k / 2 ≠ i → f (k / 2) ≤ f k
  grand : 2 ≤ i → ∀ k, k ≤ n → k / 2 = i → f (i / 2) ≤ f k

/-- The root is a smallest node. -/
theorem Ordered.root_le (h : Ordered f n) (hk : 1 ≤ k) (hn : k ≤ n) : f 1 ≤ f k := by
  induction k using Nat.strongRecOn with
  | ind k ih =>
      by_cases h1 : k = 1
      · rw [h1]
      · exact (ih (k / 2) (by omega) (by omega) (by omega)).trans (h k (by omega) hn)

theorem UpOrdered.promote (h : UpOrdered f n i) (hi : 2 ≤ i) (hin : i ≤ n)
    (hlt : f i < f (i / 2)) : UpOrdered (promote f i) n (i / 2) where
  off k hk hkn hki := by
    by_cases hkeq : k = i
    · subst hkeq
      rw [promote_self, promote_parent f hi]
      exact hlt.le
    · by_cases hpar : k / 2 = i
      · rw [hpar, promote_self, promote_of_ne f hkeq hki]
        exact h.grand hi k hkn hpar
      · by_cases hsib : k / 2 = i / 2
        · rw [hsib, promote_parent f hi, promote_of_ne f hkeq hki]
          exact hlt.le.trans (hsib ▸ h.off k hk hkn hkeq)
        · rw [promote_of_ne f hpar hsib, promote_of_ne f hkeq hki]
          exact h.off k hk hkn hkeq
  grand hp k hkn hpar := by
    have hgrand : f (i / 2 / 2) ≤ f (i / 2) := h.off (i / 2) hp (by omega) (by omega)
    rw [promote_of_ne f (by omega) (by omega)]
    by_cases hkeq : k = i
    · rw [hkeq, promote_self]
      exact hgrand
    · rw [promote_of_ne f hkeq (by omega)]
      exact hgrand.trans (hpar ▸ h.off k (by omega) hkn hkeq)

/-- Where a repair upwards stops, the tree is ordered. -/
theorem UpOrdered.ordered (h : UpOrdered f n i) (hstop : 2 ≤ i → f (i / 2) ≤ f i) :
    Ordered f n := by
  intro k hk hkn
  by_cases hki : k = i
  · exact hki ▸ hstop (hki ▸ hk)
  · exact h.off k hk hkn hki

theorem DownOrdered.promote (h : DownOrdered f n (i / 2)) (hi : 2 ≤ i) (hin : i ≤ n)
    (hlt : f i < f (i / 2)) (hmin : ∀ k, k ≤ n → k / 2 = i / 2 → f i ≤ f k) :
    DownOrdered (promote f i) n i where
  off k hk hkn hpar := by
    by_cases hkeq : k = i
    · subst hkeq
      rw [promote_self, promote_parent f hi]
      exact hlt.le
    · by_cases hsib : k / 2 = i / 2
      · rw [hsib, promote_parent f hi, promote_of_ne f hkeq (by omega)]
        exact hmin k hkn hsib
      · rw [promote_of_ne f hpar hsib]
        by_cases hkp : k = i / 2
        · rw [hkp, promote_parent f hi]
          exact h.grand (hkp ▸ hk) i hin rfl
        · rw [promote_of_ne f hkeq hkp]
          exact h.off k hk hkn hsib
  grand _ k hkn hpar := by
    rw [promote_parent f hi, promote_of_ne f (by omega) (by omega)]
    have hchild := h.off k (by omega) hkn (by omega)
    rwa [hpar] at hchild

/-- Where a repair downwards stops, the tree is ordered. -/
theorem DownOrdered.ordered (h : DownOrdered f n i)
    (hstop : ∀ k, 2 ≤ k → k ≤ n → k / 2 = i → f i ≤ f k) : Ordered f n := by
  intro k hk hkn
  by_cases hki : k / 2 = i
  · exact hki ▸ hstop k hk hkn hki
  · exact h.off k hk hkn hki

end Order

end HeapOrder
