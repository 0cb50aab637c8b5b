import Mathlib.Algebra.BigOperators.Group.List.Basic
import Mathlib.Algebra.Order.BigOperators.Group.List
import Mathlib.Algebra.Order.Group.Nat
import Mathlib.Algebra.Ring.Nat
import Mathlib.Data.List.Nodup
import Mathlib.Data.List.Perm.Subperm

/-!
# KernelPanic.Lib.Tiling

Blocks that lie back to back in an interval of addresses.  `Tiles start size lo
as hi` says that the blocks `as`, in this order, fill `[lo, hi)` without gaps and
without overlap; where a block starts and how long it is are functions of it, so
that one list of blocks can be laid out in two places.

Nothing here says what a block is.
-/

namespace Tiling

variable {α β : Type*}

/-- The blocks `as`, in this order, fill `[lo, hi)`. -/
def Tiles (start size : α → ℕ) : ℕ → List α → ℕ → Prop
  | lo, [], hi => lo = hi
  | lo, a :: as, hi => start a = lo ∧ Tiles start size (lo + size a) as hi

variable {start size start' size' : α → ℕ} {lo mid hi hi' : ℕ} {as bs : List α} {a b : α}

theorem Tiles.append (h : Tiles start size lo as mid) (h' : Tiles start size mid bs hi) :
    Tiles start size lo (as ++ bs) hi := by
  induction as generalizing lo with
  | nil => exact (h : lo = mid) ▸ h'
  | cons a as ih => exact ⟨h.1, ih h.2⟩

/-- A layout of two lists is one after the other. -/
theorem Tiles.split (h : Tiles start size lo (as ++ bs) hi) :
    ∃ mid, Tiles start size lo as mid ∧ Tiles start size mid bs hi := by
  induction as generalizing lo with
  | nil => exact ⟨lo, rfl, h⟩
  | cons a as ih =>
      obtain ⟨mid, has, hbs⟩ := ih h.2
      exact ⟨mid, ⟨h.1, has⟩, hbs⟩

/-- The blocks fill exactly what their sizes add up to. -/
theorem Tiles.end_eq (h : Tiles start size lo as hi) : hi = lo + (as.map size).sum := by
  induction as generalizing lo with
  | nil => simpa using (h : lo = hi).symm
  | cons a as ih =>
      rw [ih h.2, List.map_cons, List.sum_cons]
      omega

theorem Tiles.le (h : Tiles start size lo as hi) : lo ≤ hi := by
  rw [h.end_eq]
  exact Nat.le_add_right ..

/-- Every block lies inside the interval. -/
theorem Tiles.bounds (h : Tiles start size lo as hi) (ha : a ∈ as) :
    lo ≤ start a ∧ start a + size a ≤ hi := by
  induction as generalizing lo with
  | nil => cases ha
  | cons b as ih =>
      have hb : start b = lo := h.1
      have hle := h.2.le
      rcases List.mem_cons.mp ha with rfl | ha
      · omega
      · have := ih h.2 ha
        omega

/-- Two blocks do not overlap. -/
theorem Tiles.disjoint (h : Tiles start size lo as hi) (ha : a ∈ as) (hb : b ∈ as)
    (hne : a ≠ b) : start a + size a ≤ start b ∨ start b + size b ≤ start a := by
  induction as generalizing lo with
  | nil => cases ha
  | cons c as ih =>
      have hc : start c = lo := h.1
      rcases List.mem_cons.mp ha with rfl | ha' <;> rcases List.mem_cons.mp hb with rfl | hb'
      · exact absurd rfl hne
      · have := h.2.bounds hb'
        omega
      · have := h.2.bounds ha'
        omega
      · exact ih h.2 ha' hb'

/-- Blocks that are not empty start at different places. -/
theorem Tiles.start_injective (h : Tiles start size lo as hi) (hpos : ∀ a ∈ as, 0 < size a)
    (ha : a ∈ as) (hb : b ∈ as) (heq : start a = start b) : a = b := by
  by_contra hne
  have ha' := hpos a ha
  have hb' := hpos b hb
  rcases h.disjoint ha hb hne with h | h <;> omega

/-- No block that is not empty is laid out twice. -/
theorem Tiles.nodup (h : Tiles start size lo as hi) (hpos : ∀ a ∈ as, 0 < size a) : as.Nodup := by
  induction as generalizing lo with
  | nil => exact List.nodup_nil
  | cons a as ih =>
      have ha : start a = lo := h.1
      have hsize := hpos a List.mem_cons_self
      refine List.nodup_cons.mpr ⟨fun hmem => ?_, ih h.2 fun b hb => hpos b (List.mem_cons_of_mem a hb)⟩
      have := h.2.bounds hmem
      omega

/-- The layout depends on the blocks in the list only. -/
theorem Tiles.congr (h : Tiles start size lo as hi) (hstart : ∀ a ∈ as, start' a = start a)
    (hsize : ∀ a ∈ as, size' a = size a) : Tiles start' size' lo as hi := by
  induction as generalizing lo with
  | nil => exact h
  | cons a as ih =>
      have hs := hsize a List.mem_cons_self
      refine ⟨(hstart a List.mem_cons_self).trans h.1, ?_⟩
      rw [hs]
      exact ih h.2 (fun b hb => hstart b (List.mem_cons_of_mem a hb))
        (fun b hb => hsize b (List.mem_cons_of_mem a hb))

theorem tiles_map {start size : β → ℕ} {f : α → β} :
    Tiles start size lo (as.map f) hi ↔ Tiles (start ∘ f) (size ∘ f) lo as hi := by
  induction as generalizing lo with
  | nil => rfl
  | cons a as ih => exact and_congr_right fun _ => ih

/-- Some of the blocks, in any order, need no more room than all of them. -/
theorem Tiles.end_le (h : Tiles start size lo as hi) {lo' : ℕ}
    (h' : Tiles start' size lo' bs hi') (hnodup : bs.Nodup) (hsub : bs ⊆ as) :
    hi' - lo' ≤ hi - lo := by
  have hle : (bs.map size).sum ≤ (as.map size).sum := by
    obtain ⟨cs, hperm, hsublist⟩ := hnodup.subperm hsub
    rw [← (hperm.map size).sum_eq]
    exact (hsublist.map size).sum_le_sum fun _ _ => Nat.zero_le _
  rw [h.end_eq, h'.end_eq]
  omega

/-- There are no more blocks than bytes, when none is empty. -/
theorem Tiles.length_le (h : Tiles start size lo as hi) (hpos : ∀ a ∈ as, 0 < size a) :
    lo + as.length ≤ hi := by
  induction as generalizing lo with
  | nil => exact (h : lo = hi).le
  | cons a as ih =>
      have ha := hpos a List.mem_cons_self
      have := ih h.2 fun b hb => hpos b (List.mem_cons_of_mem a hb)
      rw [List.length_cons]
      omega

end Tiling
