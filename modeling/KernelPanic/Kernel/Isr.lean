import Mathlib.Data.List.Basic
import Mathlib.Logic.Function.Basic

/-!
# KernelPanic.Kernel.Isr

Interrupt levels and how `kernel/isr.c` chooses the mask.  `IsrDisabledCount`
has a counter for each level; the hardware only knows one mask, and everything
up to it is held back.  `IsrDefer` sets the mask to the highest level whose
counter is positive, the level that is being disabled included.

`Masks mask held` says that a mask is the right one for the levels `held`;
`isrDefer_disable` and `isrDefer_enable` say that `IsrDefer` finds it.
-/

namespace KernelPanic

/-- `enum IRQ_LEVEL`. -/
inductive IrqLevel where
  | none
  | crit
  | soft
  | serialWrite
  | serialRead
  | timer
  | watchdog
  | reset
deriving DecidableEq

namespace IrqLevel

/-- `IRQ_LEVEL_MAX`, the highest level of an interrupt that runs kernel code. -/
def max : IrqLevel := .timer

/-- The number of the level. -/
def toNat : IrqLevel → ℕ
  | .none => 0
  | .crit => 1
  | .soft => 2
  | .serialWrite => 3
  | .serialRead => 4
  | .timer => 5
  | .watchdog => 6
  | .reset => 7

/-- Different levels have different numbers. -/
theorem toNat_injective : Function.Injective toNat := by
  intro a b h
  cases a <;> cases b <;> first | rfl | cases h

instance : LE IrqLevel := ⟨fun a b => a.toNat ≤ b.toNat⟩

instance : LT IrqLevel := ⟨fun a b => a.toNat < b.toNat⟩

instance (a b : IrqLevel) : Decidable (a ≤ b) := inferInstanceAs (Decidable (a.toNat ≤ b.toNat))

instance (a b : IrqLevel) : Decidable (a < b) := inferInstanceAs (Decidable (a.toNat < b.toNat))

/-- The order is that of the numbers. -/
theorem le_def {a b : IrqLevel} : a ≤ b ↔ a.toNat ≤ b.toNat := Iff.rfl

theorem lt_def {a b : IrqLevel} : a < b ↔ a.toNat < b.toNat := Iff.rfl

/-- The levels an interrupt can have, the highest first. -/
def levels : List IrqLevel := [.reset, .watchdog, .timer, .serialRead, .serialWrite, .soft, .crit]

/-- Every level but none can be disabled. -/
theorem mem_levels {l : IrqLevel} : l ∈ levels ↔ l ≠ .none := by
  cases l <;> decide

/-- The search is from the highest level down. -/
theorem levels_pairwise : levels.Pairwise (fun a b => b < a) := by decide

end IrqLevel

open IrqLevel

variable {l level mask : IrqLevel} {count held held' : IrqLevel → ℕ}

/-- `IsrCheckLevel`, without setting the mask. -/
def isrCheckLevel (count : IrqLevel → ℕ) (changingLevel candidateLevel : IrqLevel) (enable : Bool) :
    Bool :=
  0 < count candidateLevel || (candidateLevel = changingLevel && !enable)

/-- `IsrDefer`: the mask it sets. -/
def isrDefer (count : IrqLevel → ℕ) (level : IrqLevel) (enable : Bool) : IrqLevel :=
  (levels.find? fun candidate => isrCheckLevel count level candidate enable).getD .none

/-- The mask is the highest of the levels held, or none when none is. -/
structure Masks (mask : IrqLevel) (held : IrqLevel → ℕ) : Prop where
  above : ∀ l, 0 < held l → l ≤ mask
  attained : mask = .none ∨ 0 < held mask

/-- One more of a level. -/
def raised (held : IrqLevel → ℕ) (l : IrqLevel) : IrqLevel → ℕ :=
  Function.update held l (held l + 1)

/-- The level is disabled once more. -/
theorem raised_self : raised held l l = held l + 1 := Function.update_self ..

/-- The other levels are as before. -/
theorem raised_of_ne {m : IrqLevel} (hm : m ≠ l) : raised held l m = held m :=
  Function.update_of_ne hm ..

/-- What is disabled now was, or is the level. -/
theorem raised_pos {m : IrqLevel} : 0 < raised held l m ↔ 0 < held m ∨ m = l := by
  by_cases hm : m = l
  · subst hm
    simp [raised_self]
  · simp [raised_of_ne hm, hm]

/-- The mask depends only on which levels are disabled. -/
theorem Masks.congr (h : Masks mask held) (hpos : ∀ l, 0 < held' l ↔ 0 < held l) :
    Masks mask held' :=
  ⟨fun l hl => h.above l ((hpos l).mp hl), h.attained.imp_right (hpos mask).mpr⟩

/-- The first level found is the highest. -/
theorem find_masks {p : IrqLevel → Bool} (hp : ∀ l, 0 < held l ↔ p l = true)
    (hnone : held .none = 0) : Masks ((levels.find? p).getD .none) held := by
  cases hfind : levels.find? p with
  | none =>
      refine ⟨fun l hl => ?_, .inl rfl⟩
      have hl' : l ∈ levels := mem_levels.mpr fun heq => by
        rw [heq, hnone] at hl
        exact absurd hl (Nat.lt_irrefl 0)
      exact absurd ((hp l).mp hl) (List.find?_eq_none.mp hfind l hl')
  | some a =>
      obtain ⟨ha, as, bs, hsplit, has⟩ := List.find?_eq_some_iff_append.mp hfind
      refine ⟨fun l hl => ?_, .inr ((hp a).mpr ha)⟩
      have hl' : l ∈ levels := mem_levels.mpr fun heq => by
        rw [heq, hnone] at hl
        exact absurd hl (Nat.lt_irrefl 0)
      have hsorted := levels_pairwise
      rw [hsplit] at hl' hsorted
      obtain hl' | hl' := List.mem_append.mp hl'
      · have hnot := has l hl'
        rw [(hp l).mp hl] at hnot
        cases hnot
      · obtain rfl | hl' := List.mem_cons.mp hl'
        · exact Nat.le_refl _
        · have hlt := (List.pairwise_cons.mp (List.pairwise_append.mp hsorted).2.1).1 l hl'
          exact Nat.le_of_lt (lt_def.mp hlt)

/-- **`IsrDefer`** in `IsrDisable`. -/
theorem isrDefer_disable (hl : l ≠ .none) (hnone : count .none = 0) :
    Masks (isrDefer count l false) (raised count l) :=
  find_masks (fun m => by simp [raised_pos, isrCheckLevel]) (by
    rw [raised_of_ne hl.symm]
    exact hnone)

/-- **`IsrDefer`** in `IsrEnable`. -/
theorem isrDefer_enable (hnone : count .none = 0) : Masks (isrDefer count l true) count :=
  find_masks (fun m => by simp [isrCheckLevel]) hnone

/-- With the lowest mask nothing is held. -/
theorem held_eq_zero (h : ∀ l, 0 < held l → l ≤ .none) (hnone : held .none = 0) (l : IrqLevel) :
    held l = 0 := by
  by_contra hne
  have hle := le_def.mp (h l (Nat.pos_of_ne_zero hne))
  have hl : l = .none := toNat_injective (Nat.le_zero.mp hle)
  exact hne (hl ▸ hnone)

end KernelPanic
