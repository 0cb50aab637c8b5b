import KernelPanic.Kernel.Isr
import KernelPanic.Lib.Run

/-!
# KernelPanic.Kernel.Isr.Nesting

`IsrDisable` and `IsrEnable` as calls, in any order and at any levels, with
interrupts entering and leaving through `IsrHandlerWrapper` between them.

The mask is written on the edges of a counter only, so `IsrInv` has to say that
it is right in between as well: what `Masks` asks for only depends on which
counters are positive, and between two edges that does not change.
-/

namespace KernelPanic

open Run

/-- The variables of `kernel/isr.c`, and what the hardware has been told. -/
structure IsrUnit where
  isrDisabledCount : IrqLevel → ℕ
  /-- The level last passed to `HalSetIrq`. -/
  irq : Option IrqLevel
  /-- The levels of the interrupts that have not returned, the newest first. -/
  entered : List IrqLevel
  /-- An `ASSERT` has failed. -/
  failed : Bool

namespace IsrUnit

/-- `IsrStartup`. -/
def isrStartup : IsrUnit := ⟨fun _ => 0, none, [], false⟩

/-- The mask: before the first `HalSetIrq` nothing is masked. -/
def mask (s : IsrUnit) : IrqLevel := s.irq.getD .none

/-- `HalSetIrq`. -/
def halSetIrq (s : IsrUnit) (level : IrqLevel) : IsrUnit := { s with irq := some level }

/-- `ASSERT(b)`. -/
def assert (s : IsrUnit) (b : Bool) : IsrUnit := { s with failed := s.failed || !b }

/-- `IsrDisable`. -/
def isrDisable (s : IsrUnit) (level : IrqLevel) : IsrUnit :=
  let s := if s.isrDisabledCount level = 0 then
    s.halSetIrq (isrDefer s.isrDisabledCount level false) else s
  { s with isrDisabledCount := raised s.isrDisabledCount level }

/-- `IsrEnable`. -/
def isrEnable (s : IsrUnit) (level : IrqLevel) : IsrUnit :=
  let s := (s.assert (level ≤ s.mask)).assert (0 < s.isrDisabledCount level)
  let s := { s with
    isrDisabledCount := Function.update s.isrDisabledCount level (s.isrDisabledCount level - 1) }
  if s.isrDisabledCount level = 0 then
    s.halSetIrq (isrDefer s.isrDisabledCount level true) else s

end IsrUnit

inductive IsrEvent where
  /-- `IsrDisable(level)`. -/
  | disable (level : IrqLevel)
  /-- `IsrEnable(level)`. -/
  | enable (level : IrqLevel)
  /-- An interrupt arrives: `IsrHandlerWrapper`, up to the handler. -/
  | interrupt (level : IrqLevel)
  /-- The handler of the newest interrupt has returned: the rest of
  `IsrHandlerWrapper`. -/
  | leave
deriving DecidableEq

namespace IsrUnit

/-- One event; `none` when it cannot happen.  Interrupts arrive above the mask,
and a level is only enabled while its count is positive. -/
def step (s : IsrUnit) : IsrEvent → Option IsrUnit
  | .disable level => if level ≠ .none then some (s.isrDisable level) else none
  | .enable level => if 0 < s.isrDisabledCount level then some (s.isrEnable level) else none
  | .interrupt level =>
      if s.mask < level then some ({ s with entered := level :: s.entered }.isrDisable level)
      else none
  | .leave =>
      match s.entered with
      | [] => none
      | level :: rest =>
          if 0 < s.isrDisabledCount level then some ({ s with entered := rest }.isrEnable level)
          else none

end IsrUnit

open IsrUnit

/-- The mask is right for the counts. -/
structure IsrInv (s : IsrUnit) : Prop where
  masks : Masks s.mask s.isrDisabledCount
  /-- Nothing is disabled before the first `HalSetIrq`. -/
  unset : s.irq = none → ∀ l, s.isrDisabledCount l = 0
  bottom : s.isrDisabledCount .none = 0
  fine : s.failed = false

/-- A call of `IsrDisable` never lowers the mask, and after one of `IsrEnable` it
is the highest level still disabled. -/
def MaskMoves (s : IsrUnit) : IsrEvent → Prop
  | .disable level => ∀ s', s.step (.disable level) = some s' → s.mask ≤ s'.mask
  | .enable level => ∀ s', s.step (.enable level) = some s' →
      Masks s'.mask (Function.update s.isrDisabledCount level (s.isrDisabledCount level - 1))
  | _ => True

/-! ## one call -/

variable {s s' : IsrUnit} {level : IrqLevel} {e : IsrEvent}

/-- Two masks for counts that grow are in order. -/
theorem Masks.mono {m m' : IrqLevel} {c c' : IrqLevel → ℕ} (h : Masks m c) (h' : Masks m' c')
    (hle : ∀ l, 0 < c l → 0 < c' l) : m ≤ m' := by
  obtain heq | hpos := h.attained
  · rw [heq]
    exact Nat.zero_le _
  · exact h'.above m (hle m hpos)

theorem isrStartup_inv : IsrInv isrStartup where
  masks := ⟨fun _ hl => absurd hl (Nat.lt_irrefl 0), .inl rfl⟩
  unset _ _ := rfl
  bottom := rfl
  fine := rfl

theorem IsrInv.isSome (h : IsrInv s) (hpos : 0 < s.isrDisabledCount level) :
    s.irq.isSome = true := by
  cases hirq : s.irq with
  | none =>
      rw [h.unset hirq level] at hpos
      exact absurd hpos (Nat.lt_irrefl 0)
  | some mask => rfl

/-- The same levels stay disabled, so the mask stays right. -/
theorem IsrInv.same (h : IsrInv s) {count : IrqLevel → ℕ} (hlevel : 0 < s.isrDisabledCount level)
    (hpos : ∀ l, 0 < count l ↔ 0 < s.isrDisabledCount l) :
    IsrInv { s with isrDisabledCount := count } where
  masks := h.masks.congr hpos
  unset hirq := absurd (h.isSome hlevel) (by simp_all)
  bottom := by
    have hbottom := (hpos .none).not.mpr (h.bottom ▸ Nat.lt_irrefl 0)
    exact Nat.eq_zero_of_not_pos hbottom
  fine := h.fine

/-- **`IsrDisable`**: on the rising edge the mask becomes that of the counts with
the new level, and off it the same levels stay disabled. -/
theorem IsrInv.isrDisable (h : IsrInv s) (hl : level ≠ .none) :
    IsrInv (s.isrDisable level) ∧ (s.isrDisable level).irq.isSome = true ∧
      (s.isrDisable level).isrDisabledCount = raised s.isrDisabledCount level := by
  by_cases h0 : s.isrDisabledCount level = 0
  · have hmasks := isrDefer_disable hl h.bottom
    have hbottom : raised s.isrDisabledCount level .none = 0 := by
      rw [raised_of_ne hl.symm]
      exact h.bottom
    simp only [IsrUnit.isrDisable, h0, ↓reduceIte]
    exact ⟨⟨hmasks, fun hirq => (Option.some_ne_none _ hirq).elim, hbottom, h.fine⟩, rfl, rfl⟩
  · have hlevel : 0 < s.isrDisabledCount level := Nat.pos_of_ne_zero h0
    have hpos : ∀ l, 0 < raised s.isrDisabledCount level l ↔ 0 < s.isrDisabledCount l := by
      intro l
      rw [raised_pos]
      constructor
      · rintro (hl | rfl)
        · exact hl
        · exact hlevel
      · exact .inl
    simp only [IsrUnit.isrDisable, h0, ↓reduceIte]
    exact ⟨h.same hlevel hpos, h.isSome hlevel, trivial⟩

/-- **`IsrEnable`**: on the falling edge the mask becomes that of the levels that
remain, and off it the same levels stay disabled. -/
theorem IsrInv.isrEnable (h : IsrInv s) (hlevel : 0 < s.isrDisabledCount level) :
    IsrInv (s.isrEnable level) ∧ (s.isrEnable level).irq.isSome = true ∧
      (s.isrEnable level).isrDisabledCount =
        Function.update s.isrDisabledCount level (s.isrDisabledCount level - 1) := by
  -- neither assertion fails: the count is positive, so the mask covers the level
  have hassert : (s.assert (level ≤ s.mask)).assert (0 < s.isrDisabledCount level) = s := by
    simp [assert, hlevel, h.masks.above level hlevel]
  unfold IsrUnit.isrEnable
  rw [hassert]
  by_cases h1 : s.isrDisabledCount level - 1 = 0
  · have hbottom : Function.update s.isrDisabledCount level 0 .none = 0 := by
      by_cases hl : level = .none
      · rw [hl, Function.update_self]
      · rw [Function.update_of_ne (Ne.symm hl)]
        exact h.bottom
    simp only [Function.update_self, h1, ↓reduceIte]
    exact ⟨⟨isrDefer_enable hbottom, fun hirq => (Option.some_ne_none _ hirq).elim, hbottom,
      h.fine⟩, rfl, rfl⟩
  · have hpos : ∀ l, 0 < Function.update s.isrDisabledCount level
        (s.isrDisabledCount level - 1) l ↔ 0 < s.isrDisabledCount l := by
      intro l
      by_cases hl : l = level
      · rw [hl, Function.update_self]
        omega
      · rw [Function.update_of_ne hl]
    simp only [Function.update_self, h1, ↓reduceIte]
    exact ⟨h.same hlevel hpos, h.isSome hlevel, trivial⟩

/-! ## every sequence -/

theorem ne_none_of_lt {m : IrqLevel} (hlt : m < level) : level ≠ .none := by
  rintro rfl
  exact absurd hlt (Nat.not_lt_zero _)

/-- Every event ends a call, after which the mask has been set. -/
theorem IsrInv.step (h : IsrInv s) (hs : s.step e = some s') : IsrInv s' ∧ s'.irq.isSome = true := by
  have hentered : ∀ entered, IsrInv { s with entered := entered } :=
    fun _ => ⟨h.masks, h.unset, h.bottom, h.fine⟩
  cases e with
  | disable level =>
      obtain ⟨hl, heq⟩ := Option.ite_none_right_eq_some.mp hs
      cases heq
      exact ⟨(h.isrDisable hl).1, (h.isrDisable hl).2.1⟩
  | enable level =>
      obtain ⟨hpos, heq⟩ := Option.ite_none_right_eq_some.mp hs
      cases heq
      exact ⟨(h.isrEnable hpos).1, (h.isrEnable hpos).2.1⟩
  | interrupt level =>
      obtain ⟨hlt, heq⟩ := Option.ite_none_right_eq_some.mp hs
      cases heq
      obtain ⟨hinv, hsome, -⟩ := (hentered (level :: s.entered)).isrDisable (ne_none_of_lt hlt)
      exact ⟨hinv, hsome⟩
  | leave =>
      cases hstack : s.entered with
      | nil => simp [IsrUnit.step, hstack] at hs
      | cons level rest =>
          simp only [IsrUnit.step, hstack] at hs
          obtain ⟨hpos, heq⟩ := Option.ite_none_right_eq_some.mp hs
          cases heq
          obtain ⟨hinv, hsome, -⟩ := (hentered rest).isrEnable hpos
          exact ⟨hinv, hsome⟩

theorem IsrInv.moves (h : IsrInv s) (e : IsrEvent) : MaskMoves s e := by
  cases e with
  | disable level =>
      intro s' hs
      obtain ⟨hl, heq⟩ := Option.ite_none_right_eq_some.mp hs
      cases heq
      obtain ⟨hinv, -, hcount⟩ := h.isrDisable hl
      have hmasks := hinv.masks
      rw [hcount] at hmasks
      exact h.masks.mono hmasks fun l hl => raised_pos.mpr (.inl hl)
  | enable level =>
      intro s' hs
      obtain ⟨hpos, heq⟩ := Option.ite_none_right_eq_some.mp hs
      cases heq
      obtain ⟨hinv, -, hcount⟩ := h.isrEnable hpos
      exact hcount ▸ hinv.masks
  | _ => trivial

/-- **The mask follows the counts.**  After any calls of `IsrDisable` and
`IsrEnable` at whatever levels, those of interrupts among them, the level last
passed to `HalSetIrq` is the highest whose count is positive, or none; no call of
`IsrDisable` lowers it, and no assertion has failed. -/
theorem mask_follows_counts (es : List IsrEvent) (s : IsrUnit)
    (hrun : exec IsrUnit.step isrStartup es = some s) :
    (es ≠ [] → ∃ mask, s.irq = some mask ∧ Masks mask s.isrDisabledCount) ∧
      Along IsrUnit.step MaskMoves isrStartup es ∧ s.failed = false := by
  have hstep : ∀ s e s', IsrInv s → s.step e = some s' → IsrInv s' := fun _ _ _ h hs => (h.step hs).1
  refine ⟨fun hne => ?_, along_of_invariant hstep (fun _ e h => h.moves e) isrStartup_inv,
    (exec_invariant hstep isrStartup_inv hrun).fine⟩
  cases es with
  | nil => exact absurd rfl hne
  | cons e es =>
      obtain ⟨t, ht, hrest⟩ := exec_cons_eq_some.mp hrun
      obtain ⟨hinv, hsome⟩ : IsrInv s ∧ s.irq.isSome = true :=
        exec_invariant (I := fun s => IsrInv s ∧ s.irq.isSome = true)
          (fun _ _ _ h hs => h.1.step hs) (isrStartup_inv.step ht) hrest
      obtain ⟨mask, hmask⟩ := Option.isSome_iff_exists.mp hsome
      have hmasks := hinv.masks
      rw [IsrUnit.mask, hmask] at hmasks
      exact ⟨mask, hmask, hmasks⟩

/-- Two levels are disabled and enabled in the same order, and a timer interrupt
comes in between. -/
def crossedLevels : List IsrEvent :=
  [.disable .soft, .disable .serialRead, .interrupt .timer, .leave, .enable .serialRead,
    .enable .soft]

theorem mask_follows_counts_sample :
    ∃ s, exec IsrUnit.step isrStartup crossedLevels = some s ∧ s.irq = some .none ∧
      s.failed = false ∧ ∀ l, 0 < s.isrDisabledCount l → l ≤ .none := by
  have hend : (exec IsrUnit.step isrStartup crossedLevels).map (·.irq) = some (some .none) := by
    decide
  obtain ⟨s, hs, hirq⟩ := Option.map_eq_some_iff.mp hend
  obtain ⟨hmask, -, hfine⟩ := mask_follows_counts _ _ hs
  obtain ⟨mask, hset, hmasks⟩ := hmask (List.cons_ne_nil _ _)
  rw [hirq, Option.some.injEq] at hset
  exact ⟨s, hs, hirq, hfine, hset ▸ hmasks.above⟩

end KernelPanic
