import KernelPanic.Utils.Bitmap
import Mathlib.Algebra.Order.Floor.Ring
import Mathlib.Data.Rat.Floor
import Mathlib.Tactic.Linarith
import Mathlib.Tactic.FieldSimp

/-!
# KernelPanic.Utils.Bham

The pacing of Bresenham's line (`utils/bham.c`): out of every `X` ticks, `Y`
signal.

`Error` is an `int` that is added to in the 64 bits of a `COUNT` and stored back.
`Paced` is what holds after `n` ticks with `k` signals, over the integers; that
the stores lose nothing (`ExactTick`) follows from it, and so does where the
signals are.
-/

namespace KernelPanic

/-- `struct BHAM`. -/
structure Bham where
  X : Count
  Y : Count
  /-- An `int`. -/
  error : BitVec 32
deriving DecidableEq

/-- An `int` as an operand beside a `COUNT`. -/
def intToCount (v : BitVec 32) : Count := ⟨v.signExtend 64⟩

/-- A `COUNT` stored into an `int`. -/
def countToInt (c : Count) : BitVec 32 := c.toBitVec.setWidth 32

/-- `BHamInit`; `none` is its `ASSERT`. -/
def bhamInit (x y : Count) : Option Bham :=
  if x ≥ y then some { X := x, Y := y, error := countToInt (-x) } else none

/-- `bham->Error + bham->Y`. -/
def Bham.sum (bham : Bham) : Count := intToCount bham.error + bham.Y

/-- `Error` when it is looked at. -/
def Bham.stepUp (bham : Bham) : BitVec 32 := countToInt bham.sum

/-- `bham->Error - bham->X`, then. -/
def Bham.difference (bham : Bham) : Count := intToCount bham.stepUp - bham.X

/-- `Error` after a signal. -/
def Bham.stepBack (bham : Bham) : BitVec 32 := countToInt bham.difference

/-- `BHamTick`. -/
def bhamTick (bham : Bham) : Bool × Bham :=
  if 0 < bham.stepUp.toInt then (true, { bham with error := bham.stepBack })
  else (false, { bham with error := bham.stepUp })

/-! ## runs -/

/-- The accumulator after `n` ticks. -/
def bhamAfter (bham : Bham) : ℕ → Bham
  | 0 => bham
  | n + 1 => (bhamTick (bhamAfter bham n)).2

/-- The result of the tick after `n` others. -/
def bhamSignal (bham : Bham) (n : ℕ) : Bool := (bhamTick (bhamAfter bham n)).1

/-- The number of true results in the window of `m` ticks after `n` others. -/
def bhamSignals (bham : Bham) (n m : ℕ) : ℕ := (List.range' n m).countP (bhamSignal bham)

/-- No operation of the tick overflows, read as signed, and no store loses a bit. -/
structure ExactTick (bham : Bham) : Prop where
  sum : bham.sum.toBitVec.toInt = bham.error.toInt + bham.Y.toNat
  stepUp : bham.stepUp.toInt = bham.sum.toBitVec.toInt
  difference : 0 < bham.stepUp.toInt →
    bham.difference.toBitVec.toInt = bham.stepUp.toInt - bham.X.toNat
  stepBack : 0 < bham.stepUp.toInt → bham.stepBack.toInt = bham.difference.toBitVec.toInt

variable {bham : Bham} {x y : Count} {n m k : ℕ}

/-! ## conversions -/

theorem toInt_intToCount (v : BitVec 32) : (intToCount v).toBitVec.toInt = v.toInt :=
  BitVec.toInt_signExtend_of_le (by omega)

/-- What is in the range of an `int` is stored as it is. -/
theorem toInt_countToInt {c : Count} (hlo : -2 ^ 31 ≤ c.toBitVec.toInt)
    (hhi : c.toBitVec.toInt < 2 ^ 31) : (countToInt c).toInt = c.toBitVec.toInt := by
  have hbmod : (countToInt c).toInt = c.toBitVec.toInt.bmod (2 ^ 32) := by
    rw [countToInt, BitVec.toInt_setWidth, BitVec.toInt_eq_toNat_bmod,
      Int.bmod_bmod_of_dvd (Nat.pow_dvd_pow 2 (by omega))]
  rw [hbmod]
  exact Int.bmod_eq_of_le (by omega) (by omega)

theorem toInt_toBitVec {c : Count} (hc : c.toNat < 2 ^ 31) : c.toBitVec.toInt = c.toNat := by
  rw [BitVec.toInt_eq_toNat_of_lt (by rw [UInt64.toNat_toBitVec]; omega), UInt64.toNat_toBitVec]

/-! ## one tick -/

/-- After `n` ticks with `k` signals. -/
structure Paced (x y : Count) (n k : ℕ) (bham : Bham) : Prop where
  X : bham.X = x
  Y : bham.Y = y
  error : bham.error.toInt = n * y.toNat - (k + 1) * x.toNat
  lower : -x.toNat ≤ bham.error.toInt
  upper : bham.error.toInt ≤ 0
  started : 0 < n → 0 < y.toNat → -x.toNat < bham.error.toInt

theorem Paced.init (hx : x.toNat < 2 ^ 31) (hy : y ≤ x) :
    ∃ bham, bhamInit x y = some bham ∧ Paced x y 0 0 bham := by
  have hneg : (-x).toBitVec.toInt = -x.toNat := by
    rw [UInt64.toBitVec_neg, BitVec.toInt_neg, toInt_toBitVec hx]
    exact Int.bmod_eq_of_le (by omega) (by omega)
  have herror : (countToInt (-x)).toInt = -x.toNat := by
    rw [toInt_countToInt (by omega) (by omega), hneg]
  refine ⟨{ X := x, Y := y, error := countToInt (-x) }, if_pos hy, ?_⟩
  constructor <;> simp [herror]

theorem Paced.exactTick (hx : x.toNat < 2 ^ 31) (hy : y ≤ x) (h : Paced x y n k bham) :
    ExactTick bham := by
  obtain ⟨rfl, rfl, -, hlo, hhi, -⟩ := h
  rw [UInt64.le_iff_toNat_le] at hy
  have hsum : bham.sum.toBitVec.toInt = bham.error.toInt + bham.Y.toNat := by
    rw [Bham.sum, UInt64.toBitVec_add, BitVec.toInt_add, toInt_intToCount,
      toInt_toBitVec (by omega)]
    exact Int.bmod_eq_of_le (by omega) (by omega)
  have hup : bham.stepUp.toInt = bham.sum.toBitVec.toInt :=
    toInt_countToInt (by omega) (by omega)
  have hdiff : 0 < bham.stepUp.toInt →
      bham.difference.toBitVec.toInt = bham.stepUp.toInt - bham.X.toNat := by
    intro hsignal
    rw [Bham.difference, UInt64.toBitVec_sub, BitVec.toInt_sub, toInt_intToCount, toInt_toBitVec hx]
    exact Int.bmod_eq_of_le (by omega) (by omega)
  have hback (hsignal : 0 < bham.stepUp.toInt) :
      bham.stepBack.toInt = bham.difference.toBitVec.toInt :=
    toInt_countToInt (by have := hdiff hsignal; omega) (by have := hdiff hsignal; omega)
  exact ⟨hsum, hup, hdiff, hback⟩

/-- **`BHamTick`** keeps the pace. -/
theorem Paced.tick (hx : x.toNat < 2 ^ 31) (hy : y ≤ x) (h : Paced x y n k bham) :
    Paced x y (n + 1) (k + if (bhamTick bham).1 then 1 else 0) (bhamTick bham).2 := by
  obtain ⟨hsum, hup, hdiff, hback⟩ := h.exactTick hx hy
  obtain ⟨rfl, rfl, herror, hlo, hhi, hstarted⟩ := h
  rw [UInt64.le_iff_toNat_le] at hy
  unfold bhamTick
  by_cases hsignal : 0 < bham.stepUp.toInt
  · have hnew : bham.stepBack.toInt = bham.error.toInt + bham.Y.toNat - bham.X.toNat := by
      rw [hback hsignal, hdiff hsignal, hup, hsum]
    simp only [hsignal, ↓reduceIte]
    exact ⟨rfl, rfl, by rw [hnew, herror]; push_cast; ring, by grind, by grind, by grind⟩
  · have hnew : bham.stepUp.toInt = bham.error.toInt + bham.Y.toNat := by rw [hup, hsum]
    simp only [hsignal, ↓reduceIte]
    exact ⟨rfl, rfl, by rw [hnew, herror]; push_cast; ring, by grind, by grind, by grind⟩

/-! ## all ticks -/

theorem bhamSignals_succ : bhamSignals bham n (m + 1) =
    bhamSignals bham n m + if bhamSignal bham (n + m) then 1 else 0 := by
  simp [bhamSignals, List.range'_1_concat, List.countP_append, List.countP_cons]

theorem bhamSignals_append : bhamSignals bham 0 (n + m) =
    bhamSignals bham 0 n + bhamSignals bham n m := by
  unfold bhamSignals
  rw [← List.countP_append, ← List.range'_append_1, Nat.zero_add]

theorem Paced.after (hx : x.toNat < 2 ^ 31) (hy : y ≤ x) (h : Paced x y 0 0 bham) (n : ℕ) :
    Paced x y n (bhamSignals bham 0 n) (bhamAfter bham n) := by
  induction n with
  | zero => exact h
  | succ n ih =>
      rw [bhamSignals_succ, Nat.zero_add]
      exact ih.tick hx hy

/-- The signals so far are one short of the line, rounded up. -/
theorem Paced.signals (hpos : 0 < x) (hn : 1 ≤ n) (h : Paced x y n k bham) (hy : y ≠ 0) :
    (k : ℤ) = ⌈(n * y.toNat : ℚ) / x.toNat⌉ - 1 := by
  have hx0 : (0 : ℚ) < x.toNat := by exact_mod_cast UInt64.lt_iff_toNat_lt.mp hpos
  have hy0 : 0 < y.toNat := Nat.pos_of_ne_zero fun h0 => hy (UInt64.toNat_inj.mp h0)
  have hlo : (-x.toNat : ℚ) < n * y.toNat - (k + 1) * x.toNat := by
    exact_mod_cast h.error ▸ h.started hn hy0
  have hhi : (n * y.toNat - (k + 1) * x.toNat : ℚ) ≤ 0 := by exact_mod_cast h.error ▸ h.upper
  have hceil : ⌈(n * y.toNat : ℚ) / x.toNat⌉ = k + 1 := by
    rw [Int.ceil_eq_iff, lt_div_iff₀ hx0, div_le_iff₀ hx0]
    push_cast
    constructor <;> linarith
  omega

theorem Paced.signals_zero (hpos : 0 < x) (h : Paced x 0 n k bham) : k = 0 := by
  have herror := h.error
  have hlo := h.lower
  have hx0 := UInt64.lt_iff_toNat_lt.mp hpos
  rw [UInt64.toNat_zero, Nat.cast_zero, mul_zero] at herror
  rw [UInt64.toNat_zero] at hx0
  have hle : (k * x.toNat : ℤ) ≤ 0 := by linarith
  by_contra hk
  have hlt : (0 : ℤ) < k * x.toNat := by positivity
  omega

/-- Between two ticks, the line rises by as much as was signalled, up to one. -/
theorem Paced.window {k' : ℕ} {bham' : Bham} (hpos : 0 < x) (h : Paced x y n k bham)
    (h' : Paced x y (n + m) (k + k') bham') : |(k' : ℚ) - m * y.toNat / x.toNat| ≤ 1 := by
  have hx0 : (0 : ℚ) < x.toNat := by exact_mod_cast UInt64.lt_iff_toNat_lt.mp hpos
  have hdiff : (m * y.toNat - k' * x.toNat : ℚ) = bham'.error.toInt - bham.error.toInt := by
    rw [h.error, h'.error]
    push_cast
    ring
  have hlo : (-x.toNat : ℚ) ≤ bham.error.toInt := by exact_mod_cast h.lower
  have hhi : (bham.error.toInt : ℚ) ≤ 0 := by exact_mod_cast h.upper
  have hlo' : (-x.toNat : ℚ) ≤ bham'.error.toInt := by exact_mod_cast h'.lower
  have hhi' : (bham'.error.toInt : ℚ) ≤ 0 := by exact_mod_cast h'.upper
  have hscaled : (k' : ℚ) - m * y.toNat / x.toNat =
      (bham.error.toInt - bham'.error.toInt) / x.toNat := by
    rw [eq_div_iff hx0.ne', sub_mul, div_mul_cancel₀ _ hx0.ne']
    linarith
  rw [hscaled, abs_le, le_div_iff₀ hx0, div_le_iff₀ hx0]
  constructor <;> linarith

/-- **`BHamTick`** after **`BHamInit`**: the accumulator stays in its range, all its
arithmetic is exact, and the signals follow the line from any tick on. -/
theorem bham_paces (x y : Count) (hpos : 0 < x) (hx : x.toNat < 2 ^ 31) (hy : y ≤ x) :
    ∃ bham, bhamInit x y = some bham ∧ bham.error.toInt = -x.toNat ∧
      (∀ n, -x.toNat ≤ (bhamAfter bham n).error.toInt ∧ (bhamAfter bham n).error.toInt ≤ 0 ∧
        ExactTick (bhamAfter bham n)) ∧
      (∀ n, 1 ≤ n → (bhamSignals bham 0 n : ℤ) =
        if y = 0 then 0 else ⌈(n * y.toNat : ℚ) / x.toNat⌉ - 1) ∧
      ∀ n m, |(bhamSignals bham n m : ℚ) - m * y.toNat / x.toNat| ≤ 1 := by
  obtain ⟨bham, hinit, hpaced⟩ := Paced.init hx hy
  have hafter := hpaced.after hx hy
  refine ⟨bham, hinit, by simpa using hpaced.error, ?range, ?signals, ?windows⟩
  case range => exact fun n => ⟨(hafter n).lower, (hafter n).upper, (hafter n).exactTick hx hy⟩
  case signals =>
    intro n hn
    split
    · subst y
      rw [(hafter n).signals_zero hpos, Nat.cast_zero]
    · exact (hafter n).signals hpos hn ‹_›
  case windows =>
    intro n m
    exact (hafter n).window hpos (bhamSignals_append ▸ hafter (n + m))

theorem bham_paces_five :
    ∃ bham, bhamInit 5 2 = some bham ∧ bham.error.toInt = -5 ∧
      (∀ n, -5 ≤ (bhamAfter bham n).error.toInt ∧ (bhamAfter bham n).error.toInt ≤ 0 ∧
        ExactTick (bhamAfter bham n)) ∧
      (∀ n, 1 ≤ n → (bhamSignals bham 0 n : ℤ) = ⌈(n * 2 : ℚ) / 5⌉ - 1) ∧
      ∀ n m, |(bhamSignals bham n m : ℚ) - m * 2 / 5| ≤ 1 := by
  simpa using bham_paces 5 2 (by decide) (by decide) (by decide)

end KernelPanic
