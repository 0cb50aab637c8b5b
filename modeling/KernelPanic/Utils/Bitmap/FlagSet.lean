import KernelPanic.Utils.Bitmap
import Mathlib.Algebra.Ring.Nat
import Mathlib.Data.Set.Insert
import Mathlib.Order.Bounds.Defs

/-!
# KernelPanic.Utils.Bitmap.FlagSet

A bitmap is a set of flags.

`Bitmap numBits` is a bitmap in the memory whose last word is clear beyond its
flags; that is what `BitmapClear` leaves and every operation on a flag keeps.
`flags` is the set of the flags that are on: `BitmapOn` inserts, `BitmapOff`
removes, `BitmapToggle` is the symmetric difference, `BitmapGet` is membership
and `BitmapGetFirstFlag` is the least element.
-/

namespace KernelPanic

/-- A bitmap of `numBits` flags, at the word `map` of the memory. -/
structure Bitmap (numBits : Count) where
  words : Words
  map : ℕ
  clear : ∀ n, numBits.toNat ≤ n → n < bitmapBits numBits → bits words (32 * map + n) = false

namespace Bitmap

variable {numBits : Count} (b : Bitmap numBits) {i j : Index}

/-- The flags that are on. -/
def flags : Set ℕ := {n | n < numBits.toNat ∧ bits b.words (32 * b.map + n) = true}

/-! ## the operations keep the rest clear -/

/-- A flag's bit is none of the bits beyond the flags. -/
theorem ne_bitAt (hi : i < numBits) {n : ℕ} (hn : numBits.toNat ≤ n) :
    32 * b.map + n ≠ bitAt b.map i := by
  have hlt : i.toNat < numBits.toNat := hi
  unfold bitAt
  omega

/-- The bitmap after `BitmapOn`. -/
def on (i : Index) (hi : i < numBits) : Bitmap numBits where
  words := bitmapOn b.words b.map i
  map := b.map
  clear n hn hlt := by
    rw [bits_on, b.clear n hn hlt, decide_eq_false (b.ne_bitAt hi hn), Bool.or_false]

/-- The bitmap after `BitmapOff`. -/
def off (i : Index) (_ : i < numBits) : Bitmap numBits where
  words := bitmapOff b.words b.map i
  map := b.map
  clear n hn hlt := by rw [bits_off, b.clear n hn hlt, Bool.false_and]

/-- The bitmap after `BitmapToggle`. -/
def toggle (i : Index) (hi : i < numBits) : Bitmap numBits where
  words := bitmapToggle b.words b.map i
  map := b.map
  clear n hn hlt := by
    rw [bits_toggle, b.clear n hn hlt, decide_eq_false (b.ne_bitAt hi hn), Bool.xor_false]

theorem bits_cleared {words : Words} {map n : ℕ} (hn : n < bitmapBits numBits) :
    bits (bitmapClear words map numBits) (32 * map + n) = false := by
  simp [bits_clear, hn]

/-- The bitmap that `BitmapClear` leaves at `map`, whatever was there. -/
def cleared (numBits : Count) (words : Words) (map : ℕ) : Bitmap numBits where
  words := bitmapClear words map numBits
  map := map
  clear _ _ hlt := bits_cleared hlt

/-! ## the operations on the set -/

/-- **`BitmapGet`** is membership. -/
theorem get_iff (hi : i < numBits) : bitmapGet b.words b.map i = true ↔ i.toNat ∈ b.flags := by
  rw [bitmapGet_eq]
  exact (and_iff_right hi).symm

theorem flags_on (hi : i < numBits) : (b.on i hi).flags = insert i.toNat b.flags := by
  ext n
  have hlt : i.toNat < numBits.toNat := hi
  simp only [flags, on, bits_on, bitAt, Nat.add_left_cancel_iff, Bool.or_eq_true, decide_eq_true_eq,
    Set.mem_ofPred_eq, Set.mem_insert_iff]
  constructor
  · rintro ⟨hn, hbit | heq⟩
    · exact .inr ⟨hn, hbit⟩
    · exact .inl heq
  · rintro (rfl | ⟨hn, hbit⟩)
    · exact ⟨hlt, .inr rfl⟩
    · exact ⟨hn, .inl hbit⟩

theorem flags_off (hi : i < numBits) : (b.off i hi).flags = b.flags \ {i.toNat} := by
  ext n
  simp only [flags, off, bits_off, bitAt, ne_eq, Nat.add_left_cancel_iff, Bool.and_eq_true,
    decide_eq_true_eq, Set.mem_ofPred_eq, Set.mem_sdiff, Set.mem_singleton_iff, and_assoc]

theorem flags_toggle (hi : i < numBits) : (b.toggle i hi).flags =
    (b.flags \ {i.toNat}) ∪ ({i.toNat} \ b.flags) := by
  ext n
  have hlt : i.toNat < numBits.toNat := hi
  simp only [flags, toggle, bits_toggle, bitAt, Nat.add_left_cancel_iff, Set.mem_ofPred_eq,
    Set.mem_union, Set.mem_sdiff, Set.mem_singleton_iff]
  by_cases heq : n = i.toNat
  · simp [heq, hlt]
  · simp [heq]

theorem flags_cleared (words : Words) (map : ℕ) : (cleared numBits words map).flags = ∅ := by
  rw [Set.eq_empty_iff_forall_notMem]
  rintro n ⟨hn, hbit⟩
  have hclear : bits (cleared numBits words map).words (32 * map + n) = false :=
    bits_cleared (hn.trans_le le_bitmapBits)
  exact Bool.false_ne_true (hclear.symm.trans hbit)

/-! ## the first flag -/

/-- `BitmapGetFirstFlag` returns -1 when no flag is on. -/
theorem firstFlag_eq_neg_one (h : b.flags = ∅) :
    bitmapGetFirstFlag b.words b.map numBits = -1 := by
  obtain ⟨heq, -⟩ | ⟨hlt, hon, -⟩ := bitmapGetFirstFlag_spec b.words b.map numBits
  · exact heq
  · have hmem : (bitmapGetFirstFlag b.words b.map numBits).toNat ∈ b.flags := by
      refine ⟨?_, hon⟩
      by_contra hge
      have hclear := b.clear _ (Nat.not_lt.mp hge) hlt
      exact Bool.false_ne_true (hclear.symm.trans hon)
    rw [h] at hmem
    exact absurd hmem (Set.notMem_empty _)

/-- **`BitmapGetFirstFlag`** returns the least flag that is on. -/
theorem firstFlag_isLeast (h : b.flags ≠ ∅) :
    IsLeast b.flags (bitmapGetFirstFlag b.words b.map numBits).toNat := by
  obtain ⟨n, hn, hbit⟩ := Set.nonempty_iff_ne_empty.mpr h
  have hle : numBits.toNat ≤ bitmapBits numBits := le_bitmapBits
  obtain ⟨-, hnone⟩ | ⟨hlt, hon, hbefore⟩ := bitmapGetFirstFlag_spec b.words b.map numBits
  · exact absurd ((hnone n (hn.trans_le hle)).symm.trans hbit) Bool.false_ne_true
  · have hsmall : ∀ k ∈ b.flags, (bitmapGetFirstFlag b.words b.map numBits).toNat ≤ k := by
      intro k hk
      by_contra hgt
      exact Bool.false_ne_true ((hbefore k (Nat.not_le.mp hgt)).symm.trans hk.2)
    exact ⟨⟨(hsmall n ⟨hn, hbit⟩).trans_lt hn, hon⟩, hsmall⟩

/-- No flag has the number -1. -/
theorem firstFlag_eq_neg_one_iff :
    bitmapGetFirstFlag b.words b.map numBits = -1 ↔ b.flags = ∅ := by
  constructor
  · intro heq
    by_contra hne
    have hlt := (b.firstFlag_isLeast hne).1.1
    have hmax : numBits.toNat < 2 ^ 64 := numBits.toNat_lt
    rw [heq] at hlt
    have hneg : (-1 : Index).toNat = 2 ^ 64 - 1 := rfl
    omega
  · exact b.firstFlag_eq_neg_one

/-! ## runs -/

end Bitmap

/-- An operation of `bitmap.h` on a flag of a bitmap, or `BitmapClear`. -/
inductive BitmapCall (numBits : Count) where
  | on (i : Index) (hi : i < numBits)
  | off (i : Index) (hi : i < numBits)
  | toggle (i : Index) (hi : i < numBits)
  | clear

/-- The call on a bitmap. -/
def Bitmap.call {numBits : Count} (b : Bitmap numBits) : BitmapCall numBits → Bitmap numBits
  | .on i hi => b.on i hi
  | .off i hi => b.off i hi
  | .toggle i hi => b.toggle i hi
  | .clear => cleared numBits b.words b.map

/-- The call on a set of flags. -/
def flagsCall {numBits : Count} (flags : Set ℕ) : BitmapCall numBits → Set ℕ
  | .on i _ => insert i.toNat flags
  | .off i _ => flags \ {i.toNat}
  | .toggle i _ => (flags \ {i.toNat}) ∪ ({i.toNat} \ flags)
  | .clear => ∅

variable {numBits : Count} {b : Bitmap numBits} {i j : Index}

/-- One call does to the flags what it does to the set. -/
theorem Bitmap.flags_call (c : BitmapCall numBits) : (b.call c).flags = flagsCall b.flags c := by
  cases c with
  | on i hi => exact b.flags_on hi
  | off i hi => exact b.flags_off hi
  | toggle i hi => exact b.flags_toggle hi
  | clear => exact flags_cleared b.words b.map

/-- **A bitmap is a set of flags**, over any calls. -/
theorem Bitmap.flags_run (b : Bitmap numBits) (calls : List (BitmapCall numBits)) :
    (calls.foldl Bitmap.call b).flags = calls.foldl flagsCall b.flags := by
  induction calls generalizing b with
  | nil => rfl
  | cons c calls ih =>
      rw [List.foldl_cons, List.foldl_cons, ih, Bitmap.flags_call]

/-! ## what the callers see -/

theorem bitAt_inj {map : ℕ} : bitAt map j = bitAt map i ↔ j = i := by
  unfold bitAt
  rw [Nat.add_left_cancel_iff, UInt64.toNat_inj]

variable {words : Words} {map : ℕ}

theorem bitmapGet_on :
    bitmapGet (bitmapOn words map i) map j = if j = i then true else bitmapGet words map j := by
  rw [bitmapGet_eq, bits_on, bitmapGet_eq]
  by_cases hji : j = i
  · simp [hji]
  · simp [hji, bitAt_inj]

theorem bitmapGet_off :
    bitmapGet (bitmapOff words map i) map j = if j = i then false else bitmapGet words map j := by
  rw [bitmapGet_eq, bits_off, bitmapGet_eq]
  by_cases hji : j = i
  · simp [hji]
  · simp [hji, bitAt_inj]

theorem bitmapGet_toggle :
    bitmapGet (bitmapToggle words map i) map j =
      if j = i then !bitmapGet words map j else bitmapGet words map j := by
  rw [bitmapGet_eq, bits_toggle, bitmapGet_eq]
  by_cases hji : j = i
  · simp [hji]
  · simp [hji, bitAt_inj]

namespace Bitmap

/-- No flag is on exactly when `BitmapGet` finds none. -/
theorem flags_eq_empty_iff :
    b.flags = ∅ ↔ ∀ k < numBits, bitmapGet b.words b.map k = false := by
  constructor
  · intro hempty k hk
    rw [← Bool.not_eq_true, b.get_iff hk, hempty]
    exact Set.notMem_empty _
  · intro hoff
    rw [Set.eq_empty_iff_forall_notMem]
    intro n hn
    have hlt : n < 2 ^ 64 := hn.1.trans numBits.toNat_lt
    have hnat : (UInt64.ofNat n).toNat = n := UInt64.toNat_ofNat_of_lt' hlt
    have hk : UInt64.ofNat n < numBits := by
      rw [UInt64.lt_iff_toNat_lt, hnat]
      exact hn.1
    have hget := (b.get_iff hk).mpr (hnat.symm ▸ hn)
    rw [hoff _ hk] at hget
    cases hget

/-- The first flag, as the callers see it. -/
theorem firstFlag_spec (h : bitmapGetFirstFlag b.words b.map numBits ≠ -1) :
    bitmapGetFirstFlag b.words b.map numBits < numBits ∧
      bitmapGet b.words b.map (bitmapGetFirstFlag b.words b.map numBits) = true ∧
      ∀ k < bitmapGetFirstFlag b.words b.map numBits, bitmapGet b.words b.map k = false := by
  rw [Ne, b.firstFlag_eq_neg_one_iff] at h
  obtain ⟨hmem, hleast⟩ := b.firstFlag_isLeast h
  have hlt : bitmapGetFirstFlag b.words b.map numBits < numBits := hmem.1
  refine ⟨hlt, (b.get_iff hlt).mpr hmem, fun k hk => ?_⟩
  have hkn : k < numBits := UInt64.lt_trans hk hlt
  rw [← Bool.not_eq_true, b.get_iff hkn]
  intro hin
  exact Nat.not_le.mpr hk (hleast hin)

/-- A bitmap with a flag of the number -2 takes 2^61 bytes. -/
theorem firstFlag_ne_neg_two (h : 4 * (bitmapSize numBits).toNat < 2 ^ 61) :
    bitmapGetFirstFlag b.words b.map numBits ≠ -2 := by
  intro heq
  have hne : bitmapGetFirstFlag b.words b.map numBits ≠ -1 := by
    rw [heq]
    decide
  have hlt := (b.firstFlag_spec hne).1
  have hbits : numBits.toNat ≤ bitmapBits numBits := le_bitmapBits
  rw [heq, UInt64.lt_iff_toNat_lt] at hlt
  have htwo : (-2 : Index).toNat = 2 ^ 64 - 2 := rfl
  unfold bitmapBits at hbits
  omega

end Bitmap

/-- **Packed bitmaps.**  A flag is read as it was last turned on, off or over,
and no operation changes another; after `BitmapClear` none is on; the first flag
is the least that is on, and -1 when none is.  It is never -2: the `return -2` is
not reached, and a flag of that number needs an array of 2^61 bytes, which no
memory holds. -/
theorem bitmap_correct (b : Bitmap numBits) (words : Words) (map : ℕ) (i : Index)
    (hj : j < numBits) :
    let r := bitmapGetFirstFlag b.words b.map numBits
    bitmapGet (bitmapOn b.words b.map i) b.map j =
        (if j = i then true else bitmapGet b.words b.map j) ∧
      bitmapGet (bitmapOff b.words b.map i) b.map j =
        (if j = i then false else bitmapGet b.words b.map j) ∧
      bitmapGet (bitmapToggle b.words b.map i) b.map j =
        (if j = i then !bitmapGet b.words b.map j else bitmapGet b.words b.map j) ∧
      bitmapGet (bitmapClear words map numBits) map j = false ∧
      (r = -1 ↔ ∀ k < numBits, bitmapGet b.words b.map k = false) ∧
      (r ≠ -1 → r < numBits ∧ bitmapGet b.words b.map r = true ∧
        ∀ k < r, bitmapGet b.words b.map k = false) ∧
      (4 * (bitmapSize numBits).toNat < 2 ^ 61 → r ≠ -2) := by
  have hclear : bitmapGet (bitmapClear words map numBits) map j = false := by
    rw [bitmapGet_eq]
    exact Bitmap.bits_cleared (Nat.lt_of_lt_of_le hj le_bitmapBits)
  exact ⟨bitmapGet_on, bitmapGet_off, bitmapGet_toggle, hclear,
    b.firstFlag_eq_neg_one_iff.trans Bitmap.flags_eq_empty_iff, Bitmap.firstFlag_spec,
    Bitmap.firstFlag_ne_neg_two⟩

theorem bitmap_correct_sample :
    let b : Bitmap 33 := (Bitmap.cleared 33 (fun _ => 5) 2).on 31 (by decide)
    bitmapGet (bitmapToggle b.words b.map 32) b.map 31 = bitmapGet b.words b.map 31 ∧
      bitmapGetFirstFlag b.words b.map 33 ≠ -2 := by
  intro b
  have hj : (31 : Index) < 33 := by decide
  obtain ⟨-, -, htoggle, -, -, -, hnever⟩ := bitmap_correct b (fun _ => 0) 0 32 hj
  exact ⟨htoggle, hnever (by decide)⟩

end KernelPanic
