import Mathlib.Data.Nat.Basic
import Mathlib.Logic.Function.Basic

/-!
# KernelPanic.Utils.Bitmap

Flags packed into the words of a buffer (`utils/bitmap.h`, `utils/bitmap.c`).

`Words` is the memory the buffer lies in, and a bitmap is the number of its
first word there, so that two bitmaps of one buffer, and an access past the end
of either, are seen for what they are.

`bits` numbers all the bits of the memory.  Every operation is one on `bits` at
the bit number `bitAt` of its flag, and that is all the modules above use.
-/

namespace KernelPanic

/-- `INDEX`, a `size_t`. -/
abbrev Index := UInt64

/-- `COUNT`, a `size_t`. -/
abbrev Count := UInt64

/-- `BITMAP_WORD`, an `int`. -/
abbrev BitmapWord := BitVec 32

abbrev Words := ℕ → BitmapWord

/-- `BitmapWordSize`. -/
def bitmapWordSize : Count := 32

/-- `BitmapIndex`. -/
def bitmapIndex (index : Index) : Index := index / bitmapWordSize

/-- `BitmapOffset`. -/
def bitmapOffset (index : Index) : Index := index % bitmapWordSize

/-- `BitmapGenerateMask`. -/
def bitmapGenerateMask (offset : Index) : BitmapWord := 1#32 <<< offset.toNat

/-- `BitmapSize`. -/
def bitmapSize (numElements : Count) : Count :=
  numElements / bitmapWordSize + if numElements % bitmapWordSize ≠ 0 then 1 else 0

/-- The word of the memory that the flag is in. -/
def bitmapWord (map : ℕ) (index : Index) : ℕ := map + (bitmapIndex index).toNat

/-- `BitmapGet`. -/
def bitmapGet (words : Words) (map : ℕ) (index : Index) : Bool :=
  words (bitmapWord map index) &&& bitmapGenerateMask (bitmapOffset index) ≠ 0

/-- `BitmapOn`. -/
def bitmapOn (words : Words) (map : ℕ) (index : Index) : Words :=
  Function.update words (bitmapWord map index)
    (words (bitmapWord map index) ||| bitmapGenerateMask (bitmapOffset index))

/-- `BitmapOff`. -/
def bitmapOff (words : Words) (map : ℕ) (index : Index) : Words :=
  Function.update words (bitmapWord map index)
    (words (bitmapWord map index) &&& ~~~bitmapGenerateMask (bitmapOffset index))

/-- `BitmapToggle`. -/
def bitmapToggle (words : Words) (map : ℕ) (index : Index) : Words :=
  Function.update words (bitmapWord map index)
    (words (bitmapWord map index) ^^^ bitmapGenerateMask (bitmapOffset index))

/-- A loop that stores zero into `count` words. -/
def clearWords (words : Words) (map : ℕ) (count : Count) : Words :=
  (List.range count.toNat).foldl (fun words cur => Function.update words (map + cur) 0) words

/-- `BitmapClear`. -/
def bitmapClear (words : Words) (map : ℕ) (numBits : Count) : Words :=
  clearWords words map (bitmapSize numBits)

/-- The inner loop of `BitmapGetFirstFlag`, over the bits of a word that is not
zero. -/
def bitmapFirstOffset (words : Words) (map : ℕ) (index : Index) : Index :=
  match (List.range bitmapWordSize.toNat).find? fun offset =>
      bitmapGet words map (index * bitmapWordSize + .ofNat offset) with
  | some offset => index * bitmapWordSize + .ofNat offset
  | none => -2

/-- `BitmapGetFirstFlag`. -/
def bitmapGetFirstFlag (words : Words) (map : ℕ) (numBits : Count) : Index :=
  match (List.range (bitmapSize numBits).toNat).find? fun index => words (map + index) ≠ 0 with
  | some index => bitmapFirstOffset words map (.ofNat index)
  | none => -1

/-! ## bits -/

/-- The bits of the memory, in the order of `BitmapGetFirstFlag`. -/
def bits (words : Words) (n : ℕ) : Bool := (words (n / 32)).getLsbD (n % 32)

/-- The number of a flag's bit. -/
def bitAt (map : ℕ) (index : Index) : ℕ := 32 * map + index.toNat

variable {words : Words} {map n : ℕ} {index : Index}

theorem bitAt_div (map : ℕ) (index : Index) : bitAt map index / 32 = bitmapWord map index := by
  unfold bitAt bitmapWord bitmapIndex
  rw [UInt64.toNat_div]
  show (32 * map + index.toNat) / 32 = map + index.toNat / 32
  omega

theorem bitAt_mod (map : ℕ) (index : Index) : bitAt map index % 32 = (bitmapOffset index).toNat := by
  unfold bitAt bitmapOffset
  rw [UInt64.toNat_mod]
  show (32 * map + index.toNat) % 32 = index.toNat % 32
  omega

theorem bitmapOffset_lt (index : Index) : (bitmapOffset index).toNat < 32 := by
  rw [← bitAt_mod 0]
  exact Nat.mod_lt _ (by omega)

theorem getLsbD_mask {i : ℕ} :
    (bitmapGenerateMask (bitmapOffset index)).getLsbD i = decide (i = (bitmapOffset index).toNat) := by
  have hlt := bitmapOffset_lt index
  unfold bitmapGenerateMask
  rw [← BitVec.twoPow_eq, BitVec.getLsbD_twoPow]
  simp [hlt, eq_comm]

/-- **`BitmapGet`.** -/
theorem bitmapGet_eq : bitmapGet words map index = bits words (bitAt map index) := by
  have hne : BitVec.twoPow 32 (bitmapOffset index).toNat ≠ 0#32 := by
    intro hzero
    have hbit := congrArg (·.getLsbD (bitmapOffset index).toNat) hzero
    simp [bitmapOffset_lt] at hbit
  unfold bitmapGet bits
  rw [bitAt_div, bitAt_mod, bitmapGenerateMask, ← BitVec.twoPow_eq, BitVec.and_twoPow]
  cases (words (bitmapWord map index)).getLsbD (bitmapOffset index).toNat <;> simp [hne]

/-- A word that differs in the flag's bit alone. -/
theorem bits_update {v : BitmapWord} {f : Bool → Bool}
    (hv : ∀ i < 32, v.getLsbD i =
      if i = (bitmapOffset index).toNat then f ((words (bitmapWord map index)).getLsbD i)
      else (words (bitmapWord map index)).getLsbD i) :
    bits (Function.update words (bitmapWord map index) v) n =
      if n = bitAt map index then f (bits words n) else bits words n := by
  have hdiv := bitAt_div map index
  have hmod := bitAt_mod map index
  unfold bits
  by_cases hword : n / 32 = bitmapWord map index
  · rw [hword, Function.update_self, hv _ (Nat.mod_lt _ (by omega))]
    have hiff : n % 32 = (bitmapOffset index).toNat ↔ n = bitAt map index := by omega
    simp only [hiff]
  · have hne : n ≠ bitAt map index := fun heq => hword (heq ▸ hdiv)
    rw [Function.update_of_ne hword, if_neg hne]

/-- **`BitmapOn`.** -/
theorem bits_on : bits (bitmapOn words map index) n = (bits words n || n = bitAt map index) := by
  unfold bitmapOn
  rw [bits_update (f := fun _ => true)]
  · split <;> simp [*]
  · intro i hi
    rw [BitVec.getLsbD_or, getLsbD_mask]
    split <;> simp [*]

/-- **`BitmapOff`.** -/
theorem bits_off :
    bits (bitmapOff words map index) n = (bits words n && n ≠ bitAt map index) := by
  unfold bitmapOff
  rw [bits_update (f := fun _ => false)]
  · split <;> simp [*]
  · intro i hi
    rw [BitVec.getLsbD_and, BitVec.getLsbD_not, getLsbD_mask]
    split <;> simp [*]

/-- **`BitmapToggle`.** -/
theorem bits_toggle :
    bits (bitmapToggle words map index) n = (bits words n ^^ n = bitAt map index) := by
  unfold bitmapToggle
  rw [bits_update (f := fun b => !b)]
  · split <;> simp [*]
  · intro i hi
    rw [BitVec.getLsbD_xor, getLsbD_mask]
    split <;> simp [*]

/-! ## whole bitmaps -/

variable {numBits : Count}

/-- The words of a bitmap, rounded up. -/
theorem toNat_bitmapSize : (bitmapSize numBits).toNat = (numBits.toNat + 31) / 32 := by
  have hlt := numBits.toNat_lt
  have hword : bitmapWordSize.toNat = 32 := rfl
  have hmod : numBits % bitmapWordSize = 0 ↔ numBits.toNat % 32 = 0 := by
    rw [← UInt64.toNat_inj, UInt64.toNat_mod, hword]
    rfl
  unfold bitmapSize
  rw [UInt64.toNat_add, UInt64.toNat_div, hword]
  by_cases h0 : numBits.toNat % 32 = 0
  · simp only [hmod.mpr h0, ne_eq, not_true_eq_false, ↓reduceIte, UInt64.toNat_zero]
    omega
  · simp only [mt hmod.mp h0, ne_eq, not_false_eq_true, ↓reduceIte, UInt64.toNat_one]
    omega

/-- The words that a bitmap of `numBits` flags covers have this many bits. -/
def bitmapBits (numBits : Count) : ℕ := 32 * (bitmapSize numBits).toNat

theorem le_bitmapBits : numBits.toNat ≤ bitmapBits numBits := by
  unfold bitmapBits
  rw [toNat_bitmapSize]
  omega

theorem clearWords_apply (count : Count) (i : ℕ) :
    clearWords words map count i = if map ≤ i ∧ i < map + count.toNat then 0 else words i := by
  unfold clearWords
  induction count.toNat with
  | zero => rw [List.range_zero, List.foldl_nil, if_neg (by omega)]
  | succ k ih =>
      rw [List.range_succ, List.foldl_append, List.foldl_cons, List.foldl_nil]
      by_cases hi : i = map + k
      · rw [hi, Function.update_self, if_pos (by omega)]
      · rw [Function.update_of_ne hi, ih]
        have hiff : (map ≤ i ∧ i < map + k) ↔ (map ≤ i ∧ i < map + (k + 1)) := by omega
        simp only [hiff]

/-- **`BitmapClear`** clears the bits of all words of the bitmap. -/
theorem bits_clear :
    bits (bitmapClear words map numBits) n =
      (bits words n && !(32 * map ≤ n && n < 32 * map + bitmapBits numBits)) := by
  unfold bits bitmapClear bitmapBits
  rw [clearWords_apply]
  have hiff : (map ≤ n / 32 ∧ n / 32 < map + (bitmapSize numBits).toNat) ↔
      (32 * map ≤ n ∧ n < 32 * map + 32 * (bitmapSize numBits).toNat) := by omega
  simp only [hiff]
  split
  · simp [*]
  · grind

theorem word_eq_zero {w : BitmapWord} : w = 0 ↔ ∀ i < 32, w.getLsbD i = false := by
  constructor
  · rintro rfl i -
    simp
  · intro h
    ext i hi
    simpa [BitVec.getLsbD_eq_getElem hi] using h i hi

theorem word_bits {i : ℕ} : words i = 0 ↔ ∀ k < 32, bits words (32 * i + k) = false := by
  rw [word_eq_zero]
  refine forall₂_congr fun k hk => ?_
  have hdiv : (32 * i + k) / 32 = i := by omega
  have hmod : (32 * i + k) % 32 = k := by omega
  rw [bits, hdiv, hmod]

/-- The flag that the inner loop looks at. -/
theorem toNat_flag {i k : ℕ} (hi : i < (bitmapSize numBits).toNat) (hk : k < 32) :
    ((UInt64.ofNat i : Index) * bitmapWordSize + .ofNat k).toNat = 32 * i + k := by
  have hlt := numBits.toNat_lt
  rw [toNat_bitmapSize] at hi
  have hword : bitmapWordSize.toNat = 32 := rfl
  rw [UInt64.toNat_add, UInt64.toNat_mul, UInt64.toNat_ofNat', UInt64.toNat_ofNat', hword]
  omega

/-- The inner loop finds the first bit of a word that is not zero; it does not
come to its end. -/
theorem bitmapFirstOffset_spec {i : ℕ} (hi : i < (bitmapSize numBits).toNat)
    (hne : words (map + i) ≠ 0) :
    ∃ k < 32, (bitmapFirstOffset words map (.ofNat i)).toNat = 32 * i + k ∧
      bits words (32 * (map + i) + k) = true ∧
      ∀ j < k, bits words (32 * (map + i) + j) = false := by
  have hget : ∀ k < 32, bitmapGet words map (UInt64.ofNat i * bitmapWordSize + .ofNat k) =
      bits words (32 * (map + i) + k) := by
    intro k hk
    have heq : 32 * map + (32 * i + k) = 32 * (map + i) + k := by omega
    rw [bitmapGet_eq, bitAt, toNat_flag hi hk, heq]
  unfold bitmapFirstOffset
  cases hfind : (List.range bitmapWordSize.toNat).find? fun offset =>
      bitmapGet words map (UInt64.ofNat i * bitmapWordSize + .ofNat offset) with
  | none =>
      refine absurd (word_bits.mpr fun k hk => ?_) hne
      have hoff := List.find?_range_eq_none.mp hfind k hk
      rwa [hget k hk, Bool.not_eq_true'] at hoff
  | some k =>
      obtain ⟨hon, hk, hbefore⟩ := List.find?_range_eq_some.mp hfind
      have hk' : k < 32 := List.mem_range.mp hk
      rw [hget k hk'] at hon
      refine ⟨k, hk', toNat_flag hi hk', hon, fun j hj => ?_⟩
      have hoff := hbefore j hj
      rwa [hget j (by omega), Bool.not_eq_true'] at hoff

/-- **`BitmapGetFirstFlag`** returns the first flag that is on, among all bits of
the bitmap's words, and -1 when there is none. -/
theorem bitmapGetFirstFlag_spec (words : Words) (map : ℕ) (numBits : Count) :
    (bitmapGetFirstFlag words map numBits = -1 ∧
        ∀ n < bitmapBits numBits, bits words (32 * map + n) = false) ∨
      (bitmapGetFirstFlag words map numBits).toNat < bitmapBits numBits ∧
        bits words (bitAt map (bitmapGetFirstFlag words map numBits)) = true ∧
        ∀ n < (bitmapGetFirstFlag words map numBits).toNat, bits words (32 * map + n) = false := by
  have hsplit : ∀ n, 32 * (map + n / 32) + n % 32 = 32 * map + n := by omega
  have hword : ∀ n, words (map + n / 32) = 0 → bits words (32 * map + n) = false := by
    intro n hzero
    rw [← hsplit n]
    exact word_bits.mp hzero (n % 32) (Nat.mod_lt _ (by omega))
  unfold bitmapGetFirstFlag bitmapBits
  cases hfind : (List.range (bitmapSize numBits).toNat).find? fun i => words (map + i) ≠ 0 with
  | none =>
      simp only [List.find?_range_eq_none, ne_eq, decide_not, Bool.not_not, decide_eq_true_eq]
        at hfind
      exact .inl ⟨rfl, fun n hn => hword n (hfind (n / 32) (by omega))⟩
  | some i =>
      obtain ⟨hne, hi, hbefore⟩ := List.find?_range_eq_some.mp hfind
      simp only [ne_eq, decide_not, Bool.not_not, Bool.not_eq_true', decide_eq_false_iff_not,
        decide_eq_true_eq, List.mem_range] at hne hi hbefore
      obtain ⟨k, hk, hflag, hon, hoff⟩ := bitmapFirstOffset_spec hi hne
      right
      dsimp only
      rw [bitAt, hflag]
      refine ⟨by omega, ?_, fun n hn => ?_⟩
      · rwa [← Nat.add_assoc, ← Nat.mul_add]
      · by_cases hin : n / 32 = i
        · have hbit := hoff (n % 32) (by omega)
          rwa [← hin, hsplit] at hbit
        · exact hword n (hbefore (n / 32) (by omega))

end KernelPanic
