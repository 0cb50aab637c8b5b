import KernelPanic.Umouse.SubMove

/-!
# KernelPanic.Umouse.PositionLog

The log of the cells that the mouse has scanned (`umouse/positionlog.c`): one
flag a cell.

`ScanLogInit` has `BitmapClear` clear as many flags as the buffer has words, so
that it blanks one word of 32.  The log is what its callers take it for, whatever
the buffer held before, exactly when there is no second word
(`scanLogRecords_iff`).
-/

namespace KernelPanic

/-- `SCAN_LOG_SIZE`. -/
def scanLogSize (width height : Count) : Count := bitmapSize (width * height)

/-- `XY_TO_INDEX`. -/
def xyToIndex (x y : Index) (posLog : ScanLog) : Index := y * posLog.width + x

/-- `ScanLogInit`. -/
def scanLogInit (width height : Index) (buff : Words) : ScanLog where
  width := width
  height := height
  -- a number of words, where a number of flags is due
  flags := bitmapClear buff 0 (scanLogSize width height)

/-- `ScanLogSet`. -/
def scanLogSet (x y : Index) (flagState : Bool) (mapLog : ScanLog) : ScanLog :=
  { mapLog with
    flags :=
      if flagState then bitmapOn mapLog.flags 0 (xyToIndex x y mapLog)
      else bitmapOff mapLog.flags 0 (xyToIndex x y mapLog) }

/-! ## what the log is for -/

/-- A call of `ScanLogSet`. -/
structure ScanCall where
  cell : Cell
  flagState : Bool

/-- The log after the calls. -/
def scanLogRun (mapLog : ScanLog) (calls : List ScanCall) : ScanLog :=
  calls.foldl (fun mapLog call => scanLogSet call.cell.1 call.cell.2 call.flagState mapLog) mapLog

/-- What the last call on the cell set, if there was one. -/
def lastFlag (c : Cell) (calls : List ScanCall) : Option Bool :=
  (calls.filter (·.cell = c)).getLast?.map (·.flagState)

/-- A log of these dimensions tells, for every content its buffer had and all
calls on cells in range, which cells are set. -/
def ScanLogRecords (width height : Count) : Prop :=
  ∀ (buff : Words) (calls : List ScanCall),
    (∀ call ∈ calls, call.cell.1 < width ∧ call.cell.2 < height) →
    ∀ x y : Index,
      scanLogGet x y (scanLogRun (scanLogInit width height buff) calls) = true ↔
        (x < width ∧ y < height) ∧ lastFlag (x, y) calls = some true

variable {width height x y : Index} {mapLog : ScanLog} {calls : List ScanCall} {call : ScanCall}
  {c : Cell} {buff : Words}

theorem scanLogRun_concat :
    scanLogRun mapLog (calls ++ [call]) =
      scanLogSet call.cell.1 call.cell.2 call.flagState (scanLogRun mapLog calls) := by
  simp [scanLogRun]

theorem lastFlag_concat :
    lastFlag c (calls ++ [call]) = if call.cell = c then some call.flagState else lastFlag c calls := by
  unfold lastFlag
  split <;> simp [*]

theorem scanLogRun_width : (scanLogRun mapLog calls).width = mapLog.width := by
  induction calls using List.reverseRecOn with
  | nil => rfl
  | append_singleton calls call ih => rw [scanLogRun_concat, ← ih]; rfl

theorem scanLogRun_height : (scanLogRun mapLog calls).height = mapLog.height := by
  induction calls using List.reverseRecOn with
  | nil => rfl
  | append_singleton calls call ih => rw [scanLogRun_concat, ← ih]; rfl

theorem scanLogGet_eq :
    scanLogGet x y mapLog = true ↔
      (x < mapLog.width ∧ y < mapLog.height) ∧
        bits mapLog.flags (xyToIndex x y mapLog).toNat = true := by
  have hat : bitAt 0 (xyToIndex x y mapLog) = (xyToIndex x y mapLog).toNat := by simp [bitAt]
  unfold scanLogGet
  rw [← xyToIndex, bitmapGet_eq, hat]
  split <;> grind

/-- **`ScanLogSet`** is an assignment to one flag. -/
theorem bits_scanLogSet {flagState : Bool} {n : ℕ} :
    bits (scanLogSet x y flagState mapLog).flags n =
      if n = (xyToIndex x y mapLog).toNat then flagState else bits mapLog.flags n := by
  have hat : bitAt 0 (xyToIndex x y mapLog) = (xyToIndex x y mapLog).toNat := by simp [bitAt]
  unfold scanLogSet
  cases flagState with
  | true => simp only [↓reduceIte, bits_on, hat]; split <;> simp [*]
  | false => simp only [Bool.false_eq_true, ↓reduceIte, bits_off, hat]; split <;> simp [*]

/-! ## which dimensions it serves -/

/-- In a log whose cells can be counted, cells have numbers of their own. -/
theorem toNat_xyToIndex (hwidth : mapLog.width = width) (hfits : width.toNat * height.toNat ≤ 2 ^ 64)
    (hx : x < width) (hy : y < height) :
    (xyToIndex x y mapLog).toNat = y.toNat * width.toNat + x.toNat ∧
      y.toNat * width.toNat + x.toNat < width.toNat * height.toNat := by
  rw [UInt64.lt_iff_toNat_lt] at hx hy
  have hrow : (y.toNat + 1) * width.toNat ≤ height.toNat * width.toNat :=
    Nat.mul_le_mul_right _ hy
  rw [Nat.add_mul, Nat.one_mul, Nat.mul_comm height.toNat] at hrow
  have hlt : y.toNat * width.toNat + x.toNat < width.toNat * height.toNat := by omega
  refine ⟨?_, hlt⟩
  unfold xyToIndex
  rw [hwidth, UInt64.toNat_add, UInt64.toNat_mul]
  omega

theorem xyToIndex_inj {x' y' : Index} (hwidth : mapLog.width = width)
    (hfits : width.toNat * height.toNat ≤ 2 ^ 64) (hx : x < width) (hy : y < height)
    (hx' : x' < width) (hy' : y' < height)
    (heq : (xyToIndex x y mapLog).toNat = (xyToIndex x' y' mapLog).toNat) : x = x' ∧ y = y' := by
  rw [(toNat_xyToIndex hwidth hfits hx hy).1, (toNat_xyToIndex hwidth hfits hx' hy').1] at heq
  rw [UInt64.lt_iff_toNat_lt] at hx hx'
  have hpos : 0 < width.toNat := by omega
  have hxs : x.toNat = x'.toNat := by
    have hmod := congrArg (· % width.toNat) heq
    simpa [Nat.mul_add_mod_self_right, Nat.mod_eq_of_lt hx, Nat.mod_eq_of_lt hx'] using hmod
  have hys : y.toNat * width.toNat = y'.toNat * width.toNat := by omega
  exact ⟨UInt64.toNat_inj.mp hxs, UInt64.toNat_inj.mp (Nat.eq_of_mul_eq_mul_right hpos hys)⟩

/-- `ScanLogInit` clears the words that a bitmap with one flag a word has. -/
theorem bits_scanLogInit {n : ℕ} :
    bits (scanLogInit width height buff).flags n =
      (bits buff n && !(n < bitmapBits (scanLogSize width height))) := by
  simp [scanLogInit, bits_clear]

theorem bitmapBits_scanLogSize :
    bitmapBits (scanLogSize width height) =
      32 * (((width.toNat * height.toNat % 2 ^ 64 + 31) / 32 + 31) / 32) := by
  simp only [bitmapBits, scanLogSize, toNat_bitmapSize, UInt64.toNat_mul]

/-- One word holds all the flags. -/
theorem scanLogRecords_of_le (hle : width.toNat * height.toNat ≤ 32) :
    ScanLogRecords width height := by
  intro buff calls hcalls x y
  have hfits : width.toNat * height.toNat ≤ 2 ^ 64 := by omega
  rw [scanLogGet_eq, scanLogRun_width, scanLogRun_height]
  refine and_congr_right fun hin => ?_
  obtain ⟨hx, hy⟩ : x < width ∧ y < height := hin
  have hwidth : ∀ calls, (scanLogRun (scanLogInit width height buff) calls).width = width :=
    fun _ => scanLogRun_width
  -- by induction on the calls, the last one outermost
  induction calls using List.reverseRecOn with
  | nil =>
      have hindex := toNat_xyToIndex (hwidth []) hfits hx hy
      have hclear : (xyToIndex x y (scanLogInit width height buff)).toNat <
          bitmapBits (scanLogSize width height) := by
        rw [bitmapBits_scanLogSize]
        change (xyToIndex x y (scanLogInit width height buff)).toNat = _ ∧ _ at hindex
        omega
      simp [scanLogRun, lastFlag, bits_scanLogInit, hclear]
  | append_singleton calls call ih =>
      obtain ⟨hx', hy'⟩ := hcalls call (by simp)
      have hrest := ih fun call hcall => hcalls call (by simp [hcall])
      have hsame : xyToIndex x y (scanLogRun (scanLogInit width height buff) (calls ++ [call])) =
          xyToIndex x y (scanLogRun (scanLogInit width height buff) calls) := by
        simp only [xyToIndex, hwidth]
      rw [hsame, scanLogRun_concat, lastFlag_concat, bits_scanLogSet]
      by_cases hcell : call.cell = (x, y)
      · simp [hcell]
      · have hne : (xyToIndex x y (scanLogRun (scanLogInit width height buff) calls)).toNat ≠
            (xyToIndex call.cell.1 call.cell.2
              (scanLogRun (scanLogInit width height buff) calls)).toNat := by
          intro heq
          obtain ⟨rfl, rfl⟩ := xyToIndex_inj (hwidth calls) hfits hx hy hx' hy' heq
          exact hcell rfl
        rw [if_neg hne, if_neg hcell]
        exact hrest

/-- The first flag that `ScanLogInit` leaves is in range as soon as there is a
second word. -/
theorem exists_stale (buff : Words) (hlt : 32 < width.toNat * height.toNat) :
    ∃ x y : Index, x < width ∧ y < height ∧
      (xyToIndex x y (scanLogInit width height buff)).toNat =
        bitmapBits (scanLogSize width height) := by
  have hstale : bitmapBits (scanLogSize width height) < width.toNat * height.toNat := by
    rw [bitmapBits_scanLogSize]
    omega
  have hfits : bitmapBits (scanLogSize width height) < 2 ^ 64 := by
    rw [bitmapBits_scanLogSize]
    omega
  generalize bitmapBits (scanLogSize width height) = n at hstale hfits
  have hpos : 0 < width.toNat := Nat.pos_of_mul_pos_right (Nat.zero_lt_of_lt hlt)
  have hx : n % width.toNat < width.toNat := Nat.mod_lt n hpos
  have hy : n / width.toNat < height.toNat := Nat.div_lt_of_lt_mul hstale
  have hdiv : n / width.toNat * width.toNat + n % width.toNat = n := Nat.div_add_mod' n _
  have hwidth := width.toNat_lt
  have hheight := height.toNat_lt
  have hx64 : (UInt64.ofNat (n % width.toNat)).toNat = n % width.toNat := by
    rw [UInt64.toNat_ofNat', Nat.mod_eq_of_lt (by omega)]
  have hy64 : (UInt64.ofNat (n / width.toNat)).toNat = n / width.toNat := by
    rw [UInt64.toNat_ofNat', Nat.mod_eq_of_lt (by omega)]
  refine ⟨.ofNat (n % width.toNat), .ofNat (n / width.toNat), ?_, ?_, ?_⟩
  · rwa [UInt64.lt_iff_toNat_lt, hx64]
  · rwa [UInt64.lt_iff_toNat_lt, hy64]
  · simp only [xyToIndex, scanLogInit, UInt64.toNat_add, UInt64.toNat_mul, hx64, hy64]
    omega

theorem bits_allOnes (n : ℕ) : bits (fun _ => BitVec.allOnes 32) n = true := by
  rw [bits, BitVec.getLsbD_allOnes]
  simp [Nat.mod_lt]

/-- **The scan log** tells what was set, for every content its buffer had, exactly
when one word holds all the flags. -/
theorem scanLogRecords_iff (width height : Count) :
    ScanLogRecords width height ↔ width.toNat * height.toNat ≤ 32 := by
  refine ⟨fun hrecords => ?_, scanLogRecords_of_le⟩
  by_contra hgt
  obtain ⟨x, y, hx, hy, hindex⟩ :=
    exists_stale (fun _ => BitVec.allOnes 32) (Nat.lt_of_not_le hgt)
  have hget : scanLogGet x y (scanLogInit width height fun _ => BitVec.allOnes 32) = true := by
    rw [scanLogGet_eq, bits_scanLogInit, hindex, bits_allOnes]
    simpa using ⟨hx, hy⟩
  have hlast := ((hrecords (fun _ => BitVec.allOnes 32) [] (by simp) x y).mp hget).2
  simp [lastFlag] at hlast

/-- In the maze of 16 cells by 16, the flags of all rows but the first two are
what the buffer held before. -/
theorem scanLogInit_stale : ¬ScanLogRecords 16 16 := by
  intro hrecords
  have hblank := (hrecords (fun _ => BitVec.allOnes 32) [] (by simp) 0 2).mp (by decide)
  simp [lastFlag] at hblank

end KernelPanic
