import KernelPanic.Utils.Bitmap
import Mathlib.Tactic.Ring

/-!
# KernelPanic.Umouse.Map

The wall store of the maze (`umouse/map.c`): a flag for every wall between two
cells, in two bitmaps that share one buffer.  The border is not stored.

`WallsFaithful` says that the store answers every question as the calls of
`MapSetWall` before it would have it, and never leaves the buffer.  `MapInit`
puts the horizontal walls behind as many words as *they* need, which is where
the vertical ones lie: so it holds only for mazes where that makes no difference
(`wallsFaithful_iff`).
-/

namespace KernelPanic

/-- `enum DIRECTION`. -/
inductive Direction where
  | north
  | east
  | south
  | west
deriving DecidableEq

/-- `struct MAP`, with the memory from `wallBuff` on.  The pointers are word
numbers there. -/
structure Map where
  words : Words
  vWalls : ℕ
  hWalls : ℕ
  height : Count
  width : Count

/-! ## the code -/

/-- `MapBitsNeeded`. -/
def mapBitsNeeded (major minor : Count) : Count := major * (minor - 1)

/-- `MapDimensionSizeNeeded`. -/
def mapDimensionSizeNeeded (major minor : Count) : Count := bitmapSize (mapBitsNeeded major minor)

/-- `MapSizeNeeded`. -/
def mapSizeNeeded (width height : Count) : Count :=
  mapDimensionSizeNeeded width height + mapDimensionSizeNeeded height width

/-- `MapAdjustX`. -/
def mapAdjustX (x : Index) (dir : Direction) : Index := if dir = .east then x + 1 else x

/-- `MapAdjustY`. -/
def mapAdjustY (y : Index) (dir : Direction) : Index := if dir = .north then y + 1 else y

/-- `MapOutOfBoundsMinor`. -/
def mapOutOfBoundsMinor (minor minorSize : Index) : Bool := minor = 0 || minor ≥ minorSize

/-- `MapOutOfBoundsMajor`. -/
def mapOutOfBoundsMajor (major majorSize : Index) : Bool := major ≥ majorSize

/-- `MapGetIndex`. -/
def mapGetIndex (major minorSize minor : Index) : Index := major * (minorSize - 1) + minor - 1

/-- `MapGetFlag`. -/
def mapGetFlag (major majorSize minor minorSize : Index) (words : Words) (walls : ℕ) : Bool :=
  if mapOutOfBoundsMinor minor minorSize || mapOutOfBoundsMajor major majorSize then true
  else bitmapGet words walls (mapGetIndex major minorSize minor)

/-- `MapSetFlag`. -/
def mapSetFlag (major majorSize minor minorSize : Index) (words : Words) (walls : ℕ)
    (state : Bool) : Words :=
  if mapOutOfBoundsMinor minor minorSize || mapOutOfBoundsMajor major majorSize then words
  else
    let index := mapGetIndex major minorSize minor
    if state then bitmapOn words walls index else bitmapOff words walls index

/-- `MapInit`; `none` when it returns false. -/
def mapInit (wallBuff : Words) (buffLen width height : Count) : Option Map :=
  if buffLen ≥ mapSizeNeeded width height then
    some {
      words := clearWords wallBuff 0 buffLen
      vWalls := 0
      hWalls := (mapDimensionSizeNeeded width height).toNat
      height := height
      width := width }
  else none

/-- `MapGetWall`. -/
def mapGetWall (x y : Index) (dir : Direction) (map : Map) : Bool :=
  let x := mapAdjustX x dir
  let y := mapAdjustY y dir
  match dir with
  | .north | .south => mapGetFlag x map.width y map.height map.words map.hWalls
  | .east | .west => mapGetFlag y map.height x map.width map.words map.vWalls

/-- `MapSetWall`. -/
def mapSetWall (x y : Index) (dir : Direction) (state : Bool) (map : Map) : Map :=
  let x := mapAdjustX x dir
  let y := mapAdjustY y dir
  match dir with
  | .north | .south =>
      { map with words := mapSetFlag x map.width y map.height map.words map.hWalls state }
  | .east | .west =>
      { map with words := mapSetFlag y map.height x map.width map.words map.vWalls state }

/-! ## walls -/

/-- A wall between two cells or at the border: the one south or west of the cell
`(x, y)`. -/
inductive Wall where
  | horizontal (x y : ℕ)
  | vertical (x y : ℕ)
deriving DecidableEq

/-- The wall of the cell `(x, y)` that a direction names. -/
def wallOf (x y : Index) : Direction → Wall
  | .north => .horizontal x.toNat (y.toNat + 1)
  | .south => .horizontal x.toNat y.toNat
  | .east => .vertical (x.toNat + 1) y.toNat
  | .west => .vertical x.toNat y.toNat

/-- The wall has a cell of the maze on either side. -/
def Wall.Interior (width height : Count) : Wall → Prop
  | .horizontal x y => x < width.toNat ∧ 0 < y ∧ y < height.toNat
  | .vertical x y => y < height.toNat ∧ 0 < x ∧ x < width.toNat

instance (width height : Count) : (q : Wall) → Decidable (q.Interior width height)
  | .horizontal _ _ => inferInstanceAs (Decidable (_ ∧ _ ∧ _))
  | .vertical _ _ => inferInstanceAs (Decidable (_ ∧ _ ∧ _))

/-- A call of `MapSetWall`. -/
structure WallCall where
  x : Index
  y : Index
  dir : Direction
  state : Bool

def WallCall.wall (c : WallCall) : Wall := wallOf c.x c.y c.dir

/-- The map after the calls. -/
def setWalls (calls : List WallCall) (map : Map) : Map :=
  calls.foldl (fun map c => mapSetWall c.x c.y c.dir c.state map) map

/-- The state given by the last call that named the wall, false if none did. -/
def lastSet (calls : List WallCall) (q : Wall) : Bool :=
  calls.foldl (fun state c => if c.wall = q then c.state else state) false

/-- The word that `MapGetFlag` reads, and `MapSetFlag` reads and writes, if any. -/
def mapFlagWord (major majorSize minor minorSize : Index) (walls : ℕ) : Option ℕ :=
  if mapOutOfBoundsMinor minor minorSize || mapOutOfBoundsMajor major majorSize then none
  else some (bitmapWord walls (mapGetIndex major minorSize minor))

/-- The word that `MapGetWall` reads, and `MapSetWall` reads and writes, if any. -/
def mapWallWord (x y : Index) (dir : Direction) (map : Map) : Option ℕ :=
  let x := mapAdjustX x dir
  let y := mapAdjustY y dir
  match dir with
  | .north | .south => mapFlagWord x map.width y map.height map.hWalls
  | .east | .west => mapFlagWord y map.height x map.width map.vWalls

/-- After any calls of `MapSetWall` on a map just initialised, the next access is
inside the buffer, and `MapGetWall` returns what the last call for the same wall
has set; the border always stands. -/
def WallsFaithful (width height buffLen : Count) : Prop :=
  ∀ wallBuff map, mapInit wallBuff buffLen width height = some map →
    ∀ calls x y dir,
      (∀ word ∈ mapWallWord x y dir (setWalls calls map), word < buffLen.toNat) ∧
      mapGetWall x y dir (setWalls calls map) =
        if (wallOf x y dir).Interior width height then lastSet calls (wallOf x y dir) else true

/-- The walls have different bits, inside the buffer: neither list is too long for
an index, and when there are horizontal walls, the vertical ones end before
them and they before the buffer's end. -/
structure WallsFit (width height buffLen : Count) : Prop where
  vertical : height.toNat * (width.toNat - 1) ≤ 2 ^ 64
  horizontal : width.toNat * (height.toNat - 1) ≤ 2 ^ 64
  verticalEnd : height.toNat * (width.toNat - 1) ≤ 32 * buffLen.toNat
  split : 0 < width.toNat * (height.toNat - 1) →
    height.toNat * (width.toNat - 1) ≤ 32 * (mapDimensionSizeNeeded width height).toNat
  horizontalEnd : 0 < width.toNat * (height.toNat - 1) →
    32 * (mapDimensionSizeNeeded width height).toNat + width.toNat * (height.toNat - 1) ≤
      32 * buffLen.toNat

/-! ## flags -/

variable {width height buffLen : Count} {map : Map} {x y : Index} {dir : Direction} {q q' : Wall}
  {words : Words} {walls : ℕ}

/-- The number of a wall in its list. -/
def wallNumber (major minor minorSize : ℕ) : ℕ := major * (minorSize - 1) + minor - 1

section Flag

variable {major majorSize minor minorSize : Index} {n : ℕ}

/-- The wall has a flag. -/
def InBounds (major majorSize minor minorSize : Index) : Prop :=
  major.toNat < majorSize.toNat ∧ 0 < minor.toNat ∧ minor.toNat < minorSize.toNat

instance : Decidable (InBounds major majorSize minor minorSize) :=
  inferInstanceAs (Decidable (_ ∧ _ ∧ _))

theorem outOfBounds_eq :
    (mapOutOfBoundsMinor minor minorSize || mapOutOfBoundsMajor major majorSize) =
      !decide (InBounds major majorSize minor minorSize) := by
  unfold mapOutOfBoundsMinor mapOutOfBoundsMajor InBounds
  have hzero : minor = 0 ↔ minor.toNat = 0 := UInt64.toNat_inj.symm
  simp only [hzero, ge_iff_le, UInt64.le_iff_toNat_le]
  grind

theorem toNat_mapGetIndex (hin : InBounds major majorSize minor minorSize) :
    (mapGetIndex major minorSize minor).toNat =
      wallNumber major.toNat minor.toNat minorSize.toNat % 2 ^ 64 := by
  obtain ⟨-, hpos, hlt⟩ := hin
  have hsize : (minorSize - 1).toNat = minorSize.toNat - 1 :=
    UInt64.toNat_sub_of_le _ _ (UInt64.le_iff_toNat_le.mpr (by simp; omega))
  unfold mapGetIndex wallNumber
  rw [UInt64.toNat_sub, UInt64.toNat_add, UInt64.toNat_mul, hsize]
  generalize major.toNat * (minorSize.toNat - 1) = row
  have hone : (1 : Index).toNat = 1 := rfl
  omega

theorem mapFlagWord_eq :
    mapFlagWord major majorSize minor minorSize walls =
      if InBounds major majorSize minor minorSize then
        some (bitAt walls (mapGetIndex major minorSize minor) / 32) else none := by
  unfold mapFlagWord
  rw [outOfBounds_eq, bitAt_div]
  split <;> simp_all

theorem mapGetFlag_eq :
    mapGetFlag major majorSize minor minorSize words walls =
      if InBounds major majorSize minor minorSize then
        bits words (bitAt walls (mapGetIndex major minorSize minor)) else true := by
  unfold mapGetFlag
  rw [outOfBounds_eq, bitmapGet_eq]
  split <;> simp_all

theorem bits_mapSetFlag {state : Bool} :
    bits (mapSetFlag major majorSize minor minorSize words walls state) n =
      if InBounds major majorSize minor minorSize ∧
          n = bitAt walls (mapGetIndex major minorSize minor) then state else bits words n := by
  unfold mapSetFlag
  rw [outOfBounds_eq]
  by_cases hin : InBounds major majorSize minor minorSize
  · cases state <;> simp [hin, bits_on, bits_off] <;> grind
  · simp [hin]

end Flag

/-- The bit of an interior wall. -/
def Wall.bit (map : Map) : Wall → ℕ
  | .horizontal x y => 32 * map.hWalls + wallNumber x y map.height.toNat % 2 ^ 64
  | .vertical x y => 32 * map.vWalls + wallNumber y x map.width.toNat % 2 ^ 64

section Flag

variable {major majorSize minor minorSize : Index} {m : ℕ}

/-- A coordinate that wraps around when it is adjusted is out of bounds either
way. -/
theorem inBounds_iff (major majorSize minorSize : Index) (hm : minor.toNat = m % 2 ^ 64) (hle : m ≤ 2 ^ 64) :
    InBounds major majorSize minor minorSize ↔
      major.toNat < majorSize.toNat ∧ 0 < m ∧ m < minorSize.toNat := by
  have hlt := minorSize.toNat_lt
  unfold InBounds
  omega

theorem bitAt_mapGetIndex (walls : ℕ) (major majorSize minorSize : Index) (hm : minor.toNat = m % 2 ^ 64) (hle : m ≤ 2 ^ 64)
    (hin : InBounds major majorSize minor minorSize) :
    bitAt walls (mapGetIndex major minorSize minor) =
      32 * walls + wallNumber major.toNat m minorSize.toNat % 2 ^ 64 := by
  have hlt := minorSize.toNat_lt
  have hm' : minor.toNat = m := by
    have hin' := ((inBounds_iff major majorSize minorSize hm hle).mp hin).2.2
    omega
  rw [bitAt, toNat_mapGetIndex hin, hm']

end Flag

theorem toNat_adjust (i : Index) (b : Prop) [Decidable b] :
    (if b then i + 1 else i).toNat = (i.toNat + if b then 1 else 0) % 2 ^ 64 ∧
      (i.toNat + if b then 1 else 0) ≤ 2 ^ 64 := by
  have hlt := i.toNat_lt
  split
  · exact ⟨UInt64.toNat_add .., hlt⟩
  · exact ⟨(Nat.mod_eq_of_lt hlt).symm, hlt.le⟩

/-- What the code computes for a wall. -/
structure Addressed (x y : Index) (dir : Direction) (map : Map) (q : Wall) : Prop where
  word : mapWallWord x y dir map =
    if q.Interior map.width map.height then some (q.bit map / 32) else none
  get : mapGetWall x y dir map =
    if q.Interior map.width map.height then bits map.words (q.bit map) else true
  set : ∀ state n, bits (mapSetWall x y dir state map).words n =
    if q.Interior map.width map.height ∧ n = q.bit map then state else bits map.words n

/-- **Every direction names its wall**, from either side. -/
theorem addressed (x y : Index) (dir : Direction) (map : Map) :
    Addressed x y dir map (wallOf x y dir) := by
  obtain ⟨hx, hx'⟩ := toNat_adjust x (dir = .east)
  obtain ⟨hy, hy'⟩ := toNat_adjust y (dir = .north)
  have hh := inBounds_iff x map.width map.height hy hy'
  have hv := inBounds_iff y map.height map.width hx hx'
  have hhbit := bitAt_mapGetIndex map.hWalls x map.width map.height hy hy'
  have hvbit := bitAt_mapGetIndex map.vWalls y map.height map.width hx hx'
  cases dir <;> constructor <;>
  simp only [mapWallWord, mapGetWall, mapSetWall, mapFlagWord_eq, mapGetFlag_eq, bits_mapSetFlag,
    mapAdjustX, mapAdjustY, wallOf, Wall.Interior, Wall.bit, reduceCtorEq, ↓reduceIte, Nat.add_zero]
    at hh hv hhbit hvbit ⊢ <;> grind

/-! ## runs of calls -/

/-- `MapSetWall` leaves everything but the buffer as it is. -/
theorem mapSetWall_eq (state : Bool) :
    mapSetWall x y dir state map =
      { map with words := (mapSetWall x y dir state map).words } := by
  cases dir <;> rfl

theorem setWalls_eq (calls : List WallCall) (map : Map) :
    setWalls calls map = { map with words := (setWalls calls map).words } := by
  induction calls generalizing map with
  | nil => rfl
  | cons c calls ih =>
      rw [setWalls, List.foldl_cons]
      refine (ih _).trans ?_
      rw [mapSetWall_eq]
      rfl

/-- A wall that shares its bit with no other has the state last set. -/
theorem bits_setWalls (map : Map) (hq : q.Interior map.width map.height)
    (hinj : ∀ q', q'.Interior map.width map.height → q'.bit map = q.bit map → q' = q)
    (calls : List WallCall) :
    bits (setWalls calls map).words (q.bit map) =
      calls.foldl (fun state c => if c.wall = q then c.state else state)
        (bits map.words (q.bit map)) := by
  induction calls generalizing map with
  | nil => rfl
  | cons c calls ih =>
      have hset := (addressed c.x c.y c.dir map).set c.state
        (q.bit map)
      have hiff : c.wall.Interior map.width map.height ∧ q.bit map = c.wall.bit map ↔ c.wall = q := by
        constructor
        · exact fun h => hinj _ h.1 h.2.symm
        · rintro rfl
          exact ⟨hq, rfl⟩
      rw [show wallOf c.x c.y c.dir = c.wall from rfl, if_congr hiff rfl rfl] at hset
      rw [List.foldl_cons, ← hset, setWalls, List.foldl_cons, mapSetWall_eq]
      exact ih _ hq hinj

/-- The map of a maze before any wall is set. -/
def blankMap (width height : Count) : Map :=
  ⟨fun _ => 0, 0, (mapDimensionSizeNeeded width height).toNat, height, width⟩

/-- Different walls have different bits, and all are in the buffer. -/
structure BitsApart (width height buffLen : Count) : Prop where
  inside : ∀ q : Wall, q.Interior width height →
    q.bit (blankMap width height) / 32 < buffLen.toNat
  apart : ∀ q q' : Wall, q.Interior width height → q'.Interior width height →
    q.bit (blankMap width height) = q'.bit (blankMap width height) → q = q'

/-- Every interior wall has a name. -/
theorem exists_wallOf (hq : q.Interior width height) : ∃ x y dir, wallOf x y dir = q := by
  have hw := width.toNat_lt
  have hh := height.toNat_lt
  cases q with
  | horizontal x y =>
      obtain ⟨hx, -, hy⟩ := hq
      refine ⟨.ofNat x, .ofNat y, .south, ?_⟩
      rw [wallOf, UInt64.toNat_ofNat_of_lt' (hx.trans hw), UInt64.toNat_ofNat_of_lt' (hy.trans hh)]
  | vertical x y =>
      obtain ⟨hy, -, hx⟩ := hq
      refine ⟨.ofNat x, .ofNat y, .west, ?_⟩
      rw [wallOf, UInt64.toNat_ofNat_of_lt' (hx.trans hw), UInt64.toNat_ofNat_of_lt' (hy.trans hh)]

theorem BitsApart.faithful (h : BitsApart width height buffLen) :
    WallsFaithful width height buffLen := by
  intro wallBuff map hmap calls x y dir
  obtain ⟨-, heq⟩ := Option.ite_none_right_eq_some.mp hmap
  cases heq
  have hacc := addressed x y dir (setWalls calls ⟨clearWords wallBuff 0 buffLen, 0,
    (mapDimensionSizeNeeded width height).toNat, height, width⟩)
  rw [hacc.word, hacc.get, setWalls_eq]
  dsimp only
  by_cases hq : (wallOf x y dir).Interior width height
  · rw [if_pos hq, if_pos hq, if_pos hq]
    have hin := h.inside _ hq
    have hbits := bits_setWalls ⟨clearWords wallBuff 0 buffLen, 0,
      (mapDimensionSizeNeeded width height).toNat, height, width⟩ hq
      (fun q' hq' heq => h.apart q' _ hq' hq heq) calls
    have hzero : bits (clearWords wallBuff 0 buffLen) ((wallOf x y dir).bit
        (blankMap width height)) = false := by
      unfold bits
      rw [clearWords_apply, if_pos ⟨Nat.zero_le _, by omega⟩]
      simp
    refine ⟨fun word hword => ?_, ?_⟩
    · cases hword
      exact hin
    · refine hbits.trans ?_
      rw [lastSet, ← hzero]
      rfl
  · rw [if_neg hq, if_neg hq, if_neg hq]
    exact ⟨fun word hword => absurd hword (by simp), rfl⟩

theorem WallsFaithful.apart (hlen : mapSizeNeeded width height ≤ buffLen)
    (h : WallsFaithful width height buffLen) : BitsApart width height buffLen := by
  have hmap : mapInit (fun _ => 0) buffLen width height =
      some ⟨clearWords (fun _ => 0) 0 buffLen, 0, (mapDimensionSizeNeeded width height).toNat,
        height, width⟩ := if_pos hlen
  constructor
  · intro q hq
    obtain ⟨x, y, dir, rfl⟩ := exists_wallOf hq
    have hword := (h _ _ hmap [] x y dir).1
    rw [(addressed ..).word, setWalls_eq] at hword
    dsimp only at hword
    rw [if_pos hq] at hword
    exact hword _ rfl
  · intro q q' hq hq' hbit
    obtain ⟨x, y, dir, rfl⟩ := exists_wallOf hq
    obtain ⟨x', y', dir', rfl⟩ := exists_wallOf hq'
    -- the one is set, and the other is asked for
    have hget := (h _ _ hmap [⟨x, y, dir, true⟩] x' y' dir').2
    rw [(addressed ..).get, setWalls_eq] at hget
    dsimp only at hget
    rw [if_pos hq', if_pos hq'] at hget
    have hset := (addressed x y dir ⟨clearWords (fun _ => 0) 0 buffLen, 0,
      (mapDimensionSizeNeeded width height).toNat, height, width⟩).set true
      ((wallOf x' y' dir').bit (blankMap width height))
    rw [if_pos ⟨hq, hbit.symm⟩] at hset
    have hlast := hset.symm.trans hget
    by_contra hne
    simp [lastSet, WallCall.wall, hne] at hlast

/-! ## wall numbers -/

section Number

variable {M m a b a' b' n : ℕ}

theorem wallNumber_eq (hb : 0 < b) : wallNumber a b m = (m - 1) * a + (b - 1) := by
  rw [wallNumber, Nat.mul_comm]
  omega

theorem wallNumber_lt (ha : a < M) (hb : 0 < b) (hbm : b < m) :
    wallNumber a b m < M * (m - 1) := by
  rw [wallNumber_eq hb, Nat.mul_comm M]
  calc (m - 1) * a + (b - 1) < (m - 1) * a + (m - 1) := by omega
    _ = (m - 1) * (a + 1) := (Nat.mul_succ ..).symm
    _ ≤ (m - 1) * M := Nat.mul_le_mul_left _ ha

theorem wallNumber_inj (hb : 0 < b) (hbm : b < m) (hb' : 0 < b') (hbm' : b' < m)
    (h : wallNumber a b m = wallNumber a' b' m) : a = a' ∧ b = b' := by
  rw [wallNumber_eq hb, wallNumber_eq hb'] at h
  have hpos : 0 < m - 1 := by omega
  have hdiv := congrArg (· / (m - 1)) h
  simp only [Nat.mul_add_div hpos, Nat.div_eq_of_lt (show b - 1 < m - 1 by omega),
    Nat.div_eq_of_lt (show b' - 1 < m - 1 by omega), Nat.add_zero] at hdiv
  subst hdiv
  omega

theorem exists_wallNumber (hn : n < M * (m - 1)) :
    ∃ a b, a < M ∧ 0 < b ∧ b < m ∧ wallNumber a b m = n := by
  have hpos : 0 < m - 1 := Nat.pos_of_ne_zero fun h0 => by simp [h0] at hn
  have hmod := Nat.mod_lt n hpos
  refine ⟨n / (m - 1), n % (m - 1) + 1, Nat.div_lt_of_lt_mul (Nat.mul_comm M _ ▸ hn), by omega,
    by omega, ?_⟩
  rw [wallNumber_eq (by omega)]
  exact Nat.div_add_mod n (m - 1)

end Number

/-- The interior vertical walls are numbered from 0 on, without gaps. -/
theorem vertical_number (width height : Count) {n : ℕ}
    (hn : n < height.toNat * (width.toNat - 1)) :
    ∃ q : Wall, q.Interior width height ∧ q.bit (blankMap width height) = n % 2 ^ 64 ∧
      ∃ x y, q = .vertical x y ∧ wallNumber y x width.toNat = n := by
  obtain ⟨y, x, hy, hx, hxw, rfl⟩ := exists_wallNumber hn
  exact ⟨.vertical x y, ⟨hy, hx, hxw⟩, by simp [Wall.bit, blankMap], x, y, rfl, rfl⟩

/-- So are the horizontal ones. -/
theorem horizontal_number (width height : Count) {n : ℕ}
    (hn : n < width.toNat * (height.toNat - 1)) :
    ∃ q : Wall, q.Interior width height ∧ q.bit (blankMap width height) =
        32 * (mapDimensionSizeNeeded width height).toNat + n % 2 ^ 64 ∧
      ∃ x y, q = .horizontal x y ∧ wallNumber x y height.toNat = n := by
  obtain ⟨x, y, hx, hy, hyh, rfl⟩ := exists_wallNumber hn
  exact ⟨.horizontal x y, ⟨hx, hy, hyh⟩, rfl, x, y, rfl, rfl⟩

/-- The flag of a vertical wall has the wall's number. -/
theorem WallsFit.bit_vertical (h : WallsFit width height buffLen) {x y : ℕ}
    (hq : (Wall.vertical x y).Interior width height) :
    (Wall.vertical x y).bit (blankMap width height) = wallNumber y x width.toNat ∧
      wallNumber y x width.toNat < height.toNat * (width.toNat - 1) := by
  obtain ⟨hy, hx, hxw⟩ := hq
  have hlt := wallNumber_lt hy hx hxw
  have hfit := h.vertical
  simp only [Wall.bit, blankMap]
  omega

/-- The flag of a horizontal wall has the wall's number, counted from the word where
`MapInit` has put the list. -/
theorem WallsFit.bit_horizontal (h : WallsFit width height buffLen) {x y : ℕ}
    (hq : (Wall.horizontal x y).Interior width height) :
    (Wall.horizontal x y).bit (blankMap width height) =
        32 * (mapDimensionSizeNeeded width height).toNat + wallNumber x y height.toNat ∧
      wallNumber x y height.toNat < width.toNat * (height.toNat - 1) := by
  obtain ⟨hx, hy, hyh⟩ := hq
  have hlt := wallNumber_lt hx hy hyh
  have hfit := h.horizontal
  simp only [Wall.bit, blankMap]
  omega

/-- The two lists do not overlap. -/
theorem WallsFit.bit_ne (h : WallsFit width height buffLen) {x y x' y' : ℕ}
    (hq : (Wall.vertical x y).Interior width height)
    (hq' : (Wall.horizontal x' y').Interior width height) :
    (Wall.vertical x y).bit (blankMap width height) ≠
      (Wall.horizontal x' y').bit (blankMap width height) := by
  obtain ⟨hbit, hlt⟩ := h.bit_vertical hq
  obtain ⟨hbit', hlt'⟩ := h.bit_horizontal hq'
  have hsplit := h.split (by omega)
  omega

theorem WallsFit.apart (h : WallsFit width height buffLen) : BitsApart width height buffLen := by
  constructor
  · intro q hq
    cases q with
    | horizontal x y =>
        obtain ⟨hbit, hlt⟩ := h.bit_horizontal hq
        have hend := h.horizontalEnd (by omega)
        omega
    | vertical x y =>
        obtain ⟨hbit, hlt⟩ := h.bit_vertical hq
        have hend := h.verticalEnd
        omega
  · intro q q' hq hq' heq
    cases q with
    | horizontal x y =>
        cases q' with
        | horizontal x' y' =>
            have hbit := (h.bit_horizontal hq).1
            have hbit' := (h.bit_horizontal hq').1
            have hnumber : wallNumber x y height.toNat = wallNumber x' y' height.toNat := by omega
            obtain ⟨rfl, rfl⟩ := wallNumber_inj hq.2.1 hq.2.2 hq'.2.1 hq'.2.2 hnumber
            rfl
        | vertical x' y' => exact absurd heq.symm (h.bit_ne hq' hq)
    | vertical x y =>
        cases q' with
        | horizontal x' y' => exact absurd heq (h.bit_ne hq hq')
        | vertical x' y' =>
            have hbit := (h.bit_vertical hq).1
            have hbit' := (h.bit_vertical hq').1
            have hnumber : wallNumber y x width.toNat = wallNumber y' x' width.toNat := by omega
            obtain ⟨rfl, rfl⟩ := wallNumber_inj hq.2.1 hq.2.2 hq'.2.1 hq'.2.2 hnumber
            rfl

theorem BitsApart.fit (h : BitsApart width height buffLen) : WallsFit width height buffLen := by
  -- the wall after the last index has the bit of the first
  have hvertical : height.toNat * (width.toNat - 1) ≤ 2 ^ 64 := by
    by_contra hgt
    obtain ⟨q, hq, hbit, x, y, rfl, hn⟩ := vertical_number width height (n := 0) (by omega)
    obtain ⟨q', hq', hbit', x', y', rfl, hn'⟩ := vertical_number width height (n := 2 ^ 64) (by omega)
    cases h.apart _ _ hq hq' (by omega)
    omega
  have hhorizontal : width.toNat * (height.toNat - 1) ≤ 2 ^ 64 := by
    by_contra hgt
    obtain ⟨q, hq, hbit, x, y, rfl, hn⟩ := horizontal_number width height (n := 0) (by omega)
    obtain ⟨q', hq', hbit', x', y', rfl, hn'⟩ := horizontal_number width height (n := 2 ^ 64) (by omega)
    cases h.apart _ _ hq hq' (by omega)
    omega
  refine ⟨hvertical, hhorizontal, ?_, fun hpos => ?_, fun hpos => ?_⟩
  · by_contra hgt
    obtain ⟨q, hq, hbit, -⟩ := vertical_number width height
      (n := height.toNat * (width.toNat - 1) - 1) (by omega)
    have hin := h.inside q hq
    omega
  · by_contra hgt
    obtain ⟨q, hq, hbit, x, y, rfl, -⟩ := vertical_number width height
      (n := 32 * (mapDimensionSizeNeeded width height).toNat) (by omega)
    obtain ⟨q', hq', hbit', x', y', rfl, -⟩ := horizontal_number width height hpos
    cases h.apart _ _ hq hq' (by omega)
  · by_contra hgt
    obtain ⟨q, hq, hbit, -⟩ := horizontal_number width height
      (n := width.toNat * (height.toNat - 1) - 1) (by omega)
    have hin := h.inside q hq
    omega

/-- **The wall store is faithful exactly for the mazes whose walls fit.** -/
theorem wallsFaithful_iff (width height buffLen : Count)
    (hlen : mapSizeNeeded width height ≤ buffLen) :
    WallsFaithful width height buffLen ↔ WallsFit width height buffLen :=
  ⟨fun h => (h.apart hlen).fit, fun h => h.apart.faithful⟩

/-- A maze of twelve columns and three rows: its 33 vertical walls need a word
more than its 24 horizontal ones, so the last vertical wall and the first
horizontal one share a bit. -/
theorem wideMaze_unfaithful : mapSizeNeeded 12 3 = 3 ∧ ¬ WallsFaithful 12 3 3 := by
  refine ⟨by decide, fun h => ?_⟩
  have hget := (h (fun _ => 0) _ rfl [⟨0, 0, .north, true⟩] 11 2 .west).2
  revert hget
  decide

theorem wallsFaithful_iff_sample : WallsFaithful 16 16 16 := by
  refine (wallsFaithful_iff 16 16 16 (by decide)).mpr ⟨?_, ?_, ?_, fun _ => ?_, fun _ => ?_⟩ <;>
  decide

end KernelPanic
