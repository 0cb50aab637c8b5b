import KernelPanic.Umouse.FloodFill.Distance
import KernelPanic.Umouse.SubMove.Safety

/-!
# KernelPanic.Umouse.SubMove.Place

The moves of the mouse, in cells: it is in the middle of a cell (`At`) or on an
edge and about to enter one (`Entering`), and what `SubMoveLegal` asks of a move
is asked of that cell and of the next one.
-/

namespace KernelPanic

variable {map : Map} {c d : Cell} {dir : Direction} {n : Count} {m : Mouse}

/-- The cell is in the square maze. -/
def Inside (n : Count) (c : Cell) : Prop := c.1 < n ∧ c.2 < n

/-- A map of the square maze whose cells can be counted. -/
structure Maze (n : Count) (map : Map) : Prop where
  width : map.width = n
  height : map.height = n
  fits : n.toNat * n.toNat < 2 ^ 64

/-- A wall that is open is no border of the maze. -/
theorem interior_of_open (hopen : mapGetWall c.1 c.2 dir map = false) :
    (wallOf c.1 c.2 dir).Interior map.width map.height := by
  by_contra hout
  rw [(addressed ..).get, if_neg hout] at hopen
  cases hopen

/-- An open wall is open from the other side as well. -/
theorem open_back (hopen : mapGetWall c.1 c.2 dir map = false) :
    mapGetWall (beyond c dir).1 (beyond c dir).2 dir.opposite map = false := by
  rw [← hopen, (addressed ..).get, (addressed ..).get, (wallOf_beyond (interior_of_open hopen)).1]

/-- The same in the square maze. -/
theorem Maze.interior (h : Maze n map) (hopen : mapGetWall c.1 c.2 dir map = false) :
    (wallOf c.1 c.2 dir).Interior n n := by
  have hin := interior_of_open hopen
  rwa [h.width, h.height] at hin

/-- Behind an open wall there is a cell of the maze. -/
theorem Maze.inside (h : Maze n map) (hopen : mapGetWall c.1 c.2 dir map = false) :
    Inside n (beyond c dir) := by
  have hin := (wallOf_beyond (interior_of_open hopen)).2
  rwa [h.width, h.height] at hin

/-- The cell two half cells ahead. -/
def scanCell (m : Mouse) : Cell :=
  let scan := subMoveTranslate m.x m.y m.dir 2
  (scan.1 / 2, scan.2 / 2)

/-! ## where the mouse is -/

/-- The mouse is in the middle of the cell. -/
def At (m : Mouse) (c : Cell) : Prop :=
  m.x.toNat = 2 * c.1.toNat + 1 ∧ m.y.toNat = 2 * c.2.toNat + 1

/-- The mouse is on the edge of the cell, and looks into it. -/
def Entering (m : Mouse) (c : Cell) : Prop := At m.translate c

/-- In the middle of a cell both coordinates are odd. -/
theorem At.centered (h : At m c) : m.Centered := by
  obtain ⟨hx, hy⟩ := h
  rw [Mouse.Centered, odd_iff, odd_iff]
  omega

/-- Half the coordinates are the cell. -/
theorem At.half (h : At m c) : m.x / 2 = c.1 ∧ m.y / 2 = c.2 := by
  obtain ⟨hx, hy⟩ := h
  have htwo : (2 : Index).toNat = 2 := rfl
  simp only [← UInt64.toNat_inj, UInt64.toNat_div, htwo]
  omega

theorem At.isCentered (h : At m c) : isCentered m.x m.y = true := isCentered_iff.mpr h.centered

/-- The cell is found, whichever way the mouse looks. -/
theorem At.getCell (h : At m c) (dir : Direction) : getCell m.x m.y dir = c := by
  rw [KernelPanic.getCell, if_pos h.isCentered, h.half.1, h.half.2]

/-- It is the cell the mouse is in. -/
theorem At.cellOf (h : At m c) : cellOf m = c := by
  obtain ⟨hx, hy⟩ := h.centered
  simp [KernelPanic.cellOf, hx, hy, h.half]

/-- `SubMoveTranslate`, in natural numbers. -/
theorem toNat_translate (m : Mouse) : (m.dir = .north ∧ m.translate.x.toNat = m.x.toNat ∧
      m.translate.y.toNat = (m.y.toNat + 1) % 2 ^ 64) ∨
    (m.dir = .east ∧ m.translate.x.toNat = (m.x.toNat + 1) % 2 ^ 64 ∧
      m.translate.y.toNat = m.y.toNat) ∨
    (m.dir = .south ∧ m.translate.x.toNat = m.x.toNat ∧
      m.translate.y.toNat = (2 ^ 64 - 1 + m.y.toNat) % 2 ^ 64) ∨
    (m.dir = .west ∧ m.translate.x.toNat = (2 ^ 64 - 1 + m.x.toNat) % 2 ^ 64 ∧
      m.translate.y.toNat = m.y.toNat) := by
  have hone : (1 : Index).toNat = 1 := rfl
  cases hdir : m.dir <;>
  simp [Mouse.translate, subMoveTranslate, hdir, UInt64.toNat_add, UInt64.toNat_sub, hone]

/-- A maze whose cells can be counted is less than 2^32 cells wide. -/
theorem side_lt (hfits : n.toNat * n.toNat < 2 ^ 64) : n.toNat < 2 ^ 32 := by
  by_contra hge
  have hsquare := Nat.mul_le_mul (not_lt.mp hge) (not_lt.mp hge)
  omega

/-- Coordinates that can be doubled. -/
def Small (c : Cell) : Prop := c.1.toNat < 2 ^ 32 ∧ c.2.toNat < 2 ^ 32

/-- The coordinates of its cells can be doubled. -/
theorem Inside.small (hc : Inside n c) (hfits : n.toNat * n.toNat < 2 ^ 64) : Small c := by
  have hside := side_lt hfits
  exact ⟨(UInt64.lt_iff_toNat_lt.mp hc.1).trans hside, (UInt64.lt_iff_toNat_lt.mp hc.2).trans hside⟩

/-- From the middle of a cell, an edge of it is ahead. -/
theorem At.wallOnEdge_translate (h : At m c) (hc : Small c) (map : Map) :
    wallOnEdge m.translate map = mapGetWall c.1 c.2 m.dir map := by
  obtain ⟨hx, hy⟩ := h
  obtain ⟨hcx, hcy⟩ := hc
  have htwo : (2 : Index).toNat = 2 := rfl
  unfold wallOnEdge
  rw [(addressed ..).get, (addressed ..).get]
  suffices hsame : wallOf (m.translate.x / 2) (m.translate.y / 2)
      (if m.translate.x % 2 = 0 then .west else .south) = wallOf c.1 c.2 m.dir by rw [hsame]
  obtain ⟨hdir, hx', hy'⟩ | ⟨hdir, hx', hy'⟩ | ⟨hdir, hx', hy'⟩ | ⟨hdir, hx', hy'⟩ :=
    toNat_translate m
  · rw [hdir, if_neg (by rw [even_iff]; omega)]
    simp only [wallOf, UInt64.toNat_div, htwo, Wall.horizontal.injEq]
    omega
  · rw [hdir, if_pos (by rw [even_iff]; omega)]
    simp only [wallOf, UInt64.toNat_div, htwo, Wall.vertical.injEq]
    omega
  · rw [hdir, if_neg (by rw [even_iff]; omega)]
    simp only [wallOf, UInt64.toNat_div, htwo, Wall.horizontal.injEq]
    omega
  · rw [hdir, if_pos (by rw [even_iff]; omega)]
    simp only [wallOf, UInt64.toNat_div, htwo, Wall.vertical.injEq]
    omega

/-- Through an interior wall the next cell is ahead. -/
theorem At.entering (h : At m c) (hfits : n.toNat * n.toNat < 2 ^ 64)
    (hin : (wallOf c.1 c.2 m.dir).Interior n n) : Entering m.translate (beyond c m.dir) := by
  obtain ⟨hx, hy⟩ := h
  have hside := side_lt hfits
  have hone : (1 : Index).toNat = 1 := rfl
  have hdir' : m.translate.dir = m.dir := rfl
  unfold Entering At
  have htwice := toNat_translate m.translate
  rw [hdir'] at htwice
  obtain ⟨hdir, hx', hy'⟩ | ⟨hdir, hx', hy'⟩ | ⟨hdir, hx', hy'⟩ | ⟨hdir, hx', hy'⟩ :=
    toNat_translate m <;>
  simp only [hdir, wallOf, Wall.Interior, true_and, reduceCtorEq, false_and, or_false, false_or]
    at hin htwice <;>
  simp only [hdir, beyond, htwice, UInt64.add_zero, UInt64.toNat_add, UInt64.toNat_sub, hone] <;>
  omega

/-- On an edge one coordinate is odd, the one across the way. -/
theorem Entering.parity (h : Entering m c) : Parity m := by
  obtain ⟨hx, hy⟩ := h
  have hltx := m.x.toNat_lt
  have hlty := m.y.toNat_lt
  constructor <;> rw [even_iff] <;> intro heven <;>
  obtain ⟨hdir, hx', hy'⟩ | ⟨hdir, hx', hy'⟩ | ⟨hdir, hx', hy'⟩ | ⟨hdir, hx', hy'⟩ :=
    toNat_translate m <;>
  simp only [hdir, reduceCtorEq, or_true, or_false] <;> omega

/-- An edge is no middle. -/
theorem Entering.not_centered (h : Entering m c) : ¬ m.Centered := by
  intro hm
  exact (h.parity.centered_translate.mp (At.centered h)) hm

/-- The cell found is the one ahead. -/
theorem Entering.getCell (h : Entering m c) : getCell m.x m.y m.dir = c := by
  have hcell := At.getCell h m.dir
  have hedge : ¬ isCentered m.x m.y = true := isCentered_iff.not.mpr h.not_centered
  rw [KernelPanic.getCell, if_neg hedge]
  exact Prod.ext (At.half h).1 (At.half h).2

/-- It counts as the cell the mouse is in. -/
theorem Entering.cellOf (h : Entering m c) (hc : Small c) : cellOf m = c := by
  obtain ⟨hx, hy⟩ := h
  obtain ⟨hcx, hcy⟩ := hc
  have hltx := m.x.toNat_lt
  have hlty := m.y.toNat_lt
  have hone : (1 : Index).toNat = 1 := rfl
  have htwo : (2 : Index).toNat = 2 := rfl
  unfold KernelPanic.cellOf
  simp only [even_iff]
  obtain ⟨hdir, hx', hy'⟩ | ⟨hdir, hx', hy'⟩ | ⟨hdir, hx', hy'⟩ | ⟨hdir, hx', hy'⟩ :=
    toNat_translate m
  all_goals
    refine Prod.ext ?_ ?_ <;>
    simp only [hdir, reduceCtorEq, and_false, and_true, ↓reduceIte] <;>
    (try rw [if_pos (by omega)]) <;>
    simp only [← UInt64.toNat_inj, UInt64.toNat_sub, UInt64.toNat_div, hone, htwo] <;> omega

/-- The wall of the edge is the one behind, as seen from the cell. -/
theorem Entering.wallOnEdge (h : Entering m c) (hc : Small c) (map : Map) :
    wallOnEdge m map = mapGetWall c.1 c.2 m.dir.opposite map := by
  obtain ⟨hx, hy⟩ := h
  obtain ⟨hcx, hcy⟩ := hc
  have hltx := m.x.toNat_lt
  have hlty := m.y.toNat_lt
  have htwo : (2 : Index).toNat = 2 := rfl
  unfold KernelPanic.wallOnEdge
  rw [(addressed ..).get, (addressed ..).get]
  suffices hsame : wallOf (m.x / 2) (m.y / 2) (if m.x % 2 = 0 then .west else .south) =
      wallOf c.1 c.2 m.dir.opposite by rw [hsame]
  obtain ⟨hdir, hx', hy'⟩ | ⟨hdir, hx', hy'⟩ | ⟨hdir, hx', hy'⟩ | ⟨hdir, hx', hy'⟩ :=
    toNat_translate m
  · rw [hdir, if_neg (by rw [even_iff]; omega)]
    simp only [wallOf, Direction.opposite, UInt64.toNat_div, htwo, Wall.horizontal.injEq]
    omega
  · rw [hdir, if_pos (by rw [even_iff]; omega)]
    simp only [wallOf, Direction.opposite, UInt64.toNat_div, htwo, Wall.vertical.injEq]
    omega
  · rw [hdir, if_neg (by rw [even_iff]; omega)]
    simp only [wallOf, Direction.opposite, UInt64.toNat_div, htwo, Wall.horizontal.injEq]
    omega
  · rw [hdir, if_pos (by rw [even_iff]; omega)]
    simp only [wallOf, Direction.opposite, UInt64.toNat_div, htwo, Wall.vertical.injEq]
    omega

/-- Two half cells ahead is the middle of the next cell. -/
theorem At.scanCell (h : At m c) (hfits : n.toNat * n.toNat < 2 ^ 64)
    (hin : (wallOf c.1 c.2 m.dir).Interior n n) : scanCell m = beyond c m.dir := by
  obtain ⟨hx, hy⟩ := h
  have hside := side_lt hfits
  have hone : (1 : Index).toNat = 1 := rfl
  have htwo : (2 : Index).toNat = 2 := rfl
  unfold KernelPanic.scanCell
  cases hdir : m.dir <;> simp only [hdir, wallOf, Wall.Interior] at hin <;>
  refine Prod.ext ?_ ?_ <;>
  simp only [subMoveTranslate, beyond, UInt64.add_zero, ← UInt64.toNat_inj, UInt64.toNat_add,
    UInt64.toNat_sub, UInt64.toNat_div, hone, htwo] <;>
  omega

/-! ## the checks of a move -/

/-- The value of the cell. -/
def level (m : FloodMap) (c : Cell) : ℕ := (floodFillGet c.1 c.2 m).toNat

variable {move : SubMove} {w : World} {angle : Angle} {b : Bool}

theorem moveEndInScanned_eq (m : Mouse) (scan : ScanLog) : moveEndInScanned m.x m.y m.dir scan =
    scanLogGet (getCell m.x m.y m.dir).1 (getCell m.x m.y m.dir).2 scan := rfl

/-- What the moves that drive look at where they end. -/
def SubMove.drives (move : SubMove) : Prop :=
  move = .start ∨ move = .stop ∨ move = .forward ∨ move = .integrateRight ∨ move = .integrateLeft

/-- A drive that ends on the edge needs it open. -/
theorem Entering.endOnWall (h : Entering m c) (hc : Small c) (map : Map) (hmove : move.drives) :
    moveEndOnWall m.x m.y map move = !mapGetWall c.1 c.2 m.dir.opposite map := by
  rw [← h.wallOnEdge hc]
  have hedge := h.not_centered
  have hpeg := h.parity.not_peg
  unfold Mouse.Centered at hedge
  unfold moveEndOnWall KernelPanic.wallOnEdge
  simp only [← not_odd] at hpeg ⊢
  obtain rfl | rfl | rfl | rfl | rfl := hmove <;> grind

/-- An edge is no peg. -/
theorem Entering.endOnPeg (h : Entering m c) : moveEndOnPeg m.x m.y = true := by
  rw [moveEndOnPeg, if_neg (by simpa using h.parity.not_peg)]

/-- The cell ahead must have been scanned. -/
theorem Entering.endInScanned (h : Entering m c) (scan : ScanLog) :
    moveEndInScanned m.x m.y m.dir scan = scanLogGet c.1 c.2 scan := by
  rw [moveEndInScanned_eq, h.getCell]

/-- The next cell of a drive is the one ahead, so this asks no more. -/
theorem Entering.nextScanned (h : Entering m c) (scan : ScanLog) (hmove : move.drives)
    (hscan : scanLogGet c.1 c.2 scan = true) : moveNextScanned m.x m.y m.dir scan move = true := by
  have hnext : scanLogGet (KernelPanic.getCell m.translate.x m.translate.y m.dir).1
      (KernelPanic.getCell m.translate.x m.translate.y m.dir).2 scan = true := by
    rwa [At.getCell h]
  obtain rfl | rfl | rfl | rfl | rfl := hmove
  · rfl
  · rfl
  · exact hnext
  · exact hnext
  · exact hnext

/-- What is ahead of an edge is not looked at. -/
theorem Entering.endFacingWall (h : Entering m c) (map : Map) :
    moveEndFacingWall m.x m.y m.dir map move = true := by
  have hedge : isCentered m.x m.y = false :=
    Bool.eq_false_iff.mpr (isCentered_iff.not.mpr h.not_centered)
  cases move <;> simp [moveEndFacingWall, hedge]

/-- There is no wall in the middle of a cell. -/
theorem At.endOnWall (h : At m c) (map : Map) : moveEndOnWall m.x m.y map move = true := by
  obtain ⟨hx, hy⟩ := h.centered
  cases move <;> simp [moveEndOnWall, hx, hy]

/-- There is no peg in the middle of a cell. -/
theorem At.endOnPeg (h : At m c) : moveEndOnPeg m.x m.y = true := by
  obtain ⟨hx, hy⟩ := h.centered
  simp [moveEndOnPeg, ← not_odd, hx]

/-- The cell itself must have been scanned. -/
theorem At.endInScanned (h : At m c) (scan : ScanLog) :
    moveEndInScanned m.x m.y m.dir scan = scanLogGet c.1 c.2 scan := by
  rw [moveEndInScanned_eq, h.getCell]

/-- The moves that look at the wall ahead of the cell where they end. -/
def SubMove.faces (move : SubMove) : Prop :=
  move = .forward ∨ move = .turnRight ∨ move = .turnLeft ∨ move = .turnAround

/-- The wall ahead must be open. -/
theorem At.endFacingWall (h : At m c) (map : Map) (hmove : move.faces) :
    moveEndFacingWall m.x m.y m.dir map move = !mapGetWall c.1 c.2 m.dir map := by
  obtain rfl | rfl | rfl | rfl := hmove <;>
  simp [moveEndFacingWall, h.isCentered, h.half]

/-- The next cell must have been scanned. -/
theorem At.nextScanned (h : At m c) (hfits : n.toNat * n.toNat < 2 ^ 64)
    (hin : (wallOf c.1 c.2 m.dir).Interior n n) (scan : ScanLog) :
    moveNextScanned m.x m.y m.dir scan .forward =
      scanLogGet (beyond c m.dir).1 (beyond c m.dir).2 scan := by
  have hcell := (h.entering hfits hin).getCell
  show scanLogGet (KernelPanic.getCell m.translate.x m.translate.y m.translate.dir).1
    (KernelPanic.getCell m.translate.x m.translate.y m.translate.dir).2 scan = _
  rw [hcell]

/-- Flood values are compared as numbers. -/
theorem level_lt {flood : FloodMap} : floodFillGet c.1 c.2 flood < floodFillGet d.1 d.2 flood ↔
    level flood c < level flood d := UInt8.lt_iff_toNat_lt

/-- After a turn the next cell must be nearer to the destination. -/
theorem At.nextLess (h : At m c) (hfits : n.toNat * n.toNat < 2 ^ 64)
    (hin : (wallOf c.1 c.2 m.dir).Interior n n) (flood : FloodMap)
    (hmove : move = .turnRight ∨ move = .turnLeft ∨ move = .turnAround) :
    moveNextLessFloodFill m.x m.y m.dir flood move = true ↔
      level flood (beyond c m.dir) < level flood c := by
  have hcell := h.scanCell hfits hin
  rw [← level_lt, ← hcell, ← h.half.1, ← h.half.2]
  obtain rfl | rfl | rfl := hmove <;> exact decide_eq_true_iff

/-- So must the cell ahead for a drive straight on. -/
theorem straightAway_iff {x y : Index} {dir : Direction} (hcell : getCell x y dir = c)
    (flood : FloodMap) : moveStartStraightAway x y dir flood .forward = true ↔
      level flood (beyond c dir) < level flood c := by
  rw [← level_lt]
  unfold moveStartStraightAway
  rw [hcell]
  cases dir <;> simp only [beyond, subMoveTranslate, UInt64.add_zero] <;> exact decide_eq_true_iff

/-! ## legal moves -/

/-- What `SubMoveLegal` checks. -/
structure Legal (m : Mouse) (move : SubMove) (w : World) : Prop where
  starts : Starts m move
  straightAway : moveStartStraightAway m.x m.y m.dir w.flood move = true
  endOnWall : moveEndOnWall (subMoveApply m move).x (subMoveApply m move).y w.map move = true
  endOnPeg : moveEndOnPeg (subMoveApply m move).x (subMoveApply m move).y = true
  endInScanned : moveEndInScanned (subMoveApply m move).x (subMoveApply m move).y
    (subMoveApply m move).dir w.scan = true
  endFacingWall : moveEndFacingWall (subMoveApply m move).x (subMoveApply m move).y
    (subMoveApply m move).dir w.map move = true
  nextScanned : moveNextScanned (subMoveApply m move).x (subMoveApply m move).y
    (subMoveApply m move).dir w.scan move = true
  nextLess : moveNextLessFloodFill (subMoveApply m move).x (subMoveApply m move).y
    (subMoveApply m move).dir w.flood move = true

/-- `SubMoveLegal` makes these checks and no others. -/
theorem legal_iff : subMoveLegal m move w = true ↔ Legal m move w := by
  simp only [subMoveLegal, Bool.and_eq_true]
  constructor
  · rintro ⟨⟨⟨⟨⟨⟨⟨⟨⟨h1, h2⟩, h3⟩, h4⟩, h5⟩, h6⟩, h7⟩, h8⟩, h9⟩, h10⟩
    exact ⟨⟨h1, h2, h3⟩, h4, h5, h6, h7, h8, h9, h10⟩
  · rintro ⟨⟨h1, h2, h3⟩, h4, h5, h6, h7, h8, h9, h10⟩
    exact ⟨⟨⟨⟨⟨⟨⟨⟨⟨h1, h2⟩, h3⟩, h4⟩, h5⟩, h6⟩, h7⟩, h8⟩, h9⟩, h10⟩

/-- The angle of a turn on the spot. -/
def SubMove.turnAngle : SubMove → Option Angle
  | .turnRight => some .right
  | .turnLeft => some .left
  | .turnAround => some .back
  | _ => none

/-- The angle of a turn on the way. -/
def SubMove.integrateAngle : SubMove → Option Angle
  | .integrateRight => some .right
  | .integrateLeft => some .left
  | _ => none

/-- A turn on the spot only turns the mouse, at rest. -/
theorem apply_turn (h : move.turnAngle = some angle) :
    subMoveApply m move = Mouse.rotate { m with moving := false } angle := by
  cases move <;> cases h <;> rfl

/-- A turn on the way is half a cell on, the turn, and half a cell on. -/
theorem apply_integrate (h : move.integrateAngle = some angle) : subMoveApply m move =
    ((Mouse.translate { m with moving := true }).rotate angle).translate := by
  cases move <;> cases h <;> rfl

/-- There are three turns on the spot. -/
theorem turn_cases (h : move.turnAngle = some angle) :
    move = .turnRight ∨ move = .turnLeft ∨ move = .turnAround := by
  cases move <;> simp_all [SubMove.turnAngle]

/-- There are two turns on the way. -/
theorem integrate_cases (h : move.integrateAngle = some angle) :
    move = .integrateRight ∨ move = .integrateLeft := by
  cases move <;> simp_all [SubMove.integrateAngle]

/-- Every other direction is reached by a turn on the spot. -/
theorem exists_turn {dir dir' : Direction} (hne : dir' ≠ dir) :
    ∃ move angle, SubMove.turnAngle move = some angle ∧ turn dir angle = dir' := by
  cases dir <;> cases dir' <;> first
    | exact absurd rfl hne
    | exact ⟨.turnRight, .right, rfl, rfl⟩
    | exact ⟨.turnLeft, .left, rfl, rfl⟩
    | exact ⟨.turnAround, .back, rfl, rfl⟩

/-- An edge that is not open has no cell behind it. -/
theorem At.open_ahead (h : At m c) (hc : Small c) (hmove : move.drives)
    (hend : moveEndOnWall m.translate.x m.translate.y map move = true) :
    mapGetWall c.1 c.2 m.dir map = false := by
  have hcenter : ¬ m.translate.Centered :=
    fun ht => (h.centered.parity.centered_translate.mp ht) h.centered
  rw [← h.wallOnEdge_translate hc map]
  unfold Mouse.Centered at hcenter
  unfold wallOnEdge
  unfold moveEndOnWall at hend
  simp only [← not_odd] at hcenter ⊢
  obtain rfl | rfl | rfl | rfl | rfl := hmove <;> grind

section At

variable (h : At m c) (hs : Maze n w.map)

include h hs

/-- A drive from the middle of a cell into the next one ends in order. -/
theorem At.legal_drive (hopen : mapGetWall c.1 c.2 m.dir w.map = false)
    (hscan : scanLogGet (beyond c m.dir).1 (beyond c m.dir).2 w.scan = true)
    (hmove : move = .start ∨ move = .forward) (hstarts : Starts m move)
    (hless : move = .forward → level w.flood (beyond c m.dir) < level w.flood c) :
    Legal m move w := by
  have hmouse : subMoveApply m move = Mouse.translate { m with moving := true } := by
    obtain rfl | rfl := hmove <;> rfl
  have hnext : Entering (subMoveApply m move) (beyond c m.dir) := by
    rw [hmouse]
    exact h.entering hs.fits (hs.interior hopen)
  have hdir : (subMoveApply m move).dir = m.dir := by rw [hmouse]; rfl
  have hdrives : move.drives := by
    obtain rfl | rfl := hmove
    · exact .inl rfl
    · exact .inr (.inr (.inl rfl))
  have hsmall := (hs.inside hopen).small hs.fits
  constructor
  · exact hstarts
  · obtain rfl | rfl := hmove
    · rfl
    · exact (straightAway_iff (h.getCell m.dir) w.flood).mpr (hless rfl)
  · rw [hnext.endOnWall hsmall w.map hdrives, hdir, open_back hopen]
    rfl
  · exact hnext.endOnPeg
  · exact (hnext.endInScanned w.scan).trans hscan
  · exact hnext.endFacingWall w.map
  · exact hnext.nextScanned w.scan hdrives hscan
  · obtain rfl | rfl := hmove <;> rfl

/-- A turn towards an open wall and a cell nearer to the destination. -/
theorem At.legal_turn (hangle : move.turnAngle = some angle) (hrest : m.moving = false)
    (hscan : scanLogGet c.1 c.2 w.scan = true)
    (hopen : mapGetWall c.1 c.2 (turn m.dir angle) w.map = false)
    (hless : level w.flood (beyond c (turn m.dir angle)) < level w.flood c) : Legal m move w := by
  have hat : At (subMoveApply m move) c := by
    rw [apply_turn hangle]
    exact h
  have hdir : (subMoveApply m move).dir = turn m.dir angle := by rw [apply_turn hangle]; rfl
  have hin := hs.interior hopen
  rw [← hdir] at hopen hless hin
  have hturn := turn_cases hangle
  have hstarts : Starts m move := by
    obtain rfl | rfl | rfl := hturn <;>
    exact ⟨h.isCentered, rfl, by simp [moveStartMoving, hrest]⟩
  refine ⟨hstarts, ?_, hat.endOnWall w.map, hat.endOnPeg, (hat.endInScanned w.scan).trans hscan,
    ?_, ?_, (hat.nextLess hs.fits hin w.flood hturn).mpr hless⟩
  · obtain rfl | rfl | rfl := hturn <;> rfl
  · rw [hat.endFacingWall w.map (.inr hturn), hopen]
    rfl
  · obtain rfl | rfl | rfl := hturn <;> rfl

/-- A legal turn is towards an open wall and a nearer cell. -/
theorem At.of_turn (hangle : move.turnAngle = some angle) (hlegal : Legal m move w) :
    mapGetWall c.1 c.2 (turn m.dir angle) w.map = false ∧
      level w.flood (beyond c (turn m.dir angle)) < level w.flood c := by
  have hat : At (subMoveApply m move) c := by
    rw [apply_turn hangle]
    exact h
  have hdir : (subMoveApply m move).dir = turn m.dir angle := by rw [apply_turn hangle]; rfl
  have hturn := turn_cases hangle
  have hopen := hlegal.endFacingWall
  rw [hat.endFacingWall w.map (.inr hturn), hdir, Bool.not_eq_true'] at hopen
  have hin := hs.interior hopen
  rw [← hdir] at hin ⊢
  exact ⟨hdir ▸ hopen, (hat.nextLess hs.fits hin w.flood hturn).mp hlegal.nextLess⟩

end At

section Entering

variable (h : Entering m c) (hs : Maze n w.map)

include h

/-- The mouse may stop in a cell that has been scanned. -/
theorem Entering.legal_stop (hmoving : m.moving = true)
    (hscan : scanLogGet c.1 c.2 w.scan = true) : Legal m .stop w := by
  have hat : At (subMoveApply m .stop) c := h
  have hedge : isEdged m.x m.y = true := isEdged_iff.mpr h.not_centered
  exact ⟨⟨rfl, hedge, hmoving⟩, rfl, hat.endOnWall w.map, hat.endOnPeg,
    (hat.endInScanned w.scan).trans hscan, rfl, rfl, rfl⟩

include hs

/-- A legal drive on from an edge is through an open wall into a scanned cell that is
nearer. -/
theorem Entering.of_forward (hlegal : Legal m .forward w) :
    mapGetWall c.1 c.2 m.dir w.map = false ∧
      scanLogGet (beyond c m.dir).1 (beyond c m.dir).2 w.scan = true ∧
      level w.flood (beyond c m.dir) < level w.flood c := by
  have hat : At (subMoveApply m .forward) c := h
  have hopen : (!mapGetWall c.1 c.2 m.dir w.map) = true :=
    (hat.endFacingWall w.map (.inl rfl)).symm.trans hlegal.endFacingWall
  rw [Bool.not_eq_true'] at hopen
  exact ⟨hopen, (hat.nextScanned hs.fits (hs.interior hopen) w.scan).symm.trans hlegal.nextScanned,
    (straightAway_iff h.getCell w.flood).mp hlegal.straightAway⟩

/-- A turn on the way goes through an open wall into a scanned cell. -/
theorem Entering.of_integrate (hc : Small c) (hangle : move.integrateAngle = some angle)
    (hlegal : Legal m move w) :
    mapGetWall c.1 c.2 (turn m.dir angle) w.map = false ∧
      Entering (subMoveApply m move) (beyond c (turn m.dir angle)) ∧
      scanLogGet (beyond c (turn m.dir angle)).1 (beyond c (turn m.dir angle)).2 w.scan = true := by
  have hat : At ((Mouse.translate { m with moving := true }).rotate angle) c := h
  have hdrives : move.drives := by
    obtain rfl | rfl := integrate_cases hangle
    · exact .inr (.inr (.inr (.inl rfl)))
    · exact .inr (.inr (.inr (.inr rfl)))
  have hend := hlegal.endOnWall
  have hscan := hlegal.endInScanned
  rw [apply_integrate hangle] at hend hscan ⊢
  have hopen := hat.open_ahead hc hdrives hend
  have hnext := hat.entering hs.fits (hs.interior hopen)
  exact ⟨hopen, hnext, (hnext.endInScanned w.scan).symm.trans hscan⟩

end Entering

end KernelPanic
