import KernelPanic.Umouse.FloodFill
import KernelPanic.Lib.ArgMin

/-!
# KernelPanic.Umouse.SubMove

The moves of the mouse (`umouse/submove.c`), and the scan log they depend on
(`umouse/positionlog.c`).

The mouse is at half-cell coordinates: both are odd in the middle of a cell, one
is even on the edge between two cells.  `Parity` says that a mouse on an edge
looks across it; every legal move keeps it (`Parity.legal`), and then
`SubMoveFindBest` reaches neither of its `ASSERT(0)`.
-/

namespace KernelPanic

/-- `enum ANGLE`. -/
inductive Angle where
  | straight
  | right
  | back
  | left
deriving DecidableEq

/-- `enum SUB_MOVE`. -/
inductive SubMove where
  | done
  | start
  | forward
  | stop
  | turnRight
  | turnLeft
  | turnAround
  | integrateRight
  | integrateLeft
deriving DecidableEq

/-- The state of the mouse. -/
structure Mouse where
  x : Index
  y : Index
  dir : Direction
  moving : Bool
deriving DecidableEq

/-- `struct SCAN_LOG`, with the memory of its flags. -/
structure ScanLog where
  width : Count
  height : Count
  flags : Words

/-- What a move is chosen by. -/
structure World where
  map : Map
  flood : FloodMap
  scan : ScanLog

/-! ## the code -/

/-- `ScanLogGet`. -/
def scanLogGet (x y : Index) (mapLog : ScanLog) : Bool :=
  if x ≥ mapLog.width || y ≥ mapLog.height then false
  else bitmapGet mapLog.flags 0 (y * mapLog.width + x)

def Direction.code : Direction → ℕ
  | .north => 0
  | .east => 1
  | .south => 2
  | .west => 3

def Angle.code : Angle → ℕ
  | .straight => 0
  | .right => 1
  | .back => 2
  | .left => 3

/-- `TURN`. -/
def turn (dir : Direction) (angle : Angle) : Direction :=
  match (dir.code + angle.code) &&& 0x03 with
  | 0 => .north
  | 1 => .east
  | 2 => .south
  | _ => .west

/-- `SubMoveMovingEndState`. -/
def subMoveMovingEndState : SubMove → Bool
  | .done => false
  | .start => true
  | .forward => true
  | .stop => false
  | .turnRight => false
  | .turnLeft => false
  | .turnAround => false
  | .integrateRight => true
  | .integrateLeft => true

/-- `SubMovesRotates`. -/
def subMovesRotates : SubMove → Bool
  | .done => false
  | .start => false
  | .forward => false
  | .stop => false
  | .turnRight => true
  | .turnLeft => true
  | .turnAround => true
  | .integrateRight => true
  | .integrateLeft => true

/-- `SubMoveTranslate`. -/
def subMoveTranslate (x y : Index) (dir : Direction) (dist : Count) : Index × Index :=
  match dir with
  | .north => (x, y + dist)
  | .south => (x, y - dist)
  | .east => (x + dist, y)
  | .west => (x - dist, y)

/-- `SubMoveTranslate`, of the mouse. -/
def Mouse.translate (m : Mouse) : Mouse :=
  { m with
    x := (subMoveTranslate m.x m.y m.dir 1).1
    y := (subMoveTranslate m.x m.y m.dir 1).2 }

/-- `SubMoveRotate`, of the mouse. -/
def Mouse.rotate (m : Mouse) (angle : Angle) : Mouse := { m with dir := turn m.dir angle }

/-- `SubMoveApply`. -/
def subMoveApply (m : Mouse) (move : SubMove) : Mouse :=
  let m := { m with moving := subMoveMovingEndState move }
  match move with
  | .done => m
  | .start => m.translate
  | .stop => m.translate
  | .forward => m.translate
  | .turnRight => m.rotate .right
  | .turnLeft => m.rotate .left
  | .turnAround => m.rotate .back
  | .integrateRight => (m.translate.rotate .right).translate
  | .integrateLeft => (m.translate.rotate .left).translate

/-- `IS_CENTERED`. -/
def isCentered (x y : Index) : Bool := x % 2 = 1 && y % 2 = 1

/-- `IS_EDGED`. -/
def isEdged (x y : Index) : Bool := x % 2 = 0 || y % 2 = 0

/-- `GetCell`. -/
def getCell (x y : Index) (dir : Direction) : Index × Index :=
  if isCentered x y then (x / 2, y / 2)
  else
    let (x, y) := subMoveTranslate x y dir 1
    (x / 2, y / 2)

/-- `MoveStartCentered`. -/
def moveStartCentered (x y : Index) : SubMove → Bool
  | .start | .turnRight | .turnLeft | .turnAround => isCentered x y
  | _ => true

/-- `MoveStartEdge`. -/
def moveStartEdge (x y : Index) : SubMove → Bool
  | .stop | .integrateRight | .integrateLeft => isEdged x y
  | _ => true

/-- `MoveStartMoving`. -/
def moveStartMoving (moving : Bool) : SubMove → Bool
  | .start | .turnRight | .turnLeft | .turnAround => !moving
  | .stop | .forward | .integrateRight | .integrateLeft => moving
  | _ => true

/-- `MoveStartStraightAway`. -/
def moveStartStraightAway (startX startY : Index) (dir : Direction) (flood : FloodMap) :
    SubMove → Bool
  | .forward =>
      let (x, y) := getCell startX startY dir
      let curFill := floodFillGet x y flood
      let (x, y) := subMoveTranslate x y dir 1
      let nextFill := floodFillGet x y flood
      nextFill < curFill
  | _ => true

/-- `MoveEndOnWall`. -/
def moveEndOnWall (x y : Index) (map : Map) : SubMove → Bool
  | .start | .stop | .forward | .integrateRight | .integrateLeft =>
      if x % 2 = 1 && y % 2 = 1 then true
      else if x % 2 = 1 then !mapGetWall (x / 2) (y / 2) .south map
      else if y % 2 = 1 then !mapGetWall (x / 2) (y / 2) .west map
      else false
  | _ => true

/-- `MoveEndOnPeg`. -/
def moveEndOnPeg (x y : Index) : Bool := if x % 2 = 0 && y % 2 = 0 then false else true

/-- `MoveEndInScanned`. -/
def moveEndInScanned (x y : Index) (dir : Direction) (scan : ScanLog) : Bool :=
  let (x, y) := getCell x y dir
  scanLogGet x y scan

/-- `MoveNextScanned`. -/
def moveNextScanned (x y : Index) (dir : Direction) (scan : ScanLog) : SubMove → Bool
  | .forward | .integrateRight | .integrateLeft =>
      let (x, y) := subMoveTranslate x y dir 1
      let (x, y) := getCell x y dir
      scanLogGet x y scan
  | _ => true

/-- `MoveNextLessFloodFill`. -/
def moveNextLessFloodFill (x y : Index) (dir : Direction) (flood : FloodMap) : SubMove → Bool
  | .turnRight | .turnLeft | .turnAround =>
      let curFill := floodFillGet (x / 2) (y / 2) flood
      let (x, y) := subMoveTranslate x y dir 2
      let facingFill := floodFillGet (x / 2) (y / 2) flood
      facingFill < curFill
  | _ => true

/-- `MoveEndFacingWall`. -/
def moveEndFacingWall (x y : Index) (dir : Direction) (map : Map) : SubMove → Bool
  | .forward | .turnRight | .turnLeft | .turnAround | .integrateRight | .integrateLeft =>
      if !isCentered x y then true else !mapGetWall (x / 2) (y / 2) dir map
  | _ => true

/-- `SubMoveLegal`. -/
def subMoveLegal (m : Mouse) (move : SubMove) (w : World) : Bool :=
  let m' := subMoveApply m move
  moveStartCentered m.x m.y move && moveStartEdge m.x m.y move && moveStartMoving m.moving move &&
    moveStartStraightAway m.x m.y m.dir w.flood move &&
    moveEndOnWall m'.x m'.y w.map move && moveEndOnPeg m'.x m'.y &&
    moveEndInScanned m'.x m'.y m'.dir w.scan && moveEndFacingWall m'.x m'.y m'.dir w.map move &&
    moveNextScanned m'.x m'.y m'.dir w.scan move &&
    moveNextLessFloodFill m'.x m'.y m'.dir w.flood move

/-- What `SubMoveFindBest` compares of two moves. -/
structure MoveKey where
  flood : UInt8
  facingFlood : UInt8
  facingWall : Bool
  rotated : Bool

/-- A coordinate of the cell that a mouse is in, `tempX` or `tempY`; `none` when
`ASSERT(0)` is reached. -/
def cellCoordinate (coord : Index) (up down dir : Direction) : Option Index :=
  if coord % 2 = 1 then some (coord / 2)
  else if dir = up then some (coord / 2)
  else if dir = down then some (coord / 2 - 1)
  else none

/-- What `SubMoveFindBest` gathers about a move, from the mouse after it. -/
def gatherKey (m : Mouse) (cur : SubMove) (w : World) : Option MoveKey := do
  let tempX ← cellCoordinate m.x .east .west m.dir
  let tempY ← cellCoordinate m.y .north .south m.dir
  let facing := subMoveTranslate tempX tempY m.dir 1
  some {
    flood := floodFillGet tempX tempY w.flood
    facingWall := mapGetWall tempX tempY m.dir w.map
    facingFlood := floodFillGet facing.1 facing.2 w.flood
    rotated := subMovesRotates cur }

/-- The comparisons of `SubMoveFindBest`: true at `comparisonDone`, false at
`continue`. -/
def improves (cur best : MoveKey) : Bool :=
  if cur.flood > best.flood then false
  else if cur.flood < best.flood then true
  else if cur.facingFlood > best.facingFlood then false
  else if cur.facingFlood < best.facingFlood then true
  else if cur.facingWall && !best.facingWall then false
  else if !cur.facingWall && best.facingWall then true
  else if !cur.rotated && best.rotated then false
  else if !best.rotated && cur.rotated then true
  else false

/-- The moves that `SubMoveFindBest` tries, in its order. -/
def candidates : List SubMove :=
  [.start, .forward, .stop, .turnRight, .turnLeft, .turnAround, .integrateRight, .integrateLeft]

/-- One round of the loop of `SubMoveFindBest`. -/
def tryMove (m : Mouse) (w : World) (best : SubMove × MoveKey) (cur : SubMove) :
    Option (SubMove × MoveKey) :=
  if !subMoveLegal m cur w then some best
  else do
    let key ← gatherKey (subMoveApply m cur) cur w
    some (if improves key best.2 then (cur, key) else best)

/-- `SubMoveFindBest`; `none` when an `ASSERT(0)` is reached. -/
def subMoveFindBest (m : Mouse) (w : World) : Option SubMove :=
  (candidates.foldlM (tryMove m w) (.done, ⟨255, 255, true, true⟩)).map Prod.fst

/-! ## parity -/

/-- The mouse is in the middle of a cell. -/
def Mouse.Centered (m : Mouse) : Prop := m.x % 2 = 1 ∧ m.y % 2 = 1

instance (m : Mouse) : Decidable m.Centered := inferInstanceAs (Decidable (_ ∧ _))

/-- A mouse on an edge looks across it. -/
structure Parity (m : Mouse) : Prop where
  x_even : m.x % 2 = 0 → m.dir = .east ∨ m.dir = .west
  y_even : m.y % 2 = 0 → m.dir = .north ∨ m.dir = .south

variable {m : Mouse} {move : SubMove} {w : World} {x y i : Index} {dir : Direction}

theorem even_iff : i % 2 = 0 ↔ i.toNat % 2 = 0 := by
  rw [← UInt64.toNat_inj, UInt64.toNat_mod]
  rfl

theorem odd_iff : i % 2 = 1 ↔ i.toNat % 2 = 1 := by
  rw [← UInt64.toNat_inj, UInt64.toNat_mod]
  rfl

theorem not_odd : ¬ i % 2 = 1 ↔ i % 2 = 0 := by
  rw [even_iff, odd_iff]
  omega

/-- A step of the mouse changes the parity of the coordinate. -/
theorem step_odd : ((i + 1) % 2 = 1 ↔ i % 2 = 0) ∧ ((i - 1) % 2 = 1 ↔ i % 2 = 0) := by
  have hone : (1 : Index).toNat = 1 := rfl
  have hlt := i.toNat_lt
  simp only [even_iff, odd_iff, UInt64.toNat_add, UInt64.toNat_sub, hone]
  omega

@[simp] theorem isCentered_iff : isCentered m.x m.y = true ↔ m.Centered := by
  simp [isCentered, Mouse.Centered]

@[simp] theorem isEdged_iff : isEdged m.x m.y = true ↔ ¬ m.Centered := by
  simp only [isEdged, Mouse.Centered, Bool.or_eq_true, decide_eq_true_eq, ← not_odd]
  grind

/-! ## what a move keeps -/

theorem Mouse.Centered.parity (h : m.Centered) : Parity m :=
  ⟨fun heven => absurd h.1 (not_odd.mpr heven), fun heven => absurd h.2 (not_odd.mpr heven)⟩

theorem Mouse.Centered.rotate (h : m.Centered) (angle : Angle) : (m.rotate angle).Centered := h

/-- Half a cell ahead of an edge is the middle of a cell, and the other way round. -/
theorem Parity.centered_translate (h : Parity m) : m.translate.Centered ↔ ¬ m.Centered := by
  obtain ⟨hx, hy⟩ := h
  unfold Mouse.Centered Mouse.translate subMoveTranslate
  simp only [← not_odd] at hx hy
  cases hdir : m.dir <;> simp only [hdir, reduceCtorEq, or_false, or_true, imp_false, not_not,
    step_odd, ← not_odd] at hx hy ⊢ <;> grind

theorem Parity.translate (h : Parity m) : Parity m.translate := by
  by_cases hc : m.translate.Centered
  · exact hc.parity
  · have hm : m.Centered := by_contra fun hm => hc (h.centered_translate.mpr hm)
    unfold Mouse.Centered at hm
    constructor <;>
    cases hdir : m.dir <;>
    simp [Mouse.translate, subMoveTranslate, hdir, hm, ← not_odd]

/-- What a legal move asks of the state it starts from. -/
structure Starts (m : Mouse) (move : SubMove) : Prop where
  centered : moveStartCentered m.x m.y move = true
  edge : moveStartEdge m.x m.y move = true
  moving : moveStartMoving m.moving move = true

theorem starts_of_legal (h : subMoveLegal m move w = true) : Starts m move := by
  simp only [subMoveLegal, Bool.and_eq_true] at h
  exact ⟨h.1.1.1.1.1.1.1.1.1, h.1.1.1.1.1.1.1.1.2, h.1.1.1.1.1.1.1.2⟩

theorem endOnWall_of_legal (h : subMoveLegal m move w = true) :
    moveEndOnWall (subMoveApply m move).x (subMoveApply m move).y w.map move = true := by
  simp only [subMoveLegal, Bool.and_eq_true] at h
  exact h.1.1.1.1.1.2

/-- A mouse that integrates is on an edge, turns in the middle of the next cell and
ends on an edge again. -/
theorem Parity.integrate (h : Parity m) (hedge : ¬ m.Centered) (angle : Angle) :
    Parity (m.translate.rotate angle) ∧ ¬ (m.translate.rotate angle).translate.Centered := by
  have hmid : (m.translate.rotate angle).Centered :=
    (h.centered_translate.mpr hedge).rotate angle
  exact ⟨hmid.parity, fun hc => hmid.parity.centered_translate.mp hc hmid⟩

/-- **A legal move keeps the parity rule.** -/
theorem Parity.apply (h : Parity m) (hstart : Starts m move) : Parity (subMoveApply m move) := by
  obtain ⟨hcentered, hedge, -⟩ := hstart
  have hmoving (b : Bool) : Parity { m with moving := b } := ⟨h.x_even, h.y_even⟩
  have hturn (b : Bool) (angle : Angle) (hc : m.Centered) :
      Parity (Mouse.rotate { m with moving := b } angle) := Mouse.Centered.parity hc
  cases move with
  | done => exact hmoving _
  | start | stop | forward => exact (hmoving _).translate
  | turnRight | turnLeft | turnAround => exact hturn _ _ (isCentered_iff.mp hcentered)
  | integrateRight | integrateLeft =>
      exact ((hmoving true).integrate (isEdged_iff.mp hedge) _).1.translate

/-! ## the comparison loop -/

/-- The cell that a mouse is in, by the parity rule: on an edge, the one ahead. -/
def cellOf (m : Mouse) : Cell :=
  (if m.x % 2 = 0 ∧ m.dir = .west then m.x / 2 - 1 else m.x / 2,
    if m.y % 2 = 0 ∧ m.dir = .south then m.y / 2 - 1 else m.y / 2)

/-- The flood of the cell that a move ends in, that of the cell then faced,
whether a wall is between them, and whether the move rotates. -/
def endKey (m : Mouse) (w : World) (move : SubMove) : MoveKey :=
  let m' := subMoveApply m move
  let facing := subMoveTranslate (cellOf m').1 (cellOf m').2 m'.dir 1
  { flood := floodFillGet (cellOf m').1 (cellOf m').2 w.flood
    facingFlood := floodFillGet facing.1 facing.2 w.flood
    facingWall := mapGetWall (cellOf m').1 (cellOf m').2 m'.dir w.map
    rotated := subMovesRotates move }

theorem Parity.cellCoordinate (h : Parity m) :
    cellCoordinate m.x .east .west m.dir = some (cellOf m).1 ∧
      cellCoordinate m.y .north .south m.dir = some (cellOf m).2 := by
  obtain ⟨hx, hy⟩ := h
  unfold KernelPanic.cellCoordinate cellOf
  simp only [← not_odd] at hx hy ⊢
  grind

/-- **Neither `ASSERT(0)` is reached.** -/
theorem Parity.gatherKey (h : Parity (subMoveApply m move)) :
    gatherKey (subMoveApply m move) move w = some (endKey m w move) := by
  unfold KernelPanic.gatherKey
  rw [h.cellCoordinate.1, h.cellCoordinate.2]
  rfl

/-- The moves that `SubMoveFindBest` may return for other reasons than that there
is none. -/
def legalMoves (m : Mouse) (w : World) : List SubMove :=
  candidates.filter fun move => subMoveLegal m move w

theorem mem_legalMoves : move ∈ legalMoves m w ↔ move ≠ .done ∧ subMoveLegal m move w = true := by
  unfold legalMoves candidates
  rw [List.mem_filter]
  cases move <;> simp

/-- The order of the comparisons: rotating is preferred. -/
def MoveKey.codeRank (k : MoveKey) : (ℕ ×ₗ ℕ ×ₗ Bool) ×ₗ Bool :=
  toLex (toLex (k.flood.toNat, toLex (k.facingFlood.toNat, k.facingWall)), !k.rotated)

theorem improves_iff {cur best : MoveKey} :
    improves cur best = true ↔ cur.codeRank < best.codeRank := by
  obtain ⟨f, ff, fw, r⟩ := cur
  obtain ⟨f', ff', fw', r'⟩ := best
  simp only [MoveKey.codeRank, Prod.Lex.toLex_lt_toLex, toLex_inj, Prod.mk.injEq,
    UInt8.toNat_inj, ← UInt8.lt_iff_toNat_lt, Bool.lt_iff]
  unfold improves
  grind

/-- What stands for a move in the comparisons; no move at all is as bad as can be. -/
def standing (m : Mouse) (w : World) : SubMove → MoveKey
  | .done => ⟨255, 255, true, true⟩
  | move => endKey m w move

/-- The move that is kept of two. -/
def keep (m : Mouse) (w : World) (best cur : SubMove) : SubMove :=
  if (standing m w cur).codeRank < (standing m w best).codeRank then cur else best

theorem Parity.tryMove (h : Parity m) (hmove : move ≠ .done) (best : SubMove) :
    tryMove m w (best, standing m w best) move =
      some (if subMoveLegal m move w then (keep m w best move, standing m w (keep m w best move))
        else (best, standing m w best)) := by
  unfold KernelPanic.tryMove
  by_cases hlegal : subMoveLegal m move w = true
  · have hkey : standing m w move = endKey m w move := by
      cases move <;> first | rfl | exact absurd rfl hmove
    rw [hlegal, (h.apply (starts_of_legal hlegal)).gatherKey, ← hkey]
    simp only [keep, improves_iff, Bool.not_true, Bool.false_eq_true, ↓reduceIte,
      Option.bind_eq_bind, Option.bind_some, Option.some.injEq]
    split <;> rfl
  · simp [hlegal]

theorem Parity.loop (h : Parity m) (moves : List SubMove) (hmoves : .done ∉ moves)
    (best : SubMove) :
    ∃ best', best' = (moves.filter fun move => subMoveLegal m move w).foldl (keep m w) best ∧
      moves.foldlM (KernelPanic.tryMove m w) (best, standing m w best) =
        some (best', standing m w best') := by
  induction moves generalizing best with
  | nil => exact ⟨best, rfl, rfl⟩
  | cons cur moves ih =>
      obtain ⟨hcur, hmoves⟩ := not_or.mp (List.mem_cons.not.mp hmoves)
      rw [List.foldlM_cons, h.tryMove (Ne.symm hcur)]
      by_cases hlegal : subMoveLegal m cur w = true
      · simpa [hlegal] using ih hmoves (keep m w best cur)
      · simpa [hlegal] using ih hmoves best

/-- **`SubMoveFindBest`** looks for the first minimum, in its own order. -/
theorem Parity.findBest (h : Parity m) : subMoveFindBest m w =
    (.done :: legalMoves m w).argmin fun move => (standing m w move).codeRank := by
  obtain ⟨best, hbest, hloop⟩ := h.loop (w := w) candidates (by decide) .done
  rw [ArgMin.argmin_cons_eq_foldl]
  unfold subMoveFindBest
  rw [show (⟨255, 255, true, true⟩ : MoveKey) = standing m w .done from rfl, hloop]
  exact congrArg some hbest

/-- **What it returns** is a legal move, or that there is none. -/
theorem Parity.findBest_cases (h : Parity m) : ∃ best, subMoveFindBest m w = some best ∧
    (best = .done ∨ best ∈ legalMoves m w) := by
  have hfind := h.findBest (w := w)
  cases hbest : subMoveFindBest m w with
  | none =>
      rw [hbest] at hfind
      exact absurd (List.argmin_eq_none.mp hfind.symm) (List.cons_ne_nil _ _)
  | some best =>
      rw [hbest] at hfind
      exact ⟨best, rfl, List.mem_cons.mp (List.argmin_mem hfind.symm)⟩

end KernelPanic
