import KernelPanic.Umouse.Explore

/-!
# KernelPanic.Umouse.Explore.Run

The loop of `RunMoves`, for any number of rounds and any square maze.

At the top of the loop the mouse is at rest in a cell, drives through one or
drives into one (`Situation`), and every legal move keeps that (`Explores.after`).
The cell ahead of an edge has been scanned, so a wall that is not on the map is
not in the maze either: the mouse drives through no wall, though it does not know
the maze (`runMoves_safe`).
-/

namespace KernelPanic

open Relaxation

variable {n : Count} {world : Map} {dest c d : Cell} {e e' : Explorer} {m : Mouse} {move : SubMove}

/-- Where the mouse can be at the top of the loop. -/
inductive Situation (n : Count) (e : Explorer) : Prop
  /-- At rest in the middle of a cell. -/
  | rest {c : Cell} (hat : At e.mouse c) (hin : Inside n c) (hmoving : e.mouse.moving = false)
      (hscan : scanLogGet c.1 c.2 e.scanLog = true)
  /-- Driving straight through the middle of a cell, towards a nearer one. -/
  | running {c : Cell} (hat : At e.mouse c) (hin : Inside n c) (hmoving : e.mouse.moving = true)
      (hscan : scanLogGet c.1 c.2 e.scanLog = true)
      (hopen : mapGetWall c.1 c.2 e.mouse.dir e.mouseMap = false)
      (hnext : scanLogGet (beyond c e.mouse.dir).1 (beyond c e.mouse.dir).2 e.scanLog = true)
      (hless : level e.floodMap (beyond c e.mouse.dir) < level e.floodMap c)
  /-- Driving into a cell, through no wall. -/
  | entering {c : Cell} (hat : Entering e.mouse c) (hin : Inside n c)
      (hmoving : e.mouse.moving = true) (hscan : scanLogGet c.1 c.2 e.scanLog = true)
      (hopen : mapGetWall c.1 c.2 e.mouse.dir.opposite e.mouseMap = false)

/-- What holds at the top of the loop. -/
structure Explores (n : Count) (world : Map) (dest : Cell) (e : Explorer) : Prop where
  knows : Knows n world e
  flooded : Flooded n e.mouseMap dest e.floodMap
  situation : Situation n e

/-- The mouse is in the maze, and on no wall of it. -/
structure Unharmed (n : Count) (world : Map) (m : Mouse) : Prop where
  range : InRange n n m
  clear : ¬ m.Centered → wallOnEdge m world = false

theorem At.inRange (h : At m c) (hc : Inside n c) : InRange n n m := by
  obtain ⟨hx, hy⟩ := h
  have hcx := UInt64.lt_iff_toNat_lt.mp hc.1
  have hcy := UInt64.lt_iff_toNat_lt.mp hc.2
  constructor <;> omega

theorem Explores.unharmed (h : Explores n world dest e) : Unharmed n world e.mouse := by
  obtain ⟨hknows, -, hsituation⟩ := h
  cases hsituation with
  | rest hat hin | running hat hin =>
      exact ⟨hat.inRange hin, fun hedge => absurd hat.centered hedge⟩
  | entering hat hin hmoving hscan hopen =>
      have hclear : wallOnEdge e.mouse world = false :=
        (hat.wallOnEdge (hin.small hknows.maze.fits) world).trans (hknows.open hscan hopen)
      have hrange := hat.parity.inRange_of_clear hat.not_centered hclear
      rw [hknows.maze.width, hknows.maze.height] at hrange
      exact ⟨hrange, fun _ => hclear⟩

theorem Explores.parity (h : Explores n world dest e) : Parity e.mouse := by
  cases h.situation with
  | rest hat | running hat => exact hat.centered.parity
  | entering hat => exact hat.parity

/-- `UpdateMap` keeps it. -/
theorem Updated.explores (hup : Updated n world dest e e') (h : Explores n world dest e) :
    Explores n world dest e' := by
  refine ⟨hup.knows, hup.flooded, ?_⟩
  cases h.situation with
  | rest hat hin hmoving hscan =>
      exact .rest (hup.mouse ▸ hat) hin (hup.mouse ▸ hmoving) (hup.keeps _ hscan)
  | running hat hin hmoving hscan hopen hnext hless =>
      have hsame := hup.same fun c' hat' => by rwa [hat.eq hat']
      rw [← hup.mouse] at hat hmoving hopen hnext hless
      rw [← hsame.1] at hopen
      rw [← hsame.2] at hless
      exact .running hat hin hmoving (hup.keeps _ hscan) hopen (hup.keeps _ hnext) hless
  | entering hat hin hmoving hscan hopen =>
      have hsame := hup.same fun c' hat' => absurd hat'.centered hat.not_centered
      rw [← hup.mouse] at hat hmoving hopen
      rw [← hsame.1] at hopen
      exact .entering hat hin hmoving (hup.keeps _ hscan) hopen

/-- The state after a move. -/
def Explorer.after (e : Explorer) (move : SubMove) : Explorer :=
  { e with mouse := subMoveApply e.mouse move }

/-! ## the moves from a stage -/

/-- Driving through a cell the mouse can only go on. -/
theorem Legal.forward (hlegal : Legal e.mouse move e.world) (hmove : move ≠ .done)
    (hat : At e.mouse c) (hmoving : e.mouse.moving = true) : move = .forward := by
  have hedge : isEdged e.mouse.x e.mouse.y = false :=
    Bool.eq_false_iff.mpr fun hedge => (isEdged_iff.mp hedge) hat.centered
  obtain ⟨-, hstart, hstart'⟩ := hlegal.starts
  cases move <;> simp_all [moveStartMoving, moveStartEdge]

section Moves

variable (h : Explores n world dest e) (hlegal : Legal e.mouse move e.world)

include h hlegal

/-- From rest the mouse starts, or turns towards a nearer cell. -/
theorem Explores.rest_move (hmove : move ≠ .done) (hat : At e.mouse c) (hin : Inside n c)
    (hmoving : e.mouse.moving = false) :
    (move = .start ∧ mapGetWall c.1 c.2 e.mouse.dir e.mouseMap = false ∧
        scanLogGet (beyond c e.mouse.dir).1 (beyond c e.mouse.dir).2 e.scanLog = true) ∨
      ∃ angle, move.turnAngle = some angle ∧
        mapGetWall c.1 c.2 (turn e.mouse.dir angle) e.mouseMap = false ∧
        level e.floodMap (beyond c (turn e.mouse.dir angle)) < level e.floodMap c := by
  have hmaze := h.knows.charts.maze
  have hstart := hlegal.starts.moving
  cases move with
  | done => exact absurd rfl hmove
  | stop | forward | integrateRight | integrateLeft => simp [moveStartMoving, hmoving] at hstart
  | start =>
      have hopen := hat.open_ahead (hin.small hmaze.fits) (.inl rfl) hlegal.endOnWall
      have hnext : Entering (subMoveApply e.mouse .start) (beyond c e.mouse.dir) :=
        hat.entering hmaze.fits (hmaze.interior hopen)
      exact .inl ⟨rfl, hopen, (hnext.endInScanned _).symm.trans hlegal.endInScanned⟩
  | turnRight | turnLeft | turnAround => exact .inr ⟨_, rfl, hat.of_turn hmaze rfl hlegal⟩

/-- Driving into a cell it stops there, goes on to a nearer one, or turns on the way. -/
theorem Explores.entering_move (hmove : move ≠ .done) (hat : Entering e.mouse c)
    (hin : Inside n c) (hmoving : e.mouse.moving = true) :
    move = .stop ∨
      (move = .forward ∧ mapGetWall c.1 c.2 e.mouse.dir e.mouseMap = false ∧
        scanLogGet (beyond c e.mouse.dir).1 (beyond c e.mouse.dir).2 e.scanLog = true ∧
        level e.floodMap (beyond c e.mouse.dir) < level e.floodMap c) ∨
      ∃ angle, move.integrateAngle = some angle ∧
        mapGetWall c.1 c.2 (turn e.mouse.dir angle) e.mouseMap = false ∧
        Entering (subMoveApply e.mouse move) (beyond c (turn e.mouse.dir angle)) ∧
        scanLogGet (beyond c (turn e.mouse.dir angle)).1 (beyond c (turn e.mouse.dir angle)).2
          e.scanLog = true := by
  have hmaze := h.knows.charts.maze
  have hstart := hlegal.starts.moving
  cases move with
  | done => exact absurd rfl hmove
  | start | turnRight | turnLeft | turnAround => simp [moveStartMoving, hmoving] at hstart
  | stop => exact .inl rfl
  | forward => exact .inr (.inl ⟨rfl, hat.of_forward hmaze hlegal⟩)
  | integrateRight | integrateLeft =>
      exact .inr (.inr ⟨_, rfl, hat.of_integrate hmaze (hin.small hmaze.fits) rfl hlegal⟩)

end Moves

theorem Situation.start (h : Explores n world dest e) (hat : At e.mouse c)
    (hopen : mapGetWall c.1 c.2 e.mouse.dir e.mouseMap = false)
    (hscan : scanLogGet (beyond c e.mouse.dir).1 (beyond c e.mouse.dir).2 e.scanLog = true)
    (hmove : move = .start ∨ move = .forward) : Situation n (e.after move) := by
  have hmaze := h.knows.charts.maze
  have hnext : Entering (Mouse.translate { e.mouse with moving := true }) (beyond c e.mouse.dir) :=
    hat.entering hmaze.fits (hmaze.interior hopen)
  obtain rfl | rfl := hmove <;>
  exact .entering hnext (hmaze.inside hopen) rfl hscan (open_back hopen)

/-- **A legal move keeps it.** -/
theorem Explores.after (h : Explores n world dest e) (hmove : move ≠ .done)
    (hlegal : Legal e.mouse move e.world) : Explores n world dest (e.after move) := by
  obtain ⟨hmaze, hcharts, hwidth, hheight, hseen⟩ := h.knows
  refine ⟨⟨hmaze, hcharts, hwidth, hheight, hseen⟩, h.flooded, ?_⟩
  cases h.situation with
  | rest hat hin hmoving hscan =>
      obtain ⟨rfl, hopen, hnext⟩ | ⟨angle, hangle, -⟩ :=
        h.rest_move hlegal hmove hat hin hmoving
      · exact .start h hat hopen hnext (.inl rfl)
      · have hmouse : (e.after move).mouse = _ := apply_turn hangle
        refine .rest ?_ hin ?_ hscan
        · rw [hmouse]
          exact hat
        · rw [hmouse]
          rfl
  | running hat hin hmoving hscan hopen hnext hless =>
      obtain rfl := hlegal.forward hmove hat hmoving
      exact .start h hat hopen hnext (.inr rfl)
  | entering hat hin hmoving hscan hopen =>
      obtain rfl | ⟨rfl, hahead, hnext, hless⟩ | ⟨angle, hangle, hturned, hnext, hscan'⟩ :=
        h.entering_move hlegal hmove hat hin hmoving
      · exact .rest hat hin rfl hscan
      · exact .running hat hin rfl hscan hahead hnext hless
      · have hmouse : (e.after move).mouse = _ := apply_integrate hangle
        refine .entering hnext (hcharts.maze.inside hturned) ?_ hscan' ?_
        · rw [hmouse]
          rfl
        · rw [hmouse]
          exact open_back hturned

/-- **A round of the loop** is a look and a move; the mouse is never out of bounds. -/
theorem Explores.round (h : Explores n world dest e) :
    ∃ e' best fuel, Updated n world dest e e' ∧ subMoveFindBest e'.mouse e'.world = some best ∧
      (best ≠ .done → Legal e'.mouse best e'.world) ∧
      ∀ f ≥ fuel, moveRound f world dest e =
        some (if best = .done then .error .notPossibleMove else .ok (e'.after best)) := by
  obtain ⟨e', fuel, hrun, hup⟩ := updateMap_ends h.knows h.flooded
  have h' := hup.explores h
  obtain ⟨best, hbest, hcases⟩ := h'.parity.findBest_cases (w := e'.world)
  refine ⟨e', best, fuel, hup, hbest, fun hne => ?_, fun f hf => ?_⟩
  · exact legal_iff.mp (mem_legalMoves.mp (hcases.resolve_left hne)).2
  have hfits := side_lt h.knows.maze.fits
  have htwo : (2 : Index).toNat = 2 := rfl
  obtain ⟨-, hx, -, hy⟩ := h'.unharmed.range
  have hbounds : (decide (e'.mouse.x > world.width * 2) || decide (e'.mouse.y > world.height * 2)) =
      false := by
    simp only [h.knows.maze.width, h.knows.maze.height, Bool.or_eq_false_iff, decide_eq_false_iff_not,
      gt_iff_lt, UInt64.lt_iff_toNat_lt, UInt64.toNat_mul, htwo]
    omega
  unfold moveRound
  simp only [hrun f hf, Option.bind_eq_bind, Option.bind_some, hbounds, Bool.false_eq_true,
    ↓reduceIte, hbest]
  split <;> rfl

/-! ## no harm -/

/-- How the loop may end: the mouse is at rest in the destination, has found no
move, or is on an edge. -/
inductive JourneyEnds (n : Count) (world : Map) (dest : Cell) : Except Exit Explorer → Prop
  | arrived {e : Explorer} (h : Explores n world dest e) (hat : At e.mouse dest)
      (hrest : e.mouse.moving = false) : JourneyEnds n world dest (.ok e)
  | stuck : JourneyEnds n world dest (.error .notPossibleMove)
  | onEdge : JourneyEnds n world dest (.error .notInCenter)

/-- The loop of `RunMoves` is left in the middle of a cell only at rest in the
destination. -/
theorem Explores.arrived (h : Explores n world dest e) (hcenter : ¬ isEdged e.mouse.x e.mouse.y)
    (hzero : floodFillGet (e.mouse.x / 2) (e.mouse.y / 2) e.floodMap = 0) :
    At e.mouse dest ∧ e.mouse.moving = false := by
  have hlevel {c : Cell} (hat : At e.mouse c) : level e.floodMap c = 0 := by
    rw [level, ← hat.half.1, ← hat.half.2, hzero]
    rfl
  cases h.situation with
  | rest hat hin hmoving =>
      obtain rfl := h.flooded.level_eq_zero.mp (hlevel hat)
      exact ⟨hat, hmoving⟩
  | running hat hin hmoving hscan hopen hnext hless =>
      rw [hlevel hat] at hless
      exact absurd hless (Nat.not_lt_zero _)
  | entering hat => exact absurd (isEdged_iff.mpr hat.not_centered) hcenter

/-- **The mouse never drives through a wall of the maze.** -/
theorem Explores.moveLoop (h : Explores n world dest e) (rounds : ℕ) :
    ∃ es ending fuel, (∀ f ≥ fuel, moveLoop f world dest rounds e = some (es, ending)) ∧
      (∀ e' ∈ es, Explores n world dest e') ∧ ∀ r ∈ ending, JourneyEnds n world dest r := by
  induction rounds generalizing e with
  | zero => exact ⟨[], none, 0, fun f _ => rfl, by simp, by simp⟩
  | succ rounds ih =>
      obtain ⟨e₁, best, fuel, hup, -, hlegal, hrun⟩ := h.round
      by_cases hdone : best = .done
      · refine ⟨[], some (.error .notPossibleMove), fuel, fun f hf => ?_, by simp, ?_⟩
        · simp only [KernelPanic.moveLoop, hrun f hf, hdone, ↓reduceIte, Option.bind_eq_bind,
            Option.bind_some]
        · rintro _ ⟨⟩
          exact .stuck
      have h' := (hup.explores h).after hdone (hlegal hdone)
      generalize e₁.after best = e' at hrun h'
      simp only [if_neg hdone] at hrun
      by_cases hzero : floodFillGet (e'.mouse.x / 2) (e'.mouse.y / 2) e'.floodMap = 0
      · by_cases hedge : isEdged e'.mouse.x e'.mouse.y = true
        · refine ⟨[e'], some (.error .notInCenter), fuel, fun f hf => ?_, by simpa using h', ?_⟩
          · simp only [KernelPanic.moveLoop, hrun f hf, Option.bind_eq_bind, Option.bind_some, hzero,
              hedge, ↓reduceIte]
          · rintro _ ⟨⟩
            exact .onEdge
        · obtain ⟨hat, hrest⟩ := h'.arrived hedge hzero
          refine ⟨[e'], some (.ok e'), fuel, fun f hf => ?_, by simpa using h', ?_⟩
          · simp only [KernelPanic.moveLoop, hrun f hf, Option.bind_eq_bind, Option.bind_some, hzero,
              ↓reduceIte, if_neg hedge]
          · rintro _ ⟨⟩
            exact .arrived h' hat hrest
      · obtain ⟨es, ending, fuel', hloop, hes, hending⟩ := ih h'
        refine ⟨e' :: es, ending, max fuel fuel', fun f hf => ?_, ?_, hending⟩
        · simp only [KernelPanic.moveLoop, hrun f (le_of_max_le_left hf), Option.bind_eq_bind,
            Option.bind_some, if_neg hzero, hloop f (le_of_max_le_right hf)]
        · simpa using ⟨h', hes⟩

/-- Where `RunMoves` puts the mouse. -/
theorem Inside.middle (h : Inside n c) (hfits : n.toNat * n.toNat < 2 ^ 64) {dir : Direction} :
    At ⟨c.1 * 2 + 1, c.2 * 2 + 1, dir, false⟩ c := by
  obtain ⟨hx, hy⟩ := h.small hfits
  have hone : (1 : Index).toNat = 1 := rfl
  have htwo : (2 : Index).toNat = 2 := rfl
  simp only [At, UInt64.toNat_add, UInt64.toNat_mul, hone, htwo]
  omega

/-- What `RunMoves` is called with: the mouse has scanned the cell that it starts
in. -/
structure Departs (n : Count) (world : Map) (start dest : Cell) (e : Explorer) : Prop where
  knows : Knows n world e
  floodWidth : e.floodMap.width = n
  floodHeight : e.floodMap.height = n
  startInside : Inside n start
  scanned : scanLogGet start.1 start.2 e.scanLog = true
  destInside : Inside n dest

/-- `RunMoves` enters its loop. -/
theorem Departs.enters {start : Cell} (h : Departs n world start dest e) (startDir : Direction) :
    ∃ floodMap fuel, Explores n world dest { e with
        mouse := ⟨start.1 * 2 + 1, start.2 * 2 + 1, startDir, false⟩
        floodMap := floodMap } ∧
      ∀ f ≥ fuel, ∀ rounds, runMoves f rounds world start startDir dest e =
        KernelPanic.moveLoop f world dest rounds { e with
          mouse := ⟨start.1 * 2 + 1, start.2 * 2 + 1, startDir, false⟩
          floodMap := floodMap } := by
  obtain ⟨hmaze, hcharts, hwidth, hheight, hseen⟩ := h.knows
  obtain ⟨floodMap, fuel, hrun, hflooded⟩ :=
    floodAnew_ends hcharts.maze h.destInside e.floodMap h.floodWidth h.floodHeight
  have hat : At ⟨start.1 * 2 + 1, start.2 * 2 + 1, startDir, false⟩ start :=
    h.startInside.middle hmaze.fits
  refine ⟨floodMap, fuel, ⟨⟨hmaze, hcharts, hwidth, hheight, hseen⟩, hflooded,
    .rest hat h.startInside rfl h.scanned⟩, fun f hf rounds => ?_⟩
  simp only [runMoves, hrun f hf, Option.bind_eq_bind, Option.bind_some]

/-- **The mouse is safe in a maze that it does not know**: whatever the maze, as wide
as it is high, it drives through none of its walls, puts none on its map that is not
there, and `RunMoves` returns only with the mouse at rest in the destination. -/
theorem runMoves_safe {start : Cell} (h : Departs n world start dest e) (startDir : Direction)
    (rounds : ℕ) : ∃ es ending fuel,
      (∀ f ≥ fuel, runMoves f rounds world start startDir dest e = some (es, ending)) ∧
      (∀ e' ∈ es, Unharmed n world e'.mouse ∧ Charts n world e'.mouseMap) ∧
      ∀ r ∈ ending, JourneyEnds n world dest r := by
  obtain ⟨floodMap, fuel, hstart, hrun⟩ := h.enters startDir
  obtain ⟨es, ending, fuel', hloop, hes, hending⟩ := hstart.moveLoop rounds
  refine ⟨es, ending, max fuel fuel', fun f hf => ?_, fun e' he' => ?_, hending⟩
  · rw [hrun f (le_of_max_le_left hf), hloop f (le_of_max_le_right hf)]
  · exact ⟨(hes e' he').unharmed, (hes e' he').knows.charts⟩

/-- The mouse of `main`, sent to the middle of its maze. -/
theorem runMoves_safe_sample : ∃ es ending fuel,
    (∀ f ≥ fuel, runMoves f 100 (worldMap 8 sampleMaze) (0, 0) .north (4, 4) (startExplorer 8) =
      some (es, ending)) ∧
    (∀ e' ∈ es, Unharmed 8 (worldMap 8 sampleMaze) e'.mouse ∧
      Charts 8 (worldMap 8 sampleMaze) e'.mouseMap) ∧
    ∀ r ∈ ending, JourneyEnds 8 (worldMap 8 sampleMaze) (4, 4) r := by
  have hcalls : ∀ call ∈ sampleMaze, call.state = true := by decide
  have hnorth : mapGetWall 0 0 .north (worldMap 8 sampleMaze) = false := by
    refine (mapGetWall_eq (c := (0, 0))).trans ?_
    rw [stands_worldMap (by decide) hcalls]
    decide
  refine runMoves_safe ⟨startExplorer_knows (by decide) (by decide) hcalls ⟨_, .north, hnorth, rfl⟩,
    rfl, rfl, ?_, (startExplorer_scanned (by decide) (by decide)).mpr rfl, ?_⟩ .north 100
  · exact ⟨by decide, by decide⟩
  · exact ⟨by decide, by decide⟩

end KernelPanic
