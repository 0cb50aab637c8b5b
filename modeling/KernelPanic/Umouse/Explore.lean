import KernelPanic.Umouse.PositionLog
import KernelPanic.Umouse.SubMove.Place

/-!
# KernelPanic.Umouse.Explore

The mouse finds its way through a maze that it does not know (`umouse/movetest.c`).

It looks at the cell ahead, adds the walls it sees to its own map, computes the
distances anew where there were any, and makes the move that `SubMoveFindBest`
chooses.  `Explores` says what it knows at the top of the loop: its map has walls
of the maze only, and all the walls of the cells that it has scanned; the flood
map has the distances in its own map; and the cell that it is in or about to enter
has been scanned.
-/

namespace KernelPanic

open Relaxation

/-- The mouse, and what it knows: `MouseMap`, `FloodMap` and `ScanLog`. -/
structure Explorer where
  mouse : Mouse
  mouseMap : Map
  floodMap : FloodMap
  scanLog : ScanLog

/-- Where the program calls `exit(0)`. -/
inductive Exit where
  /-- "out of bounds". -/
  | outOfBounds
  /-- "NOT POSSIBLE MOVE", in `PrintMove`. -/
  | notPossibleMove
  /-- "didn't end up in center". -/
  | notInCenter
deriving DecidableEq

/-! ## the code -/

/-- The three calls that compute the distances anew. -/
def floodAnew (fuel : ℕ) (mouseMap : Map) (dest : Cell) (floodMap : FloodMap) : Option FloodMap :=
  floodFillCalculate mouseMap fuel
    (floodFillSetDestination dest.1 dest.2 (floodFillClear floodMap))

/-- A round of the loop of `UpdateMap`: `MouseMap` and `mapChanged`. -/
def scanWall (world : Map) (scan : Cell) (seen : Map × Bool) (testDir : Direction) : Map × Bool :=
  if !mapGetWall scan.1 scan.2 testDir seen.1 && mapGetWall scan.1 scan.2 testDir world then
    (mapSetWall scan.1 scan.2 testDir true seen.1, true)
  else seen

/-- The loop of `UpdateMap`. -/
def scanWalls (world : Map) (scan : Cell) (map : Map) : Map × Bool :=
  [.north, .east, .south, .west].foldl (scanWall world scan) (map, false)

/-- `UpdateMap`; `none` when `FloodFillCalculate` has not returned after `fuel`
rounds. -/
def updateMap (fuel : ℕ) (world : Map) (dest : Cell) (e : Explorer) : Option Explorer :=
  if isEdged e.mouse.x e.mouse.y then some e
  else if mapGetWall (e.mouse.x / 2) (e.mouse.y / 2) e.mouse.dir world then some e
  else
    let scan := scanCell e.mouse
    let seen := scanWalls world scan e.mouseMap
    let e := { e with mouseMap := seen.1, scanLog := scanLogSet scan.1 scan.2 true e.scanLog }
    if seen.2 then do
      let floodMap ← floodAnew fuel e.mouseMap dest e.floodMap
      some { e with floodMap := floodMap }
    else some e

/-- What the mouse decides by. -/
def Explorer.world (e : Explorer) : World := ⟨e.mouseMap, e.floodMap, e.scanLog⟩

/-- A round of the loop of `RunMoves`; `none` as well when an `ASSERT(0)` is
reached. -/
def moveRound (fuel : ℕ) (world : Map) (dest : Cell) (e : Explorer) :
    Option (Except Exit Explorer) := do
  let e ← updateMap fuel world dest e
  if e.mouse.x > world.width * 2 || e.mouse.y > world.height * 2 then
    some (.error .outOfBounds)
  else
    let move ← subMoveFindBest e.mouse e.world
    if move = .done then some (.error .notPossibleMove)
    else some (.ok { e with mouse := subMoveApply e.mouse move })

/-- The loop of `RunMoves`: the states after its rounds, and how it ends, if it
does within so many rounds. -/
def moveLoop (fuel : ℕ) (world : Map) (dest : Cell) :
    ℕ → Explorer → Option (List Explorer × Option (Except Exit Explorer))
  | 0, _ => some ([], none)
  | rounds + 1, e => do
      match ← moveRound fuel world dest e with
      | .error exit => some ([], some (.error exit))
      | .ok e =>
          if floodFillGet (e.mouse.x / 2) (e.mouse.y / 2) e.floodMap = 0 then
            if isEdged e.mouse.x e.mouse.y then some ([e], some (.error .notInCenter))
            else some ([e], some (.ok e))
          else
            let rest ← moveLoop fuel world dest rounds e
            some (e :: rest.1, rest.2)

/-- `RunMoves`, from the cell `start`. -/
def runMoves (fuel rounds : ℕ) (world : Map) (start : Cell) (startDir : Direction) (dest : Cell)
    (e : Explorer) : Option (List Explorer × Option (Except Exit Explorer)) := do
  let floodMap ← floodAnew fuel e.mouseMap dest e.floodMap
  moveLoop fuel world dest rounds {
    e with
    mouse := ⟨start.1 * 2 + 1, start.2 * 2 + 1, startDir, false⟩
    floodMap := floodMap }

/-! ## walls -/

/-- The wall stands, by the map; the border always does. -/
def Map.stands (map : Map) (q : Wall) : Bool :=
  if q.Interior map.width map.height then bits map.words (q.bit map) else true

/-- Different walls have different bits. -/
def Map.Apart (map : Map) : Prop :=
  ∀ q q' : Wall, q.Interior map.width map.height → q'.Interior map.width map.height →
    q.bit map = q'.bit map → q = q'

variable {map map' world : Map} {c d dest : Cell} {dir : Direction} {q : Wall} {n : Count}
  {m : Mouse} {scanLog : ScanLog} {floodMap : FloodMap} {e : Explorer}

theorem mapGetWall_eq : mapGetWall c.1 c.2 dir map = map.stands (wallOf c.1 c.2 dir) :=
  (addressed c.1 c.2 dir map).get

theorem Wall.interior_of_open (h : map.stands q = false) : q.Interior map.width map.height := by
  by_contra hout
  simp [Map.stands, hout] at h

/-- **`MapSetWall`** adds a wall, and no other. -/
theorem stands_mapSetWall (hapart : map.Apart) :
    (mapSetWall c.1 c.2 dir true map).stands q =
      (map.stands q || decide (q = wallOf c.1 c.2 dir)) := by
  have hset := (addressed c.1 c.2 dir map).set true (q.bit map)
  rw [mapSetWall_eq]
  unfold Map.stands
  by_cases hq : q.Interior map.width map.height
  · rw [if_pos hq, if_pos hq]
    refine hset.trans ?_
    by_cases heq : q = wallOf c.1 c.2 dir
    · subst heq
      simp [hq]
    · rw [if_neg fun h => heq (hapart _ _ hq h.1 h.2)]
      simp [heq]
  · rw [if_neg hq, if_neg hq, Bool.true_or]

/-- The walls that a square maze can have. -/
def wallsOf (n : Count) : Finset Wall :=
  (Finset.range n.toNat ×ˢ Finset.range n.toNat).image (fun p => .horizontal p.1 p.2) ∪
    (Finset.range n.toNat ×ˢ Finset.range n.toNat).image fun p => .vertical p.1 p.2

theorem mem_wallsOf (hq : q.Interior n n) : q ∈ wallsOf n := by
  unfold wallsOf
  cases q with
  | horizontal x y => simp [hq.1, hq.2.2]
  | vertical x y => simp [hq.1, hq.2.2]

/-- How many walls of the maze the mouse has not seen. -/
def unseen (n : Count) (world map : Map) : ℕ :=
  ((wallsOf n).filter fun q => world.stands q && !map.stands q).card

/-- The walls of the map have bits of their own, and all of them are walls of the
maze. -/
structure Charts (n : Count) (world map : Map) : Prop where
  maze : Maze n map
  apart : map.Apart
  real : ∀ q, map.stands q = true → world.stands q = true

/-- What a scan does to the map: walls are added only, and if any is, fewer are
unseen. -/
structure Learns (n : Count) (world map : Map) (seen : Map × Bool) : Prop where
  charts : Charts n world seen.1
  keeps : ∀ q, map.stands q = true → seen.1.stands q = true
  same : seen.2 = false → seen.1 = map
  fewer : seen.2 = true → unseen n world seen.1 < unseen n world map

theorem Charts.learns (h : Charts n world map) : Learns n world map (map, false) :=
  ⟨h, fun _ hq => hq, fun _ => rfl, fun hchanged => absurd hchanged (by simp)⟩

/-- A wall that the mouse sees for the first time is one less unseen. -/
theorem unseen_lt (hkeeps : ∀ q, map.stands q = true → map'.stands q = true)
    (hq : q.Interior n n) (hworld : world.stands q = true) (hold : map.stands q = false)
    (hnew : map'.stands q = true) : unseen n world map' < unseen n world map := by
  refine Finset.card_lt_card ⟨fun q' hq' => ?_, fun hsub => ?_⟩
  · simp only [Finset.mem_filter, Bool.and_eq_true, Bool.not_eq_true'] at hq' ⊢
    refine ⟨hq'.1, hq'.2.1, Bool.eq_false_iff.mpr fun hstands => ?_⟩
    simp [hkeeps q' hstands] at hq'
  · have hmem := hsub (Finset.mem_filter.mpr ⟨mem_wallsOf hq, by simp [hworld, hold]⟩)
    simp [hnew] at hmem

/-- A round of the loop of `UpdateMap`. -/
theorem Learns.scanWall {seen : Map × Bool} (h : Learns n world map seen) (scan : Cell)
    (testDir : Direction) :
    Learns n world map (scanWall world scan seen testDir) ∧
      (world.stands (wallOf scan.1 scan.2 testDir) = true →
        (KernelPanic.scanWall world scan seen testDir).1.stands
          (wallOf scan.1 scan.2 testDir) = true) ∧
      ∀ q, seen.1.stands q = true →
        (KernelPanic.scanWall world scan seen testDir).1.stands q = true := by
  unfold KernelPanic.scanWall
  simp only [mapGetWall_eq]
  by_cases hold : seen.1.stands (wallOf scan.1 scan.2 testDir) = true
  · simpa [hold] using h
  by_cases hworld : world.stands (wallOf scan.1 scan.2 testDir) = true
  · rw [Bool.not_eq_true] at hold
    have hset (q : Wall) : (mapSetWall scan.1 scan.2 testDir true seen.1).stands q =
        (seen.1.stands q || decide (q = wallOf scan.1 scan.2 testDir)) :=
      stands_mapSetWall h.charts.apart
    have hkeeps : ∀ q, seen.1.stands q = true →
        (mapSetWall scan.1 scan.2 testDir true seen.1).stands q = true := by simp_all
    have hnew : (mapSetWall scan.1 scan.2 testDir true seen.1).stands
        (wallOf scan.1 scan.2 testDir) = true := by simp [hset]
    have hin := Wall.interior_of_open hold
    rw [h.charts.maze.width, h.charts.maze.height] at hin
    have hless := unseen_lt hkeeps hin hworld hold hnew
    have hle : unseen n world seen.1 ≤ unseen n world map := by
      cases hchanged : seen.2 with
      | false => rw [h.same hchanged]
      | true => exact (h.fewer hchanged).le
    simp only [hold, hworld, Bool.not_false, Bool.and_true, ↓reduceIte]
    refine ⟨⟨⟨?_, ?_, fun q hq => ?_⟩, fun q hq => hkeeps q (h.keeps q hq), fun hfalse => ?_,
      fun _ => hless.trans_le hle⟩, fun _ => hnew, hkeeps⟩
    · rw [mapSetWall_eq]
      exact ⟨h.charts.maze.width, h.charts.maze.height, h.charts.maze.fits⟩
    · rw [mapSetWall_eq]
      exact h.charts.apart
    · rw [hset, Bool.or_eq_true, decide_eq_true_eq] at hq
      obtain hq | rfl := hq
      · exact h.charts.real q hq
      · exact hworld
    · cases hfalse
  · simpa [hworld] using h

/-! ## the scan log -/

theorem scanLogGet_set (hwidth : scanLog.width = n) (hheight : scanLog.height = n)
    (hfits : n.toNat * n.toNat ≤ 2 ^ 64) (hc : Inside n c) :
    scanLogGet d.1 d.2 (scanLogSet c.1 c.2 true scanLog) = true ↔
      d = c ∨ scanLogGet d.1 d.2 scanLog = true := by
  have hsame (x y : Index) : xyToIndex x y (scanLogSet c.1 c.2 true scanLog) =
      xyToIndex x y scanLog := rfl
  rw [scanLogGet_eq, scanLogGet_eq, bits_scanLogSet, hsame]
  change (d.1 < scanLog.width ∧ d.2 < scanLog.height) ∧ _ ↔ _
  rw [hwidth, hheight]
  constructor
  · rintro ⟨hd, hbit⟩
    split at hbit
    · next hindex =>
        obtain ⟨hx, hy⟩ := xyToIndex_inj hwidth hfits hd.1 hd.2 hc.1 hc.2 hindex
        exact .inl (Prod.ext hx hy)
    · exact .inr ⟨hd, hbit⟩
  · rintro (rfl | ⟨hd, hbit⟩)
    · exact ⟨hc, if_pos rfl⟩
    · exact ⟨hd, by simp [hbit]⟩

/-- What the mouse knows of the maze: all the walls of every cell that it has
scanned. -/
structure Knows (n : Count) (world : Map) (e : Explorer) : Prop where
  maze : Maze n world
  charts : Charts n world e.mouseMap
  scanWidth : e.scanLog.width = n
  scanHeight : e.scanLog.height = n
  seen : ∀ (c : Cell) dir, scanLogGet c.1 c.2 e.scanLog = true →
    world.stands (wallOf c.1 c.2 dir) = true → e.mouseMap.stands (wallOf c.1 c.2 dir) = true

/-- A wall of a scanned cell is open in the maze if it is open on the map. -/
theorem Knows.open (h : Knows n world e) (hscan : scanLogGet c.1 c.2 e.scanLog = true)
    (hopen : mapGetWall c.1 c.2 dir e.mouseMap = false) : mapGetWall c.1 c.2 dir world = false := by
  rw [mapGetWall_eq] at hopen ⊢
  exact Bool.eq_false_iff.mpr fun hworld => by simp [h.seen c dir hscan hworld] at hopen

theorem Knows.open_map (h : Knows n world e) (hopen : mapGetWall c.1 c.2 dir world = false) :
    mapGetWall c.1 c.2 dir e.mouseMap = false := by
  rw [mapGetWall_eq] at hopen ⊢
  exact Bool.eq_false_iff.mpr fun hmap => by simp [h.charts.real _ hmap] at hopen

theorem Charts.scanWalls (h : Charts n world map) (scan : Cell) :
    Learns n world map (scanWalls world scan map) ∧
      ∀ dir, world.stands (wallOf scan.1 scan.2 dir) = true →
        (KernelPanic.scanWalls world scan map).1.stands (wallOf scan.1 scan.2 dir) = true := by
  obtain ⟨hnorth, hnorth', -⟩ := h.learns.scanWall scan .north
  obtain ⟨heast, heast', hkeep⟩ := hnorth.scanWall scan .east
  obtain ⟨hsouth, hsouth', hkeep'⟩ := heast.scanWall scan .south
  obtain ⟨hwest, hwest', hkeep''⟩ := hsouth.scanWall scan .west
  refine ⟨hwest, fun dir hdir => ?_⟩
  cases dir with
  | north => exact hkeep'' _ (hkeep' _ (hkeep _ (hnorth' hdir)))
  | east => exact hkeep'' _ (hkeep' _ (heast' hdir))
  | south => exact hkeep'' _ (hsouth' hdir)
  | west => exact hwest' hdir

/-- A scan of a cell keeps what the mouse knows, and adds the cell. -/
theorem Knows.scan (h : Knows n world e) {scan : Cell} (hscan : Inside n scan) :
    Knows n world { e with
      mouseMap := (scanWalls world scan e.mouseMap).1
      scanLog := scanLogSet scan.1 scan.2 true e.scanLog } := by
  obtain ⟨hlearns, hsees⟩ := h.charts.scanWalls scan
  refine ⟨h.maze, hlearns.charts, h.scanWidth, h.scanHeight, ?_⟩
  intro c dir hc hwall
  rw [scanLogGet_set h.scanWidth h.scanHeight h.maze.fits.le hscan] at hc
  obtain rfl | hc := hc
  · exact hsees dir hwall
  · exact hlearns.keeps _ (h.seen c dir hc hwall)

/-! ## distances -/

/-- The flood map has the distances to `dest` on the map. -/
structure Flooded (n : Count) (map : Map) (dest : Cell) (m : FloodMap) : Prop where
  width : m.width = n
  height : m.height = n
  inside : Inside n dest
  levels : ∀ c, (level m c : ℕ∞) = min 255 (distance (Opens map) {dest} c)

theorem floodAnew_ends (hmaze : Maze n map) (hdest : Inside n dest) (m : FloodMap) (hw : m.width = n) (hh : m.height = n) :
    ∃ result fuel, (∀ f ≥ fuel, floodAnew f map dest m = some result) ∧
      Flooded n map dest result := by
  obtain ⟨width, height, mapBuff, eventBuff⟩ := m
  obtain rfl : width = n := hw
  obtain rfl : height = width := hh
  have hstart := Labelled.start hmaze.fits mapBuff eventBuff
    fun d (hd : d ∈ [dest]) => List.mem_singleton.mp hd ▸ hdest
  obtain ⟨result, s', fuel, hrun, hresult, hs, hdone⟩ :=
    calculateEnds_of_sound hmaze.width hmaze.height (Sound.start _) _ hstart
  refine ⟨result, fuel, hrun, hresult.width, hresult.height, hdest, fun c => ?_⟩
  rw [level, hresult.label, hs.label_eq hdone]
  simp

/-- The colour of the cell, as on a chess board. -/
def cellColour (c : Cell) : Bool := (c.1.toNat + c.2.toNat) % 2 = 0

theorem Opens.colour (h : Opens map c d) : cellColour c ≠ cellColour d := by
  obtain ⟨dir, hopen, rfl⟩ := h
  rw [mapGetWall_eq] at hopen
  have hin := Wall.interior_of_open hopen
  have hw := map.width.toNat_lt
  have hh := map.height.toNat_lt
  have hone : (1 : Index).toNat = 1 := rfl
  unfold cellColour
  rw [ne_eq, decide_eq_decide]
  cases dir <;> simp only [wallOf, Wall.Interior] at hin <;>
  simp only [beyond, UInt64.add_zero, UInt64.toNat_add, UInt64.toNat_sub, hone] <;> omega

section Flooded

variable (h : Flooded n map dest floodMap)

include h

theorem Flooded.le_cap (c : Cell) : level floodMap c ≤ 255 := by
  have hlevel := h.levels c
  exact Nat.cast_le.mp (hlevel.le.trans (min_le_left _ _))

/-- Below 255 the level is the distance. -/
theorem Flooded.distance_eq (hlt : level floodMap c < 255) :
    distance (Opens map) {dest} c = level floodMap c := by
  have hlevel := h.levels c
  obtain hle | hle := le_total (255 : ℕ∞) (distance (Opens map) {dest} c)
  · rw [min_eq_left hle] at hlevel
    exact absurd (Nat.cast_injective hlevel) hlt.ne
  · rw [min_eq_right hle] at hlevel
    exact hlevel.symm

theorem Flooded.level_eq_zero : level floodMap c = 0 ↔ c = dest := by
  constructor
  · intro hzero
    have hdist := h.distance_eq (c := c) (by omega)
    rw [hzero, Nat.cast_zero, distance_eq_zero] at hdist
    exact hdist
  · rintro rfl
    have hlevel := h.levels c
    rw [distance_eq_zero.mpr (Set.mem_singleton c), min_eq_right zero_le] at hlevel
    exact_mod_cast hlevel

/-- Cells with no wall between them are not at the same distance: a step changes
the colour of the cell. -/
theorem Flooded.level_ne (hopen : mapGetWall c.1 c.2 dir map = false)
    (hlt : level floodMap c < 255) : level floodMap (beyond c dir) ≠ level floodMap c := by
  intro heq
  have hdist := h.distance_eq hlt
  have hdist' := h.distance_eq (heq ▸ hlt)
  have hne : distance (Opens map) {dest} c ≠ distance (Opens map) {dest} (beyond c dir) :=
    distance_ne (fun _ _ => Opens.colour) (fun c hc => congrArg cellColour hc) ⟨dir, hopen, rfl⟩
      (hdist ▸ ENat.natCast_ne_top _)
  rw [hdist, hdist', heq] at hne
  exact hne rfl

/-- On a map with fewer walls a cell is no further away than in the maze. -/
theorem Flooded.lt_cap (hopens : ∀ c d, Opens world c d → Opens map c d)
    (hnear : distance (Opens world) {dest} c < 255) : level floodMap c < 255 := by
  have hlevel := h.levels c
  have hless := (min_le_right (255 : ℕ∞) _).trans_lt ((distance_mono hopens c).trans_lt hnear)
  rw [← hlevel] at hless
  exact_mod_cast hless

/-- A cell nearer to the destination can be entered. -/
theorem Flooded.exists_lower (hne : c ≠ dest) (hlt : level floodMap c < 255) :
    ∃ dir, mapGetWall c.1 c.2 dir map = false ∧
      level floodMap (beyond c dir) < level floodMap c := by
  have hdist := h.distance_eq hlt
  obtain ⟨k, hk⟩ := Nat.exists_eq_succ_of_ne_zero fun hzero => hne (h.level_eq_zero.mp hzero)
  rw [hk] at hdist
  obtain ⟨d, ⟨dir, hopen, rfl⟩, hd⟩ := exists_closer hdist
  have hlevel := h.levels (beyond c dir)
  rw [hd, min_eq_right (by exact_mod_cast (by omega))] at hlevel
  exact ⟨dir, hopen, by rw [Nat.cast_injective hlevel]; omega⟩

end Flooded

/-! ## a look at the cell ahead -/

/-- What `UpdateMap` leaves. -/
structure Updated (n : Count) (world : Map) (dest : Cell) (e e' : Explorer) : Prop where
  knows : Knows n world e'
  flooded : Flooded n e'.mouseMap dest e'.floodMap
  mouse : e'.mouse = e.mouse
  keeps : ∀ c : Cell, scanLogGet c.1 c.2 e.scanLog = true → scanLogGet c.1 c.2 e'.scanLog = true
  looked : ∀ c, At e.mouse c → mapGetWall c.1 c.2 e.mouse.dir world = false →
    scanLogGet (beyond c e.mouse.dir).1 (beyond c e.mouse.dir).2 e'.scanLog = true
  same : (∀ c, At e.mouse c →
      scanLogGet (beyond c e.mouse.dir).1 (beyond c e.mouse.dir).2 e.scanLog = true) →
    e'.mouseMap = e.mouseMap ∧ e'.floodMap = e.floodMap
  progress : e'.mouseMap = e.mouseMap ∧ e'.floodMap = e.floodMap ∨
    unseen n world e'.mouseMap < unseen n world e.mouseMap

/-- A scan of a cell whose walls are known changes nothing. -/
theorem scanWalls_known {scan : Cell} (hknown : ∀ dir, world.stands (wallOf scan.1 scan.2 dir) = true →
    map.stands (wallOf scan.1 scan.2 dir) = true) : scanWalls world scan map = (map, false) := by
  have hround (dir : Direction) : scanWall world scan (map, false) dir = (map, false) := by
    unfold scanWall
    simp only [mapGetWall_eq]
    have hdir := hknown dir
    cases hworld : world.stands (wallOf scan.1 scan.2 dir) <;> simp_all
  simp [scanWalls, hround]

theorem Mouse.Centered.at (h : m.Centered) : At m (m.x / 2, m.y / 2) := by
  obtain ⟨hx, hy⟩ := h
  have htwo : (2 : Index).toNat = 2 := rfl
  rw [odd_iff] at hx hy
  simp only [At, UInt64.toNat_div, htwo]
  omega

/-- Where `UpdateMap` does not scan, it leaves everything as it is. -/
theorem Updated.refl (h : Knows n world e) (hf : Flooded n e.mouseMap dest e.floodMap)
    (hblocked : ∀ c, At e.mouse c → mapGetWall c.1 c.2 e.mouse.dir world = true) :
    Updated n world dest e e :=
  ⟨h, hf, rfl, fun _ hc => hc, fun c hat hopen => by simp [hblocked c hat] at hopen,
    fun _ => ⟨rfl, rfl⟩, .inl ⟨rfl, rfl⟩⟩

/-- The mouse is in the middle of one cell only. -/
theorem At.eq (h : At m c) (h' : At m d) : d = c :=
  Prod.ext (h'.half.1.symm.trans h.half.1) (h'.half.2.symm.trans h.half.2)

/-- Where it scans, the cell ahead is known afterwards. -/
theorem Updated.scan (h : Knows n world e) (hat : At e.mouse c)
    (hopen : mapGetWall c.1 c.2 e.mouse.dir world = false)
    (hf : Flooded n (scanWalls world (beyond c e.mouse.dir) e.mouseMap).1 dest floodMap)
    (hsame : (scanWalls world (beyond c e.mouse.dir) e.mouseMap).2 = false →
      floodMap = e.floodMap) :
    Updated n world dest e { e with
      mouseMap := (scanWalls world (beyond c e.mouse.dir) e.mouseMap).1
      floodMap := floodMap
      scanLog :=
        scanLogSet (beyond c e.mouse.dir).1 (beyond c e.mouse.dir).2 true e.scanLog } := by
  have hinside : Inside n (beyond c e.mouse.dir) := h.maze.inside hopen
  have hset (d : Cell) := scanLogGet_set (d := d) h.scanWidth h.scanHeight h.maze.fits.le hinside
  obtain ⟨hmaze, hcharts, hwidth, hheight, hseen⟩ := h.scan hinside
  have hlearns := (h.charts.scanWalls (beyond c e.mouse.dir)).1
  refine ⟨⟨hmaze, hcharts, hwidth, hheight, hseen⟩, hf, rfl, fun d hd => (hset d).mpr (.inr hd),
    fun d hd _ => ?_, fun hall => ?_, ?_⟩
  · rw [hat.eq hd]
    exact (hset _).mpr (.inl rfl)
  · -- there is no new wall in a cell that has been scanned
    have hknown := scanWalls_known fun dir => h.seen (beyond c e.mouse.dir) dir (hall c hat)
    rw [hknown] at hsame ⊢
    exact ⟨rfl, hsame rfl⟩
  · cases hchanged : (scanWalls world (beyond c e.mouse.dir) e.mouseMap).2 with
    | false => exact .inl ⟨hlearns.same hchanged, hsame hchanged⟩
    | true => exact .inr (hlearns.fewer hchanged)

/-- **`UpdateMap`** returns, and the mouse then knows the cell ahead. -/
theorem updateMap_ends (h : Knows n world e) (hf : Flooded n e.mouseMap dest e.floodMap) :
    ∃ e' fuel, (∀ f ≥ fuel, updateMap f world dest e = some e') ∧ Updated n world dest e e' := by
  unfold updateMap
  by_cases hedge : isEdged e.mouse.x e.mouse.y = true
  · refine ⟨e, 0, fun f _ => if_pos hedge, .refl h hf fun c hat => ?_⟩
    exact absurd hat.centered (isEdged_iff.mp hedge)
  have hcenter : e.mouse.Centered := by_contra fun hc => hedge (isEdged_iff.mpr hc)
  have hat := hcenter.at
  generalize (e.mouse.x / 2, e.mouse.y / 2) = c at hat
  simp only [if_neg hedge, hat.half]
  by_cases hwall : mapGetWall c.1 c.2 e.mouse.dir world = true
  · refine ⟨e, 0, fun f _ => if_pos hwall, .refl h hf fun c' hat' => ?_⟩
    rwa [hat.eq hat']
  simp only [if_neg hwall]
  rw [Bool.not_eq_true] at hwall
  rw [hat.scanCell h.maze.fits (h.maze.interior hwall)]
  obtain ⟨hlearns, -⟩ := h.charts.scanWalls (beyond c e.mouse.dir)
  cases hchanged : (scanWalls world (beyond c e.mouse.dir) e.mouseMap).2 with
  | false =>
      have hf' := hlearns.same hchanged ▸ hf
      exact ⟨_, 0, fun f _ => rfl, .scan h hat hwall hf' fun _ => rfl⟩
  | true =>
      obtain ⟨result, fuel, hrun, hresult⟩ :=
        floodAnew_ends hlearns.charts.maze hf.inside e.floodMap hf.width hf.height
      refine ⟨_, fuel, fun f hle => ?_, .scan h hat hwall hresult fun hfalse => ?_⟩
      · simp only [hrun f hle, ↓reduceIte, Option.bind_eq_bind, Option.bind_some]
      · exact absurd (hchanged.symm.trans hfalse) (by simp)

/-! ## the start -/

/-- What `main` has set up before it calls `RunMoves`, over buffers that are zero. -/
def startExplorer (n : Count) : Explorer where
  mouse := ⟨1, 1, .north, false⟩
  mouseMap := mapSetWall 0 0 .east true (blankMap n n)
  floodMap := floodFillInit n n (fun _ => 0) fun _ => 0
  scanLog := scanLogSet 0 0 true (scanLogInit n n fun _ => 0)

/-- `WorldMap`: the eastern wall of the first cell, and the walls of the maze. -/
def worldMap (n : Count) (calls : List WallCall) : Map :=
  setWalls calls (mapSetWall 0 0 .east true (blankMap n n))

/-- `MakeLines`, as the calls of `MapSetWall` that it makes. -/
def makeLines (x y : Index) (moveDir wallDir : Direction) : ℕ → List WallCall
  | 0 => []
  | dist + 1 =>
      let next := subMoveTranslate x y moveDir 1
      ⟨x, y, wallDir, true⟩ :: makeLines next.1 next.2 moveDir wallDir dist

/-- The maze of `main`. -/
def sampleMaze : List WallCall :=
  makeLines 0 2 .east .south 6 ++ makeLines 6 3 .north .west 4 ++ makeLines 1 5 .east .north 6 ++
    makeLines 4 3 .north .west 2 ++ makeLines 4 2 .east .north 2 ++ makeLines 0 5 .east .south 4 ++
    ⟨1, 6, .east, true⟩ :: makeLines 3 3 .north .west 2

variable {calls : List WallCall}

/-- The walls of a square maze have bits of their own. -/
theorem blankMap_apart (hfits : n.toNat * n.toNat < 2 ^ 64) : (blankMap n n).Apart := by
  suffices hfit : WallsFit n n (mapSizeNeeded n n) from hfit.apart.apart
  have hone : (1 : Count).toNat = 1 := rfl
  have hsub : n.toNat * (n.toNat - 1) ≤ n.toNat * n.toNat := Nat.mul_le_mul_left _ (Nat.sub_le _ _)
  have hpred : n.toNat = 0 ∨ (n - 1).toNat = n.toNat - 1 := by
    have hlt := n.toNat_lt
    rw [UInt64.toNat_sub, hone]
    omega
  have hbits : (mapBitsNeeded n n).toNat = n.toNat * (n.toNat - 1) := by
    unfold mapBitsNeeded
    rw [UInt64.toNat_mul]
    obtain hzero | hpred := hpred
    · simp [hzero]
    · rw [hpred, Nat.mod_eq_of_lt (by omega)]
  have hwords : (mapDimensionSizeNeeded n n).toNat = (n.toNat * (n.toNat - 1) + 31) / 32 := by
    rw [mapDimensionSizeNeeded, toNat_bitmapSize, hbits]
  have hsize : (mapSizeNeeded n n).toNat = 2 * ((n.toNat * (n.toNat - 1) + 31) / 32) := by
    rw [mapSizeNeeded, UInt64.toNat_add, hwords]
    omega
  exact ⟨by omega, by omega, by omega, fun _ => by omega, fun _ => by omega⟩

theorem stands_blankMap : (blankMap n n).stands q = !decide (q.Interior n n) := by
  have hzero (k : ℕ) : bits (blankMap n n).words k = false := by simp [bits, blankMap]
  unfold Map.stands
  rw [hzero]
  by_cases hq : q.Interior n n
  · simp [blankMap, hq]
  · simp [blankMap, hq]

/-- The map that both start from. -/
theorem stands_startMap (hfits : n.toNat * n.toNat < 2 ^ 64) :
    (mapSetWall 0 0 .east true (blankMap n n)).stands q =
      (!decide (q.Interior n n) || decide (q = wallOf 0 0 .east)) := by
  rw [← stands_blankMap]
  exact stands_mapSetWall (c := ((0 : Index), (0 : Index))) (blankMap_apart hfits)

/-- `MapSetWall` calls that only add walls. -/
theorem stands_setWalls {map : Map} (hapart : map.Apart)
    (hcalls : ∀ call ∈ calls, call.state = true) (q : Wall) :
    (setWalls calls map).stands q = (map.stands q || calls.any fun call => q = call.wall) := by
  induction calls generalizing map with
  | nil => simp [setWalls]
  | cons call calls ih =>
      obtain ⟨hcall, hcalls⟩ := List.forall_mem_cons.mp hcalls
      have hset : (mapSetWall call.x call.y call.dir call.state map).stands q =
          (map.stands q || decide (q = call.wall)) := by
        rw [hcall]
        exact stands_mapSetWall (c := (call.x, call.y)) hapart
      have hapart' : (mapSetWall call.x call.y call.dir call.state map).Apart := by
        rw [mapSetWall_eq]
        exact hapart
      refine (ih hapart' hcalls).trans ?_
      rw [hset, List.any_cons, Bool.or_assoc]

/-- The walls of the maze: the border, the eastern wall of the first cell, and those
of the calls. -/
theorem stands_worldMap (hfits : n.toNat * n.toNat < 2 ^ 64)
    (hcalls : ∀ call ∈ calls, call.state = true) (q : Wall) : (worldMap n calls).stands q =
      ((!decide (q.Interior n n) || decide (q = wallOf 0 0 .east)) ||
        calls.any fun call => q = call.wall) := by
  rw [← stands_startMap hfits]
  refine stands_setWalls ?_ hcalls q
  rw [mapSetWall_eq]
  exact blankMap_apart hfits

theorem worldMap_maze (hfits : n.toNat * n.toNat < 2 ^ 64) (calls : List WallCall) :
    Maze n (worldMap n calls) := by
  unfold worldMap
  rw [setWalls_eq, mapSetWall_eq]
  exact ⟨rfl, rfl, hfits⟩

/-- The only cell that the mouse has scanned at the start. -/
theorem startExplorer_scanned (hfits : n.toNat * n.toNat < 2 ^ 64) (hn : 0 < n.toNat) :
    scanLogGet c.1 c.2 (startExplorer n).scanLog = true ↔ c = (0, 0) := by
  have hzero : Inside n (0, 0) := ⟨UInt64.lt_iff_toNat_lt.mpr hn, UInt64.lt_iff_toNat_lt.mpr hn⟩
  refine (scanLogGet_set (d := c) (c := (0, 0)) rfl rfl hfits.le hzero).trans (or_iff_left ?_)
  rw [scanLogGet_eq, bits_scanLogInit]
  simp [bits]

/-- What `main` has set up is in order, where the mouse can leave the first cell. -/
theorem startExplorer_knows (hfits : n.toNat * n.toNat < 2 ^ 64) (hn : 0 < n.toNat)
    (hcalls : ∀ call ∈ calls, call.state = true)
    (hleaves : ∃ d, Opens (worldMap n calls) (0, 0) d) :
    Knows n (worldMap n calls) (startExplorer n) := by
  have hmaze := worldMap_maze hfits calls
  have hstart (q : Wall) : (startExplorer n).mouseMap.stands q = _ := stands_startMap hfits
  have hapart : (startExplorer n).mouseMap.Apart := by
    unfold startExplorer
    rw [mapSetWall_eq]
    exact blankMap_apart hfits
  have hreal : ∀ q, (startExplorer n).mouseMap.stands q = true →
      (worldMap n calls).stands q = true := by
    intro q hq
    rw [hstart] at hq
    rw [stands_worldMap hfits hcalls, hq]
    rfl
  refine ⟨hmaze, ⟨?_, hapart, hreal⟩, rfl, rfl, fun c dir hc hwall => ?_⟩
  · unfold startExplorer
    rw [mapSetWall_eq]
    exact ⟨rfl, rfl, hfits⟩
  · obtain rfl := (startExplorer_scanned hfits hn).mp hc
    obtain ⟨-, dir', hopen, rfl⟩ := hleaves
    rw [mapGetWall_eq] at hopen
    have hother : ∀ q, (worldMap n calls).stands q = false →
        (startExplorer n).mouseMap.stands q = false := fun q hq =>
      Bool.eq_false_iff.mpr fun hstands => by simp [hreal q hstands] at hq
    have hdir := hother _ hopen
    rw [hstart] at hdir ⊢
    cases dir' <;> cases dir <;> simp_all [wallOf, Wall.Interior]

end KernelPanic
