import KernelPanic.Umouse.SubMove

/-!
# KernelPanic.Umouse.SubMove.Safety

The mouse stays in the maze and arrives on no wall, whatever it is told on the way
(`mouse_safe`): the maps and the scan log may be others at every move.

A mouse on an edge is moving, unless `SubMoveFindBest` has just found no move at
all: `SUB_MOVE_DONE` stops it where it is (`stopsOnEdge`).
-/

namespace KernelPanic

/-- The mouse is in the maze, in half-cell coordinates. -/
structure InRange (width height : Count) (m : Mouse) : Prop where
  x_pos : 1 ≤ m.x.toNat
  x_le : m.x.toNat + 1 ≤ 2 * width.toNat
  y_pos : 1 ≤ m.y.toNat
  y_le : m.y.toNat + 1 ≤ 2 * height.toNat

/-- There is a wall on the edge that the mouse is on. -/
def wallOnEdge (m : Mouse) (map : Map) : Bool :=
  mapGetWall (m.x / 2) (m.y / 2) (if m.x % 2 = 0 then .west else .south) map

/-- A move, what it was chosen by and where it led. -/
structure Drive where
  world : World
  move : SubMove
  mouse : Mouse

/-- The mouse is moved by `SubMoveApply` as `SubMoveFindBest` says; `none` when an
`ASSERT(0)` is reached. -/
def drive : List World → Mouse → Option (List Drive)
  | [], _ => some []
  | w :: worlds, m => do
      let move ← subMoveFindBest m w
      let rest ← drive worlds (subMoveApply m move)
      some (⟨w, move, subMoveApply m move⟩ :: rest)

/-- The mouse is where it may be, and arrived there through no wall. -/
structure Safe (width height : Count) (d : Drive) : Prop where
  range : InRange width height d.mouse
  notPeg : ¬ (d.mouse.x % 2 = 0 ∧ d.mouse.y % 2 = 0)
  parity : Parity d.mouse
  moving : ¬ d.mouse.Centered → d.move ≠ .done → d.mouse.moving = true
  clear : ¬ d.mouse.Centered → d.move ≠ .done → wallOnEdge d.mouse d.world.map = false

variable {m : Mouse} {move : SubMove} {w : World} {map : Map} {width height : Count}

theorem Parity.not_peg (h : Parity m) : ¬ (m.x % 2 = 0 ∧ m.y % 2 = 0) := by
  rintro ⟨hx, hy⟩
  obtain hdir | hdir := h.x_even hx <;> simpa [hdir] using h.y_even hy

/-- An edge without a wall is in the maze. -/
theorem Parity.inRange_of_clear (h : Parity m) (hedge : ¬ m.Centered)
    (hclear : wallOnEdge m map = false) : InRange map.width map.height m := by
  have hget := (addressed (m.x / 2) (m.y / 2) (if m.x % 2 = 0 then .west else .south) map).get
  have hinside : (wallOf (m.x / 2) (m.y / 2) (if m.x % 2 = 0 then .west else .south)).Interior
      map.width map.height := by
    by_contra hout
    rw [if_neg hout] at hget
    exact absurd (hclear.symm.trans hget) Bool.false_ne_true
  have htwo : (2 : Index).toNat = 2 := rfl
  have hpeg := h.not_peg
  unfold Mouse.Centered at hedge
  by_cases hx : m.x % 2 = 0
  · rw [if_pos hx] at hinside
    simp only [wallOf, Wall.Interior, UInt64.toNat_div, htwo] at hinside
    simp only [even_iff] at hx hpeg
    constructor <;> omega
  · rw [if_neg hx] at hinside
    simp only [wallOf, Wall.Interior, UInt64.toNat_div, htwo] at hinside
    simp only [even_iff, odd_iff] at hx hedge
    constructor <;> omega

/-- From an edge the mouse comes to the middle of a cell of the maze. -/
theorem Parity.inRange_translate (h : Parity m) (hedge : ¬ m.Centered)
    (hin : InRange width height m) : InRange width height m.translate := by
  obtain ⟨hx, hx', hy, hy'⟩ := hin
  have heven := h.x_even
  have heven' := h.y_even
  have hone : (1 : Index).toNat = 1 := rfl
  have hlt := m.x.toNat_lt
  have hlt' := m.y.toNat_lt
  simp only [Mouse.Centered, even_iff, odd_iff] at heven heven' hedge
  cases hdir : m.dir <;> simp only [hdir, reduceCtorEq, or_false, or_true, imp_false]
    at heven heven' <;> constructor <;>
  simp only [Mouse.translate, subMoveTranslate, hdir, UInt64.toNat_add, UInt64.toNat_sub, hone] <;>
  omega

theorem apply_moving : (subMoveApply m move).moving = subMoveMovingEndState move := by
  cases move <;> rfl

/-- Where a legal move ends: in the middle of a cell, having come from an edge or
not left the cell, or on an edge, at the end of a move that goes on. -/
theorem ends_of_legal (h : Parity m) (hmove : move ≠ .done) (hstart : Starts m move) :
    (subMoveApply m move).Centered ∧
        ((subMoveApply m move).x = m.x ∧ (subMoveApply m move).y = m.y ∨
          ¬ m.Centered ∧ (subMoveApply m move).x = m.translate.x ∧
            (subMoveApply m move).y = m.translate.y) ∨
      ¬ (subMoveApply m move).Centered ∧ move ∈ [.start, .forward, .integrateRight, .integrateLeft] := by
  obtain ⟨hcentered, hedge, -⟩ := hstart
  have hmoving (b : Bool) : Parity { m with moving := b } := ⟨h.x_even, h.y_even⟩
  have htranslate (b : Bool) : (Mouse.translate { m with moving := b }).Centered ↔ ¬ m.Centered :=
    (hmoving b).centered_translate
  cases move with
  | done => exact absurd rfl hmove
  | start | forward =>
      by_cases hm : m.Centered
      · exact .inr ⟨fun hc => (htranslate _).mp hc hm, by decide⟩
      · exact .inl ⟨(htranslate _).mpr hm, .inr ⟨hm, rfl, rfl⟩⟩
  | stop =>
      have hm := isEdged_iff.mp hedge
      exact .inl ⟨(htranslate _).mpr hm, .inr ⟨hm, rfl, rfl⟩⟩
  | turnRight | turnLeft | turnAround => exact .inl ⟨isCentered_iff.mp hcentered, .inl ⟨rfl, rfl⟩⟩
  | integrateRight | integrateLeft =>
      exact .inr ⟨((hmoving true).integrate (isEdged_iff.mp hedge) _).2, by decide⟩

/-- A legal move that ends on an edge has no wall there. -/
theorem clear_of_legal (hlegal : subMoveLegal m move w = true)
    (hmove : move ∈ [.start, .forward, .integrateRight, .integrateLeft])
    (hedge : ¬ (subMoveApply m move).Centered) :
    wallOnEdge (subMoveApply m move) w.map = false := by
  have hend := endOnWall_of_legal hlegal
  generalize subMoveApply m move = m' at hend hedge
  have hcases : moveEndOnWall m'.x m'.y w.map move = moveEndOnWall m'.x m'.y w.map .start := by
    simp only [List.mem_cons, List.not_mem_nil, or_false] at hmove
    obtain rfl | rfl | rfl | rfl := hmove <;> rfl
  rw [hcases] at hend
  unfold Mouse.Centered at hedge
  unfold moveEndOnWall at hend
  unfold wallOnEdge
  simp only [← not_odd] at *
  grind

/-- **A legal move is safe.** -/
theorem safe_of_legal (h : Parity m) (hin : InRange w.map.width w.map.height m)
    (hmove : move ≠ .done) (hlegal : subMoveLegal m move w = true) :
    Safe w.map.width w.map.height ⟨w, move, subMoveApply m move⟩ := by
  have hparity := h.apply (starts_of_legal hlegal)
  obtain ⟨hc, hwhere⟩ | ⟨hedge, hgoes⟩ := ends_of_legal h hmove (starts_of_legal hlegal)
  · refine ⟨?_, hparity.not_peg, hparity, fun hedge => absurd hc hedge, fun hedge => absurd hc hedge⟩
    obtain ⟨hx, hy⟩ | ⟨hm, hx, hy⟩ := hwhere
    · obtain ⟨h1, h2, h3, h4⟩ := hin
      exact ⟨hx ▸ h1, hx ▸ h2, hy ▸ h3, hy ▸ h4⟩
    · obtain ⟨h1, h2, h3, h4⟩ := h.inRange_translate hm hin
      exact ⟨hx ▸ h1, hx ▸ h2, hy ▸ h3, hy ▸ h4⟩
  · have hclear := clear_of_legal hlegal hgoes hedge
    refine ⟨hparity.inRange_of_clear hedge hclear, hparity.not_peg, hparity, fun _ _ => ?_,
      fun _ _ => hclear⟩
    show (subMoveApply m move).moving = true
    rw [apply_moving]
    simp only [List.mem_cons, List.not_mem_nil, or_false] at hgoes
    obtain rfl | rfl | rfl | rfl := hgoes <;> rfl

/-- Stopping is safe anywhere. -/
theorem safe_of_done (h : Parity m) (hin : InRange w.map.width w.map.height m) :
    Safe w.map.width w.map.height ⟨w, .done, subMoveApply m .done⟩ :=
  ⟨⟨hin.x_pos, hin.x_le, hin.y_pos, hin.y_le⟩, h.not_peg, ⟨h.x_even, h.y_even⟩,
    fun _ hmove => absurd rfl hmove, fun _ hmove => absurd rfl hmove⟩

/-- **The mouse never drives through a wall or off the maze**, and no `ASSERT(0)`
is reached. -/
theorem mouse_safe (width height : Count) (worlds : List World)
    (hmaps : ∀ w ∈ worlds, w.map.width = width ∧ w.map.height = height) (m : Mouse)
    (hcenter : m.Centered) (hin : InRange width height m) :
    ∃ drives, drive worlds m = some drives ∧ ∀ d ∈ drives, Safe width height d := by
  have hparity := hcenter.parity
  clear hcenter
  induction worlds generalizing m with
  | nil => exact ⟨[], rfl, by simp⟩
  | cons w worlds ih =>
      obtain ⟨⟨rfl, rfl⟩, hmaps⟩ := List.forall_mem_cons.mp hmaps
      obtain ⟨best, hbest, hcases⟩ := hparity.findBest_cases (w := w)
      have hsafe : Safe w.map.width w.map.height ⟨w, best, subMoveApply m best⟩ := by
        obtain rfl | hlegal := hcases
        · exact safe_of_done hparity hin
        · obtain ⟨hmove, hlegal⟩ := mem_legalMoves.mp hlegal
          exact safe_of_legal hparity hin hmove hlegal
      obtain ⟨drives, hdrives, hrest⟩ := ih hmaps _ hsafe.range hsafe.parity
      refine ⟨⟨w, best, subMoveApply m best⟩ :: drives, ?_, List.forall_mem_cons.mpr ⟨hsafe, hrest⟩⟩
      rw [drive, hbest, Option.bind_eq_bind, Option.bind_some, hdrives]
      rfl

/-- A maze of two cells without a wall between them, the lower one further from the
destination. -/
def twoCells (scanned : Bool) : World where
  map := blankMap 1 2
  flood := ⟨1, 2, fun i => if i = 0 then 1 else 0, fun _ => 0⟩
  scan := ⟨1, 2, fun _ => if scanned then -1 else 0⟩

/-- The mouse starts towards a cell that is then no longer known to be scanned, and
is stopped on the edge. -/
theorem stopsOnEdge : ∃ worlds m drives, (∀ w ∈ worlds, w.map.width = 1 ∧ w.map.height = 2) ∧
    m.Centered ∧ InRange 1 2 m ∧ m.moving = false ∧ drive worlds m = some drives ∧
    ∃ d ∈ drives, ¬ d.mouse.Centered ∧ d.mouse.moving = false := by
  refine ⟨[twoCells true, twoCells false], ⟨1, 1, .north, false⟩,
    [⟨twoCells true, .start, ⟨1, 2, .north, true⟩⟩, ⟨twoCells false, .done, ⟨1, 2, .north, false⟩⟩],
    by simp [twoCells, blankMap], by decide, ⟨by decide, by decide, by decide, by decide⟩, rfl, ?_,
    ⟨twoCells false, .done, ⟨1, 2, .north, false⟩⟩, by simp, by decide, rfl⟩
  rfl

theorem mouse_safe_sample :
    ∃ drives, drive [twoCells true, twoCells false] ⟨1, 1, .north, false⟩ = some drives ∧
      ∀ d ∈ drives, Safe 1 2 d :=
  mouse_safe 1 2 [twoCells true, twoCells false] (by simp [twoCells, blankMap])
    ⟨1, 1, .north, false⟩ (by decide) ⟨by decide, by decide, by decide, by decide⟩

end KernelPanic
