import KernelPanic.Umouse.Explore.Run

/-!
# KernelPanic.Umouse.Explore.Arrival

The mouse reaches the destination when it can be reached at all.

Every round has the mouse see a wall that it did not know, or lowers its rank: the
distance of its cell on its own map, and then what is still to be done in that
cell.  Cells side by side are never at the same distance, so the move that
`SubMoveFindBest` prefers is one that lowers it.

The loop of `RunMoves` ends on the distance of the cell `(x / 2, y / 2)`, which on
an edge is the northern or eastern one: a mouse that comes to the destination from
the south or the west is stopped before it is in it, and the program exits
(`movetestMain_returns`).
-/

namespace KernelPanic

open Relaxation

variable {n : Count} {world : Map} {dest c d : Cell} {e e' : Explorer} {m : Mouse} {move : SubMove}
  {q : Wall}

/-! ## the way to the destination -/

/-- `SubMoveFindBest` finds no move that ends in a cell further away than a legal
one. -/
theorem Parity.findBest_level {w : World} {best : SubMove} (h : Parity m) (hmove : move ≠ .done)
    (hlegal : Legal m move w) (hlt : level w.flood (cellOf (subMoveApply m move)) < 255)
    (hbest : subMoveFindBest m w = some best) :
    best ≠ .done ∧ level w.flood (cellOf (subMoveApply m best)) ≤
      level w.flood (cellOf (subMoveApply m move)) := by
  have hmem : move ∈ .done :: legalMoves m w :=
    List.mem_cons_of_mem _ (mem_legalMoves.mpr ⟨hmove, legal_iff.mpr hlegal⟩)
  have hmin := List.not_lt_of_mem_argmin hmem (h.findBest.symm.trans hbest)
  have hle : (standing m w best).flood.toNat ≤ (standing m w move).flood.toNat := by
    by_contra hgt
    exact hmin (Prod.Lex.toLex_lt_toLex.mpr
      (.inl (Prod.Lex.toLex_lt_toLex.mpr (.inl (not_le.mp hgt)))))
  have hstanding : (standing m w move).flood.toNat =
      level w.flood (cellOf (subMoveApply m move)) := by
    cases move <;> first | rfl | exact absurd rfl hmove
  rw [hstanding] at hle
  have hne : best ≠ .done := by
    rintro rfl
    exact absurd (hle.trans_lt hlt) (Nat.lt_irrefl 255)
  refine ⟨hne, ?_⟩
  cases best <;> first | exact hle | exact absurd rfl hne

/-- A nearer cell is straight ahead. -/
def FacesNearer (e : Explorer) : Prop :=
  mapGetWall (cellOf e.mouse).1 (cellOf e.mouse).2 e.mouse.dir e.mouseMap = false ∧
    level e.floodMap (beyond (cellOf e.mouse) e.mouse.dir) < level e.floodMap (cellOf e.mouse)

instance (e : Explorer) : Decidable (FacesNearer e) := inferInstanceAs (Decidable (_ ∧ _))

/-- What every move lowers, as long as the map stays as it is: the distance of the
cell, then what is still to be done there. -/
def rank (e : Explorer) : ℕ :=
  4 * level e.floodMap (cellOf e.mouse) +
    if ¬ e.mouse.Centered then 3 else if e.mouse.moving = true ∨ FacesNearer e then 1 else 2

theorem rank_entering (h : Entering e.mouse c) (hc : Small c) :
    rank e = 4 * level e.floodMap c + 3 := by
  rw [rank, h.cellOf hc, if_pos h.not_centered]

theorem rank_at (h : At e.mouse c) : rank e =
    4 * level e.floodMap c + if e.mouse.moving = true ∨ FacesNearer e then 1 else 2 := by
  rw [rank, h.cellOf, if_neg (not_not.mpr h.centered)]

theorem rank_lt (h : Flooded n e.mouseMap dest e.floodMap) : rank e < 1024 := by
  have hle := h.le_cap (cellOf e.mouse)
  unfold rank
  split <;> [skip; split] <;> omega

theorem facesNearer_iff (hat : At e.mouse c) : FacesNearer e ↔
    mapGetWall c.1 c.2 e.mouse.dir e.mouseMap = false ∧
      level e.floodMap (beyond c e.mouse.dir) < level e.floodMap c := by
  rw [FacesNearer, hat.cellOf]

section Approach

variable {best : SubMove} (h : Explores n world dest e)
  (hbest : subMoveFindBest e.mouse e.world = some best)
  (hlegal : best ≠ .done → Legal e.mouse best e.world)

include h hbest hlegal

/-- At rest before a nearer cell the mouse starts. -/
theorem Explores.start_rank (hat : At e.mouse c) (hin : Inside n c)
    (hrest : e.mouse.moving = false) (hscan : scanLogGet c.1 c.2 e.scanLog = true)
    (hlooked : mapGetWall c.1 c.2 e.mouse.dir world = false →
      scanLogGet (beyond c e.mouse.dir).1 (beyond c e.mouse.dir).2 e.scanLog = true)
    (hlt : level e.floodMap c < 255) (hahead : FacesNearer e) :
    best = .start ∧ rank (e.after best) < rank e := by
  have hmaze := h.knows.charts.maze
  obtain ⟨hopen, hless⟩ := (facesNearer_iff hat).mp hahead
  have hnext : Entering (e.after .start).mouse (beyond c e.mouse.dir) :=
    hat.entering hmaze.fits (hmaze.interior hopen)
  have hsmall := (hmaze.inside hopen).small hmaze.fits
  have hcell : cellOf (subMoveApply e.mouse .start) = beyond c e.mouse.dir := hnext.cellOf hsmall
  have hstart : Legal e.mouse .start e.world :=
    hat.legal_drive hmaze hopen (hlooked (h.knows.open hscan hopen)) (.inl rfl)
      ⟨hat.isCentered, rfl, by simp [moveStartMoving, hrest]⟩ (by simp)
  obtain ⟨hmove, hle⟩ := h.parity.findBest_level (by simp) hstart (hcell ▸ hless.trans hlt) hbest
  rw [hcell] at hle
  obtain ⟨rfl, -⟩ | ⟨angle, hangle, -⟩ := h.rest_move (hlegal hmove) hmove hat hin hrest
  · have hrank := rank_at hat
    have hrank' : rank (e.after .start) = 4 * level e.floodMap (beyond c e.mouse.dir) + 3 :=
      rank_entering hnext hsmall
    rw [if_pos (.inr hahead)] at hrank
    exact ⟨rfl, by omega⟩
  · -- a turn would stay in the cell
    have hstay : At (subMoveApply e.mouse best) c := by
      rw [apply_turn hangle]
      exact hat
    rw [hstay.cellOf] at hle
    exact absurd (hle.trans_lt hless) (lt_irrefl _)

/-- Otherwise it turns to a nearer cell: there is one, and to start would lead
further away. -/
theorem Explores.turn_rank (hat : At e.mouse c) (hin : Inside n c)
    (hrest : e.mouse.moving = false) (hscan : scanLogGet c.1 c.2 e.scanLog = true)
    (hne : c ≠ dest) (hlt : level e.floodMap c < 255) (hahead : ¬ FacesNearer e) :
    (∃ angle, best.turnAngle = some angle) ∧ rank (e.after best) < rank e := by
  have hmaze := h.knows.charts.maze
  obtain ⟨dir, hopen, hless⟩ := h.flooded.exists_lower hne hlt
  have hdir : dir ≠ e.mouse.dir := by
    rintro rfl
    exact hahead ((facesNearer_iff hat).mpr ⟨hopen, hless⟩)
  obtain ⟨move, angle, hangle, rfl⟩ := exists_turn hdir
  have hturn : Legal e.mouse move e.world := hat.legal_turn hmaze hangle hrest hscan hopen hless
  have hstay : At (subMoveApply e.mouse move) c := by
    rw [apply_turn hangle]
    exact hat
  have hdone : move ≠ .done := by
    rintro rfl
    cases hangle
  obtain ⟨hmove, hle⟩ := h.parity.findBest_level hdone hturn (hstay.cellOf.symm ▸ hlt) hbest
  rw [hstay.cellOf] at hle
  obtain ⟨rfl, hopen', -⟩ | ⟨angle', hangle', hopen', hless'⟩ :=
    h.rest_move (hlegal hmove) hmove hat hin hrest
  · have hnext : Entering (subMoveApply e.mouse .start) (beyond c e.mouse.dir) :=
      hat.entering hmaze.fits (hmaze.interior hopen')
    rw [hnext.cellOf ((hmaze.inside hopen').small hmaze.fits)] at hle
    have hnearer := lt_of_le_of_ne hle (h.flooded.level_ne hopen' hlt)
    exact absurd ((facesNearer_iff hat).mpr ⟨hopen', hnearer⟩) hahead
  · have hmouse : (e.after best).mouse = _ := apply_turn hangle'
    have hstay' : At (e.after best).mouse c := by
      rw [hmouse]
      exact hat
    have hnearer : FacesNearer (e.after best) := by
      rw [facesNearer_iff hstay', hmouse]
      exact ⟨hopen', hless'⟩
    have hrank := rank_at hat
    have hrank' : rank (e.after best) = 4 * level e.floodMap c + _ := rank_at hstay'
    rw [if_pos (.inr hnearer)] at hrank'
    rw [if_neg (by simp [hrest, hahead])] at hrank
    exact ⟨⟨angle', hangle'⟩, by omega⟩

/-- Driving through a cell it goes on. -/
theorem Explores.forward_rank (hat : At e.mouse c) (hmoving : e.mouse.moving = true)
    (hopen : mapGetWall c.1 c.2 e.mouse.dir e.mouseMap = false)
    (hnext : scanLogGet (beyond c e.mouse.dir).1 (beyond c e.mouse.dir).2 e.scanLog = true)
    (hless : level e.floodMap (beyond c e.mouse.dir) < level e.floodMap c) :
    best = .forward ∧ rank (e.after best) < rank e := by
  have hmaze := h.knows.charts.maze
  have hentering : Entering (e.after .forward).mouse (beyond c e.mouse.dir) :=
    hat.entering hmaze.fits (hmaze.interior hopen)
  have hsmall := (hmaze.inside hopen).small hmaze.fits
  have hcell : cellOf (subMoveApply e.mouse .forward) = beyond c e.mouse.dir :=
    hentering.cellOf hsmall
  have hforward : Legal e.mouse .forward e.world :=
    hat.legal_drive hmaze hopen hnext (.inr rfl) ⟨rfl, rfl, hmoving⟩ fun _ => hless
  have hlt := hless.trans_le (h.flooded.le_cap c)
  obtain ⟨hmove, -⟩ := h.parity.findBest_level (by simp) hforward (hcell ▸ hlt) hbest
  obtain rfl := (hlegal hmove).forward hmove hat hmoving
  have hrank := rank_at hat
  have hrank' : rank (e.after .forward) = 4 * level e.floodMap (beyond c e.mouse.dir) + 3 :=
    rank_entering hentering hsmall
  rw [if_pos (.inl hmoving)] at hrank
  exact ⟨rfl, by omega⟩

/-- Driving into a cell it stops or goes on there, or turns into a nearer one. -/
theorem Explores.entering_rank (hat : Entering e.mouse c) (hin : Inside n c)
    (hmoving : e.mouse.moving = true) (hscan : scanLogGet c.1 c.2 e.scanLog = true)
    (hlt : level e.floodMap c < 255) :
    best ≠ .done ∧ rank (e.after best) < rank e ∧
      ∀ angle, best.integrateAngle = some angle →
        level e.floodMap (beyond c (turn e.mouse.dir angle)) < level e.floodMap c := by
  have hmaze := h.knows.charts.maze
  have hstop : Legal e.mouse .stop e.world := hat.legal_stop hmoving hscan
  have hcell : cellOf (subMoveApply e.mouse .stop) = c := At.cellOf (m := subMoveApply e.mouse .stop) hat
  obtain ⟨hmove, hle⟩ := h.parity.findBest_level (by simp) hstop (hcell ▸ hlt) hbest
  rw [hcell] at hle
  have hrank := rank_entering hat (hin.small hmaze.fits)
  refine ⟨hmove, ?_⟩
  obtain rfl | ⟨rfl, -⟩ | ⟨angle, hangle, hopen, hentering, -⟩ :=
    h.entering_move (hlegal hmove) hmove hat hin hmoving
  · have hrank' : rank (e.after .stop) = 4 * level e.floodMap c + _ :=
      rank_at (e := e.after .stop) hat
    refine ⟨?_, by simp [SubMove.integrateAngle]⟩
    split at hrank' <;> omega
  · have hrank' : rank (e.after .forward) = 4 * level e.floodMap c + _ :=
      rank_at (e := e.after .forward) hat
    rw [if_pos (.inl rfl)] at hrank'
    exact ⟨by omega, by simp [SubMove.integrateAngle]⟩
  · have hsmall := (hmaze.inside hopen).small hmaze.fits
    rw [hentering.cellOf hsmall] at hle
    have hnearer : level e.floodMap (beyond c (turn e.mouse.dir angle)) < level e.floodMap c :=
      lt_of_le_of_ne hle (h.flooded.level_ne hopen hlt)
    have hrank' : rank (e.after best) = 4 * level e.floodMap (beyond c (turn e.mouse.dir angle)) + 3 :=
      rank_entering (e := e.after best) hentering hsmall
    refine ⟨by omega, fun angle' hangle' => ?_⟩
    rw [hangle, Option.some.injEq] at hangle'
    exact hangle' ▸ hnearer

end Approach

/-- What holds at the top of the loop when the destination can be reached. -/
structure Approaches (n : Count) (world : Map) (dest : Cell) (e : Explorer) : Prop where
  explores : Explores n world dest e
  near : distance (Opens world) {dest} (cellOf e.mouse) < 255
  away : ∀ c, At e.mouse c → c ≠ dest
  closer : ∀ c, Entering e.mouse c →
    level e.floodMap c < level e.floodMap (beyond c e.mouse.dir.opposite)

/-- The destination is near to every cell from which it can be reached. -/
def Compact (world : Map) (dest : Cell) : Prop :=
  ∀ c, distance (Opens world) {dest} c ≠ ⊤ → distance (Opens world) {dest} c < 255

theorem Compact.beyond {dir : Direction} (hnear : Compact world dest)
    (hopen : mapGetWall c.1 c.2 dir world = false)
    (hc : distance (Opens world) {dest} c < 255) :
    distance (Opens world) {dest} (beyond c dir) < 255 := by
  refine hnear _ (ne_top_of_le_ne_top ?_ (distance_le_succ (Opens.of_open hopen).1))
  exact WithTop.add_ne_top.mpr ⟨hc.ne_top, ENat.one_ne_top⟩

/-- How far the loop is from its end: first of all, how many walls are unseen. -/
def remaining (n : Count) (world : Map) (e : Explorer) : ℕ :=
  1024 * unseen n world e.mouseMap + rank e

theorem rank_congr (hmouse : e'.mouse = e.mouse) (hmap : e'.mouseMap = e.mouseMap)
    (hflood : e'.floodMap = e.floodMap) : rank e' = rank e := by
  obtain ⟨m, map, flood, scan⟩ := e
  obtain ⟨m', map', flood', scan'⟩ := e'
  obtain rfl : m' = m := hmouse
  obtain rfl : map' = map := hmap
  obtain rfl : flood' = flood := hflood
  rfl

theorem Entering.eq (h : Entering m c) (h' : Entering m d) : d = c := At.eq h h'

/-- What a move must leave, for the mouse to come nearer. -/
structure Closes (world : Map) (dest : Cell) (e : Explorer) : Prop where
  near : distance (Opens world) {dest} (cellOf e.mouse) < 255
  closer : ∀ c, Entering e.mouse c →
    level e.floodMap c < level e.floodMap (beyond c e.mouse.dir.opposite)

theorem Closes.of_at (hat : At e.mouse c) (hc : distance (Opens world) {dest} c < 255) :
    Closes world dest e :=
  ⟨hat.cellOf.symm ▸ hc, fun _ h => absurd hat.centered h.not_centered⟩

theorem Closes.of_entering (hat : Entering e.mouse (beyond c e.mouse.dir))
    (hsmall : Small (beyond c e.mouse.dir))
    (hc : distance (Opens world) {dest} (beyond c e.mouse.dir) < 255)
    (hless : level e.floodMap (beyond c e.mouse.dir) < level e.floodMap c) :
    Closes world dest e := by
  refine ⟨(hat.cellOf hsmall).symm ▸ hc, fun d hd => ?_⟩
  rw [hat.eq hd, beyond_opposite]
  exact hless

/-- The move of a round, after the look. -/
theorem Approaches.step (hnear : Compact world dest) (h : Approaches n world dest e)
    (hup : Updated n world dest e e') {best : SubMove}
    (hbest : subMoveFindBest e'.mouse e'.world = some best)
    (hlegal : best ≠ .done → Legal e'.mouse best e'.world) :
    best ≠ .done ∧ rank (e'.after best) < rank e' ∧ Closes world dest (e'.after best) := by
  have h' := hup.explores h.explores
  have hmaze := h'.knows.charts.maze
  have hopens : ∀ c d, Opens world c d → Opens e'.mouseMap c d := by
    rintro c d ⟨dir, hopen, rfl⟩
    exact ⟨dir, h'.knows.open_map hopen, rfl⟩
  have hnear' := h.near
  rw [← hup.mouse] at hnear'
  cases h'.situation with
  | @rest c hat hin hrest hscan =>
      rw [hat.cellOf] at hnear'
      have hlt := h'.flooded.lt_cap hopens hnear'
      by_cases hahead : FacesNearer e'
      · have hlooked := hup.looked c (hup.mouse ▸ hat)
        rw [← hup.mouse] at hlooked
        obtain ⟨rfl, hrank⟩ :=
          h'.start_rank hbest hlegal hat hin hrest hscan hlooked hlt hahead
        obtain ⟨hopen, hless⟩ := (facesNearer_iff hat).mp hahead
        exact ⟨by simp, hrank, .of_entering (hat.entering hmaze.fits (hmaze.interior hopen))
          ((hmaze.inside hopen).small hmaze.fits) (hnear.beyond (h'.knows.open hscan hopen) hnear')
          hless⟩
      · obtain ⟨⟨angle, hangle⟩, hrank⟩ := h'.turn_rank hbest hlegal hat hin hrest hscan
          (h.away c (hup.mouse ▸ hat)) hlt hahead
        have hmouse : (e'.after best).mouse = _ := apply_turn hangle
        refine ⟨?_, hrank, .of_at (c := c) ?_ hnear'⟩
        · rintro rfl
          cases hangle
        · rw [hmouse]
          exact hat
  | @running c hat hin hmoving hscan hopen hnext hless =>
      rw [hat.cellOf] at hnear'
      obtain ⟨rfl, hrank⟩ := h'.forward_rank hbest hlegal hat hmoving hopen hnext hless
      exact ⟨by simp, hrank, .of_entering (hat.entering hmaze.fits (hmaze.interior hopen))
        ((hmaze.inside hopen).small hmaze.fits) (hnear.beyond (h'.knows.open hscan hopen) hnear')
        hless⟩
  | @entering c hat hin hmoving hscan hopen =>
      rw [hat.cellOf (hin.small hmaze.fits)] at hnear'
      have hlt := h'.flooded.lt_cap hopens hnear'
      obtain ⟨hmove, hrank, hturns⟩ :=
        h'.entering_rank hbest hlegal hat hin hmoving hscan hlt
      refine ⟨hmove, hrank, ?_⟩
      obtain rfl | ⟨rfl, -⟩ | ⟨angle, hangle, hturned, hentering, -⟩ :=
        h'.entering_move (hlegal hmove) hmove hat hin hmoving
      · exact .of_at (c := c) hat hnear'
      · exact .of_at (c := c) hat hnear'
      · have hdir : (e'.after best).mouse.dir = turn e'.mouse.dir angle := by
          have hmouse : (e'.after best).mouse = _ := apply_integrate hangle
          rw [hmouse]
          rfl
        rw [← hdir] at hturned hentering
        exact .of_entering hentering ((hmaze.inside hturned).small hmaze.fits)
          (hnear.beyond (h'.knows.open hscan hturned) hnear') (hdir ▸ hturns angle hangle)

/-- **A round brings the mouse nearer to the destination**, or has it see a new
wall. -/
theorem Approaches.round (hnear : Compact world dest) (h : Approaches n world dest e) :
    ∃ e' fuel, (∀ f ≥ fuel, moveRound f world dest e = some (.ok e')) ∧
      Explores n world dest e' ∧ Closes world dest e' ∧
      remaining n world e' < remaining n world e := by
  obtain ⟨e₁, best, fuel, hup, hbest, hlegal, hrun⟩ := h.explores.round
  obtain ⟨hdone, hrank, hcloses⟩ := h.step hnear hup hbest hlegal
  have h₁ := hup.explores h.explores
  refine ⟨e₁.after best, fuel, fun f hf => ?_, h₁.after hdone (hlegal hdone), hcloses, ?_⟩
  · rw [hrun f hf, if_neg hdone]
  have hmap : (e₁.after best).mouseMap = e₁.mouseMap := rfl
  have hbound := rank_lt h₁.flooded
  unfold remaining
  rw [hmap]
  obtain ⟨hsame, hsame'⟩ | hless := hup.progress
  · have hrank' := rank_congr hup.mouse hsame hsame'
    rw [hsame]
    omega
  · omega

/-- How the loop ends when the destination can be reached: the mouse is at rest
there, or on its southern or western edge. -/
inductive Reached (n : Count) (world : Map) (dest : Cell) (last : Explorer) :
    Except Exit Explorer → Prop
  | arrived (hat : At last.mouse dest) (hrest : last.mouse.moving = false) :
      Reached n world dest last (.ok last)
  | onEdge (hat : Entering last.mouse dest)
      (hdir : last.mouse.dir = .north ∨ last.mouse.dir = .east) :
      Reached n world dest last (.error .notInCenter)

/-- The condition at the end of the loop, on an edge. -/
theorem Entering.half (h : Entering m c) (hc : Small c) : (m.x / 2, m.y / 2) =
    if m.dir = .north ∨ m.dir = .east then c else beyond c m.dir.opposite := by
  obtain ⟨hx, hy⟩ := h
  obtain ⟨hcx, hcy⟩ := hc
  have hltx := m.x.toNat_lt
  have hlty := m.y.toNat_lt
  have hone : (1 : Index).toNat = 1 := rfl
  have htwo : (2 : Index).toNat = 2 := rfl
  obtain ⟨hdir, hx', hy'⟩ | ⟨hdir, hx', hy'⟩ | ⟨hdir, hx', hy'⟩ | ⟨hdir, hx', hy'⟩ :=
    toNat_translate m <;>
  refine Prod.ext ?_ ?_ <;>
  simp only [hdir, reduceCtorEq, or_true, or_false, ↓reduceIte, beyond, Direction.opposite,
    UInt64.add_zero, ← UInt64.toNat_inj, UInt64.toNat_add, UInt64.toNat_div, hone, htwo] <;>
  omega

/-- Where the loop of `RunMoves` is left the mouse has reached the destination. -/
theorem Explores.left (h : Explores n world dest e) (hcloses : Closes world dest e)
    (hzero : floodFillGet (e.mouse.x / 2) (e.mouse.y / 2) e.floodMap = 0) :
    Reached n world dest e
      (if isEdged e.mouse.x e.mouse.y then .error .notInCenter else .ok e) := by
  by_cases hedge : isEdged e.mouse.x e.mouse.y = true
  · rw [if_pos hedge]
    cases h.situation with
    | rest hat | running hat => exact absurd hat.centered (isEdged_iff.mp hedge)
    | @entering c hat hin =>
        have hhalf := hat.half (hin.small h.knows.maze.fits)
        have hlevel : level e.floodMap (e.mouse.x / 2, e.mouse.y / 2) = 0 := by
          rw [level, hzero]
          rfl
        by_cases hdir : e.mouse.dir = .north ∨ e.mouse.dir = .east
        · rw [hhalf, if_pos hdir, h.flooded.level_eq_zero] at hlevel
          exact .onEdge (hlevel ▸ hat) hdir
        · -- the cell behind is further away
          have hless := hcloses.closer c hat
          rw [hhalf, if_neg hdir] at hlevel
          omega
  · rw [if_neg hedge]
    obtain ⟨hat, hrest⟩ := h.arrived hedge hzero
    exact .arrived hat hrest

/-- **The loop ends**, and the mouse has reached the destination. -/
theorem Approaches.moveLoop (hnear : Compact world dest) (h : Approaches n world dest e) :
    ∃ es last ending enough, (∀ f ≥ enough, ∀ rounds ≥ enough,
        KernelPanic.moveLoop f world dest rounds e = some (es, some ending)) ∧
      (∀ e' ∈ es, Explores n world dest e') ∧ es.getLast? = some last ∧
      Reached n world dest last ending := by
  generalize hk : remaining n world e = k
  induction k using Nat.strong_induction_on generalizing e with
  | _ k ih =>
      obtain ⟨e', fuel, hrun, h', hcloses, hless⟩ := h.round hnear
      by_cases hzero : floodFillGet (e'.mouse.x / 2) (e'.mouse.y / 2) e'.floodMap = 0
      · refine ⟨[e'], e', _, fuel + 1, fun f hf rounds hrounds => ?_, by simpa using h', rfl,
          h'.left hcloses hzero⟩
        obtain ⟨rounds, rfl⟩ := Nat.exists_eq_add_of_le' (Nat.le_of_add_left_le hrounds)
        simp only [KernelPanic.moveLoop, hrun f (by omega), Option.bind_eq_bind, Option.bind_some,
          hzero, ↓reduceIte]
        split <;> rfl
      · have haway : ∀ c, At e'.mouse c → c ≠ dest := by
          rintro c hat rfl
          have hlevel := h'.flooded.level_eq_zero.mpr rfl
          rw [level, ← hat.half.1, ← hat.half.2] at hlevel
          exact hzero (UInt8.toNat_inj.mp hlevel)
        obtain ⟨es, last, ending, enough, hloop, hes, hlast, hreached⟩ :=
          ih _ (hk ▸ hless) ⟨h', hcloses.near, haway, hcloses.closer⟩ rfl
        refine ⟨e' :: es, last, ending, max fuel enough + 1, fun f hf rounds hrounds => ?_,
          by simpa using ⟨h', hes⟩, ?_, hreached⟩
        · obtain ⟨rounds, rfl⟩ := Nat.exists_eq_add_of_le' (Nat.le_of_add_left_le hrounds)
          simp only [KernelPanic.moveLoop, hrun f (by omega), Option.bind_eq_bind,
            Option.bind_some, if_neg hzero, hloop f (by omega) rounds (by omega)]
        · rw [List.getLast?_cons, hlast]
          rfl

theorem runMoves_arrives {start : Cell} (h : Departs n world start dest e)
    (hnear : Compact world dest) (hreach : distance (Opens world) {dest} start ≠ ⊤)
    (hne : start ≠ dest) (startDir : Direction) :
    ∃ es last ending enough, (∀ f ≥ enough, ∀ rounds ≥ enough,
        runMoves f rounds world start startDir dest e = some (es, some ending)) ∧
      (∀ e' ∈ es, Explores n world dest e') ∧ es.getLast? = some last ∧
      Reached n world dest last ending := by
  obtain ⟨floodMap, fuel, hstart, hrun⟩ := h.enters startDir
  have hat : At ⟨start.1 * 2 + 1, start.2 * 2 + 1, startDir, false⟩ start :=
    h.startInside.middle h.knows.maze.fits
  obtain ⟨es, last, ending, enough, hloop, hrest⟩ := Approaches.moveLoop hnear
    ⟨hstart, hat.cellOf.symm ▸ hnear start hreach, fun c hc => hat.eq hc ▸ hne,
      fun c hc => absurd hat.centered hc.not_centered⟩
  refine ⟨es, last, ending, max fuel enough, fun f hf rounds hrounds => ?_, hrest⟩
  rw [hrun f (le_of_max_le_left hf),
    hloop f (le_of_max_le_right hf) rounds (le_of_max_le_right hrounds)]

/-! ## there and back -/

/-- `main`, for a maze of any size: the mouse is sent to the middle of the maze, and back to the first cell. -/
def movetestMain (fuel rounds : ℕ) (n : Count) (calls : List WallCall) :
    Option (List Explorer × Option (Except Exit Explorer)) := do
  let world := worldMap n calls
  let (es, ending) ← runMoves fuel rounds world (0, 0) .north (n / 2, n / 2) (startExplorer n)
  match ending with
  | some (.ok e) =>
      let (es', ending) ←
        runMoves fuel rounds world (e.mouse.x / 2, e.mouse.y / 2) e.mouse.dir (0, 0) e
      some (es ++ es', ending)
  | ending => some (es, ending)

section Start

variable {calls : List WallCall}

theorem cellsOf_card (n : Count) : (cellsOf n).card ≤ n.toNat * n.toNat := by
  refine Finset.card_image_le.trans ?_
  rw [Finset.card_product, Finset.card_range]

theorem Opens.mem_cellsOf (hmaze : Maze n world) (h : Opens world c d) : c ∈ cellsOf n := by
  obtain ⟨dir, hopen, rfl⟩ := h
  obtain ⟨⟨dir', hopen', heq⟩, -⟩ := Opens.of_open hopen
  have hin := hmaze.inside hopen'
  rw [← heq] at hin
  exact KernelPanic.mem_cellsOf hin.1 hin.2

theorem Opens.symm (h : Opens world c d) : Opens world d c := by
  obtain ⟨dir, hopen, rfl⟩ := h
  exact (Opens.of_open hopen).1

/-- In a small maze no cell is far away. -/
theorem Maze.compact (hmaze : Maze n world) (hsize : n.toNat ≤ 15) (hdest : Inside n dest) :
    Compact world dest := by
  intro c hc
  have hcard := cellsOf_card n
  have hsquare := Nat.mul_le_mul hsize hsize
  have hlt := distance_lt_card (fun c d h => Opens.mem_cellsOf hmaze h)
    (fun c hc => Set.mem_singleton_iff.mp hc ▸ mem_cellsOf hdest.1 hdest.2) hc
  exact hlt.trans_le (by exact_mod_cast (by omega))

theorem Departs.next {start dest' : Cell} (h : Explores n world start e) (hat : At e.mouse start)
    (hrest : e.mouse.moving = false) (hdest : Inside n dest') : Departs n world start dest' e := by
  refine ⟨h.knows, h.flooded.width, h.flooded.height, h.flooded.inside, ?_, hdest⟩
  cases h.situation with
  | rest hat' hin hrest' hscan => exact hat.eq hat' ▸ hscan
  | running hat' hin hmoving => simp [hrest] at hmoving
  | entering hat' => exact absurd hat.centered hat'.not_centered

/-- Nothing enters the first cell from the south or the west. -/
theorem Explores.not_onEdge (h : Explores n world dest e) (hat : Entering e.mouse (0, 0)) :
    ¬(e.mouse.dir = .north ∨ e.mouse.dir = .east) := by
  rintro hdir
  cases h.situation with
  | rest hat' | running hat' => exact absurd hat'.centered hat.not_centered
  | entering hat' hin hmoving hscan hopen =>
      obtain rfl := hat.eq hat'
      have hinside := h.knows.charts.maze.interior hopen
      obtain hdir | hdir := hdir <;> simp [hdir, Direction.opposite, wallOf, Wall.Interior] at hinside

/-- **There and back**: in every maze in which the middle can be reached, `main`
ends, having driven through no wall.  The mouse is back at rest in the first cell,
or it was stopped where it came to the middle from the south or from the west:
there the loop of `RunMoves` ends one move early, on the edge. -/
theorem movetestMain_returns (n : Count) (calls : List WallCall) (hmin : 2 ≤ n.toNat)
    (hmax : n.toNat ≤ 15) (hcalls : ∀ call ∈ calls, call.state = true)
    (hreach : distance (Opens (worldMap n calls)) {(n / 2, n / 2)} (0, 0) ≠ ⊤) :
    ∃ es last ending enough, (∀ f ≥ enough, ∀ rounds ≥ enough,
        movetestMain f rounds n calls = some (es, some ending)) ∧
      (∀ e ∈ es, Unharmed n (worldMap n calls) e.mouse ∧ Charts n (worldMap n calls) e.mouseMap) ∧
      es.getLast? = some last ∧
      (ending = .ok last ∧ At last.mouse (0, 0) ∧ last.mouse.moving = false ∨
        ending = .error .notInCenter ∧ Entering last.mouse (n / 2, n / 2) ∧
          (last.mouse.dir = .north ∨ last.mouse.dir = .east)) := by
  have hsquare := Nat.mul_le_mul hmax hmax
  have hfits : n.toNat * n.toNat < 2 ^ 64 := by omega
  have hmaze := worldMap_maze hfits calls
  have htwo : (n / 2).toNat = n.toNat / 2 := UInt64.toNat_div ..
  have hfirst : Inside n (0, 0) := by
    simp only [Inside, UInt64.lt_iff_toNat_lt, UInt64.toNat_zero]
    omega
  have hmiddle : Inside n (n / 2, n / 2) := by
    simp only [Inside, UInt64.lt_iff_toNat_lt, htwo]
    omega
  have hne : ((0, 0) : Cell) ≠ (n / 2, n / 2) := by
    intro heq
    have hzero := congrArg (fun c : Cell => c.1.toNat) heq
    simp only [UInt64.toNat_zero, htwo] at hzero
    omega
  obtain ⟨k, -, hpath⟩ := exists_reaches hreach
  have hleaves : ∃ d, Opens (worldMap n calls) (0, 0) d := by
    cases hpath with
    | target h => exact absurd h hne
    | step h _ => exact ⟨_, h⟩
  have hpath' : Reaches (Opens (worldMap n calls)) {(0, 0)} (k + 0) (n / 2, n / 2) :=
    hpath.reverse (fun _ _ => Opens.symm) (.target (Set.mem_singleton _))
  have hback : distance (Opens (worldMap n calls)) {(0, 0)} (n / 2, n / 2) ≠ ⊤ :=
    ne_top_of_le_ne_top (ENat.natCast_ne_top _) hpath'.distance_le
  have hsets : Departs n (worldMap n calls) (0, 0) (n / 2, n / 2) (startExplorer n) :=
    ⟨startExplorer_knows hfits (by omega) hcalls hleaves, rfl, rfl, hfirst,
      (startExplorer_scanned hfits (by omega)).mpr rfl, hmiddle⟩
  obtain ⟨es, last, ending, enough, hrun, hes, hlast, hreached⟩ :=
    runMoves_arrives hsets (hmaze.compact hmax hmiddle) hreach hne .north
  have hsafe : ∀ e ∈ es, Unharmed n (worldMap n calls) e.mouse ∧
      Charts n (worldMap n calls) e.mouseMap := fun e he =>
    ⟨(hes e he).unharmed, (hes e he).knows.charts⟩
  cases hreached with
  | onEdge hat hdir =>
      refine ⟨es, last, _, enough, fun f hf rounds hrounds => ?_, hsafe, hlast,
        .inr ⟨rfl, hat, hdir⟩⟩
      simp only [movetestMain, hrun f hf rounds hrounds, Option.bind_eq_bind, Option.bind_some]
  | arrived hat hrest =>
      have hagain : Departs n (worldMap n calls) (n / 2, n / 2) (0, 0) last :=
        .next (hes last (List.mem_of_getLast? hlast)) hat hrest hfirst
      obtain ⟨es', last', ending', enough', hrun', hes', hlast', hreached'⟩ :=
        runMoves_arrives hagain (hmaze.compact hmax hfirst) hback hne.symm last.mouse.dir
      refine ⟨es ++ es', last', ending', max enough enough', fun f hf rounds hrounds => ?_,
        fun e he => ?_, ?_, .inl ?_⟩
      · simp only [movetestMain, hrun f (le_of_max_le_left hf) rounds (le_of_max_le_left hrounds),
          hat.half, hrun' f (le_of_max_le_right hf) rounds (le_of_max_le_right hrounds),
          Option.bind_eq_bind, Option.bind_some]
      · obtain he | he := List.mem_append.mp he
        · exact hsafe e he
        · exact ⟨(hes' e he).unharmed, (hes' e he).knows.charts⟩
      · rw [List.getLast?_append, hlast']
        rfl
      · cases hreached' with
        | arrived hat' hrest' => exact ⟨rfl, hat', hrest'⟩
        | onEdge hat' hdir' =>
            exact absurd hdir' ((hes' last' (List.mem_of_getLast? hlast')).not_onEdge hat')

end Start

/-- Where a walk leads, if no wall is in the way. -/
def walk (blocked : Wall → Bool) : Cell → List Direction → Option Cell
  | c, [] => some c
  | c, dir :: dirs =>
      if blocked (wallOf c.1 c.2 dir) then none else walk blocked (beyond c dir) dirs

theorem reaches_of_walk {blocked : Wall → Bool} (hwalls : ∀ q, world.stands q = blocked q)
    {dirs : List Direction} (h : walk blocked c dirs = some d) :
    Reaches (Opens world) {d} dirs.length c := by
  induction dirs generalizing c with
  | nil =>
      cases h
      exact .target rfl
  | cons dir dirs ih =>
      rw [walk, Option.ite_none_left_eq_some, Bool.not_eq_true, ← hwalls] at h
      exact .step ⟨dir, mapGetWall_eq.trans h.1, rfl⟩ (ih h.2)

/-- The maze of `main`, in which the middle is 28 cells away. -/
theorem movetestMain_returns_sample :
    ∃ es last ending enough, (∀ f ≥ enough, ∀ rounds ≥ enough,
        movetestMain f rounds 8 sampleMaze = some (es, some ending)) ∧
      (∀ e ∈ es, Unharmed 8 (worldMap 8 sampleMaze) e.mouse ∧
        Charts 8 (worldMap 8 sampleMaze) e.mouseMap) ∧
      es.getLast? = some last ∧
      (ending = .ok last ∧ At last.mouse (0, 0) ∧ last.mouse.moving = false ∨
        ending = .error .notInCenter ∧ Entering last.mouse (8 / 2, 8 / 2) ∧
          (last.mouse.dir = .north ∨ last.mouse.dir = .east)) := by
  have hcalls : ∀ call ∈ sampleMaze, call.state = true := by decide
  refine movetestMain_returns 8 sampleMaze (by decide) (by decide) hcalls ?_
  have hwalk : walk (fun q => (!decide (q.Interior 8 8) || decide (q = wallOf 0 0 .east)) ||
      sampleMaze.any fun call => q = call.wall) (0, 0)
      [.north, .east, .east, .east, .east, .east, .east, .north, .north, .north, .north, .east,
        .north, .north, .west, .west, .west, .west, .west, .west, .south, .west, .south, .east,
        .east, .east, .east, .south] = some (8 / 2, 8 / 2) := by decide +kernel
  have hpath := reaches_of_walk (stands_worldMap (by decide) hcalls) hwalk
  exact ne_top_of_le_ne_top (ENat.natCast_ne_top _) hpath.distance_le

end KernelPanic
