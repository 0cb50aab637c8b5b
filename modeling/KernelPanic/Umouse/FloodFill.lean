import KernelPanic.Umouse.Map
import Mathlib.Data.Finset.Basic

/-!
# KernelPanic.Umouse.FloodFill

The flood map of the maze (`umouse/floodfill.c`): the distance of every cell to
the destination, and a flag for every cell whose neighbours are still to be
looked at.

`FloodGetEvent` turns a cell's number back into coordinates with two macros, of
which `FloodFillGetX` divides by `Height`, not by `Width`.  `EventsFaithful`
says that the queue delivers the cells that were marked; it holds for square
mazes, and for no others (`eventsFaithful_iff`).
-/

namespace KernelPanic

/-- `struct FLOOD_MAP`, with the memory of its two buffers. -/
structure FloodMap where
  width : Count
  height : Count
  floodMap : Words
  eventMap : Words

/-! ## the code -/

/-- `FLOOD_MAP_ITEMS_NEEDED`. -/
def floodMapItemsNeeded (width height : Count) : Count := width * height

/-- `FloodFillGetIndex`. -/
def floodFillGetIndex (x y : Index) (map : FloodMap) : Index := y * map.width + x

/-- `FloodFillGetX`. -/
def floodFillGetX (index : Index) (map : FloodMap) : Index := index % map.height

/-- `FloodFillGetY`. -/
def floodFillGetY (index : Index) (map : FloodMap) : Index := index / map.width

/-- `FloodFillSet`. -/
def floodFillSet (x y : Index) (value : UInt8) (map : FloodMap) : FloodMap :=
  if x ≥ map.width || y ≥ map.height then map
  else
    let cell := (floodFillGetIndex x y map).toNat
    { map with floodMap := Function.update map.floodMap cell (.ofNat 32 value.toNat) }

/-- `FloodNewEvent`. -/
def floodNewEvent (x y : Index) (map : FloodMap) : FloodMap :=
  if x ≥ map.width || y ≥ map.height then map
  else { map with eventMap := bitmapOn map.eventMap 0 (floodFillGetIndex x y map) }

/-- `FloodGetEvent`: the cell it returns. -/
def floodGetEvent (map : FloodMap) : (Index × Index) × FloodMap :=
  let index := bitmapGetFirstFlag map.eventMap 0 (floodMapItemsNeeded map.width map.height)
  if index = -1 then ((-1, -1), map)
  else
    ((floodFillGetX index map, floodFillGetY index map),
      { map with eventMap := bitmapOff map.eventMap 0 index })

/-- `FloodFillGet`. -/
def floodFillGet (x y : Index) (map : FloodMap) : UInt8 :=
  if x ≥ map.width || y ≥ map.height then 255
  else .ofNat (map.floodMap (floodFillGetIndex x y map).toNat).toNat

/-- `FloodFillInit`. -/
def floodFillInit (width height : Count) (mapBuff eventBuff : Words) : FloodMap :=
  ⟨width, height, mapBuff, eventBuff⟩

/-- `FloodFillClear`. -/
def floodFillClear (map : FloodMap) : FloodMap :=
  let cleared := (List.range map.width.toNat).foldl (fun m x =>
    (List.range map.height.toNat).foldl (fun m y =>
      floodFillSet (.ofNat x) (.ofNat y) (-1) m) m) map
  { cleared with eventMap := bitmapClear cleared.eventMap 0 (cleared.width * cleared.height) }

/-- `FloodFillSetDestination`. -/
def floodFillSetDestination (x y : Index) (map : FloodMap) : FloodMap :=
  floodNewEvent x y (floodFillSet x y 0 map)

/-- One of the four branches of the loop of `FloodFillCalculate`: the neighbour
`(nextX, nextY)` of the cell `(x, y)`. -/
def floodFillBranch (map : Map) (x y : Index) (curValue : UInt8) (dir : Direction)
    (nextX nextY : Index) (floodMap : FloodMap) : FloodMap :=
  if !mapGetWall x y dir map && floodFillGet nextX nextY floodMap > curValue then
    floodNewEvent nextX nextY (floodFillSet nextX nextY (curValue + 1) floodMap)
  else floodMap

/-- The rest of a round of `FloodFillCalculate`, for the cell `(x, y)`. -/
def floodFillRound (map : Map) (x y : Index) (floodMap : FloodMap) : FloodMap :=
  let curValue := floodFillGet x y floodMap
  let floodMap := floodFillBranch map x y curValue .east (x + 1) (y + 0) floodMap
  let floodMap := floodFillBranch map x y curValue .west (x - 1) (y + 0) floodMap
  let floodMap := floodFillBranch map x y curValue .north (x + 0) (y + 1) floodMap
  floodFillBranch map x y curValue .south (x + 0) (y - 1) floodMap

/-- `FloodFillCalculate`; `none` when it has not returned after `fuel` rounds. -/
def floodFillCalculate (map : Map) : ℕ → FloodMap → Option FloodMap
  | 0, _ => none
  | fuel + 1, floodMap =>
      let event := floodGetEvent floodMap
      if event.1.1 = -1 && event.1.2 = -1 then some event.2
      else floodFillCalculate map fuel (floodFillRound map event.1.1 event.1.2 event.2)

/-! ## the event queue -/

/-- A cell, by its coordinates. -/
abbrev Cell := Index × Index

/-- The cell is in the maze. -/
def InMaze (map : FloodMap) (c : Cell) : Prop := c.1 < map.width ∧ c.2 < map.height

instance (map : FloodMap) (c : Cell) : Decidable (InMaze map c) :=
  inferInstanceAs (Decidable (_ ∧ _))

/-- The flag of the cell is on. -/
def Pending (map : FloodMap) (c : Cell) : Prop :=
  InMaze map c ∧ bitmapGet map.eventMap 0 (floodFillGetIndex c.1 c.2 map) = true

inductive FloodEvent where
  /-- `FloodNewEvent(x, y)`. -/
  | mark (x y : Index)
  /-- `FloodGetEvent`. -/
  | get

/-- A flood map, and the cells marked and not yet delivered. -/
structure EventQueue where
  map : FloodMap
  marked : Finset Cell

def EventQueue.step (q : EventQueue) : FloodEvent → EventQueue
  | .mark x y =>
      ⟨floodNewEvent x y q.map,
        if InMaze q.map (x, y) then insert (x, y) q.marked else q.marked⟩
  | .get => ⟨(floodGetEvent q.map).2, q.marked.erase (floodGetEvent q.map).1⟩

/-- The pending cells are those marked and not yet delivered; `FloodGetEvent`
returns `(-1, -1)` when there is none, and otherwise one of them, and takes that
one alone off. -/
structure QueueOk (q : EventQueue) : Prop where
  pending : ∀ c, Pending q.map c ↔ c ∈ q.marked
  empty : (floodGetEvent q.map).1 = (-1, -1) ↔ q.marked = ∅
  delivers : q.marked ≠ ∅ → (floodGetEvent q.map).1 ∈ q.marked ∧
    ∀ c, Pending (floodGetEvent q.map).2 c ↔ c ∈ q.marked ∧ c ≠ (floodGetEvent q.map).1

/-- The queue of a flood map that has just been cleared. -/
def startQueue (width height : Count) (mapBuff eventBuff : Words) : EventQueue :=
  ⟨floodFillClear (floodFillInit width height mapBuff eventBuff), ∅⟩

/-- The queue works, whatever the buffers held before and whatever is called. -/
def EventsFaithful (width height : Count) : Prop :=
  ∀ mapBuff eventBuff (events : List FloodEvent),
    QueueOk (events.foldl EventQueue.step (startQueue width height mapBuff eventBuff))

/-! ## cell numbers -/

variable {map : FloodMap} {c d : Cell} {marked : Finset Cell} {width height : Count} {n : ℕ}

/-- The cells' numbers do not overflow. -/
def CellsFit (map : FloodMap) : Prop := map.width.toNat * map.height.toNat < 2 ^ 64

/-- The number of a cell. -/
def cellNumber (map : FloodMap) (c : Cell) : ℕ := c.2.toNat * map.width.toNat + c.1.toNat

theorem cellNumber_lt (hc : InMaze map c) :
    cellNumber map c < map.width.toNat * map.height.toNat := by
  obtain ⟨hx, hy⟩ := hc
  rw [UInt64.lt_iff_toNat_lt] at hx hy
  calc c.2.toNat * map.width.toNat + c.1.toNat
      < c.2.toNat * map.width.toNat + map.width.toNat := Nat.add_lt_add_left hx _
    _ = map.width.toNat * (c.2.toNat + 1) := by rw [Nat.mul_succ, Nat.mul_comm]
    _ ≤ map.width.toNat * map.height.toNat := Nat.mul_le_mul_left _ hy

theorem toNat_floodFillGetIndex :
    (floodFillGetIndex c.1 c.2 map).toNat = cellNumber map c % 2 ^ 64 := by
  unfold floodFillGetIndex cellNumber
  rw [UInt64.toNat_add, UInt64.toNat_mul, Nat.mod_add_mod]

theorem CellsFit.index (hfits : CellsFit map) (hc : InMaze map c) :
    (floodFillGetIndex c.1 c.2 map).toNat = cellNumber map c := by
  rw [toNat_floodFillGetIndex]
  exact Nat.mod_eq_of_lt ((cellNumber_lt hc).trans hfits)

theorem CellsFit.items (hfits : CellsFit map) :
    (floodMapItemsNeeded map.width map.height).toNat = map.width.toNat * map.height.toNat := by
  unfold floodMapItemsNeeded
  rw [UInt64.toNat_mul]
  exact Nat.mod_eq_of_lt hfits

/-- A cell's coordinates, from its number. -/
theorem cellNumber_coords (hc : InMaze map c) :
    cellNumber map c % map.width.toNat = c.1.toNat ∧
      cellNumber map c / map.width.toNat = c.2.toNat := by
  have hx := UInt64.lt_iff_toNat_lt.mp hc.1
  have hpos : 0 < map.width.toNat := Nat.zero_lt_of_lt hx
  unfold cellNumber
  rw [Nat.mul_comm, Nat.mul_add_mod, Nat.mod_eq_of_lt hx, Nat.mul_add_div hpos,
    Nat.div_eq_of_lt hx]
  exact ⟨rfl, rfl⟩

theorem cellNumber_inj (hc : InMaze map c) (hd : InMaze map d)
    (h : cellNumber map c = cellNumber map d) : c = d := by
  obtain ⟨hx, hy⟩ := cellNumber_coords hc
  obtain ⟨hx', hy'⟩ := cellNumber_coords hd
  rw [h] at hx hy
  exact Prod.ext (UInt64.toNat_inj.mp (hx.symm.trans hx')) (UInt64.toNat_inj.mp (hy.symm.trans hy'))

/-! ## square mazes -/

/-- The flags are those of the marked cells. -/
structure Events (map : FloodMap) (marked : Finset Cell) : Prop where
  inside : ∀ c ∈ marked, InMaze map c
  flags : ∀ n < bitmapBits (floodMapItemsNeeded map.width map.height),
    bits map.eventMap n = true ↔ ∃ c ∈ marked, cellNumber map c = n

/-- A square maze whose cells' numbers do not overflow. -/
structure Square (map : FloodMap) : Prop where
  square : map.width = map.height
  fits : CellsFit map

theorem Events.pending (h : Events map marked) (hfits : CellsFit map) (c : Cell) :
    Pending map c ↔ c ∈ marked := by
  unfold Pending
  constructor
  · rintro ⟨hin, hon⟩
    have hlt : cellNumber map c < bitmapBits (floodMapItemsNeeded map.width map.height) :=
      (cellNumber_lt hin).trans_le (hfits.items ▸ le_bitmapBits)
    rw [bitmapGet_eq, bitAt, hfits.index hin, Nat.mul_zero, Nat.zero_add] at hon
    obtain ⟨d, hd, heq⟩ := (h.flags _ hlt).mp hon
    exact cellNumber_inj (h.inside d hd) hin heq ▸ hd
  · intro hc
    have hin := h.inside c hc
    have hlt : cellNumber map c < bitmapBits (floodMapItemsNeeded map.width map.height) :=
      (cellNumber_lt hin).trans_le (hfits.items ▸ le_bitmapBits)
    refine ⟨hin, ?_⟩
    rw [bitmapGet_eq, bitAt, hfits.index hin, Nat.mul_zero, Nat.zero_add]
    exact (h.flags _ hlt).mpr ⟨c, hc, rfl⟩

theorem outside_eq : (decide (c.1 ≥ map.width) || decide (c.2 ≥ map.height)) =
    !decide (InMaze map c) := by
  unfold InMaze
  simp only [ge_iff_le, ← UInt64.not_lt]
  grind

theorem floodNewEvent_inside (hc : InMaze map c) :
    floodNewEvent c.1 c.2 map =
      { map with eventMap := bitmapOn map.eventMap 0 (floodFillGetIndex c.1 c.2 map) } := by
  unfold floodNewEvent
  rw [outside_eq]
  simp [hc]

theorem floodNewEvent_outside (hc : ¬ InMaze map c) : floodNewEvent c.1 c.2 map = map := by
  unfold floodNewEvent
  rw [outside_eq]
  simp [hc]

theorem Events.mark (h : Events map marked) (hfits : CellsFit map) (hc : InMaze map c) :
    Events (floodNewEvent c.1 c.2 map) (insert c marked) := by
  rw [floodNewEvent_inside hc]
  constructor
  · exact Finset.forall_mem_insert .. |>.mpr ⟨hc, h.inside⟩
  · intro n hn
    have hflags := h.flags n hn
    rw [bits_on, bitAt, hfits.index hc, Nat.mul_zero, Nat.zero_add, Bool.or_eq_true, hflags,
      decide_eq_true_eq]
    simp only [Finset.exists_mem_insert]
    rw [or_comm, eq_comm]
    rfl

/-- The coordinates of the cell with a given number. -/
theorem Square.coords (hs : Square map) (hc : InMaze map c) {index : Index}
    (hindex : index.toNat = cellNumber map c) :
    (floodFillGetX index map, floodFillGetY index map) = c := by
  obtain ⟨hx, hy⟩ := cellNumber_coords hc
  unfold floodFillGetX floodFillGetY
  rw [← hs.square]
  refine Prod.ext ?_ ?_ <;>
  rw [← UInt64.toNat_inj]
  · rw [UInt64.toNat_mod, hindex, hx]
  · rw [UInt64.toNat_div, hindex, hy]

/-- The flag of a cell is turned off. -/
theorem Events.erase (h : Events map marked) (hc : c ∈ marked) {index : Index}
    (hindex : cellNumber map c = index.toNat) :
    Events { map with eventMap := bitmapOff map.eventMap 0 index } (marked.erase c) := by
  constructor
  · exact fun d hd => h.inside d (Finset.mem_of_mem_erase hd)
  · intro n hn
    have hflags := h.flags n hn
    rw [bits_off, bitAt, ← hindex, Nat.mul_zero, Nat.zero_add, Bool.and_eq_true, hflags,
      decide_eq_true_eq]
    constructor
    · rintro ⟨⟨d, hd, rfl⟩, hnc⟩
      exact ⟨d, Finset.mem_erase.mpr ⟨fun heq => hnc (heq ▸ rfl), hd⟩, rfl⟩
    · rintro ⟨d, hd, rfl⟩
      obtain ⟨hdc, hd⟩ := Finset.mem_erase.mp hd
      exact ⟨⟨d, hd, rfl⟩, fun heq => hdc (cellNumber_inj (h.inside d hd) (h.inside c hc) heq)⟩

/-- **`FloodGetEvent`** in a square maze. -/
theorem Events.get (h : Events map marked) (hs : Square map) :
    (marked = ∅ ∧ floodGetEvent map = ((-1, -1), map)) ∨
      ∃ eventMap, (floodGetEvent map).1 ∈ marked ∧
        (floodGetEvent map).2 = { map with eventMap := eventMap } ∧
        Events { map with eventMap := eventMap } (marked.erase (floodGetEvent map).1) := by
  have hnumber : ∀ d ∈ marked,
      cellNumber map d < bitmapBits (floodMapItemsNeeded map.width map.height) := fun d hd =>
    (cellNumber_lt (h.inside d hd)).trans_le (hs.fits.items ▸ le_bitmapBits)
  have hfirst := bitmapGetFirstFlag_spec map.eventMap 0 (floodMapItemsNeeded map.width map.height)
  unfold floodGetEvent
  dsimp only
  generalize bitmapGetFirstFlag map.eventMap 0 (floodMapItemsNeeded map.width map.height) = index
    at hfirst
  obtain ⟨hnone, hoff⟩ | ⟨hlt, hon, -⟩ := hfirst
  · left
    refine ⟨Finset.eq_empty_of_forall_notMem fun d hd => ?_, if_pos hnone⟩
    have hflag := (h.flags _ (hnumber d hd)).mpr ⟨d, hd, rfl⟩
    have hfalse := hoff _ (hnumber d hd)
    rw [Nat.mul_zero, Nat.zero_add, hflag] at hfalse
    cases hfalse
  · right
    rw [bitAt, Nat.mul_zero, Nat.zero_add, h.flags _ hlt] at hon
    obtain ⟨c, hc, hindex⟩ := hon
    have hne : index ≠ -1 := by
      rintro rfl
      have hlast : (-1 : Index).toNat = 2 ^ 64 - 1 := rfl
      have hin := cellNumber_lt (h.inside c hc)
      have hfits := hs.fits
      unfold CellsFit at hfits
      omega
    rw [if_neg hne, hs.coords (h.inside c hc) hindex.symm]
    exact ⟨_, hc, rfl, h.erase hc hindex⟩

/-! ## every sequence of calls -/

theorem floodFillSet_eq (x y : Index) (value : UInt8) (map : FloodMap) :
    ∃ cells, floodFillSet x y value map = { map with floodMap := cells } := by
  unfold floodFillSet
  split
  · exact ⟨map.floodMap, rfl⟩
  · exact ⟨_, rfl⟩

/-- `FloodFillClear` clears the flags. -/
theorem floodFillClear_eq (map : FloodMap) :
    ∃ cells, floodFillClear map = { map with
      floodMap := cells
      eventMap := bitmapClear map.eventMap 0 (map.width * map.height) } := by
  let SameBut (m : FloodMap) : Prop := ∃ cells, m = { map with floodMap := cells }
  have hset : ∀ x y m, SameBut m → SameBut (floodFillSet x y (-1) m) := by
    rintro x y _ ⟨cells, rfl⟩
    obtain ⟨cells', heq⟩ := floodFillSet_eq x y (-1) { map with floodMap := cells }
    exact ⟨cells', heq⟩
  have hloop : SameBut ((List.range map.width.toNat).foldl (fun m x =>
      (List.range map.height.toNat).foldl (fun m y =>
        floodFillSet (.ofNat x) (.ofNat y) (-1) m) m) map) :=
    List.foldlRecOn _ _ ⟨map.floodMap, rfl⟩ fun m hm x _ =>
      List.foldlRecOn _ _ hm fun m' hm' y _ => hset _ _ m' hm'
  obtain ⟨cells, heq⟩ := hloop
  refine ⟨cells, ?_⟩
  unfold floodFillClear
  dsimp only
  rw [heq]

/-- Right after `FloodFillClear` no flag is on. -/
theorem events_start (mapBuff eventBuff : Words) :
    Events (startQueue width height mapBuff eventBuff).map ∅ := by
  obtain ⟨cells, heq⟩ := floodFillClear_eq (floodFillInit width height mapBuff eventBuff)
  unfold startQueue
  rw [heq]
  constructor
  · simp
  · intro n hn
    have hclear : n < bitmapBits (width * height) := hn
    show bits (bitmapClear eventBuff 0 (width * height)) n = true ↔ _
    simp [bits_clear, hclear]

theorem startQueue_dims (width height : Count) (mapBuff eventBuff : Words) :
    (startQueue width height mapBuff eventBuff).map.width = width ∧
      (startQueue width height mapBuff eventBuff).map.height = height := by
  obtain ⟨cells, heq⟩ := floodFillClear_eq (floodFillInit width height mapBuff eventBuff)
  unfold startQueue
  rw [heq]
  exact ⟨rfl, rfl⟩

/-- The queue of a square maze. -/
structure QueueInv (q : EventQueue) : Prop where
  square : Square q.map
  events : Events q.map q.marked

theorem QueueInv.step {q : EventQueue} (h : QueueInv q) (e : FloodEvent) : QueueInv (q.step e) := by
  cases e with
  | mark x y =>
      by_cases hc : InMaze q.map (x, y)
      · have hevents := h.events.mark h.square.fits hc
        have hmap := floodNewEvent_inside hc
        simp only [EventQueue.step, if_pos hc]
        refine ⟨?_, hevents⟩
        rw [hmap]
        exact ⟨h.square.square, h.square.fits⟩
      · have hmap := floodNewEvent_outside hc
        simp only [EventQueue.step, if_neg hc]
        rw [hmap]
        exact h
  | get =>
      obtain ⟨hempty, hget⟩ | ⟨eventMap, -, hget, hevents⟩ := h.events.get h.square
      · simp only [EventQueue.step, hget, hempty, Finset.erase_empty]
        exact ⟨h.square, hempty ▸ h.events⟩
      · simp only [EventQueue.step, hget]
        exact ⟨⟨h.square.square, h.square.fits⟩, hevents⟩

/-- No cell of a maze has the coordinates of the empty answer. -/
theorem InMaze.ne (hc : InMaze map c) : c ≠ (-1, -1) := by
  rintro rfl
  have hlt := UInt64.lt_iff_toNat_lt.mp hc.1
  have hw := map.width.toNat_lt
  have hlast : (-1 : Index).toNat = 2 ^ 64 - 1 := rfl
  simp only [hlast] at hlt
  omega

theorem QueueInv.ok {q : EventQueue} (h : QueueInv q) : QueueOk q := by
  have hget := h.events.get h.square
  refine ⟨h.events.pending h.square.fits, ?_, fun hne => ?_⟩
  · obtain ⟨hempty, heq⟩ | ⟨eventMap, hmem, -, -⟩ := hget
    · rw [heq]
      exact iff_of_true rfl hempty
    · refine iff_of_false (h.events.inside _ hmem).ne ?_
      rintro hempty
      rw [hempty] at hmem
      exact absurd hmem (Finset.notMem_empty _)
  · obtain ⟨hempty, -⟩ | ⟨eventMap, hmem, heq, hevents⟩ := hget
    · exact absurd hempty hne
    · refine ⟨hmem, fun c => ?_⟩
      rw [heq, hevents.pending h.square.fits, Finset.mem_erase, and_comm]

/-- What `FloodGetEvent` makes of the only flag that is on. -/
theorem floodGetEvent_only (index : Index)
    (honly : ∀ n, bits map.eventMap n = decide (n = index.toNat)) (hc : (floodGetEvent map).1 = c)
    (hne : c ≠ (-1, -1)) :
    index.toNat < bitmapBits (floodMapItemsNeeded map.width map.height) ∧
      (floodFillGetX index map, floodFillGetY index map) = c := by
  have hfirst := bitmapGetFirstFlag_spec map.eventMap 0 (floodMapItemsNeeded map.width map.height)
  unfold floodGetEvent at hc
  dsimp only at hc
  generalize bitmapGetFirstFlag map.eventMap 0 (floodMapItemsNeeded map.width map.height) = first
    at hc hfirst
  by_cases hnone : first = -1
  · rw [if_pos hnone] at hc
    exact absurd hc.symm hne
  · obtain ⟨hfirst, -⟩ | ⟨hlt, hon, -⟩ := hfirst
    · exact absurd hfirst hnone
    · rw [honly, decide_eq_true_eq, bitAt, Nat.mul_zero, Nat.zero_add, UInt64.toNat_inj] at hon
      rw [if_neg hnone, hon] at hc
      exact ⟨hon ▸ hlt, hc⟩

/-- One marked cell comes back as itself. -/
theorem EventsFaithful.decodes (h : EventsFaithful width height) {c : Cell} (hx : c.1 < width)
    (hy : c.2 < height) :
    (c.2 * width + c.1).toNat < bitmapBits (width * height) ∧
      (c.2 * width + c.1) % height = c.1 ∧ (c.2 * width + c.1) / width = c.2 := by
  have hok := h (fun _ => 0) (fun _ => 0) [.mark c.1 c.2]
  obtain ⟨cells, heq⟩ := floodFillClear_eq (floodFillInit width height (fun _ => 0) fun _ => 0)
  rw [List.foldl_cons, List.foldl_nil, startQueue, heq] at hok
  let blank : FloodMap := ⟨width, height, cells, bitmapClear (fun _ => 0) 0 (width * height)⟩
  have hin : InMaze blank c := ⟨hx, hy⟩
  have hget : (floodGetEvent (floodNewEvent c.1 c.2 blank)).1 ∈
      if InMaze blank c then insert c ∅ else (∅ : Finset Cell) := by
    refine (hok.delivers ?_).1
    show (if InMaze blank c then insert c ∅ else (∅ : Finset Cell)) ≠ ∅
    rw [if_pos hin]
    exact Finset.insert_ne_empty _ _
  rw [if_pos hin, Finset.mem_insert, floodNewEvent_inside hin] at hget
  have hdecoded := floodGetEvent_only (c.2 * width + c.1) (fun n => ?_)
    (hget.resolve_right (Finset.notMem_empty _)) hin.ne
  · exact ⟨hdecoded.1, congrArg Prod.fst hdecoded.2, congrArg Prod.snd hdecoded.2⟩
  · rw [bits_on, bitAt, Nat.mul_zero, Nat.zero_add, bits_clear]
    simp [bits, floodFillGetIndex, blank]

/-- The cells can be counted: otherwise the cell numbered `2 ^ 64` comes back as the
first. -/
theorem EventsFaithful.fits (h : EventsFaithful height height) (hh : 1 ≤ height.toNat) :
    height.toNat * height.toNat < 2 ^ 64 := by
  refine not_le.mp fun hge => ?_
  obtain heq | hgt := hge.eq_or_lt
  · -- the queue is taken to have no flags at all
    have hnone := (h.decodes (c := (0, 0)) hh hh).1
    have hitems : height * height = 0 := by
      rw [← UInt64.toNat_inj, UInt64.toNat_mul, ← heq]
      rfl
    have hbits : bitmapBits 0 = 0 := by decide
    rw [hitems, hbits] at hnone
    exact absurd hnone (Nat.not_lt_zero _)
  · have hlt := height.toNat_lt
    have hx := Nat.mod_lt (2 ^ 64) hh
    have hy : 2 ^ 64 / height.toNat < height.toNat := Nat.div_lt_of_lt_mul hgt
    have hxn := UInt64.toNat_ofNat_of_lt' (hx.trans hlt)
    have hyn := UInt64.toNat_ofNat_of_lt' (hy.trans hlt)
    have hfirst : UInt64.ofNat (2 ^ 64 / height.toNat) * height +
        UInt64.ofNat (2 ^ 64 % height.toNat) = 0 := by
      rw [← UInt64.toNat_inj, UInt64.toNat_add, UInt64.toNat_mul, hxn, hyn, Nat.mod_add_mod,
        Nat.mul_comm, Nat.div_add_mod]
      rfl
    have hback := (h.decodes (c := (.ofNat (2 ^ 64 % height.toNat), .ofNat (2 ^ 64 / height.toNat)))
      (UInt64.lt_iff_toNat_lt.mpr (hxn ▸ hx)) (UInt64.lt_iff_toNat_lt.mpr (hyn ▸ hy))).2.2
    rw [hfirst] at hback
    have hzero := congrArg UInt64.toNat hback
    rw [hyn, UInt64.toNat_div, UInt64.toNat_zero, Nat.zero_div] at hzero
    have hpos := Nat.div_pos hlt.le hh
    omega

/-- The cells of a rectangle that is not square do not all come back, nor do
those of a square whose cells cannot be counted. -/
theorem EventsFaithful.square (h : EventsFaithful width height) (hw : 1 ≤ width) (hh : 1 ≤ height) :
    width = height ∧ width.toNat * height.toNat < 2 ^ 64 := by
  have hw' : 1 ≤ width.toNat := UInt64.le_iff_toNat_le.mp hw
  have hh' : 1 ≤ height.toNat := UInt64.le_iff_toNat_le.mp hh
  obtain hlt | heq | hlt := Nat.lt_trichotomy height.toNat width.toNat
  · -- the first cell right of the square comes back as the first of its row
    have hback := (h.decodes (c := (height, 0)) hlt hh').2.1
    have hzero := congrArg UInt64.toNat hback
    simp at hzero
    omega
  · rw [UInt64.toNat_inj] at heq
    subst heq
    exact ⟨rfl, h.fits hh'⟩
  · -- the second row comes back shifted
    have hback := (h.decodes (c := (0, 1)) hw' (UInt64.lt_iff_toNat_lt.mpr
      (lt_of_le_of_lt hw' hlt))).2.1
    have hzero := congrArg UInt64.toNat hback
    simp [Nat.mod_eq_of_lt hlt] at hzero
    omega

/-- **The event queue is faithful exactly for the square mazes** whose cells can
be counted. -/
theorem eventsFaithful_iff (width height : Count) (hw : 1 ≤ width) (hh : 1 ≤ height) :
    EventsFaithful width height ↔ width = height ∧ width.toNat * height.toNat < 2 ^ 64 := by
  constructor
  · exact fun h => h.square hw hh
  · rintro ⟨rfl, hfits⟩ mapBuff eventBuff events
    have hdims := startQueue_dims width width mapBuff eventBuff
    have hstart : QueueInv (startQueue width width mapBuff eventBuff) := by
      refine ⟨⟨hdims.1.trans hdims.2.symm, ?_⟩, events_start mapBuff eventBuff⟩
      unfold CellsFit
      rw [hdims.1, hdims.2]
      exact hfits
    exact (List.foldlRecOn (motive := QueueInv) events _ hstart fun q hq e _ => hq.step e).ok

/-- A maze of two columns and one row: the second cell is marked and comes back
as the first. -/
theorem twoColumns_unfaithful : ¬ EventsFaithful 2 1 := by
  intro h
  have hback := (h.decodes (c := (1, 0)) (by decide) (by decide)).2.1
  revert hback
  decide

theorem eventsFaithful_iff_sample : EventsFaithful 16 16 :=
  (eventsFaithful_iff 16 16 (by decide) (by decide)).mpr ⟨rfl, by decide⟩

end KernelPanic
