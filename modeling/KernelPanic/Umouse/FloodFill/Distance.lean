import KernelPanic.Lib.Relaxation
import KernelPanic.Umouse.FloodFill

/-!
# KernelPanic.Umouse.FloodFill.Distance

`FloodFillCalculate` computes distances, in square mazes.

A flood map stands for the labels and pending cells of `Lib.Relaxation`
(`Labelled`), and a round of the loop is a visit to the cell that `FloodGetEvent`
has returned.  Labels are bytes, so the distances are cut off at 255, which is
also the value of a cell that cannot be reached.
-/

namespace KernelPanic

open Relaxation

/-! ## steps through the maze -/

/-- The cell in a direction. -/
def beyond (c : Cell) : Direction → Cell
  | .north => (c.1 + 0, c.2 + 1)
  | .east => (c.1 + 1, c.2 + 0)
  | .south => (c.1 + 0, c.2 - 1)
  | .west => (c.1 - 1, c.2 + 0)

/-- The cells are next to each other, with no wall between them. -/
def Opens (map : Map) (c d : Cell) : Prop :=
  ∃ dir, mapGetWall c.1 c.2 dir map = false ∧ d = beyond c dir

/-- The cells that a round looks at, in its order. -/
def neighbours (map : Map) (c : Cell) : List Cell :=
  ([.east, .west, .north, .south].filter fun dir => !mapGetWall c.1 c.2 dir map).map (beyond c)

/-- `FloodFillSetDestination`, for every destination. -/
def setDestinations (dests : List Cell) (map : FloodMap) : FloodMap :=
  dests.foldl (fun map d => floodFillSetDestination d.1 d.2 map) map

def Direction.opposite : Direction → Direction
  | .north => .south
  | .east => .west
  | .south => .north
  | .west => .east

variable {map : Map} {c d : Cell} {dir : Direction}

theorem beyond_opposite : beyond (beyond c dir) dir.opposite = c := by
  cases dir <;> simp [beyond, Direction.opposite]

/-- No coordinate wraps around on the way through an interior wall. -/
theorem wallOf_beyond (hin : (wallOf c.1 c.2 dir).Interior map.width map.height) :
    wallOf (beyond c dir).1 (beyond c dir).2 dir.opposite = wallOf c.1 c.2 dir ∧
      (beyond c dir).1 < map.width ∧ (beyond c dir).2 < map.height := by
  have hw := map.width.toNat_lt
  have hh := map.height.toNat_lt
  have hone : (1 : Index).toNat = 1 := rfl
  simp only [UInt64.lt_iff_toNat_lt]
  cases dir <;> simp only [wallOf, Wall.Interior] at hin <;>
  simp only [wallOf, beyond, Direction.opposite, UInt64.add_zero, UInt64.toNat_add,
    UInt64.toNat_sub, hone, Wall.horizontal.injEq, Wall.vertical.injEq, true_and,
    and_true] <;> omega

/-- A wall that is open has a cell of the maze behind it, from which it is open as
well. -/
theorem Opens.of_open (hopen : mapGetWall c.1 c.2 dir map = false) :
    Opens map (beyond c dir) c ∧ (beyond c dir).1 < map.width ∧ (beyond c dir).2 < map.height := by
  have hget := (addressed c.1 c.2 dir map).get
  by_cases hin : (wallOf c.1 c.2 dir).Interior map.width map.height
  · obtain ⟨hwall, hinside⟩ := wallOf_beyond hin
    refine ⟨⟨dir.opposite, ?_, beyond_opposite.symm⟩, hinside⟩
    rw [(addressed ..).get, hwall, ← hget, hopen]
  · rw [if_neg hin, hopen] at hget
    cases hget

theorem mem_neighbours : d ∈ neighbours map c ↔ Opens map d c := by
  have hall : ∀ dir : Direction, dir ∈ [Direction.east, .west, .north, .south] := by
    intro dir
    cases dir <;> decide
  unfold neighbours
  simp only [List.mem_map, List.mem_filter, hall, true_and, Bool.not_eq_true']
  constructor
  · rintro ⟨dir, hopen, rfl⟩
    exact (Opens.of_open hopen).1
  · rintro ⟨dir, hopen, rfl⟩
    obtain ⟨dir', hopen', heq⟩ := (Opens.of_open hopen).1
    exact ⟨dir', hopen', heq.symm⟩

theorem neighbours_inside (hd : d ∈ neighbours map c) : d.1 < map.width ∧ d.2 < map.height := by
  obtain ⟨dir, hdir, rfl⟩ := List.mem_map.mp hd
  exact (Opens.of_open (by simpa using (List.mem_filter.mp hdir).2)).2

theorem length_neighbours : (neighbours map c).length ≤ 4 := by
  unfold neighbours
  rw [List.length_map]
  exact List.length_filter_le _ _

/-! ## flood maps as labels -/

variable {n : Count} {m : FloodMap} {s : Labels Cell} {dests : List Cell}

/-- The flood map holds the labels, and its flags are on for the pending cells. -/
structure Labelled (n : Count) (m : FloodMap) (s : Labels Cell) : Prop where
  width : m.width = n
  height : m.height = n
  fits : n.toNat * n.toNat < 2 ^ 64
  label : ∀ c : Cell, (floodFillGet c.1 c.2 m).toNat = s.label c
  events : Events m s.pending

theorem Labelled.square (h : Labelled n m s) : Square m := by
  refine ⟨h.width.trans h.height.symm, ?_⟩
  unfold CellsFit
  rw [h.width, h.height]
  exact h.fits

theorem floodFillGet_eq : floodFillGet c.1 c.2 m =
    if InMaze m c then .ofNat (m.floodMap (floodFillGetIndex c.1 c.2 m).toNat).toNat else 255 := by
  unfold floodFillGet
  rw [outside_eq]
  split <;> simp_all

theorem floodFillSet_outside (hd : ¬ InMaze m d) (value : UInt8) :
    floodFillSet d.1 d.2 value m = m := by
  unfold floodFillSet
  rw [outside_eq]
  simp [hd]

/-- **`FloodFillSet`** sets the cell, and no other. -/
theorem floodFillGet_set (hfits : CellsFit m) (hd : InMaze m d) (value : UInt8) (c : Cell) :
    floodFillGet c.1 c.2 (floodFillSet d.1 d.2 value m) =
      if c = d then value else floodFillGet c.1 c.2 m := by
  have hset : floodFillSet d.1 d.2 value m = { m with
      floodMap := Function.update m.floodMap (cellNumber m d) (.ofNat 32 value.toNat) } := by
    unfold floodFillSet
    rw [outside_eq]
    simp [hd, hfits.index hd]
  have hvalue : UInt8.ofNat (BitVec.ofNat 32 value.toNat).toNat = value := by
    have hlt := value.toNat_lt
    rw [BitVec.toNat_ofNat, Nat.mod_eq_of_lt (by omega), UInt8.ofNat_toNat]
  rw [hset, floodFillGet_eq (m := m), floodFillGet_eq]
  show (if InMaze m c then UInt8.ofNat (Function.update m.floodMap (cellNumber m d)
    (.ofNat 32 value.toNat) (floodFillGetIndex c.1 c.2 m).toNat).toNat else 255) = _
  by_cases hc : InMaze m c
  · rw [if_pos hc, if_pos hc, hfits.index hc]
    by_cases hcd : c = d
    · rw [hcd, Function.update_self, if_pos rfl, hvalue]
    · rw [Function.update_of_ne (fun heq => hcd (cellNumber_inj hc hd heq)), if_neg hcd]
  · have hcd : c ≠ d := fun heq => hc (heq ▸ hd)
    rw [if_neg hc, if_neg hc, if_neg hcd]

theorem floodNewEvent_get (x y : Index) :
    floodFillGet c.1 c.2 (floodNewEvent x y m) = floodFillGet c.1 c.2 m := by
  by_cases hd : InMaze m (x, y)
  · rw [floodNewEvent_inside (c := (x, y)) hd]
    rfl
  · rw [floodNewEvent_outside (c := (x, y)) hd]

/-- **A cell is given a value and marked.** -/
theorem Labelled.set (h : Labelled n m s) (hd : InMaze m d) (value : UInt8) :
    Labelled n (floodNewEvent d.1 d.2 (floodFillSet d.1 d.2 value m))
      ⟨Function.update s.label d value.toNat, insert d s.pending⟩ := by
  obtain ⟨cells, heq⟩ := floodFillSet_eq d.1 d.2 value m
  have hget := floodFillGet_set h.square.fits hd value
  rw [heq] at hget ⊢
  have hevents : Events { m with floodMap := cells } s.pending := ⟨h.events.inside, h.events.flags⟩
  have hmark := hevents.mark (c := d) h.square.fits hd
  have hnew : floodNewEvent d.1 d.2 { m with floodMap := cells } = _ := floodNewEvent_inside hd
  constructor
  · rw [hnew]
    exact h.width
  · rw [hnew]
    exact h.height
  · exact h.fits
  · intro c
    rw [floodNewEvent_get, hget]
    show _ = Function.update s.label d value.toNat c
    by_cases hc : c = d
    · rw [if_pos hc, hc, Function.update_self]
    · rw [if_neg hc, Function.update_of_ne hc, h.label]
  · exact hmark

/-! ## one round -/

/-- A branch of the loop is a relaxation, when the wall is open. -/
theorem Labelled.branch (h : Labelled n m s) (hw : map.width = n) (hh : map.height = n)
    {curValue : UInt8} {v : ℕ} (hv : curValue.toNat = v) (dir : Direction) :
    Labelled n (floodFillBranch map c.1 c.2 curValue dir (beyond c dir).1 (beyond c dir).2 m)
      (if !mapGetWall c.1 c.2 dir map then relax v s (beyond c dir) else s) := by
  unfold floodFillBranch relax
  cases hopen : mapGetWall c.1 c.2 dir map with
  | true => exact h
  | false =>
      have hin : InMaze m (beyond c dir) := by
        obtain ⟨-, hx, hy⟩ := Opens.of_open hopen
        exact ⟨h.width.symm ▸ hw ▸ hx, h.height.symm ▸ hh ▸ hy⟩
      have hlt : floodFillGet (beyond c dir).1 (beyond c dir).2 m > curValue ↔
          v < s.label (beyond c dir) := by
        rw [gt_iff_lt, UInt8.lt_iff_toNat_lt, h.label, hv]
      by_cases hless : v < s.label (beyond c dir)
      · have hsum : (curValue + 1).toNat = v + 1 := by
          have hmax := (floodFillGet (beyond c dir).1 (beyond c dir).2 m).toNat_lt
          have hone : (1 : UInt8).toNat = 1 := rfl
          rw [h.label] at hmax
          rw [UInt8.toNat_add, hv, hone]
          exact Nat.mod_eq_of_lt (by omega)
        have hset := h.set hin (curValue + 1)
        rw [hsum] at hset
        simpa [hlt, hless] using hset
      · simpa [hlt, hless] using h

/-- **A round of `FloodFillCalculate`** relaxes the neighbours of its cell. -/
theorem Labelled.round (h : Labelled n m s) (hw : map.width = n) (hh : map.height = n) (c : Cell) :
    Labelled n (floodFillRound map c.1 c.2 m) ((neighbours map c).foldl (relax (s.label c)) s) := by
  have hv := h.label c
  have heast := h.branch (c := c) hw hh hv .east
  have hwest := heast.branch (c := c) hw hh hv .west
  have hnorth := hwest.branch (c := c) hw hh hv .north
  have hsouth := hnorth.branch (c := c) hw hh hv .south
  unfold neighbours
  rw [List.foldl_map, List.foldl_filter]
  exact hsouth

/-! ## the start -/

/-- A loop makes true what one of its rounds makes true and none makes false. -/
theorem foldl_of_mem {β γ : Type*} {f : β → γ → β} {Q P : β → Prop} {x : γ} {xs : List γ}
    (hQ : ∀ b a, Q b → Q (f b a)) (hP : ∀ b a, Q b → P b → P (f b a)) (hx : ∀ b, Q b → P (f b x))
    (hmem : x ∈ xs) {b : β} (hb : Q b) : P (xs.foldl f b) := by
  induction xs generalizing b with
  | nil => cases hmem
  | cons a xs ih =>
      obtain rfl | hmem := List.mem_cons.mp hmem
      · have hkeep : Q (xs.foldl f (f b x)) ∧ P (xs.foldl f (f b x)) :=
          List.foldlRecOn (motive := fun b => Q b ∧ P b) xs f ⟨hQ b x hb, hx b hb⟩
            fun b hb a _ => ⟨hQ b a hb.1, hP b a hb.1 hb.2⟩
        exact hkeep.2
      · exact ih hmem (hQ b a hb)

/-- A flood map of the same maze. -/
def SameDims (m m' : FloodMap) : Prop := m'.width = m.width ∧ m'.height = m.height

namespace SameDims

variable {m' : FloodMap} {x y : Index} {value : UInt8}

theorem set (h : SameDims m m') : SameDims m (floodFillSet x y value m') := by
  obtain ⟨cells, heq⟩ := floodFillSet_eq x y value m'
  rw [heq]
  exact h

theorem cellsFit (h : SameDims m m') (hfits : CellsFit m) : CellsFit m' := by
  unfold CellsFit
  rw [h.1, h.2]
  exact hfits

theorem inMaze (h : SameDims m m') (hc : InMaze m c) : InMaze m' c := by
  unfold InMaze
  rw [h.1, h.2]
  exact hc

/-- A cell that holds 255 still does when 255 is written anywhere. -/
theorem get_set (h : SameDims m m') (hfits : CellsFit m) (hget : floodFillGet c.1 c.2 m' = 255) :
    floodFillGet c.1 c.2 (floodFillSet x y (-1) m') = 255 := by
  by_cases hd : InMaze m' (x, y)
  · rw [floodFillGet_set (d := (x, y)) (h.cellsFit hfits) hd, hget, ite_eq_right_iff]
    exact fun _ => rfl
  · rw [floodFillSet_outside (d := (x, y)) hd, hget]

end SameDims

/-- The two loops of `FloodFillClear` reach every cell of the maze. -/
theorem floodFillClear_get (hfits : CellsFit m) (c : Cell) :
    floodFillGet c.1 c.2 (floodFillClear m) = 255 := by
  by_cases hc : InMaze m c
  · have hset : ∀ m', SameDims m m' →
        floodFillGet c.1 c.2 (floodFillSet c.1 c.2 (-1) m') = 255 := by
      intro m' hm
      rw [floodFillGet_set (hm.cellsFit hfits) (hm.inMaze hc), if_pos rfl]
      rfl
    have hx : c.1.toNat ∈ List.range m.width.toNat :=
      List.mem_range.mpr (UInt64.lt_iff_toNat_lt.mp hc.1)
    have hy : c.2.toNat ∈ List.range m.height.toNat :=
      List.mem_range.mpr (UInt64.lt_iff_toNat_lt.mp hc.2)
    refine foldl_of_mem (Q := SameDims m) (P := fun m' => floodFillGet c.1 c.2 m' = 255)
      (fun m' x hm => ?_) (fun m' x hm hget => ?_) (fun m' hm => ?_) hx ⟨rfl, rfl⟩
    · exact List.foldlRecOn _ _ hm fun _ h _ _ => h.set
    · have hboth := List.foldlRecOn
        (motive := fun m' => SameDims m m' ∧ floodFillGet c.1 c.2 m' = 255)
        (List.range m.height.toNat) (fun m y => floodFillSet (.ofNat x) (.ofNat y) (-1) m)
        ⟨hm, hget⟩ fun _ h _ _ => ⟨h.1.set, h.1.get_set hfits h.2⟩
      exact hboth.2
    · refine foldl_of_mem (Q := SameDims m) (P := fun m' => floodFillGet c.1 c.2 m' = 255)
        (fun _ _ h => h.set) (fun _ _ h hget => h.get_set hfits hget) (fun m' hm => ?_) hy hm
      rw [UInt64.ofNat_toNat, UInt64.ofNat_toNat]
      exact hset m' hm
  · obtain ⟨cells, heq⟩ := floodFillClear_eq m
    rw [heq, floodFillGet_eq]
    exact if_neg hc

/-- A cleared flood map, with its destinations set. -/
theorem Labelled.start (hfits : n.toNat * n.toNat < 2 ^ 64) (mapBuff eventBuff : Words)
    (hdests : ∀ d ∈ dests, d.1 < n ∧ d.2 < n) :
    Labelled n (setDestinations dests (floodFillClear (floodFillInit n n mapBuff eventBuff)))
      (start 255 dests.toFinset) := by
  have hdims := startQueue_dims n n mapBuff eventBuff
  have hclear : Labelled n (floodFillClear (floodFillInit n n mapBuff eventBuff))
      (Relaxation.start 255 ∅) := by
    refine ⟨hdims.1, hdims.2, hfits, fun c => ?_, events_start mapBuff eventBuff⟩
    rw [floodFillClear_get (m := floodFillInit n n mapBuff eventBuff) hfits]
    rfl
  generalize floodFillClear (floodFillInit n n mapBuff eventBuff) = m at hclear
  suffices hall : ∀ (done : Finset Cell) m, Labelled n m (Relaxation.start 255 done) →
      Labelled n (setDestinations dests m) (Relaxation.start 255 (done ∪ dests.toFinset)) by
    simpa using hall ∅ m hclear
  induction dests with
  | nil => simp [setDestinations]
  | cons d dests ih =>
      intro done m h
      obtain ⟨hd, hdests⟩ := List.forall_mem_cons.mp hdests
      have hin : InMaze m d := ⟨h.width.symm ▸ hd.1, h.height.symm ▸ hd.2⟩
      have hset := h.set hin 0
      rw [UInt8.toNat_zero, update_start] at hset
      have hrest := ih hdests (insert d done) _ hset
      rw [List.toFinset_cons, Finset.union_insert, ← Finset.insert_union]
      exact hrest

/-! ## the run -/

/-- The cells of a maze. -/
def cellsOf (n : Count) : Finset Cell :=
  (Finset.range n.toNat ×ˢ Finset.range n.toNat).image fun p => (.ofNat p.1, .ofNat p.2)

theorem mem_cellsOf (hx : c.1 < n) (hy : c.2 < n) : c ∈ cellsOf n := by
  unfold cellsOf
  rw [Finset.mem_image]
  refine ⟨(c.1.toNat, c.2.toNat), ?_, Prod.ext UInt64.ofNat_toNat UInt64.ofNat_toNat⟩
  rw [Finset.mem_product, Finset.mem_range, Finset.mem_range]
  exact ⟨UInt64.lt_iff_toNat_lt.mp hx, UInt64.lt_iff_toNat_lt.mp hy⟩

/-- The loop of `FloodFillCalculate` ends with nothing pending, from every flood
map that holds the labels. -/
def CalculateEnds (map : Map) (targets : Set Cell) (n : Count) (s : Labels Cell) : Prop :=
  ∀ m, Labelled n m s → ∃ result s' fuel,
    (∀ f ≥ fuel, floodFillCalculate map f m = some result) ∧
      Labelled n result s' ∧ Sound (Opens map) targets 255 s' ∧ s'.pending = ∅

theorem calculateEnds_of_sound {targets : Set Cell} (hw : map.width = n) (hh : map.height = n)
    (hs : Sound (Opens map) targets 255 s) : CalculateEnds map targets n s := by
  have hcells : ∀ c, ∀ d ∈ neighbours map c, d ∈ cellsOf n := fun c d hd => by
    obtain ⟨hx, hy⟩ := neighbours_inside hd
    exact mem_cellsOf (hw ▸ hx) (hh ▸ hy)
  refine hs.induction (fun c d => mem_neighbours) hcells (fun c => length_neighbours) ?_
  intro s hs ih m h
  obtain ⟨hempty, hget⟩ | ⟨eventMap, hmem, hget, hevents⟩ := h.events.get h.square
  · refine ⟨m, s, 1, fun f hf => ?_, h, hs, hempty⟩
    obtain ⟨f, rfl⟩ := Nat.exists_eq_add_of_le' hf
    rw [floodFillCalculate, hget]
    rfl
  · generalize hc : (floodGetEvent m).1 = c at hmem hevents
    have hlabelled : Labelled n { m with eventMap := eventMap }
        { s with pending := s.pending.erase c } :=
      ⟨h.width, h.height, h.fits, h.label, hevents⟩
    obtain ⟨result, s', fuel, hrun, hrest⟩ := ih c hmem _ (hlabelled.round hw hh c)
    refine ⟨result, s', fuel + 1, fun f hf => ?_, hrest⟩
    obtain ⟨f, rfl⟩ := Nat.exists_eq_add_of_le' (Nat.le_of_add_left_le hf)
    have hne : ¬ (c.1 = -1 ∧ c.2 = -1) := fun heq =>
      (h.events.inside c hmem).ne (Prod.ext heq.1 heq.2)
    rw [floodFillCalculate, hc, hget]
    simp only [Bool.and_eq_true, decide_eq_true_eq, hne, if_false]
    exact hrun f (by omega)

/-- **`FloodFillCalculate` ends with the distances** to the nearest destination,
along ways that no wall blocks.  The `n * n` words of the flood map fit into the
address space. -/
theorem floodFill_shortest (n : Count) (map : Map) (hw : map.width = n) (hh : map.height = n)
    (hfits : n.toNat * n.toNat < 2 ^ 64) (mapBuff eventBuff : Words) (dests : List Cell)
    (hdests : ∀ d ∈ dests, d.1 < n ∧ d.2 < n) :
    ∃ result fuel,
      (∀ f ≥ fuel, floodFillCalculate map f
        (setDestinations dests (floodFillClear (floodFillInit n n mapBuff eventBuff))) =
          some result) ∧
      (∀ c : Cell, ((floodFillGet c.1 c.2 result).toNat : ℕ∞) =
        min 255 (distance (Opens map) {d | d ∈ dests} c)) ∧
      ∀ c : Cell, ¬ (c.1 < n ∧ c.2 < n) → floodFillGet c.1 c.2 result = 255 := by
  have hstart : Sound (Opens map) dests.toFinset 255 (start 255 dests.toFinset) :=
    Sound.start dests.toFinset
  obtain ⟨result, s', fuel, hrun, hresult, hs, hdone⟩ :=
    calculateEnds_of_sound hw hh hstart _ (Labelled.start hfits mapBuff eventBuff hdests)
  refine ⟨result, fuel, hrun, fun c => ?_, fun c hc => ?_⟩
  · rw [hresult.label, hs.label_eq hdone, List.coe_toFinset]
    rfl
  · rw [floodFillGet_eq, if_neg]
    unfold InMaze
    rw [hresult.width, hresult.height]
    exact hc

/-- Four cells, with a wall between the two of the first row. -/
theorem floodFill_shortest_sample :
    ∃ result fuel,
      (∀ f ≥ fuel, floodFillCalculate (mapSetWall 0 0 .east true (blankMap 2 2)) f
        (setDestinations [(1, 1)] (floodFillClear (floodFillInit 2 2 (fun _ => 0) fun _ => 0))) =
          some result) ∧
      (∀ c : Cell, ((floodFillGet c.1 c.2 result).toNat : ℕ∞) =
        min 255 (distance (Opens (mapSetWall 0 0 .east true (blankMap 2 2)))
          {d | d ∈ [((1, 1) : Cell)]} c)) ∧
      ∀ c : Cell, ¬ (c.1 < 2 ∧ c.2 < 2) → floodFillGet c.1 c.2 result = 255 :=
  floodFill_shortest 2 (mapSetWall 0 0 .east true (blankMap 2 2)) rfl rfl (by decide)
    (fun _ => 0) (fun _ => 0) [(1, 1)] fun d hd => by
      rw [List.mem_singleton.mp hd]
      exact ⟨by decide, by decide⟩

end KernelPanic
