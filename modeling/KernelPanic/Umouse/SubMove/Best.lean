import KernelPanic.Umouse.SubMove

/-!
# KernelPanic.Umouse.SubMove.Best

Which legal move `SubMoveFindBest` returns.

Its comments prefer the cell with the lower flood, then facing the lower flood,
then facing no wall, then keeping the direction; the last comparison is the
other way round and favours the move that rotates.  So the answer is the stated
one exactly when the legal moves that tie on the first three comparisons all
rotate, or none of them does (`findsBest_iff`).
-/

namespace KernelPanic

/-- The first three comparisons. -/
def MoveKey.leading (k : MoveKey) : ℕ ×ₗ ℕ ×ₗ Bool :=
  toLex (k.flood.toNat, toLex (k.facingFlood.toNat, k.facingWall))

/-- The stated order: lower floods, facing no wall and not rotating are preferred. -/
def MoveKey.rank (k : MoveKey) : (ℕ ×ₗ ℕ ×ₗ Bool) ×ₗ Bool := toLex (k.leading, k.rotated)

/-- Some legal move leads to a cell with a way to the destination. -/
def LeadsOn (m : Mouse) (w : World) : Prop := ∃ move ∈ legalMoves m w, (endKey m w move).flood < 255

/-- `SubMoveFindBest` returns the first of the legal moves that are best in the
stated order; where none leads on it returns any legal move, or that there is
none. -/
def FindsBest (m : Mouse) (w : World) : Prop :=
  (LeadsOn m w → subMoveFindBest m w =
    (legalMoves m w).argmin fun move => (endKey m w move).rank) ∧
  (¬ LeadsOn m w → ∃ best, subMoveFindBest m w = some best ∧
    (best = .done ∨ best ∈ legalMoves m w))

/-- Legal moves that tie on the first three comparisons, ahead of all others,
agree on rotating. -/
def TiesAgree (m : Mouse) (w : World) : Prop :=
  ∀ move move', ArgMin.Least (fun move => (endKey m w move).leading) (legalMoves m w) move →
    ArgMin.Least (fun move => (endKey m w move).leading) (legalMoves m w) move' →
      subMovesRotates move = subMovesRotates move'

variable {m : Mouse} {w : World} {move : SubMove}

theorem standing_of_legal (h : move ∈ legalMoves m w) : standing m w move = endKey m w move := by
  cases move with
  | done => exact absurd rfl (mem_legalMoves.mp h).1
  | _ => rfl

/-- A move that leads on is better than none. -/
theorem Parity.findBest_of_leadsOn (h : Parity m) (hleads : LeadsOn m w) :
    subMoveFindBest m w = (legalMoves m w).argmin fun move => (endKey m w move).codeRank := by
  obtain ⟨move, hmove, hflood⟩ := hleads
  have hlt : (standing m w move).codeRank < (standing m w .done).codeRank := by
    rw [← improves_iff, standing_of_legal hmove]
    have hnot : ¬ (endKey m w move).flood > 255 := UInt8.lt_asymm hflood
    exact (if_neg hnot).trans (if_pos hflood)
  rw [h.findBest, ArgMin.argmin_cons_of_lt hmove hlt]
  exact ArgMin.argmin_congr fun move hmove => by rw [standing_of_legal hmove]

/-- **The answer is the stated one** exactly when ties agree on rotating. -/
theorem findsBest_iff (m : Mouse) (w : World) (h : Parity m) :
    FindsBest m w ↔ (LeadsOn m w → TiesAgree m w) := by
  have hties : LeadsOn m w → (subMoveFindBest m w =
      ((legalMoves m w).argmin fun move => (endKey m w move).rank) ↔ TiesAgree m w) := by
    intro hleads
    rw [h.findBest_of_leadsOn hleads]
    exact ArgMin.argmin_not_iff
  constructor
  · exact fun hbest hleads => (hties hleads).mp (hbest.1 hleads)
  · exact fun hagree => ⟨fun hleads => (hties hleads).mpr (hagree hleads),
      fun _ => h.findBest_cases⟩

/-- Two columns and three rows without a wall; the destinations are on the right at
the bottom and on the left at the top. -/
def sixCells : World where
  map := blankMap 2 3
  flood := ⟨2, 3, fun i => if i = 1 ∨ i = 4 then 0 else 1, fun _ => 0⟩
  scan := ⟨2, 3, fun _ => -1⟩

/-- From the bottom left the mouse could start towards the one destination, or turn
right to the other; it turns. -/
theorem turnsAway : ¬ FindsBest ⟨1, 1, .north, false⟩ sixCells := by
  intro h
  have hturn : subMoveFindBest ⟨1, 1, .north, false⟩ sixCells = some .turnRight := by decide
  have hlegal : legalMoves ⟨1, 1, .north, false⟩ sixCells = [.start, .turnRight] := by decide
  have hstart := h.1 ⟨.start, by decide, by decide⟩
  rw [hturn, hlegal] at hstart
  revert hstart
  decide

/-- Where the mouse can only start, it starts. -/
theorem findsBest_iff_sample : FindsBest ⟨1, 3, .north, false⟩ sixCells :=
  (findsBest_iff ⟨1, 3, .north, false⟩ sixCells (by constructor <;> decide)).mpr
    fun _ move move' hmove hmove' => by
      have hlegal : legalMoves ⟨1, 3, .north, false⟩ sixCells = [.start] := by decide
      rw [ArgMin.Least, hlegal] at hmove hmove'
      rw [List.mem_singleton.mp hmove.1, List.mem_singleton.mp hmove'.1]

end KernelPanic
