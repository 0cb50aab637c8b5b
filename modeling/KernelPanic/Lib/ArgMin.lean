import Mathlib.Data.List.MinMax
import Mathlib.Data.Prod.Lex

/-!
# KernelPanic.Lib.ArgMin

Loops that look for the first minimum of a list, and what becomes of the minimum
when the last of several preferences is turned round.
-/

namespace ArgMin

variable {α β : Type*} [LinearOrder β] {f g : α → β} {a b : α} {xs : List α}

/-- A loop that replaces its candidate when it meets something better finds the
first minimum. -/
theorem argmin_cons_eq_foldl (f : α → β) (a : α) (xs : List α) :
    (a :: xs).argmin f = some (xs.foldl (fun best b => if f b < f best then b else best) a) := by
  show xs.foldl _ (some a) = _
  induction xs generalizing a with
  | nil => rfl
  | cons b xs ih =>
      rw [List.foldl_cons, List.foldl_cons, ← ih]
      congr 1
      by_cases hlt : f b < f a <;> simp [List.argAux, hlt]

/-- Whatever is worse than something later on does not matter. -/
theorem argmin_cons_of_lt (hb : b ∈ xs) (hlt : f b < f a) : (a :: xs).argmin f = xs.argmin f := by
  rw [List.argmin_cons]
  cases hmin : xs.argmin f with
  | none => simp [List.argmin_eq_none.mp hmin] at hb
  | some c =>
      have hle : f c ≤ f b := List.le_of_mem_argmin hb hmin
      simp [hle.trans_lt hlt]

theorem argmin_congr [DecidableEq α] (h : ∀ a ∈ xs, f a = g a) : xs.argmin f = xs.argmin g := by
  refine Option.ext fun a => ?_
  show a ∈ xs.argmin f ↔ a ∈ xs.argmin g
  simp only [List.mem_argmin_iff]
  grind

/-- No element of the list is before `a` in the order of `f`. -/
def Least (f : α → β) (xs : List α) (a : α) : Prop := a ∈ xs ∧ ∀ b ∈ xs, f a ≤ f b

/-- A last preference on which the elements that tie agree makes no difference. -/
theorem argmin_lex_of_agree [DecidableEq α] {r : α → Bool}
    (h : ∀ a b, Least f xs a → Least f xs b → r a = r b) :
    (xs.argmin fun a => toLex (f a, r a)) = xs.argmin f := by
  cases hmin : xs.argmin f with
  | none => rw [List.argmin_eq_none.mp hmin, List.argmin_nil]
  | some c =>
      obtain ⟨hc, hle, hfirst⟩ := List.mem_argmin_iff.mp (show c ∈ xs.argmin f from hmin)
      refine List.mem_argmin_iff.mpr ⟨hc, fun d hd => ?_, fun d hd hdc => ?_⟩
      · rw [Prod.Lex.toLex_le_toLex]
        obtain hlt | heq := (hle d hd).lt_or_eq
        · exact .inl hlt
        · exact .inr ⟨heq, (h c d ⟨hc, hle⟩ ⟨hd, heq ▸ hle⟩).le⟩
      · refine hfirst d hd ?_
        obtain hlt | heq := Prod.Lex.toLex_le_toLex.mp hdc
        · exact hlt.le
        · exact heq.1.le

/-- **A last preference turned round** makes no difference exactly when the
elements that tie on the others agree on it. -/
theorem argmin_not_iff [DecidableEq α] {r : α → Bool} :
    (xs.argmin fun a => toLex (f a, !r a)) = (xs.argmin fun a => toLex (f a, r a)) ↔
      ∀ a b, Least f xs a → Least f xs b → r a = r b := by
  constructor
  · intro heq a b ha hb
    cases hmin : xs.argmin fun a => toLex (f a, r a) with
    | none =>
        rw [List.argmin_eq_none.mp hmin] at ha
        exact absurd ha.1 List.not_mem_nil
    | some c =>
        obtain ⟨hc, hle, -⟩ := List.mem_argmin_iff.mp (show c ∈ _ from hmin)
        obtain ⟨-, hle', -⟩ := List.mem_argmin_iff.mp (show c ∈ _ from heq.trans hmin)
        -- whatever ties on the other preferences is as good as the minimum either way
        have hall : ∀ d, Least f xs d → r d = r c := by
          intro d hd
          have hnot : ¬ f c < f d := (hd.2 c hc).not_gt
          have hlast := ((Prod.Lex.toLex_le_toLex.mp (hle d hd.1)).resolve_left hnot).2
          have hlast' := ((Prod.Lex.toLex_le_toLex.mp (hle' d hd.1)).resolve_left hnot).2
          revert hlast hlast'
          show (r c ≤ r d) → (!r c) ≤ (!r d) → r d = r c
          cases r c <;> cases r d <;> simp
        rw [hall a ha, hall b hb]
  · intro hagree
    rw [argmin_lex_of_agree hagree]
    exact argmin_lex_of_agree fun a b ha hb => congrArg _ (hagree a b ha hb)

end ArgMin
