import KernelPanic.Kernel.Minilisp.Markers

/-!
# KernelPanic.Kernel.Minilisp.Printer

What `print` writes.

For data that shows an expression it writes `render` of the expression, and does
nothing else (`print_spec`).
-/

namespace KernelPanic.Minilisp

open Machine Prog

/-! ## what is printed -/

namespace Sexp

/-- An expression that is not a cell, as `lispPrintf` writes it. -/
def atom : Sexp → List UInt8
  | .int n => (decimal n).take 99
  | .symbol name => name.take 99
  | .nil => (chars "()").take 99
  | _ => []

mutual

/-- What is printed for an expression. -/
def render : Sexp → List UInt8
  | .cell x y => chars "(" ++ x.render ++ y.renderTail ++ chars ")"
  | x => x.atom

/-- What is printed for the rest of a list. -/
def renderTail : Sexp → List UInt8
  | .cell x y => chars " " ++ x.render ++ y.renderTail
  | .nil => []
  | x => chars " . " ++ x.atom

end

/-- The number of cells and atoms. -/
def size : Sexp → ℕ
  | .cell x y => x.size + y.size + 1
  | _ => 1

theorem size_pos {x : Sexp} : 0 < x.size := by
  cases x <;> exact Nat.succ_pos _

theorem eq_cell {x : Sexp} (h : x.type = some tCell) : ∃ y z, x = .cell y z := by
  cases x with
  | cell y z => exact ⟨y, z, rfl⟩
  | _ => simp [type, Payload.type, tInt, tSymbol, tNil, tCell] at h

theorem renderTail_atom {x : Sexp} (hnil : x ≠ .nil) (hcell : x.type ≠ some tCell) :
    x.renderTail = chars " . " ++ x.render := by
  cases x with
  | nil => exact absurd rfl hnil
  | cell y z => exact absurd rfl hcell
  | _ => rw [renderTail, render] <;> simp

end Sexp

/-! ## data -/

/-- The data at `a` is the expression. -/
def Shows (c : Statics) (rd : ℕ → Option Payload) : ℕ → Sexp → Prop
  | a, .int n => a ≠ null ∧ rd a = some (.int n)
  | a, .symbol name => a ≠ null ∧ rd a = some (.symbol name)
  | a, .nil => a = c.constNil
  | a, .cell x y => a ≠ null ∧
      ∃ p q, rd a = some (.cell p q) ∧ Shows c rd p x ∧ Shows c rd q y
  | a, .dot => a = c.constDot
  | a, .cparen => a = c.constCparen
  | a, .null => a = null

section shows

variable {c : Statics} {rd : ℕ → Option Payload} {a : ℕ} {x : Sexp}

/-- The type of what is there, unless it is a marker. -/
theorem Shows.type {proper : Bool} (h : Shows c rd a x) (hnil : rd c.constNil = some .constNil)
    (hdatum : x.piece = .datum proper) : (rd a).map Payload.type = x.type := by
  cases x with
  | int n =>
      rw [h.2]
      rfl
  | symbol name =>
      rw [h.2]
      rfl
  | cell x y =>
      obtain ⟨-, p, q, hread, -⟩ := h
      rw [hread]
      rfl
  | nil =>
      obtain rfl : a = c.constNil := h
      rw [hnil]
      rfl
  | dot => cases hdatum
  | cparen => cases hdatum
  | null => cases hdatum

theorem Sexp.piece_of_proper (hproper : x.proper) : x.piece = .datum true := by
  rw [← piece_eq_datum] at hproper
  exact of_decide_eq_true hproper

theorem Shows.payload (h : Shows c rd a x) (hnil : rd c.constNil = some .constNil)
    (hproper : x.proper) : ∃ payload, rd a = some payload ∧ some payload.type = x.type := by
  have htype := h.type hnil (Sexp.piece_of_proper hproper)
  cases hread : rd a with
  | some payload =>
      rw [hread] at htype
      exact ⟨payload, rfl, htype⟩
  | none =>
      rw [hread] at htype
      cases x <;> cases htype
      cases hproper

theorem Shows.eq_nil (h : Shows c rd a x) (hnil : rd c.constNil = some .constNil)
    (hproper : x.proper) : a = c.constNil ↔ x = .nil := by
  constructor
  · rintro rfl
    have htype := h.type hnil (Sexp.piece_of_proper hproper)
    rw [hnil] at htype
    cases x <;> simp_all [Sexp.type, Payload.type, tInt, tSymbol, tCell, Sexp.proper]
  · rintro rfl
    exact h

end shows

/-! ## `print` -/

section print

variable {H : Type} {b : Backend H} {c : Statics} {heap : H} {frames : Frames} {t : Handles}
  {w : World} {a n m : ℕ} {p : Ptr} {x y : Sexp} {α : Type}

/-- The code returns, and all that it has done is to write `s`. -/
def Writes (b : Backend H) (c : Statics) (heap : H) (frames : Frames) (t : Handles) (w : World)
    (s : List UInt8) (res : Except Fault Unit) (m' : Machine H) : Prop :=
  res = .ok () ∧ ∃ t', t.Le b c t' ∧ m' = ⟨heap, frames, t', { w with output := w.output ++ s }⟩

theorem wp_write {k : Unit → Code α} {s : List UInt8} {Q : Except Fault α → Machine H → Prop}
    (hk : wp (handle b c) (k ()) Q ⟨heap, frames, t, { w with output := w.output ++ s }⟩) :
    wp (handle b c) (write s >>= k) Q ⟨heap, frames, t, w⟩ := hk

/-- Then more is written. -/
theorem wp_writes {code : Code Unit} {k : Unit → Code α} {s : List UInt8}
    {Q : Except Fault α → Machine H → Prop}
    (hcode : wp (handle b c) code (Writes b c heap frames t w s) ⟨heap, frames, t, w⟩)
    (hk : ∀ t', t.Le b c t' →
      wp (handle b c) (k ()) Q ⟨heap, frames, t', { w with output := w.output ++ s }⟩) :
    wp (handle b c) (code >>= k) Q ⟨heap, frames, t, w⟩ := by
  refine wp_bind.mpr (wp_mono hcode ?_)
  rintro res m' ⟨rfl, t', hle, rfl⟩
  exact hk t' hle

/-- The loop of `print`, from a cell of the list on. -/
theorem printLoop_spec {code : Ptr → Code Unit} (hnil : b.read heap c.constNil = some .constNil)
    (hcode : ∀ t w p a x, t.Has b c p a → Shows c (b.read heap) a x → x.proper → x.size ≤ n →
      wp (handle b c) (code p) (Writes b c heap frames t w x.render) ⟨heap, frames, t, w⟩)
    (hp : t.Has b c p a) (hshows : Shows c (b.read heap) a (.cell x y))
    (hproper : (Sexp.cell x y).proper) (hn : (Sexp.cell x y).size ≤ n + 1)
    (hm : (Sexp.cell x y).size ≤ m + 1) :
    wp (handle b c) (printLoop code m p)
      (Writes b c heap frames t w (x.render ++ y.renderTail)) ⟨heap, frames, t, w⟩ := by
  induction m generalizing t w p a x y with
  | zero =>
      rw [Sexp.size] at hm
      have hx := x.size_pos
      omega
  | succ m ih =>
      obtain ⟨-, d, e, hread, hx, hy⟩ := hshows
      obtain ⟨hpx, hpy⟩ : x.proper ∧ y.proper := by simpa [Sexp.proper] using hproper
      rw [Sexp.size] at hn hm
      have hsize := x.size_pos
      have hcar : ∀ d e, (Payload.cell d e).field .car = some d := fun _ _ => rfl
      have hcdr : ∀ d e, (Payload.cell d e).field .cdr = some e := fun _ _ => rfl
      rw [printLoop]
      refine wp_get hp hread (hcar d e) fun t₁ q₁ hle₁ hq₁ => ?_
      refine wp_writes (hcode t₁ w q₁ d x hq₁ hx hpx (by omega)) fun t₂ hle₂ => ?_
      have hp₂ := hle₂ _ _ (hle₁ _ _ hp)
      refine wp_get hp₂ hread (hcdr d e) fun t₃ q₃ hle₃ hq₃ => ?_
      refine wp_is hq₃ has_nil ?_
      have hle : t.Le b c t₃ := (hle₁.trans hle₂).trans hle₃
      by_cases hend : y = .nil
      · simp only [decide_eq_true ((hy.eq_nil hnil hpy).mpr hend), ↓reduceIte]
        refine ⟨rfl, t₃, hle, ?_⟩
        rw [hend, Sexp.renderTail, List.append_nil]
        rfl
      simp only [decide_eq_false (hend ∘ (hy.eq_nil hnil hpy).mp), Bool.false_eq_true, ↓reduceIte]
      refine wp_get (hle₃ _ _ hp₂) hread (hcdr d e) fun t₄ q₄ hle₄ hq₄ => ?_
      obtain ⟨payload, hpayload, htype⟩ := hy.payload hnil hpy
      refine wp_type hq₄ hpayload ?_
      have hp₄ := hle₄ _ _ (hle₃ _ _ hp₂)
      by_cases hcell : payload.type = tCell
      · -- The list goes on.
        obtain ⟨y, z, rfl⟩ := Sexp.eq_cell (htype.symm.trans (congrArg some hcell))
        simp only [hcell, ne_eq, not_true_eq_false, ↓reduceIte]
        refine wp_write (wp_get hp₄ hread (hcdr d e) fun t₅ q₅ hle₅ hq₅ => ?_)
        have hrest := ih (w := { w with output := w.output ++ x.render ++ chars " " }) hq₅ hy hpy
          (by omega) (by omega)
        refine wp_mono hrest ?_
        rintro res m' ⟨rfl, t₆, hle₆, rfl⟩
        refine ⟨rfl, t₆, ((hle.trans hle₄).trans hle₅).trans hle₆, ?_⟩
        simp only [Sexp.renderTail, List.append_assoc]
      · have htail := Sexp.renderTail_atom hend fun heq => hcell (Option.some.inj (htype.trans heq))
        simp only [hcell, ne_eq, not_false_eq_true, ↓reduceIte]
        refine wp_write (wp_get hp₄ hread (hcdr d e) fun t₅ q₅ hle₅ hq₅ => ?_)
        have hrest := hcode t₅ { w with output := w.output ++ x.render ++ chars " . " } q₅ e y hq₅ hy
          hpy (by omega)
        refine wp_mono hrest ?_
        rintro res m' ⟨rfl, t₆, hle₆, rfl⟩
        refine ⟨rfl, t₆, ((hle.trans hle₄).trans hle₅).trans hle₆, ?_⟩
        simp only [htail, List.append_assoc]

/-- **`print`** writes what the expression is rendered as, and does nothing else. -/
theorem print_spec (hnil : b.read heap c.constNil = some .constNil) (hp : t.Has b c p a)
    (hshows : Shows c (b.read heap) a x) (hproper : x.proper) (hn : x.size ≤ n) :
    wp (handle b c) (print n p) (Writes b c heap frames t w x.render) ⟨heap, frames, t, w⟩ := by
  induction n generalizing t w p a x with
  | zero => exact absurd hn (Nat.not_le.mpr x.size_pos)
  | succ n ih =>
      rw [print]
      cases x with
      | cell x y =>
          obtain ⟨-, d, e, hread, -⟩ := id hshows
          refine wp_type hp hread ?_
          refine wp_write (wp_writes (printLoop_spec hnil ?_ hp hshows hproper hn hn) ?_)
          · intro t w p a x hp hshows hproper hx
            exact ih hp hshows hproper hx
          · intro t' hle
            refine ⟨rfl, t', hle, ?_⟩
            simp only [Sexp.render, ← List.append_assoc]
            rfl
      | int k => exact wp_type hp hshows.2 (wp_value hp hshows.2 ⟨rfl, t, .refl, rfl⟩)
      | symbol name => exact wp_type hp hshows.2 (wp_name hp hshows.2 ⟨rfl, t, .refl, rfl⟩)
      | nil =>
          obtain rfl : a = c.constNil := hshows
          exact wp_type hp hnil ⟨rfl, t, .refl, rfl⟩
      | dot => cases hproper
      | cparen => cases hproper
      | null => cases hproper

end print

end KernelPanic.Minilisp
