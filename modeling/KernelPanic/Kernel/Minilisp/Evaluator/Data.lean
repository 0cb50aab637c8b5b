import KernelPanic.Kernel.Minilisp.Kinds
import KernelPanic.Kernel.Minilisp.Markers

/-!
# KernelPanic.Kernel.Minilisp.Evaluator.Data

The kinds of what the parser returns.

Its cells are new, and apart from those of the table of symbols: from a cell of the
table one would come to the old ones, which are not new.
-/

namespace KernelPanic.Minilisp

open Kinds

/-- The expression at `b` is a part of the one at `a`. -/
inductive Within (rd : ℕ → Option Payload) (a : ℕ) (x : Sexp) : ℕ → Sexp → Prop
  | root : Within rd a x a x
  | car {b p q : ℕ} {u v : Sexp} (h : Within rd a x b (.cell u v))
      (hread : rd b = some (.cell p q)) : Within rd a x p u
  | cdr {b p q : ℕ} {u v : Sexp} (h : Within rd a x b (.cell u v))
      (hread : rd b = some (.cell p q)) : Within rd a x q v

open Classical in
/-- The kinds of the objects that an expression consists of. -/
noncomputable def dataKinds (rd : ℕ → Option Payload) (a : ℕ) (x : Sexp) : Kinds := fun b =>
  if ∃ u v, Within rd a x b (.cell u v) then some .cell
  else if ∃ n, Within rd a x b (.int n) then some .atom
  else none

section data

variable {c : Statics} {tbl tbl' : List Entry} {T : Kinds} {heap heap' : Ideal} {lo hi a b p : ℕ}
  {x u v : Sexp} {rd rd' : ℕ → Option Payload} {e : Entry}

theorem Within.rep (h : Within rd a x b u) (hrep : Rep c tbl rd lo hi a x) :
    Rep c tbl rd lo hi b u := by
  induction h with
  | root => exact hrep
  | car h hread ih =>
      obtain ⟨-, -, p', q', hread', hu, -⟩ := ih
      cases hread.symm.trans hread'
      exact hu
  | cdr h hread ih =>
      obtain ⟨-, -, p', q', hread', -, hv⟩ := ih
      cases hread.symm.trans hread'
      exact hv

theorem Within.proper (h : Within rd a x b u) (hx : x.proper) : u.proper := by
  induction h with
  | root => exact hx
  | car h hread ih =>
      rw [Sexp.proper, Bool.and_eq_true] at ih
      exact ih.1
  | cdr h hread ih =>
      rw [Sexp.proper, Bool.and_eq_true] at ih
      exact ih.2

/-! ## the table of symbols -/

/-- From an entry on, the table is a part of the data if its cell is. -/
theorem Listed.within {es : List Entry} (hlisted : Listed heap'.read c.constNil es p)
    (hwithin : Within heap'.read a x p u) (hrep : Rep c tbl' heap'.read lo hi a x)
    (htbl : SymbolTable c tbl' heap') : ∀ d ∈ es, lo ≤ d.cell := by
  induction es generalizing p u with
  | nil => simp
  | cons e es ih =>
      obtain ⟨rfl, -, q, hread, hrest⟩ := hlisted
      have hrep' := hwithin.rep hrep
      have htype := hrep'.type htbl
      cases u with
      | cell y z => exact List.forall_mem_cons.mpr ⟨hrep'.1, ih hrest (hwithin.cdr hread)⟩
      | _ =>
          rw [hread] at htype
          cases htype

/-- What follows a cell of the table. -/
theorem Listed.next (hlisted : Listed rd c.constNil tbl p) (he : e ∈ tbl) :
    ∃ q, rd e.cell = some (.cell e.sym q) ∧ (q = c.constNil ∨ ∃ d ∈ tbl, d.cell = q) := by
  induction tbl generalizing p with
  | nil => cases he
  | cons d tbl ih =>
      obtain ⟨rfl, -, q, hread, hrest⟩ := hlisted
      rcases List.mem_cons.mp he with rfl | he
      · refine ⟨q, hread, ?_⟩
        cases tbl with
        | nil => exact .inl hrest
        | cons d tbl => exact .inr ⟨d, by simp, hrest.1.symm⟩
      · obtain ⟨q', hread', hq'⟩ := ih hrest he
        exact ⟨q', hread', hq'.imp id fun ⟨d, hd, h⟩ => ⟨d, List.mem_cons_of_mem _ hd, h⟩⟩

/-- The end of a table. -/
theorem Listed.append {es fs : List Entry} (hlisted : Listed rd c.constNil (es ++ fs) p) :
    ∃ q, Listed rd c.constNil fs q := by
  induction es generalizing p with
  | nil => exact ⟨p, hlisted⟩
  | cons e es ih =>
      obtain ⟨-, -, q, -, hrest⟩ := hlisted
      exact ih hrest

/-- From an old cell on, the table is old. -/
theorem Listed.old {es : List Entry} (hlisted : Listed heap'.read c.constNil es p)
    (hp : p = c.constNil ∨ ∃ d ∈ tbl, d.cell = p) (htbl : SymbolTable c tbl heap)
    (hgrows : Grows c heap.next tbl heap tbl' heap') : ∀ d ∈ es, d.cell < heap.next := by
  induction es generalizing p with
  | nil => simp
  | cons e es ih =>
      obtain ⟨rfl, -, q, hread, hrest⟩ := hlisted
      rcases hp with hnil | ⟨d, hd, heq⟩
      · rw [hnil, hgrows.table.read_nil] at hread
        cases hread
      · obtain ⟨q', hread', hq'⟩ := htbl.listed.next hd
        have hlt := htbl.lt_next hread'
        rw [heq] at hread' hlt
        rw [hgrows.old _ hlt, hread', Option.some.injEq, Payload.cell.injEq] at hread
        obtain ⟨-, rfl⟩ := hread
        exact List.forall_mem_cons.mpr ⟨hlt, ih hrest hq'⟩

/-- **The table is no part of the data.** -/
theorem Rep.apart (hrep : Rep c tbl' heap'.read heap.next hi a x) (hne : tbl ≠ [])
    (htbl : SymbolTable c tbl heap) (hgrows : Grows c heap.next tbl heap tbl' heap') (he : e ∈ tbl') :
    ¬ Within heap'.read a x e.cell u := by
  intro hwithin
  obtain ⟨d, hd⟩ := List.exists_mem_of_ne_nil tbl hne
  obtain ⟨q, hread, -⟩ := htbl.listed.next hd
  have hlt := htbl.lt_next hread
  obtain ⟨es, fs, heq⟩ := List.append_of_mem he
  have hlisted := hgrows.table.listed
  rw [heq] at hlisted
  obtain ⟨q₁, hfs⟩ := hlisted.append
  obtain rfl : q₁ = e.cell := hfs.1
  have hnew := hfs.within hwithin hrep hgrows.table
  have hd' := hgrows.sub hd
  rw [heq, List.mem_append] at hd'
  rcases hd' with hd' | hd'
  · obtain ⟨es₁, es₂, rfl⟩ := List.append_of_mem hd'
    rw [List.append_assoc, List.cons_append] at hlisted
    obtain ⟨q₂, hold⟩ := hlisted.append
    obtain rfl : q₂ = d.cell := hold.1
    have hlt' := hold.old (.inr ⟨d, hd, rfl⟩) htbl hgrows e (by simp)
    exact hlt'.not_ge (hnew e List.mem_cons_self)
  · exact hlt.not_ge (hnew d hd')

/-! ## kinds -/

/-- A part of an expression without markers is a value. -/
theorem Within.val (h : Within heap'.read a x b u) (hx : x.proper)
    (hrep : Rep c tbl' heap'.read heap.next hi a x) (htbl : SymbolTable c tbl' heap') :
    Val c (extend T heap.next tbl' (dataKinds heap'.read a x)) b := by
  have hu := h.rep hrep
  have hproper := h.proper hx
  have hfresh : heap.next ≤ b → (∀ name, heap'.read b ≠ some (.symbol name)) →
      extend T heap.next tbl' (dataKinds heap'.read a x) b = dataKinds heap'.read a x b := by
    intro hle hsym
    rw [extend, if_neg, if_neg hle.not_gt]
    rintro ⟨e, he, rfl⟩
    exact hsym _ (htbl.listed.entry he).1
  cases u with
  | int n =>
      refine .atom ((hfresh hu.2.1 ?_).trans ?_)
      · simp [hu.1]
      · rw [dataKinds, if_neg, if_pos ⟨n, h⟩]
        rintro ⟨y, z, hcell⟩
        obtain ⟨-, -, p, q, hread, -⟩ := hcell.rep hrep
        cases hu.1.symm.trans hread
  | symbol name =>
      obtain ⟨e, he, -, rfl⟩ := hu
      exact .atom (extend_sym he)
  | nil => exact .inl hu
  | cell y z =>
      obtain ⟨hle, -, p, q, hread, -⟩ := hu
      refine .cell ((hfresh hle ?_).trans (if_pos ⟨y, z, h⟩))
      simp [hread]
  | _ => cases hproper

/-- **What has been read has kinds.** -/
theorem Rep.kinded (hrep : Rep c tbl' heap'.read heap.next hi a x) (hx : x.proper)
    (hk : Kinded c T tbl heap) (hne : tbl ≠ []) (hgrows : Grows c heap.next tbl heap tbl' heap') :
    ∃ T', Kinded c T' tbl' heap' ∧ Evolves T heap T' heap' ∧ Val c T' a := by
  refine ⟨_, and_assoc.mp ⟨hk.grow hgrows (K := dataKinds heap'.read a x) ?_ fun e he => ?_,
    Within.root.val hx hrep hgrows.table⟩⟩
  · intro b k hb
    rw [dataKinds] at hb
    split at hb
    · next hcell =>
      obtain ⟨u, v, h⟩ := hcell
      obtain ⟨-, -, p, q, hread, -⟩ := h.rep hrep
      cases hb
      exact ⟨_, hread, .cell ((h.car hread).val hx hrep hgrows.table)
        ((h.cdr hread).val hx hrep hgrows.table)⟩
    split at hb
    · next hint =>
      obtain ⟨n, h⟩ := hint
      cases hb
      exact ⟨_, (h.rep hrep).1, .int⟩
    · cases hb
  · rw [dataKinds, if_neg, if_neg]
    · rintro ⟨n, h⟩
      exact hrep.apart hne hk.table hgrows he h
    · rintro ⟨u, v, h⟩
      exact hrep.apart hne hk.table hgrows he h

end data

end KernelPanic.Minilisp
