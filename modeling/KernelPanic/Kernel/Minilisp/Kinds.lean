import KernelPanic.Kernel.Minilisp.Typed

/-!
# KernelPanic.Kernel.Minilisp.Kinds

What the objects of the evaluator are for.

The address of an object is given a kind, once and for all (`Kinds`): the cells of data
are one kind, those of the list of bindings in an environment and the bindings
themselves two others, so that no assignment to a member of a cell that a program
names breaks an environment.  `Kinded` says that every object with a kind has the
members that its kind needs, and that these point to objects of the right kinds.
-/

namespace KernelPanic.Minilisp

open Machine Prog

/-- What an object is for. -/
inductive Kind
  | atom
  | cell
  | spine
  | bind
  | env
  deriving DecidableEq, Repr

/-- The kinds of the objects so far. -/
abbrev Kinds := ℕ → Option Kind

namespace Kinds

/-- A value of the evaluated program. -/
def Val (c : Statics) (T : Kinds) (a : ℕ) : Prop :=
  a = c.constNil ∨ a = c.constTrue ∨ T a = some .atom ∨ T a = some .cell

/-- A list of bindings. -/
def Vars (c : Statics) (T : Kinds) (a : ℕ) : Prop := a = c.constNil ∨ T a = some .spine

/-- An environment, or none. -/
def Scope (c : Statics) (T : Kinds) (a : ℕ) : Prop := a = c.constNil ∨ T a = some .env

/-- The object is what its kind says. -/
inductive Fits (c : Statics) (T : Kinds) : Kind → Payload → Prop
  | int {n : BitVec 32} : Fits c T .atom (.int n)
  | symbol {name : List UInt8} : Fits c T .atom (.symbol name)
  | primitive {k : ℕ} (hk : k < 22) : Fits c T .atom (.primitive k)
  | function {params body env : ℕ} (hparams : Val c T params) (hbody : T body = some .cell)
      (henv : T env = some .env) : Fits c T .atom (.function params body env)
  | macroFn {params body env : ℕ} (hparams : Val c T params) (hbody : T body = some .cell)
      (henv : T env = some .env) : Fits c T .atom (.macroFn params body env)
  | cell {p q : ℕ} (hp : Val c T p) (hq : Val c T q) : Fits c T .cell (.cell p q)
  | spine {p q : ℕ} (hp : T p = some .bind) (hq : Vars c T q) : Fits c T .spine (.cell p q)
  | bind {p q : ℕ} (hq : Val c T q) : Fits c T .bind (.cell p q)
  | env {vars up : ℕ} (hvars : Vars c T vars) (hup : Scope c T up) : Fits c T .env (.env vars up)

/-- Kinds are only given. -/
def Le (T T' : Kinds) : Prop := ∀ a k, T a = some k → T' a = some k

section le

variable {c : Statics} {T T' T'' : Kinds} {a : ℕ} {k : Kind} {payload : Payload}

theorem Le.refl : T.Le T := fun _ _ => id

/-- One evaluation after the other. -/
theorem Le.trans (h : T.Le T') (h' : T'.Le T'') : T.Le T'' := fun a k hk => h' a k (h a k hk)

/-- What has no kind had none. -/
theorem Le.none (h : T.Le T') (ha : T' a = none) : T a = none :=
  Option.eq_none_iff_forall_ne_some.mpr fun k hk => by simp [h a k hk] at ha

/-- A value stays a value. -/
theorem Val.mono (h : Val c T a) (hle : T.Le T') : Val c T' a :=
  h.imp id (Or.imp id (Or.imp (hle a _) (hle a _)))

/-- A list of bindings stays one. -/
theorem Vars.mono (h : Vars c T a) (hle : T.Le T') : Vars c T' a := h.imp id (hle a _)

/-- An environment stays an environment. -/
theorem Scope.mono (h : Scope c T a) (hle : T.Le T') : Scope c T' a := h.imp id (hle a _)

/-- An object is still what its kind says when others have got theirs. -/
theorem Fits.mono (h : Fits c T k payload) (hle : T.Le T') : Fits c T' k payload := by
  cases h with
  | int => exact .int
  | symbol => exact .symbol
  | primitive hk => exact .primitive hk
  | function hparams hbody henv => exact .function (hparams.mono hle) (hle _ _ hbody) (hle _ _ henv)
  | macroFn hparams hbody henv => exact .macroFn (hparams.mono hle) (hle _ _ hbody) (hle _ _ henv)
  | cell hp hq => exact .cell (hp.mono hle) (hq.mono hle)
  | spine hp hq => exact .spine (hle _ _ hp) (hq.mono hle)
  | bind hq => exact .bind (hq.mono hle)
  | env hvars hup => exact .env (hvars.mono hle) (hup.mono hle)

@[simp] theorem val_nil : Val c T c.constNil := .inl rfl

@[simp] theorem val_constTrue : Val c T c.constTrue := .inr (.inl rfl)

/-- An atom is a value. -/
theorem Val.atom (h : T a = some .atom) : Val c T a := .inr (.inr (.inl h))

/-- A cell of data is a value. -/
theorem Val.cell (h : T a = some .cell) : Val c T a := .inr (.inr (.inr h))

/-- The constants have no kind. -/
theorem not_isConst_of_fits (h : Fits c T k payload) : ¬ payload.IsConst := by
  cases h <;> simp [Payload.IsConst]

end le

/-- What there is at the address of a value. -/
inductive Shape (c : Statics) (T : Kinds) (a : ℕ) : Payload → Prop
  | nil (ha : a = c.constNil) : Shape c T a .constNil
  | constTrue (ha : a = c.constTrue) : Shape c T a .constTrue
  | atom {payload : Payload} (ha : T a = some .atom) (h : Fits c T .atom payload) :
      Shape c T a payload
  | cell {p q : ℕ} (ha : T a = some .cell) (hp : Val c T p) (hq : Val c T q) :
      Shape c T a (.cell p q)

section shape

variable {c : Statics} {T : Kinds} {a : ℕ} {payload : Payload}

/-- A value whose tag says cell is a cell of data. -/
theorem Shape.cell_of_type (h : Shape c T a payload) (htype : payload.type = tCell) :
    ∃ p q, payload = .cell p q ∧ T a = some .cell ∧ Val c T p ∧ Val c T q := by
  cases h with
  | cell ha hp hq => exact ⟨_, _, rfl, ha, hp, hq⟩
  | atom ha h => cases h <;> cases htype
  | _ => cases htype

/-- A value whose tag says number is one. -/
theorem Shape.int_of_type (h : Shape c T a payload) (htype : payload.type = tInt) :
    ∃ n, payload = .int n := by
  cases h with
  | atom ha h =>
      cases h with
      | int => exact ⟨_, rfl⟩
      | _ => cases htype
  | _ => cases htype

/-- A value whose tag says symbol is one. -/
theorem Shape.symbol_of_type (h : Shape c T a payload) (htype : payload.type = tSymbol) :
    ∃ name, payload = .symbol name ∧ T a = some .atom := by
  cases h with
  | atom ha h =>
      cases h with
      | symbol => exact ⟨_, rfl, ha⟩
      | _ => cases htype
  | _ => cases htype

/-- A value whose tag says primitive is one of `define_primitives`. -/
theorem Shape.primitive_of_type (h : Shape c T a payload) (htype : payload.type = tPrimitive) :
    ∃ k < 22, payload = .primitive k := by
  cases h with
  | atom ha h =>
      cases h with
      | primitive hk => exact ⟨_, hk, rfl⟩
      | _ => cases htype
  | _ => cases htype

/-- A value whose tag says function has a body and an environment. -/
theorem Shape.function_of_type (h : Shape c T a payload) (htype : payload.type = tFunction) :
    ∃ params body env, payload = .function params body env ∧ T a = some .atom ∧ Val c T params ∧
      T body = some .cell ∧ T env = some .env := by
  cases h with
  | atom ha h =>
      cases h with
      | function hparams hbody henv => exact ⟨_, _, _, rfl, ha, hparams, hbody, henv⟩
      | _ => cases htype
  | _ => cases htype

/-- A value whose tag says macro has a body and an environment. -/
theorem Shape.macro_of_type (h : Shape c T a payload) (htype : payload.type = tMacro) :
    ∃ params body env, payload = .macroFn params body env ∧ T a = some .atom ∧ Val c T params ∧
      T body = some .cell ∧ T env = some .env := by
  cases h with
  | atom ha h =>
      cases h with
      | macroFn hparams hbody henv => exact ⟨_, _, _, rfl, ha, hparams, hbody, henv⟩
      | _ => cases htype
  | _ => cases htype

end shape

end Kinds

open Kinds

/-! ## heaps -/

/-- A heap whose objects are of the kinds given. -/
structure Kinded (c : Statics) (T : Kinds) (tbl : List Entry) (h : Ideal) : Prop where
  table : SymbolTable c tbl h
  fits : ∀ a k, T a = some k → ∃ payload, h.read a = some payload ∧ Fits c T k payload
  cells : ∀ e ∈ tbl, T e.cell = none
  symbols : ∀ e ∈ tbl, T e.sym = some .atom

/-- What evaluation leaves as it is: atoms, and what follows a cell of data. -/
structure Evolves (T : Kinds) (h : Ideal) (T' : Kinds) (h' : Ideal) : Prop where
  kinds : T.Le T'
  atoms : ∀ a, T a = some .atom → h'.read a = h.read a
  cells : ∀ a p q, T a = some .cell → h.read a = some (.cell p q) →
    ∃ p', h'.read a = some (.cell p' q)
  next : h.next ≤ h'.next

section kinded

variable {c : Statics} {T T' T'' : Kinds} {tbl : List Entry} {h h' h'' : Ideal} {a p q : ℕ}
  {k : Kind} {payload : Payload}

theorem Evolves.refl : Evolves T h T h :=
  ⟨.refl, fun _ _ => rfl, fun _ p _ _ hread => ⟨p, hread⟩, le_rfl⟩

/-- One evaluation after the other. -/
theorem Evolves.trans (h₁ : Evolves T h T' h') (h₂ : Evolves T' h' T'' h'') :
    Evolves T h T'' h'' where
  kinds := h₁.kinds.trans h₂.kinds
  atoms := fun a ha => (h₂.atoms a (h₁.kinds a _ ha)).trans (h₁.atoms a ha)
  cells := fun a p q ha hread => by
    obtain ⟨p', hread'⟩ := h₁.cells a p q ha hread
    exact h₂.cells a p' q (h₁.kinds a _ ha) hread'
  next := h₁.next.trans h₂.next

namespace Kinded

/-- An object with a kind has been made. -/
theorem lt_next (hk : Kinded c T tbl h) (ha : T a = some k) : a < h.next := by
  obtain ⟨payload, hread, -⟩ := hk.fits a k ha
  exact hk.table.lt_next hread

/-- There is nothing at NULL. -/
theorem ne_null_of_read (hk : Kinded c T tbl h) (hread : h.read a = some payload) : a ≠ null := by
  rintro rfl
  rw [hk.table.null] at hread
  cases hread

/-- What has not been made has no kind. -/
theorem none_of_le (hk : Kinded c T tbl h) (ha : h.next ≤ a) : T a = none :=
  Option.eq_none_iff_forall_ne_some.mpr fun _ hsome => (hk.lt_next hsome).not_ge ha

/-- Where the kind says so there is a cell of data. -/
theorem cell (hk : Kinded c T tbl h) (ha : T a = some .cell) :
    ∃ p q, h.read a = some (.cell p q) ∧ Val c T p ∧ Val c T q := by
  obtain ⟨payload, hread, hfits⟩ := hk.fits a _ ha
  cases hfits with
  | cell hp hq => exact ⟨_, _, hread, hp, hq⟩

/-- Where the kind says so there is a cell of a list of bindings. -/
theorem spine (hk : Kinded c T tbl h) (ha : T a = some .spine) :
    ∃ p q, h.read a = some (.cell p q) ∧ T p = some .bind ∧ Vars c T q := by
  obtain ⟨payload, hread, hfits⟩ := hk.fits a _ ha
  cases hfits with
  | spine hp hq => exact ⟨_, _, hread, hp, hq⟩

/-- Where the kind says so there is a binding. -/
theorem bind (hk : Kinded c T tbl h) (ha : T a = some .bind) :
    ∃ p q, h.read a = some (.cell p q) ∧ Val c T q := by
  obtain ⟨payload, hread, hfits⟩ := hk.fits a _ ha
  cases hfits with
  | bind hq => exact ⟨_, _, hread, hq⟩

/-- Where the kind says so there is an environment. -/
theorem env (hk : Kinded c T tbl h) (ha : T a = some .env) :
    ∃ vars up, h.read a = some (.env vars up) ∧ Vars c T vars ∧ Scope c T up := by
  obtain ⟨payload, hread, hfits⟩ := hk.fits a _ ha
  cases hfits with
  | env hvars hup => exact ⟨_, _, hread, hvars, hup⟩

theorem read_constTrue (hk : Kinded c T tbl h) : h.read c.constTrue = some .constTrue :=
  hk.table.constant c.constTrue ⟨0, .constTrue⟩ (by simp [Statics.objects])

/-- A value is there, and looks like one. -/
theorem shape (hk : Kinded c T tbl h) (ha : Val c T a) :
    ∃ payload, h.read a = some payload ∧ Shape c T a payload := by
  rcases ha with rfl | rfl | ha | ha
  · exact ⟨_, hk.table.read_nil, .nil rfl⟩
  · exact ⟨_, hk.read_constTrue, .constTrue rfl⟩
  · obtain ⟨payload, hread, hfits⟩ := hk.fits a _ ha
    exact ⟨payload, hread, .atom ha hfits⟩
  · obtain ⟨p, q, hread, hp, hq⟩ := hk.cell ha
    exact ⟨_, hread, .cell ha hp hq⟩

/-- A value that is found to be a cell is a cell of data. -/
theorem cell_of_read (hk : Kinded c T tbl h) (ha : Val c T a) (hread : h.read a = some (.cell p q)) :
    T a = some .cell ∧ Val c T p ∧ Val c T q := by
  obtain ⟨payload, hread', hshape⟩ := hk.shape ha
  rw [hread, Option.some.injEq] at hread'
  obtain ⟨p', q', heq, hT, hp, hq⟩ := hshape.cell_of_type (hread' ▸ rfl)
  cases hread'.trans heq
  exact ⟨hT, hp, hq⟩

/-- What is a cell of data now was one, with the same rest. -/
theorem cell_before (hk : Kinded c T tbl h) (hk' : Kinded c T' tbl h') (hev : Evolves T h T' h')
    (ha : Val c T a) (hread : h'.read a = some (.cell p q)) : ∃ p', h.read a = some (.cell p' q) := by
  rcases ha with rfl | rfl | ha | ha
  · cases hk'.table.read_nil.symm.trans hread
  · cases hk'.read_constTrue.symm.trans hread
  · exact ⟨p, (hev.atoms a ha).symm.trans hread⟩
  · obtain ⟨p', q', hread', -⟩ := hk.cell ha
    obtain ⟨p'', hread''⟩ := hev.cells a p' q' ha hread'
    cases hread.symm.trans hread''
    exact ⟨p', hread'⟩

/-- The empty list has no kind. -/
theorem ne_nil (hk : Kinded c T tbl h) (ha : T a = some k) : a ≠ c.constNil := by
  rintro rfl
  obtain ⟨payload, hread, hfits⟩ := hk.fits _ _ ha
  rw [hk.table.read_nil, Option.some.injEq] at hread
  exact not_isConst_of_fits hfits (hread ▸ by simp [Payload.IsConst])

/-- NULL has no kind. -/
theorem ne_null (hk : Kinded c T tbl h) (ha : T a = some k) : a ≠ null := by
  rintro rfl
  obtain ⟨payload, hread, -⟩ := hk.fits _ _ ha
  rw [hk.table.null] at hread
  cases hread

/-- An object is made and given a kind. -/
theorem place (hk : Kinded c T tbl h) (hfits : Fits c T k payload) :
    Kinded c (Function.update T h.next (some k)) tbl (h.place payload) ∧
      Evolves T h (Function.update T h.next (some k)) (h.place payload) := by
  have hne : ∀ {a k'}, T a = some k' → a ≠ h.next := fun ha => (hk.lt_next ha).ne
  have hle : T.Le (Function.update T h.next (some k)) := fun a k' ha =>
    (Function.update_of_ne (hne ha) ..).trans ha
  have hsame : ∀ {a k'}, T a = some k' → (h.place payload).read a = h.read a := fun ha =>
    Function.update_of_ne (hne ha) ..
  refine ⟨⟨hk.table.alloc payload, fun a k' ha => ?_, fun e he => ?_, fun e he => ?_⟩, hle,
    fun a ha => hsame ha, fun a p q ha hread => ⟨p, (hsame ha).trans hread⟩, Nat.le_succ _⟩
  · by_cases heq : a = h.next
    · rw [heq, Function.update_self] at ha
      cases ha
      exact ⟨payload, by simp [Ideal.place, heq], hfits.mono hle⟩
    · rw [Function.update_of_ne heq] at ha
      obtain ⟨payload', hread, hfits'⟩ := hk.fits a k' ha
      exact ⟨payload', (hsame ha).trans hread, hfits'.mono hle⟩
  · obtain ⟨q, hcell⟩ := (hk.table.listed.entry he).2
    rw [Function.update_of_ne (hk.table.lt_next hcell).ne]
    exact hk.cells e he
  · exact hle _ _ (hk.symbols e he)

/-- A member of an object is assigned. -/
theorem write (hk : Kinded c T tbl h) (ha : T a = some k) (hatom : k ≠ .atom)
    (hfits : Fits c T k payload) :
    Kinded c T tbl { h with read := Function.update h.read a (some payload) } := by
  obtain ⟨payload', hread, hfits'⟩ := hk.fits a k ha
  refine ⟨hk.table.update hread (not_isConst_of_fits hfits') ?_ fun e he heq => ?_, fun a' k' ha' => ?_,
    hk.cells, hk.symbols⟩
  · rintro name rfl
    cases hfits'
    exact hatom rfl
  · rw [← heq, hk.cells e he] at ha
    cases ha
  · by_cases heq : a' = a
    · subst heq
      cases ha.symm.trans ha'
      exact ⟨payload, Function.update_self .., hfits⟩
    · obtain ⟨payload'', hread'', hfits''⟩ := hk.fits a' k' ha'
      exact ⟨payload'', (Function.update_of_ne heq ..).trans hread'', hfits''⟩

end Kinded

/-- An assignment is seen as far as the object is known. -/
theorem Evolves.write (hev : Evolves T h T' h') (ha : T' a = some k)
    (hatom : k ≠ .atom)
    (hcell : T a = some .cell → ∀ p q, h'.read a = some (.cell p q) → ∃ p', payload = .cell p' q) :
    Evolves T h T' { h' with read := Function.update h'.read a (some payload) } := by
  have hsame : ∀ b, b ≠ a → Function.update h'.read a (some payload) b = h'.read b :=
    fun b hb => Function.update_of_ne hb ..
  refine ⟨hev.kinds, fun b hb => ?_, fun b p q hb hread => ?_, hev.next⟩
  · refine (hsame b ?_).trans (hev.atoms b hb)
    rintro rfl
    cases (hev.kinds b _ hb).symm.trans ha
    exact hatom rfl
  · obtain ⟨p', hread'⟩ := hev.cells b p q hb hread
    by_cases heq : b = a
    · subst heq
      obtain ⟨p'', rfl⟩ := hcell hb p' q hread'
      exact ⟨p'', Function.update_self ..⟩
    · exact ⟨p', (hsame b heq).trans hread'⟩

end kinded

/-! ## lists of values -/

/-- The cells of a list, the first one at `a`. -/
def Row (c : Statics) (T : Kinds) (rd : ℕ → Option Payload) : List ℕ → ℕ → Prop
  | [], a => a = c.constNil
  | x :: xs, a => a = x ∧ T a = some .cell ∧ ∃ p q, rd a = some (.cell p q) ∧ Row c T rd xs q

section row

variable {c : Statics} {T T' : Kinds} {tbl : List Entry} {h h' : Ideal} {xs : List ℕ} {a x : ℕ}

/-- A list of values stays one, with the same cells. -/
theorem Row.mono (hrow : Row c T h.read xs a) (hev : Evolves T h T' h') :
    Row c T' h'.read xs a := by
  induction xs generalizing a with
  | nil => exact hrow
  | cons x xs ih =>
      obtain ⟨rfl, hT, p, q, hread, hrest⟩ := hrow
      obtain ⟨p', hread'⟩ := hev.cells a p q hT hread
      exact ⟨rfl, hev.kinds _ _ hT, p', q, hread', ih hrest⟩

/-- A list is a value. -/
theorem Row.val (hrow : Row c T h.read xs a) : Val c T a := by
  cases xs with
  | nil => exact hrow ▸ val_nil
  | cons x xs => exact .cell hrow.2.1

/-- All its cells are cells of data. -/
theorem Row.kind (hrow : Row c T h.read xs a) : ∀ x ∈ xs, T x = some .cell := by
  induction xs generalizing a with
  | nil => simp
  | cons x xs ih =>
      obtain ⟨rfl, hT, p, q, -, hrest⟩ := hrow
      exact List.forall_mem_cons.mpr ⟨hT, ih hrest⟩

/-- A list depends on its cells alone. -/
theorem Row.congr {rd rd' : ℕ → Option Payload} (hrow : Row c T rd xs a)
    (hrd : ∀ x ∈ xs, rd' x = rd x) : Row c T rd' xs a := by
  induction xs generalizing a with
  | nil => exact hrow
  | cons x xs ih =>
      obtain ⟨rfl, hT, p, q, hread, hrest⟩ := hrow
      obtain ⟨hsame, hrd⟩ := List.forall_mem_cons.mp hrd
      exact ⟨rfl, hT, p, q, hsame.trans hread, ih hrest hrd⟩

/-- A list ends where it ends. -/
theorem Row.unique (hk : Kinded c T tbl h) {ys : List ℕ} (hx : Row c T h.read xs a)
    (hy : Row c T h.read ys a) : xs = ys := by
  induction xs generalizing a ys with
  | nil =>
      cases ys with
      | nil => rfl
      | cons y ys => exact absurd hx (hk.ne_nil hy.2.1)
  | cons x xs ih =>
      obtain ⟨rfl, hT, p, q, hread, hrest⟩ := hx
      cases ys with
      | nil => exact absurd hy (hk.ne_nil hT)
      | cons y ys =>
          obtain ⟨rfl, -, p', q', hread', hrest'⟩ := hy
          cases hread.symm.trans hread'
          rw [ih hrest hrest']

/-- The rest of a list, from one of its cells on. -/
theorem Row.suffix (hrow : Row c T h.read xs a) (hx : x ∈ xs) :
    ∃ zs, x :: zs <:+ xs ∧ Row c T h.read (x :: zs) x := by
  induction xs generalizing a with
  | nil => cases hx
  | cons y ys ih =>
      have hrow' := hrow
      obtain ⟨rfl, hT, p, q, hread, hrest⟩ := hrow
      rcases List.mem_cons.mp hx with rfl | hx
      · exact ⟨ys, List.suffix_refl _, hrow'⟩
      · obtain ⟨zs, hsuffix, hzs⟩ := ih hrest hx
        exact ⟨zs, hsuffix.trans (List.suffix_cons ..), hzs⟩

/-- No cell occurs in a list twice. -/
theorem Row.nodup (hk : Kinded c T tbl h) (hrow : Row c T h.read xs a) : xs.Nodup := by
  induction xs generalizing a with
  | nil => exact List.nodup_nil
  | cons x xs ih =>
      have hrow' := hrow
      obtain ⟨rfl, hT, p, q, hread, hrest⟩ := hrow
      refine List.nodup_cons.mpr ⟨fun hmem => ?_, ih hrest⟩
      obtain ⟨zs, hsuffix, hzs⟩ := hrest.suffix hmem
      have hlength := hsuffix.length_le
      rw [hzs.unique hk hrow'] at hlength
      exact absurd hlength (Nat.not_succ_le_self _)

/-- A proper list of values. -/
theorem Proper.row (hproper : Proper c h.read a) (hk : Kinded c T tbl h) (ha : Val c T a) :
    ∃ xs, Row c T h.read xs a := by
  induction hproper with
  | nil => exact ⟨[], rfl⟩
  | cell hnull hread _ ih =>
      obtain ⟨hT, -, hq⟩ := hk.cell_of_read ha hread
      obtain ⟨xs, hxs⟩ := ih hq
      exact ⟨_ :: xs, rfl, hT, _, _, hread, hxs⟩

end row

/-! ## new symbols and new data -/

/-- The kinds of the objects before `lo`, of the symbols, and of new data. -/
def extend (T : Kinds) (lo : ℕ) (tbl : List Entry) (K : Kinds) : Kinds := fun a =>
  if ∃ e ∈ tbl, e.sym = a then some .atom else if a < lo then T a else K a

section extend

variable {c : Statics} {tbl tbl' : List Entry} {T K : Kinds} {heap heap' : Ideal} {a lo : ℕ} {k : Kind}

/-- A symbol is an atom. -/
theorem extend_sym {e : Entry} (he : e ∈ tbl) : extend T lo tbl K e.sym = some .atom :=
  if_pos ⟨e, he, rfl⟩

/-- The kinds given before stay. -/
theorem extend_le (hk : Kinded c T tbl heap) (hgrows : Grows c heap.next tbl heap tbl' heap') :
    T.Le (extend T heap.next tbl' K) := by
  intro a k ha
  have hlt := hk.lt_next ha
  rw [extend]
  split
  · next hsym =>
    obtain ⟨e, he, rfl⟩ := hsym
    obtain ⟨payload, hread, hfits⟩ := hk.fits _ _ ha
    rw [← hgrows.old _ hlt, (hgrows.table.listed.entry he).1, Option.some.injEq] at hread
    subst hread
    cases hfits
    rfl
  · exact ha

/-- Something is read: there may be new symbols and new data. -/
theorem Kinded.grow (hk : Kinded c T tbl heap) (hgrows : Grows c heap.next tbl heap tbl' heap')
    (hK : ∀ a k, K a = some k →
      ∃ payload, heap'.read a = some payload ∧ Fits c (extend T heap.next tbl' K) k payload)
    (hcells : ∀ e ∈ tbl', K e.cell = none) :
    Kinded c (extend T heap.next tbl' K) tbl' heap' ∧
      Evolves T heap (extend T heap.next tbl' K) heap' := by
  have hle : T.Le (extend T heap.next tbl' K) := extend_le hk hgrows
  refine ⟨⟨hgrows.table, fun a k ha => ?_, fun e he => ?_, fun e he => extend_sym he⟩, hle,
    fun a ha => hgrows.old a (hk.lt_next ha), fun a p q ha hread => ?_, hgrows.next⟩
  · rw [extend] at ha
    split at ha
    · next hsym =>
      obtain ⟨e, he, rfl⟩ := hsym
      cases ha
      exact ⟨_, (hgrows.table.listed.entry he).1, .symbol⟩
    split at ha
    · next hlt =>
      obtain ⟨payload, hread, hfits⟩ := hk.fits a k ha
      exact ⟨payload, (hgrows.old a hlt).trans hread, hfits.mono hle⟩
    · exact hK a k ha
  · obtain ⟨-, q, hcell⟩ := hgrows.table.listed.entry he
    have hsym : ¬ ∃ d ∈ tbl', d.sym = e.cell := by
      rintro ⟨d, hd, heq⟩
      have hread := (hgrows.table.listed.entry hd).1
      rw [heq, hcell] at hread
      cases hread
    rw [extend, if_neg hsym]
    split
    · next hlt =>
      exact hk.cells e ((hgrows.cells e he).resolve_right hlt.not_ge)
    · exact hcells e he
  · exact ⟨p, (hgrows.old a (hk.lt_next ha)).trans hread⟩

end extend

end KernelPanic.Minilisp
