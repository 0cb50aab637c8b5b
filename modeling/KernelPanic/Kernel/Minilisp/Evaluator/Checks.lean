import KernelPanic.Kernel.Minilisp.Safe

/-!
# KernelPanic.Kernel.Minilisp.Evaluator.Checks

What the evaluator checks of a call.

A call is well formed (`Call.WellFormed`) if its argument list is proper, has as many
elements as are taken, and what is taken as it stands has the right type.  A primitive that
evaluates its arguments looks at their number and types when it has the values (`Check`).

A call that returns is well formed, if it is not one of those whose form the code does
not test (`Call.Tested`), and so are the values that a check passes.
-/

namespace KernelPanic.Minilisp

open Machine Prog

/-! ## lists -/

section lists

variable (c : Statics) (rd : ℕ → Option Payload)

/-- The list has the elements, and ends in the empty list. -/
inductive Elements : List ℕ → ℕ → Prop
  | nil : Elements [] c.constNil
  | cons {a x p : ℕ} {xs : List ℕ} (hread : rd a = some (.cell x p)) (h : Elements xs p) :
      Elements (x :: xs) a

/-- There is a cell at the address. -/
def IsCell (a : ℕ) : Prop := ∃ p q, rd a = some (.cell p q)

/-- There is a symbol at the address. -/
def IsSymbol (a : ℕ) : Prop := ∃ name, rd a = some (.symbol name)

/-- There is a number at the address. -/
def IsInt (a : ℕ) : Prop := ∃ n, rd a = some (.int n)

/-- Symbols, and perhaps one for the rest of the arguments. -/
inductive Params : ℕ → Prop
  | nil : Params c.constNil
  | rest {a : ℕ} (hsymbol : IsSymbol rd a) : Params a
  | cell {a x p : ℕ} (hread : rd a = some (.cell x p)) (hsymbol : IsSymbol rd x) (h : Params p) :
      Params a

/-- There is an argument for each parameter, and none is left over, unless there is a
parameter for the rest. -/
inductive Matches : ℕ → ℕ → Prop
  | nil : Matches c.constNil c.constNil
  | rest {params args : ℕ} {payload : Payload} (hread : rd params = some payload)
      (hrest : payload.type ≠ tCell) (hne : params ≠ c.constNil) (hproper : Proper c rd args) :
      Matches params args
  | cell {params args x p y q : ℕ} (hparams : rd params = some (.cell x p))
      (hargs : rd args = some (.cell y q)) (h : Matches p q) : Matches params args

end lists

/-! ## calls -/

namespace Call

section form

variable (c : Statics) (rd : ℕ → Option Payload)

/-- What a primitive takes as it stands, by its place in `define_primitives`.  The others
count their arguments when they have been evaluated. -/
def Form (xs : List ℕ) : ℕ → Prop
  | 0 | 14 | 19 | 20 | 21 => xs.length = 1
  | 1 | 17 | 18 => xs.length = 2
  | 4 | 11 => ∃ x y, xs = [x, y] ∧ IsSymbol rd x
  | 6 | 16 => 2 ≤ xs.length
  | 7 => xs = []
  | 12 | 13 => ∃ name params e es, xs = name :: params :: e :: es ∧ IsSymbol rd name ∧
      IsList c rd params ∧ Params c rd params
  | 15 => ∃ params e es, xs = params :: e :: es ∧ IsList c rd params ∧ Params c rd params
  | _ => True

/-- What `handle_function` tests. -/
def HandleFunction (a : ℕ) : Prop :=
  ∃ params body, rd a = some (.cell params body) ∧ IsList c rd params ∧ Params c rd params ∧
    IsCell rd body

/-- What `handle_defun` tests. -/
def HandleDefun (a : ℕ) : Prop :=
  ∃ name rest, rd a = some (.cell name rest) ∧ IsSymbol rd name ∧ HandleFunction c rd rest

/-- What a primitive does not test of its form, if its tests are passed. -/
def Untested (a : ℕ) : ℕ → Prop
  | 7 => a = c.constNil
  | 19 | 21 => ∃ x, Elements c rd [x] a
  | 12 | 13 => HandleDefun c rd a → Proper c rd a
  | 15 => HandleFunction c rd a → Proper c rd a
  | _ => True

end form

variable {H : Type} (b : Backend H) (c : Statics)

/-- The call is made with arguments as they are taken. -/
def WellFormed (call : Call) (m : Machine H) : Prop :=
  let read := b.read m.heap
  match call with
  | .apply _ _ _ fn args => ∀ f a, At c m.frames fn f → At c m.frames args a →
      ∃ xs, Elements c read xs a ∧ ∀ k, read f = some (.primitive k) → Form c read xs k
  | .applyFunc _ _ fn args => ∀ f a, At c m.frames fn f → At c m.frames args a →
      ∀ params body env, read f = some (.function params body env) ∨
        read f = some (.macroFn params body env) → Matches c read params a

/-- The call is none of those whose form is not tested: `gensym` is called without an
argument, `println` and `sleep` with one; what passes the tests of `lambda`, `defun` and
`defmacro` is a proper list; where `push_env` finds an argument for each parameter, none is
left over, or there is a parameter for the rest and the list is proper. -/
def Tested (call : Call) (m : Machine H) : Prop :=
  let read := b.read m.heap
  match call with
  | .apply _ _ _ fn args => ∀ f a, At c m.frames fn f → At c m.frames args a → IsList c read a →
      ∀ k, read f = some (.primitive k) → Untested c read a k
  | .applyFunc _ _ fn args => ∀ f a, At c m.frames fn f → At c m.frames args a →
      ∀ params body env, read f = some (.function params body env) ∨
        read f = some (.macroFn params body env) → Binds read params a → Matches c read params a

end Call

/-- Where a primitive looks at the values of its arguments. -/
inductive Check
  | fieldOf (f : Field) (message : String) (args : Ptr)
  | setcarOf (limit : ℕ) (args : Ref)
  | sumOf (limit : ℕ) (args : Ptr)
  | differenceOf (limit : ℕ) (args : Ptr)
  | lessThan (limit : ℕ) (args : Ptr)
  | numEq (args : Ptr)
  | sleepFor (slot : Ref)

namespace Check

/-- The code of the primitive from there on. -/
def code : Check → Code Ptr
  | .fieldOf f message args => Evaluator.fieldOf f message args
  | .setcarOf limit args => Evaluator.setcarOf limit args
  | .sumOf limit args => Evaluator.sumOf limit args
  | .differenceOf limit args => Evaluator.differenceOf limit args
  | .lessThan limit args => Evaluator.lessThan limit args
  | .numEq args => Evaluator.compareInts (· == ·) "= only takes numbers" args
  | .sleepFor slot => Evaluator.sleepFor slot

/-- The values are as many as the primitive takes, and of the right types.  Those of `=`
have been counted before they were evaluated. -/
def WellTyped {H : Type} (b : Backend H) (c : Statics) (check : Check) (m : Machine H) : Prop :=
  let read := b.read m.heap
  let value := deref c (b.symbols m.heap) m.frames
  match check with
  | .fieldOf _ _ args => ∃ v x, m.address b c args = .ok v ∧ Elements c read [x] v ∧ IsCell read x
  | .setcarOf _ args => ∃ x y, Elements c read [x, y] (value args) ∧ IsCell read x
  | .sumOf _ args => ∃ v xs, m.address b c args = .ok v ∧ Elements c read xs v ∧
      ∀ x ∈ xs, IsInt read x
  | .differenceOf _ args => ∃ v x xs, m.address b c args = .ok v ∧ Elements c read (x :: xs) v ∧
      ∀ y ∈ x :: xs, IsInt read y
  | .lessThan _ args => ∃ v x y, m.address b c args = .ok v ∧ Elements c read [x, y] v ∧
      IsInt read x ∧ IsInt read y
  | .numEq args => ∃ v x p y q, m.address b c args = .ok v ∧ read v = some (.cell x p) ∧
      read p = some (.cell y q) ∧ IsInt read x ∧ IsInt read y
  | .sleepFor slot => IsInt read (value slot)

end Check

/-! ## what an operation shows, if it returns -/

section payload

variable {payload : Payload} {a : ℕ}

/-- The tag says what the object is. -/
theorem Payload.cell_of_type (h : payload.type = tCell) : ∃ p q, payload = .cell p q := by
  cases payload <;> first | exact ⟨_, _, rfl⟩ | cases h

theorem Payload.symbol_of_type (h : payload.type = tSymbol) : ∃ name, payload = .symbol name := by
  cases payload <;> first | exact ⟨_, rfl⟩ | cases h

theorem Payload.int_of_type (h : payload.type = tInt) : ∃ n, payload = .int n := by
  cases payload <;> first | exact ⟨_, rfl⟩ | cases h

theorem Payload.primitive_of_type (h : payload.type = tPrimitive) : ∃ k, payload = .primitive k := by
  cases payload <;> first | exact ⟨_, rfl⟩ | cases h

theorem Payload.function_of_type (h : payload.type = tFunction) :
    ∃ params body env, payload = .function params body env := by
  cases payload <;> first | exact ⟨_, _, _, rfl⟩ | cases h

/-- Only a cell has a `car`. -/
theorem Payload.cell_of_car (h : payload.field .car = some a) : ∃ q, payload = .cell a q := by
  cases payload <;> simp_all [Payload.field]

/-- Only a cell has a `cdr`. -/
theorem Payload.cell_of_cdr (h : payload.field .cdr = some a) : ∃ p, payload = .cell p a := by
  cases payload <;> simp_all [Payload.field]

end payload

theorem Payload.type_erase {payload : Payload} : payload.erase.type = payload.type := by
  cases payload <;> rfl

/-- A proper list has elements. -/
theorem Proper.elements {c : Statics} {rd : ℕ → Option Payload} {a : ℕ} (h : Proper c rd a) :
    ∃ xs, Elements c rd xs a := by
  induction h with
  | nil => exact ⟨[], .nil⟩
  | cell _ hread _ ih =>
      obtain ⟨xs, hxs⟩ := ih
      exact ⟨_ :: xs, .cons hread hxs⟩

section rules

variable {H : Type} {b : Backend H} {c : Statics} {heap : H} {frames : Frames} {t : Handles}
  {w : World} {a a' : ℕ} {p q : Ptr} {α β : Type} {f : Field} {r : Ref} {n limit : ℕ}
  {Q : α → Machine H → Prop} {P : Prop}

/-- A variable holds one address. -/
theorem Handles.Has.unique (h : t.Has b c p a) (h' : t.Has b c p a') : a = a' :=
  Except.ok.inj (h.symm.trans h')

/-- A slot is read. -/
theorem returning_star {k : Ptr → Code α}
    (hk : ∀ t' q, t.Le b c t' → t'.Has b c q (deref c (b.symbols heap) frames r) →
      wp (handleTyped b c) (k q) (Returning Q) ⟨heap, frames, t', w⟩) :
    wp (handleTyped b c) (star r >>= k) (Returning Q) ⟨heap, frames, t, w⟩ := by
  rw [star, op_bind, wp_step]
  exact hk _ _ hold_le hold_has

/-- Two pointers that may be used have been compared. -/
theorem returning_is {k : Bool → Code α}
    (hk : ∀ a a', t.Has b c p a → t.Has b c q a' →
      wp (handleTyped b c) (k (a = a')) (Returning Q) ⟨heap, frames, t, w⟩) :
    wp (handleTyped b c) (p.is q >>= k) (Returning Q) ⟨heap, frames, t, w⟩ := by
  refine wp_returning_step fun x m' hout => ?_
  simp only [handleTyped, handle, Machine.address] at hout
  cases hp : t.address b.strict c p with
  | error e => simp [hp, Bind.bind, Except.bind] at hout
  | ok a =>
      cases hq : t.address b.strict c q with
      | error e => simp [hp, hq, Bind.bind, Except.bind] at hout
      | ok a' =>
          simp only [hp, hq, Bind.bind, Except.bind, Pure.pure, Except.pure, Except.ok.injEq,
            Prod.mk.injEq] at hout
          obtain ⟨rfl, rfl⟩ := hout
          exact hk a a' hp hq

/-- The end of a list has been looked for. -/
theorem returning_isNil {k : Bool → Code α}
    (hk : ∀ a, t.Has b c p a → wp (handleTyped b c) (k (a = c.constNil)) (Returning Q)
      ⟨heap, frames, t, w⟩) :
    wp (handleTyped b c) (p.is .nil >>= k) (Returning Q) ⟨heap, frames, t, w⟩ :=
  returning_is fun a a' ha ha' => by
    obtain rfl := ha'.unique has_nil
    exact hk a ha

/-- An access has found an object. -/
theorem object_fetch {m : Machine H} {g : ℕ → Payload → Except Fault β} {x : β}
    (h : (m.object b c p >>= fun _ => m.address b c p >>= fun a => m.fetch b a >>= g a) = .ok x) :
    ∃ a payload, m.table.Has b c p a ∧ b.read m.heap a = some payload ∧ g a payload = .ok x := by
  simp only [Machine.object, Machine.address, Machine.fetch] at h
  cases hp : m.table.address b.strict c p with
  | error e => simp [hp, Bind.bind, Except.bind] at h
  | ok a =>
      by_cases hnull : a = null
      · simp [hp, hnull, Bind.bind, Except.bind, throw, throwThe, MonadExceptOf.throw] at h
      · cases hread : b.read m.heap a with
        | none => simp [hp, hnull, hread, Bind.bind, Except.bind, Pure.pure, Except.pure] at h
        | some payload =>
            simp only [hp, hnull, hread, ↓reduceIte, Bind.bind, Except.bind, Pure.pure,
              Except.pure] at h
            exact ⟨a, payload, hp, hread, h⟩

/-- An object with the member has been read. -/
theorem returning_look {view : Payload → Option β} {k : β → Code α}
    (hk : ∀ a payload x, t.Has b c p a → b.read heap a = some payload →
      view payload.erase = some x → wp (handleTyped b c) (k x) (Returning Q) ⟨heap, frames, t, w⟩) :
    wp (handleTyped b c) (Prog.op (.look p view) >>= k) (Returning Q) ⟨heap, frames, t, w⟩ := by
  refine wp_returning_step fun x m' hout => ?_
  simp only [handleTyped, handle] at hout
  obtain ⟨a, payload, hp, hread, hx⟩ := object_fetch hout
  cases hview : view payload.erase with
  | none => simp only [hview] at hx; cases hx
  | some y =>
      simp only [hview] at hx
      obtain ⟨rfl, rfl⟩ := Prod.mk.inj (Except.ok.inj hx)
      exact hk a payload y hp hread hview

/-- An object has been asked for its tag. -/
theorem returning_type {k : ℕ → Code α}
    (hk : ∀ a payload, t.Has b c p a → b.read heap a = some payload →
      wp (handleTyped b c) (k payload.type) (Returning Q) ⟨heap, frames, t, w⟩) :
    wp (handleTyped b c) (p.type >>= k) (Returning Q) ⟨heap, frames, t, w⟩ :=
  returning_look fun a payload x ha hread hx => by
    obtain rfl := Option.some.inj hx
    rw [Payload.type_erase]
    exact hk a payload ha hread

/-- An object with the pointer has been read. -/
theorem returning_get {k : Ptr → Code α}
    (hk : ∀ a payload a' t' q, t.Has b c p a → b.read heap a = some payload →
      payload.field f = some a' → t.Le b c t' → t'.Has b c q a' →
      wp (handleTyped b c) (k q) (Returning Q) ⟨heap, frames, t', w⟩) :
    wp (handleTyped b c) (p.get f >>= k) (Returning Q) ⟨heap, frames, t, w⟩ := by
  refine wp_returning_step fun x m' hout => ?_
  simp only [handleTyped, handle] at hout
  obtain ⟨a, payload, hp, hread, hx⟩ := object_fetch hout
  cases hf : payload.field f with
  | none => simp only [hf] at hx; cases hx
  | some a' =>
      simp only [hf] at hx
      obtain ⟨rfl, rfl⟩ := Prod.mk.inj (Except.ok.inj hx)
      exact hk a payload a' _ _ hp hread hf hold_le hold_has

/-- The tag of an object that the code knows. -/
theorem returning_tag {k : ℕ → Code α} (hp : t.Has b c p a)
    (hk : ∀ payload, b.read heap a = some payload →
      wp (handleTyped b c) (k payload.type) (Returning Q) ⟨heap, frames, t, w⟩) :
    wp (handleTyped b c) (p.type >>= k) (Returning Q) ⟨heap, frames, t, w⟩ :=
  returning_type fun a' payload ha hread => by
    obtain rfl := ha.unique hp
    exact hk payload hread

/-- A member of an object that has been looked at. -/
theorem returning_member {k : Ptr → Code α} {payload : Payload} (hp : t.Has b c p a)
    (hread : b.read heap a = some payload) (hf : payload.field f = some a')
    (hk : ∀ t' q, t.Le b c t' → t'.Has b c q a' →
      wp (handleTyped b c) (k q) (Returning Q) ⟨heap, frames, t', w⟩) :
    wp (handleTyped b c) (p.get f >>= k) (Returning Q) ⟨heap, frames, t, w⟩ := by
  refine returning_get fun a₁ payload₁ a₁' t' q ha₁ hread₁ hf₁ hle hq => ?_
  obtain rfl := ha₁.unique hp
  obtain rfl := Option.some.inj (hread₁.symm.trans hread)
  obtain rfl := Option.some.inj (hf₁.symm.trans hf)
  exact hk t' q hle hq

/-- The object in a slot has been asked for its tag. -/
theorem returning_refType {k : ℕ → Code α}
    (hk : ∀ payload t', t.Le b c t' →
      b.read heap (deref c (b.symbols heap) frames r) = some payload →
      wp (handleTyped b c) (k payload.type) (Returning Q) ⟨heap, frames, t', w⟩) :
    wp (handleTyped b c) (r.type >>= k) (Returning Q) ⟨heap, frames, t, w⟩ := by
  rw [Ref.type, bind_assoc']
  refine returning_star fun t' q hle hq => returning_type fun a payload ha hread => ?_
  obtain rfl := ha.unique hq
  exact hk payload t' hle hread

/-- The object in a slot has been read. -/
theorem returning_refGet {k : Ptr → Code α}
    (hk : ∀ payload a' t' q, b.read heap (deref c (b.symbols heap) frames r) = some payload →
      payload.field f = some a' → t.Le b c t' → t'.Has b c q a' →
      wp (handleTyped b c) (k q) (Returning Q) ⟨heap, frames, t', w⟩) :
    wp (handleTyped b c) (r.get f >>= k) (Returning Q) ⟨heap, frames, t, w⟩ := by
  rw [Ref.get, bind_assoc']
  refine returning_star fun t' q hle hq =>
    returning_get fun a payload a' t'' q' ha hread hf hle' hq' => ?_
  obtain rfl := ha.unique hq
  exact hk payload a' t'' q' hread hf (hle.trans hle') hq'

/-- A member of the object in a slot, when it has been looked at. -/
theorem returning_refMember {k : Ptr → Code α} {payload : Payload}
    (hread : b.read heap (deref c (b.symbols heap) frames r) = some payload)
    (hf : payload.field f = some a')
    (hk : ∀ t' q, t.Le b c t' → t'.Has b c q a' →
      wp (handleTyped b c) (k q) (Returning Q) ⟨heap, frames, t', w⟩) :
    wp (handleTyped b c) (r.get f >>= k) (Returning Q) ⟨heap, frames, t, w⟩ := by
  refine returning_refGet fun payload₁ a₁' t' q hread₁ hf₁ hle hq => ?_
  obtain rfl := Option.some.inj (hread₁.symm.trans hread)
  obtain rfl := Option.some.inj (hf₁.symm.trans hf)
  exact hk t' q hle hq

/-- The branch that is taken returns. -/
theorem returning_ite {x y : Code α} {d : Prop} [Decidable d] {m : Machine H}
    (hx : d → wp (handleTyped b c) x (Returning Q) m)
    (hy : ¬ d → wp (handleTyped b c) y (Returning Q) m) :
    wp (handleTyped b c) (if d then x else y) (Returning Q) m := by
  split
  · exact hx ‹_›
  · exact hy ‹_›

/-- What calls `error` does not return. -/
theorem returning_error {m : Machine H} {message : String} :
    wp (handleTyped b c) (error message : Code α) (Returning Q) m := trivial

/-- A test that the code must pass. -/
theorem returning_unless {y : Code α} {d : Prop} [Decidable d] {m : Machine H} {message : String}
    (hy : ¬ d → wp (handleTyped b c) y (Returning Q) m) :
    wp (handleTyped b c) (if d then error message else y) (Returning Q) m :=
  returning_ite (fun _ => returning_error) hy

/-- A pointer that may be used has been assigned. -/
theorem returning_assign {k : Unit → Code α} {depth j : ℕ}
    (hk : ∀ a, t.Has b c p a →
      wp (handleTyped b c) (k ()) (Returning Q) ⟨heap, Frames.set frames depth j a, t, w⟩) :
    wp (handleTyped b c) (assign (.slot depth j) p >>= k) (Returning Q) ⟨heap, frames, t, w⟩ := by
  refine wp_returning_step fun x m' hout => ?_
  simp only [handleTyped, handle, Machine.address] at hout
  cases hp : t.address b.strict c p with
  | error e => simp [hp, Bind.bind, Except.bind] at hout
  | ok a =>
      simp only [hp, Bind.bind, Except.bind, Pure.pure, Except.pure] at hout
      obtain ⟨rfl, rfl⟩ := Prod.mk.inj (Except.ok.inj hout)
      exact hk a hp

/-- A variable of the function itself. -/
theorem returning_assign_self {k : Unit → Code α} {frame : List ℕ} {j : ℕ}
    (hk : ∀ a, t.Has b c p a →
      wp (handleTyped b c) (k ()) (Returning Q) ⟨heap, frame.set j a :: frames, t, w⟩) :
    wp (handleTyped b c) (assign (.slot frames.length j) p >>= k) (Returning Q)
      ⟨heap, frame :: frames, t, w⟩ :=
  returning_assign fun a ha => by
    rw [set_self]
    exact hk a ha

/-- A scope. -/
theorem returning_define {body : ℕ → Code α}
    (hbody : wp (handleTyped b c) (body frames.length) (Returning fun _ _ => P)
      ⟨heap, List.replicate n null :: frames, t, w⟩) :
    wp (handleTyped b c) (define n body) (Returning fun _ _ => P) ⟨heap, frames, t, w⟩ := by
  rw [define, op_bind]
  refine wp_returning_step fun x m' hout => ?_
  obtain ⟨rfl, rfl⟩ := Prod.mk.inj (Except.ok.inj hout)
  exact wp_returning_first hbody

/-! ## lists -/

/-- `is_list` has found a cell, or the empty list. -/
theorem returning_isList {k : Bool → Code α} (hp : t.Has b c p a)
    (hk : ∀ d, (d = true → IsList c (b.read heap) a) →
      wp (handleTyped b c) (k d) (Returning Q) ⟨heap, frames, t, w⟩) :
    wp (handleTyped b c) (Evaluator.isList p >>= k) (Returning Q) ⟨heap, frames, t, w⟩ := by
  rw [Evaluator.isList, bind_assoc']
  refine returning_isNil fun a' ha' => ?_
  obtain rfl := ha'.unique hp
  by_cases hnil : a' = c.constNil
  · rw [decide_eq_true hnil]
    exact hk true fun _ => .inl hnil
  · rw [decide_eq_false hnil, if_neg (by decide), bind_assoc']
    refine returning_tag hp fun payload hread => hk _ fun hcell => .inr ?_
    obtain ⟨x, y, rfl⟩ := Payload.cell_of_type (of_decide_eq_true hcell)
    exact ⟨x, y, hread⟩

/-- The loop of `length` counts the elements of a proper list. -/
theorem returning_lengthLoop {k : ℤ → Code α} {len : ℤ}
    (hk : ∀ t' l, t.Le b c t' →
      (l ≠ -1 → ∃ a xs, t.Has b c p a ∧ Elements c (b.read heap) xs a ∧ l = len + xs.length) →
      wp (handleTyped b c) (k l) (Returning Q) ⟨heap, frames, t', w⟩) :
    wp (handleTyped b c) (Evaluator.lengthLoop limit p len >>= k) (Returning Q)
      ⟨heap, frames, t, w⟩ := by
  induction limit generalizing t p len with
  | zero => trivial
  | succ limit ih =>
      rw [Evaluator.lengthLoop, bind_assoc']
      refine returning_type fun a payload hp hread => ?_
      split
      · next htype =>
          obtain ⟨x, y, rfl⟩ := Payload.cell_of_type htype
          rw [bind_assoc']
          refine returning_member hp hread rfl fun t' q hle hq => ?_
          refine ih fun t'' l hle' hl => hk t'' l (hle.trans hle') fun hne => ?_
          obtain ⟨y', xs, hy', hxs, heq⟩ := hl hne
          obtain rfl := hy'.unique hq
          refine ⟨a, x :: xs, hp, .cons hread hxs, ?_⟩
          rw [heq, List.length_cons]
          omega
      · rw [bind_assoc']
        refine returning_isNil fun a' ha' => ?_
        obtain rfl := ha'.unique hp
        by_cases hnil : a' = c.constNil
        · rw [decide_eq_true hnil]
          exact hk t len .refl fun _ => ⟨a', [], hp, hnil ▸ .nil, by simp⟩
        · rw [decide_eq_false hnil]
          exact hk t (-1) .refl fun hne => absurd rfl hne

/-- `length` has counted the elements of a proper list, or found an improper one. -/
theorem returning_length {k : ℤ → Code α}
    (hk : ∀ t' (l : ℤ), t.Le b c t' →
      (l ≠ -1 → ∃ a xs, t.Has b c p a ∧ Elements c (b.read heap) xs a ∧ l = xs.length) →
      wp (handleTyped b c) (k l) (Returning Q) ⟨heap, frames, t', w⟩) :
    wp (handleTyped b c) (Evaluator.length limit p >>= k) (Returning Q) ⟨heap, frames, t, w⟩ := by
  rw [Evaluator.length]
  refine returning_lengthLoop fun t' l hle hl => hk t' l hle fun hne => ?_
  obtain ⟨a, xs, ha, hxs, heq⟩ := hl hne
  exact ⟨a, xs, ha, hxs, by omega⟩

/-- The list that a variable holds is counted. -/
theorem returning_count {k : ℤ → Code α}
    (hk : ∀ t' (l : ℤ), (l ≠ -1 → ∃ xs, Elements c (b.read heap) xs
        (deref c (b.symbols heap) frames r) ∧ l = xs.length) →
      wp (handleTyped b c) (k l) (Returning Q) ⟨heap, frames, t', w⟩) :
    wp (handleTyped b c) (star r >>= fun p => Evaluator.length limit p >>= k) (Returning Q)
      ⟨heap, frames, t, w⟩ := by
  refine returning_star fun _ _ _ hq => returning_length fun t' l _ hl => hk t' l fun hne => ?_
  obtain ⟨a, xs, ha, hxs, heq⟩ := hl hne
  obtain rfl := ha.unique hq
  exact ⟨xs, hxs, heq⟩

/-- The loop of `handle_function`. -/
theorem returning_checkParams {k : Ptr → Code α} (hp : t.Has b c p a)
    (hk : ∀ t' q v, t'.Has b c q v → (Params c (b.read heap) v → Params c (b.read heap) a) →
      wp (handleTyped b c) (k q) (Returning Q) ⟨heap, frames, t', w⟩) :
    wp (handleTyped b c) (Evaluator.checkParams limit p >>= k) (Returning Q)
      ⟨heap, frames, t, w⟩ := by
  induction limit generalizing t p a with
  | zero => trivial
  | succ limit ih =>
      rw [Evaluator.checkParams, bind_assoc']
      refine returning_tag hp fun payload hread => ?_
      split
      · next htype =>
          obtain ⟨x, y, rfl⟩ := Payload.cell_of_type htype
          rw [bind_assoc']
          refine returning_member hp hread rfl fun t₁ q₁ hle₁ hq₁ => ?_
          rw [bind_assoc']
          refine returning_tag hq₁ fun payload hreadx => ?_
          split
          · trivial
          · next hsymbol =>
              obtain ⟨name, rfl⟩ := Payload.symbol_of_type (not_not.mp hsymbol)
              rw [bind_assoc']
              refine returning_member (hle₁ _ _ hp) hread rfl fun t₂ q₂ hle₂ hq₂ => ?_
              exact ih hq₂ fun t₃ q₃ v hq₃ hv => hk t₃ q₃ v hq₃ fun hv' =>
                .cell hread ⟨name, hreadx⟩ (hv hv')
      · exact hk t p a hp id

end rules

/-! ## primitives -/

section primitives

variable {H : Type} {b : Backend H} {c : Statics} {heap : H} {frames : Frames} {t : Handles}
  {w : World} {α : Type} {list env : Ref} {eval : Evaluator.Evaluates} {a k n limit : ℕ} {P : Prop}

/-- Nothing comes after an error. -/
theorem returning_panic {p : Code α} {β : Type} {message : String} {Q : β → Machine H → Prop}
    {m : Machine H} :
    wp (handleTyped b c) (p >>= fun _ => error message) (Returning Q) m := by
  refine wp_returning_bind ?_
  rw [wp]
  rcases p.run (handleTyped b c) m with ⟨e | x, m'⟩ <;> trivial

/-- A primitive that counts its arguments first. -/
theorem returning_counted {j : ℕ} {message : String} {k : Code α}
    (hP : ∀ xs, Elements c (b.read heap) xs (deref c (b.symbols heap) frames list) →
      xs.length = j → P) :
    wp (handleTyped b c) (do
      if (← Evaluator.length limit (← star list)) ≠ j then error message else k)
      (Returning fun _ _ => P) ⟨heap, frames, t, w⟩ := by
  refine returning_count fun t' l hl => returning_unless fun hj => wp_returning_of ?_
  obtain ⟨xs, hxs, heq⟩ := hl (by omega)
  exact hP xs hxs (by omega)

/-- A primitive that wants at least two. -/
theorem returning_atLeast {message : String} {k : Code α}
    (hP : ∀ xs, Elements c (b.read heap) xs (deref c (b.symbols heap) frames list) →
      2 ≤ xs.length → P) :
    wp (handleTyped b c) (do
      if (← Evaluator.length limit (← star list)) < 2 then error message else k)
      (Returning fun _ _ => P) ⟨heap, frames, t, w⟩ := by
  refine returning_count fun t' l hl => returning_unless fun hj => wp_returning_of ?_
  obtain ⟨xs, hxs, heq⟩ := hl (by omega)
  exact hP xs hxs (by omega)

/-- `setq` and `define` want a symbol and an expression. -/
theorem returning_binding {message : String} {k : Code α}
    (hP : ∀ x y, Elements c (b.read heap) [x, y] (deref c (b.symbols heap) frames list) →
      IsSymbol (b.read heap) x → P) :
    wp (handleTyped b c) (do
      if (← Evaluator.length limit (← star list)) ≠ 2 then error message
      else if (← (← list.get .car).type) ≠ tSymbol then error message
      else k) (Returning fun _ _ => P) ⟨heap, frames, t, w⟩ := by
  refine returning_count fun t' l hl => returning_unless fun hj => ?_
  obtain ⟨xs, hxs, heq⟩ := hl (by omega)
  obtain ⟨x, y, rfl⟩ := List.length_eq_two.mp (show xs.length = 2 by omega)
  cases hxs with
  | cons hcell hrest =>
      refine returning_refMember hcell rfl fun t₁ q₁ _ hq₁ => returning_tag hq₁
        fun payload hreadx => returning_unless fun htype => wp_returning_of ?_
      obtain ⟨name, rfl⟩ := Payload.symbol_of_type (not_not.mp htype)
      exact hP x y (.cons hcell hrest) ⟨name, hreadx⟩

/-- `handle_function` -/
theorem returning_handleFunction {isMacro : Bool} {k : Ptr → Code α}
    (hP : Call.HandleFunction c (b.read heap) (deref c (b.symbols heap) frames list) → P) :
    wp (handleTyped b c) (Evaluator.handleFunction limit isMacro env list >>= k)
      (Returning fun _ _ => P) ⟨heap, frames, t, w⟩ := by
  rw [Evaluator.handleFunction, bind_assoc']
  refine returning_refType fun payload t₁ _ hread => ?_
  split
  · trivial
  next htype =>
  obtain ⟨params, body, rfl⟩ := Payload.cell_of_type (not_not.mp htype)
  rw [bind_assoc']
  refine returning_refMember hread rfl fun t₂ q₂ _ hq₂ => ?_
  rw [bind_assoc']
  refine returning_isList hq₂ fun d hd => ?_
  cases d with
  | false => trivial
  | true =>
  have hlist := hd rfl
  rw [if_neg (by decide), bind_assoc']
  refine returning_refMember hread rfl fun t₃ q₃ _ hq₃ => ?_
  rw [bind_assoc']
  refine returning_tag hq₃ fun payload₃ hread₃ => ?_
  split
  · trivial
  next htype₃ =>
  obtain ⟨e, es, rfl⟩ := Payload.cell_of_type (not_not.mp htype₃)
  rw [bind_assoc']
  refine returning_refMember hread rfl fun t₄ q₄ _ hq₄ => ?_
  rw [bind_assoc']
  refine returning_checkParams hq₄ fun t₅ q₅ v hq₅ hv => ?_
  have hshow : Params c (b.read heap) v → P := fun hv' =>
    hP ⟨params, body, hread, hlist, hv hv', e, es, hread₃⟩
  rw [bind_assoc']
  refine returning_isNil fun v' hv' => ?_
  obtain rfl := hv'.unique hq₅
  by_cases hnil : v' = c.constNil
  · rw [decide_eq_true hnil]
    exact wp_returning_of (hshow (hnil ▸ .nil))
  · rw [decide_eq_false hnil, if_neg (by decide), bind_assoc']
    refine returning_tag hq₅ fun payload hreadv => ?_
    split
    · trivial
    next hsymbol =>
    obtain ⟨name, rfl⟩ := Payload.symbol_of_type (not_not.mp hsymbol)
    exact wp_returning_of (hshow (.rest ⟨name, hreadv⟩))

/-- `handle_defun` -/
theorem returning_handleDefun {isMacro : Bool} (hlist : At c frames list a)
    (hP : Call.HandleDefun c (b.read heap) a → P) :
    wp (handleTyped b c) (Evaluator.handleDefun limit isMacro env list)
      (Returning fun _ _ => P) ⟨heap, frames, t, w⟩ := by
  rw [Evaluator.handleDefun]
  refine returning_refGet fun payload name t₁ q₁ hread hf₁ _ hq₁ => returning_tag hq₁
    fun payload' hreadname => returning_unless fun htype => ?_
  obtain ⟨string, rfl⟩ := Payload.symbol_of_type (not_not.mp htype)
  obtain ⟨rest, rfl⟩ := Payload.cell_of_car hf₁
  rw [hlist.deref] at hread
  refine returning_refGet fun payload rest' t₂ q₂ hread₂ hf₂ _ hq₂ => returning_type
    fun _ _ _ _ => returning_unless fun _ => returning_define ?_
  refine returning_refGet fun payload _ t₃ q₃ _ _ _ _ => returning_assign_self fun sym _ => ?_
  refine returning_refGet fun payload rest'' t₄ q₄ hread₄ hf₄ _ hq₄ => returning_assign_self
    fun v hv => ?_
  obtain rfl := hv.unique hq₄
  rw [hlist.cons.deref, hread] at hread₄
  obtain rfl := Option.some.inj hread₄
  obtain rfl : rest = v := Option.some.inj hf₄
  refine returning_handleFunction fun hfunction => hP ⟨name, rest, hread, ⟨string, hreadname⟩, ?_⟩
  rwa [(at_self (by simp) : At c _ (.slot frames.length 2) rest).deref] at hfunction

end primitives

end KernelPanic.Minilisp
