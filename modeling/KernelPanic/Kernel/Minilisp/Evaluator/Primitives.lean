import KernelPanic.Kernel.Minilisp.Evaluator.Functions

/-!
# KernelPanic.Kernel.Minilisp.Evaluator.Primitives

The primitives make no wrong access, if `eval` makes none.

A primitive gets its arguments in a variable of the caller, whose frame it may change.
-/

namespace KernelPanic.Minilisp.Evaluator

open Machine Prog Kinds

section primitives

variable {A : Call → Machine Ideal → Prop} {c : Statics} {tbl : List Entry} {s : Origin} {T : Kinds} {heap : Ideal} {frames root : Frames}
  {t : Handles} {w : World} {eval : Evaluates} {limit a b e x : ℕ} {xs ys : List ℕ} {env list r : Ref}
  {f : List ℕ} {j : ℕ} {p : Ptr} {message : String}

/-- The caller's frame may have changed. -/
def Behind (root frames : Frames) : Prop := ∃ f, frames = f :: root

/-! ## arguments -/

theorem safe_length {α : Type} {k : ℤ → Code α} {R : α → Kinds → Machine Ideal → Prop}
    (hr : At c frames r a) (ha : Val c T a)
    (hk : ∀ t' len, (len = -1 ∨ ∃ xs, Row c T heap.read xs a ∧ len = (xs.length : ℤ)) →
      Safe c tbl A s T ⟨heap, frames, t', w⟩ R (k len)) :
    Safe c tbl A s T ⟨heap, frames, t, w⟩ R (star r >>= fun p => length limit p >>= k) :=
  safe_star hr fun _ _ _ hq => (length_safe limit hq ha).still fun len t' _ hlen => hk t' len hlen

/-- A list of the length asked for. -/
theorem row_of_length {len : ℤ} {n : ℕ} (h : len = -1 ∨ ∃ xs, Row c T heap.read xs a ∧ len = (xs.length : ℤ))
    (hlen : ¬ len ≠ n) : ∃ xs, Row c T heap.read xs a ∧ xs.length = n := by
  obtain rfl := not_not.mp hlen
  rcases h with h | ⟨xs, hrow, h⟩
  · omega
  · exact ⟨xs, hrow, by omega⟩

/-- A member of a cell is returned. -/
theorem refGet_safe {fld : Field} (hr : At c frames r a) (ha : T a = some .cell)
    (hf : fld = .car ∨ fld = .cdr) :
    Safe c tbl A s T ⟨heap, frames, t, w⟩ (Yields c (· = frames)) (r.get fld) := by
  refine Safe.kinded fun hk => ?_
  obtain ⟨p, q, hread, hp, hq⟩ := hk.cell ha
  rcases hf with rfl | rfl
  · exact safe_tail (safe_refGet hr hread rfl fun _ _ _ hv => safe_ok ⟨rfl, p, hv, hp⟩)
  · exact safe_tail (safe_refGet hr hread rfl fun _ _ _ hv => safe_ok ⟨rfl, q, hv, hq⟩)

/-! ## without evaluation -/

/-- `prim_quote` -/
theorem primQuote_safe (hlist : At c frames list a) (ha : Val c T a) :
    Safe c tbl A s T ⟨heap, frames, t, w⟩ (Yields c (· = frames)) (primQuote limit list) := by
  rw [primQuote]
  refine safe_length hlist ha fun t₁ len hlen => safe_ite (fun _ => safe_message) fun h => ?_
  obtain ⟨xs, hrow, hxs⟩ := row_of_length (n := 1) hlen h
  obtain ⟨x, rfl⟩ := List.length_eq_one_iff.mp hxs
  exact refGet_safe hlist hrow.2.1 (.inl rfl)

/-- A symbol is made. -/
theorem makeSymbol_safe {name : List UInt8} (hname : name.length ≤ 200) :
    Safe c tbl A s T ⟨heap, frames, t, w⟩ (Yields c (· = frames)) (makeSymbol name) := by
  refine safe_tail (safe_make (Request.fits_makeSymbol hname) rfl .symbol ?_)
  intro T' heap' t' q a _ ha _ _ hq
  exact safe_ok ⟨rfl, a, hq, .atom ha⟩

/-- A number is made. -/
theorem makeInt_safe {n : BitVec 32} :
    Safe c tbl A s T ⟨heap, frames, t, w⟩ (Yields c (· = frames)) (makeInt n) := by
  refine safe_tail (safe_make Request.fits_makeInt rfl .int ?_)
  intro T' heap' t' q a _ ha _ _ hq
  exact safe_ok ⟨rfl, a, hq, .atom ha⟩

/-- `prim_gensym` -/
theorem primGensym_safe :
    Safe c tbl A s T ⟨heap, frames, t, w⟩ (Yields c (· = frames)) primGensym := by
  rw [primGensym, nextCount]
  refine safe_op rfl rfl rfl (makeSymbol_safe ?_)
  rw [List.length_take]
  omega

/-- The loop of `handle_function`. -/
theorem checkParams_safe (n : ℕ) (hp : t.Has (ideal c) c p a) (ha : Val c T a) :
    Safe c tbl A s T ⟨heap, frames, t, w⟩
      (Still c T heap frames t w fun q t' => ∃ b, t'.Has (ideal c) c q b ∧ Val c T b)
      (checkParams n p) := by
  induction n generalizing t p a with
  | zero => exact safe_outOfFuel
  | succ n ih =>
      rw [checkParams]
      refine safe_type hp ha fun payload hread hshape => safe_ite (fun htype => ?_) fun _ => ?_
      · obtain ⟨x, y, rfl, hT, hx, hy⟩ := hshape.cell_of_type htype
        refine safe_get hp hread rfl fun t₁ q₁ hle₁ hq₁ => ?_
        refine safe_type hq₁ hx fun _ _ _ => safe_ite (fun _ => safe_message) fun _ => ?_
        refine safe_get (hle₁ _ _ hp) hread rfl fun t₂ q₂ hle₂ hq₂ => ?_
        exact (ih hq₂ hy).later (hle₁.trans hle₂) fun _ _ => id
      · exact still_ok .refl ⟨a, hp, ha⟩

/-- What follows the checks of `handle_function`. -/
theorem makeHandled_safe {isMacro : Bool} {x y : ℕ} (henv : At c frames env e) (he : T e = some .env)
    (hlist : At c frames list a) (hread : heap.read a = some (.cell x y)) (hx : Val c T x)
    (hy : T y = some .cell) :
    Safe c tbl A s T ⟨heap, frames, t, w⟩ (Yields c (· = frames))
      (handleFunction.makeHandled isMacro env list) := by
  rw [handleFunction.makeHandled]
  refine safe_define ?_
  refine safe_refGet hlist.cons hread rfl fun t₁ q₁ _ hq₁ => safe_assign_self hq₁ ?_
  refine safe_refGet hlist.cons hread rfl fun t₂ q₂ _ hq₂ => safe_assign_self hq₂ ?_
  refine safe_tail (safe_make (d := .atom) Request.fits_makeFunction rfl ?_ ?_)
  · cases isMacro <;> simp only [Request.payload] <;>
      rw [henv.cons.deref, (at_self rfl : At c _ _ x).deref, (at_self rfl : At c _ _ y).deref]
    · exact .function hx hy he
    · exact .macroFn hx hy he
  · intro T' heap' t' q a _ ha _ _ hq
    exact safe_ok ⟨rfl, a, hq, .atom ha⟩

/-- `handle_function` -/
theorem handleFunction_safe {isMacro : Bool} (henv : At c frames env e) (he : T e = some .env)
    (hlist : At c frames list a) (ha : Val c T a) :
    Safe c tbl A s T ⟨heap, frames, t, w⟩ (Yields c (· = frames))
      (handleFunction limit isMacro env list) := by
  rw [handleFunction]
  refine safe_refType hlist ha fun t₁ payload _ hread hshape => ?_
  refine safe_ite (fun _ => safe_message) fun htype => ?_
  obtain ⟨x, y, rfl, -, hx, hy⟩ := hshape.cell_of_type (not_not.mp htype)
  refine safe_refGet hlist hread rfl fun t₂ q₂ _ hq₂ => ?_
  refine (isList_safe hq₂ hx).still fun _ t₃ _ _ => safe_ite (fun _ => safe_message) fun _ => ?_
  refine safe_refGet hlist hread rfl fun t₄ q₄ _ hq₄ => ?_
  refine safe_type hq₄ hy fun payload' _ hshape' => safe_ite (fun _ => safe_message) fun htype' => ?_
  obtain ⟨-, -, -, hT, -⟩ := hshape'.cell_of_type (not_not.mp htype')
  refine safe_refGet hlist hread rfl fun t₅ q₅ _ hq₅ => ?_
  refine (checkParams_safe limit hq₅ hx).still fun q₆ t₆ _ hq₆ => ?_
  obtain ⟨b, hq₆, hb⟩ := hq₆
  have hmake : ∀ {t}, Safe c tbl A s T ⟨heap, frames, t, w⟩ (Yields c (· = frames))
      (handleFunction.makeHandled isMacro env list) := makeHandled_safe henv he hlist hread hx hT
  refine safe_iteIs hq₆ has_nil (fun _ => hmake) fun _ => ?_
  exact safe_type hq₆ hb fun _ _ _ => safe_ite (fun _ => safe_message) fun _ => hmake

/-- `handle_defun` -/
theorem handleDefun_safe {isMacro : Bool} (henv : At c frames env e) (he : T e = some .env)
    (hlist : At c frames list a) (ha : T a = some .cell) :
    Safe c tbl A s T ⟨heap, frames, t, w⟩ (Yields c (· = frames))
      (handleDefun limit isMacro env list) := by
  rw [handleDefun]
  refine Safe.kinded fun hk => ?_
  obtain ⟨x, y, hread, hx, hy⟩ := hk.cell ha
  refine safe_refGet hlist hread rfl fun t₁ q₁ _ hq₁ => ?_
  refine safe_type hq₁ hx fun _ _ _ => safe_ite (fun _ => safe_message) fun _ => ?_
  refine safe_refGet hlist hread rfl fun t₂ q₂ _ hq₂ => ?_
  refine safe_type hq₂ hy fun _ _ _ => safe_ite (fun _ => safe_message) fun _ => ?_
  refine safe_define ?_
  refine safe_refGet hlist.cons hread rfl fun t₃ q₃ _ hq₃ => safe_assign_self hq₃ ?_
  refine safe_refGet hlist.cons hread rfl fun t₄ q₄ _ hq₄ => safe_assign_self hq₄ ?_
  refine (handleFunction_safe henv.cons he (at_self rfl) hy).bind
    fun q₅ T₅ heap₅ frames₅ t₅ w₅ hev hq₅ => ?_
  obtain ⟨rfl, v, hq₅, hv⟩ := hq₅
  refine safe_assign_self hq₅ ?_
  refine (addVariable_safe henv.cons (hev.kinds _ _ he) (at_self rfl) hv).bind
    fun _ T₆ heap₆ frames₆ t₆ w₆ hev₆ hframes => ?_
  obtain rfl : frames₆ = _ := hframes
  exact (star_safe (at_self rfl) (hv.mono hev₆.kinds)).popped fun _ heq => congrArg List.tail heq

/-! ## numbers -/

/-- The loop of `prim_plus`. -/
theorem plusLoop_safe (n : ℕ) {sum : BitVec 32} (hp : t.Has (ideal c) c p a)
    (hrow : Row c T heap.read xs a) :
    Safe c tbl A s T ⟨heap, frames, t, w⟩ (Still c T heap frames t w fun _ _ => True)
      (plusLoop n p sum) := by
  induction n generalizing t p a xs sum with
  | zero => exact safe_outOfFuel
  | succ n ih =>
      rw [plusLoop]
      refine Safe.kinded fun hk => ?_
      cases xs with
      | nil => exact safe_iteIs hp has_nil (fun _ => still_ok .refl trivial) fun hne => absurd hrow hne
      | cons x xs =>
          obtain ⟨rfl, hT, v, q, hread, hrest⟩ := hrow
          obtain ⟨-, hv, -⟩ := hk.cell_of_read (.cell hT) hread
          refine safe_iteIs hp has_nil (fun hnil => absurd hnil (hk.ne_nil hT)) fun _ => ?_
          refine safe_get hp hread rfl fun t₁ q₁ hle₁ hq₁ => ?_
          refine safe_type hq₁ hv fun payload hreadv hshape => ?_
          refine safe_ite (fun _ => safe_message) fun htype => ?_
          obtain ⟨m, rfl⟩ := hshape.int_of_type (not_not.mp htype)
          refine safe_get (hle₁ _ _ hp) hread rfl fun t₂ q₂ hle₂ hq₂ => safe_value hq₂ hreadv ?_
          have hle₁₂ := hle₁.trans hle₂
          refine safe_get (hle₁₂ _ _ hp) hread rfl fun t₃ q₃ hle₃ hq₃ => ?_
          exact (ih hq₃ hrest).later (hle₁₂.trans hle₃) fun _ _ => id

/-- Every element of the list is a number. -/
def Ints (heap : Ideal) (xs : List ℕ) : Prop :=
  ∀ x ∈ xs, ∀ p q, heap.read x = some (.cell p q) → ∃ n, heap.read p = some (.int n)

/-- The first loop of `prim_minus`. -/
theorem checkInts_safe (n : ℕ) (hp : t.Has (ideal c) c p a) (hrow : Row c T heap.read xs a) :
    Safe c tbl A s T ⟨heap, frames, t, w⟩ (Still c T heap frames t w fun _ _ => Ints heap xs)
      (checkInts n p) := by
  induction n generalizing t p a xs with
  | zero => exact safe_outOfFuel
  | succ n ih =>
      rw [checkInts]
      refine Safe.kinded fun hk => ?_
      cases xs with
      | nil =>
          refine safe_iteIs hp has_nil (fun _ => still_ok .refl ?_) fun hne => absurd hrow hne
          exact fun _ h => nomatch h
      | cons x xs =>
          obtain ⟨rfl, hT, v, q, hread, hrest⟩ := hrow
          obtain ⟨-, hv, -⟩ := hk.cell_of_read (.cell hT) hread
          refine safe_iteIs hp has_nil (fun hnil => absurd hnil (hk.ne_nil hT)) fun _ => ?_
          refine safe_get hp hread rfl fun t₁ q₁ hle₁ hq₁ => ?_
          refine safe_type hq₁ hv fun payload hreadv hshape => ?_
          refine safe_ite (fun _ => safe_message) fun htype => ?_
          obtain ⟨m, rfl⟩ := hshape.int_of_type (not_not.mp htype)
          refine safe_get (hle₁ _ _ hp) hread rfl fun t₂ q₂ hle₂ hq₂ => ?_
          refine (ih hq₂ hrest).later (hle₁.trans hle₂) fun _ _ hints => ?_
          refine List.forall_mem_cons.mpr ⟨fun p' q' hread' => ?_, hints⟩
          cases hread.symm.trans hread'
          exact ⟨m, hreadv⟩

/-- The second loop of `prim_minus`. -/
theorem minusLoop_safe (n : ℕ) {r : BitVec 32} (hp : t.Has (ideal c) c p a)
    (hrow : Row c T heap.read xs a) (hints : Ints heap xs) :
    Safe c tbl A s T ⟨heap, frames, t, w⟩ (Still c T heap frames t w fun _ _ => True)
      (minusLoop n p r) := by
  induction n generalizing t p a xs r with
  | zero => exact safe_outOfFuel
  | succ n ih =>
      rw [minusLoop]
      refine Safe.kinded fun hk => ?_
      cases xs with
      | nil => exact safe_iteIs hp has_nil (fun _ => still_ok .refl trivial) fun hne => absurd hrow hne
      | cons x xs =>
          obtain ⟨rfl, hT, v, q, hread, hrest⟩ := hrow
          obtain ⟨hx, hints⟩ := List.forall_mem_cons.mp hints
          obtain ⟨m, hreadv⟩ := hx v q hread
          refine safe_iteIs hp has_nil (fun hnil => absurd hnil (hk.ne_nil hT)) fun _ => ?_
          refine safe_get hp hread rfl fun t₁ q₁ hle₁ hq₁ => safe_value hq₁ hreadv ?_
          refine safe_get (hle₁ _ _ hp) hread rfl fun t₂ q₂ hle₂ hq₂ => ?_
          exact (ih hq₂ hrest hints).later (hle₁.trans hle₂) fun _ _ => id

/-- A comparison of two numbers. -/
theorem compareInts_safe {holds : BitVec 32 → BitVec 32 → Bool} {y z : ℕ} (hp : t.Has (ideal c) c p a)
    (hrow : Row c T heap.read [y, z] a) :
    Safe c tbl A s T ⟨heap, frames, t, w⟩ (Yields c (· = frames)) (compareInts holds message p) := by
  rw [compareInts]
  refine Safe.kinded fun hk => ?_
  obtain ⟨rfl, hT, u, q, hread, rfl, hT', v, r, hread', -⟩ := hrow
  obtain ⟨-, hu, -⟩ := hk.cell_of_read (.cell hT) hread
  obtain ⟨-, hv, -⟩ := hk.cell_of_read (.cell hT') hread'
  refine safe_get hp hread rfl fun t₁ q₁ hle₁ hq₁ => ?_
  refine safe_get (hle₁ _ _ hp) hread rfl fun t₂ q₂ hle₂ hq₂ => ?_
  refine safe_get hq₂ hread' rfl fun t₃ q₃ hle₃ hq₃ => ?_
  have hx := hle₃ _ _ (hle₂ _ _ hq₁)
  refine safe_type hx hu fun payload hreadu hshape => safe_ite (fun _ => safe_message) fun htype => ?_
  obtain ⟨m, rfl⟩ := hshape.int_of_type (not_not.mp htype)
  refine safe_type hq₃ hv fun payload hreadv hshape => safe_ite (fun _ => safe_message) fun htype => ?_
  obtain ⟨n, rfl⟩ := hshape.int_of_type (not_not.mp htype)
  refine safe_value hx hreadu (safe_value hq₃ hreadv ?_)
  exact safe_ite (fun _ => safe_ok ⟨rfl, _, has_constTrue, val_constTrue⟩)
    fun _ => safe_ok ⟨rfl, _, has_nil, val_nil⟩

/-! ## evaluated arguments -/

section arguments

variable (heval : Sound c tbl A eval) (hj : j < f.length)
  (henv : ∀ a, At c (f.set j a :: root) env e) (he : T e = some .env)

include heval hj henv he

/-- `eval_list` of the arguments. -/
theorem safe_arguments {α : Type} {k : Ptr → Code α} {R : α → Kinds → Machine Ideal → Prop}
    {g : Frames} (hrow : Row c T heap.read xs a)
    (hk : ∀ T' heap' t' w' q b ys, Evolves T heap T' heap' → t'.Has (ideal c) c q b →
      Row c T' heap'.read ys b → ys.length = xs.length → (∀ y ∈ ys, T y = none) →
      Safe c tbl A s T' ⟨heap', g ++ f.set j c.constNil :: root, t', w'⟩ R (k q)) :
    Safe c tbl A s T ⟨heap, g ++ f.set j a :: root, t, w⟩ R
      (evalList eval limit env (.slot root.length j) >>= k) := by
  refine (evalList_safe heval hj (fun a => At.append (henv a)) he hrow).bind
    fun q T' heap' frames' t' w' hev hx => ?_
  obtain ⟨rfl, b, ys, hq, hys, hlength, hfresh⟩ := hx
  exact hk T' heap' t' w' q b ys hev hq hys hlength hfresh

/-- `prim_cons` -/
theorem primCons_safe (ha : Val c T a) :
    Safe c tbl A s T ⟨heap, f.set j a :: root, t, w⟩ (Yields c (Behind root))
      (primCons eval limit env (.slot root.length j)) := by
  rw [primCons]
  refine Safe.evolved fun hev₀ => ?_
  refine safe_length (at_self (by simp [hj])) ha fun t₁ len hlen => ?_
  refine safe_ite (fun _ => safe_message) fun h => ?_
  obtain ⟨xs, hrow, hxs⟩ := row_of_length (n := 2) hlen h
  refine safe_arguments heval hj henv he (g := []) hrow
    fun T₂ heap₂ t₂ w₂ q₂ b ys hev₂ hq₂ hys hlength hfresh => ?_
  obtain ⟨y, z, rfl⟩ := List.length_eq_two.mp (hlength.trans hxs)
  obtain ⟨rfl, hT, p, q, hread, rfl, hT', u, v, hread', -⟩ := hys
  refine Safe.kinded fun hk => ?_
  obtain ⟨-, hp, -⟩ := hk.cell_of_read (.cell hT) hread
  obtain ⟨-, hu, -⟩ := hk.cell_of_read (.cell hT') hread'
  refine safe_get hq₂ hread rfl fun t₃ q₃ hle₃ hq₃ => ?_
  refine safe_get hq₃ hread' rfl fun t₄ q₄ hle₄ hq₄ => ?_
  have hcell := hle₄ _ _ (hle₃ _ _ hq₂)
  refine safe_set hcell hq₄ hT nofun hread rfl (.cell hp hu) ?_ ?_
  · rw [hev₀.kinds.none (hfresh b (by simp))]
    exact fun _ => nofun
  · exact safe_ok ⟨⟨_, rfl⟩, b, hcell, .cell hT⟩

/-- `prim_car` and `prim_cdr` of a proper list with an element. -/
theorem primField_safe {fld : Field} (hf : fld = .car ∨ fld = .cdr)
    (hrow : Row c T heap.read (x :: xs) a) :
    Safe c tbl A s T ⟨heap, f.set j a :: root, t, w⟩ (Yields c (Behind root))
      (primField eval limit fld message env (.slot root.length j)) := by
  rw [primField]
  refine safe_arguments heval hj henv he (g := []) hrow
    fun T₂ heap₂ t₂ w₂ q₂ b ys hev₂ hq₂ hys hlength _ => ?_
  rw [fieldOf]
  cases ys with
  | nil => cases hlength
  | cons y ys =>
      obtain ⟨rfl, hT, p, q, hread, hrest⟩ := hys
      refine Safe.kinded fun hk => ?_
      obtain ⟨-, hp, hq⟩ := hk.cell_of_read (.cell hT) hread
      refine safe_get hq₂ hread rfl fun t₃ q₃ hle₃ hq₃ => ?_
      refine safe_type hq₃ hp fun payload _ hshape => safe_ite (fun _ => safe_message) fun htype => ?_
      obtain ⟨-, -, -, hcell, -⟩ := hshape.cell_of_type (not_not.mp htype)
      refine safe_get (hle₃ _ _ hq₂) hread rfl fun t₄ q₄ hle₄ hq₄ => ?_
      refine safe_iteIs hq₄ has_nil (fun _ => ?_) fun _ => safe_message
      refine safe_get (hle₄ _ _ (hle₃ _ _ hq₂)) hread rfl fun t₅ q₅ _ hq₅ => ?_
      obtain ⟨u, v, hread', hu, hv⟩ := hk.cell hcell
      rcases hf with rfl | rfl
      · exact safe_tail (safe_get hq₅ hread' rfl fun _ _ _ h => safe_ok ⟨⟨_, rfl⟩, u, h, hu⟩)
      · exact safe_tail (safe_get hq₅ hread' rfl fun _ _ _ h => safe_ok ⟨⟨_, rfl⟩, v, h, hv⟩)

/-- `prim_setcar` of a proper list. -/
theorem primSetcar_safe (hrow : Row c T heap.read xs a) :
    Safe c tbl A s T ⟨heap, f.set j a :: root, t, w⟩ (Yields c (Behind root))
      (primSetcar eval limit env (.slot root.length j)) := by
  rw [primSetcar]
  refine safe_define ?_
  refine safe_arguments heval hj henv he (g := [_]) hrow
    fun T₂ heap₂ t₂ w₂ q₂ b ys hev₂ hq₂ hys hlength _ => ?_
  refine safe_assign_self hq₂ ?_
  rw [setcarOf]
  have hargs : At c ([b] :: f.set j c.constNil :: root) (.slot (f.set j a :: root).length 0) b :=
    at_self rfl
  refine safe_length hargs hys.val fun t₃ len hlen => ?_
  refine safe_ite (fun _ => safe_message) fun h => ?_
  obtain ⟨zs, hrow', hzs⟩ := row_of_length (n := 2) hlen h
  obtain ⟨y, z, rfl⟩ := List.length_eq_two.mp hzs
  obtain ⟨rfl, hT, p, q, hread, rfl, hT', u, v, hread', -⟩ := hrow'
  refine Safe.kinded fun hk => ?_
  obtain ⟨-, hp, -⟩ := hk.cell_of_read (.cell hT) hread
  obtain ⟨-, hu, -⟩ := hk.cell_of_read (.cell hT') hread'
  refine safe_refGet hargs hread rfl fun t₄ q₄ _ hq₄ => ?_
  refine safe_type hq₄ hp fun payload hreadp hshape => safe_ite (fun _ => safe_message) fun htype => ?_
  obtain ⟨x, y, rfl, hcell, hx, hy⟩ := hshape.cell_of_type (not_not.mp htype)
  refine safe_refGet hargs hread rfl fun t₅ q₅ _ hq₅ => ?_
  refine safe_refGet hargs hread rfl fun t₆ q₆ hle₆ hq₆ => ?_
  refine safe_get hq₆ hread' rfl fun t₇ q₇ hle₇ hq₇ => ?_
  refine safe_set (hle₇ _ _ (hle₆ _ _ hq₅)) hq₇ hcell nofun hreadp rfl (.cell hu hy) (fun _ _ => nofun) ?_
  exact (refGet_safe hargs hT (.inl rfl)).popped fun _ heq => ⟨_, congrArg List.tail heq⟩

/-- `prim_setq` -/
theorem primSetq_safe (ha : Val c T a) :
    Safe c tbl A s T ⟨heap, f.set j a :: root, t, w⟩ (Yields c (Behind root))
      (primSetq eval limit env (.slot root.length j)) := by
  rw [primSetq]
  have hlist : At c (f.set j a :: root) (.slot root.length j) a := at_self (by simp [hj])
  refine safe_length hlist ha fun t₁ len hlen => safe_ite (fun _ => safe_message) fun h => ?_
  obtain ⟨xs, hrow, hxs⟩ := row_of_length (n := 2) hlen h
  obtain ⟨y, z, rfl⟩ := List.length_eq_two.mp hxs
  obtain ⟨rfl, hT, p, q, hread, rfl, hT', u, v, hread', -⟩ := hrow
  refine Safe.kinded fun hk => ?_
  obtain ⟨-, hp, -⟩ := hk.cell_of_read (.cell hT) hread
  obtain ⟨-, hu, -⟩ := hk.cell_of_read (.cell hT') hread'
  refine safe_refGet hlist hread rfl fun t₂ q₂ _ hq₂ => ?_
  refine safe_type hq₂ hp fun payload hreadp hshape => safe_ite (fun _ => safe_message) fun htype => ?_
  obtain ⟨name, rfl, -⟩ := hshape.symbol_of_type (not_not.mp htype)
  refine safe_define ?_
  refine safe_refGet hlist.cons hread rfl fun t₃ q₃ _ hq₃ => ?_
  refine (find_safe limit (henv _).cons he hq₃).still fun q₄ t₄ _ hq₄ => ?_
  obtain ⟨b, hq₄, hb⟩ := hq₄
  refine safe_assign_self hq₄ (safe_star (at_self rfl) fun t₅ q₅ _ hq₅ => ?_)
  refine safe_iteIs hq₅ has_null (fun _ => ?_) fun hne => ?_
  · refine safe_refGet hlist.cons hread rfl fun t₆ q₆ _ hq₆ => ?_
    exact safe_name hq₆ hreadp safe_message
  have hbind := hb.resolve_left hne
  refine safe_refGet hlist.cons hread rfl fun t₆ q₆ _ hq₆ => ?_
  refine safe_get hq₆ hread' rfl fun t₇ q₇ _ hq₇ => safe_assign_self hq₇ ?_
  refine (heval (henv _).cons he (at_self rfl) hu).bind fun q₈ T₈ heap₈ frames₈ t₈ w₈ hev hq₈ => ?_
  obtain ⟨rfl, v', hq₈, hv'⟩ := hq₈
  refine safe_assign_self hq₈ (safe_star (at_self rfl) fun t₉ q₉ _ hq₉ => ?_)
  refine safe_star (at_self rfl) fun t₁₀ q₁₀ hle hq₁₀ => Safe.kinded fun hk₈ => ?_
  have hbind₈ := hev.kinds _ _ hbind
  obtain ⟨key, old, hreadb, -⟩ := hk₈.bind hbind₈
  refine safe_set (hle _ _ hq₉) hq₁₀ hbind₈ nofun hreadb rfl (.bind hv') nofun ?_
  exact (star_safe (at_self rfl) hv').popped fun _ heq => ⟨_, congrArg List.tail heq⟩

/-- The loop of `prim_while`. -/
theorem whileLoop_safe (n : ℕ) {z v y : ℕ} (ha : T a = some .cell)
    (hread : heap.read a = some (.cell x y)) (hrow : Row c T heap.read xs y) (hv : Val c T v) :
    Safe c tbl A s T ⟨heap, [v, z] :: f.set j a :: root, t, w⟩ (Yields c (∃ g, · = g :: f.set j a :: root))
      (whileLoop eval limit env (.slot root.length j) (.slot (root.length + 1) 0)
        (.slot (root.length + 1) 1) n) := by
  have hlist : ∀ {own}, At c (own :: f.set j a :: root) (.slot root.length j) a :=
    At.cons (at_self (by simp [hj]))
  induction n generalizing s T heap t w x z with
  | zero => exact safe_outOfFuel
  | succ n ih =>
      rw [whileLoop]
      refine (heval (henv a).cons he (at_self rfl) hv).bind
        fun q₁ T₁ heap₁ frames₁ t₁ w₁ hev₁ hq₁ => ?_
      obtain ⟨rfl, b, hq₁, hb⟩ := hq₁
      refine safe_iteIs hq₁ has_nil (fun _ => safe_ok ⟨⟨_, rfl⟩, c.constNil, has_nil, val_nil⟩) fun _ => ?_
      obtain ⟨x₁, hread₁⟩ := hev₁.cells a x y ha hread
      refine safe_refGet hlist hread₁ rfl fun t₂ q₂ _ hq₂ => ?_
      refine safe_assign_self hq₂ ?_
      refine safe_arguments (g := []) (f := [v, z]) (j := 1) heval
        (by simp) (fun _ => (henv a).cons) (hev₁.kinds _ _ he) (hrow.mono hev₁)
        fun T₃ heap₃ t₃ w₃ q₃ b ys hev₃ _ _ _ _ => ?_
      have hev := hev₁.trans hev₃
      obtain ⟨x₃, hread₃⟩ := hev.cells a x y ha hread
      exact ih (hev.kinds _ _ he) (hev.kinds _ _ ha) hread₃ (hrow.mono hev) (hv.mono hev.kinds)

/-- `prim_while` -/
theorem primWhile_safe (n : ℕ) (ha : Val c T a) :
    Safe c tbl A s T ⟨heap, f.set j a :: root, t, w⟩ (Yields c (Behind root))
      (primWhile eval limit n env (.slot root.length j)) := by
  rw [primWhile]
  have hlist : At c (f.set j a :: root) (.slot root.length j) a := at_self (by simp [hj])
  refine safe_length hlist ha fun t₁ len hlen => safe_ite (fun _ => safe_message) fun h => ?_
  obtain ⟨xs, hrow, rfl⟩ := hlen.resolve_left (by omega)
  match xs, hrow, h with
  | [], _, h => exact absurd (by simp) h
  | y :: ys, hrow, h =>
    obtain ⟨rfl, hT, p, q, hread, hrest⟩ := hrow
    refine Safe.kinded fun hk => ?_
    obtain ⟨-, hp, -⟩ := hk.cell_of_read (.cell hT) hread
    refine safe_define ?_
    refine safe_refGet hlist.cons hread rfl fun t₂ q₂ _ hq₂ => safe_assign_self hq₂ ?_
    refine (whileLoop_safe heval hj henv he n hT hread hrest hp).popped ?_
    rintro _ ⟨g, rfl⟩
    exact ⟨_, rfl⟩

/-- `prim_plus` of a proper list. -/
theorem primPlus_safe (hrow : Row c T heap.read xs a) :
    Safe c tbl A s T ⟨heap, f.set j a :: root, t, w⟩ (Yields c (Behind root))
      (primPlus eval limit env (.slot root.length j)) := by
  rw [primPlus]
  refine safe_arguments heval hj henv he (g := []) hrow
    fun T₁ heap₁ t₁ w₁ q₁ b ys _ hq₁ hys _ _ => ?_
  rw [sumOf]
  refine (plusLoop_safe limit hq₁ hys).still fun sum t₂ _ _ => ?_
  exact makeInt_safe.framed fun _ heq => ⟨_, heq⟩

/-- `prim_minus` of a proper list with an element. -/
theorem primMinus_safe (hrow : Row c T heap.read (x :: xs) a) :
    Safe c tbl A s T ⟨heap, f.set j a :: root, t, w⟩ (Yields c (Behind root))
      (primMinus eval limit env (.slot root.length j)) := by
  rw [primMinus]
  refine safe_arguments heval hj henv he (g := []) hrow
    fun T₁ heap₁ t₁ w₁ q₁ b ys _ hq₁ hys hlength _ => ?_
  rw [differenceOf]
  refine (checkInts_safe limit hq₁ hys).still fun _ t₂ hle₂ hints => ?_
  cases ys with
  | nil => cases hlength
  | cons y ys =>
      obtain ⟨rfl, hT, p, q, hread, hrest⟩ := hys
      obtain ⟨hy, hints⟩ := List.forall_mem_cons.mp hints
      obtain ⟨m, hreadp⟩ := hy p q hread
      have hb := hle₂ _ _ hq₁
      refine safe_get hb hread rfl fun t₃ q₃ hle₃ hq₃ => ?_
      refine safe_iteIs hq₃ has_nil (fun _ => ?_) fun _ => ?_
      · refine safe_get (hle₃ _ _ hb) hread rfl fun t₄ q₄ _ hq₄ => safe_value hq₄ hreadp ?_
        exact makeInt_safe.framed fun _ heq => ⟨_, heq⟩
      · refine safe_get (hle₃ _ _ hb) hread rfl fun t₄ q₄ hle₄ hq₄ => safe_value hq₄ hreadp ?_
        refine safe_get (hle₄ _ _ (hle₃ _ _ hb)) hread rfl fun t₅ q₅ _ hq₅ => ?_
        refine (minusLoop_safe limit hq₅ hrest hints).still fun r t₆ _ _ => ?_
        exact makeInt_safe.framed fun _ heq => ⟨_, heq⟩

/-- `prim_lt` of a proper list. -/
theorem primLt_safe (hrow : Row c T heap.read xs a) :
    Safe c tbl A s T ⟨heap, f.set j a :: root, t, w⟩ (Yields c (Behind root))
      (primLt eval limit env (.slot root.length j)) := by
  rw [primLt]
  refine safe_arguments heval hj henv he (g := []) hrow
    fun T₁ heap₁ t₁ w₁ q₁ b ys _ hq₁ hys _ _ => ?_
  rw [lessThan]
  refine (length_safe limit hq₁ hys.val).still fun len t₂ hle₂ hlen => ?_
  refine safe_ite (fun _ => safe_message) fun h => ?_
  obtain ⟨zs, hrow', hzs⟩ := row_of_length (n := 2) hlen h
  obtain ⟨y, z, rfl⟩ := List.length_eq_two.mp hzs
  exact (compareInts_safe (hle₂ _ _ hq₁) hrow').framed fun _ heq => ⟨_, heq⟩

/-- `prim_num_eq` -/
theorem primNumEq_safe (ha : Val c T a) :
    Safe c tbl A s T ⟨heap, f.set j a :: root, t, w⟩ (Yields c (Behind root))
      (primNumEq eval limit env (.slot root.length j)) := by
  rw [primNumEq]
  refine safe_length (at_self (by simp [hj])) ha fun t₁ len hlen => ?_
  refine safe_ite (fun _ => safe_message) fun h => ?_
  obtain ⟨xs, hrow, hxs⟩ := row_of_length (n := 2) hlen h
  refine safe_arguments heval hj henv he (g := []) hrow
    fun T₁ heap₁ t₁ w₁ q₁ b ys _ hq₁ hys hlength _ => ?_
  obtain ⟨y, z, rfl⟩ := List.length_eq_two.mp (hlength.trans hxs)
  exact (compareInts_safe hq₁ hys).framed fun _ heq => ⟨_, heq⟩

/-- `prim_eq` -/
theorem primEq_safe (ha : Val c T a) :
    Safe c tbl A s T ⟨heap, f.set j a :: root, t, w⟩ (Yields c (Behind root))
      (primEq eval limit env (.slot root.length j)) := by
  rw [primEq]
  refine safe_length (at_self (by simp [hj])) ha fun t₁ len hlen => ?_
  refine safe_ite (fun _ => safe_message) fun h => ?_
  obtain ⟨xs, hrow, hxs⟩ := row_of_length (n := 2) hlen h
  refine safe_arguments heval hj henv he (g := []) hrow
    fun T₁ heap₁ t₁ w₁ q₁ b ys _ hq₁ hys hlength _ => ?_
  obtain ⟨y, z, rfl⟩ := List.length_eq_two.mp (hlength.trans hxs)
  obtain ⟨rfl, hT, p, q, hread, rfl, hT', u, v, hread', -⟩ := hys
  refine safe_get hq₁ hread rfl fun t₂ q₂ hle₂ hq₂ => ?_
  refine safe_get (hle₂ _ _ hq₁) hread rfl fun t₃ q₃ hle₃ hq₃ => ?_
  refine safe_get hq₃ hread' rfl fun t₄ q₄ hle₄ hq₄ => ?_
  refine safe_iteIs (hle₄ _ _ (hle₃ _ _ hq₂)) hq₄ (fun _ => ?_) fun _ => ?_
  · exact safe_ok ⟨⟨_, rfl⟩, _, has_constTrue, val_constTrue⟩
  · exact safe_ok ⟨⟨_, rfl⟩, _, has_nil, val_nil⟩

/-! ## one argument after the other -/

/-- `prim_define` -/
theorem primDefine_safe (ha : Val c T a) :
    Safe c tbl A s T ⟨heap, f.set j a :: root, t, w⟩ (Yields c (Behind root))
      (primDefine eval limit env (.slot root.length j)) := by
  rw [primDefine]
  have hlist : At c (f.set j a :: root) (.slot root.length j) a := at_self (by simp [hj])
  refine safe_length hlist ha fun t₁ len hlen => safe_ite (fun _ => safe_message) fun h => ?_
  obtain ⟨xs, hrow, hxs⟩ := row_of_length (n := 2) hlen h
  obtain ⟨y, z, rfl⟩ := List.length_eq_two.mp hxs
  obtain ⟨rfl, hT, p, q, hread, rfl, hT', u, v, hread', -⟩ := hrow
  refine Safe.kinded fun hk => ?_
  obtain ⟨-, hp, -⟩ := hk.cell_of_read (.cell hT) hread
  obtain ⟨-, hu, -⟩ := hk.cell_of_read (.cell hT') hread'
  refine safe_refGet hlist hread rfl fun t₂ q₂ _ hq₂ => ?_
  refine safe_type hq₂ hp fun _ _ _ => safe_ite (fun _ => safe_message) fun _ => safe_define ?_
  refine safe_refGet hlist.cons hread rfl fun t₃ q₃ _ hq₃ => safe_assign_self hq₃ ?_
  refine safe_refGet hlist.cons hread rfl fun t₄ q₄ _ hq₄ => ?_
  refine safe_get hq₄ hread' rfl fun t₅ q₅ _ hq₅ => safe_assign_self hq₅ ?_
  refine (heval (henv _).cons he (at_self rfl) hu).bind fun q₆ T₆ heap₆ frames₆ t₆ w₆ hev hq₆ => ?_
  obtain ⟨rfl, v', hq₆, hv'⟩ := hq₆
  refine safe_assign_self hq₆ ?_
  refine (addVariable_safe (henv _).cons (hev.kinds _ _ he) (at_self rfl) hv').bind
    fun _ T₇ heap₇ frames₇ t₇ w₇ hev₇ hframes => ?_
  obtain rfl : frames₇ = _ := hframes
  exact (star_safe (at_self rfl) (hv'.mono hev₇.kinds)).popped
    fun _ heq => ⟨_, congrArg List.tail heq⟩

/-- `prim_println`, with an argument. -/
theorem printFirst_safe (ha : T a = some .cell) :
    Safe c tbl A s T ⟨heap, f.set j a :: root, t, w⟩ (fun _ _ m' => m'.frames = f.set j a :: root)
      (printFirst eval limit env (.slot root.length j)) := by
  rw [printFirst]
  have hlist : At c (f.set j a :: root) (.slot root.length j) a := at_self (by simp [hj])
  refine Safe.kinded fun hk => safe_define ?_
  obtain ⟨p, q, hread, hp, -⟩ := hk.cell ha
  refine safe_refGet hlist.cons hread rfl fun t₁ q₁ _ hq₁ => safe_assign_self hq₁ ?_
  refine (heval (henv _).cons he (at_self rfl) hp).bind fun q₂ T₂ heap₂ frames₂ t₂ w₂ hev hq₂ => ?_
  obtain ⟨rfl, v, hq₂, hv⟩ := hq₂
  refine prints_bind (print_safe limit hq₂ hv) fun t₃ w₃ _ => ?_
  exact safe_tail (safe_write fun _ => safe_ok rfl)

/-- `prim_sleep`, with an argument. -/
theorem primSleep_safe (ha : T a = some .cell) :
    Safe c tbl A s T ⟨heap, f.set j a :: root, t, w⟩ (Yields c (Behind root))
      (primSleep eval env (.slot root.length j)) := by
  rw [primSleep]
  have hlist : At c (f.set j a :: root) (.slot root.length j) a := at_self (by simp [hj])
  refine Safe.kinded fun hk => safe_define ?_
  obtain ⟨p, q, hread, hp, -⟩ := hk.cell ha
  refine safe_refGet hlist.cons hread rfl fun t₁ q₁ _ hq₁ => safe_assign_self hq₁ ?_
  refine (heval (henv _).cons he (at_self rfl) hp).bind fun q₂ T₂ heap₂ frames₂ t₂ w₂ hev hq₂ => ?_
  obtain ⟨rfl, v, hq₂, hv⟩ := hq₂
  refine safe_assign_self hq₂ ?_
  rw [sleepFor]
  refine safe_refType (at_self rfl) hv fun t₃ payload _ hread' hshape => ?_
  refine safe_ite (fun _ => safe_message) fun htype => ?_
  obtain ⟨m, rfl⟩ := hshape.int_of_type (not_not.mp htype)
  refine safe_star (at_self rfl) fun t₄ q₄ _ hq₄ => safe_value hq₄ hread' ?_
  exact safe_op rfl rfl rfl (safe_ok ⟨⟨_, rfl⟩, _, has_nil, val_nil⟩)

/-- `prim_if` -/
theorem primIf_safe (ha : Val c T a) :
    Safe c tbl A s T ⟨heap, f.set j a :: root, t, w⟩ (Yields c (Behind root))
      (primIf eval limit env (.slot root.length j)) := by
  rw [primIf]
  have hlist : At c (f.set j a :: root) (.slot root.length j) a := at_self (by simp [hj])
  refine safe_length hlist ha fun t₁ len hlen => safe_ite (fun _ => safe_message) fun h => ?_
  obtain ⟨xs, hrow, rfl⟩ := hlen.resolve_left (by omega)
  match xs, hrow, h with
  | [], _, h => exact absurd (by simp) h
  | [_], _, h => exact absurd (by simp) h
  | y :: z :: zs, hrow, h =>
    obtain ⟨rfl, hT, p, q, hread, rfl, hT', u, v, hread', hrest⟩ := hrow
    refine Safe.kinded fun hk => safe_define ?_
    obtain ⟨-, hp, -⟩ := hk.cell_of_read (.cell hT) hread
    refine safe_refGet hlist.cons hread rfl fun t₂ q₂ _ hq₂ => safe_assign_self hq₂ ?_
    refine (heval (henv _).cons he (at_self rfl) hp).bind fun q₃ T₃ heap₃ frames₃ t₃ w₃ hev hq₃ => ?_
    obtain ⟨rfl, b, hq₃, hb⟩ := hq₃
    obtain ⟨p₃, hread₃⟩ := hev.cells a p q hT hread
    obtain ⟨u₃, hread₃'⟩ := hev.cells q u v hT' hread'
    refine safe_assign_self hq₃ (safe_star (at_self rfl) fun t₄ q₄ _ hq₄ => ?_)
    refine safe_iteIs hq₄ has_nil (fun _ => ?_) fun _ => ?_
    · refine safe_refGet hlist.cons hread₃ rfl fun t₅ q₅ _ hq₅ => ?_
      refine safe_get hq₅ hread₃' rfl fun t₆ q₆ _ hq₆ => safe_assign_self hq₆ ?_
      refine safe_star (at_self rfl) fun t₇ q₇ _ hq₇ => ?_
      refine safe_iteIs hq₇ has_nil (fun _ => safe_ok ⟨⟨_, rfl⟩, _, has_nil, val_nil⟩) fun hne => ?_
      cases zs with
      | nil => exact absurd hrest hne
      | cons z' zs =>
          exact (progn_safe heval (henv _).cons (hev.kinds _ _ he) (at_self rfl)
            (hrest.mono hev)).popped fun _ heq => ⟨_, congrArg List.tail heq⟩
    · refine safe_refGet hlist.cons hread₃ rfl fun t₅ q₅ _ hq₅ => ?_
      refine safe_get hq₅ hread₃' rfl fun t₆ q₆ _ hq₆ => safe_assign_self hq₆ ?_
      refine Safe.kinded fun hk₃ => ?_
      obtain ⟨-, hu₃, -⟩ := hk₃.cell_of_read (.cell (hev.kinds _ _ hT')) hread₃'
      exact (heval (henv _).cons (hev.kinds _ _ he) (at_self rfl) hu₃).popped
        fun _ heq => ⟨_, congrArg List.tail heq⟩

end arguments

end primitives

end KernelPanic.Minilisp.Evaluator
