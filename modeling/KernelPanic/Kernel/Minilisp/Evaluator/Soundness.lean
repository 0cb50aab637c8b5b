import KernelPanic.Kernel.Minilisp.Evaluator.Primitives

/-!
# KernelPanic.Kernel.Minilisp.Evaluator.Soundness

`eval` makes no wrong access, as far as its calls are checked.
-/

namespace KernelPanic.Minilisp.Evaluator

open Machine Prog Kinds

section soundness

variable {c : Statics} {tbl : List Entry} {s : Origin} {T : Kinds} {heap : Ideal} {frames root : Frames}
  {t : Handles} {w : World} {limit n k a e x : ℕ} {env fn obj : Ref} {f : List ℕ} {j : ℕ}

/-- A proper list that is not empty. -/
theorem row_cons (hk : Kinded c T tbl heap) (ha : Val c T a) (hproper : Proper c heap.read a)
    (hne : a ≠ c.constNil) : ∃ x xs, Row c T heap.read (x :: xs) a := by
  obtain ⟨xs, hrow⟩ := hproper.row hk ha
  cases xs with
  | nil => exact absurd hrow hne
  | cons x xs => exact ⟨x, xs, hrow⟩

/-- `prim_macroexpand` -/
theorem primMacroexpand_safe (heval : Sound c tbl (Call.Ok (ideal c) c) (eval limit n)) (hj : j < f.length)
    (henv : ∀ a, At c (f.set j a :: root) env e) (he : T e = some .env) (ha : Val c T a) :
    Safe c tbl (Call.Ok (ideal c) c) s T ⟨heap, f.set j a :: root, t, w⟩ (Yields c (Behind root))
      (primMacroexpand (eval limit n) limit env (.slot root.length j)) := by
  rw [primMacroexpand]
  have hlist : At c (f.set j a :: root) (.slot root.length j) a := at_self (by simp [hj])
  refine safe_length hlist ha fun t₁ len hlen => safe_ite (fun _ => safe_message) fun h => ?_
  obtain ⟨xs, hrow, hxs⟩ := row_of_length (n := 1) hlen h
  obtain ⟨y, rfl⟩ := List.length_eq_one_iff.mp hxs
  obtain ⟨rfl, hT, p, q, hread, -⟩ := hrow
  refine Safe.kinded fun hk => safe_define ?_
  obtain ⟨-, hp, -⟩ := hk.cell_of_read (.cell hT) hread
  refine safe_refGet hlist.cons hread rfl fun t₂ q₂ _ hq₂ => safe_assign_self hq₂ ?_
  exact (macroexpand_safe heval (henv _).cons he (at_self rfl) hp).popped
    fun _ heq => ⟨_, congrArg List.tail heq⟩

/-- `prim_println` and `prim_panic` print, and then return or stop. -/
theorem afterPrint_safe (heval : Sound c tbl (Call.Ok (ideal c) c) (eval limit n)) (hj : j < f.length)
    (henv : ∀ a, At c (f.set j a :: root) env e) (he : T e = some .env) (ha : T a = some .cell)
    {k : Unit → Code Ptr} (hk : ∀ T heap t w,
      Safe c tbl (Call.Ok (ideal c) c) s T ⟨heap, f.set j a :: root, t, w⟩ (Yields c (Behind root)) (k ())) :
    Safe c tbl (Call.Ok (ideal c) c) s T ⟨heap, f.set j a :: root, t, w⟩ (Yields c (Behind root))
      (printFirst (eval limit n) limit env (.slot root.length j) >>= k) := by
  refine (printFirst_safe heval hj henv he ha).bind fun _ T' heap' frames' t' w' _ hframes => ?_
  obtain rfl : frames' = _ := hframes
  exact hk T' heap' t' w'

/-- **A primitive** that is called with arguments it depends on. -/
theorem callPrimitive_safe (heval : Sound c tbl (Call.Ok (ideal c) c) (eval limit n)) (hj : j < f.length)
    (henv : ∀ a, At c (f.set j a :: root) env e) (he : T e = some .env) (hkind : k < 22)
    (hok : Call.PrimitiveOk c heap.read k a) (ha : a = c.constNil ∨ T a = some .cell) :
    Safe c tbl (Call.Ok (ideal c) c) s T ⟨heap, f.set j a :: root, t, w⟩ (Yields c (Behind root))
      (callPrimitive (eval limit n) limit n env (.slot root.length j) k) := by
  have hval : Val c T a := ha.elim (fun h => h ▸ val_nil) .cell
  have hlist : At c (f.set j a :: root) (.slot root.length j) a := at_self (by simp [hj])
  have hbehind : ∀ fr, fr = f.set j a :: root → Behind root fr := fun _ heq => ⟨_, heq⟩
  refine Safe.kinded fun hk => ?_
  have hcons := row_cons hk hval
  have hrow := fun h => Proper.row h hk hval
  match k, hkind with
  | 0, _ => exact (primQuote_safe hlist hval).framed hbehind
  | 1, _ => exact primCons_safe heval hj henv he hval
  | 2, _ =>
    obtain ⟨x, xs, h⟩ := hcons hok.1 hok.2
    exact primField_safe heval hj henv he (.inl rfl) h
  | 3, _ =>
    obtain ⟨x, xs, h⟩ := hcons hok.1 hok.2
    exact primField_safe heval hj henv he (.inr rfl) h
  | 4, _ => exact primSetq_safe heval hj henv he hval
  | 5, _ =>
    obtain ⟨xs, h⟩ := hrow hok
    exact primSetcar_safe heval hj henv he h
  | 6, _ => exact primWhile_safe heval hj henv he n hval
  | 7, _ => exact primGensym_safe.framed hbehind
  | 8, _ =>
    obtain ⟨xs, h⟩ := hrow hok
    exact primPlus_safe heval hj henv he h
  | 9, _ =>
    obtain ⟨x, xs, h⟩ := hcons hok.1 hok.2
    exact primMinus_safe heval hj henv he h
  | 10, _ =>
    obtain ⟨xs, h⟩ := hrow hok
    exact primLt_safe heval hj henv he h
  | 11, _ => exact primDefine_safe heval hj henv he hval
  | 12, _ => exact (handleDefun_safe (henv a) he hlist (ha.resolve_left hok)).framed hbehind
  | 13, _ => exact (handleDefun_safe (henv a) he hlist (ha.resolve_left hok)).framed hbehind
  | 14, _ => exact primMacroexpand_safe heval hj henv he hval
  | 15, _ => exact (handleFunction_safe (henv a) he hlist hval).framed hbehind
  | 16, _ => exact primIf_safe heval hj henv he hval
  | 17, _ => exact primNumEq_safe heval hj henv he hval
  | 18, _ => exact primEq_safe heval hj henv he hval
  | 19, _ =>
    exact afterPrint_safe heval hj henv he (ha.resolve_left hok)
      fun _ _ _ _ => safe_ok ⟨⟨_, rfl⟩, _, has_nil, val_nil⟩
  | 20, _ =>
    exact afterPrint_safe heval hj henv he (ha.resolve_left hok) fun _ _ _ _ => safe_message
  | 21, _ => exact primSleep_safe heval hj henv he (ha.resolve_left hok)
  | k + 22, hkind => exact absurd hkind (by omega)

/-- `apply` -/
theorem apply_safe (heval : Sound c tbl (Call.Ok (ideal c) c) (eval limit n)) (hj : j < f.length)
    (henv : ∀ a, At c (f.set j a :: root) env e) (he : T e = some .env)
    (hfn : ∀ a, At c (f.set j a :: root) fn x) (hx : Val c T x) (ha : Val c T a) :
    Safe c tbl (Call.Ok (ideal c) c) s T ⟨heap, f.set j a :: root, t, w⟩ (Yields c (Behind root))
      (apply (eval limit n) limit n env fn (.slot root.length j)) := by
  refine safe_call (.apply limit n env fn (.slot root.length j)) fun hok => ?_
  have hlist : At c (f.set j a :: root) (.slot root.length j) a := at_self (by simp [hj])
  simp only [Call.Ok, (hfn a).deref, hlist.deref] at hok
  rw [Call.code, apply]
  refine safe_star hlist fun t₁ q₁ _ hq₁ => (isList_safe hq₁ ha).still fun b t₂ _ hb => ?_
  refine safe_ite (fun _ => safe_message) fun h => Safe.kinded fun hk => ?_
  have hargs := hb (by simpa using h)
  obtain ⟨hprimitive, hfunction⟩ := hok <| hargs.imp id fun hT => by
    obtain ⟨p, q, hread, -⟩ := hk.cell hT
    exact ⟨p, q, hread⟩
  refine safe_refType (hfn a) hx fun t₃ payload _ hread hshape => ?_
  refine safe_ite (fun htype => ?_) fun _ => ?_
  · obtain ⟨k, hk, rfl⟩ := hshape.primitive_of_type htype
    refine safe_star (hfn a) fun t₄ q₄ _ hq₄ => safe_fn hq₄ hread ?_
    exact callPrimitive_safe heval hj henv he hk (hprimitive k hread) hargs
  refine safe_refType (hfn a) hx fun t₄ payload' _ hread' hshape' => ?_
  refine safe_ite (fun htype => ?_) fun _ => safe_message
  obtain ⟨params, body, fenv, rfl, hkind, hparams, hbody, hfenv⟩ := hshape'.function_of_type htype
  refine safe_define ?_
  obtain ⟨xs, hrow⟩ := (hfunction _ _ _ hread').row hk ha
  refine safe_arguments heval hj henv he (g := [_]) hrow
    fun T₅ heap₅ t₅ w₅ q₅ b ys hev hq₅ hys _ _ => ?_
  refine safe_assign_self hq₅ ?_
  have hcallable : Callable c T heap x params body fenv := ⟨hkind, .inl hread', hparams, hbody, hfenv⟩
  refine (applyFunc_safe (f := [b]) heval Nat.zero_lt_one
    (fun _ => (hfn _).cons) (hcallable.mono hev) hys.val).popped ?_
  rintro _ ⟨g, rfl⟩
  exact ⟨_, rfl⟩

/-- One level of `eval`. -/
theorem evalStep_safe (heval : Sound c tbl (Call.Ok (ideal c) c) (eval limit n)) :
    Sound c tbl (Call.Ok (ideal c) c) (evalStep (eval limit n) limit n) := by
  intro s T heap frames t w env obj e a henv he hobj ha
  rw [evalStep]
  refine safe_refType hobj ha fun t₁ payload _ hread hshape => ?_
  refine safe_ite (fun _ => star_safe hobj ha) fun _ => ?_
  refine safe_ite (fun htype => ?_) fun _ => safe_ite (fun htype => ?_) fun _ => safe_message
  · obtain ⟨name, rfl, -⟩ := hshape.symbol_of_type htype
    refine safe_star hobj fun t₂ q₂ _ hq₂ => ?_
    refine (find_safe limit henv he hq₂).still fun q₃ t₃ _ hq₃ => ?_
    obtain ⟨b, hq₃, hb⟩ := hq₃
    refine safe_iteIs hq₃ has_null (fun _ => ?_) fun hne => Safe.kinded fun hk => ?_
    · exact safe_star hobj fun t₄ q₄ _ hq₄ => safe_name hq₄ hread safe_message
    · obtain ⟨key, v, hbind, hv⟩ := hk.bind (hb.resolve_left hne)
      exact safe_tail (safe_get hq₃ hbind rfl fun _ _ _ h => safe_ok ⟨rfl, v, h, hv⟩)
  · obtain ⟨p, q, rfl, hT, hp, hq⟩ := hshape.cell_of_type htype
    refine safe_define ?_
    refine (macroexpand_safe heval henv.cons he hobj.cons ha).bind
      fun q₂ T₂ heap₂ frames₂ t₂ w₂ hev hq₂ => ?_
    obtain ⟨rfl, b, hq₂, hb⟩ := hq₂
    have he₂ := hev.kinds _ _ he
    refine safe_assign_self hq₂ (safe_star (at_self rfl) fun t₃ q₃ _ hq₃ => ?_)
    refine safe_star hobj.cons fun t₄ q₄ hle₄ hq₄ => safe_iteIs (hle₄ _ _ hq₃) hq₄ (fun _ => ?_)
      fun _ => ?_
    · obtain ⟨p', hread₂⟩ := hev.cells a p q hT hread
      refine Safe.kinded fun hk => ?_
      obtain ⟨-, hp', -⟩ := hk.cell_of_read (.cell (hev.kinds _ _ hT)) hread₂
      refine safe_refGet hobj.cons hread₂ rfl fun t₅ q₅ _ hq₅ => safe_assign_self hq₅ ?_
      refine (heval henv.cons he₂ (at_self rfl) hp').bind
        fun q₆ T₆ heap₆ frames₆ t₆ w₆ hev₆ hq₆ => ?_
      obtain ⟨rfl, v, hq₆, hv⟩ := hq₆
      refine safe_assign_self hq₆ ?_
      obtain ⟨p₆, hread₆⟩ := hev₆.cells a p' q (hev.kinds _ _ hT) hread₂
      refine safe_refGet hobj.cons hread₆ rfl fun t₇ q₇ _ hq₇ => safe_assign_self hq₇ ?_
      refine safe_refType (at_self rfl) hv fun t₈ _ _ _ _ => ?_
      refine safe_refType (at_self rfl) hv fun t₉ _ _ _ _ => ?_
      refine safe_ite (fun _ => safe_message) fun _ => ?_
      refine (apply_safe (f := [v, b, q]) heval (by simp) (fun _ => henv.cons)
        (hev₆.kinds _ _ he₂) (fun _ => at_self rfl) hv
        (hq.mono (hev.trans hev₆).kinds)).popped ?_
      rintro _ ⟨g, rfl⟩
      rfl
    · exact (heval henv.cons he₂ (at_self rfl) hb).popped fun _ heq => congrArg List.tail heq

/-- **`eval`** makes no wrong access, as far as its calls are checked. -/
theorem eval_safe : ∀ n, Sound c tbl (Call.Ok (ideal c) c) (eval limit n)
  | 0 => fun _ _ _ _ => safe_outOfFuel
  | n + 1 => evalStep_safe (eval_safe n)

end soundness

end KernelPanic.Minilisp.Evaluator
