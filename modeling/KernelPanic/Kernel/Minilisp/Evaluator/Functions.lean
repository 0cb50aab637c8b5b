import KernelPanic.Kernel.Minilisp.Evaluator.Environment

/-!
# KernelPanic.Kernel.Minilisp.Evaluator.Functions

The functions of the evaluator between `eval` and itself make no wrong access, if
`eval` makes none (`Sound`).
-/

namespace KernelPanic.Minilisp.Evaluator

open Machine Prog Kinds

/-- A function like `eval` makes no wrong access, and returns a value. -/
def Sound (c : Statics) (tbl : List Entry) (A : Call → Machine Ideal → Prop) (eval : Evaluates) : Prop :=
  ∀ {s : Origin} {T : Kinds} {heap : Ideal} {frames : Frames} {t : Handles} {w : World}
    {env obj : Ref} {e a : ℕ}, At c frames env e → T e = some .env → At c frames obj a →
    Val c T a → Safe c tbl A s T ⟨heap, frames, t, w⟩ (Yields c (· = frames)) (eval env obj)

section functions

variable {A : Call → Machine Ideal → Prop} {c : Statics} {tbl : List Entry} {s : Origin} {T : Kinds} {heap : Ideal} {frames : Frames}
  {t : Handles} {w : World} {eval : Evaluates} {limit a e x y : ℕ} {xs : List ℕ} {env list : Ref}

/-! ## `progn` -/

/-- The loop of `progn`. -/
theorem prognLoop_safe (heval : Sound c tbl A eval) (n : ℕ) (henv : At c frames env e)
    (he : T e = some .env) (hrow : Row c T heap.read xs a) (hx : xs = [] → Val c T x) :
    Safe c tbl A s T ⟨heap, [a, x] :: frames, t, w⟩ (Yields c (∃ f, · = f :: frames))
      (prognLoop eval env (.slot frames.length 0) (.slot frames.length 1) n) := by
  induction n generalizing s T heap t w xs a x with
  | zero => exact safe_outOfFuel
  | succ n ih =>
      rw [prognLoop]
      refine safe_star (at_self rfl) fun t₁ q₁ _ hq₁ => Safe.kinded fun hk => ?_
      cases xs with
      | nil =>
          refine safe_iteIs hq₁ has_nil (fun _ => ?_) fun hne => absurd hrow hne
          refine safe_tail (safe_star (at_self rfl) fun t₂ q₂ _ hq₂ => ?_)
          exact safe_ok ⟨⟨_, rfl⟩, x, hq₂, hx rfl⟩
      | cons y ys =>
          obtain ⟨rfl, hT, p, q, hread, hrest⟩ := hrow
          refine safe_iteIs hq₁ has_nil (fun hnil => absurd hnil (hk.ne_nil hT)) fun _ => ?_
          refine safe_refGet (at_self rfl) hread rfl fun t₂ q₂ _ hq₂ => safe_assign_self hq₂ ?_
          refine (heval henv.cons he (at_self rfl) (hk.cell_of_read (.cell hT) hread).2.1).bind
            fun q₃ T₃ heap₃ frames₃ t₃ w₃ hev hq₃ => ?_
          obtain ⟨rfl, v, hq₃, hv⟩ := hq₃
          refine safe_assign_self hq₃ ?_
          obtain ⟨p', hread₃⟩ := hev.cells a p q hT hread
          refine safe_refGet (at_self rfl) hread₃ rfl fun t₄ q₄ _ hq₄ => safe_assign_self hq₄ ?_
          exact ih (hev.kinds _ _ he) (hrest.mono hev) fun _ => hv

/-- **`progn`** of a list with an element. -/
theorem progn_safe (heval : Sound c tbl A eval) (henv : At c frames env e) (he : T e = some .env)
    (hlist : At c frames list a) (hrow : Row c T heap.read (y :: xs) a) :
    Safe c tbl A s T ⟨heap, frames, t, w⟩ (Yields c (· = frames)) (progn eval limit env list) := by
  rw [progn]
  refine safe_define (safe_star hlist.cons fun t₁ q₁ _ hq₁ => safe_assign_self hq₁ ?_)
  refine (prognLoop_safe heval limit henv he hrow nofun).popped ?_
  rintro _ ⟨f, rfl⟩
  rfl

/-! ## `eval_list` -/

section evalList

variable {g root : Frames} {f : List ℕ} {j : ℕ}

/-- The loop of `eval_list`, whose values so far are in `head`. -/
theorem evalListLoop_safe (heval : Sound c tbl A eval) (n : ℕ) {h z : ℕ} {T₀ : Kinds} {ys : List ℕ}
    (hj : j < f.length) (henv : ∀ a, At c (g ++ f.set j a :: root) env e) (he : T e = some .env)
    (hrow : Row c T heap.read xs a) (hys : Row c T heap.read ys h) (hle : T₀.Le T)
    (hfresh : ∀ y ∈ ys, T₀ y = none) {d : ℕ} (hd : d = (g ++ f.set j a :: root).length) :
    Safe c tbl A s T ⟨heap, ([h, z, x, y] :: g) ++ f.set j a :: root, t, w⟩
      (fun _ T' m' => ∃ h x y zs,
        m'.frames = ([h, z, x, y] :: g) ++ f.set j c.constNil :: root ∧
        Row c T' m'.heap.read zs h ∧ zs.length = xs.length + ys.length ∧ ∀ y ∈ zs, T₀ y = none)
      (evalListLoop eval env (.slot root.length j) (.slot d 0) (.slot d 2) (.slot d 3) n) := by
  have hdepth : ∀ a, (g ++ f.set j a :: root).length = d := fun a => by
    rw [hd]
    simp only [List.length_append, List.length_cons]
  have hself : ∀ {frame : List ℕ} {a k v : ℕ}, frame[k]? = some v →
      At c (frame :: (g ++ f.set j a :: root)) (.slot d k) v := fun {_ a _ _} hk =>
    hdepth a ▸ at_self hk
  have hlist : ∀ {frame : List ℕ} {a : ℕ},
      At c (frame :: (g ++ f.set j a :: root)) (.slot root.length j) a :=
    At.cons (at_slot (by simp [hj]))
  have hassign : ∀ {s : Origin} {T : Kinds} {heap : Ideal} {t : Handles} {w : World}
      {frame : List ℕ} {a k b : ℕ} {p : Ptr} {code : Unit → Code Unit}
      {R : Unit → Kinds → Machine Ideal → Prop}, t.Has (ideal c) c p b →
      Safe c tbl A s T ⟨heap, frame.set k b :: (g ++ f.set j a :: root), t, w⟩ R (code ()) →
      Safe c tbl A s T ⟨heap, frame :: (g ++ f.set j a :: root), t, w⟩ R
        (assign (.slot d k) p >>= code) := by
    intro s T heap t w frame a k b p code R hp hcode
    rw [← hdepth a]
    exact safe_assign_self hp hcode
  clear hd
  induction n generalizing s T heap t w xs ys a h x y with
  | zero => exact safe_outOfFuel
  | succ n ih =>
      rw [evalListLoop]
      refine safe_star hlist fun t₁ q₁ _ hq₁ => Safe.kinded fun hk => ?_
      cases xs with
      | nil =>
          obtain rfl : a = c.constNil := hrow
          refine safe_iteIs hq₁ has_nil (fun _ => ?_) fun hne => absurd rfl hne
          exact safe_ok ⟨h, x, y, ys, rfl, hys, by simp, hfresh⟩
      | cons u us =>
          obtain ⟨rfl, hT, p, q, hread, hrest⟩ := hrow
          refine safe_iteIs hq₁ has_nil (fun hnil => absurd hnil (hk.ne_nil hT)) fun _ => ?_
          refine safe_refGet hlist hread rfl fun t₂ q₂ _ hq₂ => hassign hq₂ ?_
          refine (heval (henv a).cons he (hself rfl) (hk.cell_of_read (.cell hT) hread).2.1).bind
            fun q₃ T₃ heap₃ frames₃ t₃ w₃ hev hq₃ => ?_
          obtain ⟨rfl, v, hq₃, hv⟩ := hq₃
          refine hassign hq₃ ?_
          have hys₃ := hys.mono hev
          refine safe_cons (hself rfl) (hself rfl) hv hys₃.val
            fun T₄ heap₄ t₄ q₄ h' hev₄ hh' hnone hread₄ hq₄ => ?_
          refine hassign hq₄ ?_
          have hev' := hev.trans hev₄
          obtain ⟨p', hread'⟩ := hev'.cells a p q hT hread
          refine safe_refGet hlist hread' rfl fun t₅ q₅ _ hq₅ => ?_
          refine safe_assign_slot (g := _ :: g) hq₅ ?_
          have hdone : Row c T₄ heap₄.read (h' :: ys) h' :=
            ⟨rfl, hh', v, h, hread₄, hys₃.mono hev₄⟩
          refine (ih (hev'.kinds _ _ he) (hrest.mono hev') hdone
            (hle.trans hev'.kinds) ?_).mono fun _ T' m' hres => ?_
          · exact List.forall_mem_cons.mpr ⟨(hle.trans hev.kinds).none hnone, hfresh⟩
          · obtain ⟨h, x, y, zs, hframes, hzs, hlength, hfresh⟩ := hres
            refine ⟨h, x, y, zs, hframes, hzs, ?_, hfresh⟩
            simp only [List.length_cons] at hlength ⊢
            omega

/-- **`eval_list`** of a proper list is a new list of that length. -/
theorem evalList_safe (heval : Sound c tbl A eval) (hj : j < f.length)
    (henv : ∀ a, At c (g ++ f.set j a :: root) env e) (he : T e = some .env)
    (hrow : Row c T heap.read xs a) :
    Safe c tbl A s T ⟨heap, g ++ f.set j a :: root, t, w⟩
      (fun q T' m' => m'.frames = g ++ f.set j c.constNil :: root ∧
        ∃ b ys, m'.table.Has (ideal c) c q b ∧ Row c T' m'.heap.read ys b ∧
          ys.length = xs.length ∧ ∀ y ∈ ys, T y = none)
      (evalList eval limit env (.slot root.length j)) := by
  rw [evalList]
  refine Safe.evolved fun hev => safe_define (safe_assign_self has_nil ?_)
  have hnil : Row c T heap.read [] c.constNil := rfl
  refine (evalListLoop_safe heval limit hj henv he hrow hnil .refl (by simp) rfl).bind
    fun _ T₁ heap₁ frames₁ t₁ w₁ hev₁ hx => ?_
  obtain ⟨h, x, y, zs, rfl, hzs, hlength, hfresh⟩ := hx
  have hlen : (g ++ f.set j a :: root).length = (g ++ f.set j c.constNil :: root).length := by simp
  rw [hlen]
  refine safe_star (at_self rfl) fun t₂ q₂ _ hq₂ => ?_
  refine (reverse_safe limit hq₂ hzs fun z hz => hev.kinds.none (hfresh z hz)).mono
    fun q T' m' hx => ?_
  obtain ⟨rfl, hframes, b, hq, hrow'⟩ := hx
  refine ⟨congrArg List.tail hframes, b, zs.reverse, hq, hrow', ?_, fun y hy => ?_⟩
  · rw [List.length_reverse, hlength, List.length_nil, add_zero]
  · exact hfresh y (List.mem_reverse.mp hy)

end evalList

/-! ## `apply_func` -/

/-- A reference is to a value, which is returned. -/
theorem star_safe {r : Ref} (hr : At c frames r a) (ha : Val c T a) :
    Safe c tbl A s T ⟨heap, frames, t, w⟩ (Yields c (· = frames)) (star r) :=
  safe_tail (safe_star hr fun _ _ _ hq => safe_ok ⟨rfl, a, hq, ha⟩)

section applyFunc

variable {root : Frames} {f : List ℕ} {j n params body : ℕ} {payload : Payload} {fn : Ref}

/-- The members of a function or a macro. -/
structure Callable (c : Statics) (T : Kinds) (heap : Ideal) (x params body env : ℕ) : Prop where
  kind : T x = some .atom
  read : heap.read x = some (.function params body env) ∨
    heap.read x = some (.macroFn params body env)
  params : Val c T params
  body : T body = some .cell
  env : T env = some .env

theorem Callable.mono {T' : Kinds} {heap' : Ideal} (h : Callable c T heap x params body e)
    (hev : Evolves T heap T' heap') : Callable c T' heap' x params body e where
  kind := hev.kinds _ _ h.kind
  read := by rw [hev.atoms x h.kind]; exact h.read
  params := h.params.mono hev.kinds
  body := hev.kinds _ _ h.body
  env := hev.kinds _ _ h.env

theorem Callable.field {k : Ptr → Code Ptr} {R : Ptr → Kinds → Machine Ideal → Prop} {r : Ref}
    {fld : Field} {b : ℕ} (h : Callable c T heap x params body e) (hr : At c frames r x)
    (hb : (fld, b) ∈ [(Field.params, params), (.body, body), (.env, e)])
    (hk : ∀ t' q, t'.Has (ideal c) c q b → Safe c tbl A s T ⟨heap, frames, t', w⟩ R (k q)) :
    Safe c tbl A s T ⟨heap, frames, t, w⟩ R (r.get fld >>= k) := by
  rcases h.read with hread | hread <;>
    refine safe_refGet hr hread ?_ fun t' q _ => hk t' q <;>
    simp only [List.mem_cons, Prod.mk.injEq, List.not_mem_nil, or_false] at hb <;>
    rcases hb with ⟨rfl, rfl⟩ | ⟨rfl, rfl⟩ | ⟨rfl, rfl⟩ <;> rfl

/-- **`apply_func`** of a function or a macro whose body is a proper list, if it comes to
evaluate the body. -/
theorem applyFunc_safe (heval : Sound c tbl (Call.Ok (ideal c) c) (Evaluator.eval limit n)) (hj : j < f.length)
    (hfn : ∀ a, At c (f.set j a :: root) fn x) (hx : Callable c T heap x params body e)
    (ha : Val c T a) :
    Safe c tbl (Call.Ok (ideal c) c) s T ⟨heap, f.set j a :: root, t, w⟩ (Yields c (∃ f, · = f :: root))
      (applyFunc (Evaluator.eval limit n) limit fn (.slot root.length j)) := by
  refine safe_call (.applyFunc limit n fn (.slot root.length j)) fun hok => Safe.kinded fun hk => ?_
  have hlist : At c (f.set j a :: root) (.slot root.length j) a := at_self (by simp [hj])
  simp only [Call.Ok, (hfn a).deref, hlist.deref] at hok
  rw [Call.code, applyFunc]
  refine safe_define ?_
  refine hx.field (hfn a).cons (b := params) (by simp) fun t₁ q₁ hq₁ => safe_assign_self hq₁ ?_
  refine hx.field (hfn a).cons (b := e) (by simp) fun t₂ q₂ hq₂ => safe_assign_self hq₂ ?_
  refine (pushEnv_safe limit hj hx.params ha hx.env).bind
    fun q₃ T₃ heap₃ frames₃ t₃ w₃ hev hq₃ => ?_
  obtain ⟨hbinds, ⟨v, a', rfl⟩, e', hq₃, he'⟩ := hq₃
  obtain ⟨xs, hrow⟩ := (hok params body e hx.read hbinds).row hk (.cell hx.body)
  refine safe_assign_self hq₃ ?_
  have hx₃ := hx.mono hev
  refine hx₃.field (hfn a').cons (b := body) (by simp) fun t₄ q₄ hq₄ => ?_
  refine safe_assign_self hq₄ ?_
  have hrow₃ := hrow.mono hev
  cases xs with
  | nil => exact absurd hrow (hk.ne_nil hx.body)
  | cons y ys =>
      exact (progn_safe heval (at_self rfl) he'
        (at_self rfl) hrow₃).popped fun _ heq => ⟨_, congrArg List.tail heq⟩

/-- **`macroexpand`** -/
theorem macroexpand_safe (heval : Sound c tbl (Call.Ok (ideal c) c) (Evaluator.eval limit n)) {obj : Ref}
    (henv : At c frames env e) (he : T e = some .env) (hobj : At c frames obj a) (ha : Val c T a) :
    Safe c tbl (Call.Ok (ideal c) c) s T ⟨heap, frames, t, w⟩ (Yields c (· = frames))
      (macroexpand (Evaluator.eval limit n) limit env obj) := by
  rw [macroexpand]
  refine safe_refType hobj ha fun t₁ payload _ hread hshape => ?_
  refine safe_ite (fun _ => star_safe hobj ha) fun htype => ?_
  obtain ⟨p, q, rfl, hT, hp, hq⟩ := hshape.cell_of_type (not_not.mp htype)
  refine safe_refGet hobj hread rfl fun t₂ q₂ _ hq₂ => ?_
  refine safe_type hq₂ hp fun payload _ _ => safe_ite (fun _ => star_safe hobj ha) fun _ => ?_
  refine safe_define ?_
  refine safe_refGet hobj.cons hread rfl fun t₃ q₃ _ hq₃ => ?_
  refine (find_safe limit henv.cons he hq₃).still fun q₄ t₄ _ hq₄ => ?_
  obtain ⟨b, hq₄, hb⟩ := hq₄
  refine safe_assign_self hq₄ (safe_star (at_self rfl) fun t₅ q₅ _ hq₅ => ?_)
  refine safe_iteIs hq₅ has_null (fun _ => ?_) fun hne => ?_
  · exact (star_safe hobj.cons ha).popped fun _ heq => congrArg List.tail heq
  refine Safe.kinded fun hk => ?_
  obtain ⟨k, v, hbind, hv⟩ := hk.bind (hb.resolve_left hne)
  refine safe_refGet (at_self rfl) hbind rfl fun t₆ q₆ _ hq₆ => ?_
  refine safe_type hq₆ hv fun payload' hread' hshape' => safe_ite (fun _ => ?_) fun htype' => ?_
  · exact (star_safe hobj.cons ha).popped fun _ heq => congrArg List.tail heq
  obtain ⟨params, body, fenv, rfl, hkind, hparams, hbody, hfenv⟩ :=
    hshape'.macro_of_type (not_not.mp htype')
  refine safe_refGet (at_self rfl) hbind rfl fun t₇ q₇ _ hq₇ => safe_assign_self hq₇ ?_
  refine safe_refGet hobj.cons hread rfl fun t₈ q₈ _ hq₈ => safe_assign_self hq₈ ?_
  refine (applyFunc_safe (f := [b, v, null]) heval (by simp) (fun a => at_self rfl)
    ⟨hkind, .inr hread', hparams, hbody, hfenv⟩ hq).popped ?_
  rintro _ ⟨f, rfl⟩
  rfl

end applyFunc

end functions

end KernelPanic.Minilisp.Evaluator
