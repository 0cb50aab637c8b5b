import KernelPanic.Kernel.Minilisp.Safe

/-!
# KernelPanic.Kernel.Minilisp.Evaluator.Environment

The functions of the evaluator that evaluate nothing make no wrong access.
-/

namespace KernelPanic.Minilisp.Evaluator

open Machine Prog Kinds

/-! ## lists -/

section lists

variable {A : Call → Machine Ideal → Prop} {c : Statics} {tbl : List Entry} {s : Origin} {T : Kinds} {heap : Ideal} {frames : Frames}
  {t : Handles} {w : World} {a y z : ℕ} {p : Ptr} {rx ry rz : Ref}

/-- The loop of `length`. -/
theorem lengthLoop_safe (limit : ℕ) {len : ℤ} (hp : t.Has (ideal c) c p a) (ha : Val c T a) :
    Safe c tbl A s T ⟨heap, frames, t, w⟩
      (Still c T heap frames t w fun res _ => res = -1 ∨
        ∃ xs, Row c T heap.read xs a ∧ res = len + xs.length) (lengthLoop limit p len) := by
  induction limit generalizing t p a len with
  | zero => exact safe_outOfFuel
  | succ limit ih =>
      rw [lengthLoop]
      refine safe_type hp ha fun payload hread hshape => safe_ite (fun htype => ?_) fun htype => ?_
      · obtain ⟨x, y, rfl, hT, -, hy⟩ := hshape.cell_of_type htype
        refine safe_get hp hread rfl fun t' q hle hq => ?_
        refine (ih hq hy).later hle fun res _ hres => hres.imp id ?_
        rintro ⟨xs, hxs, rfl⟩
        refine ⟨a :: xs, ⟨rfl, hT, x, y, hread, hxs⟩, ?_⟩
        push_cast [List.length_cons]
        omega
      · refine safe_iteIs hp has_nil (fun hnil => ?_) fun _ => ?_
        · exact still_ok .refl (.inr ⟨[], hnil, by simp⟩)
        · exact still_ok .refl (.inl rfl)

/-- **`length`** is that of a proper list, or -1. -/
theorem length_safe (limit : ℕ) (hp : t.Has (ideal c) c p a) (ha : Val c T a) :
    Safe c tbl A s T ⟨heap, frames, t, w⟩
      (Still c T heap frames t w fun res _ => res = -1 ∨
        ∃ xs, Row c T heap.read xs a ∧ res = (xs.length : ℤ)) (length limit p) :=
  (lengthLoop_safe limit hp ha).later .refl fun res _ hres => by simpa using hres

/-- `is_list` -/
theorem isList_safe (hp : t.Has (ideal c) c p a) (ha : Val c T a) :
    Safe c tbl A s T ⟨heap, frames, t, w⟩
      (Still c T heap frames t w fun res _ => res = true → a = c.constNil ∨ T a = some .cell)
      (isList p) := by
  rw [isList]
  refine safe_iteIs hp has_nil (fun hnil => still_ok .refl fun _ => .inl hnil) fun _ => ?_
  refine safe_type hp ha fun payload _ hshape => still_ok .refl fun htype => ?_
  obtain ⟨-, -, -, hT, -⟩ := hshape.cell_of_type (of_decide_eq_true htype)
  exact .inr hT

/-- `acons` makes a binding and puts it before the others. -/
theorem acons_safe (hy : At c frames ry y) (hz : At c frames rz z)
    (hyv : Val c T y) (hzv : Vars c T z) :
    Safe c tbl A s T ⟨heap, frames, t, w⟩
      (fun q T' m' => m'.frames = frames ∧
        ∃ a, m'.table.Has (ideal c) c q a ∧ T' a = some .spine) (acons rx ry rz) := by
  refine safe_define (safe_make (d := .bind) Request.fits_cons rfl (.bind ?_) ?_)
  · rwa [hy.cons.deref]
  intro T₁ heap₁ t₁ q₁ a₁ hev₁ ha₁ _ _ hq₁
  refine safe_assign_self hq₁ (safe_tail (safe_make (d := .spine) Request.fits_cons rfl (.spine ?_ ?_) ?_))
  · rwa [(at_self rfl : At c _ _ a₁).deref]
  · rw [hz.cons.deref]
    exact hzv.mono hev₁.kinds
  intro T₂ heap₂ t₂ q₂ a₂ _ ha₂ _ _ hq₂
  exact safe_ok ⟨rfl, a₂, hq₂, ha₂⟩

/-- `make_env` -/
theorem makeEnv_safe (hx : At c frames rx y) (hz : At c frames rz z) (hyv : Vars c T y)
    (hzv : Scope c T z) :
    Safe c tbl A s T ⟨heap, frames, t, w⟩
      (fun q T' m' => m'.frames = frames ∧
        ∃ a, m'.table.Has (ideal c) c q a ∧ T' a = some .env) (makeEnv rx rz) := by
  refine safe_tail (safe_make (d := .env) Request.fits_makeEnv rfl (.env ?_ ?_) ?_)
  · rwa [hx.deref]
  · rwa [hz.deref]
  intro T' heap' t' q a _ ha _ _ hq
  exact safe_ok ⟨rfl, a, hq, ha⟩

/-- A binding is added to an environment. -/
theorem addVariable_safe {env sym val : Ref} {e v : ℕ} (henv : At c frames env e)
    (he : T e = some .env) (hval : At c frames val v) (hv : Val c T v) :
    Safe c tbl A s T ⟨heap, frames, t, w⟩ (fun _ _ m' => m'.frames = frames)
      (addVariable env sym val) := by
  refine safe_define (Safe.kinded fun hk => ?_)
  obtain ⟨vars, up, hread, hvars, hup⟩ := hk.env he
  refine safe_refGet henv.cons hread rfl fun t₁ q hle hq => safe_assign_self hq ?_
  refine (acons_safe hval.cons (at_self rfl) hv hvars).bind fun q T₁ heap₁ frames₁ t₁ w₁ hev₁ hx => ?_
  obtain ⟨rfl, a, hq, ha⟩ := hx
  refine safe_assign_self hq (safe_star henv.cons fun t₂ p _ hp => ?_)
  refine safe_star (at_self rfl) fun t₃ q hle hq => safe_tail ?_
  refine Safe.kinded fun hk₁ => ?_
  have he₁ := hev₁.kinds _ _ he
  obtain ⟨vars', up', hread', -, hup'⟩ := hk₁.env he₁
  exact safe_set (hle _ _ hp) hq he₁ nofun hread' rfl (.env (.inr ha) hup') nofun
    (safe_ok rfl)

/-! ## `find` -/

/-- The inner loop of `find`. -/
theorem findBind_safe (limit : ℕ) {sym cell : Ptr} {x : ℕ} (hsym : t.Has (ideal c) c sym x)
    (hp : t.Has (ideal c) c cell a) (ha : Vars c T a) :
    Safe c tbl A s T ⟨heap, frames, t, w⟩
      (Still c T heap frames t w fun res t' => ∀ q, res = some q →
        ∃ b, t'.Has (ideal c) c q b ∧ T b = some .bind) (findBind sym limit cell) := by
  induction limit generalizing t cell a with
  | zero => exact safe_outOfFuel
  | succ limit ih =>
      rw [findBind]
      refine safe_iteIs hp has_nil (fun _ => still_ok .refl fun q => nofun) fun hne => ?_
      refine Safe.kinded fun hk => ?_
      obtain ⟨b, rest, hread, hb, hrest⟩ := hk.spine (ha.resolve_left hne)
      obtain ⟨k, v, hreadb, -⟩ := hk.bind hb
      refine safe_get hp hread rfl fun t₁ bind hle₁ hbind => ?_
      refine safe_get hbind hreadb rfl fun t₂ key hle₂ hkey => ?_
      have hle := hle₁.trans hle₂
      refine safe_iteIs (hle _ _ hsym) hkey (fun _ => ?_) fun _ => ?_
      · refine still_ok hle fun q hq => ⟨b, ?_, hb⟩
        cases hq
        exact hle₂ _ _ hbind
      · refine safe_get (hle _ _ hp) hread rfl fun t₃ next hle₃ hnext => ?_
        exact (ih (hle₃ _ _ (hle _ _ hsym)) hnext hrest).later (hle.trans hle₃) fun _ _ => id

/-- The outer loop of `find`. -/
theorem findLoop_safe (limit n : ℕ) {sym : Ptr} {x : ℕ} (hsym : t.Has (ideal c) c sym x)
    (hp : t.Has (ideal c) c p a) (ha : Scope c T a) :
    Safe c tbl A s T ⟨heap, frames, t, w⟩
      (Still c T heap frames t w fun q t' =>
        ∃ b, t'.Has (ideal c) c q b ∧ (b = null ∨ T b = some .bind)) (findLoop limit sym n p) := by
  induction n generalizing t p a with
  | zero => exact safe_outOfFuel
  | succ n ih =>
      rw [findLoop]
      refine safe_iteIs hp has_nil (fun _ => still_ok .refl ⟨null, has_null, .inl rfl⟩) fun hne => ?_
      refine Safe.kinded fun hk => ?_
      obtain ⟨vars, up, hread, hvars, hup⟩ := hk.env (ha.resolve_left hne)
      refine safe_get hp hread rfl fun t₁ cell hle₁ hcell => ?_
      refine (findBind_safe limit (hle₁ _ _ hsym) hcell hvars).still fun res t₂ hle₂ hres => ?_
      have hle := hle₁.trans hle₂
      cases res with
      | some bind =>
          obtain ⟨b, hb, hbind⟩ := hres bind rfl
          exact still_ok hle ⟨b, hb, .inr hbind⟩
      | none =>
          refine safe_get (hle _ _ hp) hread rfl fun t₃ next hle₃ hnext => ?_
          exact (ih (hle₃ _ _ (hle _ _ hsym)) hnext hup).later (hle.trans hle₃) fun _ _ => id

/-- **`find`** returns a binding or NULL. -/
theorem find_safe (limit : ℕ) {env : Ref} {sym : Ptr} {e x : ℕ} (henv : At c frames env e)
    (he : T e = some .env) (hsym : t.Has (ideal c) c sym x) :
    Safe c tbl A s T ⟨heap, frames, t, w⟩
      (Still c T heap frames t w fun q t' =>
        ∃ b, t'.Has (ideal c) c q b ∧ (b = null ∨ T b = some .bind)) (find limit env sym) := by
  rw [find]
  refine safe_star henv fun t₁ q hle hq => ?_
  exact (findLoop_safe limit limit (hle _ _ hsym) hq (.inr he)).later hle fun _ _ => id

/-! ## `print` -/

/-- Something has been written. -/
def Prints (c : Statics) (T : Kinds) (heap : Ideal) (frames : Frames) (t : Handles) (_ : Unit)
    (T' : Kinds) (m' : Machine Ideal) : Prop :=
  T' = T ∧ ∃ t' w', t.Le (ideal c) c t' ∧ m' = ⟨heap, frames, t', w'⟩

theorem safe_write {α : Type} {R : α → Kinds → Machine Ideal → Prop} {k : Unit → Code α}
    {text : List UInt8}
    (hk : ∀ w', Safe c tbl A s T ⟨heap, frames, t, w'⟩ R (k ())) :
    Safe c tbl A s T ⟨heap, frames, t, w⟩ R (write text >>= k) :=
  safe_op rfl rfl rfl (hk _)

theorem write_safe {text : List UInt8} :
    Safe c tbl A s T ⟨heap, frames, t, w⟩ (Prints c T heap frames t) (write text) :=
  safe_tail (safe_write fun w' => safe_ok ⟨rfl, t, w', .refl, rfl⟩)

theorem prints_bind {α : Type} {R : α → Kinds → Machine Ideal → Prop} {code : Code Unit}
    {k : Unit → Code α}
    (h : Safe c tbl A ⟨T, heap, w.input⟩ T ⟨heap, frames, t, w⟩ (Prints c T heap frames t) code)
    (hk : ∀ t' w', t.Le (ideal c) c t' → Safe c tbl A s T ⟨heap, frames, t', w'⟩ R (k ())) :
    Safe c tbl A s T ⟨heap, frames, t, w⟩ R (code >>= k) := by
  refine h.bind fun _ T' heap' frames' t' w' _ hx => ?_
  obtain ⟨rfl, t'', w'', hle, heq⟩ := hx
  cases heq
  exact hk t' w' hle

theorem prints_later {t₁ : Handles} {code : Code Unit}
    (h : Safe c tbl A s T ⟨heap, frames, t₁, w⟩ (Prints c T heap frames t₁) code)
    (hle : t.Le (ideal c) c t₁) :
    Safe c tbl A s T ⟨heap, frames, t₁, w⟩ (Prints c T heap frames t) code := by
  refine h.mono fun _ T' m' hx => ?_
  obtain ⟨rfl, t', w', hle', rfl⟩ := hx
  exact ⟨rfl, t', w', hle.trans hle', rfl⟩

/-- The loop of `print`. -/
theorem printLoop_safe (n : ℕ) {code : Ptr → Code Unit}
    (hcode : ∀ {s t w p a}, t.Has (ideal c) c p a → Val c T a →
      Safe c tbl A s T ⟨heap, frames, t, w⟩ (Prints c T heap frames t) (code p))
    (hp : t.Has (ideal c) c p a) (ha : T a = some .cell) :
    Safe c tbl A s T ⟨heap, frames, t, w⟩ (Prints c T heap frames t) (printLoop code n p) := by
  induction n generalizing t w p a with
  | zero => exact safe_outOfFuel
  | succ n ih =>
      rw [printLoop]
      refine Safe.kinded fun hk => ?_
      obtain ⟨x, y, hread, hx, hy⟩ := hk.cell ha
      refine safe_get hp hread rfl fun t₁ q₁ hle₁ hq₁ => ?_
      refine prints_bind (hcode hq₁ hx) fun t₂ w₂ hle₂ => ?_
      have hle₁₂ := hle₁.trans hle₂
      refine safe_get (hle₁₂ _ _ hp) hread rfl fun t₃ q₃ hle₃ hq₃ => ?_
      have hle₁₃ := hle₁₂.trans hle₃
      refine safe_iteIs hq₃ has_nil (fun _ => safe_ok ⟨rfl, t₃, w₂, hle₁₃, rfl⟩) fun _ => ?_
      refine safe_get (hle₁₃ _ _ hp) hread rfl fun t₄ q₄ hle₄ hq₄ => ?_
      have hle₁₄ := hle₁₃.trans hle₄
      refine safe_type hq₄ hy fun payload _ hshape => safe_ite (fun _ => ?_) fun htype => ?_
      · refine safe_write fun w₅ => safe_get (hle₁₄ _ _ hp) hread rfl fun t₅ q₅ hle₅ hq₅ => ?_
        exact prints_later (hcode hq₅ hy) (hle₁₄.trans hle₅)
      · obtain ⟨-, -, -, hcell, -⟩ := hshape.cell_of_type (not_not.mp htype)
        refine safe_write fun w₅ => safe_get (hle₁₄ _ _ hp) hread rfl fun t₅ q₅ hle₅ hq₅ => ?_
        exact prints_later (ih hq₅ hcell) (hle₁₄.trans hle₅)

/-- **`print`** of a value looks at nothing else. -/
theorem print_safe (n : ℕ) (hp : t.Has (ideal c) c p a) (ha : Val c T a) :
    Safe c tbl A s T ⟨heap, frames, t, w⟩ (Prints c T heap frames t) (print n p) := by
  induction n generalizing s t w p a with
  | zero => exact safe_outOfFuel
  | succ n ih =>
      rw [print]
      refine safe_type hp ha fun payload hread hshape => safe_ite (fun htype => ?_) fun _ => ?_
      · obtain ⟨-, -, -, hcell, -⟩ := hshape.cell_of_type htype
        refine safe_write fun w₁ => ?_
        exact prints_bind (printLoop_safe n ih hp hcell) fun t₂ w₂ hle => prints_later write_safe hle
      refine safe_ite (fun htype => ?_) fun _ => safe_ite (fun htype => ?_) fun _ => ?_
      · obtain ⟨m, rfl⟩ := hshape.int_of_type htype
        exact safe_value hp hread write_safe
      · obtain ⟨name, rfl, -⟩ := hshape.symbol_of_type htype
        exact safe_name hp hread write_safe
      · refine safe_ite (fun _ => write_safe) fun _ => ?_
        refine safe_ite (fun _ => write_safe) fun _ => ?_
        refine safe_ite (fun _ => write_safe) fun _ => ?_
        refine safe_ite (fun _ => write_safe) fun _ => ?_
        refine safe_ite (fun _ => write_safe) fun _ => ?_
        exact safe_ite (fun _ => write_safe) fun _ => safe_message

/-! ## `reverse` -/

/-- The loop of `reverse`, on cells that did not exist at the beginning. -/
theorem reverseLoop_safe (limit : ℕ) {ret : Ptr} {r : ℕ} {xs ys : List ℕ}
    (hp : t.Has (ideal c) c p a) (hret : t.Has (ideal c) c ret r) (hx : Row c T heap.read xs a)
    (hy : Row c T heap.read ys r) (hdisjoint : xs.Disjoint ys)
    (hfresh : ∀ x ∈ xs, s.kinds x = none) :
    Safe c tbl A s T ⟨heap, frames, t, w⟩
      (fun q T' m' => T' = T ∧ m'.frames = frames ∧
        ∃ b, m'.table.Has (ideal c) c q b ∧ Row c T m'.heap.read (xs.reverse ++ ys) b)
      (reverseLoop limit p ret) := by
  induction limit generalizing heap t p a ret r xs ys with
  | zero => exact safe_outOfFuel
  | succ limit ih =>
      rw [reverseLoop]
      refine Safe.kinded fun hk => ?_
      cases xs with
      | nil =>
          obtain rfl : a = c.constNil := hx
          refine safe_iteIs hp has_nil (fun _ => ?_) fun hne => absurd rfl hne
          exact safe_ok ⟨rfl, rfl, r, hret, hy⟩
      | cons x xs =>
          have hnodup := List.nodup_cons.mp (hx.nodup hk)
          obtain ⟨rfl, hT, v, q, hread, hrest⟩ := hx
          obtain ⟨hxy, hdisjoint⟩ := List.disjoint_cons_left.mp hdisjoint
          obtain ⟨hfresha, hfresh⟩ := List.forall_mem_cons.mp hfresh
          refine safe_iteIs hp has_nil (fun hnil => absurd hnil (hk.ne_nil hT)) fun _ => ?_
          refine safe_get hp hread rfl fun t₁ next hle hnext => ?_
          refine safe_set (hle _ _ hp) (hle _ _ hret) hT (by simp) hread rfl
            (.cell (hk.cell_of_read (.cell hT) hread).2.1 hy.val) ?_ ?_
          · simp [hfresha]
          -- The cell joins those that are done.
          have hagree : ∀ b, b ≠ a →
              Function.update heap.read a (some (.cell v r)) b = heap.read b :=
            fun b hb => Function.update_of_ne hb ..
          have hdone : Row c T (Function.update heap.read a (some (.cell v r))) (a :: ys) a :=
            ⟨rfl, hT, v, r, Function.update_self ..,
              hy.congr fun b hb => hagree b fun heq => hxy (heq ▸ hb)⟩
          have hrest' : Row c T (Function.update heap.read a (some (.cell v r))) xs q :=
            hrest.congr fun b hb => hagree b fun heq => hnodup.1 (heq ▸ hb)
          refine (ih hnext (hle _ _ hp) hrest' hdone ?_ hfresh).mono fun q T' m' hres => ?_
          · exact List.disjoint_cons_right.mpr ⟨hnodup.1, hdisjoint⟩
          · rw [List.reverse_cons, List.append_assoc]
            exact hres

/-- **`reverse`** turns a list round. -/
theorem reverse_safe (limit : ℕ) {xs : List ℕ} (hp : t.Has (ideal c) c p a)
    (hx : Row c T heap.read xs a) (hfresh : ∀ x ∈ xs, s.kinds x = none) :
    Safe c tbl A s T ⟨heap, frames, t, w⟩
      (fun q T' m' => T' = T ∧ m'.frames = frames ∧
        ∃ b, m'.table.Has (ideal c) c q b ∧ Row c T m'.heap.read xs.reverse b)
      (reverse limit p) := by
  have hnil : Row c T heap.read [] c.constNil := rfl
  rw [← List.append_nil xs.reverse]
  exact reverseLoop_safe limit hp has_nil hx hnil (List.disjoint_nil_right _) hfresh

/-! ## `push_env` -/

section pushEnv

variable {root : Frames} {f : List ℕ} {j v e b m x y : ℕ}

/-- What gets its argument now would have got it before. -/
theorem binds_before {T' : Kinds} {heap' : Ideal} (hk : Kinded c T tbl heap)
    (hk' : Kinded c T' tbl heap') (hev : Evolves T heap T' heap') (hv : Val c T v) (ha : Val c T a)
    (h : Binds heap'.read v a) : Binds heap.read v a := by
  induction h with
  | rest hread hrest =>
      obtain ⟨payload, hread₀, hshape⟩ := hk.shape hv
      refine .rest hread₀ fun htype => ?_
      obtain ⟨p, q, rfl, hT, -⟩ := hshape.cell_of_type htype
      obtain ⟨p', hread'⟩ := hev.cells _ p q hT hread₀
      cases hread.symm.trans hread'
      exact hrest rfl
  | cell hparams hargs _ ih =>
      obtain ⟨x, hparams₀⟩ := hk.cell_before hk' hev hv hparams
      obtain ⟨y, hargs₀⟩ := hk.cell_before hk' hev ha hargs
      exact .cell hparams₀ hargs₀
        (ih (hk.cell_of_read hv hparams₀).2.2 (hk.cell_of_read ha hargs₀).2.2)

/-- The loop of `push_env`, called with a variable of its caller and of the caller's
caller.  If it returns, each parameter has got an argument. -/
theorem pushEnvLoop_safe (limit : ℕ) (hj : j < f.length) (hv : Val c T v) (ha : Val c T a)
    (hm : Vars c T m) :
    Safe c tbl A s T ⟨heap, [m, x, y] :: [v, e, b] :: f.set j a :: root, t, w⟩
      (fun _ T' m' => Binds heap.read v a ∧ ∃ m x y v a,
        m'.frames = [m, x, y] :: [v, e, b] :: f.set j a :: root ∧
          Vars c T' m ∧ Val c T' v ∧ Val c T' a)
      (pushEnvLoop (.slot (root.length + 2) 0) (.slot (root.length + 2) 1)
        (.slot (root.length + 2) 2) (.slot (root.length + 1) 0) (.slot root.length j) limit) := by
  induction limit generalizing T heap t w v a m x y with
  | zero => exact safe_outOfFuel
  | succ limit ih =>
      have hvars : ∀ {x v a}, At c (x :: [v, e, b] :: f.set j a :: root) (.slot (root.length + 1) 0) v :=
        At.cons (at_self rfl)
      have hvals : ∀ {x v a}, At c (x :: [v, e, b] :: f.set j a :: root) (.slot root.length j) a :=
        At.cons (At.cons (at_self (by simp [hj])))
      rw [pushEnvLoop]
      refine safe_refType hvars hv fun t₁ payload _ hread hshape => ?_
      refine safe_ite (fun htype => ?_) fun htype =>
        safe_ok ⟨.rest hread htype, m, x, y, v, a, rfl, hm, hv, ha⟩
      obtain ⟨p, v', rfl, hT, hp, hv'⟩ := hshape.cell_of_type htype
      refine safe_refType hvals ha fun t₂ payload _ hread' hshape' => ?_
      refine safe_ite (fun _ => safe_message) fun htype' => ?_
      obtain ⟨q, a', rfl, hT', hq, ha'⟩ := hshape'.cell_of_type (not_not.mp htype')
      refine safe_refGet hvars hread rfl fun t₃ q₃ _ hq₃ => ?_
      refine safe_assign_self hq₃ ?_
      refine safe_refGet hvals hread' rfl fun t₄ q₄ _ hq₄ => ?_
      refine safe_assign_self hq₄ ?_
      refine Safe.kinded fun hk => ?_
      refine (acons_safe (z := m) (at_self rfl) (at_self rfl) (hq.mono .refl) hm).bind
        fun q₅ T₅ heap₅ frames₅ t₅ w₅ hev hx => Safe.kinded fun hk₅ => ?_
      obtain ⟨rfl, m', hq₅, hm'⟩ := hx
      refine safe_assign_self hq₅ ?_
      obtain ⟨p', hread₅⟩ := hev.cells v p v' hT hread
      refine safe_refGet hvars hread₅ rfl fun t₆ q₆ _ hq₆ => ?_
      refine safe_assign_caller hq₆ ?_
      obtain ⟨q', hread₅'⟩ := hev.cells a q a' hT' hread'
      refine safe_refGet hvals hread₅' rfl fun t₇ q₇ _ hq₇ => ?_
      refine safe_assign_slot (g := [_, [v', e, b]]) hq₇ ?_
      refine (ih (hv'.mono hev.kinds) (ha'.mono hev.kinds) (.inr hm')).mono fun _ T' m' hx => ?_
      exact ⟨.cell hread hread' (binds_before hk hk₅ hev hv' ha' hx.1), hx.2⟩

/-- **`push_env`** makes an environment, if each parameter gets an argument. -/
theorem pushEnv_safe (limit : ℕ) (hj : j < f.length) (hv : Val c T v) (ha : Val c T a)
    (he : T e = some .env) :
    Safe c tbl A s T ⟨heap, [v, e, b] :: f.set j a :: root, t, w⟩
      (fun q T' m' => Binds heap.read v a ∧ (∃ v a, m'.frames = [v, e, b] :: f.set j a :: root) ∧
        ∃ x, m'.table.Has (ideal c) c q x ∧ T' x = some .env)
      (pushEnv limit (.slot (root.length + 1) 1) (.slot (root.length + 1) 0)
        (.slot root.length j)) := by
  rw [pushEnv]
  refine safe_define (safe_assign_self has_nil ?_)
  refine (pushEnvLoop_safe limit hj hv ha (.inl rfl)).bind fun _ T₁ heap₁ frames₁ t₁ w₁ hev₁ hx => ?_
  obtain ⟨hbinds, m, x, y, v₁, a₁, rfl, hm, hv₁, ha₁⟩ := hx
  have hvars : ∀ {x v a}, At c (x :: [v, e, b] :: f.set j a :: root) (.slot (root.length + 1) 0) v :=
    At.cons (at_self rfl)
  have hvals : ∀ {x v a}, At c (x :: [v, e, b] :: f.set j a :: root) (.slot root.length j) a :=
    At.cons (At.cons (at_self (by simp [hj])))
  have henv : ∀ {x v a}, At c (x :: [v, e, b] :: f.set j a :: root) (.slot (root.length + 1) 1) e :=
    At.cons (at_self rfl)
  have he₁ := hev₁.kinds _ _ he
  refine safe_star hvars fun t₂ q₂ _ hq₂ => safe_iteIs hq₂ has_nil (fun _ => ?_) fun _ => ?_
  · refine (makeEnv_safe (at_self rfl) henv hm (.inr he₁)).mono fun q T' m' hx => ?_
    obtain ⟨hframes, hx⟩ := hx
    exact ⟨hbinds, ⟨v₁, a₁, congrArg List.tail hframes⟩, hx⟩
  · refine (acons_safe hvals (at_self rfl) ha₁ hm).bind fun q₃ T₃ heap₃ frames₃ t₃ w₃ hev₃ hx => ?_
    obtain ⟨rfl, m', hq₃, hm'⟩ := hx
    refine safe_assign_self hq₃ ?_
    refine (makeEnv_safe (at_self rfl) henv (.inr hm') (.inr (hev₃.kinds _ _ he₁))).mono
      fun q T' m' hx => ?_
    obtain ⟨hframes, hx⟩ := hx
    exact ⟨hbinds, ⟨v₁, a₁, congrArg List.tail hframes⟩, hx⟩

end pushEnv

end lists

end KernelPanic.Minilisp.Evaluator
