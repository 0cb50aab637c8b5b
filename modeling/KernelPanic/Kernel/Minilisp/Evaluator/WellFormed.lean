import KernelPanic.Kernel.Minilisp.Evaluator.Checks

/-!
# KernelPanic.Kernel.Minilisp.Evaluator.WellFormed

What returns is well formed.

A call of `apply` that returns has passed the tests of the primitive that is called, and
one of `apply_func` the loop of `push_env`; what these leave open is what `Call.Tested` says.
-/

namespace KernelPanic.Minilisp

open Machine Prog

/-! ## `apply` -/

section apply

variable {H : Type} {b : Backend H} {c : Statics} {heap : H} {frames : Frames} {t : Handles}
  {w : World} {rd : ℕ → Option Payload} {α : Type} {list env fn args : Ref}
  {eval : Evaluator.Evaluates} {a f x p k n limit : ℕ} {P : Prop}

/-- The rest of a proper list is proper. -/
theorem Proper.tail (h : Proper c rd a) (hnil : rd c.constNil = some .constNil)
    (hread : rd a = some (.cell x p)) : Proper c rd p := by
  cases h with
  | nil => cases hnil.symm.trans hread
  | cell _ hread' h => cases hread.symm.trans hread'; exact h

/-- What passes the tests of `lambda` and is a proper list has the form. -/
theorem Call.HandleFunction.form (h : HandleFunction c rd a) (hproper : Proper c rd a)
    (hnil : rd c.constNil = some .constNil) :
    ∃ params e es, Elements c rd (params :: e :: es) a ∧ IsList c rd params ∧ Params c rd params := by
  obtain ⟨params, body, hread, hlist, hparams, e, es, hbody⟩ := h
  obtain ⟨xs, hxs⟩ := ((hproper.tail hnil hread).tail hnil hbody).elements
  exact ⟨params, e, xs, .cons hread (.cons hbody hxs), hlist, hparams⟩

/-- What passes the tests of `defun` and is a proper list has the form. -/
theorem Call.HandleDefun.form (h : HandleDefun c rd a) (hproper : Proper c rd a)
    (hnil : rd c.constNil = some .constNil) :
    ∃ xs, Elements c rd xs a ∧ ∃ name params e es, xs = name :: params :: e :: es ∧
      IsSymbol rd name ∧ IsList c rd params ∧ Params c rd params := by
  obtain ⟨name, rest, hread, hsymbol, hfunction⟩ := h
  obtain ⟨params, e, es, hxs, hlist, hparams⟩ := hfunction.form (hproper.tail hnil hread) hnil
  exact ⟨_, .cons hread hxs, name, params, e, es, rfl, hsymbol, hlist, hparams⟩

/-- **A primitive** that returns was given arguments of its form. -/
theorem returning_callPrimitive (hlist : At c frames list a)
    (hnil : b.read heap c.constNil = some .constNil)
    (hok : Call.PrimitiveOk c (b.read heap) k a) (htested : Call.Untested c (b.read heap) a k) :
    wp (handleTyped b c) (Evaluator.callPrimitive eval limit n env list k)
      (Returning fun _ _ => ∃ xs, Elements c (b.read heap) xs a ∧ Call.Form c (b.read heap) xs k)
      ⟨heap, frames, t, w⟩ := by
  have hvalue : deref c (b.symbols heap) frames list = a := hlist.deref
  have hproper : Proper c (b.read heap) a →
      ∃ xs, Elements c (b.read heap) xs a ∧ True := fun h => h.elements.imp fun _ => (⟨·, trivial⟩)
  match k with
  | 0 | 1 | 14 | 17 | 18 => exact returning_counted fun xs hxs hlength => ⟨xs, hvalue ▸ hxs, hlength⟩
  | 2 | 3 | 9 => exact wp_returning_of (hproper hok.1)
  | 5 | 8 | 10 => exact wp_returning_of (hproper hok)
  | 4 | 11 => exact returning_binding fun x y hxs hx => ⟨_, hvalue ▸ hxs, x, y, rfl, hx⟩
  | 6 | 16 => exact returning_atLeast fun xs hxs hlength => ⟨xs, hvalue ▸ hxs, hlength⟩
  | 7 => exact wp_returning_of ⟨[], htested ▸ .nil, rfl⟩
  | 12 | 13 => exact returning_handleDefun hlist fun h => h.form (htested h) hnil
  | 15 =>
      refine wp_tail.mpr (returning_handleFunction fun h => ?_)
      rw [hvalue] at h
      obtain ⟨params, e, es, hxs, hlist, hparams⟩ := h.form (htested h) hnil
      exact ⟨_, hxs, params, e, es, rfl, hlist, hparams⟩
  | 19 | 21 =>
      obtain ⟨x, hx⟩ := htested
      exact wp_returning_of ⟨[x], hx, rfl⟩
  | 20 => exact returning_panic
  | _ + 22 => trivial

/-- **`apply`** returns from well-formed calls. -/
theorem returning_apply (hfn : At c frames fn f) (hargs : At c frames args a)
    (hnil : b.read heap c.constNil = some .constNil)
    (hprimitive : IsList c (b.read heap) a → ∀ k, b.read heap f = some (.primitive k) →
      Call.PrimitiveOk c (b.read heap) k a ∧ Call.Untested c (b.read heap) a k)
    (hfunction : IsList c (b.read heap) a → ∀ params body env,
      b.read heap f = some (.function params body env) → Proper c (b.read heap) a) :
    wp (handleTyped b c) (Evaluator.apply eval limit n env fn args)
      (Returning fun _ _ => ∃ xs, Elements c (b.read heap) xs a ∧
        ∀ k, b.read heap f = some (.primitive k) → Call.Form c (b.read heap) xs k)
      ⟨heap, frames, t, w⟩ := by
  rw [Evaluator.apply]
  refine returning_star fun t₁ q₁ _ hq₁ => returning_isList hq₁ fun d hd => ?_
  rw [hargs.deref] at hd
  cases d with
  | false => exact returning_error
  | true =>
  have hlist := hd rfl
  refine returning_refType fun payload t₂ _ hread => ?_
  rw [hfn.deref] at hread
  refine returning_ite (fun htype => ?_) fun _ => ?_
  · obtain ⟨k, rfl⟩ := Payload.primitive_of_type htype
    refine returning_star fun t₃ q₃ _ hq₃ => ?_
    refine returning_look fun a' payload k' ha' hread' hk' => ?_
    obtain rfl := ha'.unique hq₃
    rw [hfn.deref, hread] at hread'
    obtain rfl := Option.some.inj hread'
    obtain rfl : k = k' := Option.some.inj hk'
    obtain ⟨hok, htested⟩ := hprimitive hlist k hread
    refine wp_mono (returning_callPrimitive hargs hnil hok htested) fun res m' hres => ?_
    cases res with
    | error e => trivial
    | ok q =>
        obtain ⟨xs, hxs, hform⟩ := hres
        refine ⟨xs, hxs, fun k' hk' => ?_⟩
        rw [hread, Option.some.injEq, Payload.primitive.injEq] at hk'
        exact hk' ▸ hform
  · refine returning_refType fun payload' t₃ _ hread' => ?_
    rw [hfn.deref, hread] at hread'
    obtain rfl := Option.some.inj hread'
    refine returning_ite (fun htype => ?_) fun _ => returning_error
    obtain ⟨params, body, env, rfl⟩ := Payload.function_of_type htype
    obtain ⟨xs, hxs⟩ := (hfunction hlist params body env hread).elements
    refine wp_returning_of ⟨xs, hxs, fun k hk => ?_⟩
    cases hread.symm.trans hk

end apply

/-! ## values -/

section values

variable {H : Type} {b : Backend H} {c : Statics} {heap : H} {frames : Frames} {t : Handles}
  {w : World} {α : Type} {args : Ptr} {limit : ℕ} {P : Prop}

/-- The loop of `prim_plus` has found numbers only. -/
theorem returning_plusLoop {sum : BitVec 32} {k : BitVec 32 → Code α}
    (hP : ∀ a xs, t.Has b c args a → Elements c (b.read heap) xs a →
      (∀ x ∈ xs, IsInt (b.read heap) x) → P) :
    wp (handleTyped b c) (Evaluator.plusLoop limit args sum >>= k) (Returning fun _ _ => P)
      ⟨heap, frames, t, w⟩ := by
  induction limit generalizing t args sum P with
  | zero => trivial
  | succ limit ih =>
      rw [Evaluator.plusLoop, bind_assoc']
      refine returning_isNil fun a hargs => ?_
      by_cases hnil : a = c.constNil
      · rw [decide_eq_true hnil]
        exact wp_returning_of (hP a [] hargs (hnil ▸ .nil) (by simp))
      rw [decide_eq_false hnil, if_neg (by decide), bind_assoc']
      refine returning_get fun _ payload x t₁ q₁ ha₁ hread hf hle₁ hq₁ => ?_
      obtain rfl := ha₁.unique hargs
      obtain ⟨p, rfl⟩ := Payload.cell_of_car hf
      rw [bind_assoc']
      refine returning_tag hq₁ fun payload hreadx => ?_
      split
      · trivial
      next htype =>
      obtain ⟨value, rfl⟩ := Payload.int_of_type (not_not.mp htype)
      rw [bind_assoc']
      refine returning_get fun _ _ _ t₂ q₂ _ _ _ hle₂ _ => ?_
      rw [bind_assoc']
      refine returning_look fun _ _ _ _ _ _ => ?_
      rw [bind_assoc']
      refine returning_member (hle₂ _ _ (hle₁ _ _ hargs)) hread rfl fun t₃ q₃ hle₃ hq₃ => ?_
      refine ih fun p' xs hp' hxs hall => ?_
      obtain rfl := hp'.unique hq₃
      exact hP _ (x :: xs) hargs (.cons hread hxs) (List.forall_mem_cons.mpr ⟨⟨value, hreadx⟩, hall⟩)

/-- The first loop of `prim_minus` has found numbers only. -/
theorem returning_checkInts {k : Unit → Code α}
    (hk : ∀ a xs t', t.Has b c args a → Elements c (b.read heap) xs a →
      (∀ x ∈ xs, IsInt (b.read heap) x) → t.Le b c t' →
      wp (handleTyped b c) (k ()) (Returning fun _ _ => P) ⟨heap, frames, t', w⟩) :
    wp (handleTyped b c) (Evaluator.checkInts limit args >>= k) (Returning fun _ _ => P)
      ⟨heap, frames, t, w⟩ := by
  induction limit generalizing t args with
  | zero => trivial
  | succ limit ih =>
      rw [Evaluator.checkInts, bind_assoc']
      refine returning_isNil fun a hargs => ?_
      by_cases hnil : a = c.constNil
      · rw [decide_eq_true hnil]
        exact hk a [] t hargs (hnil ▸ .nil) (by simp) .refl
      rw [decide_eq_false hnil, if_neg (by decide), bind_assoc']
      refine returning_get fun _ payload x t₁ q₁ ha₁ hread hf hle₁ hq₁ => ?_
      obtain rfl := ha₁.unique hargs
      obtain ⟨p, rfl⟩ := Payload.cell_of_car hf
      rw [bind_assoc']
      refine returning_tag hq₁ fun payload hreadx => ?_
      split
      · trivial
      next htype =>
      obtain ⟨value, rfl⟩ := Payload.int_of_type (not_not.mp htype)
      rw [bind_assoc']
      refine returning_member (hle₁ _ _ hargs) hread rfl fun t₂ q₂ hle₂ hq₂ => ?_
      refine ih fun p' xs t' hp' hxs hall hle => ?_
      obtain rfl := hp'.unique hq₂
      exact hk _ (x :: xs) t' hargs (.cons hread hxs)
        (List.forall_mem_cons.mpr ⟨⟨value, hreadx⟩, hall⟩) (hle₁.trans (hle₂.trans hle))

/-- What two numbers have been compared. -/
theorem returning_compareInts {holds : BitVec 32 → BitVec 32 → Bool} {message : String}
    (hP : ∀ v x p y q, t.Has b c args v → b.read heap v = some (.cell x p) →
      b.read heap p = some (.cell y q) → IsInt (b.read heap) x → IsInt (b.read heap) y → P) :
    wp (handleTyped b c) (Evaluator.compareInts holds message args) (Returning fun _ _ => P)
      ⟨heap, frames, t, w⟩ := by
  rw [Evaluator.compareInts]
  refine returning_get fun v payload x t₁ q₁ hv hread hf hle₁ hq₁ => ?_
  obtain ⟨p, rfl⟩ := Payload.cell_of_car hf
  refine returning_member (hle₁ _ _ hv) hread rfl fun t₂ q₂ hle₂ hq₂ => ?_
  refine returning_get fun p' payload y t₃ q₃ hp' hreadp hfp hle₃ hq₃ => ?_
  obtain rfl := hp'.unique hq₂
  obtain ⟨q, rfl⟩ := Payload.cell_of_car hfp
  refine returning_tag (hle₃ _ _ (hle₂ _ _ hq₁)) fun payload hreadx =>
    returning_unless fun htypex => ?_
  obtain ⟨m, rfl⟩ := Payload.int_of_type (not_not.mp htypex)
  refine returning_tag hq₃ fun payload hready => returning_unless fun htypey => ?_
  obtain ⟨n, rfl⟩ := Payload.int_of_type (not_not.mp htypey)
  exact wp_returning_of (hP v x p' y q hv hread hreadp ⟨m, hreadx⟩ ⟨n, hready⟩)

/-- **What a check lets pass** is well typed. -/
theorem Check.returning {check : Check} (hnil : b.read heap c.constNil = some .constNil) :
    wp (handleTyped b c) check.code (Returning fun _ _ => check.WellTyped b c ⟨heap, frames, t, w⟩)
      ⟨heap, frames, t, w⟩ := by
  cases check with
  | fieldOf f message args =>
      refine returning_get fun v payload x t₁ q₁ hv hread hf hle₁ hq₁ => ?_
      obtain ⟨p, rfl⟩ := Payload.cell_of_car hf
      refine returning_tag hq₁ fun payload hreadx => returning_unless fun htype => ?_
      obtain ⟨y, z, rfl⟩ := Payload.cell_of_type (not_not.mp htype)
      refine returning_member (hle₁ _ _ hv) hread rfl fun t₂ q₂ hle₂ hq₂ => ?_
      refine returning_isNil fun p' hp' => ?_
      obtain rfl := hp'.unique hq₂
      by_cases hlast : p' = c.constNil
      · subst hlast
        exact wp_returning_of ⟨v, x, hv, .cons hread .nil, y, z, hreadx⟩
      · rw [decide_eq_false hlast]
        exact returning_error
  | setcarOf limit args =>
      refine returning_count fun t₁ l hl => returning_unless fun hlength => ?_
      obtain ⟨xs, hxs, heq⟩ := hl (by omega)
      obtain ⟨x, y, rfl⟩ := List.length_eq_two.mp (show xs.length = 2 by omega)
      cases hxs with
      | cons hcell hrest =>
          refine returning_refMember hcell rfl fun t₂ q₂ _ hq₂ => returning_tag hq₂
            fun payload hreadx => returning_unless fun htype => ?_
          obtain ⟨p, q, rfl⟩ := Payload.cell_of_type (not_not.mp htype)
          exact wp_returning_of ⟨x, y, .cons hcell hrest, p, q, hreadx⟩
  | sumOf limit args =>
      exact returning_plusLoop fun v xs hv hxs hall => ⟨v, xs, hv, hxs, hall⟩
  | differenceOf limit args =>
      refine returning_checkInts fun v xs t₁ hv hxs hall hle => ?_
      refine returning_get fun v' payload p t₂ q₂ hv' hread hf _ _ => wp_returning_of ?_
      obtain rfl := hv'.unique (hle _ _ hv)
      obtain ⟨x, rfl⟩ := Payload.cell_of_cdr hf
      cases hxs with
      | nil => cases hnil.symm.trans hread
      | cons hcell hrest => exact ⟨v', _, _, hv, .cons hcell hrest, hall⟩
  | lessThan limit args =>
      refine returning_length fun t₁ l hle hl => returning_unless fun hlength => ?_
      refine returning_compareInts fun v' x p y q hv' hread hread' hx hy => ?_
      obtain ⟨v, xs, hv, hxs, heq⟩ := hl (by omega)
      obtain rfl := hv'.unique (hle _ _ hv)
      obtain ⟨x', y', rfl⟩ := List.length_eq_two.mp (show xs.length = 2 by omega)
      cases hxs with
      | cons hcell hrest =>
          cases hrest with
          | cons hcell' hrest' =>
              cases hcell.symm.trans hread
              cases hcell'.symm.trans hread'
              exact ⟨v', _, _, hv, .cons hcell (.cons hcell' hrest'), hx, hy⟩
  | numEq args =>
      exact returning_compareInts fun v x p y q hv hread hread' hx hy =>
        ⟨v, x, p, y, q, hv, hread, hread', hx, hy⟩
  | sleepFor slot =>
      refine returning_refType fun payload t₁ _ hread => returning_unless fun htype => ?_
      obtain ⟨value, rfl⟩ := Payload.int_of_type (not_not.mp htype)
      exact wp_returning_of ⟨value, hread⟩

end values

/-! ## `apply_func` -/

section frames

variable {c : Statics} {root : Frames} {r : Ref} {depth j a p : ℕ}

/-- A slot that is assigned is in one frame. -/
theorem frame_set {d : ℕ} : Frames.frame (Frames.set root depth j p) d =
    if depth = d then (root.frame d).set j p else root.frame d := by
  simp only [Frames.frame, Frames.set, List.reverse_reverse, List.getElem?_modify]
  cases root.reverse[d]? <;> split_ifs <;> rfl

/-- Another variable is assigned. -/
theorem At.set_ne (h : At c root r a) (hne : r ≠ .slot depth j) :
    At c (Frames.set root depth j p) r a := by
  cases r with
  | slot d i =>
      refine ⟨by simpa [Frames.set] using h.1, ?_⟩
      rw [frame_set]
      split_ifs with hd
      · subst hd
        rw [List.getElem?_set_ne (by rintro rfl; exact hne rfl)]
        exact h.2
      · exact h.2
  | _ => exact h

/-- The variable is assigned. -/
theorem At.set_self (h : At c root (.slot depth j) a) :
    At c (Frames.set root depth j p) (.slot depth j) p := by
  refine ⟨by simpa [Frames.set] using h.1, ?_⟩
  rw [frame_set, if_pos rfl, List.getElem?_set_self (List.getElem?_eq_some_iff.mp h.2).1]

end frames

section applyFunc

variable {c : Statics} {heap : Ideal} {frames : Frames} {t : Handles} {w : World} {α : Type}
  {a a' : ℕ} {p q : Ptr} {Q : α → Machine Ideal → Prop} {P : Prop} {r rx ry rz : Ref}

/-- What was there still is. -/
structure Ideal.Extends (h h' : Ideal) : Prop where
  next : h.next ≤ h'.next
  read : ∀ a < h.next, h'.read a = h.read a

/-- A new object changes no other. -/
theorem Ideal.extends_place {payload : Payload} : heap.Extends (heap.place payload) where
  next := Nat.le_succ _
  read := fun _ ha => Function.update_of_ne ha.ne ..

theorem Ideal.Extends.trans {h h' h'' : Ideal} (h₁ : h.Extends h') (h₂ : h'.Extends h'') :
    h.Extends h'' where
  next := h₁.next.trans h₂.next
  read := fun a ha => (h₂.read a (ha.trans_le h₁.next)).trans (h₁.read a ha)

/-- An object has been made. -/
theorem returning_make {k : Ptr → Code α} {req : Request}
    (hk : ∀ payload t' q, wp (handleTyped (ideal c) c) (k q) (Returning Q)
      ⟨heap.place payload, frames, t', w⟩) :
    wp (handleTyped (ideal c) c) (Prog.op (.make req) >>= k) (Returning Q) ⟨heap, frames, t, w⟩ := by
  refine wp_returning_step fun x m' hout => ?_
  simp only [handleTyped, handle, ideal] at hout
  split at hout
  · simp only [Bind.bind, Except.bind, Pure.pure, Except.pure] at hout
    obtain ⟨rfl, rfl⟩ := Prod.mk.inj (Except.ok.inj hout)
    exact hk _ _ _
  · simp only [Bind.bind, Except.bind] at hout
    cases hout

/-- `acons` -/
theorem returning_acons {k : Ptr → Code α}
    (hk : ∀ heap' t' q, heap.Extends heap' →
      wp (handleTyped (ideal c) c) (k q) (Returning Q) ⟨heap', frames, t', w⟩) :
    wp (handleTyped (ideal c) c) (acons rx ry rz >>= k) (Returning Q) ⟨heap, frames, t, w⟩ := by
  simp only [acons, define, op_bind, step_bind, bind_assoc', pure_bind']
  refine wp_returning_step fun x m' hout => ?_
  obtain ⟨rfl, rfl⟩ := Prod.mk.inj (Except.ok.inj hout)
  refine returning_make fun payload t₁ q₁ => returning_assign_self fun a _ => ?_
  refine returning_make fun payload' t₂ q₂ => wp_returning_step fun x m' hout => ?_
  obtain ⟨rfl, rfl⟩ := Prod.mk.inj (Except.ok.inj hout)
  exact hk _ _ _ (Ideal.extends_place.trans Ideal.extends_place)

/-- A variable is assigned through its place. -/
theorem returning_assign_at {k : Unit → Code α} (hr : At c frames r a)
    (hk : ∀ depth j a', r = .slot depth j → t.Has (ideal c) c p a' →
      wp (handleTyped (ideal c) c) (k ()) (Returning Q) ⟨heap, Frames.set frames depth j a', t, w⟩) :
    wp (handleTyped (ideal c) c) (assign r p >>= k) (Returning Q) ⟨heap, frames, t, w⟩ := by
  cases r with
  | slot depth j => exact returning_assign fun a' ha' => hk depth j a' rfl ha'
  | symbols => exact hr.elim
  | _ =>
      refine wp_returning_step fun x m' hout => ?_
      simp only [handleTyped, handle, Machine.address] at hout
      cases hp : t.address (ideal c).strict c p with
      | error e => simp [hp, Bind.bind, Except.bind] at hout
      | ok a => simp [hp, Bind.bind, Except.bind, throw, throwThe, MonadExceptOf.throw] at hout

/-- The loop of `push_env` has found an argument for each parameter. -/
theorem returning_pushEnvLoop {k : Unit → Code α} {rd : ℕ → Option Payload} {S : Set ℕ}
    {limit d dv v u : ℕ} {vals : Ref} (hdv : dv ≠ d) (hown : ∀ j, vals ≠ .slot d j)
    (hother : vals ≠ .slot dv 0)
    (hclosed : ∀ a ∈ S, ∀ payload, rd a = some payload → ∀ p ∈ payload.pointers, p ∈ S)
    (hsame : ∀ a ∈ S, heap.read a = rd a) (hold : ∀ a ∈ S, a < heap.next)
    (hvars : At c frames (.slot dv 0) v) (hvals : At c frames vals u) (hv : v ∈ S) (hu : u ∈ S)
    (hP : Binds rd v u → P) :
    wp (handleTyped (ideal c) c)
      (Evaluator.pushEnvLoop (.slot d 0) (.slot d 1) (.slot d 2) (.slot dv 0) vals limit >>= k)
      (Returning fun _ _ => P) ⟨heap, frames, t, w⟩ := by
  induction limit generalizing heap frames t w v u P with
  | zero => trivial
  | succ limit ih =>
      have hne : ∀ j, (.slot dv 0 : Ref) ≠ .slot d j := fun j h => hdv (Ref.slot.inj h).1
      rw [Evaluator.pushEnvLoop, bind_assoc']
      refine returning_refType fun payload t₁ _ hread => ?_
      rw [hvars.deref, show (ideal c).read heap v = rd v from hsame v hv] at hread
      split
      next htype =>
        obtain ⟨x, p, rfl⟩ := Payload.cell_of_type htype
        rw [bind_assoc']
        refine returning_refType fun payload t₂ _ hread' => ?_
        rw [hvals.deref, show (ideal c).read heap u = rd u from hsame u hu] at hread'
        split
        · trivial
        next htype' =>
        obtain ⟨y, q, rfl⟩ := Payload.cell_of_type (not_not.mp htype')
        -- sym and val
        rw [bind_assoc']
        refine returning_refGet fun _ _ t₃ q₃ _ _ _ _ => ?_
        rw [bind_assoc']
        refine returning_assign fun x₃ _ => ?_
        replace hvars := hvars.set_ne (p := x₃) (hne 1)
        replace hvals := hvals.set_ne (p := x₃) (hown 1)
        rw [bind_assoc']
        refine returning_refGet fun _ _ t₄ q₄ _ _ _ _ => ?_
        rw [bind_assoc']
        refine returning_assign fun x₄ _ => ?_
        replace hvars := hvars.set_ne (p := x₄) (hne 2)
        replace hvals := hvals.set_ne (p := x₄) (hown 2)
        -- map
        rw [bind_assoc']
        refine returning_acons fun heap₅ t₅ q₅ hext => ?_
        rw [bind_assoc']
        refine returning_assign fun x₅ _ => ?_
        replace hvars := hvars.set_ne (p := x₅) (hne 0)
        replace hvals := hvals.set_ne (p := x₅) (hown 0)
        have hsame₅ : ∀ a ∈ S, heap₅.read a = rd a := fun a ha =>
          (hext.read a (hold a ha)).trans (hsame a ha)
        -- vars and vals
        rw [bind_assoc']
        have hread₆ : (ideal c).read heap₅ (deref c heap₅.symbols _ (.slot dv 0)) = _ :=
          (congrArg heap₅.read hvars.deref).trans ((hsame₅ v hv).trans hread)
        refine returning_refMember hread₆ rfl fun t₆ q₆ _ hq₆ => ?_
        rw [bind_assoc']
        refine returning_assign fun p' hp' => ?_
        obtain rfl := hp'.unique hq₆
        replace hvals := hvals.set_ne (p := p') hother
        replace hvars := hvars.set_self (p := p')
        rw [bind_assoc']
        have hread₇ : (ideal c).read heap₅ (deref c heap₅.symbols _ vals) = _ :=
          (congrArg heap₅.read hvals.deref).trans ((hsame₅ u hu).trans hread')
        refine returning_refMember hread₇ rfl fun t₇ q₇ _ hq₇ => ?_
        rw [bind_assoc']
        refine returning_assign_at hvals fun depth j q' hslot hq' => ?_
        obtain rfl := hq'.unique hq₇
        subst hslot
        refine ih hsame₅ (fun a ha => (hold a ha).trans_le hext.next)
          (hvars.set_ne hother.symm) hvals.set_self ?_ ?_ fun hbinds => hP (.cell hread hread' hbinds)
        · exact hclosed v hv _ hread _ (by simp [Payload.pointers])
        · exact hclosed u hu _ hread' _ (by simp [Payload.pointers])
      next htype => exact wp_returning_of (hP (.rest hread htype))

/-- **`apply_func`** returns where each parameter gets an argument. -/
theorem returning_applyFunc {eval : Evaluator.Evaluates} {fn args : Ref} {f limit : ℕ} {S : Set ℕ}
    (hclosed : ∀ a ∈ S, ∀ payload, heap.read a = some payload → ∀ p ∈ payload.pointers, p ∈ S)
    (hold : ∀ a ∈ S, a < heap.next) (hfn : At c frames fn f) (hargs : At c frames args a)
    (hf : f ∈ S) (ha : a ∈ S) :
    wp (handleTyped (ideal c) c) (Evaluator.applyFunc eval limit fn args)
      (Returning fun _ _ => ∃ payload params, heap.read f = some payload ∧
        payload.field .params = some params ∧ Binds heap.read params a)
      ⟨heap, frames, t, w⟩ := by
  rw [Evaluator.applyFunc]
  refine returning_define (returning_refGet fun payload params t₁ q₁ hread hparams _ hq₁ => ?_)
  rw [hfn.cons.deref, show (ideal c).read heap f = heap.read f from rfl] at hread
  refine returning_assign_self fun v hv => ?_
  obtain rfl := hv.unique hq₁
  refine returning_refGet fun _ _ t₂ q₂ _ _ _ _ => returning_assign_self fun x _ => ?_
  refine wp_returning_first (returning_define (returning_assign_self fun x' _ => ?_))
  have hown : ∀ depth j, frames.length ≤ depth → args ≠ .slot depth j := by
    rintro depth j hle rfl
    exact hle.not_gt hargs.1
  have hvS : v ∈ S := hclosed f hf payload hread v (Payload.mem_pointers_of_field hparams)
  refine returning_pushEnvLoop (Nat.lt_succ_self _).ne
    (fun j => hown _ j (Nat.le_succ _)) (hown _ 0 le_rfl) hclosed (fun _ _ => rfl) hold
    (at_self (by simp)).cons hargs.cons.cons hvS ha fun hbinds => ?_
  exact ⟨payload, v, hread, hparams, hbinds⟩

end applyFunc

/-! ## calls -/

section calls

variable {c : Statics} {objs : List ℕ} {D : Set ℕ} {ρ : ℕ → ℕ} {i : Machine Ideal}
  {m : Machine State} {r : Ref} {a : ℕ}

/-- What a slot holds is the image of what it holds on the other side. -/
theorem Sim.at (hsim : Sim c objs D ρ i m) (h : At c m.frames r a) :
    ∃ a', At c i.frames r a' ∧ Known c D a' ∧ ρ a' = a := by
  have hfixed : ∀ x ∈ c.addresses, Known c D x ∧ ρ x = x := fun x hx =>
    ⟨.inr (.inr hx), hsim.fixed x (.inr hx)⟩
  cases r with
  | slot depth j =>
      obtain ⟨hdepth, hslot⟩ := h
      rw [hsim.frames, Frames.frame_map, List.getElem?_map, Option.map_eq_some_iff] at hslot
      obtain ⟨a', ha', rfl⟩ := hslot
      have hat : At c i.frames (.slot depth j) a' := ⟨by simpa [hsim.frames] using hdepth, ha'⟩
      have hknown := (hsim.deref (.slot depth j)).1
      rw [hat.deref] at hknown
      exact ⟨a', hat, hknown, rfl⟩
  | nil =>
      obtain rfl : a = c.constNil := h
      exact ⟨_, at_nil, hfixed _ (by simp)⟩
  | constTrue =>
      obtain rfl : a = c.constTrue := h
      exact ⟨_, at_constTrue, hfixed _ (by simp)⟩
  | symbols => exact h.elim

/-- The empty list is where it was. -/
theorem Sim.read_constNil (hsim : Sim c objs D ρ i m) :
    (concrete c).read m.heap c.constNil = some .constNil := by
  have hnil : Fixed c c.constNil := .inr (by simp)
  have hread := (hsim.read (.inr hnil) (hsim.constant c.constNil ⟨0, .constNil⟩
    (by simp [Statics.objects]))).1
  rwa [hsim.fixed _ hnil] at hread

/-- **A call that returns** is well formed, unless it is one of those whose form the code
does not test. -/
theorem Call.wellFormed_of_returns {call : Call} {q : Ptr} (hrel : Related c i m)
    (hideal : (call.code.run (handleTyped (ideal c) c) i).1 = .ok q)
    (hok : call.Ok (concrete c) c m) (htested : call.Tested (concrete c) c m)
    (hrun : (call.code.run (handleTyped (concrete c) c) m).1 = .ok q) :
    call.WellFormed (concrete c) c m := by
  obtain ⟨objs, D, ρ, hsim⟩ := hrel
  cases call with
  | apply limit n env fn args =>
      intro f a hfn hargs
      have hok' := hok
      simp only [Call.Ok, hfn.deref, hargs.deref] at hok'
      exact of_returning (returning_apply hfn hargs hsim.read_constNil
        (fun hlist k hk => ⟨(hok' hlist).1 k hk, htested f a hfn hargs hlist k hk⟩)
        (fun hlist => (hok' hlist).2)) hrun
  | applyFunc limit n fn args =>
      intro f a hfn hargs params body env hfunction
      refine htested f a hfn hargs params body env hfunction ?_
      obtain ⟨f', hfn', hf', rfl⟩ := hsim.at hfn
      obtain ⟨a', hargs', ha', rfl⟩ := hsim.at hargs
      obtain ⟨payload, v, hread, hv, hbinds⟩ := of_returning (returning_applyFunc
        (S := {x | Known c D x}) (fun x hx payload hread => (hsim.read hx hread).2.1) hsim.next hfn'
        hargs' hf' ha') hideal
      obtain ⟨hmem, hpointers, -⟩ := hsim.read hf' hread
      have hparams : ρ v = params := by
        have hfield : (payload.mapPointers ρ).field .params = some params := by
          rcases hfunction with h | h <;> rw [← Option.some.inj (h.symm.trans hmem)] <;> rfl
        rwa [Payload.field_mapPointers, hv, Option.map_some, Option.some.injEq] at hfield
      exact hparams ▸ hsim.binds (hpointers v (Payload.mem_pointers_of_field hv)) ha' hbinds

end calls

end KernelPanic.Minilisp
