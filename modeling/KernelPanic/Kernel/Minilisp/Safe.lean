import KernelPanic.Kernel.Minilisp.Kinds
import KernelPanic.Kernel.Minilisp.Rules

/-!
# KernelPanic.Kernel.Minilisp.Safe

Code that makes no wrong access, as far as its calls are checked.

`Safe` is about a stretch of code that has begun at `s` and has come to the machine
`m`: it ends without a wrong access, having done to the heap what evaluation may do,
and in a state with the property `R`.  The rules are those of `Rules`, for what can be
said of references (`At`).
-/

namespace KernelPanic.Minilisp

open Machine Prog Kinds

/-- `error` was called, or the turns of the loops were not enough. -/
def Fault.Raised (e : Fault) : Prop := e = .outOfFuel ∨ ∃ fmt, e = .error fmt

/-- An error that is raised is no wrong access. -/
theorem Fault.Raised.ne_badAccess {e : Fault} (h : e.Raised) (a : ℕ) : e ≠ .badAccess a := by
  rcases h with rfl | ⟨fmt, rfl⟩ <;> exact nofun

/-- Where a stretch of code has begun. -/
structure Origin where
  kinds : Kinds
  heap : Ideal
  input : List UInt8

section safe

variable (c : Statics) (tbl : List Entry)

/-- The code has ended as it should. -/
def EndsSafely {α : Type} (s : Origin) (R : α → Kinds → Machine Ideal → Prop) :
    Except Fault α → Machine Ideal → Prop
  | .ok x, m => ∃ T, Kinded c T tbl m.heap ∧ Evolves s.kinds s.heap T m.heap ∧
      m.world.input = s.input ∧ R x T m
  | .error e, _ => e.Raised

/-- The code ends as it should, as far as `A` holds of its calls. -/
def Safe (A : Call → Machine Ideal → Prop) {α : Type} (s : Origin) (T : Kinds) (m : Machine Ideal)
    (R : α → Kinds → Machine Ideal → Prop) (p : Code α) : Prop :=
  Kinded c T tbl m.heap → Evolves s.kinds s.heap T m.heap → m.world.input = s.input →
    wlp (handleTyped (ideal c) c) (Met Call.code A) (EndsSafely c tbl s R) p m

/-- The reference is to a variable that holds the address. -/
def At (frames : Frames) (r : Ref) (a : ℕ) : Prop :=
  match r with
  | .slot depth j => depth < frames.length ∧ (frames.frame depth)[j]? = some a
  | .nil => a = c.constNil
  | .constTrue => a = c.constTrue
  | .symbols => False

/-- The code has changed nothing but the table of pointers. -/
def Still {α : Type} (T : Kinds) (heap : Ideal) (frames : Frames) (t : Handles) (w : World)
    (P : α → Handles → Prop) (x : α) (T' : Kinds) (m' : Machine Ideal) : Prop :=
  T' = T ∧ ∃ t', t.Le (ideal c) c t' ∧ m' = ⟨heap, frames, t', w⟩ ∧ P x t'

/-- The code has returned a value. -/
def Yields (F : Frames → Prop) (q : Ptr) (T : Kinds) (m : Machine Ideal) : Prop :=
  F m.frames ∧ ∃ a, m.table.Has (ideal c) c q a ∧ Val c T a

end safe

section references

variable {c : Statics} {root : Frames} {frame : List ℕ} {r : Ref} {depth j a x symbols : ℕ}

/-- The variable refers to what it holds. -/
theorem At.deref (h : At c root r a) : deref c symbols root r = a := by
  cases r with
  | slot depth j => simp [Minilisp.deref, h.2]
  | nil => exact h.symm
  | constTrue => exact h.symm
  | symbols => exact h.elim

@[simp] theorem at_nil : At c root .nil c.constNil := rfl

@[simp] theorem at_constTrue : At c root .constTrue c.constTrue := rfl

/-- A variable of the function itself. -/
theorem at_self (h : frame[j]? = some a) : At c (frame :: root) (.slot root.length j) a :=
  ⟨Nat.lt_succ_self _, by rw [frame_self]; exact h⟩

/-- One of its callers. -/
theorem At.cons (h : At c root r a) : At c (frame :: root) r a := by
  cases r with
  | slot depth j => exact ⟨h.1.trans (Nat.lt_succ_self _), by rw [frame_cons h.1]; exact h.2⟩
  | nil => exact h
  | constTrue => exact h
  | symbols => exact h

/-- Frames further in do not matter. -/
theorem At.append {g : Frames} (h : At c root r a) : At c (g ++ root) r a := by
  induction g with
  | nil => exact h
  | cons f g ih => exact ih.cons

/-- A variable of a caller, behind the frames `g`. -/
theorem at_slot {g : Frames} (h : frame[j]? = some a) :
    At c (g ++ frame :: root) (.slot root.length j) a := by
  induction g with
  | nil => exact at_self h
  | cons f g ih => exact ih.cons

/-- A slot of the frame is assigned, with frames further in. -/
theorem set_slot {g : Frames} :
    Frames.set (g ++ frame :: root) root.length j a = g ++ frame.set j a :: root := by
  induction g with
  | nil => exact set_self
  | cons f g ih =>
      have hlt : root.length < (g ++ frame :: root).length := by
        rw [List.length_append, List.length_cons]
        omega
      rw [List.cons_append, set_cons hlt, ih, List.cons_append]

end references

section rules

variable {A : Call → Machine Ideal → Prop} {c : Statics} {tbl : List Entry} {s : Origin} {T : Kinds} {heap : Ideal} {frames : Frames}
  {t : Handles} {w : World} {a a' : ℕ} {p q : Ptr} {payload : Payload} {α β : Type} {f : Field}
  {r : Ref} {R : α → Kinds → Machine Ideal → Prop}

/-- A result. -/
theorem safe_ok {x : α} (hR : R x T ⟨heap, frames, t, w⟩) :
    Safe c tbl A s T ⟨heap, frames, t, w⟩ R (Pure.pure x) :=
  fun hk hev hw => wlp_pure ⟨T, hk, hev, hw, hR⟩

/-- A call of `error`. -/
theorem safe_error {e : Fault} {m : Machine Ideal} (he : e.Raised) :
    Safe c tbl A s T m R (.fail e) := fun _ _ _ => wlp_fail he

@[simp] theorem safe_message {m : Machine Ideal} {message : String} :
    Safe c tbl A s T m R (error message) := safe_error (.inr ⟨message, rfl⟩)

@[simp] theorem safe_outOfFuel {m : Machine Ideal} :
    Safe c tbl A s T m R (.fail .outOfFuel) := safe_error (.inl rfl)

/-- The kinds of the objects may be used. -/
theorem Safe.kinded {m : Machine Ideal} {code : Code α}
    (h : Kinded c T tbl m.heap → Safe c tbl A s T m R code) : Safe c tbl A s T m R code :=
  fun hk hev hw => h hk hk hev hw

/-- So may what has happened so far. -/
theorem Safe.evolved {m : Machine Ideal} {code : Code α}
    (h : Evolves s.kinds s.heap T m.heap → Safe c tbl A s T m R code) : Safe c tbl A s T m R code :=
  fun hk hev hw => h hev hk hev hw

/-- The result has a weaker property. -/
theorem Safe.mono {m : Machine Ideal} {code : Code α} {R' : α → Kinds → Machine Ideal → Prop}
    (h : Safe c tbl A s T m R code) (hR : ∀ x T' m', R x T' m' → R' x T' m') :
    Safe c tbl A s T m R' code := by
  intro hk hev hw
  refine wlp_mono (h hk hev hw) fun res m' hres => ?_
  cases res with
  | error e => exact hres
  | ok x =>
      obtain ⟨T', hk', hev', hw', hx⟩ := hres
      exact ⟨T', hk', hev', hw', hR x T' m' hx⟩

/-- The frames have a weaker property. -/
theorem Safe.framed {m : Machine Ideal} {code : Code Ptr} {F F' : Frames → Prop}
    (h : Safe c tbl A s T m (Yields c F) code) (hF : ∀ root, F root → F' root) :
    Safe c tbl A s T m (Yields c F') code :=
  h.mono fun _ _ m' hq => ⟨hF m'.frames hq.1, hq.2⟩

/-- The frames after the end of a scope. -/
theorem Safe.popped {m : Machine Ideal} {code : Code Ptr} {F F' : Frames → Prop}
    (h : Safe c tbl A s T m (Yields c F) code) (hF : ∀ root, F root → F' root.tail) :
    Safe c tbl A s T m (fun q T' m' => Yields c F' q T' { m' with frames := m'.frames.tail }) code :=
  h.mono fun _ _ m' hq => ⟨hF m'.frames hq.1, hq.2⟩

/-- A function is called, and more follows. -/
theorem Safe.bind {code : Code β} {k : β → Code α} {R' : β → Kinds → Machine Ideal → Prop}
    (h : Safe c tbl A ⟨T, heap, w.input⟩ T ⟨heap, frames, t, w⟩ R' code)
    (hk : ∀ x T' heap' frames' t' w', Evolves T heap T' heap' → R' x T' ⟨heap', frames', t', w'⟩ →
      Safe c tbl A s T' ⟨heap', frames', t', w'⟩ R (k x)) :
    Safe c tbl A s T ⟨heap, frames, t, w⟩ R (code >>= k) := by
  intro hkinded hev hw
  refine wlp_bind (wlp_mono (h hkinded .refl rfl) fun res m' hres => ?_)
  cases res with
  | error e => exact hres
  | ok x =>
      obtain ⟨T', hkinded', hev', hw', hx⟩ := hres
      exact hk x T' _ _ _ _ hev' hx hkinded' (hev.trans hev') (hw'.trans hw)

/-- It has changed nothing. -/
theorem Safe.still {code : Code β} {k : β → Code α} {P : β → Handles → Prop}
    (h : Safe c tbl A ⟨T, heap, w.input⟩ T ⟨heap, frames, t, w⟩ (Still c T heap frames t w P) code)
    (hk : ∀ x t', t.Le (ideal c) c t' → P x t' → Safe c tbl A s T ⟨heap, frames, t', w⟩ R (k x)) :
    Safe c tbl A s T ⟨heap, frames, t, w⟩ R (code >>= k) := by
  refine h.bind fun x T' heap' frames' t' w' _ hx => ?_
  obtain ⟨rfl, t'', hle, heq, hP⟩ := hx
  cases heq
  exact hk x t' hle hP

/-- The last statement is what is returned. -/
theorem safe_tail {m : Machine Ideal} {code : Code α}
    (h : Safe c tbl A s T m R (code >>= fun x => Pure.pure x)) : Safe c tbl A s T m R code := by
  rwa [bind_pure'] at h

/-- At a call the assumption may be used. -/
theorem safe_call {m : Machine Ideal} (call : Call) {R : Ptr → Kinds → Machine Ideal → Prop}
    (h : A call m → Safe c tbl A s T m R call.code) : Safe c tbl A s T m R call.code := by
  refine safe_tail fun hk hev hw => wlp_call fun hok => ?_
  rw [bind_pure']
  exact h hok hk hev hw

/-! ## operations -/

/-- An operation that leaves heap and input alone. -/
theorem safe_op {o : Op β} {k : β → Code α} {x : β} {m u : Machine Ideal}
    (ho : handleTyped (ideal c) c o m = .ok (x, u)) (hheap : u.heap = m.heap)
    (hinput : u.world.input = m.world.input) (hk : Safe c tbl A s T u R (k x)) :
    Safe c tbl A s T m R (Prog.op o >>= k) := by
  intro hkinded hev hw
  rw [op_bind]
  exact wlp_step ho (hk (hheap ▸ hkinded) (hheap ▸ hev) (hinput.trans hw))

/-- A slot is read. -/
theorem safe_star {k : Ptr → Code α} (hr : At c frames r a)
    (hk : ∀ t' q, t.Le (ideal c) c t' → t'.Has (ideal c) c q a →
      Safe c tbl A s T ⟨heap, frames, t', w⟩ R (k q)) :
    Safe c tbl A s T ⟨heap, frames, t, w⟩ R (star r >>= k) := by
  refine safe_op rfl rfl rfl (hk _ _ hold_le ?_)
  have hderef : deref c heap.symbols frames r = a := hr.deref
  rw [← hderef]
  exact hold_has

/-- A slot is assigned. -/
theorem safe_assign {k : Unit → Code α} {depth j : ℕ} (hp : t.Has (ideal c) c p a)
    (hk : Safe c tbl A s T ⟨heap, Frames.set frames depth j a, t, w⟩ R (k ())) :
    Safe c tbl A s T ⟨heap, frames, t, w⟩ R (assign (.slot depth j) p >>= k) := by
  refine safe_op (u := ⟨heap, Frames.set frames depth j a, t, w⟩) ?_ rfl rfl hk
  simp only [handleTyped, handle, Machine.address, hp.eq]
  rfl

/-- A slot of the innermost frame is assigned. -/
theorem safe_assign_self {k : Unit → Code α} {root : Frames} {frame : List ℕ} {j : ℕ}
    (hp : t.Has (ideal c) c p a)
    (hk : Safe c tbl A s T ⟨heap, frame.set j a :: root, t, w⟩ R (k ())) :
    Safe c tbl A s T ⟨heap, frame :: root, t, w⟩ R (assign (.slot root.length j) p >>= k) :=
  safe_assign hp (by rwa [set_self])

/-- The variable of a caller that holds `a` is assigned. -/
theorem safe_assign_slot {k : Unit → Code α} {g root : Frames} {frame : List ℕ} {j : ℕ}
    (hp : t.Has (ideal c) c p a')
    (hk : Safe c tbl A s T ⟨heap, g ++ frame.set j a' :: root, t, w⟩ R (k ())) :
    Safe c tbl A s T ⟨heap, g ++ frame.set j a :: root, t, w⟩ R
      (assign (.slot root.length j) p >>= k) := by
  refine safe_assign hp ?_
  rwa [set_slot, List.set_set]

/-- A variable of the caller is assigned. -/
theorem safe_assign_caller {k : Unit → Code α} {root : Frames} {frame own : List ℕ} {j : ℕ}
    (hp : t.Has (ideal c) c p a)
    (hk : Safe c tbl A s T ⟨heap, own :: frame.set j a :: root, t, w⟩ R (k ())) :
    Safe c tbl A s T ⟨heap, own :: frame :: root, t, w⟩ R
      (assign (.slot root.length j) p >>= k) := by
  refine safe_assign hp ?_
  rwa [← List.singleton_append, set_slot]

/-- A member that is no pointer is read. -/
theorem safe_look {k : β → Code α} {view : Payload → Option β} {x : β}
    (hp : t.Has (ideal c) c p a) (hread : heap.read a = some payload)
    (hview : view payload.erase = some x) (hk : Safe c tbl A s T ⟨heap, frames, t, w⟩ R (k x)) :
    Safe c tbl A s T ⟨heap, frames, t, w⟩ R (Prog.op (.look p view) >>= k) := by
  refine Safe.kinded fun hkinded => safe_op (u := ⟨heap, frames, t, w⟩) ?_ rfl rfl hk
  have hfetch : (ideal c).read heap a = some payload := hread
  simp only [handleTyped, handle, hp.object (hkinded.ne_null_of_read hread), Machine.address, hp.eq,
    Machine.fetch, hfetch, hview, Bind.bind, Except.bind, Pure.pure, Except.pure]

/-- The tag of a value is read, and says what it is. -/
theorem safe_type {k : ℕ → Code α} (hp : t.Has (ideal c) c p a) (ha : Val c T a)
    (hk : ∀ payload, heap.read a = some payload → Shape c T a payload →
      Safe c tbl A s T ⟨heap, frames, t, w⟩ R (k payload.type)) :
    Safe c tbl A s T ⟨heap, frames, t, w⟩ R (p.type >>= k) := by
  refine Safe.kinded fun hkinded => ?_
  obtain ⟨payload, hread, hshape⟩ := hkinded.shape ha
  exact safe_look hp hread (by cases payload <;> rfl) (hk payload hread hshape)

/-- The value of a number is read. -/
theorem safe_value {k : BitVec 32 → Code α} {x : BitVec 32} (hp : t.Has (ideal c) c p a)
    (hread : heap.read a = some (.int x)) (hk : Safe c tbl A s T ⟨heap, frames, t, w⟩ R (k x)) :
    Safe c tbl A s T ⟨heap, frames, t, w⟩ R (p.value >>= k) :=
  safe_look hp hread rfl hk

/-- The name of a symbol is read. -/
theorem safe_name {k : List UInt8 → Code α} {name : List UInt8} (hp : t.Has (ideal c) c p a)
    (hread : heap.read a = some (.symbol name))
    (hk : Safe c tbl A s T ⟨heap, frames, t, w⟩ R (k name)) :
    Safe c tbl A s T ⟨heap, frames, t, w⟩ R (p.name >>= k) :=
  safe_look hp hread rfl hk

/-- The function of a primitive is read. -/
theorem safe_fn {k : ℕ → Code α} {fn : ℕ} (hp : t.Has (ideal c) c p a)
    (hread : heap.read a = some (.primitive fn))
    (hk : Safe c tbl A s T ⟨heap, frames, t, w⟩ R (k fn)) :
    Safe c tbl A s T ⟨heap, frames, t, w⟩ R (p.fn >>= k) :=
  safe_look hp hread rfl hk

/-- A member that is a pointer is read. -/
theorem safe_get {k : Ptr → Code α} (hp : t.Has (ideal c) c p a)
    (hread : heap.read a = some payload) (hf : payload.field f = some a')
    (hk : ∀ t' q, t.Le (ideal c) c t' → t'.Has (ideal c) c q a' →
      Safe c tbl A s T ⟨heap, frames, t', w⟩ R (k q)) :
    Safe c tbl A s T ⟨heap, frames, t, w⟩ R (p.get f >>= k) := by
  refine Safe.kinded fun hkinded =>
    safe_op (u := ⟨heap, frames, (t.hold a').2, w⟩) ?_ rfl rfl (hk _ _ hold_le hold_has)
  have hfetch : (ideal c).read heap a = some payload := hread
  simp only [handleTyped, handle, hp.object (hkinded.ne_null_of_read hread), Machine.address, hp.eq,
    Machine.fetch, hfetch, hf, Bind.bind, Except.bind, Pure.pure, Except.pure]
  rfl

/-- Two pointers are compared. -/
theorem safe_is {k : Bool → Code α} (hp : t.Has (ideal c) c p a) (hq : t.Has (ideal c) c q a')
    (hk : Safe c tbl A s T ⟨heap, frames, t, w⟩ R (k (a = a'))) :
    Safe c tbl A s T ⟨heap, frames, t, w⟩ R (p.is q >>= k) := by
  refine safe_op (u := ⟨heap, frames, t, w⟩) ?_ rfl rfl hk
  simp only [handleTyped, handle, Machine.address, hp.eq, hq.eq, Bind.bind, Except.bind, Pure.pure,
    Except.pure]

/-- `(*r)->f` -/
theorem safe_refGet {k : Ptr → Code α} (hr : At c frames r a)
    (hread : heap.read a = some payload) (hf : payload.field f = some a')
    (hk : ∀ t' q, t.Le (ideal c) c t' → t'.Has (ideal c) c q a' →
      Safe c tbl A s T ⟨heap, frames, t', w⟩ R (k q)) :
    Safe c tbl A s T ⟨heap, frames, t, w⟩ R (r.get f >>= k) := by
  rw [Ref.get, bind_assoc']
  exact safe_star hr fun t' q hle hq =>
    safe_get hq hread hf fun t'' q' hle' => hk t'' q' (hle.trans hle')

/-- `(*r)->type` -/
theorem safe_refType {k : ℕ → Code α} (hr : At c frames r a) (ha : Val c T a)
    (hk : ∀ t' payload, t.Le (ideal c) c t' → heap.read a = some payload → Shape c T a payload →
      Safe c tbl A s T ⟨heap, frames, t', w⟩ R (k payload.type)) :
    Safe c tbl A s T ⟨heap, frames, t, w⟩ R (r.type >>= k) := by
  rw [Ref.type, bind_assoc']
  exact safe_star hr fun t' q hle hq => safe_type hq ha fun payload => hk t' payload hle

/-- A scope. -/
theorem safe_define {n : ℕ} {body : ℕ → Code α}
    (h : Safe c tbl A s T ⟨heap, List.replicate n null :: frames, t, w⟩
      (fun x T' m' => R x T' { m' with frames := m'.frames.tail }) (body frames.length)) :
    Safe c tbl A s T ⟨heap, frames, t, w⟩ R (define n body) := by
  intro hkinded hev hw
  simp only [define, op_bind]
  refine wlp_step rfl (wlp_bind (wlp_mono (h hkinded hev hw) fun res m' hres => ?_))
  cases res with
  | error e => exact hres
  | ok x => exact wlp_step rfl (wlp_pure hres)

/-- An assignment to a member. -/
theorem safe_set {k : Unit → Code α} {d : Kind} {old : ℕ} (hp : t.Has (ideal c) c p a)
    (hq : t.Has (ideal c) c q a') (ha : T a = some d) (hatom : d ≠ .atom)
    (hread : heap.read a = some payload) (hf : payload.field f = some old)
    (hfits : Fits c T d (payload.setField a' f))
    (hcell : d = .cell → s.kinds a = some .cell → f ≠ .cdr)
    (hk : Safe c tbl A s T
      ⟨{ heap with read := Function.update heap.read a (some (payload.setField a' f)) }, frames, t, w⟩
      R (k ())) :
    Safe c tbl A s T ⟨heap, frames, t, w⟩ R (p.set f q >>= k) := by
  intro hkinded hev hw
  rw [Ptr.set, op_bind]
  have hfetch : (ideal c).read heap a = some payload := hread
  refine wlp_step (u := ⟨_, frames, t, w⟩) ?_ (hk (hkinded.write ha hatom hfits) ?_ hw)
  · simp only [handleTyped, hp.object (hkinded.ne_null_of_read hread), Machine.address, hq.eq,
      Machine.fetch, hfetch, hf, Bind.bind, Except.bind, Pure.pure, Except.pure]
    rfl
  · refine hev.write ha hatom fun hs x y hxy => ?_
    rw [hread, Option.some.injEq] at hxy
    subst hxy
    have hcdr := hcell (Option.some.inj (ha.symm.trans (hev.kinds a _ hs))) hs
    cases f <;> simp_all [Payload.setField, Payload.field]

/-- A new object. -/
theorem safe_make {k : Ptr → Code α} {req : Request} {d : Kind} (hreq : req.Fits)
    (hpayload : req.payload (deref c heap.symbols frames) = payload) (hfits : Fits c T d payload)
    (hk : ∀ T' heap' t' q a, Evolves T heap T' heap' → T' a = some d → T a = none →
      heap'.read a = some payload → t'.Has (ideal c) c q a →
      Safe c tbl A s T' ⟨heap', frames, t', w⟩ R (k q)) :
    Safe c tbl A s T ⟨heap, frames, t, w⟩ R (Prog.op (.make req) >>= k) := by
  intro hkinded hev hw
  rw [op_bind]
  obtain ⟨hkinded', hev'⟩ := hkinded.place hfits
  refine wlp_step (u := ⟨heap.place payload, frames, (t.expire.hold heap.next).2, w⟩) ?_
    (hk _ _ _ _ heap.next hev' (Function.update_self ..) (hkinded.none_of_le le_rfl)
      (by simp [Ideal.place]) hold_has hkinded' (hev.trans hev') hw)
  subst hpayload
  simp only [handleTyped, handle, ideal, hreq, ↓reduceIte, Bind.bind, Except.bind, Pure.pure,
    Except.pure]
  rfl

/-- A cell of data. -/
theorem safe_cons {k : Ptr → Code α} {rx ry : Ref} {x y : ℕ} (hx : At c frames rx x)
    (hy : At c frames ry y) (hxv : Val c T x) (hyv : Val c T y)
    (hk : ∀ T' heap' t' q a, Evolves T heap T' heap' → T' a = some .cell → T a = none →
      heap'.read a = some (.cell x y) → t'.Has (ideal c) c q a →
      Safe c tbl A s T' ⟨heap', frames, t', w⟩ R (k q)) :
    Safe c tbl A s T ⟨heap, frames, t, w⟩ R (cons rx ry >>= k) := by
  refine safe_make (d := .cell) Request.fits_cons ?_ (.cell hxv hyv) hk
  rw [Request.payload, hx.deref, hy.deref]

/-! ## branches -/

/-- Either branch is safe. -/
theorem safe_ite {m : Machine Ideal} {b : Prop} [Decidable b] {x y : Code α}
    (hx : b → Safe c tbl A s T m R x) (hy : ¬ b → Safe c tbl A s T m R y) :
    Safe c tbl A s T m R (if b then x else y) := by
  split
  · exact hx ‹_›
  · exact hy ‹_›

/-- A comparison of pointers that decides. -/
theorem safe_iteIs {x y : Code α} (hp : t.Has (ideal c) c p a) (hq : t.Has (ideal c) c q a')
    (hx : a = a' → Safe c tbl A s T ⟨heap, frames, t, w⟩ R x)
    (hy : a ≠ a' → Safe c tbl A s T ⟨heap, frames, t, w⟩ R y) :
    Safe c tbl A s T ⟨heap, frames, t, w⟩ R (p.is q >>= fun b => if b then x else y) :=
  safe_is hp hq (safe_ite (fun h => hx (of_decide_eq_true h)) fun h => hy (of_decide_eq_false
    (Bool.not_eq_true _ ▸ h)))

/-- The result of code that changes nothing. -/
theorem still_ok {t' : Handles} {x : α} {P : α → Handles → Prop} (hle : t.Le (ideal c) c t') (hP : P x t') :
    Safe c tbl A s T ⟨heap, frames, t', w⟩ (Still c T heap frames t w P) (Pure.pure x) :=
  safe_ok ⟨rfl, t', hle, rfl, hP⟩

/-- Such code may begin with a table that answers more. -/
theorem Safe.later {t' : Handles} {code : Code α} {P P' : α → Handles → Prop}
    (h : Safe c tbl A s T ⟨heap, frames, t', w⟩ (Still c T heap frames t' w P) code)
    (hle : t.Le (ideal c) c t') (hP : ∀ x t, P x t → P' x t) :
    Safe c tbl A s T ⟨heap, frames, t', w⟩ (Still c T heap frames t w P') code := by
  refine h.mono fun x T' m' hx => ?_
  obtain ⟨rfl, t'', hle', rfl, hx⟩ := hx
  exact ⟨rfl, t'', hle.trans hle', rfl, hP x t'' hx⟩

end rules

/-! ## code without calls -/

section plain

variable {c : Statics} {tbl : List Entry} {s : Origin} {T : Kinds} {m : Machine Ideal} {α : Type}
  {R : α → Kinds → Machine Ideal → Prop} {p : Code α}

/-- Where nothing is assumed of the calls, the code itself does what is said. -/
theorem Safe.wp (h : Safe c tbl (fun _ _ => True) s T m R p) (hk : Kinded c T tbl m.heap)
    (hev : Evolves s.kinds s.heap T m.heap) (hw : m.world.input = s.input) :
    Prog.wp (handle (ideal c) c) p (EndsSafely c tbl s R) m := by
  have hthroughout : ∀ {β : Type} (p : Code β) (m : Machine Ideal),
      p.Throughout (handleTyped (ideal c) c) (Met Call.code fun _ _ => True) m := by
    intro β p
    induction p with
    | pure x => exact fun _ _ _ _ => trivial
    | fail e => exact fun _ _ _ _ => trivial
    | step o next ih => exact fun m => ⟨fun _ _ _ => trivial, fun b m' _ => ih b m'⟩
  have hwp := (h hk hev hw).wp (hthroughout p m)
  have hrun := run_handleTyped (b := ideal c) (c := c) (p := p) (m := m) fun a ha => by
    rw [Prog.wp, ha] at hwp
    exact hwp.ne_badAccess a rfl
  rwa [Prog.wp, ← hrun]

end plain

end KernelPanic.Minilisp
