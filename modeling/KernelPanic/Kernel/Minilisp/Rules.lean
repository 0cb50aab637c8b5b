import KernelPanic.Kernel.Minilisp.Machine

/-!
# KernelPanic.Kernel.Minilisp.Rules

What is left to show when a program begins with an operation: one rule for each,
with the facts it needs.

A rule is about a machine that is given by its parts.  The table of pointers is only
known by what it answers: an operation that notes a pointer leaves one that answers
all that it answered before (`Handles.Le`), and the pointer.
-/

namespace KernelPanic.Minilisp

open Machine Prog

section tables

variable {H : Type} {b : Backend H} {c : Statics} {t t' t'' : Handles} {a a' : ℕ} {p : Ptr}

/-- The variable holds the address, and may be used. -/
def Handles.Has (b : Backend H) (c : Statics) (t : Handles) (p : Ptr) (a : ℕ) : Prop :=
  t.address b.strict c p = .ok a

/-- The equation to rewrite with. -/
theorem Handles.Has.eq (h : t.Has b c p a) : t.address b.strict c p = .ok a := h

/-- What could be used can be used. -/
def Handles.Le (b : Backend H) (c : Statics) (t t' : Handles) : Prop :=
  ∀ p a, t.Has b c p a → t'.Has b c p a

/-- One operation after the other. -/
theorem Handles.Le.trans (h : t.Le b c t') (h' : t'.Le b c t'') : t.Le b c t'' :=
  fun p a ha => h' p a (h p a ha)

theorem Handles.Le.refl : t.Le b c t := fun _ _ => id

/-- NULL may always be used. -/
@[simp] theorem has_null : t.Has b c .null null := rfl

/-- The constants may always be used. -/
@[simp] theorem has_nil : t.Has b c .nil c.constNil := rfl

@[simp] theorem has_constTrue : t.Has b c .constTrue c.constTrue := rfl

@[simp] theorem has_dot : t.Has b c .dot c.constDot := rfl

@[simp] theorem has_cparen : t.Has b c .cparen c.constCparen := rfl

/-- The pointer just noted may be used. -/
theorem hold_has : (t.hold a).2.Has b c (t.hold a).1 a := by
  simp [Handles.Has, Handles.address, Handles.hold, Handles.all]

/-- The others may be used as before. -/
theorem hold_le : t.Le b c (t.hold a).2 := by
  intro p a' h
  cases p with
  | var n =>
      simp only [Handles.Has, Handles.address, Handles.hold, Handles.all, ← List.append_assoc] at h ⊢
      cases hn : (t.old ++ t.young)[n]? with
      | none => simp [hn] at h
      | some x =>
          simp only [List.getElem?_append_left (List.getElem?_eq_some_iff.mp hn).1, hn] at h ⊢
          exact h
  | _ => exact h

end tables

section frames

variable {c : Statics} {root : Frames} {frame : List ℕ} {depth j p symbols : ℕ}

/-- The innermost frame. -/
@[simp] theorem frame_self : Frames.frame (frame :: root) root.length = frame := by
  simp [Frames.frame]

/-- A frame further out. -/
theorem frame_cons (h : depth < root.length) :
    Frames.frame (frame :: root) depth = root.frame depth := by
  simp [Frames.frame, List.getElem?_append_left, h]

/-- A slot of the innermost frame is assigned. -/
@[simp] theorem set_self : Frames.set (frame :: root) root.length j p = frame.set j p :: root := by
  have hmodify : (root.reverse ++ [frame]).modify root.length (·.set j p) =
      root.reverse ++ [frame.set j p] := by
    refine List.ext_getElem? fun k => ?_
    rw [List.getElem?_modify, List.getElem?_append, List.getElem?_append]
    simp only [List.length_reverse]
    grind
  simp [Frames.set, hmodify]

/-- A slot of a frame further out is assigned. -/
theorem set_cons (h : depth < root.length) :
    Frames.set (frame :: root) depth j p = frame :: Frames.set root depth j p := by
  have hmodify : (root.reverse ++ [frame]).modify depth (·.set j p) =
      root.reverse.modify depth (·.set j p) ++ [frame] := by
    refine List.ext_getElem? fun k => ?_
    rw [List.getElem?_modify, List.getElem?_append, List.getElem?_append, List.getElem?_modify]
    simp only [List.length_reverse, List.length_modify]
    grind
  simp [Frames.set, hmodify]

end frames

section fits

variable {x y z : Ref} {name : List UInt8} {n : BitVec 32} {isMacro : Bool}

/-- Every object but a symbol has one of a few sizes. -/
theorem Request.fits_makeInt : (makeInt n).Fits := by
  simp [Fits, bytes, payload, Payload.bytes, headerSize]

theorem Request.fits_cons : (cons x y).Fits := by
  simp [Fits, bytes, payload, Payload.bytes, headerSize]

theorem Request.fits_makeEnv : (makeEnv x y).Fits := by
  simp [Fits, bytes, payload, Payload.bytes, headerSize]

theorem Request.fits_makePrimitive {fn : ℕ} : (makePrimitive fn).Fits := by
  simp [Fits, bytes, payload, Payload.bytes, headerSize]

theorem Request.fits_makeFunction : (makeFunction x isMacro y z).Fits := by
  cases isMacro <;> simp [Fits, bytes, payload, Payload.bytes, headerSize]

/-- A symbol fits while its name is not longer than the reader makes it. -/
theorem Request.fits_makeSymbol (hname : name.length ≤ 200) : (makeSymbol name).Fits := by
  simp only [Fits, bytes, payload, Payload.bytes, headerSize]
  omega

end fits

/-! ## rules -/

section rules

variable {H : Type} {b : Backend H} {c : Statics} {heap : H} {frames : Frames} {t : Handles}
  {w : World} {a a' : ℕ} {p q : Ptr} {payload : Payload} {α β : Type} {f : Field} {r : Ref} {n : ℕ}
  {Q : Except Fault α → Machine H → Prop}

/-- A slot or a variable of the program is read. -/
theorem wp_star {k : Ptr → Code α}
    (hk : ∀ t' q, t.Le b c t' → t'.Has b c q (deref c (b.symbols heap) frames r) →
      wp (handle b c) (k q) Q ⟨heap, frames, t', w⟩) :
    wp (handle b c) (star r >>= k) Q ⟨heap, frames, t, w⟩ := by
  rw [star, op_bind, wp_step]
  exact hk _ _ hold_le hold_has

/-- A slot of the innermost frame. -/
theorem wp_star_self {k : Ptr → Code α} {root : Frames} {frame : List ℕ} {j : ℕ}
    (hslot : frame[j]? = some a)
    (hk : ∀ t' q, t.Le b c t' → t'.Has b c q a →
      wp (handle b c) (k q) Q ⟨heap, frame :: root, t', w⟩) :
    wp (handle b c) (star (.slot root.length j) >>= k) Q ⟨heap, frame :: root, t, w⟩ := by
  refine wp_star fun t' q hle hq => hk t' q hle ?_
  simpa [deref, hslot] using hq

/-- A slot is assigned. -/
theorem wp_assign_slot {k : Unit → Code α} {depth j : ℕ} (hp : t.Has b c p a)
    (hk : wp (handle b c) (k ()) Q ⟨heap, Frames.set frames depth j a, t, w⟩) :
    wp (handle b c) (assign (.slot depth j) p >>= k) Q ⟨heap, frames, t, w⟩ := by
  rw [assign, op_bind, wp_step]
  simp only [handle, Machine.address, hp.eq]
  exact hk

/-- `Symbols` is assigned, and not to NULL. -/
theorem wp_assign_symbols {k : Unit → Code α} (hp : t.Has b c p a) (ha : a ≠ null)
    (hk : wp (handle b c) (k ()) Q ⟨b.setSymbols heap a, frames, t, w⟩) :
    wp (handle b c) (assign .symbols p >>= k) Q ⟨heap, frames, t, w⟩ := by
  rw [assign, op_bind, wp_step]
  simp only [handle, Machine.address, hp.eq, ha, ↓reduceIte, Bind.bind, Except.bind, Pure.pure,
    Except.pure]
  exact hk

/-- A member that is no pointer is read. -/
theorem wp_look {k : β → Code α} {view : Payload → Option β} {x : β} (hp : t.Has b c p a)
    (hread : b.read heap a = some payload) (hview : view payload.erase = some x)
    (hk : wp (handle b c) (k x) Q ⟨heap, frames, t, w⟩) :
    wp (handle b c) (Prog.op (.look p view) >>= k) Q ⟨heap, frames, t, w⟩ := by
  rw [op_bind, wp_step]
  simp only [handle, Machine.address, hp.eq, Machine.fetch, hread, hview, Bind.bind, Except.bind,
    Pure.pure, Except.pure]
  exact hk

/-- `obj->type`. -/
theorem wp_type {k : ℕ → Code α} (hp : t.Has b c p a) (hread : b.read heap a = some payload)
    (hk : wp (handle b c) (k payload.type) Q ⟨heap, frames, t, w⟩) :
    wp (handle b c) (p.type >>= k) Q ⟨heap, frames, t, w⟩ :=
  wp_look hp hread (by cases payload <;> rfl) hk

/-- `obj->value` of a number. -/
theorem wp_value {k : BitVec 32 → Code α} {x : BitVec 32} (hp : t.Has b c p a)
    (hread : b.read heap a = some (.int x))
    (hk : wp (handle b c) (k x) Q ⟨heap, frames, t, w⟩) :
    wp (handle b c) (p.value >>= k) Q ⟨heap, frames, t, w⟩ :=
  wp_look hp hread rfl hk

/-- `obj->name` of a symbol. -/
theorem wp_name {k : List UInt8 → Code α} {name : List UInt8} (hp : t.Has b c p a)
    (hread : b.read heap a = some (.symbol name))
    (hk : wp (handle b c) (k name) Q ⟨heap, frames, t, w⟩) :
    wp (handle b c) (p.name >>= k) Q ⟨heap, frames, t, w⟩ :=
  wp_look hp hread rfl hk

/-- A member that is a pointer is read. -/
theorem wp_get {k : Ptr → Code α} (hp : t.Has b c p a) (hread : b.read heap a = some payload)
    (hf : payload.field f = some a')
    (hk : ∀ t' q, t.Le b c t' → t'.Has b c q a' →
      wp (handle b c) (k q) Q ⟨heap, frames, t', w⟩) :
    wp (handle b c) (p.get f >>= k) Q ⟨heap, frames, t, w⟩ := by
  rw [Ptr.get, op_bind, wp_step]
  simp only [handle, Machine.address, hp.eq, Machine.fetch, hread, hf, Bind.bind, Except.bind,
    Pure.pure, Except.pure]
  exact hk _ _ hold_le hold_has

/-- A member of an object is assigned. -/
theorem wp_set {k : Unit → Code α} {old : ℕ} (hp : t.Has b c p a) (hq : t.Has b c q a')
    (hread : b.read heap a = some payload) (hf : payload.field f = some old)
    (hk : wp (handle b c) (k ()) Q ⟨b.write heap a (payload.setField a' f), frames, t, w⟩) :
    wp (handle b c) (p.set f q >>= k) Q ⟨heap, frames, t, w⟩ := by
  rw [Ptr.set, op_bind, wp_step]
  simp only [handle, Machine.address, hp.eq, hq.eq, Machine.fetch, hread, hf, Bind.bind,
    Except.bind, Pure.pure, Except.pure]
  exact hk

/-- The assignment to a member that a constant does not have is noted as damage. -/
theorem wp_set_const {k : Unit → Code α} (hp : t.Has b c p a) (hq : t.Has b c q a')
    (hread : b.read heap a = some payload) (hconst : payload.IsConst)
    (hk : wp (handle b c) (k ()) Q
      ⟨heap, frames, t, { w with damaged := w.damaged ++ [(payload, f)] }⟩) :
    wp (handle b c) (p.set f q >>= k) Q ⟨heap, frames, t, w⟩ := by
  have hf : payload.field f = none := by
    cases payload <;> simp_all [Payload.IsConst, Payload.field]
  rw [Ptr.set, op_bind, wp_step]
  simp only [handle, Machine.address, hp.eq, hq.eq, Machine.fetch, hread, hf, hconst, ↓reduceIte,
    Bind.bind, Except.bind, Pure.pure, Except.pure]
  exact hk

/-- Two pointers are compared. -/
theorem wp_is {k : Bool → Code α} (hp : t.Has b c p a) (hq : t.Has b c q a')
    (hk : wp (handle b c) (k (a = a')) Q ⟨heap, frames, t, w⟩) :
    wp (handle b c) (p.is q >>= k) Q ⟨heap, frames, t, w⟩ := by
  rw [Ptr.is, op_bind, wp_step]
  simp only [handle, Machine.address, hp.eq, hq.eq, Bind.bind, Except.bind, Pure.pure, Except.pure]
  exact hk

/-- A scope: the frame is there while the body runs, and gone when it has returned. -/
theorem wp_define {body : ℕ → Code β} {k : β → Code α}
    (hbody : wp (handle b c) (body frames.length)
      (fun res m' => match res with
        | .ok x => wp (handle b c) (k x) Q { m' with frames := m'.frames.tail }
        | .error e => Q (.error e) m')
      ⟨heap, List.replicate n null :: frames, t, w⟩) :
    wp (handle b c) (define n body >>= k) Q ⟨heap, frames, t, w⟩ := by
  simp only [define, op_bind, step_bind, bind_assoc', pure_bind']
  rw [wp_step]
  simp only [handle]
  rw [wp_bind]
  refine wp_mono hbody fun res m' hres => ?_
  cases res <;> exact hres

/-- A new object, after which every handle is old. -/
theorem wp_make {heap : Ideal} {Q : Except Fault α → Machine Ideal → Prop} {k : Ptr → Code α}
    {req : Request} (hfits : req.Fits)
    (hk : ∀ t' q, t'.Has (ideal c) c q heap.next →
      wp (handle (ideal c) c) (k q) Q
        ⟨heap.place (req.payload (deref c heap.symbols frames)), frames, t', w⟩) :
    wp (handle (ideal c) c) (Prog.op (.make req) >>= k) Q ⟨heap, frames, t, w⟩ := by
  rw [op_bind, wp_step]
  simp only [handle, ideal, hfits, ↓reduceIte, Bind.bind, Except.bind, Pure.pure, Except.pure]
  exact hk _ _ hold_has

end rules

end KernelPanic.Minilisp
