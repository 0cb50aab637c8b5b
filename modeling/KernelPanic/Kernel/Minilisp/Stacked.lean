import KernelPanic.Kernel.Minilisp.Typed
import KernelPanic.Kernel.Minilisp.Markers

/-!
# KernelPanic.Kernel.Minilisp.Stacked

Runs on the heap of the allocator that can be computed.

A pointer is looked up soon after it has been noted.  `Machine` notes it at the end of a
table; here the latest is the first, and runs are the same (`stacked_sim`).  What is
said of data and of calls is a test here.
-/

namespace KernelPanic.Minilisp

open Machine Prog

/-- A machine whose pointers are on a stack. -/
structure Stacked where
  heap : State
  frames : Frames
  count : ℕ
  held : List ℕ
  world : World

namespace Stacked

/-- The address that a C variable holds. -/
def address (c : Statics) (m : Stacked) : Ptr → Except Fault ℕ
  | .null => .ok Minilisp.null
  | .nil => .ok c.constNil
  | .constTrue => .ok c.constTrue
  | .dot => .ok c.constDot
  | .cparen => .ok c.constCparen
  | .var n =>
    if n < m.count then
      match m.held[m.count - 1 - n]? with
      | none => .error (.badAccess Minilisp.null)
      | some a => .ok a
    else .error (.badAccess Minilisp.null)

/-- The address of the object that is accessed, which is not NULL. -/
def object (c : Statics) (m : Stacked) (p : Ptr) : Except Fault ℕ := do
  let a ← m.address c p
  if a = null then throw (.badAccess a) else return a

/-- A pointer is noted. -/
def hold (m : Stacked) (a : ℕ) : Ptr × Stacked :=
  (.var m.count, { m with count := m.count + 1, held := a :: m.held })

/-- What is at an address. -/
def fetch (c : Statics) (m : Stacked) (a : ℕ) : Except Fault Payload :=
  match (concrete c).read m.heap a with
  | none => .error (.badAccess a)
  | some payload => .ok payload

/-- What each operation does, if every access must be to a member that the object has. -/
def handle (c : Statics) : Prog.Handler Op Fault Stacked
  | _, .deref r, m => .ok (m.hold (deref c m.heap.block.symbols m.frames r))
  | _, .assign r p, m => do
    let a ← m.address c p
    match r with
    | .slot depth i => return ((), { m with frames := m.frames.set depth i a })
    | .symbols =>
      if a = null then throw (.badAccess a)
      else return ((), { m with heap := (concrete c).setSymbols m.heap a })
    | .nil => throw (.badAccess c.constNil)
    | .constTrue => throw (.badAccess c.constTrue)
  | _, .look p view, m => do
    let _ ← m.object c p
    let a ← m.address c p
    let payload ← m.fetch c a
    match view payload.erase with
    | none => throw (.badAccess a)
    | some x => return (x, m)
  | _, .load p f, m => do
    let _ ← m.object c p
    let a ← m.address c p
    let payload ← m.fetch c a
    match payload.field f with
    | none => throw (.badAccess a)
    | some q => return m.hold q
  | _, .store p f q, m => do
    let a ← m.object c p
    let q ← m.address c q
    let payload ← m.fetch c a
    match payload.field f with
    | some _ => return ((), { m with heap := (concrete c).write m.heap a (payload.setField q f) })
    | none => throw (.badAccess a)
  | _, .same p q, m => do
    let a ← m.address c p
    let a' ← m.address c q
    return (a = a', m)
  | _, .make req, m => do
    let (heap, frames, a) ← make c m.heap m.frames req
    return { m with heap := heap, frames := frames }.hold a
  | _, .push n, m =>
    .ok (m.frames.length, { m with frames := List.replicate n null :: m.frames })
  | _, .pop, m => .ok ((), { m with frames := m.frames.tail })
  | _, .io f, m => do
    let (x, world) ← f m.world
    return (x, { m with world := world })

/-- The same machine, apart from the order of the table. -/
structure Models (q : Stacked) (m : Machine State) : Prop where
  heap : m.heap = q.heap
  frames : m.frames = q.frames
  held : m.table.all = q.held.reverse
  count : q.count = q.held.length
  world : m.world = q.world

/-- The outcomes are the same. -/
def Matches {β : Type} (r : Except Fault (β × Stacked)) (r' : Except Fault (β × Machine State)) : Prop :=
  (∃ e, r = .error e ∧ r' = .error e) ∨ ∃ x q m, r = .ok (x, q) ∧ r' = .ok (x, m) ∧ q.Models m

section matching

variable {c : Statics} {q : Stacked} {m : Machine State} {α β : Type} {a : ℕ}

theorem Matches.error {e : Fault} : Matches (β := β) (.error e) (.error e) := .inl ⟨e, rfl, rfl⟩

theorem Models.ok {x : β} (h : q.Models m) : Matches (.ok (x, q)) (.ok (x, m)) :=
  .inr ⟨x, q, m, rfl, rfl, h⟩

/-- Both go on with what both have found. -/
theorem Matches.bind {r r' : Except Fault α} {f : α → Except Fault (β × Stacked)}
    {f' : α → Except Fault (β × Machine State)} (hr : r' = r) (h : ∀ x, Matches (f x) (f' x)) :
    Matches (r >>= f) (r' >>= f') := by
  subst hr
  cases r' with
  | error e => exact .error
  | ok x => exact h x

theorem Matches.ite {b : Prop} [Decidable b] {r₁ r₂ : Except Fault (β × Stacked)}
    {r₁' r₂' : Except Fault (β × Machine State)} (h₁ : Matches r₁ r₁') (h₂ : Matches r₂ r₂') :
    Matches (if b then r₁ else r₂) (if b then r₁' else r₂') := by
  split
  · exact h₁
  · exact h₂

theorem Models.address (h : q.Models m) (p : Ptr) : m.address (concrete c) c p = q.address c p := by
  cases p with
  | var n =>
      simp only [Machine.address, Handles.address, Stacked.address, h.held, h.count, concrete,
        Bool.false_and, Bool.false_eq_true, ↓reduceIte]
      split_ifs with hn
      · have hget : q.held.reverse[n]? = q.held[q.held.length - 1 - n]? := List.getElem?_reverse hn
        cases hx : q.held[q.held.length - 1 - n]? <;> simp only [hget, hx]
      · rw [List.getElem?_eq_none (by simpa using hn)]
  | _ => rfl

theorem Models.object (h : q.Models m) (p : Ptr) : m.object (concrete c) c p = q.object c p := by
  rw [Machine.object, Stacked.object, h.address]

theorem Models.fetch (h : q.Models m) : m.fetch (concrete c) a = q.fetch c a := by
  cases hx : (concrete c).read q.heap a <;> simp only [Machine.fetch, Stacked.fetch, h.heap, hx]

theorem Models.hold (h : q.Models m) : Matches (.ok (q.hold a)) (.ok (m.hold a)) := by
  have hcount : m.table.all.length = q.count := by rw [h.held, h.count, List.length_reverse]
  have hhold : (m.hold a).1 = (q.hold a).1 := by
    simp only [Machine.hold, Handles.hold, Stacked.hold, hcount]
  refine .inr ⟨(q.hold a).1, (q.hold a).2, (m.hold a).2, rfl, by rw [← hhold], h.heap, h.frames, ?_, ?_,
    h.world⟩
  · simp only [Machine.hold, Handles.hold, Handles.all, Stacked.hold, List.reverse_cons, ← h.held,
      List.append_assoc]
  · simp only [Stacked.hold, h.count, List.length_cons]

/-- Each operation does the same. -/
theorem handle_matches (o : Op β) (h : q.Models m) :
    Matches (handle c o q) (handleTyped (concrete c) c o m) := by
  cases o with
  | deref r =>
      have hderef := h.hold (a := Minilisp.deref c q.heap.block.symbols q.frames r)
      rw [← h.heap, ← h.frames] at hderef
      simp only [handle, ← h.heap, ← h.frames]
      exact hderef
  | assign r p =>
      refine .bind (h.address p) fun a => ?_
      cases r with
      | slot depth i => exact Models.ok ⟨h.heap, by rw [h.frames], h.held, h.count, h.world⟩
      | symbols =>
          refine .ite .error ?_
          exact Models.ok ⟨by rw [h.heap], h.frames, h.held, h.count, h.world⟩
      | nil => exact .error
      | constTrue => exact .error
  | look p view =>
      refine .bind (h.object p) fun _ => .bind (h.address p) fun a => .bind h.fetch fun payload => ?_
      cases view payload.erase with
      | none => exact .error
      | some x => exact h.ok
  | load p f =>
      refine .bind (h.object p) fun _ => .bind (h.address p) fun a => .bind h.fetch fun payload => ?_
      cases payload.field f with
      | none => exact .error
      | some a' => exact h.hold
  | store p f p' =>
      refine .bind (h.object p) fun a => .bind (h.address p') fun a' => .bind h.fetch fun payload => ?_
      cases payload.field f with
      | none => exact .error
      | some old => exact Models.ok ⟨by rw [h.heap], h.frames, h.held, h.count, h.world⟩
  | same p p' => exact .bind (h.address p) fun a => .bind (h.address p') fun a' => h.ok
  | make req =>
      have hmake : (concrete c).make m.heap m.frames req = make c q.heap q.frames req := by
        rw [h.heap, h.frames]
        rfl
      refine .bind hmake fun x => ?_
      have hexpire : m.table.expire.all = q.held.reverse :=
        (List.append_nil _).trans h.held
      exact Models.hold ⟨rfl, rfl, hexpire, h.count, h.world⟩
  | push n =>
      simp only [handle, handleTyped, Minilisp.handle, h.frames]
      exact Models.ok ⟨h.heap, rfl, h.held, h.count, h.world⟩
  | pop => exact Models.ok ⟨h.heap, by rw [h.frames], h.held, h.count, h.world⟩
  | io f =>
      refine .bind (by rw [h.world]) fun x => ?_
      exact Models.ok ⟨h.heap, h.frames, h.held, h.count, rfl⟩

theorem handle_sim (c : Statics) :
    Prog.Simulates (handle c) (handleTyped (concrete c) c) (fun _ => False) (fun _ => False) Models := by
  intro β o q m h
  rcases handle_matches (c := c) o h with hfail | hok
  · exact .inr (.inr (.inl hfail))
  · exact .inr (.inr (.inr hok))

/-- **The runs are the same.** -/
theorem Models.run (h : q.Models m) (p : Code α) :
    (p.run (handleTyped (concrete c) c) m).1 = (p.run (handle c) q).1 ∧
      (p.run (handle c) q).2.Models (p.run (handleTyped (concrete c) c) m).2 := by
  rcases run_sim (handle_sim c) p h with ⟨e, -, hstop⟩ | ⟨e, s, -, hstop, -⟩ | ⟨heq, hmodels⟩
  · exact hstop.elim
  · exact hstop.elim
  · exact ⟨heq.symm, hmodels⟩

/-- A run without a wrong access is the run of the code. -/
theorem Models.run_handle (h : q.Models m) {p : Code α} {r : Except Fault α}
    (hrun : (p.run (handle c) q).1 = r) (hr : ∀ a, r ≠ .error (.badAccess a)) :
    ∃ m', p.run (Minilisp.handle (concrete c) c) m = (r, m') ∧ (p.run (handle c) q).2.Models m' := by
  obtain ⟨heq, hmodels⟩ := h.run (c := c) p
  have htyped : p.run (handleTyped (concrete c) c) m = p.run (Minilisp.handle (concrete c) c) m :=
    run_handleTyped fun a ha => hr a (hrun ▸ heq ▸ ha)
  rw [htyped] at heq hmodels
  exact ⟨_, Prod.ext (heq.trans hrun) rfl, hmodels⟩

theorem Models.run_ok (h : q.Models m) {p : Code α} {x : α} (hrun : (p.run (handle c) q).1 = .ok x) :
    ∃ m', p.run (Minilisp.handle (concrete c) c) m = (.ok x, m') ∧ (p.run (handle c) q).2.Models m' :=
  h.run_handle hrun fun _ => nofun

end matching

end Stacked

/-! ## tests -/

section tests

variable {c : Statics} {rd : ℕ → Option Payload} {n a fn args : ℕ}

/-- A list that ends in the empty list, after at most `n` cells. -/
def isProper (c : Statics) (rd : ℕ → Option Payload) : ℕ → ℕ → Bool
  | 0, a => a = c.constNil
  | n + 1, a => a = c.constNil || a != null &&
    match rd a with
    | some (.cell _ q) => isProper c rd n q
    | _ => false

theorem Proper.of_isProper (h : isProper c rd n a = true) : Proper c rd a := by
  induction n generalizing a with
  | zero => exact of_decide_eq_true h ▸ .nil
  | succ n ih =>
      rw [isProper, Bool.or_eq_true, Bool.and_eq_true, decide_eq_true_eq, bne_iff_ne] at h
      rcases h with rfl | ⟨hnull, h⟩
      · exact .nil
      · split at h
        · next hread => exact .cell hnull hread (ih h)
        · cases h

/-- Data without markers, of which no object is more than `n` steps away. -/
def isMarkerFree (c : Statics) (rd : ℕ → Option Payload) : ℕ → ℕ → Bool
  | 0, _ => false
  | n + 1, a =>
    match rd a with
    | none => true
    | some payload => payload.pointers.all fun p =>
      p != null && p != c.constDot && p != c.constCparen && isMarkerFree c rd n p

/-- What is tested of an object holds of those it points to. -/
theorem isMarkerFree_pointers {payload : Payload} {p : ℕ} (h : isMarkerFree c rd (n + 1) a = true)
    (hread : rd a = some payload) (hp : p ∈ payload.pointers) :
    (p ≠ null ∧ p ≠ c.constDot ∧ p ≠ c.constCparen) ∧ isMarkerFree c rd n p = true := by
  rw [isMarkerFree, hread] at h
  have hall := List.all_eq_true.mp h p hp
  simp only [Bool.and_eq_true, bne_iff_ne] at hall
  exact ⟨⟨hall.1.1.1, hall.1.1.2, hall.1.2⟩, hall.2⟩

theorem MarkerFree.of_isMarkerFree (h : isMarkerFree c rd n a = true) : MarkerFree c rd a := by
  induction n generalizing a with
  | zero => cases h
  | succ n ih =>
      intro x payload hpart hread p hp
      rcases hpart.split with rfl | ⟨b, hb, hpart⟩
      · exact (isMarkerFree_pointers h hread hp).1
      · cases hpayload : rd a with
        | none => simp [children, hpayload] at hb
        | some payload' =>
            obtain ⟨hb, -⟩ := (mem_children hpayload).mp hb
            exact ih (isMarkerFree_pointers h hpayload hb).2 x payload hpart hread p hp

namespace Call

/-- The places of the function and of the arguments, where a program begins with `apply`. -/
def asApply {α : Type} : Code α → Option (Ref × Ref)
  | .step (.deref args) next =>
    match next .null with
    | .step (.same _ _) next =>
      match next true, next false with
      | .step (.deref fn) _, .step (.look _ _) _ => some (fn, args)
      | _, _ => none
    | _ => none
  | _ => none

/-- The place of the function, where a program begins with `apply_func`. -/
def asApplyFunc {α : Type} : Code α → Option Ref
  | .step (.push _) next =>
    match next 0 with
    | .step (.deref fn) next =>
      match next .null with
      | .step (.load _ .params) _ => some fn
      | _ => none
    | _ => none
  | _ => none

/-- The test of `PrimitiveOk`, for lists of at most `n` cells. -/
def primitiveOk (c : Statics) (rd : ℕ → Option Payload) (n fn args : ℕ) : Bool :=
  if fn = 2 ∨ fn = 3 ∨ fn = 9 then isProper c rd n args && args != c.constNil
  else if fn = 5 ∨ fn = 8 ∨ fn = 10 then isProper c rd n args
  else if fn = 12 ∨ fn = 13 ∨ fn = 19 ∨ fn = 20 ∨ fn = 21 then args != c.constNil
  else true

theorem PrimitiveOk.of_primitiveOk (h : primitiveOk c rd n fn args = true) :
    PrimitiveOk c rd fn args := by
  unfold primitiveOk at h
  unfold PrimitiveOk
  split_ifs at h ⊢
  · rw [Bool.and_eq_true, bne_iff_ne] at h
    exact ⟨.of_isProper h.1, h.2⟩
  · exact .of_isProper h
  · exact bne_iff_ne.mp h

/-- The test of what `Ok` says of `apply`. -/
def applyOk (c : Statics) (rd : ℕ → Option Payload) (n fn args : ℕ) : Bool :=
  match rd fn with
  | some (.primitive k) => primitiveOk c rd n k args
  | some (.function _ _ _) => isProper c rd n args
  | _ => true

/-- The test of what `Ok` says of `apply_func`. -/
def applyFuncOk (c : Statics) (rd : ℕ → Option Payload) (n fn : ℕ) : Bool :=
  match rd fn with
  | some (.function _ body _) => isProper c rd n body
  | some (.macroFn _ body _) => isProper c rd n body
  | _ => true

/-- The test of `Ok`, where the program begins with a call. -/
def test (c : Statics) (n : ℕ) {α : Type} (p : Code α) (q : Stacked) : Bool :=
  let read := (concrete c).read q.heap
  let value := deref c q.heap.block.symbols q.frames
  (asApply p).all (fun x => applyOk c read n (value x.1) (value x.2)) &&
    (asApplyFunc p).all fun fn => applyFuncOk c read n (value fn)

theorem Ok.of_test {α : Type} {p : Code α} {q : Stacked} {m : Machine State} (hq : q.Models m)
    (h : test c n p q = true) : Met Call.code (Call.Ok (concrete c) c) p m := by
  rw [test, ← hq.heap, ← hq.frames, Bool.and_eq_true] at h
  rintro (⟨limit, k, env, fn, args⟩ | ⟨limit, k, fn, args⟩) rest rfl
  · have happly : applyOk c ((concrete c).read m.heap) n (deref c m.heap.block.symbols m.frames fn)
        (deref c m.heap.block.symbols m.frames args) = true := h.1
    rw [applyOk] at happly
    refine fun _ => ⟨fun k hread => ?_, fun params body env hread => ?_⟩ <;>
      simp only [concrete] at hread happly <;> rw [hread] at happly
    · exact .of_primitiveOk happly
    · exact .of_isProper happly
  · have happly : applyFuncOk c ((concrete c).read m.heap) n
        (deref c m.heap.block.symbols m.frames fn) = true := h.2
    rw [applyFuncOk] at happly
    intro params body env hread _
    simp only [concrete] at hread happly
    rcases hread with hread | hread <;> rw [hread] at happly <;> exact .of_isProper happly

end Call

end tests

end KernelPanic.Minilisp
