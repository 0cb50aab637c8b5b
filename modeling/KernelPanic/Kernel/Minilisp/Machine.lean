import KernelPanic.Kernel.Minilisp.Alloc
import KernelPanic.Lib.Program

/-!
# KernelPanic.Kernel.Minilisp.Machine

What the code of `kernel/minilisp.c` above the allocator does to its surroundings,
as operations.  A function of the source is a program over them, and can be run on
two kinds of heap: the one of the allocator and the collector (`concrete`), and one in
which objects never move and memory never ends (`ideal`).

The value of a C variable of type `Obj *` is a handle: the operation that yields a
pointer notes it in a table, which the collector knows nothing of.  A handle taken
before the last allocation is stale; on the ideal heap, where the object would still be
found, using it is an error, so that code without errors there never follows a pointer
that a collection has made invalid.
-/

namespace KernelPanic.Minilisp

/-! ## operations -/

/-- A pointer in a C variable. -/
inductive Ptr
  | null
  | nil
  | constTrue
  | dot
  | cparen
  | var (n : ℕ)
  deriving DecidableEq, Repr

/-- What the code reads and writes beside the heap.  `damaged` are the assignments to
members of statically allocated objects. -/
structure World where
  input : List UInt8
  output : List UInt8
  slept : List (BitVec 32)
  count : BitVec 32
  damaged : List (Payload × Field)
  deriving Repr

/-- Every pointer of the object is hidden. -/
def Payload.erase (payload : Payload) : Payload := payload.mapPointers fun _ => null

inductive Op : Type → Type 1
  /-- `*r` -/
  | deref (r : Ref) : Op Ptr
  /-- `*r = p` -/
  | assign (r : Ref) (p : Ptr) : Op Unit
  /-- A look at `p->type` or at a member that is no pointer. -/
  | look {β : Type} (p : Ptr) (view : Payload → Option β) : Op β
  /-- `p->f` -/
  | load (p : Ptr) (f : Field) : Op Ptr
  /-- `p->f = q` -/
  | store (p : Ptr) (f : Field) (q : Ptr) : Op Unit
  /-- `p == q` -/
  | same (p q : Ptr) : Op Bool
  | make (req : Request) : Op Ptr
  /-- `ADD_ROOT(n)`, which answers how many frames are further out. -/
  | push (n : ℕ) : Op ℕ
  /-- The end of a scope with an `ADD_ROOT`. -/
  | pop : Op Unit
  | io {β : Type} (f : World → Except Fault (β × World)) : Op β

/-- The code of a function. -/
abbrev Code (α : Type) := Prog Op Fault α

/-! ## heaps -/

/-- A heap, as far as the operations use it. -/
structure Backend (H : Type) where
  read : H → ℕ → Option Payload
  write : H → ℕ → Payload → H
  symbols : H → ℕ
  setSymbols : H → ℕ → H
  make : H → Frames → Request → Except Fault (H × Frames × ℕ)
  /-- Using a stale handle is an error. -/
  strict : Bool

/-- The table of pointers: those noted before the last allocation, and after it. -/
structure Handles where
  old : List ℕ
  young : List ℕ

structure Machine (H : Type) where
  heap : H
  frames : Frames
  table : Handles
  world : World

/-- The slot of a frame is assigned. -/
def Frames.set (root : Frames) (depth i p : ℕ) : Frames :=
  (root.reverse.modify depth (·.set i p)).reverse

/-- NULL and the statically allocated objects stay where they are. -/
def Fixed (c : Statics) (a : ℕ) : Prop := a = null ∨ a ∈ c.addresses

instance (c : Statics) : DecidablePred (Fixed c) := fun _ => inferInstanceAs (Decidable (_ ∨ _))

namespace Handles

def all (t : Handles) : List ℕ := t.old ++ t.young

/-- The address that a C variable holds. -/
def address (strict : Bool) (c : Statics) (t : Handles) : Ptr → Except Fault ℕ
  | .null => .ok Minilisp.null
  | .nil => .ok c.constNil
  | .constTrue => .ok c.constTrue
  | .dot => .ok c.constDot
  | .cparen => .ok c.constCparen
  | .var n =>
    match t.all[n]? with
    | none => .error (.badAccess Minilisp.null)
    | some a =>
      if strict && n < t.old.length && !Fixed c a then .error (.badAccess a) else .ok a

/-- A pointer is noted. -/
def hold (t : Handles) (a : ℕ) : Ptr × Handles :=
  (.var t.all.length, { t with young := t.young ++ [a] })

/-- An allocation. -/
def expire (t : Handles) : Handles := ⟨t.all, []⟩

end Handles

namespace Machine

variable {H : Type}

def address (b : Backend H) (c : Statics) (m : Machine H) (p : Ptr) : Except Fault ℕ :=
  m.table.address b.strict c p

def hold (m : Machine H) (a : ℕ) : Ptr × Machine H :=
  ((m.table.hold a).1, { m with table := (m.table.hold a).2 })

/-- What is at an address. -/
def fetch (b : Backend H) (m : Machine H) (a : ℕ) : Except Fault Payload :=
  match b.read m.heap a with
  | none => .error (.badAccess a)
  | some payload => .ok payload

end Machine

/-- A statically allocated object. -/
def Payload.IsConst (payload : Payload) : Prop :=
  payload ∈ [constTrue, constNil, constDot, constCparen]

instance : DecidablePred Payload.IsConst := fun _ => inferInstanceAs (Decidable (_ ∈ _))

/-- What each operation does.  `Symbols` is never NULL, and the places of static
variables are only read. -/
def handle {H : Type} (b : Backend H) (c : Statics) : Prog.Handler Op Fault (Machine H)
  | _, .deref r, m => .ok (m.hold (deref c (b.symbols m.heap) m.frames r))
  | _, .assign r p, m => do
    let a ← m.address b c p
    match r with
    | .slot depth i => return ((), { m with frames := m.frames.set depth i a })
    | .symbols =>
      if a = null then throw (.badAccess a)
      else return ((), { m with heap := b.setSymbols m.heap a })
    | .nil => throw (.badAccess c.constNil)
    | .constTrue => throw (.badAccess c.constTrue)
  | _, .look p view, m => do
    let a ← m.address b c p
    let payload ← m.fetch b a
    match view payload.erase with
    | none => throw (.badAccess a)
    | some x => return (x, m)
  | _, .load p f, m => do
    let a ← m.address b c p
    let payload ← m.fetch b a
    match payload.field f with
    | none => throw (.badAccess a)
    | some q => return m.hold q
  | _, .store p f q, m => do
    let a ← m.address b c p
    let q ← m.address b c q
    let payload ← m.fetch b a
    match payload.field f with
    | some _ => return ((), { m with heap := b.write m.heap a (payload.setField q f) })
    | none =>
      -- The constants have the union too, and nothing stops the assignment.
      if payload.IsConst then
        return ((), { m with world :=
          { m.world with damaged := m.world.damaged ++ [(payload, f)] } })
      else throw (.badAccess a)
  | _, .same p q, m => do
    let a ← m.address b c p
    let a' ← m.address b c q
    return (a = a', m)
  | _, .make req, m => do
    let (heap, frames, a) ← b.make m.heap m.frames req
    return { m with heap := heap, frames := frames, table := m.table.expire }.hold a
  | _, .push n, m =>
    .ok (m.frames.length, { m with frames := List.replicate n null :: m.frames })
  | _, .pop, m => .ok ((), { m with frames := m.frames.tail })
  | _, .io f, m => do
    let (x, world) ← f m.world
    return (x, { m with world := world })

/-- The heap of the allocator. -/
def concrete (c : Statics) : Backend State where
  read s a := (s.mem a).map Obj.payload
  write s a payload := { s with mem := s.mem.write a ⟨sizeAt s.mem a, payload⟩ }
  symbols s := s.block.symbols
  setSymbols s p := { s with block := { s.block with symbols := p } }
  make := make c
  strict := false

/-- A heap that is never collected and never full. -/
structure Ideal where
  read : ℕ → Option Payload
  next : ℕ
  symbols : ℕ

/-- A new object at an address that has never been used. -/
def Ideal.place (h : Ideal) (payload : Payload) : Ideal :=
  { h with read := Function.update h.read h.next (some payload), next := h.next + 1 }

/-- On it, a request must be one that the allocator can serve. -/
def ideal (c : Statics) : Backend Ideal where
  read h := h.read
  write h a payload := { h with read := Function.update h.read a (some payload) }
  symbols := Ideal.symbols
  setSymbols h p := { h with symbols := p }
  make h root req :=
    if req.Fits then .ok (h.place (req.payload (deref c h.symbols root)), root, h.next)
    else .error (.badAccess h.next)
  strict := true

/-! ## notation of the source -/

/-- `*r` -/
def star (r : Ref) : Code Ptr := .op (.deref r)

/-- `*r = p` -/
def assign (r : Ref) (p : Ptr) : Code Unit := .op (.assign r p)

/-- `p->f` -/
def Ptr.get (p : Ptr) (f : Field) : Code Ptr := .op (.load p f)

/-- `p->f = q` -/
def Ptr.set (p : Ptr) (f : Field) (q : Ptr) : Code Unit := .op (.store p f q)

/-- `p == q` -/
def Ptr.is (p q : Ptr) : Code Bool := .op (.same p q)

/-- `p->type` -/
def Ptr.type (p : Ptr) : Code ℕ := .op (.look p fun payload => some payload.type)

/-- `p->value` -/
def Ptr.value (p : Ptr) : Code (BitVec 32) :=
  .op (.look p fun
    | .int n => some n
    | _ => none)

/-- `p->name`, up to the zero byte. -/
def Ptr.name (p : Ptr) : Code (List UInt8) :=
  .op (.look p fun
    | .symbol name => some name
    | _ => none)

/-- `p->fn` -/
def Ptr.fn (p : Ptr) : Code ℕ :=
  .op (.look p fun
    | .primitive fn => some fn
    | _ => none)

/-- `(*r)->f` -/
def Ref.get (r : Ref) (f : Field) : Code Ptr := do
  let p ← star r
  p.get f

/-- `(*r)->type` -/
def Ref.type (r : Ref) : Code ℕ := do
  let p ← star r
  p.type

def tInt : ℕ := 1
def tCell : ℕ := 2
def tSymbol : ℕ := 3
def tPrimitive : ℕ := 4
def tFunction : ℕ := 5
def tMacro : ℕ := 6
def tMoved : ℕ := 8
def tTrue : ℕ := 9
def tNil : ℕ := 10

/-- `error` -/
def error {α : Type} (message : String) : Code α := .fail (.error message)

/-- A scope that begins with `DEFINE1` … `DEFINE4`. -/
def define {α : Type} (n : ℕ) (body : ℕ → Code α) : Code α := do
  let depth ← (Prog.op (.push n) : Code ℕ)
  let result ← body depth
  (Prog.op .pop : Code Unit)
  return result

def makeInt (value : BitVec 32) : Code Ptr := .op (.make (.makeInt value))

def cons (car cdr : Ref) : Code Ptr := .op (.make (.cons car cdr))

def makeSymbol (name : List UInt8) : Code Ptr := .op (.make (.makeSymbol name))

def makePrimitive (fn : ℕ) : Code Ptr := .op (.make (.makePrimitive fn))

def makeFunction (env : Ref) (isMacro : Bool) (params body : Ref) : Code Ptr :=
  .op (.make (.makeFunction env isMacro params body))

def makeEnv (vars up : Ref) : Code Ptr := .op (.make (.makeEnv vars up))

/-- `acons` -/
def acons (x y a : Ref) : Code Ptr :=
  define 1 fun d => do
    let cell := Ref.slot d 0
    assign cell (← cons x y)
    cons cell a

/-- `get1char` -/
def get1char : Code UInt8 :=
  .op (.io fun w =>
    match w.input with
    | [] => .error .blocked
    | c :: rest => .ok (c, { w with input := rest }))

/-- `peek` -/
def peek : Code UInt8 :=
  .op (.io fun w =>
    match w.input with
    | [] => .error .blocked
    | c :: _ => .ok (c, w))

/-- `write` -/
def write (s : List UInt8) : Code Unit :=
  .op (.io fun w => .ok ((), { w with output := w.output ++ s }))

/-- The bytes of a string. -/
def chars (s : String) : List UInt8 := s.toList.map fun c => .ofNat c.toNat

end KernelPanic.Minilisp
