import Mathlib.Data.Int.Notation
import Mathlib.Data.Nat.Notation

/-!
# KernelPanic.Kernel.Minilisp

Lisp objects and the collector of `kernel/minilisp.c`.  Memory is a map from
addresses to the objects that start there.  An object lies in the bytes its
`size` counts, header included, and whatever is written over one of its bytes
destroys it, so copying, tombstones and field updates act on memory as the C code
does as long as no two objects share a byte, and show up as missing objects
otherwise.

The static variables `scan1` and `scan2` and the thread's block are part of the
state.  A chain of root frames is the list of its frames; a frame is the list of
its slots between the link and `ROOT_END`.
-/

namespace KernelPanic.Minilisp

/-! ## objects -/

/-- What the union of an object holds, with the type tag that says so. -/
inductive Payload
  | int (value : BitVec 32)
  | cell (car cdr : ℕ)
  | symbol (name : List UInt8)
  | primitive (fn : ℕ)
  | function (params body env : ℕ)
  | macroFn (params body env : ℕ)
  | env (vars up : ℕ)
  | moved (moved : ℕ)
  | constTrue
  | constNil
  | constDot
  | constCparen
  deriving DecidableEq, Repr

/-- The members of the union that point to objects. -/
inductive Field
  | car | cdr | params | body | env | vars | up
  deriving DecidableEq, Repr

namespace Payload

/-- The type tag: `TINT`, `TCELL`, …, `TCPAREN`. -/
def type : Payload → ℕ
  | int _ => 1
  | cell .. => 2
  | symbol _ => 3
  | primitive _ => 4
  | function .. => 5
  | macroFn .. => 6
  | env .. => 7
  | moved _ => 8
  | constTrue => 9
  | constNil => 10
  | constDot => 11
  | constCparen => 12

/-- The bytes of the union in use; a name ends with a zero byte. -/
def bytes : Payload → ℕ
  | int _ => 4
  | cell .. | env .. => 16
  | symbol name => name.length + 1
  | primitive _ | moved _ => 8
  | function .. | macroFn .. => 24
  | constTrue | constNil | constDot | constCparen => 0

/-- The pointer in a member of the union, where the type has that member. -/
def field : Payload → Field → Option ℕ
  | cell car _, .car => some car
  | cell _ cdr, .cdr => some cdr
  | function params _ _, .params | macroFn params _ _, .params => some params
  | function _ body _, .body | macroFn _ body _, .body => some body
  | function _ _ e, .env | macroFn _ _ e, .env => some e
  | env vars _, .vars => some vars
  | env _ up, .up => some up
  | _, _ => none

/-- An assignment to a member of the union. -/
def setField (p : ℕ) : Payload → Field → Payload
  | cell _ cdr, .car => cell p cdr
  | cell car _, .cdr => cell car p
  | function _ body e, .params => function p body e
  | function params _ e, .body => function params p e
  | function params body _, .env => function params body p
  | macroFn _ body e, .params => macroFn p body e
  | macroFn params _ e, .body => macroFn params p e
  | macroFn params body _, .env => macroFn params body p
  | env _ up, .vars => env p up
  | env vars _, .up => env vars p
  | payload, _ => payload

end Payload

/-- An object; `type` is read off the payload. -/
structure Obj where
  size : ℕ
  payload : Payload
  deriving DecidableEq, Repr

/-- `offsetof(Obj, value)`: the type and the size. -/
def headerSize : ℕ := 8

/-- The bytes an object lies in. -/
def Obj.bytes (o : Obj) : ℕ := max o.size (headerSize + o.payload.bytes)

/-- The objects by the addresses they start at. -/
abbrev Memory := ℕ → Option Obj

/-- An object is written; any other object that shares a byte with it is lost. -/
def Memory.write (m : Memory) (a : ℕ) (o : Obj) : Memory := fun x =>
  if x = a then some o
  else match m x with
    | some p => if x + p.bytes ≤ a ∨ a + o.bytes ≤ x then some p else none
    | none => none

/-! ## state -/

/-- `struct ALLOC_BLOCK` -/
structure AllocBlock where
  memory : ℕ
  fromSpace : ℕ
  memNused : ℕ
  curHeap : ℕ
  nextHeap : ℕ
  memorySize : ℕ
  gcRunning : Bool
  debugGc : Bool
  alwaysGc : Bool
  symbols : ℕ

/-- Memory, the thread's block, the scan pointers, and the lines that `gc` has printed. -/
structure State where
  mem : Memory
  block : AllocBlock
  scan1 : ℕ
  scan2 : ℕ
  printed : List String

/-- The slots of each frame, from the innermost frame out. -/
abbrev Frames := List (List ℕ)

def null : ℕ := 0

/-- How a run stops short. -/
inductive Fault
  /-- `error` was called with the format.  What would be put into it is left out: `error`
  hands its `va_list` to `HalError` as one of the variable arguments. -/
  | error (fmt : String)
  /-- An `ASSERT` failed. -/
  | assertion
  /-- No object is at the address, or it has no such member. -/
  | badAccess (a : ℕ)
  /-- The input has run out, and the reader waits for more. -/
  | blocked
  | outOfFuel
  deriving DecidableEq, Repr

/-! ## collector -/

/-- `forward`: the new address of an object, which is moved if it has not been. -/
def forward (s : State) (obj : ℕ) : Except Fault (State × ℕ) :=
  let offset : ℤ := obj - s.block.fromSpace
  if offset < 0 ∨ (s.block.memorySize : ℤ) ≤ offset then .ok (s, obj)
  else match s.mem obj with
    | none => .error (.badAccess obj)
    | some o => match o.payload with
      | .moved newloc => .ok (s, newloc)
      | _ =>
        let newloc := s.scan2
        let copied := s.mem.write newloc o
        let mem := copied.write obj { o with payload := .moved newloc }
        .ok ({ s with mem := mem, scan2 := s.scan2 + o.size }, newloc)

/-- A slot that is NULL is left alone. -/
def forwardSlot (s : State) (slot : ℕ) : Except Fault (State × ℕ) :=
  if slot = null then .ok (s, slot) else forward s slot

/-- The slots of one frame. -/
def forwardFrame (s : State) : List ℕ → Except Fault (State × List ℕ)
  | [] => .ok (s, [])
  | slot :: slots => do
    let (s, slot) ← forwardSlot s slot
    let (s, slots) ← forwardFrame s slots
    return (s, slot :: slots)

/-- The frames of a chain. -/
def forwardFrames (s : State) : Frames → Except Fault (State × Frames)
  | [] => .ok (s, [])
  | frame :: frames => do
    let (s, frame) ← forwardFrame s frame
    let (s, frames) ← forwardFrames s frames
    return (s, frame :: frames)

/-- `forward_root_objects` -/
def forwardRootObjects (s : State) (root : Frames) : Except Fault (State × Frames) := do
  let (s, symbols) ← forward s s.block.symbols
  forwardFrames { s with block := { s.block with symbols := symbols } } root

/-- `scan1->f = forward(scan1->f)` -/
def forwardField (s : State) (f : Field) : Except Fault State :=
  match s.mem s.scan1 with
  | none => .error (.badAccess s.scan1)
  | some o => match o.payload.field f with
    | none => .error (.badAccess s.scan1)
    | some p => do
      let (s, p) ← forward s p
      match s.mem s.scan1 with
      | none => .error (.badAccess s.scan1)
      | some o =>
        let o := { o with payload := o.payload.setField p f }
        return { s with mem := s.mem.write s.scan1 o }

/-- Several members, one after the other. -/
def forwardFields (s : State) : List Field → Except Fault State
  | [] => .ok s
  | f :: fs => do
    let s ← forwardField s f
    forwardFields s fs

/-- The members the collector updates in an object of each type; the other types
are not expected in the new space. -/
def Payload.scanned : Payload → Option (List Field)
  | int _ | symbol _ | primitive _ => some []
  | cell .. => some [.car, .cdr]
  | function .. | macroFn .. => some [.params, .body, .env]
  | env .. => some [.vars, .up]
  | moved _ | constTrue | constNil | constDot | constCparen => none

/-- The body of the loop in `gc`. -/
def scanObject (s : State) : Except Fault State :=
  match s.mem s.scan1 with
  | none => .error (.badAccess s.scan1)
  | some o => match o.payload.scanned with
    | none => .error (.error "Bug: copy: unknown type %d")
    | some fs => do
      let s ← forwardFields s fs
      match s.mem s.scan1 with
      | none => .error (.badAccess s.scan1)
      | some o => return { s with scan1 := s.scan1 + o.size }

/-- The loop in `gc`. -/
def scan : ℕ → State → Except Fault State
  | 0, _ => .error .outOfFuel
  | fuel + 1, s =>
    if s.scan1 < s.scan2 then do
      let s ← scanObject s
      scan fuel s
    else .ok s

/-- The heaps are swapped, and both scan pointers set to the new one. -/
def State.swapHeaps (s : State) : State :=
  { s with
    block := { s.block with
      gcRunning := true
      fromSpace := s.block.memory
      memory := s.block.nextHeap
      nextHeap := s.block.curHeap
      curHeap := s.block.nextHeap }
    scan1 := s.block.nextHeap
    scan2 := s.block.nextHeap }

/-- The end of `gc`.  The line goes to the serial port, like all that `lisp_printf` prints:
`sent` has it between what the program writes there. -/
def State.finishGc (s : State) : State :=
  let oldNused := s.block.memNused
  let memNused := s.scan1 - s.block.memory
  let line := s!"GC: {memNused} bytes out of {oldNused} bytes copied.\n"
  { s with
    block := { s.block with memNused := memNused, gcRunning := false }
    printed := if s.block.debugGc then s.printed ++ [line] else s.printed }

/-- `gc` -/
def gc (fuel : ℕ) (s : State) (root : Frames) : Except Fault (State × Frames) :=
  if s.block.gcRunning then .error .assertion
  else do
    let (s, root) ← forwardRootObjects s.swapHeaps root
    let s ← scan fuel s
    return (s.finishGc, root)

end KernelPanic.Minilisp
