import KernelPanic.Kernel.Minilisp
import KernelPanic.Lib.Tiling
import KernelPanic.Lib.Traversal
import Mathlib.Data.Set.Function

/-!
# KernelPanic.Kernel.Minilisp.Graph

The Lisp heap as a graph.  `WellFormed` says what the collector relies on: objects
back to back, each pointer at the start of one or at a statically allocated
object.  `Collected` says what a collection achieves: the reachable objects are
the objects of the new space, one for one, with every pointer replaced by the new
address of what it points to.
-/

namespace KernelPanic.Minilisp

open Tiling Traversal

/-! ## pointers of an object -/

namespace Payload

/-- The pointers to objects. -/
def pointers : Payload → List ℕ
  | cell car cdr => [car, cdr]
  | function params body e | macroFn params body e => [params, body, e]
  | env vars up => [vars, up]
  | _ => []

/-- Every pointer is replaced, the rest is kept. -/
def mapPointers (σ : ℕ → ℕ) : Payload → Payload
  | cell car cdr => cell (σ car) (σ cdr)
  | function params body e => function (σ params) (σ body) (σ e)
  | macroFn params body e => macroFn (σ params) (σ body) (σ e)
  | env vars up => env (σ vars) (σ up)
  | payload => payload

/-- Several members are replaced, one after the other. -/
def mapFields (σ : ℕ → ℕ) (payload : Payload) : List Field → Payload
  | [] => payload
  | f :: fs => mapFields σ ((payload.field f).elim payload fun p => payload.setField (σ p) f) fs

variable {σ σ' : ℕ → ℕ} {payload : Payload} {f g : Field} {fs : List Field} {p q : ℕ}

/-- The pointers of a renamed object are renamed. -/
@[simp] theorem pointers_mapPointers : (payload.mapPointers σ).pointers = payload.pointers.map σ := by
  cases payload <;> rfl

/-- A renaming matters on the pointers alone. -/
theorem mapPointers_congr (h : ∀ p ∈ payload.pointers, σ' p = σ p) :
    payload.mapPointers σ' = payload.mapPointers σ := by
  cases payload <;> simp_all [mapPointers, pointers]

@[simp] theorem bytes_mapPointers : (payload.mapPointers σ).bytes = payload.bytes := by
  cases payload <;> rfl

@[simp] theorem scanned_mapPointers : (payload.mapPointers σ).scanned = payload.scanned := by
  cases payload <;> rfl

@[simp] theorem bytes_setField : (payload.setField p f).bytes = payload.bytes := by
  cases payload <;> cases f <;> rfl

/-- An assignment leaves the other members. -/
theorem field_setField (hne : g ≠ f) : (payload.setField p f).field g = payload.field g := by
  cases payload <;> cases f <;> cases g <;> first | rfl | exact absurd rfl hne

/-- The members the collector updates are the pointers. -/
theorem mapFields_scanned (h : payload.scanned = some fs) :
    payload.mapFields σ fs = payload.mapPointers σ := by
  cases payload <;> cases h <;> rfl

/-- The members that the collector updates are the pointers, each once. -/
theorem pointers_of_scanned (h : payload.scanned = some fs) :
    fs.Nodup ∧ fs.map payload.field = payload.pointers.map some := by
  cases payload <;> cases h <;> exact ⟨by decide, rfl⟩

end Payload

/-! ## what the collector relies on -/

/-- An object of a type the collector expects, that has room for its contents and
for a forwarding pointer. -/
def Obj.IsRegular (o : Obj) : Prop :=
  o.payload.scanned.isSome ∧ headerSize + max 8 o.payload.bytes ≤ o.size

/-- The addresses of the objects that are allocated statically. -/
structure Statics where
  constTrue : ℕ
  constNil : ℕ
  constDot : ℕ
  constCparen : ℕ

/-- The statically allocated objects, with their addresses; their `size` is 0. -/
def Statics.objects (c : Statics) : List (ℕ × Obj) :=
  [(c.constTrue, ⟨0, .constTrue⟩), (c.constNil, ⟨0, .constNil⟩),
    (c.constDot, ⟨0, .constDot⟩), (c.constCparen, ⟨0, .constCparen⟩)]

/-- The addresses of the constants. -/
def Statics.addresses (c : Statics) : List ℕ := c.objects.map Prod.fst

@[simp] theorem Statics.mem_addresses {c : Statics} {p : ℕ} : p ∈ c.addresses ↔
    p = c.constTrue ∨ p = c.constNil ∨ p = c.constDot ∨ p = c.constCparen := by
  simp [addresses, objects]

/-- The address is in the space in use. -/
def AllocBlock.InSpace (b : AllocBlock) (p : ℕ) : Prop :=
  b.memory ≤ p ∧ p < b.memory + b.memorySize

instance (b : AllocBlock) : DecidablePred b.InSpace := fun _ =>
  inferInstanceAs (Decidable (_ ∧ _))

/-- The object has no byte in the `n` bytes from `lo` on. -/
def Outside (lo n x : ℕ) (o : Obj) : Prop := x + o.bytes ≤ lo ∨ lo + n ≤ x

/-- The size of the object at an address. -/
def sizeAt (m : Memory) (a : ℕ) : ℕ := (m a).elim 0 Obj.size

/-- What is at an address. -/
def payloadAt (m : Memory) (a : ℕ) : Payload := (m a).elim .constNil Obj.payload

/-- A heap between two collections; `objs` are the addresses of its objects. -/
structure WellFormed (c : Statics) (s : State) (root : Frames) (objs : List ℕ) : Prop where
  tiles : Tiles id (sizeAt s.mem) s.block.memory objs (s.block.memory + s.block.memNused)
  regular : ∀ a ∈ objs, ∃ o, s.mem a = some o ∧ o.IsRegular
  pointers : ∀ a ∈ objs, ∀ p ∈ (payloadAt s.mem a).pointers,
    p = null ∨ p ∈ objs ∨ p ∈ c.addresses
  roots : ∀ frame ∈ root, ∀ p ∈ frame, p = null ∨ p ∈ objs ∨ p ∈ c.addresses
  symbols : s.block.symbols ∈ objs ∨ s.block.symbols ∈ c.addresses
  used : s.block.memNused ≤ s.block.memorySize
  current : s.block.memory = s.block.curHeap
  apart : s.block.curHeap + s.block.memorySize ≤ s.block.nextHeap ∨
    s.block.nextHeap + s.block.memorySize ≤ s.block.curHeap
  notNull : 0 < s.block.curHeap ∧ 0 < s.block.nextHeap
  statics : ∀ x o, (x, o) ∈ c.objects → s.mem x = some o ∧
    Outside s.block.curHeap s.block.memorySize x o ∧
    Outside s.block.nextHeap s.block.memorySize x o
  idle : s.block.gcRunning = false

/-! ## what it achieves -/

/-- The pointers of an object into the space in use. -/
def State.refs (s : State) (a : ℕ) : List ℕ :=
  (payloadAt s.mem a).pointers.filter (s.block.InSpace ·)

/-- The roots and `Symbols`, as far as they point into the space in use. -/
def State.rootRefs (s : State) (root : Frames) : List ℕ :=
  (s.block.symbols :: root.flatten).filter (s.block.InSpace ·)

/-- The objects that can be reached from the roots and `Symbols`. -/
def State.Reachable (s : State) (root : Frames) : ℕ → Prop :=
  Traversal.Reachable s.refs (s.rootRefs root)

/-- A collection has led from `s` and `root` to `s'` and `root'`; `σ` takes the
objects to their new addresses and every other address to itself. -/
structure Collected (c : Statics) (s : State) (root : Frames) (s' : State) (root' : Frames)
    (objs' : List ℕ) (σ : ℕ → ℕ) : Prop where
  tiles : Tiles id (sizeAt s'.mem) s'.block.memory objs' (s'.block.memory + s'.block.memNused)
  bijective : Set.BijOn σ {a | s.Reachable root a} {b | b ∈ objs'}
  copies : ∀ a, s.Reachable root a → ∃ o, s.mem a = some o ∧
    s'.mem (σ a) = some ⟨o.size, o.payload.mapPointers σ⟩
  fixed : ∀ p, ¬ s.block.InSpace p → σ p = p
  null : σ null = null
  statics : ∀ x o, (x, o) ∈ c.objects → σ x = x ∧ s'.mem x = some o
  roots : root' = root.map (List.map σ)
  symbols : s'.block.symbols = σ s.block.symbols
  noOldPointer : ∀ b ∈ objs', ∀ p ∈ (payloadAt s'.mem b).pointers, ¬ s.block.InSpace p
  noOldRoot : ∀ frame ∈ root', ∀ p ∈ frame, ¬ s.block.InSpace p
  noOldSymbols : ¬ s.block.InSpace s'.block.symbols
  memory : s'.block.memory = s'.block.curHeap
  curHeap : s'.block.curHeap = s.block.nextHeap
  nextHeap : s'.block.nextHeap = s.block.curHeap
  used : s'.block.memNused ≤ s'.block.memorySize
  memorySize : s'.block.memorySize = s.block.memorySize
  alwaysGc : s'.block.alwaysGc = s.block.alwaysGc
  idle : s'.block.gcRunning = false

/-! ## memory -/

section memory

variable {m : Memory} {a x : ℕ} {o q : Obj}

/-- A regular object has the size that it notes. -/
theorem Obj.IsRegular.bytes_eq (h : o.IsRegular) : o.bytes = o.size :=
  max_eq_left (le_trans (Nat.add_le_add_left (le_max_right ..) _) h.2)

/-- An object is not smaller than its header. -/
theorem Obj.le_bytes (o : Obj) : headerSize ≤ o.bytes :=
  le_trans (Nat.le_add_right ..) (le_max_right ..)

@[simp] theorem Memory.write_self : m.write a o a = some o := if_pos rfl

/-- An object that does not overlap is still there. -/
theorem Memory.write_of_disjoint (h : m x = some q) (hd : Outside a o.bytes x q) :
    m.write a o x = some q := by
  have hne : x ≠ a := by
    rintro rfl
    have hq := q.le_bytes
    have ho := o.le_bytes
    simp only [Outside, headerSize] at hd hq ho
    omega
  rw [Outside] at hd
  simp [Memory.write, hne, h, hd]

theorem sizeAt_of_some (h : m a = some o) : sizeAt m a = o.size := by simp [sizeAt, h]

theorem payloadAt_of_some (h : m a = some o) : payloadAt m a = o.payload := by
  simp [payloadAt, h]

end memory

end KernelPanic.Minilisp
