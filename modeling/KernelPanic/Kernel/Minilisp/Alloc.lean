import KernelPanic.Kernel.Minilisp.Collect
import KernelPanic.Lib.Run
import Mathlib.Algebra.BigOperators.Finprod
import Mathlib.Algebra.Ring.Nat

/-!
# KernelPanic.Kernel.Minilisp.Alloc

The allocator of `kernel/minilisp.c`, from `lisp_init` on.

An allocation may collect first, which moves every object, so the constructors
take the places of the pointers they store (`Ref`) and not the pointers.  `Kept`
says what is left of the heap when the allocator goes on to take memory.
-/

namespace KernelPanic.Minilisp

open Tiling Run

/-! ## code -/

/-- `sizeof(void *)` -/
def pointerSize : ℕ := 8

/-- `roundup` -/
def roundup (var size : BitVec 64) : BitVec 64 := (var + size - 1) &&& ~~~(size - 1)

/-- The size of the object for a request of `n` bytes, as `alloc` computes it. -/
def allocSize (n : ℕ) : ℕ :=
  let size := roundup (.ofNat 64 n) (.ofNat 64 pointerSize)
  (roundup (size + .ofNat 64 headerSize) (.ofNat 64 pointerSize)).toNat

/-- `lisp_init` -/
def lispInit (block : AllocBlock) (heap1 heap2 heapSize : ℕ) (debugGc alwaysGc : Bool) :
    AllocBlock :=
  { block with
    curHeap := heap1
    nextHeap := heap2
    memorySize := heapSize
    memory := heap1
    memNused := 0
    debugGc := debugGc
    alwaysGc := alwaysGc }

/-- An object is at most scanned once, and is not empty. -/
def collect (s : State) (root : Frames) : Except Fault (State × Frames) :=
  gc (s.block.memNused + 1) s root

/-- `alloc`, up to the memory it takes; type, size and contents are written to it
at once by the constructors. -/
def alloc (s : State) (root : Frames) (n : ℕ) : Except Fault (State × Frames × ℕ) := do
  let size := allocSize n
  let (s, root) ←
    if s.block.alwaysGc && !s.block.gcRunning then collect s root else pure (s, root)
  let (s, root) ←
    if !s.block.alwaysGc && s.block.memorySize < s.block.memNused + size then collect s root
    else pure (s, root)
  if s.block.memorySize < s.block.memNused + size then throw (.error "Memory exhausted")
  else
    let obj := s.block.memory + s.block.memNused
    let block := { s.block with memNused := s.block.memNused + size }
    return ({ s with block := block }, root, obj)

/-- An `Obj **`: a slot, by the number of frames further out and its place in its
frame, or a static variable. -/
inductive Ref
  | slot (depth i : ℕ)
  | nil
  | constTrue
  | symbols
  deriving DecidableEq, Repr

/-- The slots of the frame with `depth` frames further out. -/
def Frames.frame (root : Frames) (depth : ℕ) : List ℕ := root.reverse[depth]?.getD []

/-- `*ref` -/
def deref (c : Statics) (symbols : ℕ) (root : Frames) : Ref → ℕ
  | .slot depth i => (root.frame depth)[i]?.getD null
  | .nil => c.constNil
  | .constTrue => c.constTrue
  | .symbols => symbols

/-- The calls of the constructors. -/
inductive Request
  | makeInt (value : BitVec 32)
  | cons (car cdr : Ref)
  | makeSymbol (name : List UInt8)
  | makePrimitive (fn : ℕ)
  | makeFunction (env : Ref) (isMacro : Bool) (params body : Ref)
  | makeEnv (vars up : Ref)
  deriving DecidableEq, Repr

/-- What the object holds in the end. -/
def Request.payload (value : Ref → ℕ) : Request → Payload
  | makeInt n => .int n
  | cons car cdr => .cell (value car) (value cdr)
  | makeSymbol name => .symbol name
  | makePrimitive fn => .primitive fn
  | makeFunction env false params body => .function (value params) (value body) (value env)
  | makeFunction env true params body => .macroFn (value params) (value body) (value env)
  | makeEnv vars up => .env (value vars) (value up)

/-- The `size` that is passed to `alloc`. -/
def Request.bytes (req : Request) : ℕ := (req.payload fun _ => null).bytes

/-- `obj->size = size`, where the member is an `int`. -/
def sizeField (size : ℕ) : ℕ := (BitVec.ofNat 32 size).toNat

/-- `make_int`, `cons`, `make_symbol`, `make_primitive`, `make_function` and
`make_env`. -/
def make (c : Statics) (s : State) (root : Frames) (req : Request) :
    Except Fault (State × Frames × ℕ) := do
  let (s, root, obj) ← alloc s root req.bytes
  let payload := req.payload (deref c s.block.symbols root)
  let mem := s.mem.write obj ⟨sizeField (allocSize req.bytes), payload⟩
  return ({ s with mem := mem }, root, obj)

/-- The object has an `int` for a size.  The longest name the interpreter makes a
symbol of has `SYMBOL_MAX_LEN` characters. -/
def Request.Fits (req : Request) : Prop := req.bytes + 2 * headerSize ≤ 2 ^ 31

instance (req : Request) : Decidable req.Fits := inferInstanceAs (Decidable (_ ≤ _))

/-! ## sizes -/

section sizes

variable {req : Request} {value : Ref → ℕ} {n : ℕ}

/-- Without its lowest bits a number is a multiple. -/
theorem and_mask (x : BitVec 64) : x &&& ~~~(8 - 1 : BitVec 64) = (x >>> 3) <<< 3 := by
  rw [show ~~~(8 - 1 : BitVec 64) = BitVec.allOnes 64 <<< 3 by decide]
  ext i hi
  simp only [BitVec.getElem_and, BitVec.getElem_shiftLeft, BitVec.getElem_allOnes]
  by_cases hlow : i < 3
  · simp [hlow]
  · have hback : 3 + (i - 3) = i := by omega
    simp only [hlow, hback, BitVec.getElem_ushiftRight, decide_false, Bool.not_false, Bool.and_true,
      Bool.true_and]
    exact (BitVec.getLsbD_eq_getElem hi).symm

theorem roundup_toNat {var : BitVec 64} (h : var.toNat + 7 < 2 ^ 64) :
    (roundup var 8).toNat = (var.toNat + 7) / 8 * 8 := by
  have hadd : (var + 8 - 1 : BitVec 64).toNat = var.toNat + 7 := by
    rw [BitVec.sub_eq_add_neg, BitVec.add_assoc, show (8 + -1 : BitVec 64) = 7 by decide,
      BitVec.toNat_add]
    exact Nat.mod_eq_of_lt h
  rw [roundup, and_mask, BitVec.toNat_shiftLeft, BitVec.toNat_ushiftRight, hadd,
    Nat.shiftRight_eq_div_pow, Nat.shiftLeft_eq]
  exact Nat.mod_eq_of_lt (by omega)

/-- The size is rounded up once: the second time there is nothing to round. -/
theorem allocSize_eq (h : n + 2 * headerSize ≤ 2 ^ 31) : allocSize n = (n + 7) / 8 * 8 + 8 := by
  simp only [headerSize] at h
  have hn : (BitVec.ofNat 64 n).toNat = n := Nat.mod_eq_of_lt (by omega)
  have hfirst : (roundup (.ofNat 64 n) 8).toNat = (n + 7) / 8 * 8 := by
    rw [roundup_toNat (by omega), hn]
  have hsum : (roundup (.ofNat 64 n) 8 + 8).toNat = (n + 7) / 8 * 8 + 8 := by
    rw [BitVec.toNat_add, hfirst, show (8 : BitVec 64).toNat = 8 from rfl]
    exact Nat.mod_eq_of_lt (by omega)
  show (roundup (roundup (.ofNat 64 n) 8 + 8) 8).toNat = _
  rw [roundup_toNat (by omega), hsum]
  omega

theorem Request.bytes_payload : (req.payload value).bytes = req.bytes := by
  cases req with
  | makeFunction _ isMacro => cases isMacro <;> rfl
  | _ => rfl

theorem Request.bytes_pos : 0 < req.bytes := by
  cases req with
  | makeFunction _ isMacro => cases isMacro <;> exact Nat.succ_pos _
  | _ => exact Nat.succ_pos _

/-- The object a request is given: its size is a multiple of the pointer size, and it
has room for a forwarding pointer and for its contents. -/
theorem Request.Fits.regular (h : req.Fits) (value : Ref → ℕ) :
    Obj.IsRegular ⟨allocSize req.bytes, req.payload value⟩ ∧
      pointerSize ∣ allocSize req.bytes ∧ sizeField (allocSize req.bytes) = allocSize req.bytes := by
  have hpos := req.bytes_pos
  have hsize := allocSize_eq h
  have hfield : sizeField (allocSize req.bytes) = allocSize req.bytes := by
    simp only [Fits, headerSize] at h
    exact Nat.mod_eq_of_lt (by omega)
  refine ⟨⟨?_, ?_⟩, ?_, hfield⟩
  · cases req with
    | makeFunction _ isMacro => cases isMacro <;> rfl
    | _ => rfl
  · rw [bytes_payload]
    simp only [headerSize]
    omega
  · exact ⟨(req.bytes + 7) / 8 + 1, by simp only [pointerSize]; omega⟩

end sizes

/-! ## what the allocator goes on with -/

/-- What is left of a heap when the allocator has collected or has not: the reachable
objects, under the addresses that `σ` gives them. -/
structure Kept (c : Statics) (s : State) (root : Frames) (objs : List ℕ) (s' : State)
    (root' : Frames) (objs' : List ℕ) (σ : ℕ → ℕ) : Prop where
  wellFormed : WellFormed c s' root' objs'
  roots : root' = root.map (List.map σ)
  symbols : s'.block.symbols = σ s.block.symbols
  fixed : ∀ p, p = null ∨ p ∈ c.addresses → σ p = p
  injOn : Set.InjOn σ {a | s.Reachable root a}
  copies : ∀ a, s.Reachable root a → σ a ∈ objs' ∧ ∃ o, s.mem a = some o ∧
    s'.mem (σ a) = some ⟨o.size, o.payload.mapPointers σ⟩
  sizes : ∀ b ∈ objs', ∃ a ∈ objs, sizeAt s'.mem b = sizeAt s.mem a
  memorySize : s'.block.memorySize = s.block.memorySize
  alwaysGc : s'.block.alwaysGc = s.block.alwaysGc

/-- The bytes of the objects that can be reached from the roots and `Symbols`. -/
noncomputable def State.live (s : State) (root : Frames) : ℕ :=
  ∑ᶠ a ∈ {a | s.Reachable root a}, sizeAt s.mem a

section kept

variable {c : Statics} {s s' : State} {root root' : Frames} {objs objs' : List ℕ} {σ : ℕ → ℕ}
  {a p n : ℕ} {o : Obj} {req : Request}

@[simp] theorem Payload.mapPointers_id {payload : Payload} : payload.mapPointers id = payload := by
  cases payload <;> rfl

theorem WellFormed.pos (h : WellFormed c s root objs) (ha : a ∈ objs) : 0 < sizeAt s.mem a :=
  lt_of_lt_of_le (by decide) (OldSpace.le_size (k := h.oldSpace) ha)

theorem WellFormed.nodup (h : WellFormed c s root objs) : objs.Nodup := h.tiles.nodup fun _ => h.pos

/-- Without a collection everything stays where it is. -/
theorem WellFormed.kept (h : WellFormed c s root objs) : Kept c s root objs s root objs id where
  wellFormed := h
  roots := by simp
  symbols := rfl
  fixed := fun _ _ => rfl
  injOn := Set.injOn_id _
  copies := fun a ha => by
    obtain ⟨o, ho, -⟩ := h.regular a (h.mem_of_reachable ha)
    exact ⟨h.mem_of_reachable ha, o, ho, by simp [ho]⟩
  sizes := fun b hb => ⟨b, hb, rfl⟩
  memorySize := rfl
  alwaysGc := rfl

theorem Collected.kept (h : WellFormed c s root objs) (hc : Collected c s root s' root' objs' σ) :
    Kept c s root objs s' root' objs' σ where
  wellFormed := hc.wellFormed h
  roots := hc.roots
  symbols := hc.symbols
  fixed := by
    rintro p (rfl | hp)
    · exact hc.null
    · exact hc.fixed p (h.not_inSpace_of_mem hp)
  injOn := hc.bijective.injOn
  copies := fun a ha => ⟨hc.bijective.mapsTo ha, hc.copies a ha⟩
  sizes := fun b hb => by
    obtain ⟨a, ha, rfl⟩ := hc.bijective.surjOn hb
    obtain ⟨o, ho, ho'⟩ := hc.copies a ha
    exact ⟨a, h.mem_of_reachable ha, by rw [sizeAt_of_some ho, sizeAt_of_some ho']⟩
  memorySize := hc.memorySize
  alwaysGc := hc.alwaysGc

/-! ### live bytes -/

theorem WellFormed.memNused_eq (h : WellFormed c s root objs) :
    s.block.memNused = (objs.map (sizeAt s.mem)).sum := by
  have := h.tiles.end_eq
  omega

theorem finsum_mem_list {l : List ℕ} {f : ℕ → ℕ} (h : l.Nodup) :
    ∑ᶠ a ∈ {a | a ∈ l}, f a = (l.map f).sum := by
  rw [← List.sum_toFinset f h, ← finsum_mem_coe_finset]
  exact finsum_congr fun a => by simp

/-- The reachable objects are among those in use. -/
theorem WellFormed.live_le (h : WellFormed c s root objs) : s.live root ≤ s.block.memNused := by
  rw [h.memNused_eq, ← finsum_mem_list h.nodup]
  have hsub : {a | s.Reachable root a} ⊆ {a | a ∈ objs} := fun a ha => h.mem_of_reachable ha
  have hfinite : {a | a ∈ objs}.Finite := objs.finite_toSet
  rw [← finsum_mem_add_sdiff hsub hfinite]
  exact Nat.le_add_right ..

/-- A collection leaves nothing else. -/
theorem Collected.memNused_eq (h : WellFormed c s root objs)
    (hc : Collected c s root s' root' objs' σ) : s'.block.memNused = s.live root := by
  rw [(hc.wellFormed h).memNused_eq, ← finsum_mem_list (hc.wellFormed h).nodup]
  refine (finsum_mem_eq_of_bijOn σ hc.bijective fun a ha => ?_).symm
  obtain ⟨o, ho, ho'⟩ := hc.copies a ha
  rw [sizeAt_of_some ho, sizeAt_of_some ho']

/-! ### `alloc` -/

/-- `alloc` takes `size` bytes from a heap. -/
def State.take (s : State) (size : ℕ) : State :=
  { s with block := { s.block with memNused := s.block.memNused + size } }

/-- A new object behind the others. -/
def State.place (s : State) (o : Obj) : State :=
  { s.take o.size with mem := s.mem.write (s.block.memory + s.block.memNused) o }

theorem collect_spec (h : WellFormed c s root objs) :
    ∃ s' root' objs' σ, collect s root = .ok (s', root') ∧ Kept c s root objs s' root' objs' σ ∧
      s'.block.memNused = s.live root := by
  obtain ⟨s', root', objs', σ, hgc, hc⟩ := gc_collects h (Nat.lt_succ_self _)
  exact ⟨s', root', objs', σ, hgc, hc.kept h, hc.memNused_eq h⟩

/-- **`alloc`** refuses memory exactly when what can be reached leaves no room. -/
theorem alloc_spec (h : WellFormed c s root objs) (n : ℕ) :
    s.block.memorySize < s.live root + allocSize n ∧
        alloc s root n = .error (.error "Memory exhausted") ∨
      s.live root + allocSize n ≤ s.block.memorySize ∧ ∃ s' root' objs' σ,
        Kept c s root objs s' root' objs' σ ∧
        s'.block.memNused + allocSize n ≤ s'.block.memorySize ∧
        alloc s root n = .ok (s'.take (allocSize n), root', s'.block.memory + s'.block.memNused) := by
  obtain ⟨s', root', objs', σ, hgc, hkept, hlive⟩ := collect_spec h
  have hsize := hkept.memorySize
  cases halways : s.block.alwaysGc with
  | true =>
      have halways' : s'.block.alwaysGc = true := hkept.alwaysGc.trans halways
      by_cases hroom : s'.block.memorySize < s'.block.memNused + allocSize n
      · exact .inl ⟨by omega, by
          simp [alloc, halways, h.idle, hgc, halways', hroom, bind, Except.bind, pure, Except.pure,
            throw, throwThe, MonadExceptOf.throw]⟩
      · refine .inr ⟨by omega, s', root', objs', σ, hkept, by omega, ?_⟩
        simp [alloc, halways, h.idle, hgc, halways', hroom, bind, Except.bind, pure, Except.pure,
          State.take]
  | false =>
      have halways' : s'.block.alwaysGc = false := hkept.alwaysGc.trans halways
      by_cases hfull : s.block.memorySize < s.block.memNused + allocSize n
      · by_cases hroom : s'.block.memorySize < s'.block.memNused + allocSize n
        · exact .inl ⟨by omega, by
            simp [alloc, halways, hfull, hgc, hroom, bind, Except.bind, pure, Except.pure, throw,
              throwThe, MonadExceptOf.throw]⟩
        · refine .inr ⟨by omega, s', root', objs', σ, hkept, by omega, ?_⟩
          simp [alloc, halways, hfull, hgc, hroom, bind, Except.bind, pure, Except.pure, State.take]
      · have := h.live_le
        refine .inr ⟨by omega, s, root, objs, id, h.kept, by omega, ?_⟩
        simp [alloc, halways, hfull, bind, Except.bind, pure, Except.pure, State.take]

/-! ### the object -/

theorem State.place_self : (s.place o).mem (s.block.memory + s.block.memNused) = some o :=
  Memory.write_self

/-- The objects in use and the statically allocated ones are not written over by what
goes into free memory. -/
theorem WellFormed.write_free (h : WellFormed c s root objs) (hreg : o.IsRegular)
    (hroom : s.block.memNused + o.size ≤ s.block.memorySize) :
    (∀ a ∈ objs, (s.place o).mem a = s.mem a) ∧
      ∀ x q, (x, q) ∈ c.objects → (s.place o).mem x = some q := by
  refine ⟨fun a ha => ?_, fun x q hx => ?_⟩
  · obtain ⟨q, hq, hqreg⟩ := h.regular a ha
    have hbounds := h.tiles.bounds ha
    rw [sizeAt_of_some hq, ← hqreg.bytes_eq] at hbounds
    rw [hq]
    exact Memory.write_of_disjoint hq (.inl hbounds.2)
  · obtain ⟨hmem, hcur, -⟩ := h.statics x q hx
    refine Memory.write_of_disjoint hmem ?_
    rw [hreg.bytes_eq]
    rw [← h.current] at hcur
    rcases hcur with hcur | hcur
    · exact .inl (by omega)
    · exact .inr (by omega)

theorem WellFormed.place (h : WellFormed c s root objs) (hreg : o.IsRegular)
    (hroom : s.block.memNused + o.size ≤ s.block.memorySize)
    (hpointers : ∀ p ∈ o.payload.pointers, p = null ∨ p ∈ objs ∨ p ∈ c.addresses) :
    WellFormed c (s.place o) root (objs ++ [s.block.memory + s.block.memNused]) := by
  obtain ⟨hold, hstatics⟩ := h.write_free hreg hroom
  have hsub {p : ℕ} (hp : p ∈ objs ∨ p ∈ c.addresses) :
      p ∈ objs ++ [s.block.memory + s.block.memNused] ∨ p ∈ c.addresses :=
    hp.imp (List.mem_append_left _) id
  constructor
  case tiles =>
    have htiles : Tiles id (sizeAt (s.place o).mem) s.block.memory objs
        (s.block.memory + s.block.memNused) :=
      h.tiles.congr (fun _ _ => rfl) fun a ha => by rw [sizeAt, hold a ha, sizeAt]
    refine htiles.append ⟨rfl, ?_⟩
    rw [sizeAt_of_some State.place_self]
    show _ = s.block.memory + (s.block.memNused + o.size)
    omega
  case regular =>
    intro a ha
    rcases List.mem_append.mp ha with ha | ha
    · obtain ⟨q, hq, hqreg⟩ := h.regular a ha
      exact ⟨q, (hold a ha).trans hq, hqreg⟩
    · rw [List.mem_singleton.mp ha]
      exact ⟨o, State.place_self, hreg⟩
  case pointers =>
    intro a ha p hp
    rcases List.mem_append.mp ha with ha | ha
    · rw [payloadAt, hold a ha] at hp
      exact (h.pointers a ha p hp).imp id hsub
    · rw [List.mem_singleton.mp ha, payloadAt_of_some State.place_self] at hp
      exact (hpointers p hp).imp id hsub
  case roots => exact fun frame hframe p hp => (h.roots frame hframe p hp).imp id hsub
  case symbols => exact hsub h.symbols
  case used => exact hroom
  case current => exact h.current
  case apart => exact h.apart
  case notNull => exact h.notNull
  case statics => exact fun x q hx => ⟨hstatics x q hx, (h.statics x q hx).2⟩
  case idle => exact h.idle

/-! ### the constructors -/

/-- What a place holds is in a frame, unless there is no such place. -/
theorem Frames.slot_mem (root : Frames) (depth i : ℕ) :
    (root.frame depth)[i]?.getD null = null ∨
      ∃ frame ∈ root, (root.frame depth)[i]?.getD null ∈ frame := by
  cases hframe : root.reverse[depth]? with
  | none => exact .inl (by simp [Frames.frame, hframe])
  | some frame =>
      have hmem : frame ∈ root := List.mem_reverse.mp (List.mem_of_getElem? hframe)
      rw [Frames.frame, hframe, Option.getD_some]
      cases hslot : frame[i]? with
      | none => exact .inl rfl
      | some p => exact .inr ⟨frame, hmem, List.mem_of_getElem? hslot⟩

theorem WellFormed.deref_valid (h : WellFormed c s root objs) (r : Ref) :
    deref c s.block.symbols root r = null ∨ deref c s.block.symbols root r ∈ objs ∨
      deref c s.block.symbols root r ∈ c.addresses := by
  cases r with
  | slot depth i =>
      rcases root.slot_mem depth i with hnull | ⟨frame, hframe, hp⟩
      · exact .inl hnull
      · exact h.roots frame hframe _ hp
  | nil => exact .inr (.inr (by simp [deref]))
  | constTrue => exact .inr (.inr (by simp [deref]))
  | symbols => exact .inr h.symbols

/-- The pointers of a new object are those at the places it was called with. -/
theorem Request.pointers_payload {value : Ref → ℕ} (hp : p ∈ (req.payload value).pointers) :
    ∃ r, p = value r := by
  cases req with
  | makeFunction env isMacro params body =>
      cases isMacro <;> simp only [payload, Payload.pointers, List.mem_cons, List.not_mem_nil] at hp <;>
        grind
  | _ =>
      simp only [payload, Payload.pointers, List.mem_cons, List.not_mem_nil] at hp
      try grind

/-- **The constructors** put the object behind those that the allocator has kept. -/
theorem make_spec (h : WellFormed c s root objs) (hfits : req.Fits) :
    s.block.memorySize < s.live root + allocSize req.bytes ∧
        make c s root req = .error (.error "Memory exhausted") ∨
      s.live root + allocSize req.bytes ≤ s.block.memorySize ∧ ∃ s' root' objs' σ,
        Kept c s root objs s' root' objs' σ ∧
        s'.block.memNused + allocSize req.bytes ≤ s'.block.memorySize ∧
        make c s root req = .ok (s'.place ⟨allocSize req.bytes,
          req.payload (deref c s'.block.symbols root')⟩, root',
          s'.block.memory + s'.block.memNused) := by
  rcases alloc_spec h req.bytes with ⟨hfull, halloc⟩ | ⟨hlive, s', root', objs', σ, hkept, hroom, halloc⟩
  · exact .inl ⟨hfull, by simp [make, halloc, bind, Except.bind]⟩
  · refine .inr ⟨hlive, s', root', objs', σ, hkept, hroom, ?_⟩
    have hsize : sizeField (allocSize req.bytes) = allocSize req.bytes :=
      (hfits.regular fun _ => null).2.2
    simp only [make, halloc, bind, Except.bind, pure, Except.pure, hsize]
    rfl

/-- Nothing that can be reached is where the new object is. -/
theorem WellFormed.reachable_place (h : WellFormed c s root objs) (hreg : o.IsRegular)
    (hroom : s.block.memNused + o.size ≤ s.block.memorySize)
    (ha : (s.place o).Reachable root a) :
    a ∈ objs ∧ a + sizeAt (s.place o).mem a ≤ s.block.memory + s.block.memNused := by
  have hold := (h.write_free hreg hroom).1
  have hmem : a ∈ objs := by
    induction ha with
    | root hp =>
        refine h.mem_of_reachable (.root ?_)
        exact hp
    | @next x p _ hp ih =>
        obtain ⟨hp, hin⟩ := List.mem_filter.mp hp
        rw [payloadAt, hold x ih] at hp
        exact h.mem_objs (h.pointers x ih p hp) (of_decide_eq_true hin)
  rw [sizeAt, hold a hmem]
  exact ⟨hmem, (h.tiles.bounds hmem).2⟩

end kept

/-! ## clients -/

/-- The objects that one meets going from `lo` to `hi`, at most `fuel` of them. -/
def objectsFrom (m : Memory) : ℕ → ℕ → ℕ → List ℕ
  | 0, _, _ => []
  | fuel + 1, lo, hi =>
    if lo < hi then lo :: objectsFrom m fuel (lo + sizeAt m lo) hi else []

/-- The objects of the space in use. -/
def State.objects (s : State) : List ℕ :=
  objectsFrom s.mem s.block.memNused s.block.memory (s.block.memory + s.block.memNused)

namespace Client

/-- What a root slot may be set to. -/
def Held (c : Statics) (s : State) (p : ℕ) : Prop :=
  p = null ∨ p ∈ s.objects ∨ p ∈ c.addresses

instance (c : Statics) (s : State) : DecidablePred (Held c s) := fun _ =>
  inferInstanceAs (Decidable (_ ∨ _))

/-- What happens to a heap: an object is made, or the roots or `Symbols` change. -/
inductive Action
  | make (req : Request)
  | setRoots (root : Frames)
  | setSymbols (p : ℕ)

def step (c : Statics) : State × Frames → Action → Option (State × Frames)
  | (s, root), .make req => (make c s root req).toOption.map fun (s, root, _) => (s, root)
  | (s, _), .setRoots root => if ∀ frame ∈ root, ∀ p ∈ frame, Held c s p then some (s, root) else none
  | (s, root), .setSymbols p =>
    if p ≠ null ∧ Held c s p then some ({ s with block := { s.block with symbols := p } }, root)
    else none

/-- A block that `lisp_init` has set up. -/
structure Start (c : Statics) (s : State) (root : Frames) : Prop where
  init : ∃ block heap1 heap2 heapSize debugGc alwaysGc,
    s.block = lispInit block heap1 heap2 heapSize debugGc alwaysGc
  idle : s.block.gcRunning = false
  symbols : s.block.symbols ∈ c.addresses
  roots : ∀ frame ∈ root, ∀ p ∈ frame, p = null ∨ p ∈ c.addresses
  apart : s.block.curHeap + s.block.memorySize ≤ s.block.nextHeap ∨
    s.block.nextHeap + s.block.memorySize ≤ s.block.curHeap
  notNull : 0 < s.block.curHeap ∧ 0 < s.block.nextHeap
  statics : ∀ x o, (x, o) ∈ c.objects → s.mem x = some o ∧
    Outside s.block.curHeap s.block.memorySize x o ∧
    Outside s.block.nextHeap s.block.memorySize x o

/-- A well-formed heap whose objects are aligned. -/
structure AlignedHeap (c : Statics) (s : State) (root : Frames) (objs : List ℕ) : Prop
    extends WellFormed c s root objs where
  aligned : ∀ a ∈ objs, pointerSize ∣ sizeAt s.mem a

def Inv (c : Statics) (sr : State × Frames) : Prop := ∃ objs, AlignedHeap c sr.1 sr.2 objs

variable {c : Statics} {s s' s₀ : State} {root root' root₀ : Frames} {objs objs' : List ℕ}
  {σ : ℕ → ℕ} {a p n : ℕ} {o : Obj} {req : Request} {act : Action} {acts : List Action}

theorem objectsFrom_eq {m : Memory} {fuel lo hi : ℕ} {objs : List ℕ}
    (h : Tiles id (sizeAt m) lo objs hi) (hpos : ∀ a ∈ objs, 0 < sizeAt m a)
    (hfuel : hi ≤ lo + fuel) : objectsFrom m fuel lo hi = objs := by
  induction objs generalizing lo fuel with
  | nil =>
      obtain rfl : lo = hi := h
      cases fuel with
      | zero => rfl
      | succ fuel => simp [objectsFrom]
  | cons a objs ih =>
      obtain rfl : a = lo := h.1
      have ha := hpos a List.mem_cons_self
      have hle := h.2.le
      cases fuel with
      | zero => omega
      | succ fuel =>
          rw [objectsFrom, if_pos (by omega)]
          rw [ih h.2 (fun b hb => hpos b (List.mem_cons_of_mem a hb)) (by omega)]

theorem objects_eq (h : WellFormed c s root objs) : s.objects = objs :=
  objectsFrom_eq h.tiles (fun _ => h.pos) le_rfl

theorem Start.inv (h : Start c s root) : Inv c (s, root) := by
  obtain ⟨block, heap1, heap2, heapSize, debugGc, alwaysGc, hblock⟩ := h.init
  exact ⟨[], {
    tiles := by rw [hblock]; exact rfl
    regular := by simp
    pointers := by simp
    roots := fun frame hframe p hp => (h.roots frame hframe p hp).imp id .inr
    symbols := .inr h.symbols
    used := by rw [hblock]; exact Nat.zero_le _
    current := by rw [hblock]; rfl
    apart := h.apart
    notNull := h.notNull
    statics := h.statics
    idle := h.idle
    aligned := by simp }⟩

/-- One object more. -/
theorem AlignedHeap.place (h : AlignedHeap c s root objs)
    (hkept : Kept c s root objs s' root' objs' σ) (hfits : req.Fits)
    (hroom : s'.block.memNused + allocSize req.bytes ≤ s'.block.memorySize) :
    AlignedHeap c (s'.place ⟨allocSize req.bytes, req.payload (deref c s'.block.symbols root')⟩)
      root' (objs' ++ [s'.block.memory + s'.block.memNused]) := by
  obtain ⟨hreg, hdvd, -⟩ := hfits.regular (deref c s'.block.symbols root')
  have hwf' := hkept.wellFormed
  have hpointers : ∀ p ∈ (req.payload (deref c s'.block.symbols root')).pointers,
      p = null ∨ p ∈ objs' ∨ p ∈ c.addresses := by
    intro p hp
    obtain ⟨r, rfl⟩ := Request.pointers_payload hp
    exact hwf'.deref_valid r
  refine ⟨hwf'.place hreg hroom hpointers, fun a ha => ?_⟩
  rcases List.mem_append.mp ha with ha | ha
  · obtain ⟨b, hb, hsize⟩ := hkept.sizes a ha
    rw [sizeAt, (hwf'.write_free hreg hroom).1 a ha, ← sizeAt, hsize]
    exact h.aligned b hb
  · rw [List.mem_singleton.mp ha, sizeAt_of_some State.place_self]
    exact hdvd

/-- Every step keeps the heap well formed. -/
theorem step_inv (h : Inv c (s, root)) (hfits : ∀ req, act = .make req → req.Fits)
    (hstep : step c (s, root) act = some (s', root')) : Inv c (s', root') := by
  obtain ⟨objs, hheap⟩ := h
  have hwf := hheap.toWellFormed
  cases act with
  | make req =>
      have hreq := hfits req rfl
      rcases make_spec hwf hreq with ⟨-, hmake⟩ | ⟨-, s₁, root₁, objs₁, σ, hkept, hroom, hmake⟩
      · simp [step, hmake, Except.toOption] at hstep
      · simp only [step, hmake, Except.toOption, Option.map_some, Option.some.injEq,
          Prod.mk.injEq] at hstep
        obtain ⟨rfl, rfl⟩ := hstep
        exact ⟨_, hheap.place hkept hreq hroom⟩
  | setRoots root₁ =>
      simp only [step, Option.ite_none_right_eq_some, Option.some.injEq, Prod.mk.injEq, Held,
        objects_eq hwf] at hstep
      obtain ⟨hroots, rfl, rfl⟩ := hstep
      exact ⟨objs, { hheap with roots := hroots }⟩
  | setSymbols p =>
      simp only [step, Option.ite_none_right_eq_some, Option.some.injEq, Prod.mk.injEq, Held,
        objects_eq hwf] at hstep
      obtain ⟨⟨hnull, hp⟩, rfl, rfl⟩ := hstep
      exact ⟨objs, { hheap with symbols := hp.resolve_left hnull }⟩

theorem run_inv (hstart : Start c s₀ root₀) (hfits : ∀ req, .make req ∈ acts → req.Fits)
    (hrun : exec (step c) (s₀, root₀) acts = some (s, root)) : Inv c (s, root) := by
  have halong : Along (step c) (fun _ act => ∀ req, act = .make req → req.Fits) (s₀, root₀) acts :=
    (along_iff_forall_mem hrun).mpr fun act hact req heq => hfits req (heq ▸ hact)
  exact exec_induction (fun s _ s' hs hP hstep => step_inv (s := s.1) hs hP hstep) hstart.inv halong
    hrun

/-- The objects lie back to back from the start of the space, each aligned and with
room for a forwarding pointer and for its contents. -/
structure Exact (s : State) : Prop where
  tiles : Tiles id (sizeAt s.mem) s.block.memory s.objects (s.block.memory + s.block.memNused)
  object : ∀ a ∈ s.objects, ∃ o, s.mem a = some o ∧ pointerSize ∣ o.size ∧
    headerSize + max pointerSize o.payload.bytes ≤ o.size
  used : s.block.memNused ≤ s.block.memorySize

theorem AlignedHeap.exact (h : AlignedHeap c s root objs) : Exact s := by
  have hobjs := objects_eq h.toWellFormed
  refine ⟨?_, fun a ha => ?_, h.used⟩
  · rw [hobjs]
    exact h.tiles
  · rw [hobjs] at ha
    obtain ⟨o, ho, hreg⟩ := h.regular a ha
    exact ⟨o, ho, sizeAt_of_some ho ▸ h.aligned a ha, hreg.2⟩

/-- **The allocator is exact**, whatever has been made and dropped before: the
objects fill the memory in use, a new object is behind everything that can be
reached, and memory is refused exactly when what can be reached leaves no room. -/
theorem alloc_exact (hstart : Start c s₀ root₀) (hfits : ∀ req, .make req ∈ acts → req.Fits)
    (hrun : exec (step c) (s₀, root₀) acts = some (s, root)) :
    Exact s ∧ ∀ req : Request, req.Fits →
      (make c s root req = .error (.error "Memory exhausted") ↔
        s.block.memorySize < s.live root + allocSize req.bytes) ∧
      (s.live root + allocSize req.bytes ≤ s.block.memorySize → ∃ s' root' obj,
        make c s root req = .ok (s', root', obj) ∧ Exact s' ∧ obj ∈ s'.objects ∧
        s'.mem obj = some ⟨allocSize req.bytes,
          req.payload (deref c s'.block.symbols root')⟩ ∧
        ∀ a, s'.Reachable root' a → a + sizeAt s'.mem a ≤ obj) := by
  obtain ⟨objs, hheap⟩ := run_inv hstart hfits hrun
  refine ⟨hheap.exact, fun req hreq => ?_⟩
  rcases make_spec hheap.toWellFormed hreq with
    ⟨hfull, hmake⟩ | ⟨hlive, s', root', objs', σ, hkept, hroom, hmake⟩
  · exact ⟨iff_of_true hmake hfull, fun hle => absurd hfull (Nat.not_lt.mpr hle)⟩
  · refine ⟨iff_of_false (by simp [hmake]) (Nat.not_lt.mpr hlive), fun _ => ⟨_, _, _, hmake, ?_⟩⟩
    have hplaced := hheap.place hkept hreq hroom
    obtain ⟨hreg, -, -⟩ := hreq.regular (deref c s'.block.symbols root')
    refine ⟨hplaced.exact, ?_, State.place_self, fun a ha =>
      (hkept.wellFormed.reachable_place hreg hroom ha).2⟩
    rw [objects_eq hplaced.toWellFormed]
    exact List.mem_append_right _ List.mem_cons_self

def sampleStart : State :=
  { sampleHeap with
    mem := fun a => sampleStatics.objects.lookup a
    block := { lispInit sampleHeap.block 64 192 96 false false with symbols := 16 } }

/-- Only the number stays reachable, so the last cell is made after a collection. -/
def sampleActions : List Action :=
  [.setRoots [[null]], .make (.makeInt 7), .setRoots [[64]], .make (.cons (.slot 0 0) .nil),
    .make (.makeSymbol [120, 121]), .make (.cons .constTrue .nil), .make (.makePrimitive 1),
    .make (.makeEnv .nil .nil)]

theorem sampleStart_start : Start sampleStatics sampleStart [] where
  init := ⟨{ sampleHeap.block with symbols := 16 }, 64, 192, 96, false, false, rfl⟩
  idle := rfl
  symbols := by decide
  roots := by simp
  apart := by decide
  notNull := by decide
  statics := by
    intro x o ho
    simp only [Statics.objects, List.mem_cons, Prod.mk.injEq, List.not_mem_nil, or_false] at ho
    rcases ho with ⟨rfl, rfl⟩ | ⟨rfl, rfl⟩ | ⟨rfl, rfl⟩ | ⟨rfl, rfl⟩ <;>
      exact ⟨rfl, .inl (by decide), .inl (by decide)⟩

theorem alloc_exact_sample : ∃ s root,
    exec (step sampleStatics) (sampleStart, []) sampleActions = some (s, root) ∧
      s.block.memory = 192 ∧ s.objects = [192, 208] ∧ Exact s := by
  have hfits : ∀ req, .make req ∈ sampleActions → req.Fits := by
    intro req hreq
    simp only [sampleActions, List.mem_cons, List.not_mem_nil, or_false, reduceCtorEq,
      Action.make.injEq, false_or] at hreq
    rcases hreq with rfl | rfl | rfl | rfl | rfl | rfl <;> exact Nat.le_of_ble_eq_true rfl
  exact ⟨_, _, rfl, rfl, by decide, (alloc_exact sampleStart_start hfits rfl).1⟩

end Client

end KernelPanic.Minilisp
