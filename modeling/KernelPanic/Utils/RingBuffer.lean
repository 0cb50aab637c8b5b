import Mathlib.Algebra.Group.Nat.Defs
import Mathlib.Logic.Function.Basic
import Mathlib.Data.List.Basic

/-!
# KernelPanic.Utils.RingBuffer

The byte ring of `utils/ringbuffer.c` and the queue it holds.

`Buffer` is the memory from the ring's pointer on, so that a store past `Size`
would show.  An `INDEX` and a `COUNT` are `size_t`: the index plus a request can
wrap, and the copy loops compare with `!=` only.  A copy loop that leaves the
buffer has no result, and neither has the operation around it.

`contents` reads the queue off the ring.
-/

namespace KernelPanic

/-- `struct RING_BUFFER`. -/
structure RingBuffer where
  buffer : ℕ → UInt8
  size : ℕ
  readIndex : ℕ
  writeIndex : ℕ
  empty : Bool

/-- `RingBufferInit`. -/
def ringBufferInit (buff : ℕ → UInt8) (size : ℕ) : RingBuffer := ⟨buff, size, 0, 0, true⟩

/-- `RingBufferIsEmpty`. -/
def ringBufferIsEmpty (ring : RingBuffer) : Bool := ring.empty

/-- `RingBufferIsFull`. -/
def ringBufferIsFull (ring : RingBuffer) : Bool := !ring.empty && ring.writeIndex = ring.readIndex

/-- The sum of an `INDEX` and a `COUNT`. -/
def indexAdd (i n : ℕ) : ℕ := (i + n) % 2 ^ 64

/-- What `RingBufferReadSmall` and `RingBufferWriteSmall` make of the end they
have computed: where the copy loop stops, and the index left behind. -/
def clampEnd (stop capacity i j : ℕ) : ℕ × ℕ :=
  if i < j then
    let stop := if stop > j then j else stop
    (stop, stop)
  else if stop ≥ capacity then (capacity, 0)
  else (stop, stop)

/-- `for (; cur != end; cur++) buff[index++] = ring->Buffer[cur];`: the bytes
stored into `buff`.  After `fuel` rounds the loop is at the end of the buffer. -/
def copyOutLoop (buffer : ℕ → UInt8) : ℕ → ℕ → ℕ → Option (List UInt8)
  | 0, cur, stop => if cur ≠ stop then none else some []
  | fuel + 1, cur, stop =>
      if cur ≠ stop then
        (copyOutLoop buffer fuel (indexAdd cur 1) stop).map fun bytes => buffer cur :: bytes
      else some []

/-- `for (; cur != end; cur++) ring->Buffer[cur] = buff[index++];`: `index` at the
end, and the buffer.  A loop that reads past the end of `buff` has no result
either. -/
def copyInLoop : ℕ → (ℕ → UInt8) → ℕ → ℕ → List UInt8 → Option (ℕ × (ℕ → UInt8))
  | fuel + 1, buffer, cur, stop, b :: buff =>
      if cur ≠ stop then
        (copyInLoop fuel (Function.update buffer cur b) (indexAdd cur 1) stop buff).map fun r =>
          (r.1 + 1, r.2)
      else some (0, buffer)
  | _, buffer, cur, stop, _ => if cur ≠ stop then none else some (0, buffer)

/-- `RingBufferReadSmall`. -/
def ringBufferReadSmall (size : ℕ) (ring : RingBuffer) : Option (List UInt8 × RingBuffer) :=
  let e := clampEnd (indexAdd ring.readIndex size) ring.size ring.readIndex ring.writeIndex
  (copyOutLoop ring.buffer (ring.size - ring.readIndex) ring.readIndex e.1).map fun bytes =>
    (bytes, { ring with readIndex := e.2 })

/-- `RingBufferWriteSmall`. -/
def ringBufferWriteSmall (buff : List UInt8) (ring : RingBuffer) : Option (ℕ × RingBuffer) :=
  let e := clampEnd (indexAdd ring.writeIndex buff.length) ring.size ring.writeIndex ring.readIndex
  (copyInLoop (ring.size - ring.writeIndex) ring.buffer ring.writeIndex e.1 buff).map fun r =>
    (r.1, { ring with writeIndex := e.2, buffer := r.2 })

/-- `RingBufferPeak`. -/
def ringBufferPeak (ring : RingBuffer) : Option UInt8 :=
  if ringBufferIsEmpty ring then none else some (ring.buffer ring.readIndex)

/-- The `while` loop of `RingBufferRead`, for at most `fuel` rounds. -/
def ringBufferReadLoop : ℕ → ℕ → RingBuffer → Option (List UInt8 × RingBuffer)
  | 0, size, ring => if 0 < size ∧ !ringBufferIsEmpty ring then none else some ([], ring)
  | fuel + 1, size, ring =>
      if 0 < size ∧ !ringBufferIsEmpty ring then do
        let r ← ringBufferReadSmall size ring
        let ring := if r.2.readIndex = r.2.writeIndex then { r.2 with empty := true } else r.2
        let rest ← ringBufferReadLoop fuel (size - r.1.length) ring
        pure (r.1 ++ rest.1, rest.2)
      else some ([], ring)

/-- `RingBufferRead`: the bytes it stores into `buff`.  Every round reads at
least one byte. -/
def ringBufferRead (size : ℕ) (ring : RingBuffer) : Option (List UInt8 × RingBuffer) :=
  ringBufferReadLoop size size ring

/-- The `while` loop of `RingBufferWrite`, for at most `fuel` rounds. -/
def ringBufferWriteLoop : ℕ → List UInt8 → RingBuffer → Option (ℕ × RingBuffer)
  | 0, buff, ring => if 0 < buff.length ∧ !ringBufferIsFull ring then none else some (0, ring)
  | fuel + 1, buff, ring =>
      if 0 < buff.length ∧ !ringBufferIsFull ring then do
        let r ← ringBufferWriteSmall buff ring
        let rest ← ringBufferWriteLoop fuel (buff.drop r.1) { r.2 with empty := false }
        pure (r.1 + rest.1, rest.2)
      else some (0, ring)

/-- `RingBufferWrite`: how many bytes of `buff` it stores.  Every round stores
at least one byte. -/
def ringBufferWrite (buff : List UInt8) (ring : RingBuffer) : Option (ℕ × RingBuffer) :=
  ringBufferWriteLoop buff.length buff ring

/-! ## the queue in the ring -/

/-- The bytes from position `i` up to position `j`. -/
def slice (buffer : ℕ → UInt8) (i j : ℕ) : List UInt8 := (List.range' i (j - i)).map buffer

variable {buffer : ℕ → UInt8} {i j k : ℕ}

@[simp] theorem slice_self : slice buffer i i = [] := by
  simp [slice]

@[simp] theorem slice_length : (slice buffer i j).length = j - i := by
  simp [slice]

theorem slice_append (hij : i ≤ j) (hjk : j ≤ k) :
    slice buffer i j ++ slice buffer j k = slice buffer i k := by
  unfold slice
  rw [← List.map_append]
  congr 1
  have hj : i + 1 * (j - i) = j := by omega
  have hk : k - i = (j - i) + (k - j) := by omega
  rw [hk, ← List.range'_append, hj]

theorem slice_cons (hij : i < j) : slice buffer i j = buffer i :: slice buffer (i + 1) j := by
  rw [← slice_append (Nat.le_succ i) hij]
  simp [slice]

theorem slice_congr {buffer' : ℕ → UInt8} (h : ∀ n, i ≤ n → n < j → buffer' n = buffer n) :
    slice buffer' i j = slice buffer i j := by
  refine List.map_congr_left fun n hn => ?_
  rw [List.mem_range'_1] at hn
  exact h n hn.1 (by omega)

namespace RingBuffer

/-- The indices are inside the buffer, and equal when it is empty. -/
structure Ok (ring : RingBuffer) : Prop where
  readIndex_lt : ring.readIndex < ring.size
  writeIndex_lt : ring.writeIndex < ring.size
  empty : ring.empty = true → ring.readIndex = ring.writeIndex

/-- The bytes written and not yet read, oldest first. -/
def contents (ring : RingBuffer) : List UInt8 :=
  if ring.empty then []
  else if ring.readIndex < ring.writeIndex then
    slice ring.buffer ring.readIndex ring.writeIndex
  else slice ring.buffer ring.readIndex ring.size ++ slice ring.buffer 0 ring.writeIndex

end RingBuffer

open RingBuffer

variable {ring : RingBuffer} {size : ℕ}

theorem ringBufferInit_ok {mem : ℕ → UInt8} (h : 0 < size) : Ok (ringBufferInit mem size) :=
  ⟨h, h, fun _ => rfl⟩

theorem contents_length (h : Ok ring) :
    ring.contents.length =
      if ring.empty then 0
      else if ring.readIndex < ring.writeIndex then ring.writeIndex - ring.readIndex
      else ring.size - ring.readIndex + ring.writeIndex := by
  have hw := h.writeIndex_lt
  unfold contents
  split
  · rfl
  · split <;> simp

theorem contents_length_le (h : Ok ring) : ring.contents.length ≤ ring.size := by
  have hr := h.readIndex_lt
  have hw := h.writeIndex_lt
  rw [contents_length h]
  grind

theorem isEmpty_iff (h : Ok ring) : ringBufferIsEmpty ring = true ↔ ring.contents = [] := by
  have hr := h.readIndex_lt
  have hw := h.writeIndex_lt
  rw [← List.length_eq_zero_iff, contents_length h, ringBufferIsEmpty]
  grind

theorem isFull_iff (h : Ok ring) :
    ringBufferIsFull ring = true ↔ ring.contents.length = ring.size := by
  have hr := h.readIndex_lt
  have hw := h.writeIndex_lt
  rw [contents_length h, ringBufferIsFull]
  grind

end KernelPanic
