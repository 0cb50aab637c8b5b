import KernelPanic.Lib.Run
import KernelPanic.Utils.RingBuffer.Transfer

/-!
# KernelPanic.Utils.RingBuffer.Fifo

The bounded FIFO that a ring refines.  `Fifo` is what the ring is for, and
`ring_refines_fifo` compares the two over every sequence of operations whose
requests do not make an index wrap: all of them end, and none stores over a byte
of the queue.
-/

namespace KernelPanic

open Run RingBuffer Transfer

/-! ## where the queue lies -/

variable {ring : RingBuffer} {buff : List UInt8} {p : ℕ}

/-- The positions of the bytes written and not yet read, oldest first. -/
def positions (ring : RingBuffer) : List ℕ :=
  if ring.empty then []
  else if ring.readIndex < ring.writeIndex then
    List.range' ring.readIndex (ring.writeIndex - ring.readIndex)
  else List.range' ring.readIndex (ring.size - ring.readIndex) ++ List.range' 0 ring.writeIndex

theorem mem_positions : p ∈ positions ring ↔ ring.empty = false ∧
    if ring.readIndex < ring.writeIndex then ring.readIndex ≤ p ∧ p < ring.writeIndex
    else ring.readIndex ≤ p ∧ p < ring.size ∨ p < ring.writeIndex := by
  unfold positions
  grind

/-- One round of a write stores nothing over the queue, which stays where it
is. -/
theorem writeRound_keeps (buff : List UInt8) (h : Ok ring) (hfull : ringBufferIsFull ring = false)
    (hp : p ∈ positions ring) :
    (writeRound buff ring).2.buffer p = ring.buffer p ∧
      p ∈ positions (writeRound buff ring).2 := by
  have hr := h.readIndex_lt
  have hw := h.writeIndex_lt
  obtain ⟨hle, hcap, hstop⟩ := stops_bounds buff.length h.writeIndex_lt h.readIndex_lt
  have hlen : (buff.take ((stops buff.length ring.size ring.writeIndex ring.readIndex).1 -
      ring.writeIndex)).length =
        (stops buff.length ring.size ring.writeIndex ring.readIndex).1 - ring.writeIndex := by
    rw [List.length_take]
    omega
  rw [mem_positions] at hp ⊢
  obtain ⟨hne, hp⟩ := hp
  have hne' : ring.writeIndex ≠ ring.readIndex := by
    simpa [ringBufferIsFull, hne] using hfull
  simp only [writeRound, writeSmall]
  constructor
  · obtain hbefore | hafter : p < ring.writeIndex ∨
        (stops buff.length ring.size ring.writeIndex ring.readIndex).1 ≤ p := by
      unfold stops
      grind
    · exact copyIn_of_lt hbefore
    · exact copyIn_of_ge (by omega)
  · unfold stops
    grind

/-- A write stores nothing over the queue. -/
theorem writeLoop_keeps (fuel : ℕ) (h : Ok ring) (hp : p ∈ positions ring) :
    (writeLoop fuel buff ring).2.buffer p = ring.buffer p := by
  induction fuel generalizing buff ring with
  | zero => rfl
  | succ fuel ih =>
      simp only [writeLoop]
      split
      · next hgo =>
          have hfull : ringBufferIsFull ring = false := by simpa using hgo.2
          obtain ⟨hbuffer, hp'⟩ := writeRound_keeps buff h hfull hp
          rw [ih (writeRound_spec h hfull hgo.1).1 hp', hbuffer]
      · rfl

theorem ringBufferWrite_keeps {r : ℕ × RingBuffer} (h : Ok ring) (hcap : ring.size < 2 ^ 64)
    (hfit : ring.writeIndex + buff.length < 2 ^ 64) (hr : ringBufferWrite buff ring = some r)
    (hp : p ∈ positions ring) : r.2.buffer p = ring.buffer p := by
  rw [ringBufferWrite, ringBufferWriteLoop_eq h hcap hfit (Nat.le_refl _), Option.some.injEq] at hr
  rw [← hr]
  exact writeLoop_keeps buff.length h hp

/-! ## the bounded FIFO -/

/-- An operation on the ring. -/
inductive RingOp where
  | write (buff : List UInt8)
  | read (size : ℕ)
  | peak

/-- What an operation returns. -/
inductive RingResult where
  | wrote (count : ℕ)
  | got (bytes : List UInt8)
  | peaked (byte : Option UInt8)

/-- A queue of bytes that holds at most `capacity` of them. -/
structure Fifo where
  capacity : ℕ
  queue : List UInt8
  results : List RingResult

/-- A write appends the first bytes, as many as there is space for; a read
removes the oldest, as many as there are. -/
def Fifo.step (f : Fifo) : RingOp → Fifo
  | .write buff =>
      let count := min buff.length (f.capacity - f.queue.length)
      { f with queue := f.queue ++ buff.take count, results := f.results ++ [.wrote count] }
  | .read size =>
      { f with
        queue := f.queue.drop (min size f.queue.length)
        results := f.results ++ [.got (f.queue.take (min size f.queue.length))] }
  | .peak => { f with results := f.results ++ [.peaked f.queue.head?] }

/-- The ring and what its operations have returned. -/
structure RingRun where
  ring : RingBuffer
  results : List RingResult

namespace RingRun

/-- `RingBufferInit`. -/
def start (buff : ℕ → UInt8) (size : ℕ) : RingRun := ⟨ringBufferInit buff size, []⟩

/-- One operation; it has no result unless all its loops end. -/
def step (s : RingRun) : RingOp → Option RingRun
  | .write buff =>
      (ringBufferWrite buff s.ring).map fun r => ⟨r.2, s.results ++ [.wrote r.1]⟩
  | .read size =>
      (ringBufferRead size s.ring).map fun r => ⟨r.2, s.results ++ [.got r.1]⟩
  | .peak => some { s with results := s.results ++ [.peaked (ringBufferPeak s.ring)] }

/-- The index plus the request does not wrap. -/
def Fits (s : RingRun) : RingOp → Prop
  | .write buff => s.ring.writeIndex + buff.length < 2 ^ 64
  | .read size => s.ring.readIndex + size < 2 ^ 64
  | .peak => True

instance (s : RingRun) : (op : RingOp) → Decidable (s.Fits op)
  | .write _ | .read _ => inferInstanceAs (Decidable (_ < _))
  | .peak => isTrue trivial

/-- The operation stores nothing over a byte of the queue, and nothing outside
the buffer. -/
def Keeps (s : RingRun) (op : RingOp) : Prop :=
  ∀ s', s.step op = some s' → ∀ p, p ∈ positions s.ring ∨ s.ring.size ≤ p →
    s'.ring.buffer p = s.ring.buffer p

/-- The ring holds what the queue holds, and both have returned the same. -/
structure Refines (s : RingRun) (f : Fifo) : Prop where
  ok : Ok s.ring
  size : s.ring.size = f.capacity
  contents : s.ring.contents = f.queue
  results : s.results = f.results

end RingRun

open RingRun

variable {s : RingRun} {f : Fifo}

theorem ringBufferPeak_eq (h : Ok ring) : ringBufferPeak ring = ring.contents.head? := by
  have hr := h.readIndex_lt
  unfold ringBufferPeak contents ringBufferIsEmpty
  split
  · rfl
  · split
    · next hrw => rw [slice_cons hrw, List.head?_cons]
    · rw [slice_cons hr, List.cons_append, List.head?_cons]

/-- **One operation** of the ring is one operation of the queue. -/
theorem RingRun.Refines.step (h : Refines s f) (hcap : f.capacity < 2 ^ 64) (op : RingOp)
    (hfit : s.Fits op) : ∃ s', s.step op = some s' ∧ Refines s' (f.step op) ∧ s.Keeps op := by
  have hsize : s.ring.size < 2 ^ 64 := h.size ▸ hcap
  cases op with
  | write buff =>
      obtain ⟨count, ring, hrun, hok, hcount, hcontents, hsize', hframe⟩ :=
        ringBufferWrite_spec h.ok hsize hfit
      have hstep : s.step (.write buff) = some ⟨ring, s.results ++ [.wrote count]⟩ := by
        rw [RingRun.step, hrun, Option.map_some]
      rw [h.size, h.contents] at hcount
      refine ⟨_, hstep, ⟨hok, hsize'.trans h.size, ?_, ?_⟩, fun s' hs' p hp => ?_⟩
      · rw [hcontents, hcount, h.contents]
        rfl
      · rw [hcount, h.results]
        rfl
      · rw [hstep, Option.some.injEq] at hs'
        subst hs'
        obtain hp | hp := hp
        · exact ringBufferWrite_keeps h.ok hsize hfit hrun hp
        · exact hframe p hp
  | read size =>
      obtain ⟨bytes, ring, hrun, hok, hbytes, hcontents, hsize', hbuffer⟩ :=
        ringBufferRead_spec h.ok hsize hfit
      have hstep : s.step (.read size) = some ⟨ring, s.results ++ [.got bytes]⟩ := by
        rw [RingRun.step, hrun, Option.map_some]
      rw [h.contents] at hbytes hcontents
      refine ⟨_, hstep, ⟨hok, hsize'.trans h.size, ?_, ?_⟩, fun s' hs' p _ => ?_⟩
      · rw [hcontents, Fifo.step, ← List.drop_eq_drop_min]
      · rw [hbytes, h.results, Fifo.step, ← List.take_eq_take_min]
      · rw [hstep, Option.some.injEq] at hs'
        subst hs'
        exact congrFun hbuffer p
  | peak =>
      refine ⟨_, rfl, ⟨h.ok, h.size, h.contents, ?_⟩, fun s' hs' p _ => ?_⟩
      · simp only [Fifo.step]
        rw [ringBufferPeak_eq h.ok, h.contents, h.results]
      · rw [RingRun.step, Option.some.injEq] at hs'
        subst hs'
        rfl

theorem Fifo.step_capacity (f : Fifo) (op : RingOp) : (f.step op).capacity = f.capacity := by
  cases op <;> rfl

theorem refines_start (mem : ℕ → UInt8) {size : ℕ} (h : 0 < size) :
    Refines (start mem size) ⟨size, [], []⟩ :=
  ⟨ringBufferInit_ok h, rfl, rfl, rfl⟩

/-- A run of the ring is a run of the queue, and no step of it is stuck. -/
theorem RingRun.Refines.exec (h : Refines s f) (hcap : f.capacity < 2 ^ 64) (ops : List RingOp)
    (hfit : Along RingRun.step Fits s ops) :
    ∃ s', Run.exec RingRun.step s ops = some s' ∧ Refines s' (ops.foldl Fifo.step f) ∧
      Along RingRun.step Keeps s ops := by
  induction ops generalizing s f with
  | nil => exact ⟨s, rfl, h, trivial⟩
  | cons op ops ih =>
      obtain ⟨t, hstep, ht, hkeeps⟩ := h.step hcap op hfit.1
      obtain ⟨s', hrun, hs', halong⟩ :=
        ih ht (by rwa [Fifo.step_capacity]) (hfit.2 t hstep)
      refine ⟨s', exec_cons_eq_some.mpr ⟨t, hstep, hrun⟩, hs', hkeeps, fun u hu => ?_⟩
      rw [hstep, Option.some.injEq] at hu
      exact hu ▸ halong

/-- What the ring shows of the queue `q` it holds. -/
structure RingOk (ring : RingBuffer) (q : List UInt8) : Prop where
  contents : ring.contents = q
  readIndex_lt : ring.readIndex < ring.size
  writeIndex_lt : ring.writeIndex < ring.size
  isEmpty : ringBufferIsEmpty ring = true ↔ q.length = 0
  isFull : ringBufferIsFull ring = true ↔ q.length = ring.size
  peak : ringBufferPeak ring = q.head?

theorem RingRun.Refines.ringOk (h : Refines s f) : RingOk s.ring f.queue where
  contents := h.contents
  readIndex_lt := h.ok.readIndex_lt
  writeIndex_lt := h.ok.writeIndex_lt
  isEmpty := by rw [isEmpty_iff h.ok, h.contents, List.length_eq_zero_iff]
  isFull := by rw [isFull_iff h.ok, h.contents]
  peak := by rw [ringBufferPeak_eq h.ok, h.contents]

/-- **The ring refines a bounded FIFO.**  For every ring of at least one byte and
every sequence of operations whose requests do not make an index wrap: every
operation ends, they return what those of a queue of `size` bytes return, the
ring holds that queue, and no operation stores over a byte of it. -/
theorem ring_refines_fifo (mem : ℕ → UInt8) (size : ℕ) (hsize : 0 < size) (hcap : size < 2 ^ 64)
    (ops : List RingOp) (hfit : Along RingRun.step Fits (start mem size) ops) :
    ∃ s, Run.exec RingRun.step (start mem size) ops = some s ∧
      s.results = (ops.foldl Fifo.step ⟨size, [], []⟩).results ∧
      RingOk s.ring (ops.foldl Fifo.step ⟨size, [], []⟩).queue ∧ s.ring.size = size ∧
      Along RingRun.step Keeps (start mem size) ops := by
  obtain ⟨s, hrun, href, hkeeps⟩ := (refines_start mem hsize).exec hcap ops hfit
  have hcapacity : (ops.foldl Fifo.step ⟨size, [], []⟩).capacity = size :=
    List.foldlRecOn ops Fifo.step (motive := fun f => f.capacity = size) rfl
      fun f hf op _ => (f.step_capacity op).trans hf
  exact ⟨s, hrun, href.results, href.ringOk, href.size.trans hcapacity, hkeeps⟩

/-- Three bytes into a ring of two, one out, and a write that wraps. -/
theorem ring_refines_fifo_sample :
    ∃ s, Run.exec RingRun.step (start (fun _ => 0) 2)
        [.write [1, 2, 3], .read 1, .write [4, 5], .peak, .read 9] = some s ∧
      s.results = [.wrote 2, .got [1], .wrote 1, .peaked (some 2), .got [2, 4]] := by
  obtain ⟨s, hrun, hresults, -⟩ := ring_refines_fifo (fun _ => 0) 2 (by decide) (by decide)
    [.write [1, 2, 3], .read 1, .write [4, 5], .peak, .read 9] (by decide)
  exact ⟨s, hrun, hresults⟩

end KernelPanic
