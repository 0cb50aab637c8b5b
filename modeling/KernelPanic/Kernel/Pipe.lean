import KernelPanic.Kernel.Semaphore
import KernelPanic.Utils.RingBuffer.Transfer

/-!
# KernelPanic.Kernel.Pipe

The byte pipe of `kernel/pipe.c`: a ring buffer, a mutex around it, and for
either side a lock that keeps its calls apart and a gate that is open while the
ring has something for that side.

The reading and the writing functions are each other's mirror image, statement
by statement, so there is one program for both, with the `Side` as a parameter:
what is `ReadLock`, `EmptyLock`, `wasFull`, `dataLeft` for a reader is
`WriteLock`, `FullLock`, `wasEmpty`, `spaceLeft` for a writer.  A run interleaves
any number of threads, one statement at a time.

A request that makes an index of the ring wrap never comes back from the ring's
copy loop, and its thread keeps the mutex (`PipePc.copying`).  `PipeRun.Fits` says
that a step does not begin such a request.
-/

namespace KernelPanic

variable {τ : Type*} [DecidableEq τ]

/-- The two ends of a pipe. -/
inductive Side where
  | read
  | write
deriving DecidableEq

/-- The semaphores of a pipe. -/
inductive PipeLock where
  /-- `Mutex`. -/
  | mutex
  /-- `EmptyLock` for the readers, `FullLock` for the writers. -/
  | gate (side : Side)
  /-- `ReadLock` for the readers, `WriteLock` for the writers. -/
  | outer (side : Side)
deriving DecidableEq

/-- `struct PIPE`. -/
structure Pipe (τ : Type*) where
  ring : RingBuffer
  lock : PipeLock → Semaphore τ

/-- `PipeInit`. -/
def pipeInit (buff : ℕ → UInt8) (size : ℕ) : Pipe τ where
  ring := ringBufferInit buff size
  lock
    | .mutex => semaphoreInit 1
    | .gate .read => semaphoreInit 0
    | .gate .write => semaphoreInit 1
    | .outer .read => semaphoreInit 1
    | .outer .write => semaphoreInit 1

/-- The calls a thread can make.  The buffer of a write is what it holds. -/
inductive PipeCall where
  | pipeRead (size : ℕ)
  | pipeReadStruct (size : ℕ)
  | pipeWrite (buff : List UInt8)
  | pipeWriteStruct (buff : List UInt8)
deriving DecidableEq

namespace Side

/-- The other end. -/
def other : Side → Side
  | .read => .write
  | .write => .read

@[simp] theorem ne_other (side : Side) : side ≠ side.other := by
  cases side <;> simp [other]

@[simp] theorem other_ne (side : Side) : side.other ≠ side := (ne_other side).symm

/-- There are two ends. -/
theorem eq_other_of_ne {a b : Side} (h : a ≠ b) : b = a.other := by
  cases a <;> cases b <;> simp_all [other]

/-- The ring has something for this side: data to read, or space to write. -/
def avail (side : Side) (ring : RingBuffer) : Bool :=
  match side with
  | .read => !ringBufferIsEmpty ring
  | .write => !ringBufferIsFull ring

/-- Where the side's next transfer starts. -/
def index (side : Side) (ring : RingBuffer) : ℕ :=
  match side with
  | .read => ring.readIndex
  | .write => ring.writeIndex

end Side

namespace PipeCall

/-- The end that is called. -/
def side : PipeCall → Side
  | .pipeRead _ | .pipeReadStruct _ => .read
  | .pipeWrite _ | .pipeWriteStruct _ => .write

/-- What the call asks for. -/
def size : PipeCall → ℕ
  | .pipeRead size | .pipeReadStruct size => size
  | .pipeWrite buff | .pipeWriteStruct buff => buff.length

/-- `PipeReadStruct` or `PipeWriteStruct`. -/
def isStruct : PipeCall → Bool
  | .pipeReadStruct _ | .pipeWriteStruct _ => true
  | .pipeRead _ | .pipeWrite _ => false

end PipeCall

/-- The statement a thread executes next. -/
inductive PipePc where
  /-- `SemaphoreDown( & pipe->ReadLock, NULL )`. -/
  | downOuter
  /-- `while (read < size)`; outside a struct call, the one call of
  `PipeReadInner`. -/
  | loop
  /-- `SemaphoreDown( & pipe->EmptyLock, NULL )`. -/
  | downGate
  /-- `SemaphoreDown( & pipe->Mutex, NULL )`. -/
  | downMutex
  /-- `wasFull = RingBufferIsFull( & pipe->Ring )`, and its `ASSERT`. -/
  | check
  /-- `read = RingBufferRead( buff, size, & pipe->Ring )`, and its `ASSERT`. -/
  | transfer
  /-- In the copy loop of `RingBufferRead`, which has left the ring's buffer. -/
  | copying
  /-- `dataLeft = !RingBufferIsEmpty( & pipe->Ring )`. -/
  | checkLeft
  /-- `SemaphoreUp( & pipe->Mutex )`. -/
  | upMutex
  /-- `if( wasFull && read > 0 ) SemaphoreUp( & pipe->FullLock )`. -/
  | upOther
  /-- `if( dataLeft ) SemaphoreUp( & pipe->EmptyLock )`, and the return to the
  caller of `PipeReadInner`. -/
  | upGate
  /-- `SemaphoreUp( & pipe->ReadLock )`. -/
  | upOuter
  /-- The `ASSERT` of a struct call, and the return. -/
  | ret
deriving DecidableEq

/-- A call in progress and its variables. -/
structure PipeThread where
  call : PipeCall
  /-- The number of the call, in the order they are made. -/
  id : ℕ
  pc : PipePc
  /-- `read` of `PipeRead` and `PipeReadStruct`. -/
  done : ℕ
  /-- `wasFull`. -/
  was : Bool
  /-- `read` of `PipeReadInner`. -/
  n : ℕ
  /-- `dataLeft`. -/
  left : Bool
  /-- The bytes of the caller's buffer that have been filled, or taken. -/
  moved : List UInt8
deriving DecidableEq

namespace PipeThread

/-- The call is made. -/
def start (call : PipeCall) (id : ℕ) : PipeThread := ⟨call, id, .downOuter, 0, false, 0, false, []⟩

def side (p : PipeThread) : Side := p.call.side

/-- `RingBufferRead` or `RingBufferWrite` of what is left of the request: the
count, the bytes, and the ring. -/
def ringOp (p : PipeThread) (ring : RingBuffer) : Option (ℕ × List UInt8 × RingBuffer) :=
  match p.call with
  | .pipeRead size | .pipeReadStruct size =>
      (ringBufferRead (size - p.done) ring).map fun r => (r.1.length, r.1, r.2)
  | .pipeWrite buff | .pipeWriteStruct buff =>
      (ringBufferWrite (buff.drop p.done) ring).map fun r =>
        (r.1, (buff.drop p.done).take r.1, r.2)

/-- The bytes and the ring when the copy loop of a ring operation that does not
come back is at the end of the ring's buffer.  The index is already that of the
end which the loop has missed. -/
def overrun (p : PipeThread) (ring : RingBuffer) : List UInt8 × RingBuffer :=
  match p.call with
  | .pipeRead size | .pipeReadStruct size =>
      let stop := indexAdd ring.readIndex (size - p.done)
      (slice ring.buffer ring.readIndex ring.size,
        { ring with readIndex := (clampEnd stop ring.size ring.readIndex ring.writeIndex).2 })
  | .pipeWrite buff | .pipeWriteStruct buff =>
      let stop := indexAdd ring.writeIndex (buff.length - p.done)
      let bytes := (buff.drop p.done).take (ring.size - ring.writeIndex)
      (bytes, { ring with
        writeIndex := (clampEnd stop ring.size ring.writeIndex ring.readIndex).2
        buffer := Transfer.copyIn ring.buffer ring.writeIndex bytes })

end PipeThread

/-- The pipe, its threads and what has gone through it.  The bytes that have
entered and left the ring are logged with the number of the call that moved
them. -/
structure PipeRun (τ : Type*) where
  world : Contexts τ
  pipe : Pipe τ
  thread : τ → Option PipeThread
  calls : ℕ
  accepted : List (ℕ × UInt8)
  returned : List (ℕ × UInt8)
  finished : List PipeThread

/-- What a thread does. -/
inductive PipeOp (τ : Type*) where
  /-- The thread makes a call. -/
  | call (t : τ) (call : PipeCall)
  /-- The thread executes its next statement. -/
  | run (t : τ)

namespace PipeRun

/-- Nobody has called yet, and all threads run. -/
def start (buff : ℕ → UInt8) (size : ℕ) : PipeRun τ where
  world := ⟨fun _ => ⟨.ready, .shared, .thread⟩, fun _ => .running, [], [], false⟩
  pipe := pipeInit buff size
  thread _ := none
  calls := 0
  accepted := []
  returned := []
  finished := []

/-- `SemaphoreDown( & pipe->l, NULL )`. -/
def down (s : PipeRun τ) (t : τ) (l : PipeLock) : PipeRun τ :=
  let r := semaphoreDown s.world (s.pipe.lock l) t
  { s with world := r.1, pipe := { s.pipe with lock := Function.update s.pipe.lock l r.2 } }

/-- `SemaphoreUp( & pipe->l )`. -/
def up (s : PipeRun τ) (l : PipeLock) : PipeRun τ :=
  let r := semaphoreUp s.world (s.pipe.lock l)
  { s with world := r.1, pipe := { s.pipe with lock := Function.update s.pipe.lock l r.2 } }

/-- `ASSERT(b)`. -/
def assert (s : PipeRun τ) (b : Bool) : PipeRun τ := { s with world := s.world.assert b }

/-- The variables of the call change. -/
def setThread (s : PipeRun τ) (t : τ) (p : PipeThread) : PipeRun τ :=
  { s with thread := Function.update s.thread t (some p) }

/-- The bytes have entered or left the ring. -/
def setRing (s : PipeRun τ) (side : Side) (id : ℕ) (bytes : List UInt8) (ring : RingBuffer) :
    PipeRun τ :=
  let s := { s with pipe := { s.pipe with ring := ring } }
  match side with
  | .read => { s with returned := s.returned ++ bytes.map (id, ·) }
  | .write => { s with accepted := s.accepted ++ bytes.map (id, ·) }

/-- The statement at `pc` of `PipeReadInner`, `PipeRead` and `PipeReadStruct`,
or of `PipeWriteInner`, `PipeWrite` and `PipeWriteStruct`. -/
def statement (s : PipeRun τ) (t : τ) (p : PipeThread) : PipeRun τ :=
  match p.pc with
  | .downOuter => (s.down t (.outer p.side)).setThread t { p with pc := .loop }
  | .loop =>
      let stop := p.call.isStruct && p.call.size ≤ p.done
      s.setThread t { p with pc := if stop then .upOuter else .downGate }
  | .downGate => (s.down t (.gate p.side)).setThread t { p with pc := .downMutex }
  | .downMutex => (s.down t .mutex).setThread t { p with pc := .check }
  | .check =>
      let was := !p.side.other.avail s.pipe.ring
      (s.assert (!was || (s.pipe.lock (.gate p.side.other)).count = 0)).setThread t
        { p with was := was, pc := .transfer }
  | .transfer =>
      match p.ringOp s.pipe.ring with
      | some r =>
          ((s.setRing p.side p.id r.2.1 r.2.2).assert (0 < r.1)).setThread t
            { p with n := r.1, moved := p.moved.take p.done ++ r.2.1, pc := .checkLeft }
      | none =>
          let r := p.overrun s.pipe.ring
          (s.setRing p.side p.id r.1 r.2).setThread t
            { p with moved := p.moved.take p.done ++ r.1, pc := .copying }
  -- the loop goes on, over memory that is not the ring's
  | .copying => s
  | .checkLeft => s.setThread t { p with left := p.side.avail s.pipe.ring, pc := .upMutex }
  | .upMutex => (s.up .mutex).setThread t { p with pc := .upOther }
  | .upOther =>
      (if p.was && 0 < p.n then s.up (.gate p.side.other) else s).setThread t
        { p with pc := .upGate }
  | .upGate =>
      (if p.left then s.up (.gate p.side) else s).setThread t
        { p with done := p.done + p.n, pc := if p.call.isStruct then .loop else .upOuter }
  | .upOuter => (s.up (.outer p.side)).setThread t { p with pc := .ret }
  | .ret =>
      let s := s.assert (!p.call.isStruct || p.done = p.call.size)
      { s with thread := Function.update s.thread t none, finished := s.finished ++ [p] }

/-- The thread is not blocked. -/
def Runs (s : PipeRun τ) (t : τ) : Prop :=
  (s.world.context t).state = .ready ∧ s.world.thread t = .running

instance (s : PipeRun τ) (t : τ) : Decidable (s.Runs t) := inferInstanceAs (Decidable (_ ∧ _))

/-- One step.  Only a struct call may ask for nothing. -/
def step (s : PipeRun τ) : PipeOp τ → Option (PipeRun τ)
  | .call t call =>
      if s.Runs t ∧ s.thread t = none ∧ (call.isStruct = false → 0 < call.size) then
        some { s with
          thread := Function.update s.thread t (some (.start call s.calls))
          calls := s.calls + 1 }
      else none
  | .run t =>
      match s.thread t with
      | some p => if s.Runs t then some (s.statement t p) else none
      | none => none

/-- At a ring operation, the index plus what is left of the request does not
wrap. -/
def Fits (s : PipeRun τ) : PipeOp τ → Prop
  | .call _ _ => True
  | .run t => ∀ p ∈ s.thread t, p.pc = .transfer →
      p.side.index s.pipe.ring + (p.call.size - p.done) < 2 ^ 64

instance (s : PipeRun τ) : (op : PipeOp τ) → Decidable (s.Fits op)
  | .call _ _ => isTrue trivial
  | .run t => inferInstanceAs (Decidable (∀ p ∈ s.thread t, _))

end PipeRun

/-! ## the ring step -/

open RingBuffer

variable {ring : RingBuffer} {p : PipeThread}

/-- A reader has something when the queue has. -/
theorem avail_read_iff (h : Ok ring) : Side.read.avail ring = true ↔ ring.contents ≠ [] := by
  rw [Side.avail, Bool.not_eq_true', ← Bool.not_eq_true, isEmpty_iff h]

/-- A writer has something when the queue has space. -/
theorem avail_write_iff (h : Ok ring) :
    Side.write.avail ring = true ↔ ring.contents.length < ring.size := by
  have hle := contents_length_le h
  rw [Side.avail, Bool.not_eq_true', ← Bool.not_eq_true, isFull_iff h]
  omega

/-- The bytes leave the front of the queue, or join its back. -/
def Moves (side : Side) (ring : RingBuffer) (bytes : List UInt8) (ring' : RingBuffer) : Prop :=
  match side with
  | .read => ring.contents = bytes ++ ring'.contents
  | .write => ring'.contents = ring.contents ++ bytes

/-- What the ring step of a call does, when there is something left of the call
and something in the ring for it. -/
structure RingStep (p : PipeThread) (ring : RingBuffer) (r : ℕ × List UInt8 × RingBuffer) : Prop where
  ok : Ok r.2.2
  size : r.2.2.size = ring.size
  pos : 0 < r.1
  le : p.done + r.1 ≤ p.call.size
  length : r.2.1.length = r.1
  moves : Moves p.side ring r.2.1 r.2.2
  /-- The other side has got something. -/
  other : p.side.other.avail r.2.2 = true
  /-- A write takes the next bytes of its buffer. -/
  taken : ∀ buff, p.call = .pipeWrite buff ∨ p.call = .pipeWriteStruct buff →
    r.2.1 = (buff.drop p.done).take r.1

/-- `RingBufferRead` reads something. -/
theorem ringStep_read {size : ℕ} (hcall : p.call = .pipeRead size ∨ p.call = .pipeReadStruct size)
    (h : Ok ring) (hcap : ring.size < 2 ^ 64) (hroom : p.done < size)
    (havail : Side.read.avail ring = true) (hfit : ring.readIndex + (size - p.done) < 2 ^ 64) :
    ∃ r, p.ringOp ring = some r ∧ RingStep p ring r := by
  obtain ⟨bytes, ring', hread, hok, htake, hdrop, hsize', -⟩ := ringBufferRead_spec h hcap hfit
  have hop : p.ringOp ring = some (bytes.length, bytes, ring') := by
    obtain hcall | hcall := hcall <;> simp [PipeThread.ringOp, hcall, hread]
  have hside : p.side = .read := by
    obtain hcall | hcall := hcall <;> simp [PipeThread.side, PipeCall.side, hcall]
  have hsize : p.call.size = size := by
    obtain hcall | hcall := hcall <;> simp [PipeCall.size, hcall]
  have hpos : 0 < ring.contents.length := List.length_pos_iff.mpr ((avail_read_iff h).mp havail)
  have hle := contents_length_le h
  have hlen : bytes.length = min (size - p.done) ring.contents.length := by
    rw [htake, List.length_take]
  refine ⟨_, hop, hok, hsize', ?_, ?_, rfl, ?_, ?_, ?_⟩
  · show 0 < bytes.length
    omega
  · show p.done + bytes.length ≤ p.call.size
    omega
  · rw [hside]
    show ring.contents = bytes ++ ring'.contents
    rw [htake, hdrop, List.take_append_drop]
  · rw [hside]
    refine (avail_write_iff hok).mpr ?_
    rw [hdrop, List.length_drop, hsize']
    omega
  · rintro buff (hwrite | hwrite) <;> obtain hcall | hcall := hcall <;> simp [hcall] at hwrite

/-- `RingBufferWrite` writes something. -/
theorem ringStep_write {buff : List UInt8}
    (hcall : p.call = .pipeWrite buff ∨ p.call = .pipeWriteStruct buff) (h : Ok ring)
    (hcap : ring.size < 2 ^ 64) (hroom : p.done < buff.length)
    (havail : Side.write.avail ring = true)
    (hfit : ring.writeIndex + (buff.length - p.done) < 2 ^ 64) :
    ∃ r, p.ringOp ring = some r ∧ RingStep p ring r := by
  rw [← List.length_drop] at hfit
  obtain ⟨count, ring', hwrite, hok, hcount, hcontents, hsize', -⟩ :=
    ringBufferWrite_spec h hcap hfit
  have hop : p.ringOp ring = some (count, (buff.drop p.done).take count, ring') := by
    obtain hcall | hcall := hcall <;> simp [PipeThread.ringOp, hcall, hwrite]
  have hside : p.side = .write := by
    obtain hcall | hcall := hcall <;> simp [PipeThread.side, PipeCall.side, hcall]
  have hsize : p.call.size = buff.length := by
    obtain hcall | hcall := hcall <;> simp [PipeCall.size, hcall]
  have hpos := (avail_write_iff h).mp havail
  rw [List.length_drop] at hcount
  have hlen : ((buff.drop p.done).take count).length = count := by
    rw [List.length_take, List.length_drop]
    omega
  refine ⟨_, hop, hok, hsize', ?_, ?_, hlen, ?_, ?_, ?_⟩
  · show 0 < count
    omega
  · show p.done + count ≤ p.call.size
    omega
  · rw [hside]
    exact hcontents
  · rw [hside]
    refine (avail_read_iff hok).mpr fun hnil => ?_
    have hzero := congrArg List.length (hcontents.symm.trans hnil)
    rw [List.length_append, hlen, List.length_nil] at hzero
    omega
  · rintro buff' (hwrite | hwrite) <;> obtain hcall | hcall := hcall <;>
    simp [hcall] at hwrite <;> rw [hwrite]

/-- **The ring step** of either side. -/
theorem ringOp_spec (h : Ok ring) (hcap : ring.size < 2 ^ 64) (hroom : p.done < p.call.size)
    (havail : p.side.avail ring = true)
    (hfit : p.side.index ring + (p.call.size - p.done) < 2 ^ 64) :
    ∃ r, p.ringOp ring = some r ∧ RingStep p ring r := by
  cases hcall : p.call with
  | pipeRead size | pipeReadStruct size =>
      simp only [PipeThread.side, PipeCall.side, PipeCall.size, hcall] at hroom havail hfit
      exact ringStep_read (by simp [hcall]) h hcap hroom havail hfit
  | pipeWrite buff | pipeWriteStruct buff =>
      simp only [PipeThread.side, PipeCall.side, PipeCall.size, hcall] at hroom havail hfit
      exact ringStep_write (by simp [hcall]) h hcap hroom havail hfit

/-- Where the index wraps, the ring step does not come back. -/
theorem ringOp_eq_none (h : Ok ring) (hcap : ring.size < 2 ^ 64) (hsize : p.call.size < 2 ^ 64)
    (havail : p.side.avail ring = true)
    (hwrap : 2 ^ 64 ≤ p.side.index ring + (p.call.size - p.done)) : p.ringOp ring = none := by
  cases hcall : p.call with
  | pipeRead size | pipeReadStruct size =>
      simp only [PipeThread.side, PipeCall.side, PipeCall.size, hcall] at hsize havail hwrap
      simp only [PipeThread.ringOp, hcall]
      rw [ringBufferRead_eq_none h hcap (by omega) (by simpa [Side.avail] using havail) hwrap]
      rfl
  | pipeWrite buff | pipeWriteStruct buff =>
      simp only [PipeThread.side, PipeCall.side, PipeCall.size, hcall] at hsize havail hwrap
      rw [← List.length_drop] at hwrap
      simp only [PipeThread.ringOp, hcall]
      rw [ringBufferWrite_eq_none h hcap (by rw [List.length_drop]; omega)
        (by simpa [Side.avail] using havail) hwrap]
      rfl

end KernelPanic
