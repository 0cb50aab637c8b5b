import KernelPanic.Kernel.Pipe.Shared

/-!
# KernelPanic.Kernel.Socket

The sockets of `kernel/socket.c`: two pipes, with a handle for either end that reads from
one and writes to the other.  Any number of threads use the handles.
-/

namespace KernelPanic

open Run

variable {τ : Type*} [DecidableEq τ]

/-- The pipes of `struct SOCKET`. -/
inductive SocketPipe where
  | pipe1
  | pipe2
deriving DecidableEq

instance : Fintype SocketPipe := ⟨{.pipe1, .pipe2}, fun i => by cases i <;> simp⟩

/-- `struct SOCKET_HANDLE`. -/
structure SocketHandle where
  read : SocketPipe
  write : SocketPipe

/-- The handles that `SocketInit` fills. -/
inductive SocketEnd where
  | h1
  | h2
deriving DecidableEq

def SocketEnd.other : SocketEnd → SocketEnd
  | .h1 => .h2
  | .h2 => .h1

/-- The handles after `SocketInit`. -/
def socketInit : SocketEnd → SocketHandle
  | .h1 => { read := .pipe1, write := .pipe2 }
  | .h2 => { read := .pipe2, write := .pipe1 }

/-- The calls a thread can make. -/
inductive SocketCall where
  | socketReadChars (size : ℕ)
  | socketReadStruct (size : ℕ)
  | socketWriteChars (buff : List UInt8)
  | socketWriteStruct (buff : List UInt8)

/-- The call of the pipe. -/
def SocketCall.inner (socket : SocketHandle) : SocketCall → SocketPipe × PipeCall
  | .socketReadChars size => (socket.read, .pipeRead size)
  | .socketReadStruct size => (socket.read, .pipeReadStruct size)
  | .socketWriteChars buff => (socket.write, .pipeWrite buff)
  | .socketWriteStruct buff => (socket.write, .pipeWriteStruct buff)

/-- The socket and its threads. -/
abbrev SocketRun (τ : Type*) := PipeSystem SocketPipe τ

inductive SocketOp (τ : Type*) where
  /-- The thread makes a call. -/
  | call (t : τ) (socket : SocketEnd) (call : SocketCall)
  /-- The thread executes its next statement. -/
  | run (t : τ)

namespace SocketRun

/-- `SocketInit`, before anybody has called. -/
def start (buff1 : ℕ → UInt8) (buff1_size : ℕ) (buff2 : ℕ → UInt8) (buff2_size : ℕ) :
    SocketRun τ :=
  PipeSystem.start (fun | .pipe1 => buff1 | .pipe2 => buff2)
    (fun | .pipe1 => buff1_size | .pipe2 => buff2_size)

/-- What the step is for the pipes: a thread goes on where it has called. -/
def inner (s : SocketRun τ) : SocketOp τ → SocketPipe × PipeOp τ
  | .call t socket call =>
      let inner := call.inner (socketInit socket)
      (inner.1, .call t inner.2)
  | .run t => (if (s.part .pipe1).thread t = none then .pipe2 else .pipe1, .run t)

def step (s : SocketRun τ) (op : SocketOp τ) : Option (SocketRun τ) := PipeSystem.step s (s.inner op)

/-- No index of the pipe's ring wraps. -/
def Fits (s : SocketRun τ) (op : SocketOp τ) : Prop := PipeSystem.Fits s (s.inner op)

instance (s : SocketRun τ) (op : SocketOp τ) : Decidable (s.Fits op) :=
  inferInstanceAs (Decidable (PipeSystem.Fits s (s.inner op)))

/-- The bytes that calls with this handle have written, in order. -/
def sent (s : SocketRun τ) (socket : SocketEnd) : List UInt8 :=
  (s.part (socketInit socket).write).accepted.map Prod.snd

/-- The bytes that calls with this handle have read, in order. -/
def received (s : SocketRun τ) (socket : SocketEnd) : List UInt8 :=
  (s.part (socketInit socket).read).returned.map Prod.snd

end SocketRun

/-- What a socket promises. -/
structure SocketOk (s : SocketRun τ) : Prop where
  /-- No `ASSERT` has failed. -/
  fine : s.world.panicked = false
  /-- What is read at one end is what has been written at the other. -/
  stream : ∀ socket, s.received socket <+: s.sent socket.other
  /-- Either direction is a pipe. -/
  pipes : ∀ i, PipeStreamOk (s.part i)
  /-- A thread is in one call at a time. -/
  alone : ∀ t i j, (s.part i).thread t ≠ none → (s.part j).thread t ≠ none → i = j
  /-- When no call of a pipe can go on, the ring has nothing for any of them. -/
  notStuck : ∀ i,
    (∀ t p, (s.part i).thread t = some p → ¬ (s.pipe i).Runs t ∨ p.pc = .copying) →
    ∀ t p, (s.part i).thread t = some p → p.side.avail (s.part i).pipe.ring = false

variable {s : SocketRun τ}

/-- **A socket is two byte-exact queues**, one each way, whatever the threads at its ends
do and in whatever order, as long as no request makes an index of a ring wrap. -/
theorem socket_stream (buff1 : ℕ → UInt8) (buff1_size : ℕ) (buff2 : ℕ → UInt8) (buff2_size : ℕ)
    (h1 : 0 < buff1_size ∧ buff1_size < 2 ^ 64) (h2 : 0 < buff2_size ∧ buff2_size < 2 ^ 64)
    (ops : List (SocketOp τ))
    (hfit : Along SocketRun.step SocketRun.Fits (.start buff1 buff1_size buff2 buff2_size) ops)
    (h : exec SocketRun.step (.start buff1 buff1_size buff2 buff2_size) ops = some s) :
    SocketOk s := by
  have hinv : s.SharedInv := by
    refine exec_induction (I := PipeSystem.SharedInv) (fun _ _ _ hs hfit hstep => hs.step hfit hstep)
      (PipeSystem.sharedInv_start _ fun i => ?_) hfit h
    cases i
    · exact h1
    · exact h2
  refine ⟨hinv.fine, fun socket => ?_, hinv.stream, hinv.alone, fun i hall t p hp =>
    hinv.not_stuck hall hp⟩
  cases socket
  · exact (hinv.stream .pipe1).fifo
  · exact (hinv.stream .pipe2).fifo

/-- Two threads send a value to and fro, through rings of two bytes. -/
def sampleSocket : List (SocketOp ℕ) :=
  .call 0 .h1 (.socketWriteStruct [7, 0, 0]) :: List.replicate 12 (.run 0) ++
    .call 1 .h2 (.socketReadStruct 3) :: List.replicate 12 (.run 1) ++
    List.replicate 10 (.run 0) ++ List.replicate 10 (.run 1) ++
    .call 1 .h2 (.socketWriteStruct [8]) :: List.replicate 13 (.run 1) ++
    .call 0 .h1 (.socketReadChars 3) :: List.replicate 12 (.run 0)

theorem socket_stream_sample :
    ∃ s : SocketRun ℕ, exec SocketRun.step (.start (fun _ => 0) 2 (fun _ => 0) 2) sampleSocket =
        some s ∧ s.received .h1 = [8] ∧ s.received .h2 = [7, 0, 0] ∧ SocketOk s := by
  have hend : (exec SocketRun.step (.start (fun _ => 0) 2 (fun _ => 0) 2) sampleSocket).map
      (fun s => (s.received .h1, s.received .h2)) = some ([8], [7, 0, 0]) := by
    decide +kernel
  obtain ⟨s, hs, hreceived⟩ := Option.map_eq_some_iff.mp hend
  obtain ⟨h1, h2⟩ := Prod.ext_iff.mp hreceived
  refine ⟨s, hs, h1, h2, socket_stream _ 2 _ 2 (by decide) (by decide) sampleSocket ?_ hs⟩
  decide +kernel

end KernelPanic
