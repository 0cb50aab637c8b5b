import KernelPanic.Kernel.Isr
import KernelPanic.Kernel.Scheduler

/-!
# KernelPanic.Kernel.Dispatch

How a thread switch goes through the interrupt machinery: `IsrHandlerWrapper`,
`IsrDisable` and `IsrEnable` (`kernel/isr.c`), `CritInterrupt`
(`kernel/critinterrupt.c`), `SchedulerNeedsSwitch`, `SchedulerCritHandler`,
`SchedulerSwitch` and `SchedulerThreadStartup` (`kernel/scheduler.c`), and
`ContextSwitch` and `ContextBootstrap` (`kernel/context.c`).

An interrupt can arrive between any two accesses of the variables these
functions share, so each of them is a list of instructions, and a frame of a
stack is the list still to be executed.  `Instr.body` stands for code of no
particular function, which may at any time disable a level around more such
code, register a crit handler or ask for a switch (`BodyOp`).

`AtomicListPush` and `AtomicListPop` are single instructions.  `raise` makes the
crit interrupt pending, once; a pending interrupt is delivered as soon as it is
not masked, before anything else is executed.
-/

namespace KernelPanic

/-! ## code -/

inductive Instr where
  /-- A thread's main, the function of a crit handler, or the handler of an
  interrupt. -/
  | body
  /-- In `IsrDisable`: `IsrDefer(level, false)` when the count is zero. -/
  | mask (level : IrqLevel)
  /-- In `IsrDisable`: `IsrDisabledCount[level]++`. -/
  | increment (level : IrqLevel)
  /-- In `IsrEnable`: `IsrDisabledCount[level]--`, behind its two `ASSERT`s. -/
  | decrement (level : IrqLevel)
  /-- In `IsrEnable`: `IsrDefer(level, true)` when the count is zero. -/
  | unmask (level : IrqLevel)
  /-- In `SchedulerNeedsSwitch`: `MutexLock(&SchedulerMutex)`. -/
  | mutexLock
  /-- `HandlerInit(&SchedulerCritObject)`. -/
  | handlerInit
  /-- `HandlerCompetion(&SchedulerCritObject, PostCritHandler)`. -/
  | handlerCompetion
  /-- `HandlerRegister(&SchedulerCritObject)`. -/
  | handlerRegister
  /-- In `CritInterruptRegisterHandler`: `AtomicListPush`. -/
  | push (handler : CritHandler)
  /-- In `CritInterruptRegisterHandler`: `HalRaiseInterrupt(IRQ_LEVEL_CRIT)`. -/
  | raise
  /-- The loop of `CritInterrupt`: `AtomicListPop`. -/
  | critInterrupt
  /-- `HandlerRun(&SchedulerCritObject)`. -/
  | handlerRun
  /-- In `SchedulerCritHandler`: `Schedule()`. -/
  | schedule
  /-- `SchedulerSwitch`, up to `ContextSwitch`. -/
  | schedulerSwitch
  /-- `HalContextSwitch`. -/
  | halContextSwitch (oldThread newThread : ThreadId)
  /-- `HandlerFinish(&SchedulerCritObject)`, up to its completion function. -/
  | handlerFinish
  | postCritHandler
  /-- The interrupted code goes on, under the mask it had. -/
  | sigreturn
deriving DecidableEq

/-- `IsrDisable`. -/
def isrDisable (level : IrqLevel) : List Instr := [.mask level, .increment level]

/-- `IsrEnable`. -/
def isrEnable (level : IrqLevel) : List Instr := [.decrement level, .unmask level]

/-- `IsrHandlerWrapper`, after the handler of the level has returned. -/
def isrReturn (level : IrqLevel) : List Instr := isrEnable level ++ [.sigreturn]

/-- `CritInterruptRegisterHandler`, after the handler's own bookkeeping. -/
def critInterruptRegisterHandler (handler : CritHandler) : List Instr := [.push handler, .raise]

/-- `SchedulerNeedsSwitch`, with the mutex. -/
def registerSwitch : List Instr :=
  [.handlerInit, .handlerCompetion, .handlerRegister] ++ critInterruptRegisterHandler .scheduler

/-- `CritInterrupt`, for `SchedulerCritObject`: `HandlerRun`,
`SchedulerCritHandler` and `HandlerFinish`.  `QuantumStartTime` is written with
the soft interrupts disabled. -/
def schedulerCritHandler : List Instr :=
  [.handlerRun, .schedule] ++ isrDisable .soft ++ isrEnable .soft ++
    [.schedulerSwitch, .handlerFinish]

/-- `ContextSwitch`, between two threads. -/
def contextSwitch (oldThread newThread : ThreadId) : List Instr :=
  isrDisable .max ++ [.halContextSwitch oldThread newThread] ++ isrEnable .max

/-- `ContextBootstrap` and `SchedulerThreadStartup`, up to the thread's main. -/
def schedulerThreadStartup : List Instr :=
  isrEnable .max ++ [.handlerFinish] ++ isrEnable .crit ++ [.body]

/-! ## the processor -/

inductive FrameKind where
  | thread
  /-- An interrupt, and the mask of the code it has interrupted. -/
  | isr (level savedMask : IrqLevel)
deriving DecidableEq

structure Frame where
  kind : FrameKind
  code : List Instr
deriving DecidableEq

/-- The stack of a thread that has never run. -/
def newStack : List Frame := [⟨.thread, schedulerThreadStartup⟩]

/-- The processor, the stacks of all threads and the scheduler's variables. -/
structure Processor where
  kernel : Kernel
  /-- `SchedulerCritObject.CompleteFunction` is `PostCritHandler`, not `NULL`. -/
  completeFunction : Bool
  /-- `IsrDisabledCount`. -/
  count : IrqLevel → ℕ
  mask : IrqLevel
  /-- The thread on whose stack the processor is, and that stack, the newest
  frame first. -/
  live : ThreadId
  stack : List Frame
  /-- `MachineState` of the other threads. -/
  saved : ThreadId → List Frame
  /-- The thread has set its `State` to blocked or done, and `Schedule` has not
  selected it since. -/
  stopped : ThreadId → Bool
  /-- An `ASSERT` of `IsrEnable` has failed. -/
  isrFailed : Bool
  /-- An `ASSERT` about `SchedulerCritObject` or `SchedulerMutex` has failed. -/
  handlerFailed : Bool

inductive BodyOp where
  /-- The code has come to its end. -/
  | leave
  /-- `IsrDisable`; the matching `IsrEnable` comes after more code. -/
  | disable (level : IrqLevel)
  /-- `CritInterruptRegisterHandler`. -/
  | register (handler : ℕ)
  | schedulerNeedsSwitch
  /-- The thread blocks on a lock. -/
  | block
  /-- The thread's main has returned. -/
  | exit
  | createThread (thread : ThreadId) (start : Bool)
  /-- A lock is granted to the thread. -/
  | wake (thread : ThreadId)
  /-- `SchedulerResumeThread` of a thread created stopped. -/
  | resume (thread : ThreadId)
deriving DecidableEq

inductive Event where
  /-- A soft, serial or timer interrupt arrives. -/
  | interrupt (level : IrqLevel)
  /-- The pending crit interrupt is delivered. -/
  | deliver
  /-- The next instruction. -/
  | exec
  | body (op : BodyOp)
deriving DecidableEq

namespace Processor

/-- `ASSERT(b)`, in `IsrEnable`. -/
def assertIsr (s : Processor) (b : Bool) : Processor := { s with isrFailed := s.isrFailed || !b }

/-- `ASSERT(b)`, in the handler unit or the scheduler. -/
def assert (s : Processor) (b : Bool) : Processor := { s with handlerFailed := s.handlerFailed || !b }

/-- After `KernelInit` and `SchedulerStartup`: the idle thread is about to start
the others and to call `KernelStart`, which enables the interrupts. -/
def kernelInit : Processor where
  kernel := .schedulerStartup
  completeFunction := false
  count := fun l => if l = .max then 1 else 0
  mask := .max
  live := idleThread
  stack := [⟨.thread, .body :: (isrEnable .max ++ [.body])⟩]
  saved := fun _ => newStack
  stopped := fun _ => false
  isrFailed := false
  handlerFailed := false

/-- `CritInterruptIsAtomic`, by the counts. -/
def critInterruptIsAtomic (s : Processor) : Bool := IrqLevel.levels.any fun l => 0 < s.count l

/-- The crit interrupt has to be delivered before anything is executed. -/
def preempted (s : Processor) : Bool := s.mask = .none && s.kernel.critPending

/-- One instruction of the top frame, `rest` being the code after it. -/
def execute (s : Processor) (kind : FrameKind) (rest : List Instr) (below : List Frame) :
    Instr → Option Processor
  | .body => none
  | .mask level =>
      some { s with
        mask := if s.count level = 0 then isrDefer s.count level false else s.mask
        stack := ⟨kind, rest⟩ :: below }
  | .increment level =>
      some { s with
        count := raised s.count level
        stack := ⟨kind, rest⟩ :: below }
  | .decrement level =>
      let s := (s.assertIsr (level ≤ s.mask)).assertIsr (0 < s.count level)
      some { s with
        count := Function.update s.count level (s.count level - 1)
        stack := ⟨kind, rest⟩ :: below }
  | .unmask level =>
      some { s with
        mask := if s.count level = 0 then isrDefer s.count level true else s.mask
        stack := ⟨kind, rest⟩ :: below }
  | .mutexLock =>
      if s.kernel.schedulerMutex then some { s with stack := ⟨kind, rest⟩ :: below }
      else
        some { s with
          kernel := { s.kernel with schedulerMutex := true }
          stack := ⟨kind, registerSwitch ++ rest⟩ :: below }
  | .handlerInit =>
      some { s with
        kernel := { s.kernel with schedulerCritObject := .ready }
        completeFunction := false
        stack := ⟨kind, rest⟩ :: below }
  | .handlerCompetion =>
      let s := (s.assert (s.kernel.schedulerCritObject = .ready)).assert !s.completeFunction
      some { s with
        completeFunction := true
        stack := ⟨kind, rest⟩ :: below }
  | .handlerRegister =>
      let r := handlerRegister s.kernel.schedulerCritObject
      some { s.assert r.2 with
        kernel := { s.kernel with schedulerCritObject := r.1 }
        stack := ⟨kind, rest⟩ :: below }
  | .push handler =>
      some { s with
        kernel := { s.kernel with critList := handler :: s.kernel.critList }
        stack := ⟨kind, rest⟩ :: below }
  | .raise =>
      some { s with
        kernel := { s.kernel with critPending := true }
        stack := ⟨kind, rest⟩ :: below }
  | .critInterrupt =>
      match s.kernel.critList with
      | [] => some { s with stack := ⟨kind, rest⟩ :: below }
      | .other _ :: handlers =>
          some { s with
            kernel := { s.kernel with critList := handlers }
            stack := ⟨kind, .body :: .critInterrupt :: rest⟩ :: below }
      | .scheduler :: handlers =>
          some { s with
            kernel := { s.kernel with critList := handlers }
            stack := ⟨kind, schedulerCritHandler ++ .critInterrupt :: rest⟩ :: below }
  | .handlerRun =>
      let r := handlerRun s.kernel.schedulerCritObject
      some { s.assert r.2 with
        kernel := { s.kernel with schedulerCritObject := r.1 }
        stack := ⟨kind, rest⟩ :: below }
  | .schedule =>
      let kernel := s.kernel.schedule
      some { s with
        kernel := kernel
        stopped := fun t => s.stopped t && kernel.nextThread ≠ some t
        stack := ⟨kind, rest⟩ :: below }
  | .schedulerSwitch =>
      let oldThread := s.kernel.activeThread
      let newThread := s.kernel.nextThread.getD idleThread
      some { s with
        kernel := { s.kernel with activeThread := newThread, nextThread := none }
        stack := ⟨kind, if oldThread = newThread then rest
          else contextSwitch oldThread newThread ++ rest⟩ :: below }
  | .halContextSwitch oldThread newThread =>
      some { s with
        live := newThread
        stack := s.saved newThread
        saved := Function.update s.saved oldThread (⟨kind, rest⟩ :: below) }
  | .handlerFinish =>
      let r := handlerFinish s.kernel.schedulerCritObject
      some { s.assert r.2 with
        kernel := { s.kernel with schedulerCritObject := r.1 }
        stack := ⟨kind, if s.completeFunction then .postCritHandler :: rest else rest⟩ :: below }
  | .postCritHandler =>
      some { s.assert s.kernel.schedulerMutex with
        kernel := { s.kernel with schedulerMutex := false }
        stack := ⟨kind, rest⟩ :: below }
  | .sigreturn =>
      match kind with
      | .thread => none
      | .isr _ savedMask => some { s with mask := savedMask, stack := below }

/-- The code may call `SchedulerNeedsSwitch`: a thread in a critical section, or
`SchedulerTimerHandler`. -/
def MayAsk (s : Processor) : FrameKind → Prop
  | .thread => s.critInterruptIsAtomic
  | .isr level _ => level = .soft

instance (s : Processor) : (kind : FrameKind) → Decidable (s.MayAsk kind)
  | .thread => inferInstanceAs (Decidable (_ = true))
  | .isr level _ => inferInstanceAs (Decidable (level = .soft))

/-- The active thread is in a critical section, and is not already on its way
out. -/
def MayStop (s : Processor) (kind : FrameKind) : Prop :=
  kind = .thread ∧ s.critInterruptIsAtomic ∧ s.kernel.activeThread ≠ idleThread ∧
    s.kernel.thread s.kernel.activeThread = some .running

instance (s : Processor) (kind : FrameKind) : Decidable (s.MayStop kind) :=
  inferInstanceAs (Decidable (_ ∧ _ ∧ _ ∧ _))

/-- What code of no particular function does next, `rest` being the code after
it. -/
def perform (s : Processor) (kind : FrameKind) (rest : List Instr) (below : List Frame) :
    BodyOp → Option Processor
  | .leave => if rest ≠ [] then some { s with stack := ⟨kind, rest⟩ :: below } else none
  | .disable level =>
      if level ≠ .none then
        some { s with
          stack := ⟨kind, isrDisable level ++ .body :: (isrEnable level ++ .body :: rest)⟩ :: below }
      else none
  | .register handler =>
      some { s with
        stack := ⟨kind, critInterruptRegisterHandler (.other handler) ++ .body :: rest⟩ :: below }
  | .schedulerNeedsSwitch =>
      if s.MayAsk kind then some { s with stack := ⟨kind, .mutexLock :: .body :: rest⟩ :: below }
      else none
  | .block =>
      if s.MayStop kind ∧ s.kernel.context s.kernel.activeThread = .ready then
        let kernel := s.kernel.setThread s.kernel.activeThread .blocked
        some { s with
          kernel := kernel.setContext s.kernel.activeThread .blocking
          stopped := Function.update s.stopped s.live true
          stack := ⟨kind, .mutexLock :: .body :: rest⟩ :: below }
      else none
  | .exit =>
      if s.MayStop kind then
        some { s with
          kernel := s.kernel.exitThread
          stopped := Function.update s.stopped s.live true
          stack := ⟨kind, .mutexLock :: .body :: rest⟩ :: below }
      else none
  | .createThread t start =>
      if kind = .thread ∧ s.critInterruptIsAtomic ∧ t ≠ idleThread ∧ t ≠ s.live ∧
          (s.kernel.thread t = none ∨ s.kernel.thread t = some .done) then
        some { s with
          kernel := s.kernel.createThread t start
          saved := Function.update s.saved t newStack }
      else none
  | .wake t =>
      if kind = .thread ∧ s.critInterruptIsAtomic ∧ t ≠ s.live ∨ kind = .isr .crit .none then
        some { s with kernel := s.kernel.wakeOnLock t }
      else none
  | .resume t =>
      if kind = .thread ∧ s.critInterruptIsAtomic ∧ t ≠ idleThread ∧ t ≠ s.live ∧
          s.kernel.thread t = some .blocked ∧ s.kernel.context t = .ready then
        some { s with kernel := s.kernel.resumeThread t }
      else none

def step (s : Processor) : Event → Option Processor
  | .interrupt level =>
      if s.mask < level ∧ .crit < level ∧ level ≤ .max then
        some { s with
          mask := level
          stack := ⟨.isr level s.mask, isrDisable level ++ .body :: isrReturn level⟩ :: s.stack }
      else none
  | .deliver =>
      if s.preempted then
        some { s with
          kernel := { s.kernel with critPending := false }
          mask := .crit
          stack := ⟨.isr .crit s.mask,
            isrDisable .crit ++ .critInterrupt :: isrReturn .crit⟩ :: s.stack }
      else none
  | .exec =>
      match s.stack with
      | ⟨kind, i :: rest⟩ :: below => if s.preempted then none else s.execute kind rest below i
      | _ => none
  | .body op =>
      match s.stack with
      | ⟨kind, .body :: rest⟩ :: below => if s.preempted then none else s.perform kind rest below op
      | _ => none

end Processor

end KernelPanic
