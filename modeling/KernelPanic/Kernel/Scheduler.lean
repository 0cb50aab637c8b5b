import KernelPanic.Kernel.Handler
import KernelPanic.Kernel.Locking
import KernelPanic.Utils.LinkedList

/-!
# KernelPanic.Kernel.Scheduler

The thread scheduler (`kernel/scheduler.c`) and the crit interrupt it runs
under (`kernel/critinterrupt.c`).

A thread that blocks is only *marked* blocked: it goes on running until the
crit interrupt, held back by its critical section, runs
`SchedulerCritHandler`, which calls `Schedule` and `SchedulerSwitch`.  Other
crit handlers may be pushed on the same list at any moment by the timer, soft
and serial interrupts, and `AtomicListPop` yields the newest first, so they
may run before the switch.

`Kernel` is the state, `Step` names everything that can happen next, and
`step` is the source's code for it.  A step that the source makes in a
critical section is one step here: an interrupt that arrives inside it can
only push a crit handler, which is the same as pushing it just before or just
after.
-/

namespace KernelPanic

/-! ## state -/

/-- A `struct THREAD`. -/
abbrev ThreadId := Nat

/-- `IdleThread`. -/
def idleThread : ThreadId := 0

/-- What is on `CritInterruptHandlerList`: `SchedulerCritObject`, or some
other `HANDLER_OBJECT`. -/
inductive CritHandler where
  | scheduler
  | other (h : Nat)
deriving DecidableEq

/-- Where the active thread's stack is. -/
inductive Cpu where
  /-- Thread-level code, with `IsrDisabledCount[IRQ_LEVEL_CRIT]` at `depth`. -/
  | thread (depth : Nat)
  /-- The loop of `CritInterrupt`, before `AtomicListPop`. -/
  | critInterrupt
  /-- The function of a crit handler other than `SchedulerCritHandler`. -/
  | handler (h : Nat)
  /-- `SchedulerCritHandler`, after `SchedulerSwitch` has returned here. -/
  | switched
  /-- `SchedulerThreadStartup` of a thread that has never run. -/
  | startup
deriving DecidableEq

/-- The scheduler's variables, the crit handler list and the processor. -/
structure Kernel where
  /-- `State` of each thread, `none` while its `struct THREAD` is unused. -/
  thread : ThreadId → Option ThreadState
  /-- `LockingContext.State` of each thread. -/
  context : ThreadId → LockingState
  links : Links ThreadId
  runQueue : Option ThreadId
  activeThread : ThreadId
  nextThread : Option ThreadId
  schedulerMutex : Bool
  schedulerCritObject : HandlerState
  critList : List CritHandler
  critPending : Bool
  runningThreads : Nat
  cpu : Cpu
  /-- Where a thread that is not active will resume. -/
  saved : ThreadId → Cpu
  panicked : Bool

namespace Kernel

/-- `ASSERT(b)`. -/
def assert (k : Kernel) (b : Bool) : Kernel := { k with panicked := k.panicked || !b }

def setThread (k : Kernel) (t : ThreadId) (s : ThreadState) : Kernel :=
  { k with thread := Function.update k.thread t (some s) }

def setContext (k : Kernel) (t : ThreadId) (s : LockingState) : Kernel :=
  { k with context := Function.update k.context t s }

/-- `LinkedListEnqueue(&t->Link.LinkedListLink, &RunQueue)`. -/
def enqueue (k : Kernel) (t : ThreadId) : Kernel :=
  let r := linkedListEnqueue k.links t k.runQueue
  { k with links := r.1, runQueue := r.2 }

/-- `CritInterruptRegisterHandler`, after the handler's own bookkeeping. -/
def critInterruptPush (k : Kernel) (h : CritHandler) : Kernel :=
  { k with critList := h :: k.critList, critPending := true }

/-- `SchedulerNeedsSwitch`. -/
def schedulerNeedsSwitch (k : Kernel) : Kernel :=
  if k.schedulerMutex then k
  else
    let r := handlerRegister .ready
    let k := { k with schedulerMutex := true, schedulerCritObject := r.1 }
    (k.assert r.2).critInterruptPush .scheduler

/-- `SchedulerResumeThread`. -/
def resumeThread (k : Kernel) (t : ThreadId) : Kernel :=
  ((k.assert (k.thread t = some .blocked)).setThread t .running).enqueue t

/-- `LockingAcquire` of a thread's context, hence `SchedulerWakeOnLock`. -/
def wakeOnLock (k : Kernel) (t : ThreadId) : Kernel :=
  match k.context t with
  | .ready => k
  | .blocking => (k.setContext t .ready).resumeThread t
  | .acquired => k.assert false

/-- `LockingBlock` of the active thread's context, hence
`SchedulerBlockThread`. -/
def blockOnLock (k : Kernel) : Kernel :=
  ((k.setThread k.activeThread .blocked).schedulerNeedsSwitch).setContext k.activeThread .blocking

/-- `SchedulerCreateThread`, as far as scheduling is concerned. -/
def createThread (k : Kernel) (t : ThreadId) (start : Bool) : Kernel :=
  let k := { k with
    runningThreads := k.runningThreads + 1
    context := Function.update k.context t .ready
    saved := Function.update k.saved t .startup }
  if start then (k.setThread t .running).enqueue t else k.setThread t .blocked

/-- The end of `SchedulerThreadStartup`: the thread is done. -/
def exitThread (k : Kernel) : Kernel :=
  { k.setThread k.activeThread .done with runningThreads := k.runningThreads - 1 }

/-- `Schedule`. -/
def schedule (k : Kernel) : Kernel :=
  let k :=
    if k.activeThread ≠ idleThread ∧ k.thread k.activeThread = some .running then
      k.enqueue k.activeThread
    else k
  if linkedListIsEmpty k.runQueue then { k with nextThread := some idleThread }
  else
    let r := linkedListPop k.links k.runQueue
    { k with nextThread := r.1, links := r.2.1, runQueue := r.2.2 }

/-- `SchedulerSwitch`: the old thread resumes after it, in `switched`; the new
one where it was saved, which is here when it is the same thread. -/
def schedulerSwitch (k : Kernel) : Kernel :=
  let newThread := k.nextThread.getD idleThread
  { k with
    activeThread := newThread
    nextThread := none
    cpu := if newThread = k.activeThread then .switched else k.saved newThread
    saved := Function.update k.saved k.activeThread .switched }

/-- `SchedulerCritHandler`, popped off the list by `CritInterrupt`. -/
def schedulerCritHandler (k : Kernel) : Kernel :=
  let r := handlerRun k.schedulerCritObject
  (({ k with schedulerCritObject := r.1 }.assert r.2).schedule).schedulerSwitch

/-- `HandlerFinish(&SchedulerCritObject)` and its completion function
`PostCritHandler`. -/
def postCritHandler (k : Kernel) : Kernel :=
  let r := handlerFinish k.schedulerCritObject
  { (({ k with schedulerCritObject := r.1 }.assert r.2).assert k.schedulerMutex) with
    schedulerMutex := false }

/-- `SchedulerStartup`: the idle thread runs, inside the critical section the
kernel starts in. -/
def schedulerStartup : Kernel where
  thread := fun t => if t = idleThread then some .blocked else none
  context := fun _ => .ready
  links := ⟨id, id⟩
  runQueue := none
  activeThread := idleThread
  nextThread := none
  schedulerMutex := false
  schedulerCritObject := .ready
  critList := []
  critPending := false
  runningThreads := 1
  cpu := .thread 1
  saved := fun _ => .switched
  panicked := false

/-! ## steps -/

/-- What can happen next. -/
inductive Step where
  /-- A timer, soft or serial interrupt registers a crit handler. -/
  | register (h : Nat)
  /-- `SchedulerTimerHandler` finds the quantum used up. -/
  | quantum
  /-- The active thread enters a critical section. -/
  | startCritical
  /-- The active thread leaves one. -/
  | endCritical
  | createThread (t : ThreadId) (start : Bool)
  /-- The active thread finds a lock taken. -/
  | block
  /-- The active thread grants a lock to another thread. -/
  | wake (t : ThreadId)
  /-- The active thread starts a thread that was created stopped. -/
  | resume (t : ThreadId)
  /-- The active thread asks to be switched out. -/
  | forceSwitch
  /-- The active thread's main has returned. -/
  | exit
  /-- The crit interrupt is delivered. -/
  | deliver
  /-- `CritInterrupt` pops its list. -/
  | pop
  /-- The running crit handler grants a lock to a thread. -/
  | handlerWake (t : ThreadId)
  /-- The running crit handler returns. -/
  | handlerReturn
  /-- The switch is complete: `SchedulerCritObject` is finished. -/
  | finish
deriving DecidableEq

/-- `depth` when the active thread is in a critical section. -/
def critical (k : Kernel) : Bool :=
  match k.cpu with
  | .thread (_ + 1) => true
  | _ => false

/-- One step; `none` when it cannot happen in this state. -/
def step (k : Kernel) : Step → Option Kernel
  | .register h => some (k.critInterruptPush (.other h))
  | .quantum => some k.schedulerNeedsSwitch
  | .startCritical =>
      match k.cpu with
      | .thread 0 => if k.critPending then none else some { k with cpu := .thread 1 }
      | .thread (d + 1) => some { k with cpu := .thread (d + 2) }
      | _ => none
  | .endCritical =>
      match k.cpu with
      | .thread (d + 1) => some { k with cpu := .thread d }
      | _ => none
  | .createThread t start =>
      if k.critical ∧ t ≠ idleThread ∧ t ≠ k.activeThread ∧
          (k.thread t = none ∨ k.thread t = some .done) then
        some (k.createThread t start)
      else none
  | .block =>
      if k.critical ∧ k.activeThread ≠ idleThread ∧ k.thread k.activeThread = some .running ∧
          k.context k.activeThread = .ready then
        some k.blockOnLock
      else none
  | .wake t =>
      if k.critical ∧ t ≠ k.activeThread then some (k.wakeOnLock t) else none
  | .resume t =>
      if k.critical ∧ t ≠ idleThread ∧ t ≠ k.activeThread ∧ k.thread t = some .blocked ∧
          k.context t = .ready then
        some (k.resumeThread t)
      else none
  | .forceSwitch => if k.critical then some k.schedulerNeedsSwitch else none
  | .exit =>
      if k.critical ∧ k.activeThread ≠ idleThread ∧ k.thread k.activeThread = some .running then
        some k.exitThread
      else none
  | .deliver =>
      if k.cpu = .thread 0 ∧ k.critPending then
        some { k with cpu := .critInterrupt, critPending := false }
      else none
  | .pop =>
      if k.cpu = .critInterrupt then
        match k.critList with
        | [] => some { k with cpu := .thread 0 }
        | .other h :: hs => some { k with critList := hs, cpu := .handler h }
        | .scheduler :: hs => some { k with critList := hs }.schedulerCritHandler
      else none
  | .handlerWake t =>
      match k.cpu with
      | .handler _ => some (k.wakeOnLock t)
      | _ => none
  | .handlerReturn =>
      match k.cpu with
      | .handler _ => some { k with cpu := .critInterrupt }
      | _ => none
  | .finish =>
      match k.cpu with
      | .switched => some { k.postCritHandler with cpu := .critInterrupt }
      | .startup => some { k.postCritHandler with cpu := .thread 0 }
      | _ => none

end Kernel

end KernelPanic
