/-!
# KernelPanic.Kernel.Handler

The life cycle of a `HANDLER_OBJECT` (`kernel/handler.c`).  Every transition
is guarded by an `ASSERT`; each function here returns the new state together
with whether its assertion held.
-/

namespace KernelPanic

/-- `enum HANDLER_STATE`. -/
inductive HandlerState where
  | ready
  | queued
  | running
deriving DecidableEq

/-- `HandlerRegister`. -/
def handlerRegister (s : HandlerState) : HandlerState × Bool :=
  (.queued, s = .ready || s = .running)

/-- `HandlerRun`. -/
def handlerRun (s : HandlerState) : HandlerState × Bool := (.running, s = .queued)

/-- `HandlerFinish`, up to its completion function. -/
def handlerFinish (s : HandlerState) : HandlerState × Bool := (.ready, s = .running)

/-- `HandlerIsFinished`. -/
def handlerIsFinished (s : HandlerState) : Bool := s = .ready

end KernelPanic
