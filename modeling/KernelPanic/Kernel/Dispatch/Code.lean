import KernelPanic.Kernel.Dispatch
import Mathlib.Data.List.Basic

/-!
# KernelPanic.Kernel.Dispatch.Code

Which code the frames of a stack can have.  A frame is the code that remains of
the functions it is in, so every instruction is followed by the rest of its
function (`Placed`), in every state of every run.

`step_cases` says all that can happen in a step, and `Performed` all that code of
no particular function can do; what follows is proved from these.
-/

namespace KernelPanic

open Processor

/-! ## where an instruction stands -/

/-- The code that remains for a stack. -/
def program (stack : List Frame) : List Instr := stack.flatMap Frame.code

@[simp] theorem program_nil : program [] = [] := rfl

@[simp] theorem program_cons (f : Frame) (below : List Frame) :
    program (f :: below) = f.code ++ program below := rfl

/-- How many more times the code decrements a count than it increments it. -/
def held : List Instr → IrqLevel → ℕ
  | [], _ => 0
  | .decrement l :: rest, m => raised (held rest) l m
  | .increment l :: rest, m => if m = l then held rest m - 1 else held rest m
  | _ :: rest, m => held rest m

/-- An instruction that ends what an earlier one has begun. -/
def Instr.closes : Instr → Bool
  | .body => true
  | .decrement _ => true
  | .unmask _ => true
  | .critInterrupt => true
  | .sigreturn => true
  | _ => false

/-- The code does not begin in the middle of `IsrDisable` or `IsrEnable`. -/
def starts : List Instr → Bool
  | .increment _ :: _ => false
  | .unmask _ :: _ => false
  | _ => true

/-- The instruction is one of `SchedulerNeedsSwitch`, with the mutex, up to
`AtomicListPush`. -/
def Instr.registers : Instr → Bool
  | .handlerInit => true
  | .handlerCompetion => true
  | .handlerRegister => true
  | .push .scheduler => true
  | _ => false

/-- The code does not begin with a call of `SchedulerNeedsSwitch` or inside it. -/
def settled : List Instr → Bool
  | [] => true
  | i :: _ => i ≠ .mutexLock && !i.registers

/-- The frame is one of `CritInterrupt`. -/
def FrameKind.isCrit : FrameKind → Bool
  | .isr .crit _ => true
  | _ => false

/-- `CritInterrupt` from its loop on. -/
def critInterruptRest : List Instr := .critInterrupt :: isrReturn .crit

/-- What comes after `HandlerFinish`: the loop goes on, or a new thread
starts. -/
def Resumes (kind : FrameKind) (rest : List Instr) : Prop :=
  kind.isCrit ∧ rest = critInterruptRest ∨
    kind = .thread ∧ rest = isrEnable .crit ++ [.body]

/-- The instruction may stand before `rest` in a frame of this kind. -/
def Placed (kind : FrameKind) (rest : List Instr) : Instr → Prop
  | .body => rest.all Instr.closes ∧ starts rest ∧ (kind.isCrit ∨ .critInterrupt ∉ rest)
  | .mask l => l ≠ .none ∧ ∃ code, rest = .increment l :: code
  | .increment l => 0 < held rest l ∧ starts rest
  | .decrement l => l ≠ .none ∧ ∃ code, rest = .unmask l :: code
  | .unmask _ => starts rest ∧ settled rest
  | .mutexLock => ∃ code, rest = .body :: code
  | .handlerInit => ∃ code, rest = registerSwitch.tail ++ .body :: code
  | .handlerCompetion => ∃ code, rest = registerSwitch.tail.tail ++ .body :: code
  | .handlerRegister => ∃ code, rest = .push .scheduler :: .raise :: .body :: code
  | .push _ => ∃ code, rest = .raise :: .body :: code
  | .raise => ∃ code, rest = .body :: code
  | .critInterrupt => kind.isCrit ∧ rest = isrReturn .crit
  | .handlerRun => kind.isCrit ∧ rest = schedulerCritHandler.tail ++ critInterruptRest
  | .schedule => kind.isCrit ∧ rest = schedulerCritHandler.tail.tail ++ critInterruptRest
  | .schedulerSwitch => kind.isCrit ∧ rest = .handlerFinish :: critInterruptRest
  | .halContextSwitch _ _ =>
      kind.isCrit ∧ rest = isrEnable .max ++ .handlerFinish :: critInterruptRest
  | .handlerFinish => Resumes kind rest
  | .postCritHandler => Resumes kind rest
  | .sigreturn => rest = []

/-- Every instruction stands where it may. -/
def Sound (kind : FrameKind) : List Instr → Prop
  | [] => True
  | i :: rest => Placed kind rest i ∧ Sound kind rest

variable {s s' : Processor} {kind : FrameKind} {i : Instr} {rest code : List Instr}
  {below : List Frame}

/-- What holds of the other stacks, and of one that has never run. -/
theorem saved_of_new {P : List Frame → Prop} (hnew : P newStack)
    (h : ∀ t, t ≠ s.live → P (s.saved t)) (hlive : s'.live = s.live)
    (hsaved : ∀ t, s'.saved t = s.saved t ∨ s'.saved t = newStack) :
    ∀ t, t ≠ s'.live → P (s'.saved t) := by
  intro t ht
  obtain heq | heq := hsaved t
  · rw [heq]
    exact h t (hlive ▸ ht)
  · rw [heq]
    exact hnew

/-- The top frame goes on, and nothing is put before its code. -/
theorem stack_next (hs' : s'.stack = ⟨kind, rest⟩ :: below) :
    s'.stack = ⟨kind, [] ++ rest⟩ :: below :=
  hs'

/-- A handler other than the scheduler's is put before the loop. -/
theorem stack_other (hs' : s'.stack = ⟨kind, .body :: .critInterrupt :: rest⟩ :: below) :
    s'.stack = ⟨kind, [.body, .critInterrupt] ++ rest⟩ :: below :=
  hs'

/-- `HandlerFinish` goes on with `PostCritHandler`. -/
theorem stack_finish (hcomplete : s.completeFunction = true)
    (hs' : s'.stack =
      ⟨kind, if s.completeFunction then .postCritHandler :: rest else rest⟩ :: below) :
    s'.stack = ⟨kind, [.postCritHandler] ++ rest⟩ :: below := by
  rw [hs', if_pos hcomplete]
  rfl

/-- What is ahead of the top frame stays ahead, but for the instruction
executed. -/
theorem mem_program_top (hs : s.stack = ⟨kind, i :: rest⟩ :: below)
    (hs' : s'.stack = ⟨kind, code ++ rest⟩ :: below) {j : Instr} (hj : j ∈ program s.stack)
    (hne : j ≠ i) : j ∈ program s'.stack := by
  rw [hs, program_cons, List.cons_append, List.mem_cons] at hj
  rw [hs', program_cons, List.append_assoc, List.mem_append]
  exact .inr (hj.resolve_left hne)

/-! ## code of no particular function -/

/-- What the scheduler shares with interrupts has not changed. -/
structure SameSwitch (k k' : Kernel) : Prop where
  mutex : k'.schedulerMutex = k.schedulerMutex
  object : k'.schedulerCritObject = k.schedulerCritObject
  list : k'.critList = k.critList
  pending : k'.critPending = k.critPending
  active : k'.activeThread = k.activeThread
  next : k'.nextThread = k.nextThread

theorem SameSwitch.refl (k : Kernel) : SameSwitch k k := ⟨rfl, rfl, rfl, rfl, rfl, rfl⟩

theorem sameSwitch_createThread (k : Kernel) (t : ThreadId) (start : Bool) :
    SameSwitch k (k.createThread t start) := by
  cases start <;> exact ⟨rfl, rfl, rfl, rfl, rfl, rfl⟩

theorem sameSwitch_wakeOnLock (k : Kernel) (t : ThreadId) : SameSwitch k (k.wakeOnLock t) := by
  unfold Kernel.wakeOnLock
  split <;> exact ⟨rfl, rfl, rfl, rfl, rfl, rfl⟩

/-- What becomes of `Instr.body`, when `rest` is the code after it. -/
inductive BodyCode (mayAsk : Prop) (rest : List Instr) : List Instr → Prop where
  | leave : BodyCode mayAsk rest rest
  | stay : BodyCode mayAsk rest (.body :: rest)
  | disable (level : IrqLevel) : level ≠ .none →
      BodyCode mayAsk rest (isrDisable level ++ .body :: (isrEnable level ++ .body :: rest))
  | register (handler : ℕ) :
      BodyCode mayAsk rest (critInterruptRegisterHandler (.other handler) ++ .body :: rest)
  | ask : mayAsk → BodyCode mayAsk rest (.mutexLock :: .body :: rest)

/-- All that code of no particular function can do. -/
structure Performed (s : Processor) (kind : FrameKind) (rest : List Instr) (below : List Frame)
    (s' : Processor) : Prop where
  code : ∃ post, BodyCode (s.MayAsk kind) rest post ∧ s'.stack = ⟨kind, post⟩ :: below
  kernel : SameSwitch s.kernel s'.kernel
  completeFunction : s'.completeFunction = s.completeFunction
  count : s'.count = s.count
  mask : s'.mask = s.mask
  live : s'.live = s.live
  isrFine : s'.isrFailed = s.isrFailed
  fine : s'.handlerFailed = s.handlerFailed
  saved : ∀ t, s'.saved t = s.saved t ∨ t ≠ s.live ∧ s'.saved t = newStack
  stopped : s'.stopped = s.stopped ∨
    s.MayStop kind ∧ s'.stopped = Function.update s.stopped s.live true ∧
      s'.stack = ⟨kind, .mutexLock :: .body :: rest⟩ :: below

theorem Processor.MayStop.mayAsk (h : s.MayStop kind) : s.MayAsk kind := by
  obtain ⟨rfl, hatomic, -⟩ := h
  exact hatomic

theorem performed_of_eq (hs : s.stack = ⟨kind, .body :: rest⟩ :: below) {op : BodyOp}
    (h : s.perform kind rest below op = some s') : Performed s kind rest below s' := by
  cases op with
  | leave =>
      simp only [Processor.perform, Option.ite_none_right_eq_some, Option.some.injEq] at h
      obtain ⟨-, rfl⟩ := h
      exact ⟨⟨_, .leave, rfl⟩, .refl _, rfl, rfl, rfl, rfl, rfl, rfl, fun _ => .inl rfl, .inl rfl⟩
  | disable level =>
      simp only [Processor.perform, Option.ite_none_right_eq_some, Option.some.injEq] at h
      obtain ⟨hlevel, rfl⟩ := h
      exact ⟨⟨_, .disable level hlevel, rfl⟩, .refl _, rfl, rfl, rfl, rfl, rfl, rfl,
        fun _ => .inl rfl, .inl rfl⟩
  | register handler =>
      obtain rfl := Option.some.inj h
      exact ⟨⟨_, .register handler, rfl⟩, .refl _, rfl, rfl, rfl, rfl, rfl, rfl,
        fun _ => .inl rfl, .inl rfl⟩
  | schedulerNeedsSwitch =>
      simp only [Processor.perform, Option.ite_none_right_eq_some, Option.some.injEq] at h
      obtain ⟨hask, rfl⟩ := h
      exact ⟨⟨_, .ask hask, rfl⟩, .refl _, rfl, rfl, rfl, rfl, rfl, rfl, fun _ => .inl rfl, .inl rfl⟩
  | block =>
      simp only [Processor.perform, Option.ite_none_right_eq_some, Option.some.injEq] at h
      obtain ⟨⟨hstop, -⟩, rfl⟩ := h
      exact ⟨⟨_, .ask hstop.mayAsk, rfl⟩, ⟨rfl, rfl, rfl, rfl, rfl, rfl⟩, rfl, rfl, rfl, rfl, rfl, rfl,
        fun _ => .inl rfl, .inr ⟨hstop, rfl, rfl⟩⟩
  | exit =>
      simp only [Processor.perform, Option.ite_none_right_eq_some, Option.some.injEq] at h
      obtain ⟨hstop, rfl⟩ := h
      exact ⟨⟨_, .ask hstop.mayAsk, rfl⟩, ⟨rfl, rfl, rfl, rfl, rfl, rfl⟩, rfl, rfl, rfl, rfl, rfl, rfl,
        fun _ => .inl rfl, .inr ⟨hstop, rfl, rfl⟩⟩
  | createThread t start =>
      simp only [Processor.perform, Option.ite_none_right_eq_some, Option.some.injEq] at h
      obtain ⟨⟨-, -, -, hlive, -⟩, rfl⟩ := h
      refine ⟨⟨_, .stay, hs⟩, sameSwitch_createThread .., rfl, rfl, rfl, rfl, rfl, rfl,
        fun u => ?_, .inl rfl⟩
      by_cases hu : u = t
      · subst hu
        exact .inr ⟨hlive, Function.update_self ..⟩
      · exact .inl (Function.update_of_ne hu ..)
  | wake t =>
      simp only [Processor.perform, Option.ite_none_right_eq_some, Option.some.injEq] at h
      obtain ⟨-, rfl⟩ := h
      exact ⟨⟨_, .stay, hs⟩, sameSwitch_wakeOnLock .., rfl, rfl, rfl, rfl, rfl, rfl,
        fun _ => .inl rfl, .inl rfl⟩
  | resume t =>
      simp only [Processor.perform, Option.ite_none_right_eq_some, Option.some.injEq] at h
      obtain ⟨-, rfl⟩ := h
      exact ⟨⟨_, .stay, hs⟩, ⟨rfl, rfl, rfl, rfl, rfl, rfl⟩, rfl, rfl, rfl, rfl, rfl, rfl,
        fun _ => .inl rfl, .inl rfl⟩

/-- Whatever it does, its code stands where it may. -/
theorem Sound.bodyCode {mayAsk : Prop} (h : Sound kind (.body :: rest))
    (hcode : BodyCode mayAsk rest code) :
    Sound kind code := by
  cases hcode with
  | leave => exact h.2
  | stay => exact h
  | disable level hlevel =>
      obtain ⟨⟨hcloses, hstarts, hcrit⟩, hsound⟩ := h
      refine ⟨⟨hlevel, _, rfl⟩, ⟨?_, rfl⟩, ⟨?_, rfl, ?_⟩, ⟨hlevel, _, rfl⟩, ⟨rfl, rfl⟩,
        ⟨hcloses, hstarts, hcrit⟩, hsound⟩
      · simp [isrEnable, held, raised_self]
      · simpa [isrEnable, Instr.closes] using hcloses
      · simpa [isrEnable] using hcrit
  | register handler => exact ⟨⟨_, rfl⟩, ⟨_, rfl⟩, h⟩
  | ask _ => exact ⟨⟨_, rfl⟩, h⟩

/-! ## one step -/

/-- All that can happen. -/
theorem Processor.step_cases {e : Event} (h : s.step e = some s') :
    (∃ level, e = .interrupt level ∧ (s.mask < level ∧ .crit < level ∧ level ≤ .max) ∧
      s' = { s with
        mask := level
        stack := ⟨.isr level s.mask, isrDisable level ++ .body :: isrReturn level⟩ :: s.stack }) ∨
    (e = .deliver ∧ s.preempted ∧
      s' = { s with
        kernel := { s.kernel with critPending := false }
        mask := .crit
        stack := ⟨.isr .crit s.mask, isrDisable .crit ++ critInterruptRest⟩ :: s.stack }) ∨
    (∃ kind i rest below, e = .exec ∧ s.stack = ⟨kind, i :: rest⟩ :: below ∧ s.preempted = false ∧
      s.execute kind rest below i = some s') ∨
    (∃ op kind rest below, e = .body op ∧ s.stack = ⟨kind, .body :: rest⟩ :: below ∧
      s.preempted = false ∧ Performed s kind rest below s') := by
  cases e with
  | interrupt level =>
      simp only [Processor.step, Option.ite_none_right_eq_some] at h
      exact .inl ⟨level, rfl, h.1, (Option.some.inj h.2).symm⟩
  | deliver =>
      simp only [Processor.step, Option.ite_none_right_eq_some] at h
      exact .inr (.inl ⟨rfl, h.1, (Option.some.inj h.2).symm⟩)
  | exec =>
      simp only [Processor.step] at h
      split at h
      · next kind i rest below hs =>
        simp only [Option.ite_none_left_eq_some, Bool.not_eq_true] at h
        exact .inr (.inr (.inl ⟨kind, i, rest, below, rfl, hs, h.1, h.2⟩))
      · cases h
  | body op =>
      simp only [Processor.step] at h
      split at h
      · next kind rest below hs =>
        simp only [Option.ite_none_left_eq_some, Bool.not_eq_true] at h
        exact .inr (.inr (.inr ⟨op, kind, rest, below, rfl, hs, h.1, performed_of_eq hs h.2⟩))
      · cases h

end KernelPanic
