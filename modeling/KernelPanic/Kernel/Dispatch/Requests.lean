import KernelPanic.Kernel.Dispatch.Code
import Mathlib.Data.List.Basic

/-!
# KernelPanic.Kernel.Dispatch.Requests

Who has `SchedulerMutex`.  It is taken in `SchedulerNeedsSwitch` and given back
by `PostCritHandler`, mostly on another stack: the thread that is switched in
finishes the request that switched it in.

A request is on its way in one of three places, and the instructions that are
still to be executed show which.  It is being registered while the push of
`SchedulerCritObject` is ahead, it is queued while the object is on
`CritInterruptHandlerList`, and it runs while `HandlerFinish` or
`PostCritHandler` is ahead.  `RequestInv.account` counts them against the mutex,
over the live stack; every other stack has one request of its own to finish.
-/

namespace KernelPanic

open Processor

/-! ## what an instruction has to do with a request -/

/-- As long as the instruction is ahead, a request has the mutex. -/
def Instr.owns : Instr → Bool
  | .push .scheduler => true
  | .handlerFinish => true
  | .postCritHandler => true
  | _ => false

/-- The stage of a request, by its next instruction. -/
inductive Stage where
  | init
  | competion
  | register
  | push
  | run
  | finish
  | unlock
deriving DecidableEq

def Instr.stage : Instr → Option Stage
  | .handlerInit => some .init
  | .handlerCompetion => some .competion
  | .handlerRegister => some .register
  | .push .scheduler => some .push
  | .handlerRun => some .run
  | .handlerFinish => some .finish
  | .postCritHandler => some .unlock
  | _ => none

/-- `State` and `CompleteFunction` of `SchedulerCritObject` at each stage. -/
def Stage.Matches (state : HandlerState) (completeFunction : Bool) : Stage → Prop
  | .init => state = .ready
  | .competion => state = .ready ∧ completeFunction = false
  | .register => state = .ready ∧ completeFunction = true
  | .push => state = .queued ∧ completeFunction = true
  | .run => state = .queued ∧ completeFunction = true
  | .finish => state = .running ∧ completeFunction = true
  | .unlock => state = .ready ∧ completeFunction = true

def Instr.isSwitch : Instr → Bool
  | .halContextSwitch _ _ => true
  | _ => false

/-- The instruction is no part of a request. -/
def Instr.quiet (i : Instr) : Bool := !i.owns && i.stage.isNone && !i.isSwitch

/-- The stage of the request the code contains. -/
def stageOf (code : List Instr) : Option Stage := code.findSome? Instr.stage

section code

variable {i : Instr} {code pre : List Instr}

@[simp] theorem stageOf_nil : stageOf [] = none := rfl

@[simp] theorem stageOf_cons : stageOf (i :: code) = i.stage.or (stageOf code) := by
  rw [stageOf, List.findSome?_cons]
  cases i.stage <;> rfl

theorem quiet_iff : i.quiet = true ↔ i.owns = false ∧ i.stage = none ∧ i.isSwitch = false := by
  simp [Instr.quiet, and_assoc]

theorem owns_quiet (hpre : pre.all Instr.quiet) :
    (pre ++ code).countP Instr.owns = code.countP Instr.owns := by
  rw [List.countP_append, Nat.add_eq_right, List.countP_eq_zero]
  intro i hi
  rw [(quiet_iff.mp (List.all_eq_true.mp hpre i hi)).1]
  exact Bool.false_ne_true

theorem stage_quiet (hpre : pre.all Instr.quiet) : stageOf (pre ++ code) = stageOf code := by
  have hnone : pre.findSome? Instr.stage = none := by
    rw [List.findSome?_eq_none_iff]
    exact fun i hi => (quiet_iff.mp (List.all_eq_true.mp hpre i hi)).2.1
  rw [stageOf, List.findSome?_append, hnone, Option.none_or, stageOf]

theorem mem_append_of_switch (hpre : ∀ j ∈ pre, j.isSwitch = false) (hi : i.isSwitch = true) :
    i ∈ pre ++ code ↔ i ∈ code := by
  rw [List.mem_append, or_iff_right_iff_imp]
  intro hmem
  rw [hpre i hmem] at hi
  cases hi

theorem switch_quiet (hpre : pre.all Instr.quiet) (hi : i.isSwitch = true) :
    i ∈ pre ++ code ↔ i ∈ code :=
  mem_append_of_switch (fun j hj => (quiet_iff.mp (List.all_eq_true.mp hpre j hj)).2.2) hi

/-- A switch is followed by the end of its request. -/
theorem Sound.owns_of_switch {kind : FrameKind} (h : Sound kind code) (hi : i ∈ code)
    (hswitch : i.isSwitch = true) : 0 < code.countP Instr.owns := by
  induction code with
  | nil => cases hi
  | cons j rest ih =>
      obtain rfl | hi := List.mem_cons.mp hi
      · cases i <;> simp only [Instr.isSwitch, Bool.false_eq_true] at hswitch
        obtain ⟨⟨-, rfl⟩, -⟩ := h
        exact List.countP_pos_iff.mpr ⟨.handlerFinish, by simp, rfl⟩
      · have hpos := ih h.2 hi
        rw [List.countP_cons]
        omega

/-- Every stage of a request is followed by its end. -/
theorem Sound.owns_of_stage {kind : FrameKind} (h : Sound kind code) (hi : i ∈ code)
    (hstage : i.stage ≠ none) : 0 < code.countP Instr.owns := by
  induction code with
  | nil => cases hi
  | cons j rest ih =>
      obtain rfl | hi := List.mem_cons.mp hi
      · cases i with
        | handlerInit | handlerCompetion | handlerRegister =>
            obtain ⟨⟨code, rfl⟩, -⟩ := h
            apply List.countP_pos_iff.mpr ⟨.push .scheduler, _, rfl⟩
            simp [registerSwitch, critInterruptRegisterHandler]
        | handlerRun =>
            obtain ⟨⟨-, rfl⟩, -⟩ := h
            exact List.countP_pos_iff.mpr ⟨.handlerFinish, by simp [schedulerCritHandler], rfl⟩
        | handlerFinish => simp [List.countP_cons, Instr.owns]
        | postCritHandler => simp [List.countP_cons, Instr.owns]
        | push handler =>
            cases handler with
            | scheduler => simp [List.countP_cons, Instr.owns]
            | other h => exact absurd rfl hstage
        | _ => exact absurd rfl hstage
      · have hpos := ih h.2 hi
        rw [List.countP_cons]
        omega

theorem countP_le_program {f : Frame} {stack : List Frame} (hf : f ∈ stack) :
    f.code.countP Instr.owns ≤ (program stack).countP Instr.owns := by
  rw [program, List.flatMap_def]
  exact (List.sublist_flatten_of_mem (List.mem_map_of_mem hf)).countP_le

theorem stageOf_eq_none {stack : List Frame} (hsound : ∀ f ∈ stack, Sound f.kind f.code)
    (hnone : (program stack).countP Instr.owns = 0) : stageOf (program stack) = none := by
  rw [stageOf, List.findSome?_eq_none_iff]
  intro i hi
  by_contra hstage
  obtain ⟨f, hf, hi⟩ := List.mem_flatMap.mp hi
  have hpos := (hsound f hf).owns_of_stage hi hstage
  have hle := countP_le_program hf
  omega

end code

/-! ## the accounts -/

/-- A stack that is not live is inside `HalContextSwitch`, or has never been:
it has one request to finish. -/
structure Parked (stack : List Frame) : Prop where
  sound : ∀ f ∈ stack, Sound f.kind f.code
  owns : (program stack).countP Instr.owns = 1
  stage : stageOf (program stack) = some .finish
  switch : ∀ i ∈ program stack, i.isSwitch = false

/-- `ActiveThread` runs ahead of the stack between `SchedulerSwitch` and
`HalContextSwitch`, and only there. -/
structure LiveInv (s : Processor) : Prop where
  switching : ∀ oldThread newThread, .halContextSwitch oldThread newThread ∈ program s.stack →
    oldThread = s.live ∧ newThread = s.kernel.activeThread ∧ newThread ≠ s.live
  active : (∀ i ∈ program s.stack, i.isSwitch = false) → s.kernel.activeThread = s.live

structure RequestInv (s : Processor) : Prop where
  sound : ∀ f ∈ s.stack, Sound f.kind f.code
  /-- The mutex is locked by a request of the live stack or by the queued one. -/
  account : (program s.stack).countP Instr.owns + s.kernel.critList.count .scheduler =
    s.kernel.schedulerMutex.toNat
  stage : ∀ st ∈ stageOf (program s.stack),
    st.Matches s.kernel.schedulerCritObject s.completeFunction
  queued : .scheduler ∈ s.kernel.critList →
    s.kernel.schedulerCritObject = .queued ∧ s.completeFunction = true
  free : s.kernel.schedulerMutex = false → s.kernel.schedulerCritObject = .ready
  live : LiveInv s
  parked : ∀ t, t ≠ s.live → Parked (s.saved t)
  fine : s.handlerFailed = false

theorem parked_newStack : Parked newStack where
  sound := by
    simp [newStack, schedulerThreadStartup, isrEnable, Sound, Placed, Resumes, starts, settled,
      Instr.registers, IrqLevel.max]
  owns := rfl
  stage := rfl
  switch := by decide

theorem requestInv_start : RequestInv kernelInit where
  sound := by
    simp [kernelInit, isrEnable, Sound, Placed, starts, settled, Instr.registers, IrqLevel.max,
      Instr.closes]
  account := rfl
  stage := by simp [kernelInit, isrEnable, Instr.stage]
  queued := by simp [kernelInit, Kernel.schedulerStartup]
  free _ := rfl
  live := ⟨by simp [kernelInit, isrEnable], fun _ => rfl⟩
  parked _ _ := parked_newStack
  fine := rfl

variable {s s' : Processor} {kind : FrameKind} {i : Instr} {rest code pre post : List Instr}
  {below : List Frame}

theorem LiveInv.congr (h : LiveInv s)
    (hmem : ∀ i : Instr, i.isSwitch = true → (i ∈ program s'.stack ↔ i ∈ program s.stack))
    (hactive : s'.kernel.activeThread = s.kernel.activeThread) (hlive : s'.live = s.live) :
    LiveInv s' where
  switching oldThread newThread hi := by
    rw [hactive, hlive]
    exact h.switching oldThread newThread ((hmem _ rfl).mp hi)
  active hnone := by
    rw [hactive, hlive]
    refine h.active fun i hi => ?_
    by_contra hswitch
    rw [Bool.not_eq_false] at hswitch
    rw [hnone i ((hmem i hswitch).mpr hi)] at hswitch
    cases hswitch

/-- Nothing has changed that a request depends on, but for the code. -/
structure SameRequest (s s' : Processor) : Prop where
  mutex : s'.kernel.schedulerMutex = s.kernel.schedulerMutex := by rfl
  object : s'.kernel.schedulerCritObject = s.kernel.schedulerCritObject := by rfl
  completeFunction : s'.completeFunction = s.completeFunction := by rfl
  list : s'.kernel.critList.count .scheduler = s.kernel.critList.count .scheduler := by rfl
  active : s'.kernel.activeThread = s.kernel.activeThread := by rfl
  live : s'.live = s.live := by rfl
  saved : ∀ t, s'.saved t = s.saved t ∨ s'.saved t = newStack := by exact fun _ => .inl rfl
  fine : s'.handlerFailed = s.handlerFailed := by rfl

/-- Code that is no part of a request. -/
theorem RequestInv.quiet (h : RequestInv s) (hsame : SameRequest s s')
    (hprogram : program s.stack = pre ++ code) (hprogram' : program s'.stack = post ++ code)
    (hpre : pre.all Instr.quiet) (hpost : post.all Instr.quiet)
    (hsound : ∀ f ∈ s'.stack, Sound f.kind f.code) : RequestInv s' where
  sound := hsound
  account := by
    have haccount := h.account
    rw [hprogram, owns_quiet hpre] at haccount
    rw [hprogram', owns_quiet hpost, hsame.list, hsame.mutex]
    exact haccount
  stage st hst := by
    rw [hsame.object, hsame.completeFunction]
    rw [hprogram', stage_quiet hpost, ← stage_quiet hpre, ← hprogram] at hst
    exact h.stage st hst
  queued hmem := by
    rw [hsame.object, hsame.completeFunction]
    rw [← List.count_pos_iff, hsame.list, List.count_pos_iff] at hmem
    exact h.queued hmem
  free hmutex := by
    rw [hsame.object]
    exact h.free (hsame.mutex ▸ hmutex)
  live := h.live.congr
    (fun i hi => by rw [hprogram, hprogram', switch_quiet hpre hi, switch_quiet hpost hi])
    hsame.active hsame.live
  parked := saved_of_new parked_newStack h.parked hsame.live hsame.saved
  fine := hsame.fine.trans h.fine

/-! ## one instruction -/

/-- The top frame, and those below. -/
theorem RequestInv.top (h : RequestInv s) (hs : s.stack = ⟨kind, i :: rest⟩ :: below) :
    Placed kind rest i ∧ Sound kind rest ∧ ∀ f ∈ below, Sound f.kind f.code := by
  have hsound := h.sound
  rw [hs, List.forall_mem_cons] at hsound
  exact ⟨hsound.1.1, hsound.1.2, hsound.2⟩

theorem RequestInv.program_top (hs : s.stack = ⟨kind, i :: rest⟩ :: below) :
    program s.stack = [i] ++ (rest ++ program below) := by
  rw [hs]
  rfl

/-- An instruction that is no part of a request and is replaced by such
instructions. -/
theorem RequestInv.exec_quiet (h : RequestInv s) (hs : s.stack = ⟨kind, i :: rest⟩ :: below)
    (hi : i.quiet = true) (hsame : SameRequest s s')
    (hs' : s'.stack = ⟨kind, post ++ rest⟩ :: below) (hpost : post.all Instr.quiet)
    (hsound : Sound kind (post ++ rest)) : RequestInv s' := by
  have hprogram' : program s'.stack = post ++ (rest ++ program below) := by
    rw [hs', program_cons, List.append_assoc]
  have hpre : [i].all Instr.quiet := by simpa using hi
  apply h.quiet hsame (RequestInv.program_top hs) hprogram' hpre hpost
  rw [hs', List.forall_mem_cons]
  exact ⟨hsound, (h.top hs).2.2⟩

/-- An instruction that is no part of a request. -/
theorem RequestInv.exec_next (h : RequestInv s) (hs : s.stack = ⟨kind, i :: rest⟩ :: below)
    (hi : i.quiet = true) (hsame : SameRequest s s') (hs' : s'.stack = ⟨kind, rest⟩ :: below) :
    RequestInv s' := by
  exact h.exec_quiet hs hi hsame (stack_next hs') rfl (h.top hs).2.1

/-- With a request of its own, the live stack has the mutex, and nothing is
queued. -/
theorem RequestInv.owner (h : RequestInv s) (howns : 0 < (program s.stack).countP Instr.owns) :
    s.kernel.schedulerMutex = true ∧ (program s.stack).countP Instr.owns = 1 ∧
      .scheduler ∉ s.kernel.critList := by
  have haccount := h.account
  cases hmutex : s.kernel.schedulerMutex <;> rw [hmutex] at haccount
  · simp only [Bool.toNat_false] at haccount
    omega
  · simp only [Bool.toNat_true] at haccount
    exact ⟨rfl, by omega, List.count_eq_zero.mp (by omega)⟩

/-- An instruction that is replaced by `code`, neither of them a switch. -/
theorem RequestInv.of_top (h : RequestInv s) (hs : s.stack = ⟨kind, i :: rest⟩ :: below)
    (hs' : s'.stack = ⟨kind, code ++ rest⟩ :: below) (hsound : Sound kind (code ++ rest))
    (hcode : ∀ j ∈ code, j.isSwitch = false) (hfine : s'.handlerFailed = false)
    (haccount : code.countP Instr.owns + (rest ++ program below).countP Instr.owns +
      s'.kernel.critList.count .scheduler = s'.kernel.schedulerMutex.toNat)
    (hstage : ∀ st ∈ stageOf (code ++ (rest ++ program below)),
      st.Matches s'.kernel.schedulerCritObject s'.completeFunction)
    (hqueued : .scheduler ∈ s'.kernel.critList →
      s'.kernel.schedulerCritObject = .queued ∧ s'.completeFunction = true)
    (hfree : s'.kernel.schedulerMutex = false → s'.kernel.schedulerCritObject = .ready)
    (hi : i.isSwitch = false := by rfl)
    (hactive : s'.kernel.activeThread = s.kernel.activeThread := by rfl)
    (hlive : s'.live = s.live := by rfl) (hsaved : s'.saved = s.saved := by rfl) :
    RequestInv s' := by
  have hprogram' : program s'.stack = code ++ (rest ++ program below) := by
    rw [hs', program_cons, List.append_assoc]
  have hpre : ∀ j ∈ [i], j.isSwitch = false := by simpa using hi
  constructor
  · rw [hs', List.forall_mem_cons]
    exact ⟨hsound, (h.top hs).2.2⟩
  · rw [hprogram', List.countP_append]
    exact haccount
  · rw [hprogram']
    exact hstage
  · exact hqueued
  · exact hfree
  · refine h.live.congr (fun j hj => ?_) hactive hlive
    rw [hprogram', RequestInv.program_top hs, mem_append_of_switch hcode hj,
      mem_append_of_switch hpre hj]
  · intro t ht
    rw [hsaved]
    exact h.parked t (hlive ▸ ht)
  · exact hfine

/-- What the live stack still owns, apart from its next instruction. -/
theorem RequestInv.account_top (h : RequestInv s) (hs : s.stack = ⟨kind, i :: rest⟩ :: below) :
    (if i.owns then 1 else 0) + (rest ++ program below).countP Instr.owns +
      s.kernel.critList.count .scheduler = s.kernel.schedulerMutex.toNat := by
  rw [← h.account, RequestInv.program_top hs, List.singleton_append, List.countP_cons]
  omega

theorem RequestInv.stage_top (h : RequestInv s) (hs : s.stack = ⟨kind, i :: rest⟩ :: below)
    {st : Stage} (hst : i.stage = some st) :
    st.Matches s.kernel.schedulerCritObject s.completeFunction := by
  apply h.stage st
  rw [hs, program_cons, List.cons_append, stageOf_cons, hst]
  rfl

/-- The rest of the live stack has no stage when it owns nothing. -/
theorem RequestInv.stage_rest (h : RequestInv s) (hs : s.stack = ⟨kind, i :: rest⟩ :: below)
    (hnone : (rest ++ program below).countP Instr.owns = 0) :
    stageOf (rest ++ program below) = none := by
  have hsound : ∀ f ∈ (⟨kind, rest⟩ : Frame) :: below, Sound f.kind f.code := by
    rw [List.forall_mem_cons]
    exact (h.top hs).2
  exact stageOf_eq_none hsound hnone

/-- An instruction of a request that the live stack has, before its last. -/
theorem RequestInv.exec_own (h : RequestInv s) (hs : s.stack = ⟨kind, i :: rest⟩ :: below)
    (hs' : s'.stack = ⟨kind, code ++ rest⟩ :: below) (hsound : Sound kind (code ++ rest))
    (hcode : ∀ j ∈ code, j.isSwitch = false) (howns : 0 < (i :: rest).countP Instr.owns)
    (hcount : code.countP Instr.owns = if i.owns then 1 else 0)
    (hstage : ∀ st ∈ stageOf (code ++ (rest ++ program below)),
      st.Matches s'.kernel.schedulerCritObject s'.completeFunction)
    (hfine : s'.handlerFailed = false) (hi : i.isSwitch = false := by rfl)
    (hmutex : s'.kernel.schedulerMutex = s.kernel.schedulerMutex := by rfl)
    (hlist : s'.kernel.critList = s.kernel.critList := by rfl)
    (hactive : s'.kernel.activeThread = s.kernel.activeThread := by rfl)
    (hlive : s'.live = s.live := by rfl) (hsaved : s'.saved = s.saved := by rfl) :
    RequestInv s' := by
  have hprogram : program s.stack = (i :: rest) ++ program below := by rw [hs]; rfl
  obtain ⟨hlocked, -, hnot⟩ := h.owner (by rw [hprogram, List.countP_append]; omega)
  apply h.of_top hs hs' hsound hcode hfine _ hstage _ _ hi hactive hlive hsaved
  · rw [hcount, hlist, hmutex]
    exact h.account_top hs
  · exact fun hmem => absurd (hlist ▸ hmem) hnot
  · intro hfree
    rw [hmutex, hlocked] at hfree
    cases hfree

/-- The same when it is not replaced. -/
theorem RequestInv.own_next (h : RequestInv s) (hs : s.stack = ⟨kind, i :: rest⟩ :: below)
    (hs' : s'.stack = ⟨kind, rest⟩ :: below) (hrest : 0 < rest.countP Instr.owns)
    (hstage : ∀ st ∈ stageOf (rest ++ program below),
      st.Matches s'.kernel.schedulerCritObject s'.completeFunction)
    (hfine : s'.handlerFailed = false) (hi : i.isSwitch = false := by rfl)
    (howns : i.owns = false := by rfl)
    (hmutex : s'.kernel.schedulerMutex = s.kernel.schedulerMutex := by rfl)
    (hlist : s'.kernel.critList = s.kernel.critList := by rfl)
    (hactive : s'.kernel.activeThread = s.kernel.activeThread := by rfl)
    (hlive : s'.live = s.live := by rfl) (hsaved : s'.saved = s.saved := by rfl) :
    RequestInv s' := by
  have hpos : 0 < (i :: rest).countP Instr.owns := by
    rw [List.countP_cons]
    omega
  have hcount : ([] : List Instr).countP Instr.owns = if i.owns then 1 else 0 := by
    rw [howns]
    rfl
  exact h.exec_own hs (stack_next hs') (h.top hs).2.1 (by simp) hpos hcount hstage hfine hi hmutex
    hlist hactive hlive hsaved

/-- **`MutexLock`**, when nobody has the mutex. -/
theorem RequestInv.mutexLock (h : RequestInv s) (hs : s.stack = ⟨kind, .mutexLock :: rest⟩ :: below)
    (hmutex : s.kernel.schedulerMutex = false) :
    RequestInv { s with
      kernel := { s.kernel with schedulerMutex := true }
      stack := ⟨kind, registerSwitch ++ rest⟩ :: below } := by
  obtain ⟨⟨code, rfl⟩, hsound, -⟩ := h.top hs
  have haccount := h.account_top hs
  rw [hmutex, Bool.toNat_false] at haccount
  have hsound' : Sound kind (registerSwitch ++ .body :: code) := by
    simpa [Sound, Placed, registerSwitch, critInterruptRegisterHandler] using hsound
  refine h.of_top hs rfl hsound' (by decide) h.fine ?_ ?_ ?_ ?_
  · have hone : registerSwitch.countP Instr.owns = 1 := rfl
    simp only [Bool.toNat_true]
    omega
  · intro st hst
    simp only [registerSwitch, List.cons_append, stageOf_cons, Instr.stage, Option.some_or,
      Option.mem_some_iff] at hst
    subst hst
    exact h.free hmutex
  · intro hmem
    have hpos := List.count_pos_iff.mpr hmem
    simp only at hpos
    omega
  · intro hfree
    cases hfree

/-- **`AtomicListPush`** of `SchedulerCritObject`. -/
theorem RequestInv.push (h : RequestInv s)
    (hs : s.stack = ⟨kind, .push .scheduler :: rest⟩ :: below) :
    RequestInv { s with
      kernel := { s.kernel with critList := .scheduler :: s.kernel.critList }
      stack := ⟨kind, rest⟩ :: below } := by
  have haccount := h.account_top hs
  have hprogram := RequestInv.program_top hs
  have hlocked := h.owner (by rw [hprogram]; simp [Instr.owns])
  rw [hlocked.1] at haccount
  simp only [Instr.owns, ↓reduceIte, Bool.toNat_true] at haccount
  have hstage := h.stage_top hs rfl
  refine h.of_top hs (stack_next rfl) (h.top hs).2.1 (by simp) h.fine ?_ ?_ ?_ ?_
  · simp only [List.countP_nil, List.count_cons_self, hlocked.1, Bool.toNat_true]
    omega
  · intro st hst
    rw [List.nil_append, h.stage_rest hs (by omega)] at hst
    cases hst
  · exact fun _ => hstage
  · intro hfree
    exact absurd hlocked.1 (by simpa using hfree)

/-- `AtomicListPop` yields `SchedulerCritObject`. -/
theorem RequestInv.pop (h : RequestInv s) {handlers : List CritHandler}
    (hs : s.stack = ⟨kind, .critInterrupt :: rest⟩ :: below)
    (hlist : s.kernel.critList = .scheduler :: handlers) :
    RequestInv { s with
      kernel := { s.kernel with critList := handlers }
      stack := ⟨kind, schedulerCritHandler ++ .critInterrupt :: rest⟩ :: below } := by
  obtain ⟨⟨hkind, rfl⟩, -, -⟩ := h.top hs
  have haccount := h.account_top hs
  rw [hlist, List.count_cons_self] at haccount
  have hle := Bool.toNat_le s.kernel.schedulerMutex
  have hsound' : Sound kind (schedulerCritHandler ++ [.critInterrupt] ++ isrReturn .crit) := by
    simp [Sound, Placed, Resumes, schedulerCritHandler, isrDisable, isrEnable, isrReturn, held,
      raised_self, starts, settled, Instr.registers, critInterruptRest, hkind]
  have hs' : ∀ s' : Processor,
      s'.stack = ⟨kind, schedulerCritHandler ++ .critInterrupt :: isrReturn .crit⟩ :: below →
      s'.stack = ⟨kind, schedulerCritHandler ++ [.critInterrupt] ++ isrReturn .crit⟩ :: below :=
    fun _ heq => heq.trans (by rw [List.append_assoc]; rfl)
  refine h.of_top hs (hs' _ rfl) hsound' (by decide) h.fine ?_ ?_ ?_ ?_
  · have hone : (schedulerCritHandler ++ [Instr.critInterrupt]).countP Instr.owns = 1 := rfl
    simp only
    omega
  · intro st hst
    simp only [schedulerCritHandler, List.cons_append, stageOf_cons, Instr.stage, Option.some_or,
      Option.mem_some_iff] at hst
    subst hst
    exact h.queued (hlist ▸ List.mem_cons_self)
  · intro hmem
    have hpos : 0 < handlers.count .scheduler := List.count_pos_iff.mpr hmem
    omega
  · intro hfree
    have hfree : s.kernel.schedulerMutex = false := hfree
    rw [hfree, Bool.toNat_false] at haccount
    omega

/-- **`PostCritHandler`** gives the mutex back. -/
theorem RequestInv.postCritHandler (h : RequestInv s)
    (hs : s.stack = ⟨kind, .postCritHandler :: rest⟩ :: below) :
    RequestInv { s.assert s.kernel.schedulerMutex with
      kernel := { s.kernel with schedulerMutex := false }
      stack := ⟨kind, rest⟩ :: below } := by
  have haccount := h.account_top hs
  have hlocked := h.owner (by rw [RequestInv.program_top hs]; simp [Instr.owns])
  rw [hlocked.1] at haccount
  simp only [Instr.owns, ↓reduceIte, Bool.toNat_true] at haccount
  refine h.of_top hs (stack_next rfl) (h.top hs).2.1 (by simp) ?_ ?_ ?_ ?_ ?_
  · simp [Processor.assert, h.fine, hlocked.1]
  · simp only [List.countP_nil, Bool.toNat_false]
    omega
  · intro st hst
    rw [List.nil_append, h.stage_rest hs (by omega)] at hst
    cases hst
  · exact fun hmem => absurd hmem hlocked.2.2
  · exact fun _ => (h.stage_top hs rfl).1

/-- While the live stack has a request in its top frame, there is no switch
below. -/
theorem RequestInv.no_switch_below (h : RequestInv s)
    (hs : s.stack = ⟨kind, i :: rest⟩ :: below) (howns : 0 < (i :: rest).countP Instr.owns) :
    (i :: rest).countP Instr.owns = 1 ∧ (program below).countP Instr.owns = 0 ∧
      ∀ j ∈ program below, j.isSwitch = false := by
  have hprogram : program s.stack = (i :: rest) ++ program below := by rw [hs]; rfl
  have hcount : ((i :: rest) ++ program below).countP Instr.owns =
      (i :: rest).countP Instr.owns + (program below).countP Instr.owns := List.countP_append
  have hone := (h.owner (by rw [hprogram]; omega)).2.1
  rw [hprogram] at hone
  refine ⟨by omega, by omega, fun j hj => ?_⟩
  by_contra hswitch
  rw [Bool.not_eq_false] at hswitch
  obtain ⟨f, hf, hmem⟩ := List.mem_flatMap.mp hj
  have hpos := ((h.top hs).2.2 f hf).owns_of_switch hmem hswitch
  have hle := countP_le_program hf
  omega

/-- `ActiveThread` is still the live one in `SchedulerSwitch`. -/
theorem RequestInv.active_at_switch (h : RequestInv s)
    (hs : s.stack = ⟨kind, .schedulerSwitch :: rest⟩ :: below) :
    s.kernel.activeThread = s.live ∧ ∀ j ∈ program below, j.isSwitch = false := by
  obtain ⟨⟨-, rfl⟩, -, -⟩ := h.top hs
  obtain ⟨-, -, hnone⟩ := h.no_switch_below hs (by decide)
  have htop : ∀ i ∈ Instr.schedulerSwitch :: .handlerFinish :: critInterruptRest,
      i.isSwitch = false := by decide
  refine ⟨h.live.active ?_, hnone⟩
  rw [hs, program_cons]
  intro i hi
  exact (List.mem_append.mp hi).elim (htop i) (hnone i)

/-- **`SchedulerSwitch`** to another thread. -/
theorem RequestInv.schedulerSwitch (h : RequestInv s)
    (hs : s.stack = ⟨kind, .schedulerSwitch :: rest⟩ :: below) (newThread : ThreadId)
    (hne : s.kernel.activeThread ≠ newThread) :
    RequestInv { s with
      kernel := { s.kernel with activeThread := newThread, nextThread := none }
      stack := ⟨kind, contextSwitch s.kernel.activeThread newThread ++ rest⟩ :: below } := by
  obtain ⟨hactive, hnone⟩ := h.active_at_switch hs
  obtain ⟨⟨hkind, rfl⟩, -, hbelow⟩ := h.top hs
  have hprogram : program s.stack =
      (.schedulerSwitch :: .handlerFinish :: critInterruptRest) ++ program below := by
    rw [hs]
    rfl
  have howns : 0 < (program s.stack).countP Instr.owns := by
    rw [hprogram, List.countP_append]
    exact Nat.add_pos_left (by decide) _
  obtain ⟨hlocked, -, hnot⟩ := h.owner howns
  have hmem : ∀ j : Instr, j.isSwitch = true →
      j ∈ contextSwitch s.kernel.activeThread newThread ++ .handlerFinish :: critInterruptRest ++
        program below → j = .halContextSwitch s.kernel.activeThread newThread := by
    intro j hj hmem
    obtain hmem | hmem := List.mem_append.mp hmem
    · simp only [contextSwitch, isrDisable, isrEnable, critInterruptRest, isrReturn,
        List.cons_append, List.nil_append, List.mem_cons, List.not_mem_nil, or_false] at hmem
      grind [Instr.isSwitch]
    · rw [hnone j hmem] at hj
      cases hj
  constructor
  · rw [List.forall_mem_cons]
    refine ⟨?_, hbelow⟩
    simp [Sound, Placed, Resumes, contextSwitch, isrDisable, isrEnable, isrReturn, held,
      raised_self, starts, settled, Instr.registers, critInterruptRest, hkind, IrqLevel.max]
  · have haccount := h.account
    have hone : (contextSwitch s.kernel.activeThread newThread ++
        .handlerFinish :: critInterruptRest).countP Instr.owns =
        (Instr.schedulerSwitch :: .handlerFinish :: critInterruptRest).countP Instr.owns := rfl
    rw [hprogram, List.countP_append] at haccount
    rw [program_cons, List.countP_append, hone]
    exact haccount
  · intro st hst
    have hfinish : stageOf (contextSwitch s.kernel.activeThread newThread ++
        .handlerFinish :: critInterruptRest ++ program below) = some .finish := rfl
    rw [program_cons, hfinish] at hst
    apply h.stage st
    rw [hprogram]
    exact hst
  · exact fun hmem => absurd hmem hnot
  · intro hfree
    exact absurd hlocked (by simpa using hfree)
  · constructor
    · intro oldThread newThread' hi
      obtain ⟨rfl, rfl⟩ := Instr.halContextSwitch.inj (hmem _ rfl hi)
      exact ⟨hactive, rfl, fun heq => hne (hactive.trans heq.symm)⟩
    · intro hno
      have hswitch := hno (.halContextSwitch s.kernel.activeThread newThread)
        (by simp [contextSwitch])
      cases hswitch
  · exact h.parked
  · exact h.fine

/-- **`HalContextSwitch`**: the old stack is parked with its request, the new one
brings its own. -/
theorem RequestInv.halContextSwitch (h : RequestInv s) {oldThread newThread : ThreadId}
    (hs : s.stack = ⟨kind, .halContextSwitch oldThread newThread :: rest⟩ :: below) :
    RequestInv { s with
      live := newThread
      stack := s.saved newThread
      saved := Function.update s.saved oldThread (⟨kind, rest⟩ :: below) } := by
  obtain ⟨⟨-, rfl⟩, hsound, hbelow⟩ := h.top hs
  have hone : (Instr.halContextSwitch oldThread newThread ::
      (isrEnable .max ++ .handlerFinish :: critInterruptRest)).countP Instr.owns = 1 := rfl
  obtain ⟨-, hzero, hnone⟩ := h.no_switch_below hs (by omega)
  have hprogram : program s.stack = (.halContextSwitch oldThread newThread ::
      (isrEnable .max ++ .handlerFinish :: critInterruptRest)) ++ program below := by
    rw [hs]
    rfl
  obtain ⟨hlocked, -, hnot⟩ := h.owner (by rw [hprogram, List.countP_append]; omega)
  obtain ⟨hold, hactive, hne⟩ := h.live.switching oldThread newThread (by rw [hprogram]; simp)
  have hstage : Stage.Matches s.kernel.schedulerCritObject s.completeFunction .finish := by
    apply h.stage
    rw [hprogram]
    rfl
  have hnew := h.parked newThread hne
  have hparked :
      Parked (⟨kind, isrEnable .max ++ .handlerFinish :: critInterruptRest⟩ :: below) := by
    constructor
    · rw [List.forall_mem_cons]
      exact ⟨hsound, hbelow⟩
    · rw [program_cons, List.countP_append, hzero]
      rfl
    · rfl
    · intro j hj
      obtain hj | hj := List.mem_append.mp hj
      · have hdec : ∀ j ∈ isrEnable .max ++ .handlerFinish :: critInterruptRest,
            j.isSwitch = false := by decide
        exact hdec j hj
      · exact hnone j hj
  constructor
  · exact hnew.sound
  · simp only [hnew.owns, hlocked, List.count_eq_zero.mpr hnot]
    rfl
  · intro st hst
    rw [hnew.stage, Option.mem_some_iff] at hst
    exact hst ▸ hstage
  · exact fun hmem => absurd hmem hnot
  · intro hfree
    exact absurd hlocked (by simpa using hfree)
  · constructor
    · intro a b hmem
      have hswitch := hnew.switch _ hmem
      cases hswitch
    · exact fun _ => hactive.symm
  · intro t ht
    by_cases htold : t = oldThread
    · subst htold
      simp only [Function.update_self]
      exact hparked
    · simp only [Function.update_of_ne htold]
      exact h.parked t (hold ▸ htold)
  · exact h.fine

/-- `Schedule` does not touch the handler list. -/
theorem schedule_critList (k : Kernel) : k.schedule.critList = k.critList ∧
    k.schedule.schedulerMutex = k.schedulerMutex ∧
    k.schedule.schedulerCritObject = k.schedulerCritObject ∧
    k.schedule.activeThread = k.activeThread ∧ k.schedule.critPending = k.critPending := by
  simp only [Kernel.schedule, Kernel.enqueue]
  split_ifs <;> exact ⟨rfl, rfl, rfl, rfl, rfl⟩

theorem RequestInv.execute (h : RequestInv s) (hs : s.stack = ⟨kind, i :: rest⟩ :: below)
    (hstep : s.execute kind rest below i = some s') : RequestInv s' := by
  obtain ⟨hplaced, hsound, hbelow⟩ := h.top hs
  cases i with
  | body => cases hstep
  | mask l | increment l | decrement l | unmask l =>
      obtain rfl := Option.some.inj hstep
      exact h.exec_next hs rfl {} rfl
  | mutexLock =>
      simp only [Processor.execute] at hstep
      split at hstep <;> obtain rfl := Option.some.inj hstep
      · exact h.exec_next hs rfl {} rfl
      · next hmutex => exact h.mutexLock hs (by simpa using hmutex)
  | handlerInit =>
      obtain rfl := Option.some.inj hstep
      obtain ⟨code, rfl⟩ := hplaced
      refine h.own_next hs rfl ?_ ?_ h.fine
      · simp [registerSwitch, critInterruptRegisterHandler, Instr.owns]
      · intro st hst
        obtain rfl : st = .competion := by
          simpa [registerSwitch, Instr.stage, eq_comm] using hst
        exact ⟨rfl, rfl⟩
  | handlerCompetion =>
      obtain rfl := Option.some.inj hstep
      obtain ⟨code, rfl⟩ := hplaced
      obtain ⟨hready, hcomplete⟩ := h.stage_top hs rfl
      refine h.own_next hs rfl ?_ ?_ ?_
      · simp [registerSwitch, critInterruptRegisterHandler, Instr.owns]
      · intro st hst
        obtain rfl : st = .register := by
          simpa [registerSwitch, Instr.stage, eq_comm] using hst
        exact ⟨hready, rfl⟩
      · simp [Processor.assert, h.fine, hready, hcomplete]
  | handlerRegister =>
      obtain rfl := Option.some.inj hstep
      obtain ⟨code, rfl⟩ := hplaced
      obtain ⟨hready, hcomplete⟩ := h.stage_top hs rfl
      refine h.own_next hs rfl ?_ ?_ ?_
      · simp [Instr.owns]
      · intro st hst
        obtain rfl : st = .push := by simpa [Instr.stage, eq_comm] using hst
        exact ⟨rfl, hcomplete⟩
      · simp [Processor.assert, h.fine, hready, KernelPanic.handlerRegister]
  | push handler =>
      obtain rfl := Option.some.inj hstep
      cases handler with
      | scheduler => exact h.push hs
      | other n =>
          exact h.exec_next hs rfl { list := List.count_cons_of_ne (by simp) } rfl
  | raise =>
      obtain rfl := Option.some.inj hstep
      exact h.exec_next hs rfl {} rfl
  | critInterrupt =>
      simp only [Processor.execute] at hstep
      split at hstep <;> obtain rfl := Option.some.inj hstep
      · exact h.exec_next hs rfl {} rfl
      · next n handlers hlist =>
        obtain ⟨hkind, rfl⟩ := hplaced
        have hcount : handlers.count .scheduler = s.kernel.critList.count .scheduler := by
          rw [hlist]
          exact (List.count_cons_of_ne (by simp)).symm
        apply h.exec_quiet hs rfl { list := hcount } (stack_other rfl) rfl
        simp [Sound, Placed, isrReturn, isrEnable, starts, settled, Instr.registers, Instr.closes,
          hkind]
      · next handlers hlist => exact h.pop hs hlist
  | handlerRun =>
      obtain rfl := Option.some.inj hstep
      obtain ⟨-, rfl⟩ := hplaced
      obtain ⟨hqueued, hcomplete⟩ := h.stage_top hs rfl
      refine h.own_next hs rfl (by decide) ?_ ?_
      · intro st hst
        obtain rfl : st = .finish := by
          simpa [schedulerCritHandler, isrDisable, isrEnable, Instr.stage, eq_comm] using hst
        exact ⟨rfl, hcomplete⟩
      · simp [Processor.assert, h.fine, hqueued, KernelPanic.handlerRun]
  | schedule =>
      obtain rfl := Option.some.inj hstep
      obtain ⟨hlist, hmutex, hobject, hactive, -⟩ := schedule_critList s.kernel
      have hcount : s.kernel.schedule.critList.count .scheduler =
          s.kernel.critList.count .scheduler := by
        rw [hlist]
      exact h.exec_next hs rfl ⟨hmutex, hobject, rfl, hcount, hactive, rfl, fun _ => .inl rfl, rfl⟩ rfl
  | schedulerSwitch =>
      obtain rfl := Option.some.inj hstep
      by_cases hsame : s.kernel.activeThread = s.kernel.nextThread.getD idleThread
      · simp only [if_pos hsame]
        exact h.exec_next hs rfl { active := hsame.symm } rfl
      · simp only [if_neg hsame]
        exact h.schedulerSwitch hs _ hsame
  | halContextSwitch oldThread newThread =>
      obtain rfl := Option.some.inj hstep
      exact h.halContextSwitch hs
  | handlerFinish =>
      obtain rfl := Option.some.inj hstep
      obtain ⟨hrunning, hcomplete⟩ := h.stage_top hs rfl
      refine h.exec_own hs (stack_finish hcomplete rfl) ⟨hplaced, hsound⟩ (by decide) ?_ rfl ?_ ?_
      · simp [Instr.owns]
      · intro st hst
        obtain rfl : st = .unlock := by simpa [Instr.stage, eq_comm] using hst
        exact ⟨rfl, hcomplete⟩
      · simp [Processor.assert, h.fine, hrunning, KernelPanic.handlerFinish]
  | postCritHandler =>
      obtain rfl := Option.some.inj hstep
      exact h.postCritHandler hs
  | sigreturn =>
      cases kind with
      | thread => cases hstep
      | isr level savedMask =>
          obtain rfl := Option.some.inj hstep
          obtain rfl : rest = [] := hplaced
          have hnone : ([] : List Instr).all Instr.quiet := rfl
          exact h.quiet {} (RequestInv.program_top hs) rfl rfl hnone hbelow

/-! ## one step -/

/-- Code of no particular function is no part of a request yet. -/
theorem BodyCode.quiet {mayAsk : Prop} (h : BodyCode mayAsk rest code) :
    ∃ post, code = post ++ rest ∧ post.all Instr.quiet := by
  cases h with
  | leave => exact ⟨[], rfl, rfl⟩
  | stay => exact ⟨[.body], rfl, rfl⟩
  | disable level _ =>
      exact ⟨isrDisable level ++ .body :: (isrEnable level ++ [.body]), by simp, rfl⟩
  | register handler =>
      exact ⟨critInterruptRegisterHandler (.other handler) ++ [.body], by simp, rfl⟩
  | ask _ => exact ⟨[.mutexLock, .body], rfl, rfl⟩

theorem RequestInv.perform (h : RequestInv s) (hs : s.stack = ⟨kind, .body :: rest⟩ :: below)
    (hstep : Performed s kind rest below s') : RequestInv s' := by
  obtain ⟨code, hcode, hs'⟩ := hstep.code
  obtain ⟨hplaced, hsound, -⟩ := h.top hs
  have hsound' : Sound kind code := Sound.bodyCode ⟨hplaced, hsound⟩ hcode
  obtain ⟨post, rfl, hpost⟩ := hcode.quiet
  refine h.exec_quiet hs rfl ?_ hs' hpost hsound'
  exact ⟨hstep.kernel.mutex, hstep.kernel.object, hstep.completeFunction, by rw [hstep.kernel.list],
    hstep.kernel.active, hstep.live, fun t => (hstep.saved t).imp_right And.right, hstep.fine⟩

/-- An interrupt puts a frame on the stack that is no part of a request. -/
theorem RequestInv.enter (h : RequestInv s) (hs' : s'.stack = ⟨kind, code⟩ :: s.stack)
    (hsame : SameRequest s s') (hcode : code.all Instr.quiet) (hsound : Sound kind code) :
    RequestInv s' := by
  have hnone : ([] : List Instr).all Instr.quiet := rfl
  have hprogram' : program s'.stack = code ++ program s.stack := by
    rw [hs']
    rfl
  apply h.quiet hsame rfl hprogram' hnone hcode
  rw [hs', List.forall_mem_cons]
  exact ⟨hsound, h.sound⟩

theorem RequestInv.step (h : RequestInv s) {e : Event} (hstep : s.step e = some s') :
    RequestInv s' := by
  obtain ⟨level, -, ⟨-, hlevel, -⟩, rfl⟩ | ⟨-, -, rfl⟩ | ⟨kind, i, rest, below, -, hs, -, hexec⟩ |
    ⟨op, kind, rest, below, -, hs, -, hperform⟩ := Processor.step_cases hstep
  · have hne : level ≠ .none := by
      rintro rfl
      exact absurd hlevel (by decide)
    refine h.enter rfl {} rfl ?_
    simp [Sound, Placed, isrDisable, isrReturn, isrEnable, held, raised_self, starts, settled,
      Instr.registers, Instr.closes, hne]
  · refine h.enter rfl {} rfl ?_
    simp [Sound, Placed, isrDisable, isrReturn, isrEnable, held, raised_self, starts, settled,
      Instr.registers, critInterruptRest, FrameKind.isCrit]
  · exact h.execute hs hexec
  · exact h.perform hs hperform

end KernelPanic
