import KernelPanic.Kernel.Scheduler.RunQueue
import Mathlib.Algebra.Ring.Nat

/-!
# KernelPanic.Kernel.Scheduler.Quantum

The scheduler and its clock.  `SchedulerTimerHandler` runs at every tick and asks for a
switch when the active thread has had its `Priority` in ticks; `SchedulerCritHandler`
notes when the next thread starts.  New threads join the queue at its end, so a thread
in the queue waits only for those before it, and for each of them no longer than its
quantum, where every switch is made before the timer is next handled
(`scheduler_bounded_wait`).
-/

namespace KernelPanic

open Run Kernel

/-- The kernel and the clock.  The clock does not wrap. -/
structure SchedulerRun where
  kernel : Kernel
  /-- `Priority` of each thread. -/
  priority : ThreadId → UInt8
  time : ℕ
  quantumStartTime : ℕ
  /-- When `SchedulerTimer` is due. -/
  timer : ℕ

/-- What can happen in the scheduler. -/
inductive SchedulerOp where
  /-- A step that neither creates a thread nor is the timer's. -/
  | kernel (e : Step)
  | createThread (t : ThreadId) (priority : UInt8) (start : Bool)
  /-- Time goes by. -/
  | pass (d : ℕ)
  /-- `SchedulerTimerHandler` runs. -/
  | timer
deriving DecidableEq

namespace SchedulerRun

instance (k : Kernel) (e : Step) : Decidable (Schedules k e) :=
  match e with
  | .pop => inferInstanceAs (Decidable (_ ∧ _))
  | .register _ | .quantum | .startCritical | .endCritical | .createThread _ _ | .block | .wake _
  | .resume _ | .forceSwitch | .exit | .deliver | .handlerWake _ | .handlerReturn | .finish =>
      inferInstanceAs (Decidable False)

/-- `SchedulerStartup`. -/
def start (time : ℕ) : SchedulerRun where
  kernel := schedulerStartup
  priority t := if t = idleThread then 1 else 0
  time := time
  quantumStartTime := time
  timer := time

/-- `SchedulerTimerHandler`. -/
def schedulerTimerHandler (s : SchedulerRun) : SchedulerRun :=
  let expired := (s.priority s.kernel.activeThread).toNat < s.time - s.quantumStartTime
  { s with
    kernel := if expired then s.kernel.schedulerNeedsSwitch else s.kernel
    timer := s.time + 1 }

/-- One event; `none` when it cannot happen. -/
def step (s : SchedulerRun) : SchedulerOp → Option SchedulerRun
  | .kernel .quantum | .kernel (.createThread _ _) => none
  | .kernel e =>
      (s.kernel.step e).map fun k =>
        { s with
          kernel := k
          quantumStartTime := if Schedules s.kernel e then s.time else s.quantumStartTime }
  | .createThread t priority start =>
      (s.kernel.step (.createThread t start)).map fun k =>
        { s with kernel := k, priority := Function.update s.priority t priority }
  | .pass d => some { s with time := s.time + d }
  | .timer => if s.timer ≤ s.time then some s.schedulerTimerHandler else none

/-- The active thread is not linked beside another one when threads are switched. -/
def Alone (s : SchedulerRun) : SchedulerOp → Prop
  | .kernel e => Schedules s.kernel e → ActiveAlone s.kernel
  | _ => True

/-- No switch is outstanding when the timer is handled: `SchedulerMutex` is free, whoever
asked for the last switch, the timer, a thread that blocks or one that forces a switch. -/
def Prompt (s : SchedulerRun) (op : SchedulerOp) : Prop :=
  op = .timer → s.kernel.schedulerMutex = false

/-- The ticks a thread may keep the processor. -/
def quantum (s : SchedulerRun) (t : ThreadId) : ℕ := (s.priority t).toNat + 2

end SchedulerRun

/-! ## the switch protocol -/

namespace Kernel

variable {k k' : Kernel} {q : List ThreadId} {t u : ThreadId} {e : Step}

/-- `SchedulerCritObject` is on the list, or being finished, exactly while
`SchedulerMutex` is held. -/
def OneSwitch (k : Kernel) : Prop :=
  k.critList.count .scheduler + k.cpu.switching.toNat = k.schedulerMutex.toNat

/-- What a step without a switch does to the request for one. -/
inductive Protocol (k k' : Kernel) : Prop where
  | keeps (list : k'.critList.count .scheduler = k.critList.count .scheduler)
      (mutex : k'.schedulerMutex = k.schedulerMutex) (cpu : k'.cpu.switching = k.cpu.switching)
  | asks (list : k'.critList.count .scheduler = k.critList.count .scheduler + 1)
      (free : k.schedulerMutex = false) (mutex : k'.schedulerMutex = true)
      (cpu : k'.cpu.switching = k.cpu.switching)
  | finishes (list : k'.critList.count .scheduler = k.critList.count .scheduler)
      (mutex : k'.schedulerMutex = false) (before : k.cpu.switching = true)
      (cpu : k'.cpu.switching = false)

/-- A switch is asked for. -/
theorem protocol_schedulerNeedsSwitch : Protocol k k.schedulerNeedsSwitch := by
  unfold Kernel.schedulerNeedsSwitch
  split
  · exact .keeps rfl rfl rfl
  · next hfree =>
      refine .asks ?_ (Bool.eq_false_iff.mpr hfree) rfl rfl
      simp [critInterruptPush, Kernel.assert]

/-- A thread is woken. -/
theorem protocol_wakeOnLock : Protocol k (k.wakeOnLock t) := by
  unfold Kernel.wakeOnLock
  split <;> exact .keeps rfl rfl rfl

/-- A thread blocks, and asks for a switch. -/
theorem protocol_blockOnLock : Protocol k k.blockOnLock := by
  have h := protocol_schedulerNeedsSwitch (k := k.setThread k.activeThread .blocked)
  cases h with
  | keeps list mutex cpu => exact .keeps list mutex cpu
  | asks list free mutex cpu => exact .asks list free mutex cpu
  | finishes list mutex before cpu => exact .finishes list mutex before cpu

/-- A thread is created. -/
theorem protocol_createThread {start : Bool} : Protocol k (k.createThread t start) := by
  unfold Kernel.createThread
  split <;> exact .keeps rfl rfl rfl

/-- A step that makes no switch. -/
theorem protocol_step (hsch : ¬ Schedules k e) (hstep : k.step e = some k') : Protocol k k' := by
  cases step_takes hstep with
  | register c => exact .keeps (by simp [critInterruptPush]) rfl rfl
  | quantum | forceSwitch => exact protocol_schedulerNeedsSwitch
  | moves hcpu hin hswitching => exact .keeps rfl rfl (by rw [hcpu]; exact hswitching)
  | createThread start => exact protocol_createThread
  | block => exact protocol_blockOnLock
  | wake | handlerWake => exact protocol_wakeOnLock
  | resume | exit => exact .keeps rfl rfl rfl
  | popNil hcpu => exact .keeps rfl rfl (by rw [hcpu]; rfl)
  | popOther hcpu hlist => exact .keeps (by simp [hlist]) rfl (by rw [hcpu]; rfl)
  | popScheduler hcpu hlist => exact absurd (schedules_pop hcpu hlist) hsch
  | finish hbefore hafter => exact .finishes rfl rfl hbefore hafter

/-- There is still one switch at most. -/
theorem OneSwitch.protocol (h : OneSwitch k) (hp : Protocol k k') : OneSwitch k' := by
  unfold OneSwitch at *
  cases hp with
  | keeps list mutex cpu => rw [list, mutex, cpu, h]
  | asks list free mutex cpu =>
      rw [free, Bool.toNat_false] at h
      rw [list, mutex, cpu, Bool.toNat_true]
      omega
  | finishes list mutex before cpu =>
      have hle := Bool.toNat_le k.schedulerMutex
      rw [before, Bool.toNat_true] at h
      rw [list, mutex, cpu, Bool.toNat_false]
      omega

/-- While nobody has asked for a switch, none is going on. -/
theorem OneSwitch.not_switching (h : OneSwitch k) (hfree : k.schedulerMutex = false) :
    k.cpu.switching = false := by
  unfold OneSwitch at h
  rw [hfree] at h
  cases hcpu : k.cpu.switching
  · rfl
  · simp [hcpu] at h

/-! ## the queue -/

/-- The queue is the list that the links say. -/
theorem QueueInv.of_isList {l : List ThreadId} (h : QueueInv k q)
    (hl : IsList k.links k.runQueue l) : QueueInv k l where
  list := hl
  running t ht := h.running t (h.list.subset hl ht)
  notIdle hi := h.notIdle (h.list.subset hl hi)
  complete t hi hr ha := hl.subset h.list (h.complete t hi hr ha)
  waiting := h.waiting

/-- The queue is the list that the links say. -/
theorem SwitchInv.of_isList {l : List ThreadId} (h : SwitchInv k q)
    (hq : IsList k.links k.runQueue q) (hl : IsList k.links k.runQueue l) : SwitchInv k l where
  linked ha := h.linked (hq.subset hl ha)
  blocked := h.blocked
  mutex := h.mutex
  saved := h.saved

/-- The queue after a step without a switch: the same threads first. -/
def Appends (q : List ThreadId) (k k' : Kernel) : Prop :=
  k'.activeThread = k.activeThread ∧ ∃ l, IsList k'.links k'.runQueue (q ++ l)

/-- Nothing joins the queue. -/
theorem appends_same (h : IsList k.links k.runQueue q) (ha : k'.activeThread = k.activeThread)
    (hl : k'.links = k.links) (hq : k'.runQueue = k.runQueue) : Appends q k k' :=
  ⟨ha, [], by rw [hl, hq, List.append_nil]; exact h⟩

/-- A thread joins the back of the queue. -/
theorem appends_enqueue (h : IsList k.links k.runQueue q) (ht : t ∉ q)
    (ha : k'.activeThread = k.activeThread) (hl : k'.links = (k.enqueue t).links)
    (hq : k'.runQueue = (k.enqueue t).runQueue) : Appends q k k' :=
  ⟨ha, [t], by rw [hl, hq]; exact h.enqueue ht⟩

/-- To ask for a switch leaves the queue. -/
theorem appends_schedulerNeedsSwitch (h : IsList k.links k.runQueue q) :
    Appends q k k.schedulerNeedsSwitch := by
  unfold Kernel.schedulerNeedsSwitch
  split <;> exact appends_same h rfl rfl rfl

/-- A thread that is woken joins the back, unless it is still active. -/
theorem appends_wakeOnLock (h : QueueInv k q) : Appends q k (k.wakeOnLock t) := by
  unfold Kernel.wakeOnLock
  split
  · exact appends_same h.list rfl rfl rfl
  · next hctx =>
      refine appends_enqueue h.list (fun ht => ?_) rfl rfl rfl
      have hb := (h.waiting t hctx).1
      rw [h.running t ht] at hb
      cases hb
  · exact appends_same h.list rfl rfl rfl

/-- A new thread joins the back, if it is started. -/
theorem appends_createThread (h : IsList k.links k.runQueue q) (ht : t ∉ q) (start : Bool) :
    Appends q k (k.createThread t start) := by
  unfold Kernel.createThread
  split
  · exact appends_enqueue h ht rfl rfl rfl
  · exact appends_same h rfl rfl rfl

/-- **No step but a switch** takes a thread from the queue. -/
theorem appends_step (h : QueueInv k q) (hsch : ¬ Schedules k e) (hstep : k.step e = some k') :
    Appends q k k' := by
  cases step_takes hstep with
  | register | moves | exit | popNil | popOther | finish => exact appends_same h.list rfl rfl rfl
  | quantum | forceSwitch => exact appends_schedulerNeedsSwitch h.list
  | createThread start hcritical hidle hactive hfree =>
      refine appends_createThread h.list (fun ht => ?_) start
      simp [h.running _ ht] at hfree
  | block =>
      obtain ⟨ha, l, hl⟩ := appends_schedulerNeedsSwitch
        (k := k.setThread k.activeThread .blocked) h.list
      exact ⟨ha, l, hl⟩
  | wake | handlerWake => exact appends_wakeOnLock h
  | resume hcritical hidle hactive hblocked =>
      refine appends_enqueue h.list (fun ht => ?_) rfl rfl rfl
      simp [h.running _ ht] at hblocked
  | popScheduler hcpu hlist => exact absurd (schedules_pop hcpu hlist) hsch

/-- `Schedule` and `SchedulerSwitch`: the first thread of the queue runs, and the others
move up. -/
theorem schedule_pops (h : IsList k.links k.runQueue (u :: q)) (ha : k.activeThread ∉ u :: q) :
    k.schedule.nextThread = some u ∧ ∃ l, IsList k.schedule.links k.schedule.runQueue (q ++ l) := by
  obtain ⟨l, hl⟩ : ∃ l, IsList
      (if k.activeThread ≠ idleThread ∧ k.thread k.activeThread = some .running then
        k.enqueue k.activeThread else k).links
      (if k.activeThread ≠ idleThread ∧ k.thread k.activeThread = some .running then
        k.enqueue k.activeThread else k).runQueue (u :: (q ++ l)) := by
    split
    · exact ⟨[k.activeThread], h.enqueue ha⟩
    · exact ⟨[], by simpa using h⟩
  unfold Kernel.schedule
  generalize (if k.activeThread ≠ idleThread ∧ k.thread k.activeThread = some .running then
    k.enqueue k.activeThread else k) = k' at hl ⊢
  have hsome : linkedListIsEmpty k'.runQueue = false := by rw [hl.head_eq]; rfl
  obtain ⟨hpop, hrest⟩ := hl.pop
  refine ⟨?_, l, ?_⟩
  · simpa [hsome] using hpop
  · simpa [hsome] using hrest

/-- The new thread is inside a switch. -/
theorem switching_switch (hsaved : ∀ t, (k.saved t).switching) :
    k.schedule.schedulerSwitch.cpu.switching = true := by
  have hk : k.schedule.saved = k.saved := by rw [schedule_frame]
  simp only [schedulerSwitch, hk]
  split
  · rfl
  · exact hsaved _

/-- A switch queues no handler. -/
theorem switch_critList : k.schedule.schedulerSwitch.critList = k.critList := by
  rw [schedule_frame]
  rfl

/-- A switch leaves the mutex as it is. -/
theorem switch_schedulerMutex : k.schedule.schedulerSwitch.schedulerMutex = k.schedulerMutex := by
  rw [schedule_frame]
  rfl

/-- What a switch does. -/
theorem schedules_spec (hsch : Schedules k e) (h : OneSwitch k) (hsaved : ∀ t, (k.saved t).switching)
    (hstep : k.step e = some k') :
    OneSwitch k' ∧ k'.cpu.switching = true ∧ ∀ u q, IsList k.links k.runQueue (u :: q) →
      k.activeThread ∉ u :: q →
        k'.activeThread = u ∧ ∃ l, IsList k'.links k'.runQueue (q ++ l) := by
  obtain ⟨hs, hcpu, hlist, hstep'⟩ := hsch.step
  rw [hstep', Option.some.injEq] at hstep
  generalize hk : ({ k with
    critList := hs
    schedulerCritObject := (handlerRun k.schedulerCritObject).1 } : Kernel).assert
      (handlerRun k.schedulerCritObject).2 = k₀
  have hk' : k' = k₀.schedule.schedulerSwitch := by
    rw [← hstep, ← hk]
    rfl
  subst hk'
  have hswitching : k₀.schedule.schedulerSwitch.cpu.switching = true :=
    switching_switch (by rw [← hk]; exact hsaved)
  refine ⟨?_, hswitching, fun u q hl ha => ?_⟩
  · unfold OneSwitch at h ⊢
    rw [hcpu, hlist, List.count_cons_self] at h
    rw [hswitching, switch_critList, switch_schedulerMutex, ← hk]
    exact h
  · obtain ⟨hnext, hqueue⟩ := schedule_pops (k := k₀) (by rw [← hk]; exact hl) (by rw [← hk]; exact ha)
    exact ⟨by simp [schedulerSwitch, hnext], hqueue⟩

end Kernel

/-! ## the clock -/

namespace SchedulerRun

variable {s s' : SchedulerRun} {op : SchedulerOp} {t : ThreadId} {before : List ThreadId}

/-- What a step is. -/
inductive Moves (s s' : SchedulerRun) : SchedulerOp → Prop where
  /-- A step of the kernel without a switch.  The priority of a thread that is active or
  in the queue stays. -/
  | runs (op : SchedulerOp) (e : Step) (k : Kernel) (priority : ThreadId → UInt8)
      (hop : op ≠ .timer) (hsch : ¬ Schedules s.kernel e) (hstep : s.kernel.step e = some k)
      (hs : s' = { s with kernel := k, priority := priority })
      (hprio : ∀ u, s.kernel.thread u = some .running ∨ u = s.kernel.activeThread →
        priority u = s.priority u) : Moves s s' op
  | switches (e : Step) (k : Kernel) (hsch : Schedules s.kernel e) (hstep : s.kernel.step e = some k)
      (hs : s' = { s with kernel := k, quantumStartTime := s.time }) : Moves s s' (.kernel e)
  | passes (d : ℕ) (hs : s' = { s with time := s.time + d }) : Moves s s' (.pass d)
  | ticks (hdue : s.timer ≤ s.time) (hs : s' = s.schedulerTimerHandler) : Moves s s' .timer

/-- **Every step** is one of these. -/
theorem step_moves (h : step s op = some s') : Moves s s' op := by
  cases op with
  | kernel e =>
      have hmap : (s.kernel.step e).map (fun k =>
          { s with
            kernel := k
            quantumStartTime := if Schedules s.kernel e then s.time else s.quantumStartTime }) =
          some s' := by
        cases e <;> first | exact h | cases h
      obtain ⟨k, hk, rfl⟩ := Option.map_eq_some_iff.mp hmap
      by_cases hsch : Schedules s.kernel e
      · exact .switches e k hsch hk (by rw [if_pos hsch])
      · exact .runs _ e k s.priority (by simp) hsch hk (by rw [if_neg hsch]) fun _ _ => rfl
  | createThread t priority start =>
      obtain ⟨k, hk, rfl⟩ := Option.map_eq_some_iff.mp h
      refine .runs _ (.createThread t start) k _ (by simp) (fun hsch => hsch) hk rfl fun u hu => ?_
      obtain ⟨⟨-, -, hactive, hfree⟩, -⟩ := Option.ite_none_right_eq_some.mp hk
      refine Function.update_of_ne ?_ _ _
      rintro rfl
      obtain hu | hu := hu
      · rw [hu] at hfree
        simp at hfree
      · exact hactive hu
  | pass d => exact .passes d (Option.some.inj h).symm
  | timer =>
      obtain ⟨hdue, h⟩ := Option.ite_none_right_eq_some.mp h
      exact .ticks hdue (Option.some.inj h).symm

/-- The invariant. -/
structure QuantumInv (s : SchedulerRun) : Prop where
  queue : ∃ q, Kernel.QueueInv s.kernel q ∧ Kernel.SwitchInv s.kernel q
  one : OneSwitch s.kernel
  past : s.quantumStartTime ≤ s.time
  due : s.timer ≤ s.time + 1
  /-- When the quantum is used up, a switch has been asked for. -/
  fresh : s.kernel.schedulerMutex = true ∧ s.kernel.cpu.switching = false ∨
    s.timer ≤ s.quantumStartTime + (s.priority s.kernel.activeThread).toNat + 1

/-- The scheduler has started. -/
theorem quantumInv_start (time : ℕ) : QuantumInv (start time) where
  queue := ⟨[], queueInv_startup, switchInv_startup⟩
  one := rfl
  past := Nat.le_refl time
  due := Nat.le_succ time
  fresh := .inr (by simp only [start]; omega)

/-- **One step** keeps the invariant. -/
theorem QuantumInv.step (h : QuantumInv s) (halone : s.Alone op) (hprompt : s.Prompt op)
    (hstep : SchedulerRun.step s op = some s') : QuantumInv s' := by
  obtain ⟨q, hqueue, hswitch⟩ := h.queue
  cases step_moves hstep with
  | runs _ e k priority hop hsch hk hs hprio =>
      subst hs
      have hprotocol := protocol_step hsch hk
      obtain ⟨hactive, -⟩ := appends_step hqueue hsch hk
      refine ⟨queueInv_step hqueue hswitch (fun h => absurd h hsch) hk, h.one.protocol hprotocol,
        h.past, h.due, ?_⟩
      have hprio := hprio s.kernel.activeThread (.inr rfl)
      show _ ∨ s.timer ≤ s.quantumStartTime + (priority k.activeThread).toNat + 1
      rw [hactive, hprio]
      refine h.fresh.imp_left fun ⟨hmutex, hcpu⟩ => ?_
      cases hprotocol with
      | keeps list mutex cpu => exact ⟨mutex.trans hmutex, cpu.trans hcpu⟩
      | asks list free mutex cpu => exact ⟨mutex, cpu.trans hcpu⟩
      | finishes list mutex before cpu =>
          rw [hcpu] at before
          cases before
  | switches e k hsch hk hs =>
      subst hs
      obtain ⟨hone, -, -⟩ := schedules_spec hsch h.one hswitch.saved hk
      refine ⟨queueInv_step hqueue hswitch halone hk, hone, Nat.le_refl _, h.due, .inr ?_⟩
      have hdue := h.due
      show s.timer ≤ s.time + _ + 1
      omega
  | passes d hs =>
      subst hs
      have hpast := h.past
      have hdue := h.due
      exact ⟨h.queue, h.one, by simp only; omega, by simp only; omega, h.fresh⟩
  | ticks hdue hs =>
      subst hs
      have hfree := hprompt rfl
      have hcpu := h.one.not_switching hfree
      have hpast := h.past
      unfold schedulerTimerHandler
      by_cases hexpired : (s.priority s.kernel.activeThread).toNat < s.time - s.quantumStartTime
      · simp only [hexpired, if_true]
        have hprotocol := protocol_schedulerNeedsSwitch (k := s.kernel)
        refine ⟨⟨q, hqueue.schedulerNeedsSwitch, hswitch.schedulerNeedsSwitch.1⟩,
          h.one.protocol hprotocol, h.past, Nat.le_refl _, .inl ?_⟩
        simp [schedulerNeedsSwitch, hfree, critInterruptPush, Kernel.assert, hcpu]
      · simp only [hexpired, if_false]
        refine ⟨h.queue, h.one, h.past, Nat.le_refl _, .inr ?_⟩
        simp only
        omega

/-! ## waiting -/

/-- The thread is in the queue, behind those in `before`. -/
def Waits (s : SchedulerRun) (t : ThreadId) (before : List ThreadId) : Prop :=
  ∃ after, IsList s.kernel.links s.kernel.runQueue (before ++ t :: after)

/-- The ticks that can still come before the active thread and those in `before` have
had their quanta. -/
def rank (s : SchedulerRun) (before : List ThreadId) : ℕ :=
  s.quantumStartTime + s.quantum s.kernel.activeThread - max s.timer s.quantumStartTime +
    (before.map s.quantum).sum

/-- A thread never has more than its quantum left. -/
theorem rank_le : s.rank before ≤ ((s.kernel.activeThread :: before).map s.quantum).sum := by
  rw [rank, List.map_cons, List.sum_cons]
  omega

/-- Quanta depend on the priorities alone. -/
theorem quantum_congr (h : s'.priority = s.priority) : s'.quantum = s.quantum := by
  funext u
  rw [quantum, quantum, h]

/-- The rank depends on the clock, the timer and the quanta alone. -/
theorem rank_congr (hstart : s'.quantumStartTime = s.quantumStartTime) (htimer : s'.timer = s.timer)
    (hactive : s'.kernel.activeThread = s.kernel.activeThread)
    (hquantum : ∀ u ∈ s.kernel.activeThread :: before, s'.quantum u = s.quantum u) :
    s'.rank before = s.rank before := by
  obtain ⟨ha, hbefore⟩ := List.forall_mem_cons.mp hquantum
  unfold rank
  rw [hstart, htimer, hactive, ha, List.map_congr_left hbefore]

/-- At a switch the quantum of the new active thread is counted where it stood before. -/
theorem rank_switch {u : ThreadId} (hprio : s'.priority = s.priority)
    (hactive : s'.kernel.activeThread = u) :
    s'.rank before ≤ s.rank (u :: before) := by
  unfold rank
  rw [quantum_congr hprio, hactive, List.map_cons, List.sum_cons]
  omega

/-- A tick uses up a part of the quantum. -/
theorem rank_tick (h : QuantumInv s) (hfree : s.kernel.schedulerMutex = false)
    (hdue : s.timer ≤ s.time) (hprio : s'.priority = s.priority)
    (hstart : s'.quantumStartTime = s.quantumStartTime) (htimer : s'.timer = s.time + 1)
    (hactive : s'.kernel.activeThread = s.kernel.activeThread) :
    s'.rank before + 1 ≤ s.rank before := by
  have hpast := h.past
  have hfresh := h.fresh.resolve_left fun hmutex => by
    rw [hfree] at hmutex
    exact Bool.false_ne_true hmutex.1
  unfold rank
  rw [quantum_congr hprio, hactive, hstart, htimer, quantum]
  omega

/-- **One step**: the thread stays in the queue, no thread gets before it, and every tick
is one less to wait for; or the thread runs. -/
theorem QuantumInv.rank_step (h : QuantumInv s) (hw : s.Waits t before)
    (hta : s.kernel.activeThread ≠ t) (halone : s.Alone op) (hprompt : s.Prompt op)
    (hstep : SchedulerRun.step s op = some s') :
    s'.kernel.activeThread = t ∨ ∃ ahead, s'.Waits t ahead ∧
      s'.rank ahead + (if op = .timer then 1 else 0) ≤ s.rank before := by
  obtain ⟨q, hqueue, hswitch⟩ := h.queue
  obtain ⟨after, hlist⟩ := hw
  cases step_moves hstep with
  | runs _ e k priority hop hsch hk hs hprio =>
      subst hs
      have hqueue := hqueue.of_isList hlist
      obtain ⟨hactive, l, hl⟩ := appends_step hqueue hsch hk
      refine .inr ⟨before, ⟨after ++ l, by simpa using hl⟩, ?_⟩
      rw [if_neg hop, Nat.add_zero]
      refine Nat.le_of_eq (rank_congr rfl rfl hactive fun u hu => ?_)
      have hu : s.kernel.thread u = some .running ∨ u = s.kernel.activeThread := by
        obtain rfl | hu := List.mem_cons.mp hu
        · exact .inr rfl
        · exact .inl (hqueue.running u (List.mem_append_left _ hu))
      simp only [quantum, hprio u hu]
  | switches e k hsch hk hs =>
      subst hs
      have hnot : s.kernel.activeThread ∉ before ++ t :: after := fun ha => by
        have hmem : t ∈ before ++ t :: after := by simp
        rw [halone hsch _ hlist ha, List.mem_singleton] at hmem
        exact hta hmem.symm
      obtain ⟨-, -, hpops⟩ := schedules_spec hsch h.one hswitch.saved hk
      cases before with
      | nil => exact .inl (hpops t after hlist hnot).1
      | cons u rest =>
          obtain ⟨hactive, l, hl⟩ := hpops u (rest ++ t :: after) hlist hnot
          refine .inr ⟨rest, ⟨after ++ l, by simpa using hl⟩, ?_⟩
          rw [if_neg (by simp), Nat.add_zero]
          exact rank_switch (s := s) rfl hactive
  | passes d hs =>
      subst hs
      exact .inr ⟨before, ⟨after, hlist⟩, Nat.le_refl _⟩
  | ticks hdue hs =>
      subst hs
      obtain ⟨hactive, l, hl⟩ : Appends (before ++ t :: after) s.kernel
          s.schedulerTimerHandler.kernel := by
        simp only [schedulerTimerHandler]
        split
        · exact appends_schedulerNeedsSwitch hlist
        · exact appends_same hlist rfl rfl rfl
      refine .inr ⟨before, ⟨after ++ l, by simpa using hl⟩, ?_⟩
      rw [if_pos rfl]
      exact rank_tick h (hprompt rfl) hdue rfl rfl rfl hactive

/-- By induction on the run, the rank is the bound. -/
theorem QuantumInv.bounded {ops : List SchedulerOp} (h : QuantumInv s) (hw : s.Waits t before)
    (hok : Along SchedulerRun.step (fun s op => s.Alone op ∧ s.Prompt op) s ops)
    (hrun : exec SchedulerRun.step s ops = some s') :
    (∃ ls ks m, ops = ls ++ ks ∧ exec SchedulerRun.step s ls = some m ∧
      m.kernel.activeThread = t) ∨ ops.count .timer ≤ s.rank before := by
  induction ops generalizing s before with
  | nil => exact .inr (Nat.zero_le _)
  | cons op ops ih =>
      by_cases hta : s.kernel.activeThread = t
      · exact .inl ⟨[], op :: ops, s, rfl, rfl, hta⟩
      obtain ⟨m, hm, hrun⟩ := exec_cons_eq_some.mp hrun
      obtain ⟨⟨halone, hprompt⟩, hok⟩ := hok
      obtain hactive | ⟨ahead, hw, hrank⟩ := h.rank_step hw hta halone hprompt hm
      · exact .inl ⟨[op], ops, m, rfl, by simp [exec_cons, hm], hactive⟩
      obtain ⟨ls, ks, n, rfl, hn, hactive⟩ | hcount := ih (h.step halone hprompt hm) hw (hok m hm) hrun
      · exact .inl ⟨op :: ls, ks, n, rfl, exec_cons_eq_some.mpr ⟨m, hm, hn⟩, hactive⟩
      · refine .inr ?_
        rw [List.count_cons]
        simp only [beq_iff_eq]
        omega

end SchedulerRun

open SchedulerRun

/-- **No thread starves.**  A thread in the run queue runs before the threads that were
active and before it in the queue have had more ticks than their quanta, whatever the
threads, the interrupts and the clock do, as long as no tick finds a switch outstanding
(`Prompt`) and no switch finds the active thread linked beside another (`Alone`). -/
theorem scheduler_bounded_wait {time : ℕ} {ops₀ ops : List SchedulerOp} {s s' : SchedulerRun}
    {t : ThreadId} {before after : List ThreadId}
    (h₀ : exec SchedulerRun.step (.start time) ops₀ = some s)
    (h : exec SchedulerRun.step s ops = some s')
    (hok : Along SchedulerRun.step (fun s op => s.Alone op ∧ s.Prompt op) (.start time) (ops₀ ++ ops))
    (hq : IsList s.kernel.links s.kernel.runQueue (before ++ t :: after)) :
    (∃ ls ks m, ops = ls ++ ks ∧ exec SchedulerRun.step s ls = some m ∧
      m.kernel.activeThread = t) ∨
    ops.count .timer ≤ ((s.kernel.activeThread :: before).map s.quantum).sum := by
  obtain ⟨hok₀, hok⟩ := along_append.mp hok
  have hs := exec_induction (I := QuantumInv)
    (fun _ _ _ hinv hok hstep => hinv.step hok.1 hok.2 hstep) (quantumInv_start time) hok₀ h₀
  refine (hs.bounded ⟨after, hq⟩ (hok s h₀) h).imp_right fun hcount => hcount.trans ?_
  exact rank_le

/-- Threads 1 and 2 are created, and the idle thread leaves its critical section. -/
def sampleCreate : List SchedulerOp :=
  [.createThread 1 0 true, .createThread 2 200 true, .kernel .endCritical]

/-- Six ticks: the idle thread has had its quantum at the third, thread 1 at the fourth. -/
def sampleTicks : List SchedulerOp :=
  [.timer, .pass 1, .timer, .pass 1, .timer, .kernel .deliver, .kernel .pop, .kernel .finish,
    .pass 1, .timer, .kernel .deliver, .kernel .pop, .kernel .finish, .pass 1, .timer, .pass 1,
    .timer]

/-- A switch from the idle thread, or with one other thread in the queue. -/
def SampleAlone (s : SchedulerRun) : SchedulerOp → Prop
  | .kernel .pop => s.kernel.activeThread = idleThread ∨
      s.kernel.runQueue = some 2 ∧ s.kernel.links.next 2 = 2 ∧ s.kernel.links.prev 2 = 2 ∧
        s.kernel.activeThread ≠ 2
  | _ => True

instance (s : SchedulerRun) (op : SchedulerOp) : Decidable (SampleAlone s op ∧ s.Prompt op) := by
  unfold SampleAlone SchedulerRun.Prompt
  split <;> infer_instance

/-- A thread linked to itself is a list. -/
theorem isList_single {m : Links ThreadId} {t : ThreadId} (hn : m.next t = t) (hp : m.prev t = t) :
    IsList m (some t) [t] :=
  ⟨rfl, List.nodup_singleton t, .cons_cons ⟨hn, hp⟩ (.singleton t)⟩

/-- The check of the sample implies the condition. -/
theorem SampleAlone.alone {s : SchedulerRun} {op : SchedulerOp} (h : QuantumInv s)
    (hop : SampleAlone s op) : s.Alone op := by
  obtain ⟨q, hqueue, -⟩ := h.queue
  cases op with
  | kernel e =>
      intro hsch l hl ha
      cases e with
      | pop =>
          obtain hidle | ⟨hhead, hn, hp, hne⟩ := hop
          · exact absurd (hidle ▸ ha) (hqueue.of_isList hl).notIdle
          · have hsingle := isList_single hn hp
            rw [← hhead] at hsingle
            exact absurd (List.mem_singleton.mp (hsingle.subset hl ha)) hne
      | _ => exact hsch.elim
  | _ => trivial

theorem scheduler_bounded_wait_sample :
    ∃ ls ks s m, sampleTicks = ls ++ ks ∧
      exec SchedulerRun.step (.start 0) sampleCreate = some s ∧
      exec SchedulerRun.step s ls = some m ∧ m.kernel.activeThread = 2 := by
  have halong : Along SchedulerRun.step (fun s op => SampleAlone s op ∧ s.Prompt op) (.start 0)
      (sampleCreate ++ sampleTicks) := by
    decide +kernel
  have hok := (along_congr_of (I := QuantumInv) (P := fun _ _ => True)
    (fun _ _ hs hop => iff_of_true trivial (⟨hop.1.alone hs, hop.2⟩ : _ ∧ _))
    (fun _ _ _ hs _ hop hstep => hs.step hop.1 hop.2 hstep) (quantumInv_start 0) halong).mp
    (along_of_forall fun _ _ => trivial)
  have hcreate : (exec SchedulerRun.step (.start 0) (sampleCreate ++ sampleTicks)).isSome := by
    decide +kernel
  obtain ⟨s', hs'⟩ := Option.isSome_iff_exists.mp hcreate
  rw [exec_append] at hs'
  obtain ⟨s, hs, hrun⟩ := Option.bind_eq_some_iff.mp hs'
  have hstate : (exec SchedulerRun.step (.start 0) sampleCreate).all (fun s => decide
      (s.kernel.runQueue = some 1 ∧ s.kernel.links.next 1 = 2 ∧ s.kernel.links.prev 2 = 1 ∧
        s.kernel.links.next 2 = 1 ∧ s.kernel.links.prev 1 = 2 ∧ s.kernel.activeThread = 0 ∧
        s.priority 0 = 1 ∧ s.priority 1 = 0)) = true := by
    decide +kernel
  rw [hs, Option.all_some, decide_eq_true_iff] at hstate
  obtain ⟨hhead, hn1, hp2, hn2, hp1, hactive, hprio0, hprio1⟩ := hstate
  have hlist : IsList s.kernel.links s.kernel.runQueue ([1] ++ 2 :: []) :=
    ⟨hhead, by decide, .cons_cons ⟨hn1, hp2⟩ (.cons_cons ⟨hn2, hp1⟩ (.singleton 1))⟩
  have hbound : ((s.kernel.activeThread :: [1]).map s.quantum).sum = 5 := by
    simp [hactive, quantum, hprio0, hprio1]
  obtain ⟨ls, ks, m, hops, hm, ht⟩ | hcount := scheduler_bounded_wait hs hrun hok hlist
  · exact ⟨ls, ks, s, m, hops, hs, hm, ht⟩
  · rw [hbound] at hcount
    exact absurd hcount (by decide)

end KernelPanic
