import KernelPanic.Kernel.Scheduler
import KernelPanic.Lib.Run

/-!
# KernelPanic.Kernel.Scheduler.RunQueue

Which threads are in the run queue.  `RunQueueOk` is what the scheduler needs
of it after every switch: the runnable threads other than the active one and
the idle one are linked, each once, and nobody else is.

`SchedulerResumeThread` enqueues the thread it wakes without asking whether
that thread has been switched out yet, and `Schedule` enqueues the active
thread whenever it is runnable.  A crit handler that runs before
`SchedulerCritHandler` and wakes the thread that has just blocked makes both
happen to one thread.  When that thread is alone in the queue the second
enqueue is harmless; when it is not, threads are lost.  So the queue is right
after every switch of a run exactly when no switch of the run finds the active
thread linked beside another one (`scheduleOk_iff_activeAlone`).
-/

namespace KernelPanic

open Run

/-- The crit interrupt is going through its list, before any switch. -/
def Cpu.inHandlers : Cpu → Bool
  | .critInterrupt => true
  | .handler _ => true
  | _ => false

/-- A switch has just happened and `SchedulerCritObject` is not finished. -/
def Cpu.switching : Cpu → Bool
  | .switched => true
  | .startup => true
  | _ => false

namespace Kernel

variable {k k' : Kernel} {q : List ThreadId} {t : ThreadId} {e : Step}

/-- The run queue is a well-formed circular list in which every runnable
thread that is neither active nor idle is linked exactly once, and the active
thread and the blocked and finished ones are not linked. -/
def RunQueueOk (k : Kernel) : Prop :=
  ∃ q, IsList k.links k.runQueue q ∧
    (∀ t, t ≠ idleThread → k.thread t = some .running → t ≠ k.activeThread → q.count t = 1) ∧
    k.activeThread ∉ q ∧
    ∀ t, k.thread t = some .blocked ∨ k.thread t = some .done → t ∉ q

/-- The step is `CritInterrupt` popping `SchedulerCritObject`: `Schedule` and
`SchedulerSwitch` run. -/
def Schedules (k : Kernel) : Step → Prop
  | .pop => k.cpu = .critInterrupt ∧ k.critList.head? = some .scheduler
  | _ => False

/-- If the step switches threads, the run queue is right after it. -/
def ScheduleOk (k : Kernel) (e : Step) : Prop :=
  Schedules k e → ∀ k', k.step e = some k' → RunQueueOk k'

/-- The active thread is not linked in the run queue together with another
thread. -/
def ActiveAlone (k : Kernel) : Prop :=
  ∀ q, IsList k.links k.runQueue q → k.activeThread ∈ q → q = [k.activeThread]

/-! ## what a step does -/

/-- What a step does, with what it has checked. -/
inductive Takes (k : Kernel) : Step → Kernel → Prop where
  | register (h : Nat) : Takes k (.register h) (k.critInterruptPush (.other h))
  | quantum : Takes k .quantum k.schedulerNeedsSwitch
  /-- The processor goes on elsewhere, and not out of the handlers. -/
  | moves {e : Step} {cpu cpu' : Cpu} {critPending : Bool} (hcpu : k.cpu = cpu)
      (hin : cpu.inHandlers → cpu'.inHandlers) (hswitching : cpu'.switching = cpu.switching) :
      Takes k e { k with cpu := cpu', critPending := critPending }
  | createThread {t : ThreadId} (start : Bool) (hcritical : k.critical) (hidle : t ≠ idleThread)
      (hactive : t ≠ k.activeThread) (hfree : k.thread t = none ∨ k.thread t = some .done) :
      Takes k (.createThread t start) (k.createThread t start)
  | block (hcritical : k.critical) (hidle : k.activeThread ≠ idleThread)
      (hrun : k.thread k.activeThread = some .running)
      (hready : k.context k.activeThread = .ready) : Takes k .block k.blockOnLock
  | wake {t : ThreadId} (hcritical : k.critical) (hactive : t ≠ k.activeThread) :
      Takes k (.wake t) (k.wakeOnLock t)
  | resume {t : ThreadId} (hcritical : k.critical) (hidle : t ≠ idleThread)
      (hactive : t ≠ k.activeThread) (hblocked : k.thread t = some .blocked)
      (hready : k.context t = .ready) : Takes k (.resume t) (k.resumeThread t)
  | forceSwitch (hcritical : k.critical) : Takes k .forceSwitch k.schedulerNeedsSwitch
  | exit (hcritical : k.critical) (hidle : k.activeThread ≠ idleThread)
      (hrun : k.thread k.activeThread = some .running) : Takes k .exit k.exitThread
  | popNil (hcpu : k.cpu = .critInterrupt) (hlist : k.critList = []) :
      Takes k .pop { k with cpu := .thread 0 }
  | popOther {h : Nat} {hs : List CritHandler} (hcpu : k.cpu = .critInterrupt)
      (hlist : k.critList = .other h :: hs) :
      Takes k .pop { k with critList := hs, cpu := .handler h }
  | popScheduler {hs : List CritHandler} (hcpu : k.cpu = .critInterrupt)
      (hlist : k.critList = .scheduler :: hs) :
      Takes k .pop { k with critList := hs }.schedulerCritHandler
  | handlerWake {t : ThreadId} (hhandlers : k.cpu.inHandlers) :
      Takes k (.handlerWake t) (k.wakeOnLock t)
  | finish {cpu : Cpu} (hbefore : k.cpu.switching) (hafter : cpu.switching = false) :
      Takes k .finish { k.postCritHandler with cpu := cpu }

theorem step_takes (hstep : k.step e = some k') : Takes k e k' := by
  cases e with
  | register c =>
      obtain rfl := Option.some.inj hstep
      exact .register c
  | quantum =>
      obtain rfl := Option.some.inj hstep
      exact .quantum
  | startCritical =>
      simp only [step] at hstep
      split at hstep
      · next hcpu =>
          split at hstep <;> cases hstep
          exact .moves hcpu id rfl
      · next hcpu =>
          cases hstep
          exact .moves hcpu id rfl
      · cases hstep
  | endCritical =>
      simp only [step] at hstep
      split at hstep <;> cases hstep
      next hcpu => exact .moves hcpu id rfl
  | createThread t start =>
      obtain ⟨⟨hcritical, hidle, hactive, hfree⟩, hstep⟩ := Option.ite_none_right_eq_some.mp hstep
      cases hstep
      exact .createThread start hcritical hidle hactive hfree
  | block =>
      obtain ⟨⟨hcritical, hidle, hrun, hready⟩, hstep⟩ := Option.ite_none_right_eq_some.mp hstep
      cases hstep
      exact .block hcritical hidle hrun hready
  | wake t =>
      obtain ⟨⟨hcritical, hactive⟩, hstep⟩ := Option.ite_none_right_eq_some.mp hstep
      cases hstep
      exact .wake hcritical hactive
  | resume t =>
      obtain ⟨⟨hcritical, hidle, hactive, hblocked, hready⟩, hstep⟩ :=
        Option.ite_none_right_eq_some.mp hstep
      cases hstep
      exact .resume hcritical hidle hactive hblocked hready
  | forceSwitch =>
      obtain ⟨hcritical, hstep⟩ := Option.ite_none_right_eq_some.mp hstep
      cases hstep
      exact .forceSwitch hcritical
  | exit =>
      obtain ⟨⟨hcritical, hidle, hrun⟩, hstep⟩ := Option.ite_none_right_eq_some.mp hstep
      cases hstep
      exact .exit hcritical hidle hrun
  | deliver =>
      obtain ⟨⟨hcpu, -⟩, hstep⟩ := Option.ite_none_right_eq_some.mp hstep
      cases hstep
      exact .moves hcpu (fun _ => rfl) rfl
  | pop =>
      obtain ⟨hcpu, hstep⟩ := Option.ite_none_right_eq_some.mp hstep
      split at hstep <;> cases hstep
      · next hlist => exact .popNil hcpu hlist
      · next hlist => exact .popOther hcpu hlist
      · next hlist => exact .popScheduler hcpu hlist
  | handlerWake t =>
      simp only [step] at hstep
      split at hstep <;> cases hstep
      next hcpu => exact .handlerWake (by rw [hcpu]; rfl)
  | handlerReturn =>
      simp only [step] at hstep
      split at hstep <;> cases hstep
      next hcpu => exact .moves hcpu (fun _ => rfl) rfl
  | finish =>
      simp only [step] at hstep
      split at hstep <;> cases hstep
      · next hcpu => exact .finish (by rw [hcpu]; rfl) rfl
      · next hcpu => exact .finish (by rw [hcpu]; rfl) rfl

theorem schedules_pop {hs : List CritHandler} (hcpu : k.cpu = .critInterrupt)
    (hlist : k.critList = .scheduler :: hs) : Schedules k .pop :=
  ⟨hcpu, by rw [hlist]; rfl⟩

/-- The step that switches. -/
theorem Schedules.step (hsch : Schedules k e) :
    ∃ hs, k.cpu = .critInterrupt ∧ k.critList = .scheduler :: hs ∧
      k.step e = some { k with critList := hs }.schedulerCritHandler := by
  cases e with
  | pop =>
      obtain ⟨hcpu, hhead⟩ := hsch
      obtain ⟨hs, hlist⟩ := List.head?_eq_some_iff.mp hhead
      refine ⟨hs, hcpu, hlist, ?_⟩
      unfold Kernel.step
      rw [if_pos hcpu, hlist]
  | _ => exact hsch.elim

/-! ## the invariant -/

/-- The run queue reads `q`; every thread in it is runnable, and every runnable
thread is in it but perhaps the active one.  A thread that waits on a lock is
marked blocked. -/
structure QueueInv (k : Kernel) (q : List ThreadId) : Prop where
  list : IsList k.links k.runQueue q
  running : ∀ t ∈ q, k.thread t = some .running
  notIdle : idleThread ∉ q
  complete : ∀ t, t ≠ idleThread → k.thread t = some .running → t ≠ k.activeThread → t ∈ q
  waiting : ∀ t, k.context t = .blocking → k.thread t = some .blocked ∧ t ≠ idleThread

/-- When a switch is owed: `SchedulerCritObject` is on the list from the moment
the active thread blocks, so the active thread is only found in the queue by
the crit handlers before it. -/
structure SwitchInv (k : Kernel) (q : List ThreadId) : Prop where
  linked : k.activeThread ∈ q → .scheduler ∈ k.critList ∧ k.cpu.inHandlers
  blocked : k.context k.activeThread = .blocking → .scheduler ∈ k.critList ∧ ¬ k.cpu.switching
  mutex : k.schedulerMutex → .scheduler ∈ k.critList ∨ k.cpu.switching
  saved : ∀ t, (k.saved t).switching

theorem QueueInv.runQueueOk (h : QueueInv k q) (ha : k.activeThread ∉ q) : RunQueueOk k := by
  refine ⟨q, h.list, fun t hi hr hta => ?_, ha, fun t ht hq => ?_⟩
  · exact List.count_eq_one_of_mem h.list.nodup (h.complete t hi hr hta)
  · have hrun := h.running t hq
    obtain ht | ht := ht <;> rw [hrun] at ht <;> simp at ht

/-- The queue's invariant reads only five of the kernel's variables. -/
theorem QueueInv.congr (h : QueueInv k q) (hth : k'.thread = k.thread)
    (hctx : k'.context = k.context) (hl : k'.links = k.links) (hq : k'.runQueue = k.runQueue)
    (ha : k'.activeThread = k.activeThread) : QueueInv k' q where
  list := by rw [hl, hq]; exact h.list
  running := by rw [hth]; exact h.running
  notIdle := h.notIdle
  complete := by rw [hth, ha]; exact h.complete
  waiting := by rw [hth, hctx]; exact h.waiting

theorem queueInv_startup : QueueInv schedulerStartup [] where
  list := isList_nil
  running := by simp
  notIdle := by simp
  complete t hi hr := by simp [schedulerStartup, hi] at hr
  waiting t ht := by simp [schedulerStartup] at ht

theorem switchInv_startup : SwitchInv schedulerStartup [] where
  linked := by simp
  blocked := by simp [schedulerStartup]
  mutex := by simp [schedulerStartup]
  saved t := rfl

/-! ## the queue under each operation -/

/-- `SchedulerNeedsSwitch` only touches the crit handler list. -/
theorem QueueInv.schedulerNeedsSwitch (h : QueueInv k q) :
    QueueInv k.schedulerNeedsSwitch q := by
  unfold Kernel.schedulerNeedsSwitch
  split
  · exact h
  · exact h.congr rfl rfl rfl rfl rfl

/-- A thread that was not runnable becomes so and is enqueued. -/
theorem QueueInv.enqueue (h : QueueInv k q) (hrun : k.thread t ≠ some .running)
    (hctx : k.context t ≠ .blocking) (hi : t ≠ idleThread) :
    QueueInv ((k.setThread t .running).enqueue t) (q ++ [t]) := by
  have htq : t ∉ q := fun hq => hrun (h.running t hq)
  refine ⟨h.list.enqueue htq, fun u hu => ?_, ?_, fun u hui hur hua => ?_, fun u hu => ?_⟩
  · rw [List.mem_append, List.mem_singleton] at hu
    by_cases hut : u = t
    · subst hut
      exact Function.update_self ..
    · exact (Function.update_of_ne hut ..).trans (h.running u (hu.resolve_right hut))
  · rw [List.mem_append, List.mem_singleton]
    exact fun hm => hm.elim h.notIdle (Ne.symm hi)
  · rw [List.mem_append, List.mem_singleton]
    by_cases hut : u = t
    · exact .inr hut
    · exact .inl (h.complete u hui ((Function.update_of_ne hut ..).symm.trans hur) hua)
  · have hut : u ≠ t := fun e => hctx (e ▸ hu)
    exact ⟨(Function.update_of_ne hut ..).trans (h.waiting u hu).1, (h.waiting u hu).2⟩

/-- A thread that is not in the queue stops being runnable. -/
theorem QueueInv.setThread (h : QueueInv k q) {s : ThreadState} (hs : s ≠ .running)
    (htq : t ∉ q) (hctx : k.context t ≠ .blocking) : QueueInv (k.setThread t s) q := by
  refine ⟨h.list, fun u hu => ?_, h.notIdle, fun u hui hur hua => ?_, fun u hu => ?_⟩
  · have hut : u ≠ t := fun e => htq (e ▸ hu)
    exact (Function.update_of_ne hut ..).trans (h.running u hu)
  · by_cases hut : u = t
    · simp [Kernel.setThread, hut, hs] at hur
    · exact h.complete u hui ((Function.update_of_ne hut ..).symm.trans hur) hua
  · have hut : u ≠ t := fun e => hctx (e ▸ hu)
    exact ⟨(Function.update_of_ne hut ..).trans (h.waiting u hu).1, (h.waiting u hu).2⟩

/-- A thread's context leaves the waiting state. -/
theorem QueueInv.setContext (h : QueueInv k q) : QueueInv (k.setContext t .ready) q := by
  refine ⟨h.list, h.running, h.notIdle, h.complete, fun u hu => ?_⟩
  by_cases hut : u = t
  · simp [Kernel.setContext, hut] at hu
  · exact h.waiting u ((Function.update_of_ne hut ..).symm.trans hu)

/-- `SchedulerResumeThread` of a blocked thread. -/
theorem QueueInv.resumeThread (h : QueueInv k q) (hb : k.thread t = some .blocked)
    (hctx : k.context t ≠ .blocking) (hi : t ≠ idleThread) :
    QueueInv (k.resumeThread t) (q ++ [t]) :=
  (h.enqueue (by simp [hb]) hctx hi).congr rfl rfl rfl rfl rfl

/-- The active thread blocks on a lock. -/
theorem QueueInv.blockOnLock (h : QueueInv k q) (hi : k.activeThread ≠ idleThread)
    (hctx : k.context k.activeThread = .ready) (ha : k.activeThread ∉ q) :
    QueueInv k.blockOnLock q := by
  have hset := (h.setThread (t := k.activeThread) (s := .blocked) (by simp) ha
    (by simp [hctx])).schedulerNeedsSwitch
  refine ⟨hset.list, hset.running, hset.notIdle, hset.complete, fun u hu => ?_⟩
  by_cases hua : u = k.activeThread
  · subst hua
    refine ⟨?_, hi⟩
    unfold Kernel.blockOnLock Kernel.schedulerNeedsSwitch
    split <;> exact Function.update_self ..
  · exact hset.waiting u ((Function.update_of_ne hua ..).symm.trans hu)

/-- `SchedulerCreateThread` of an unused or finished `struct THREAD`. -/
theorem QueueInv.createThread (h : QueueInv k q) (hi : t ≠ idleThread)
    (ht : k.thread t = none ∨ k.thread t = some .done) (start : Bool) :
    QueueInv (k.createThread t start) (if start then q ++ [t] else q) := by
  have hrun : k.thread t ≠ some .running := by rcases ht with ht | ht <;> simp [ht]
  have htq : t ∉ q := fun hq => hrun (h.running t hq)
  have hready : (k.setContext t .ready).context t ≠ .blocking := by simp [Kernel.setContext]
  unfold Kernel.createThread
  split
  · exact ((h.setContext (t := t)).enqueue hrun hready hi).congr rfl rfl rfl rfl rfl
  · exact ((h.setContext (t := t)).setThread (by simp) htq hready).congr rfl rfl rfl rfl rfl

/-! ## the crit handler list under each operation -/

theorem mem_of_mem_concat {a : ThreadId} (h : t ≠ a) (ha : a ∈ q ++ [t]) : a ∈ q :=
  (List.mem_append.mp ha).resolve_right fun hm => h (List.mem_singleton.mp hm).symm

/-- A thread-level step never finds the active thread linked. -/
theorem SwitchInv.notActive (h : SwitchInv k q) (hc : k.cpu.inHandlers = false) :
    k.activeThread ∉ q := fun ha => by simp [(h.linked ha).2] at hc

/-- More handlers on the list. -/
theorem SwitchInv.critInterruptPush (h : SwitchInv k q) (c : CritHandler) :
    SwitchInv (k.critInterruptPush c) q where
  linked ha := ⟨List.mem_cons_of_mem c (h.linked ha).1, (h.linked ha).2⟩
  blocked hb := ⟨List.mem_cons_of_mem c (h.blocked hb).1, (h.blocked hb).2⟩
  mutex hm := (h.mutex hm).imp_left (List.mem_cons_of_mem c)
  saved := h.saved

/-- After `SchedulerNeedsSwitch` a switch is owed, unless one is going on. -/
theorem SwitchInv.schedulerNeedsSwitch (h : SwitchInv k q) :
    SwitchInv k.schedulerNeedsSwitch q ∧
      (¬ k.cpu.switching → .scheduler ∈ k.schedulerNeedsSwitch.critList) := by
  unfold Kernel.schedulerNeedsSwitch
  split
  · next hm => exact ⟨h, fun hc => (h.mutex hm).resolve_right hc⟩
  · have hpush := h.critInterruptPush .scheduler
    exact ⟨⟨hpush.linked, hpush.blocked, fun _ => .inl List.mem_cons_self, h.saved⟩,
      fun _ => List.mem_cons_self⟩

/-- Everything but the contexts and the queue unchanged: threads other than the
active one may come and go. -/
theorem SwitchInv.congr {q' : List ThreadId} (h : SwitchInv k q)
    (ha : k'.activeThread = k.activeThread) (hcpu : k'.cpu = k.cpu)
    (hm : k'.schedulerMutex = k.schedulerMutex) (hl : k'.critList = k.critList)
    (hs : ∀ t, (k'.saved t).switching) (hc : k'.context k.activeThread = k.context k.activeThread)
    (hq : k.activeThread ∈ q' → k.activeThread ∈ q) : SwitchInv k' q' where
  linked := by rw [ha, hl, hcpu]; exact fun h' => h.linked (hq h')
  blocked := by rw [ha, hl, hcpu, hc]; exact h.blocked
  mutex := by rw [hm, hl, hcpu]; exact h.mutex
  saved := hs

/-- The active thread moves on without a switch. -/
theorem SwitchInv.cpu (h : SwitchInv k q) {c c' : Cpu} {p : Bool} (hc : k.cpu = c)
    (hin : c.inHandlers → c'.inHandlers) (hsw : c'.switching = c.switching) :
    SwitchInv { k with cpu := c', critPending := p } q where
  linked ha := ⟨(h.linked ha).1, hin (hc ▸ (h.linked ha).2)⟩
  blocked hb := ⟨(h.blocked hb).1, hsw ▸ hc ▸ (h.blocked hb).2⟩
  mutex hm := (h.mutex hm).imp_right fun hk => by rw [hsw, ← hc]; exact hk
  saved := h.saved

/-- `SchedulerCreateThread` of another thread. -/
theorem SwitchInv.createThread (h : SwitchInv k q) (ha : t ≠ k.activeThread) (start : Bool) :
    SwitchInv (k.createThread t start) (if start then q ++ [t] else q) := by
  have hsaved : ∀ u, (Function.update k.saved t .startup u).switching := fun u => by
    rw [Function.update_apply]
    split
    · rfl
    · exact h.saved u
  have hctx : Function.update k.context t .ready k.activeThread = k.context k.activeThread :=
    Function.update_of_ne (Ne.symm ha) ..
  unfold Kernel.createThread
  split
  · exact h.congr rfl rfl rfl rfl hsaved hctx (mem_of_mem_concat ha)
  · exact h.congr rfl rfl rfl rfl hsaved hctx id

/-- The active thread blocks on a lock. -/
theorem SwitchInv.blockOnLock (h : SwitchInv k q) (hc : k.cpu.switching = false) :
    SwitchInv k.blockOnLock q := by
  have hset : SwitchInv (k.setThread k.activeThread .blocked) q :=
    h.congr rfl rfl rfl rfl h.saved rfl id
  obtain ⟨hneeds, hmem⟩ := hset.schedulerNeedsSwitch
  have hcpu : (k.setThread k.activeThread .blocked).schedulerNeedsSwitch.cpu = k.cpu := by
    unfold Kernel.schedulerNeedsSwitch
    split <;> rfl
  refine ⟨hneeds.linked, fun _ => ⟨hmem ?_, ?_⟩, hneeds.mutex, hneeds.saved⟩
  · exact Bool.eq_false_iff.mp hc
  · show ¬ (k.setThread k.activeThread .blocked).schedulerNeedsSwitch.cpu.switching = true
    rw [hcpu, hc]
    exact Bool.false_ne_true

/-- `CritInterrupt` finds its list empty: no switch is owed. -/
theorem SwitchInv.pop_nil (h : SwitchInv k q) (hc : k.cpu = .critInterrupt) (hl : k.critList = []) :
    SwitchInv { k with cpu := .thread 0 } q := by
  have hnot : .scheduler ∉ k.critList := by simp [hl]
  refine ⟨fun ha => absurd (h.linked ha).1 hnot, fun hb => absurd (h.blocked hb).1 hnot,
    fun hm => ?_, h.saved⟩
  have hor := h.mutex hm
  rw [hc] at hor
  exact absurd (hor.resolve_right Bool.false_ne_true) hnot

/-- `CritInterrupt` pops a handler other than `SchedulerCritHandler`. -/
theorem SwitchInv.pop_other (h : SwitchInv k q) {c : Nat} {cs : List CritHandler}
    (hc : k.cpu = .critInterrupt) (hl : k.critList = .other c :: cs) :
    SwitchInv { k with critList := cs, cpu := .handler c } q := by
  have hmem : .scheduler ∈ k.critList → .scheduler ∈ cs := by simp [hl]
  refine ⟨fun ha => ⟨hmem (h.linked ha).1, rfl⟩,
    fun hb => ⟨hmem (h.blocked hb).1, Bool.false_ne_true⟩, fun hm => ?_, h.saved⟩
  have hor := h.mutex hm
  rw [hc] at hor
  exact .inl (hmem (hor.resolve_right Bool.false_ne_true))

/-- `SchedulerCritObject` is finished: the switch is over. -/
theorem SwitchInv.finish (h : SwitchInv k q) (hc : k.cpu.switching) {c : Cpu} :
    SwitchInv { k.postCritHandler with cpu := c } q := by
  have hin : k.cpu.inHandlers = false := by
    cases hcpu : k.cpu <;> rw [hcpu] at hc <;> first | rfl | exact absurd hc Bool.false_ne_true
  exact ⟨fun ha => absurd ha (h.notActive hin), fun hb => absurd hc (h.blocked hb).2,
    fun hm => absurd hm Bool.false_ne_true, h.saved⟩

/-! ## a switch -/

/-- The first half of `Schedule`: the active thread goes back into the queue. -/
theorem QueueInv.enqueue_active (h : QueueInv k q) (ha : ActiveAlone k) :
    ∃ l, IsList (k.enqueue k.activeThread).links (k.enqueue k.activeThread).runQueue l ∧
      ∀ t, t ∈ l ↔ t ∈ q ∨ t = k.activeThread := by
  by_cases hq : k.activeThread ∈ q
  · have hone := ha q h.list hq
    have hlist := h.list
    rw [hone] at hlist
    exact ⟨[k.activeThread], hlist.enqueue_alone, fun t => by simp [hone]⟩
  · exact ⟨q ++ [k.activeThread], h.list.enqueue hq, fun t => by simp⟩

/-- What is in the queue when `Schedule` picks the next thread: the runnable
threads, the active one among them. -/
theorem QueueInv.requeue (h : QueueInv k q) (ha : ActiveAlone k) :
    let k' := if k.activeThread ≠ idleThread ∧ k.thread k.activeThread = some .running then
      k.enqueue k.activeThread else k
    ∃ l, IsList k'.links k'.runQueue l ∧
      ∀ t, t ∈ l ↔ t ≠ idleThread ∧ k.thread t = some .running := by
  have hmem : ∀ t ∈ q, t ≠ idleThread ∧ k.thread t = some .running := fun t ht =>
    ⟨fun e => h.notIdle (e ▸ ht), h.running t ht⟩
  split
  · next hact =>
      obtain ⟨l, hl, hlq⟩ := h.enqueue_active ha
      refine ⟨l, hl, fun t => (hlq t).trans ⟨?_, fun ht => ?_⟩⟩
      · rintro (ht | rfl)
        · exact hmem t ht
        · exact hact
      · by_cases hta : t = k.activeThread
        · exact .inr hta
        · exact .inl (h.complete t ht.1 ht.2 hta)
  · next hact =>
      exact ⟨q, h.list, fun t => ⟨hmem t, fun ht =>
        h.complete t ht.1 ht.2 fun e => hact (e ▸ ht)⟩⟩

/-- `Schedule` writes the queue and `NextThread`. -/
theorem schedule_frame (k : Kernel) : k.schedule = { k with
    links := k.schedule.links
    runQueue := k.schedule.runQueue
    nextThread := k.schedule.nextThread } := by
  unfold Kernel.schedule
  split <;> dsimp only <;> split <;> rfl

/-- `Schedule` takes the next thread out of the queue, the idle thread when
there is none, and leaves the other runnable threads in it. -/
theorem QueueInv.schedule (h : QueueInv k q) (ha : ActiveAlone k) :
    ∃ t l, k.schedule.nextThread = some t ∧
      (t = idleThread ∨ k.thread t = some .running) ∧ t ∉ l ∧
      IsList k.schedule.links k.schedule.runQueue l ∧
      ∀ u, u ∈ l ↔ u ≠ idleThread ∧ k.thread u = some .running ∧ u ≠ t := by
  obtain ⟨l, hl, hmem⟩ := h.requeue ha
  unfold Kernel.schedule
  generalize (if k.activeThread ≠ idleThread ∧ k.thread k.activeThread = some .running then
    k.enqueue k.activeThread else k) = k' at hl ⊢
  obtain ⟨hpop, hrest⟩ := hl.pop
  match l with
  | [] =>
      have hnone := hl.head_eq_none.mpr rfl
      refine ⟨idleThread, [], ?_, .inl rfl, List.not_mem_nil, ?_, fun u => ?_⟩
      · simp [hnone, linkedListIsEmpty]
      · simpa [hnone, linkedListIsEmpty] using hl
      · have hu := hmem u
        simp only [List.not_mem_nil, false_iff] at hu ⊢
        exact fun hu' => hu ⟨hu'.1, hu'.2.1⟩
  | t :: l =>
      have hsome : linkedListIsEmpty k'.runQueue = false := by rw [hl.head_eq]; rfl
      have ht := (hmem t).mp List.mem_cons_self
      obtain ⟨htl, -⟩ := List.nodup_cons.mp hl.nodup
      refine ⟨t, l, ?_, .inr ht.2, htl, ?_, fun u => ?_⟩
      · simpa [hsome] using hpop
      · simpa [hsome] using hrest
      · have hu := hmem u
        rw [List.mem_cons] at hu
        constructor
        · intro hul
          have hut : u ≠ t := fun e => htl (e ▸ hul)
          have hrun := hu.mp (.inr hul)
          exact ⟨hrun.1, hrun.2, hut⟩
        · intro hu'
          exact (hu.mpr ⟨hu'.1, hu'.2.1⟩).resolve_left hu'.2.2

/-- **A switch keeps the invariant** and leaves the new active thread out of
the queue, when it finds the old one alone or not linked. -/
theorem QueueInv.switch (h : QueueInv k q) (hs : ∀ t, (k.saved t).switching)
    (ha : ActiveAlone k) :
    ∃ q', QueueInv k.schedule.schedulerSwitch q' ∧ SwitchInv k.schedule.schedulerSwitch q' ∧
      k.schedule.schedulerSwitch.activeThread ∉ q' := by
  obtain ⟨t, l, hnext, ht, htl, hlist, hmem⟩ := h.schedule ha
  have hframe := k.schedule_frame
  generalize k.schedule = k' at hnext hlist hframe ⊢
  have hact : k'.schedulerSwitch.activeThread = t := by simp [schedulerSwitch, hnext]
  have hthread : k'.schedulerSwitch.thread = k.thread := by rw [hframe]; rfl
  have hctx : k'.schedulerSwitch.context = k.context := by rw [hframe]; rfl
  have hready : k.context t ≠ .blocking := fun hb => by
    obtain ⟨hblk, hidle⟩ := h.waiting t hb
    obtain ht | ht := ht
    · exact hidle ht
    · simp [hblk] at ht
  have hsaved : ∀ u, (k'.schedulerSwitch.saved u).switching := fun u => by
    have hk : k'.saved = k.saved := by rw [hframe]
    simp only [schedulerSwitch, Function.update_apply, hk]
    split
    · rfl
    · exact hs u
  have hcpu : k'.schedulerSwitch.cpu.switching := by
    have hk : k'.saved = k.saved := by rw [hframe]
    simp only [schedulerSwitch, hk]
    split
    · rfl
    · exact hs _
  refine ⟨l, ⟨hlist, ?_, ?_, ?_, ?_⟩, ⟨?_, ?_, ?_, hsaved⟩, ?_⟩
  · rw [hthread]
    exact fun u hu => ((hmem u).mp hu).2.1
  · exact fun hi => ((hmem _).mp hi).1 rfl
  · rw [hthread, hact]
    exact fun u hi hr hu => (hmem u).mpr ⟨hi, hr, hu⟩
  · rw [hthread, hctx]
    exact h.waiting
  · rw [hact]
    exact fun hl => absurd hl htl
  · rw [hact, hctx]
    exact fun hb => absurd hb hready
  · exact fun _ => .inr hcpu
  · rw [hact]
    exact htl

/-- A switch that finds the active thread linked beside another one loses a
thread. -/
theorem QueueInv.not_switch (h : QueueInv k q) (ha : ¬ ActiveAlone k) :
    ¬ RunQueueOk k.schedule.schedulerSwitch := by
  obtain ⟨l, hl, hact, hne⟩ : ∃ l, IsList k.links k.runQueue l ∧ k.activeThread ∈ l ∧
      l ≠ [k.activeThread] := by
    simpa [ActiveAlone] using ha
  have hidle : k.activeThread ≠ idleThread := fun e =>
    h.notIdle (e ▸ h.list.subset hl hact)
  have hrun := h.running _ (h.list.subset hl hact)
  obtain ⟨u, hu, hnext, hlost⟩ := hl.enqueue_linked hact hne
  have huq := h.list.subset hl hu
  have hui : u ≠ idleThread := fun e => h.notIdle (e ▸ huq)
  have hsched : k.schedule =
      let r := linkedListEnqueue k.links k.activeThread k.runQueue
      let p := linkedListPop r.1 r.2
      { k with nextThread := p.1, links := p.2.1, runQueue := p.2.2 } := by
    have hcond : k.activeThread ≠ idleThread ∧ k.thread k.activeThread = some .running :=
      ⟨hidle, hrun⟩
    unfold Kernel.schedule
    rw [if_pos hcond]
    rfl
  rw [hsched]
  rintro ⟨l', hl', hcount, -⟩
  have hactive : u ≠ (linkedListPop (linkedListEnqueue k.links k.activeThread k.runQueue).1
      (linkedListEnqueue k.links k.activeThread k.runQueue).2).1.getD idleThread := by
    intro e
    cases hp : (linkedListPop (linkedListEnqueue k.links k.activeThread k.runQueue).1
      (linkedListEnqueue k.links k.activeThread k.runQueue).2).1 with
    | none => exact hui (by rw [e, hp]; rfl)
    | some v => exact hnext (by rw [hp, e, hp]; rfl)
  have hone := hcount u hui (h.running u huq) hactive
  exact hlost l' hl' (List.count_pos_iff.mp (by omega))

/-! ## every run -/

/-- A `pop` that switches, up to the crit handler's bookkeeping. -/
theorem Schedules.step_eq (hsch : Schedules k e) (h : QueueInv k q) :
    ∃ k₀ : Kernel, k.step e = some k₀.schedule.schedulerSwitch ∧ QueueInv k₀ q ∧
      k₀.saved = k.saved ∧ (ActiveAlone k₀ ↔ ActiveAlone k) := by
  obtain ⟨hs, -, -, hstep⟩ := hsch.step
  let r := handlerRun k.schedulerCritObject
  let k₀ := { k with critList := hs, schedulerCritObject := r.1 }.assert r.2
  exact ⟨k₀, hstep, h.congr rfl rfl rfl rfl rfl, rfl, Iff.rfl⟩

/-- In a state of the invariant, a switch leaves the run queue right exactly
when it does not find the active thread linked beside another one. -/
theorem scheduleOk_iff (h : QueueInv k q) (hs : SwitchInv k q) :
    ScheduleOk k e ↔ (Schedules k e → ActiveAlone k) := by
  refine forall_congr' fun hsch => ?_
  obtain ⟨k₀, hstep, h₀, hsv, halone⟩ := hsch.step_eq h
  simp only [hstep, Option.some.injEq, forall_eq', ← halone]
  constructor
  · intro hok
    by_contra ha
    exact h₀.not_switch ha hok
  · intro ha
    obtain ⟨q', hq', -, hnot⟩ := h₀.switch (hsv ▸ hs.saved) ha
    exact hq'.runQueueOk hnot

/-- Waking a thread that is not active. -/
theorem QueueInv.wakeOnLock (h : QueueInv k q) (hs : SwitchInv k q)
    (ha : t = k.activeThread → k.cpu.inHandlers) :
    ∃ q', QueueInv (k.wakeOnLock t) q' ∧ SwitchInv (k.wakeOnLock t) q' := by
  unfold Kernel.wakeOnLock
  split
  · exact ⟨q, h, hs⟩
  · next hctx =>
      obtain ⟨hb, hi⟩ := h.waiting t hctx
      have hready : (k.setContext t .ready).context t ≠ .blocking := by simp [Kernel.setContext]
      refine ⟨q ++ [t], (h.setContext (t := t)).resumeThread hb hready hi, ?_⟩
      by_cases hta : t = k.activeThread
      · -- The thread has not been switched out: the switch it asked for is still owed.
        subst hta
        have howed := (hs.blocked hctx).1
        refine ⟨fun _ => ⟨howed, ha rfl⟩, fun hb => ?_, hs.mutex, hs.saved⟩
        exact absurd hb hready
      · exact hs.congr rfl rfl rfl rfl hs.saved (Function.update_of_ne (Ne.symm hta) ..)
          (mem_of_mem_concat hta)
  · exact ⟨q, h.congr rfl rfl rfl rfl rfl, hs.congr rfl rfl rfl rfl hs.saved rfl id⟩

/-- A critical section is thread-level code. -/
theorem critical_cpu (h : k.critical) : k.cpu.inHandlers = false ∧ k.cpu.switching = false := by
  unfold critical at h
  split at h
  · next hc => simp [hc, Cpu.inHandlers, Cpu.switching]
  · exact absurd h Bool.false_ne_true

/-- **One step keeps the invariant**, if it does not find the active thread
linked beside another one when it switches. -/
theorem queueInv_step (h : QueueInv k q) (hs : SwitchInv k q) (ha : Schedules k e → ActiveAlone k)
    (hstep : k.step e = some k') : ∃ q', QueueInv k' q' ∧ SwitchInv k' q' := by
  cases step_takes hstep with
  | register c => exact ⟨q, h.congr rfl rfl rfl rfl rfl, hs.critInterruptPush (.other c)⟩
  | quantum | forceSwitch => exact ⟨q, h.schedulerNeedsSwitch, hs.schedulerNeedsSwitch.1⟩
  | moves hcpu hin hswitching =>
      exact ⟨q, h.congr rfl rfl rfl rfl rfl, hs.cpu hcpu hin hswitching⟩
  | createThread start hcritical hti hta hfree =>
      exact ⟨_, h.createThread hti hfree start, hs.createThread hta start⟩
  | block hcritical hai hrun hready =>
      obtain ⟨hhandlers, hswitching⟩ := critical_cpu hcritical
      exact ⟨q, h.blockOnLock hai hready (hs.notActive hhandlers), hs.blockOnLock hswitching⟩
  | wake hcritical hta => exact h.wakeOnLock hs fun hactive => absurd hactive hta
  | resume hcritical hti hta hblocked hready =>
      refine ⟨_, h.resumeThread hblocked (by simp [hready]) hti, ?_⟩
      exact hs.congr rfl rfl rfl rfl hs.saved rfl (mem_of_mem_concat hta)
  | exit hcritical hai hrun =>
      have hready : k.context k.activeThread ≠ .blocking := fun hb => by
        simp [(h.waiting _ hb).1] at hrun
      have hnot := hs.notActive (critical_cpu hcritical).1
      exact ⟨q, (h.setThread (s := .done) (by simp) hnot hready).congr rfl rfl rfl rfl rfl,
        hs.congr rfl rfl rfl rfl hs.saved rfl id⟩
  | popNil hcpu hlist => exact ⟨q, h.congr rfl rfl rfl rfl rfl, hs.pop_nil hcpu hlist⟩
  | popOther hcpu hlist => exact ⟨q, h.congr rfl rfl rfl rfl rfl, hs.pop_other hcpu hlist⟩
  | popScheduler hcpu hlist =>
      have hsch := schedules_pop hcpu hlist
      obtain ⟨k₀, hstep₀, h₀, hsv, halone⟩ := hsch.step_eq h
      rw [hstep₀] at hstep
      obtain ⟨q', hq', hs', -⟩ := h₀.switch (hsv ▸ hs.saved) (halone.mpr (ha hsch))
      exact Option.some.inj hstep ▸ ⟨q', hq', hs'⟩
  | handlerWake hhandlers => exact h.wakeOnLock hs fun _ => hhandlers
  | finish hbefore hafter => exact ⟨q, h.congr rfl rfl rfl rfl rfl, hs.finish hbefore⟩

/-- **The run queue.**  Along every run from startup, whatever crit handlers
are pushed and in whatever order they run: the run queue is right after every
switch exactly when no switch finds the active thread linked in the queue
together with another thread. -/
theorem scheduleOk_iff_activeAlone (es : List Step) :
    Along step ScheduleOk schedulerStartup es ↔
      Along step (fun k e => Schedules k e → ActiveAlone k) schedulerStartup es := by
  refine along_congr (I := fun k => ∃ q, QueueInv k q ∧ SwitchInv k q) ?_ ?_
    ⟨[], queueInv_startup, switchInv_startup⟩
  · rintro k e ⟨q, h, hs⟩
    exact scheduleOk_iff h hs
  · rintro k e k' ⟨q, h, hs⟩ ha hstep
    exact queueInv_step h hs ha hstep

/-- Threads 1 and 2 are created; 1 runs and blocks; a crit handler registered
before 1 leaves its critical section wakes it; then `SchedulerCritHandler`
runs. -/
def wakeBeforeSwitch : List Step :=
  [.createThread 1 true, .createThread 2 true, .forceSwitch, .endCritical, .deliver, .pop, .finish,
    .startCritical, .block, .register 0, .endCritical, .deliver, .pop, .handlerWake 1,
    .handlerReturn]

/-- The switch after `wakeBeforeSwitch` goes back to thread 1 and leaves the
run queue empty: thread 2 is runnable and lost. -/
theorem schedule_loses_thread :
    ¬ Along step ScheduleOk schedulerStartup (wakeBeforeSwitch ++ [.pop]) := by
  intro h
  have hrun : (exec step schedulerStartup wakeBeforeSwitch).isSome := by decide
  have hat := h.at_step (Option.some_get hrun).symm
  have hnext : (((exec step schedulerStartup wakeBeforeSwitch).get hrun).step .pop).isSome := rfl
  obtain ⟨q, hlist, hcount, -⟩ := hat ⟨rfl, rfl⟩ _ (Option.some_get hnext).symm
  have hq : q = [] := hlist.head_eq_none.mp rfl
  have hone := hcount 2 (by decide) rfl (show (2 : Nat) ≠ 1 by decide)
  rw [hq] at hone
  exact absurd hone (by decide)

end Kernel

end KernelPanic
