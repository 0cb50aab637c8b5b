import KernelPanic.Kernel.Scheduler.RunQueue
import Mathlib.Data.Set.Card

/-!
# KernelPanic.Kernel.Scheduler.Shutdown

When the kernel goes down.  `SchedulerShutdown` only leaves a note; it is the last thread
to exit that calls `HalShutdownNow`, which it knows by `RunningThreads`, the number of
threads created and not done, the idle thread included.
-/

namespace KernelPanic

open Run Kernel

/-- The kernel and `Shutdown`. -/
structure ShutdownRun where
  kernel : Kernel
  shutdown : Bool
  /-- `HalShutdownNow` has been called, and does not return. -/
  halted : Bool

/-- What can happen: a step of the kernel, or a call of `SchedulerShutdown`. -/
inductive ShutdownOp where
  | kernel (e : Step)
  /-- The active thread calls `SchedulerShutdown`. -/
  | schedulerShutdown
deriving DecidableEq

namespace ShutdownRun

/-- `SchedulerStartup`. -/
def start : ShutdownRun := ⟨schedulerStartup, false, false⟩

/-- One event; `none` when it cannot happen. -/
def step (s : ShutdownRun) (op : ShutdownOp) : Option ShutdownRun :=
  if s.halted then none
  else
    match op with
    | .kernel e =>
        (s.kernel.step e).map fun k =>
          { s with kernel := k, halted := e = .exit && s.shutdown && k.runningThreads = 1 }
    | .schedulerShutdown =>
        if s.kernel.critical ∧ (s.kernel.activeThread = idleThread ∨
            s.kernel.thread s.kernel.activeThread = some .running) then
          some { s with shutdown := true }
        else none

/-- `SchedulerShutdown` is called by a thread that will exit. -/
def ByThread (s : ShutdownRun) (op : ShutdownOp) : Prop :=
  op = .schedulerShutdown → s.kernel.activeThread ≠ idleThread

instance (s : ShutdownRun) (op : ShutdownOp) : Decidable (s.ByThread op) :=
  inferInstanceAs (Decidable (_ → _))

end ShutdownRun

/-! ## the threads that are not done -/

namespace Kernel

variable {k k' : Kernel} {t u : ThreadId} {e : Step}

/-- The threads that have been created and are not done. -/
def live (k : Kernel) : Set ThreadId :=
  {t | t ≠ idleThread ∧ (k.thread t = some .running ∨ k.thread t = some .blocked)}

/-- A thread that is created is alive. -/
theorem live_insert (hthread : k'.thread = Function.update k.thread t (some .running) ∨
    k'.thread = Function.update k.thread t (some .blocked)) (ht : t ≠ idleThread) :
    k'.live = insert t k.live := by
  ext u
  obtain rfl | hut := eq_or_ne u t
  · obtain hthread | hthread := hthread <;> simp [live, hthread, ht]
  · obtain hthread | hthread := hthread <;> simp [live, hthread, hut]

/-- A thread that is done is not alive. -/
theorem live_diff (hthread : k'.thread = Function.update k.thread t (some .done)) :
    k'.live = k.live \ {t} := by
  ext u
  obtain rfl | hut := eq_or_ne u t
  · simp [live, hthread]
  · simp [live, hthread, hut]

/-- The invariant. -/
structure LiveInv (k : Kernel) : Prop where
  finite : k.live.Finite
  count : k.runningThreads = k.live.ncard + 1
  waiting : ∀ t, k.context t = .blocking → k.thread t = some .blocked ∧ t ≠ idleThread

/-- The idle thread alone is alive. -/
theorem liveInv_startup : LiveInv schedulerStartup := by
  have hlive : schedulerStartup.live = ∅ := by
    ext t
    simp [live, schedulerStartup]
  refine ⟨?_, ?_, fun t ht => by cases ht⟩
  · rw [hlive]
    exact Set.finite_empty
  · rw [hlive, Set.ncard_empty]
    rfl

/-- The threads are as they were. -/
theorem LiveInv.congr (h : LiveInv k) (hthread : k'.thread = k.thread)
    (hcontext : k'.context = k.context) (hrunning : k'.runningThreads = k.runningThreads) :
    LiveInv k' ∧ k.live ⊆ k'.live := by
  have hlive : k'.live = k.live := by rw [live, live, hthread]
  refine ⟨⟨hlive ▸ h.finite, by rw [hlive, hrunning]; exact h.count, ?_⟩, hlive.ge⟩
  rw [hthread, hcontext]
  exact h.waiting

/-- A thread that is not done changes its state. -/
theorem LiveInv.changes (h : LiveInv k) (ht : t ∈ k.live)
    (hthread : k'.thread = Function.update k.thread t (some .running) ∨
      k'.thread = Function.update k.thread t (some .blocked))
    (hrunning : k'.runningThreads = k.runningThreads)
    (hcontext : ∀ u ≠ t, k'.context u = k.context u)
    (hself : k'.context t = .blocking → k'.thread t = some .blocked) :
    LiveInv k' ∧ k.live ⊆ k'.live := by
  have hlive : k'.live = k.live := by rw [live_insert hthread ht.1, Set.insert_eq_of_mem ht]
  refine ⟨⟨hlive ▸ h.finite, by rw [hlive, hrunning]; exact h.count, fun u hu => ?_⟩, hlive.ge⟩
  obtain rfl | hut := eq_or_ne u t
  · exact ⟨hself hu, ht.1⟩
  · rw [hcontext u hut] at hu
    have hsame : k'.thread u = k.thread u := by
      obtain hthread | hthread := hthread <;> rw [hthread, Function.update_of_ne hut]
    rw [hsame]
    exact h.waiting u hu

/-- A switch that is asked for leaves the threads alive. -/
theorem LiveInv.schedulerNeedsSwitch (h : LiveInv k) :
    LiveInv k.schedulerNeedsSwitch ∧ k.live ⊆ k.schedulerNeedsSwitch.live := by
  unfold Kernel.schedulerNeedsSwitch
  split <;> exact h.congr rfl rfl rfl

/-- A thread that is woken is alive. -/
theorem LiveInv.wakeOnLock (h : LiveInv k) :
    LiveInv (k.wakeOnLock t) ∧ k.live ⊆ (k.wakeOnLock t).live := by
  unfold Kernel.wakeOnLock
  split
  · exact ⟨h, subset_rfl⟩
  · next hctx =>
      obtain ⟨hb, hi⟩ := h.waiting t hctx
      refine h.changes ⟨hi, .inr hb⟩ (.inl rfl) rfl (fun u hu => Function.update_of_ne hu ..)
        fun hself => ?_
      have hready : (k.setContext t .ready).context t = .ready := Function.update_self ..
      rw [show ((k.setContext t .ready).resumeThread t).context t = _ from hready] at hself
      cases hself
  · exact h.congr rfl rfl rfl

/-- A thread that is created is counted. -/
theorem LiveInv.createThread (h : LiveInv k) (hi : t ≠ idleThread)
    (ht : k.thread t = none ∨ k.thread t = some .done) (start : Bool) :
    LiveInv (k.createThread t start) ∧ k.live ⊆ (k.createThread t start).live := by
  have hnot : t ∉ k.live := fun hl => by
    obtain ht | ht := ht <;> simp [live, ht] at hl
  have hthread : (k.createThread t start).thread = Function.update k.thread t (some .running) ∨
      (k.createThread t start).thread = Function.update k.thread t (some .blocked) := by
    unfold Kernel.createThread
    split
    · exact .inl rfl
    · exact .inr rfl
  have hcontext : (k.createThread t start).context = Function.update k.context t .ready := by
    unfold Kernel.createThread
    split <;> rfl
  have hrunning : (k.createThread t start).runningThreads = k.runningThreads + 1 := by
    unfold Kernel.createThread
    split <;> rfl
  have hlive := live_insert hthread hi
  refine ⟨⟨?_, ?_, fun u hu => ?_⟩, ?_⟩
  · rw [hlive]
    exact h.finite.insert t
  · rw [hlive, hrunning, Set.ncard_insert_of_notMem hnot h.finite, h.count]
  · obtain rfl | hut := eq_or_ne u t
    · simp [hcontext] at hu
    · rw [hcontext, Function.update_of_ne hut] at hu
      have hsame : (k.createThread t start).thread u = k.thread u := by
        obtain hthread | hthread := hthread <;> rw [hthread, Function.update_of_ne hut]
      rw [hsame]
      exact h.waiting u hu
  · rw [hlive]
    exact Set.subset_insert t _

/-- A thread exits: there is one less. -/
theorem LiveInv.exitThread (h : LiveInv k) (hi : k.activeThread ≠ idleThread)
    (hrun : k.thread k.activeThread = some .running) :
    LiveInv k.exitThread ∧ k.exitThread.live = k.live \ {k.activeThread} := by
  have hlive : k.exitThread.live = k.live \ {k.activeThread} := live_diff rfl
  have hmem : k.activeThread ∈ k.live := ⟨hi, .inl hrun⟩
  have hpos := Set.ncard_pos h.finite |>.mpr ⟨_, hmem⟩
  refine ⟨⟨?_, ?_, fun u hu => ?_⟩, hlive⟩
  · rw [hlive]
    exact h.finite.sdiff
  · rw [hlive, Set.ncard_sdiff_singleton_of_mem hmem]
    show k.runningThreads - 1 = _
    rw [h.count]
    omega
  · obtain ⟨hb, hui⟩ := h.waiting u hu
    have hua : u ≠ k.activeThread := fun hua => by
      rw [hua, hrun] at hb
      cases hb
    exact ⟨(Function.update_of_ne hua ..).trans hb, hui⟩

/-- A switch changes no thread. -/
theorem schedule_threads : k.schedule.schedulerSwitch.thread = k.thread ∧
    k.schedule.schedulerSwitch.context = k.context ∧
    k.schedule.schedulerSwitch.runningThreads = k.runningThreads := by
  unfold Kernel.schedule
  split <;> dsimp only <;> split <;> exact ⟨rfl, rfl, rfl⟩

/-- A thread that blocks is alive. -/
theorem LiveInv.blockOnLock (h : LiveInv k) (hi : k.activeThread ≠ idleThread)
    (hrun : k.thread k.activeThread = some .running) :
    LiveInv k.blockOnLock ∧ k.live ⊆ k.blockOnLock.live := by
  have hthread : k.blockOnLock.thread = Function.update k.thread k.activeThread (some .blocked) := by
    unfold Kernel.blockOnLock Kernel.schedulerNeedsSwitch
    split <;> rfl
  have hcontext : k.blockOnLock.context = Function.update k.context k.activeThread .blocking := by
    unfold Kernel.blockOnLock Kernel.schedulerNeedsSwitch
    split <;> rfl
  have hrunning : k.blockOnLock.runningThreads = k.runningThreads := by
    unfold Kernel.blockOnLock Kernel.schedulerNeedsSwitch
    split <;> rfl
  refine h.changes ⟨hi, .inl hrun⟩ (.inr hthread) hrunning (fun u hu => ?_) fun _ => ?_
  · rw [hcontext, Function.update_of_ne hu]
  · rw [hthread, Function.update_self]

/-- A thread that is resumed is alive. -/
theorem LiveInv.resumeThread (h : LiveInv k) (hi : t ≠ idleThread)
    (hb : k.thread t = some .blocked) (hready : k.context t = .ready) :
    LiveInv (k.resumeThread t) ∧ k.live ⊆ (k.resumeThread t).live := by
  refine h.changes ⟨hi, .inr hb⟩ (.inl rfl) rfl (fun u _ => rfl) fun hself => ?_
  rw [show (k.resumeThread t).context t = _ from hready] at hself
  cases hself

/-- **One step**: no thread is forgotten, and none ceases to be live but by its exit. -/
theorem LiveInv.step (h : LiveInv k) (hstep : Kernel.step k e = some k') :
    LiveInv k' ∧ (e ≠ .exit → k.live ⊆ k'.live) := by
  have keeps : LiveInv k' ∧ k.live ⊆ k'.live → LiveInv k' ∧ (e ≠ .exit → k.live ⊆ k'.live) :=
    And.imp_right fun hsub _ => hsub
  cases step_takes hstep with
  | register | moves | popNil | popOther | finish => exact keeps (h.congr rfl rfl rfl)
  | quantum | forceSwitch => exact keeps h.schedulerNeedsSwitch
  | createThread start hcritical hi hactive hfree => exact keeps (h.createThread hi hfree start)
  | block hcritical hi hrun => exact keeps (h.blockOnLock hi hrun)
  | wake | handlerWake => exact keeps h.wakeOnLock
  | resume hcritical hi hactive hb hready => exact keeps (h.resumeThread hi hb hready)
  | exit hcritical hi hrun => exact ⟨(h.exitThread hi hrun).1, fun hne => absurd rfl hne⟩
  | popScheduler =>
      obtain ⟨hthread, hcontext, hrunning⟩ := schedule_threads
        (k := ({ k with critList := _, schedulerCritObject := _ } : Kernel).assert _)
      exact keeps (h.congr hthread hcontext hrunning)

end Kernel

/-! ## every run -/

/-- What the shutdown promises. -/
structure ShutdownOk (s : ShutdownRun) : Prop where
  /-- `RunningThreads` counts the threads that are not done, and the idle thread. -/
  count : s.kernel.runningThreads = s.kernel.live.ncard + 1
  /-- The kernel only goes down when it has been told to and all threads are done. -/
  safe : s.halted = true → s.shutdown = true ∧ s.kernel.live = ∅
  /-- Once it has been told to, it is down when all threads are done. -/
  prompt : s.shutdown = true → s.kernel.live = ∅ → s.halted = true

namespace ShutdownRun

variable {s s' : ShutdownRun} {op : ShutdownOp}

/-- The invariant. -/
structure Inv (s : ShutdownRun) : Prop where
  live : Kernel.LiveInv s.kernel
  safe : s.halted = true → s.shutdown = true ∧ s.kernel.live = ∅
  prompt : s.shutdown = true → s.kernel.live = ∅ → s.halted = true

/-- The scheduler has started. -/
theorem inv_start : Inv start where
  live := liveInv_startup
  safe h := by cases h
  prompt h := by cases h

/-- The last thread finds the count at one, and only the last. -/
theorem runningThreads_eq_one_iff {k : Kernel} (h : Kernel.LiveInv k) :
    k.runningThreads = 1 ↔ k.live = ∅ := by
  rw [h.count, Nat.add_eq_right, Set.ncard_eq_zero h.finite]

/-- **One step** keeps the invariant. -/
theorem Inv.step (h : Inv s) (hthread : s.ByThread op) (hstep : ShutdownRun.step s op = some s') :
    Inv s' := by
  obtain ⟨hnot, hstep⟩ := Option.ite_none_left_eq_some.mp hstep
  cases op with
  | kernel e =>
      obtain ⟨k, hk, rfl⟩ := Option.map_eq_some_iff.mp hstep
      obtain ⟨hlive, hsub⟩ := h.live.step hk
      refine ⟨hlive, fun hhalted => ?_, fun hshutdown hempty => ?_⟩
      · simp only [Bool.and_eq_true, decide_eq_true_eq] at hhalted
        exact ⟨hhalted.1.2, (runningThreads_eq_one_iff hlive).mp hhalted.2⟩
      · -- the step that leaves no thread is an exit: before it the kernel was not down
        have hexit : e = .exit := by
          by_contra he
          exact hnot (h.prompt hshutdown (Set.subset_eq_empty (hsub he) hempty))
        have hone := (runningThreads_eq_one_iff hlive).mpr hempty
        have hshutdown : s.shutdown = true := hshutdown
        simp [hexit, hshutdown, hone]
  | schedulerShutdown =>
      obtain ⟨⟨-, hactive⟩, hstep⟩ := Option.ite_none_right_eq_some.mp hstep
      cases hstep
      have hidle := hthread rfl
      have hmem : s.kernel.activeThread ∈ s.kernel.live := ⟨hidle, .inl (hactive.resolve_left hidle)⟩
      refine ⟨h.live, fun hhalted => absurd hhalted hnot, fun _ hempty => ?_⟩
      have hempty : s.kernel.live = ∅ := hempty
      rw [hempty] at hmem
      exact hmem.elim

end ShutdownRun

/-- **Shutdown is exact**: the kernel goes down after `SchedulerShutdown` when the last
thread is done, and not before. -/
theorem scheduler_shutdown {ops : List ShutdownOp} {s : ShutdownRun}
    (hthread : Along ShutdownRun.step ShutdownRun.ByThread .start ops)
    (h : exec ShutdownRun.step .start ops = some s) : ShutdownOk s := by
  have hinv := exec_induction (I := ShutdownRun.Inv) (fun _ _ _ hinv hop hstep => hinv.step hop hstep)
    ShutdownRun.inv_start hthread h
  exact ⟨hinv.live.count, hinv.safe, hinv.prompt⟩

/-- Thread 1 asks for the shutdown and exits; thread 2 is the last. -/
def sampleShutdown : List ShutdownOp :=
  [.kernel (.createThread 1 true), .kernel (.createThread 2 true), .kernel .forceSwitch,
    .kernel .endCritical, .kernel .deliver, .kernel .pop, .kernel .finish, .kernel .startCritical,
    .schedulerShutdown, .kernel .exit, .kernel .forceSwitch, .kernel .endCritical, .kernel .deliver,
    .kernel .pop, .kernel .finish, .kernel .startCritical, .kernel .exit]

theorem scheduler_shutdown_sample :
    ∃ s, exec ShutdownRun.step .start sampleShutdown = some s ∧ s.halted = true ∧ ShutdownOk s := by
  have hthread : Along ShutdownRun.step ShutdownRun.ByThread .start sampleShutdown := by
    decide +kernel
  have hend : (exec ShutdownRun.step .start sampleShutdown).map (·.halted) = some true := by
    decide +kernel
  obtain ⟨s, hs, hhalted⟩ := Option.map_eq_some_iff.mp hend
  exact ⟨s, hs, hhalted, scheduler_shutdown hthread hs⟩

end KernelPanic
