import KernelPanic.Kernel.Semaphore
import KernelPanic.Lib.Run

/-!
# KernelPanic.Kernel.Worker

The work queue of `kernel/worker.c`: one worker thread takes items off
`queue->List`, and `queue->Lock`, a semaphore, is to tell it how many there are.

The two are not updated together.  `WorkerAddItem` calls `SemaphoreUp` first and
enqueues the item in a critical section of its own; a producer thread can be
preempted between the two, while a crit handler or a lock that wakes an item
cannot.  And an item that returns `WORKER_PENDED` is enqueued with no
`SemaphoreUp` at all.  `WorkerInv.count` is the balance that remains, and both
results are read off it: `worker_pops_iff`, when the worker finds the list empty
after `SemaphoreDown` has let it through, and `worker_stranded_iff`, when it
sleeps on a list that is not.

An item is enqueued only while it is in no list: it is added when it is free, and
woken when it waits for a lock.
-/

namespace KernelPanic

open Run

variable {ι : Type*} [DecidableEq ι]

/-- `enum WORKER_RETURN`. -/
inductive WorkerReturn where
  | pended
  | blocked
  | finished
deriving DecidableEq

/-- Where `WorkerThreadMain` is. -/
inductive WorkerPc (ι : Type*) where
  /-- `SemaphoreDown(&queue->Lock, NULL)` is next. -/
  | down
  /-- `SemaphoreDown` was called; when it has let the thread through,
  `LinkedListPop` is next. -/
  | pop
  /-- `item->Foo(item)` runs. -/
  | run (item : ι)
  /-- It returned `WORKER_PENDED`; `LinkedListEnqueue` is next. -/
  | pend (item : ι)
  /-- `ASSERT(link != NULL)` has failed. -/
  | failed
deriving DecidableEq

/-- A `WORKER_QUEUE` and its users.  The contexts are the worker thread's, `none`,
and those of the items. -/
structure WorkerRun (ι : Type*) where
  world : Contexts (Option ι)
  list : List ι
  lock : Semaphore (Option ι)
  finished : ι → Bool
  pc : WorkerPc ι
  /-- The items with which a thread has entered `WorkerAddItem`. -/
  entered : List ι
  /-- Those for which it has called `SemaphoreUp` and not enqueued them yet. -/
  raised : List ι
  /-- How many items were enqueued as pended. -/
  pends : ℕ

inductive WorkerOp (ι : Type*) where
  /-- A thread calls `WorkerInitItem`, which calls `WorkerAddItem`. -/
  | init (item : ι)
  /-- It calls `SemaphoreUp`. -/
  | raise (item : ι)
  /-- It enqueues the item. -/
  | enqueue (item : ι)
  /-- A crit handler calls `WorkerInitItem`. -/
  | critInit (item : ι)
  /-- The worker calls `SemaphoreDown`. -/
  | down
  /-- The worker calls `LinkedListPop`. -/
  | pop
  /-- The running item finds a lock taken. -/
  | block
  /-- The running item is granted a lock at once. -/
  | acquire
  /-- The running item calls `LockingIsAcquired`. -/
  | isAcquired
  /-- A lock is granted to an item that waits for it. -/
  | wake (item : ι)
  /-- The running item returns. -/
  | ret (result : WorkerReturn)
  /-- The worker enqueues a pended item. -/
  | pend
deriving DecidableEq

namespace WorkerRun

/-- `WorkerCreateWorker`. -/
def workerCreateWorker (world : Contexts (Option ι)) (finished : ι → Bool) : WorkerRun ι where
  world := { world with
    context := Function.update world.context none ⟨.ready, .shared, .thread⟩
    thread := Function.update world.thread none .running }
  list := []
  lock := semaphoreInit 0
  finished := finished
  pc := .down
  entered := []
  raised := []
  pends := 0

/-- The worker thread can execute. -/
def Runs (s : WorkerRun ι) : Prop :=
  (s.world.context none).state = .ready ∧ s.world.thread none = .running

instance (s : WorkerRun ι) : Decidable s.Runs := inferInstanceAs (Decidable (_ ∧ _))

/-- The item is in no list and nobody is about to put it in one. -/
def Free (s : WorkerRun ι) (i : ι) : Prop :=
  i ∉ s.list ∧ i ∉ s.entered ∧ i ∉ s.raised ∧ s.pc ≠ .run i ∧ s.pc ≠ .pend i ∧
    (s.world.context (some i)).state ≠ .blocking

instance (s : WorkerRun ι) (i : ι) : Decidable (s.Free i) :=
  inferInstanceAs (Decidable (_ ∧ _ ∧ _ ∧ _ ∧ _ ∧ _))

/-- `WorkerInitItem`, up to its call of `WorkerAddItem`. -/
def initItem (s : WorkerRun ι) (i : ι) : WorkerRun ι :=
  let context := { s.world.context (some i) with
    state := .ready
    kind := .worker }
  { s with world := { s.world with context := Function.update s.world.context (some i) context } }

/-- `SemaphoreUp(&queue->Lock)`, in `WorkerAddItem`. -/
def raise (s : WorkerRun ι) : WorkerRun ι :=
  let r := semaphoreUp s.world s.lock
  { s with world := r.1, lock := r.2 }

/-- The critical section of `WorkerAddItem`. -/
def enqueue (s : WorkerRun ι) (i : ι) : WorkerRun ι :=
  { s with finished := Function.update s.finished i false, list := s.list ++ [i] }

/-- `WorkerAddItem`, undisturbed. -/
def workerAddItem (s : WorkerRun ι) (i : ι) : WorkerRun ι := s.raise.enqueue i

/-- The critical section of `WorkerGetItem`, and the `ASSERT`s behind it. -/
def pop (s : WorkerRun ι) : WorkerRun ι :=
  match s.list with
  | [] => { s with pc := .failed }
  | i :: rest =>
      { s with list := rest, pc := .run i, world := s.world.assert (!s.finished i) }

def step (s : WorkerRun ι) : WorkerOp ι → Option (WorkerRun ι)
  | .init i => if s.Free i then some { s.initItem i with entered := i :: s.entered } else none
  | .raise i =>
      if i ∈ s.entered then
        some { s.raise with entered := s.entered.erase i, raised := i :: s.raised }
      else none
  | .enqueue i =>
      if i ∈ s.raised then some { s.enqueue i with raised := s.raised.erase i } else none
  | .critInit i => if s.Free i then some ((s.initItem i).workerAddItem i) else none
  | .down =>
      if s.Runs ∧ s.pc = .down then
        let r := semaphoreDown s.world s.lock none
        some { s with world := r.1, lock := r.2, pc := .pop }
      else none
  | .pop => if s.Runs ∧ s.pc = .pop then some s.pop else none
  | .block =>
      match s.pc with
      | .run i =>
          if s.Runs ∧ i ∉ s.list ∧ (s.world.context (some i)).state = .ready then
            some { s with world := lockingBlock s.world none (some i) }
          else none
      | _ => none
  | .acquire =>
      match s.pc with
      | .run i =>
          if s.Runs ∧ (s.world.context (some i)).state = .ready then
            some { s with world := lockingAcquire s.world (some i) }
          else none
      | _ => none
  | .isAcquired =>
      match s.pc with
      | .run i =>
          if s.Runs ∧ (s.world.context (some i)).state ≠ .ready then
            some { s with world := (lockingIsAcquired s.world (some i)).1 }
          else none
      | _ => none
  | .wake i =>
      -- `WorkerWakeOnLock`, in the critical section of the lock's owner
      if (s.world.context (some i)).state = .blocking then
        let woken := { s with world := lockingAcquire s.world (some i) }
        some (woken.workerAddItem i)
      else none
  | .ret result =>
      match s.pc with
      | .run i =>
          if s.Runs then
            match result with
            | .finished => some { s with finished := Function.update s.finished i true, pc := .down }
            | .blocked => some { s with pc := .down }
            | .pended =>
                if i ∉ s.list ∧ (s.world.context (some i)).state ≠ .blocking then
                  some { s with pc := .pend i }
                else none
          else none
      | _ => none
  | .pend =>
      match s.pc with
      | .pend i =>
          if s.Runs then
            some { s with list := s.list ++ [i], pends := s.pends + 1, pc := .down }
          else none
      | _ => none

/-- The grants of `queue->Lock` that no pop has consumed: its `Count`, and the
worker's own once it was let through. -/
def grants (s : WorkerRun ι) : ℕ :=
  s.lock.count + if s.pc = .pop ∧ s.lock.waitingThreads = [] then 1 else 0

end WorkerRun

open WorkerRun

variable {w : Contexts (Option ι)} {s s' : WorkerRun ι} {i : ι} {op : WorkerOp ι}

/-! ## the worker's own context -/

theorem lockingAcquire_context_none (w : Contexts (Option ι)) (i : ι) :
    (lockingAcquire w (some i)).context none = w.context none := by
  cases hk : (w.context (some i)).kind <;> cases hs : (w.context (some i)).state <;>
  simp [lockingAcquire, schedulerWakeOnLock, schedulerResumeThread, lockingWakeNonBlocking,
    workerWakeOnLock, Contexts.assert, Contexts.panic, Contexts.setState, Contexts.setThread, hk, hs]

theorem lockingBlock_context_none (w : Contexts (Option ι)) (i : ι) :
    (lockingBlock w none (some i)).context none = w.context none := by
  cases hk : (w.context (some i)).kind <;>
  simp [lockingBlock, schedulerBlockOnLock, Contexts.assert, Contexts.setState, Contexts.setThread,
    hk]

theorem lockingIsAcquired_context_none (w : Contexts (Option ι)) (i : ι) :
    (lockingIsAcquired w (some i)).1.context none = w.context none := by
  cases hs : (w.context (some i)).state <;>
  simp [lockingIsAcquired, Contexts.panic, Contexts.setState, hs]

theorem lockingBlock_state (w : Contexts (Option ι)) :
    ((lockingBlock w none none).context none).state = .blocking := by
  simp [lockingBlock, Contexts.setState]

/-! ## the balance -/

/-- The worker sleeps in `SemaphoreDown`. -/
structure Sleeps (s : WorkerRun ι) : Prop where
  waiting : s.lock.waitingThreads = [none]
  pc : s.pc = .pop
  count : s.lock.count = 0
  state : (s.world.context none).state = .blocking

structure WorkerInv (s : WorkerRun ι) : Prop where
  waits : s.lock.waitingThreads = [] ∨ Sleeps s
  /-- Every item that was announced is granted once, and pended items are not
  announced. -/
  count : s.pc ≠ .failed → s.list.length + s.raised.length = s.grants + s.pends

omit [DecidableEq ι] in
theorem Sleeps.of_eq (h : Sleeps s) (hlock : s'.lock = s.lock) (hpc : s'.pc = s.pc)
    (hctx : s'.world.context none = s.world.context none) : Sleeps s' :=
  ⟨hlock ▸ h.waiting, hpc.trans h.pc, hlock ▸ h.count, hctx ▸ h.state⟩

omit [DecidableEq ι] in
theorem Sleeps.not_runs (h : Sleeps s) : ¬ s.Runs := fun hruns => by
  have hready := hruns.1
  rw [h.state] at hready
  cases hready

theorem WorkerInv.waiting_eq_nil (h : WorkerInv s) (hruns : s.Runs) : s.lock.waitingThreads = [] :=
  h.waits.resolve_right fun hs => hs.not_runs hruns

/-- Only the worker's last statement before `LinkedListPop` counts. -/
theorem grants_of_pc (hpc : s.pc ≠ .pop) : s.grants = s.lock.count := by
  simp [grants, hpc]

theorem grants_of_pop (hpc : s.pc = .pop) (hl : s.lock.waitingThreads = []) :
    s.grants = s.lock.count + 1 := by
  simp [grants, hpc, hl]

theorem Sleeps.grants_eq (h : Sleeps s) : s.grants = 0 := by
  simp [grants, h.waiting, h.count]

/-- A step in which the worker does not take part. -/
theorem WorkerInv.of_eq (h : WorkerInv s) (hlock : s'.lock = s.lock) (hpc : s'.pc = s.pc)
    (hctx : s'.world.context none = s.world.context none) (hpends : s'.pends = s.pends)
    (hlen : s'.list.length + s'.raised.length = s.list.length + s.raised.length) :
    WorkerInv s' := by
  have hgrants : s'.grants = s.grants := by rw [grants, grants, hlock, hpc]
  refine ⟨h.waits.imp (fun hl => hlock ▸ hl) fun hs => hs.of_eq hlock hpc hctx, fun hne => ?_⟩
  rw [hlen, hgrants, hpends]
  exact h.count (hpc ▸ hne)

/-- A statement of the worker, which runs, before and after which it is not at
its pop. -/
theorem WorkerInv.of_runs (h : WorkerInv s) (hruns : s.Runs) (hlock : s'.lock = s.lock)
    (hpc : s.pc ≠ .pop) (hpc' : s'.pc ≠ .pop) (hne : s.pc ≠ .failed)
    (hlen : s'.list.length + s'.raised.length + s.pends =
      s.list.length + s.raised.length + s'.pends) : WorkerInv s' := by
  have hcount := h.count hne
  rw [grants_of_pc hpc] at hcount
  refine ⟨.inl (hlock ▸ h.waiting_eq_nil hruns), fun _ => ?_⟩
  rw [grants_of_pc hpc', hlock]
  omega

/-- **`SemaphoreUp`** gives one grant, to the count or to the worker. -/
theorem grants_raise (h : WorkerInv s) : s.raise.grants = s.grants + 1 := by
  obtain hl | hs := h.waits
  · simp only [grants, WorkerRun.raise, semaphoreUp, hl]
    omega
  · rw [hs.grants_eq]
    simp [grants, WorkerRun.raise, semaphoreUp, hs.waiting, hs.count, hs.pc]

theorem raise_waiting (h : WorkerInv s) : s.raise.lock.waitingThreads = [] := by
  obtain hl | hs := h.waits
  · simp [WorkerRun.raise, semaphoreUp, hl]
  · simp [WorkerRun.raise, semaphoreUp, hs.waiting]

/-- `SemaphoreUp`, whatever list the item is put in. -/
theorem WorkerInv.raise_of_length (h : WorkerInv s) (hlock : s'.lock = s.raise.lock)
    (hpc : s'.pc = s.pc) (hpends : s'.pends = s.pends)
    (hlen : s'.list.length + s'.raised.length = s.list.length + s.raised.length + 1) :
    WorkerInv s' := by
  have hgrants : s'.grants = s.grants + 1 := by
    rw [← grants_raise h, grants, grants, hlock, hpc]
    rfl
  refine ⟨.inl (hlock ▸ raise_waiting h), fun hne => ?_⟩
  have hcount := h.count (hpc ▸ hne)
  rw [hlen, hgrants, hpends]
  omega

/-- **`WorkerAddItem`**, undisturbed. -/
theorem WorkerInv.workerAddItem (h : WorkerInv s) (i : ι) : WorkerInv (s.workerAddItem i) :=
  h.raise_of_length rfl rfl rfl (by
    simp only [WorkerRun.workerAddItem, WorkerRun.enqueue, WorkerRun.raise, List.length_append,
      List.length_singleton]
    omega)

theorem WorkerInv.initItem (h : WorkerInv s) (i : ι) : WorkerInv (s.initItem i) :=
  h.of_eq rfl rfl (by simp [WorkerRun.initItem]) rfl rfl

/-- **`SemaphoreDown`** by the worker: it takes a grant to its pop, or sleeps. -/
theorem WorkerInv.down (h : WorkerInv s) (hruns : s.Runs) (hpc : s.pc = .down) :
    WorkerInv { s with
      world := (semaphoreDown s.world s.lock none).1
      lock := (semaphoreDown s.world s.lock none).2
      pc := .pop } := by
  have hnil := h.waiting_eq_nil hruns
  have hcount := h.count (by simp [hpc])
  rw [grants_of_pc (by simp [hpc])] at hcount
  by_cases h0 : s.lock.count = 0
  · have hs : Sleeps { s with
        world := (semaphoreDown s.world s.lock none).1
        lock := (semaphoreDown s.world s.lock none).2
        pc := .pop } := by
      refine ⟨?_, rfl, ?_, ?_⟩ <;> simp only [semaphoreDown, h0, ↓reduceIte]
      · rw [hnil, List.nil_append]
      · exact lockingBlock_state s.world
    refine ⟨.inr hs, fun _ => ?_⟩
    rw [hs.grants_eq, ← h0]
    exact hcount
  · have hlock : (semaphoreDown s.world s.lock none).2 = { s.lock with count := s.lock.count - 1 } := by
      simp [semaphoreDown, h0]
    rw [hlock]
    refine ⟨.inl hnil, fun _ => ?_⟩
    simp only [grants, hnil, and_self, ↓reduceIte]
    omega

/-- **`LinkedListPop`** by the worker spends its grant. -/
theorem WorkerInv.pop (h : WorkerInv s) (hruns : s.Runs) (hpc : s.pc = .pop) :
    WorkerInv s.pop := by
  have hnil := h.waiting_eq_nil hruns
  have hcount := h.count (by simp [hpc])
  rw [grants_of_pop hpc hnil] at hcount
  cases hl : s.list with
  | nil =>
      simp only [WorkerRun.pop, hl]
      exact ⟨.inl hnil, fun hne => absurd rfl hne⟩
  | cons i rest =>
      rw [hl, List.length_cons] at hcount
      simp only [WorkerRun.pop, hl]
      refine ⟨.inl hnil, fun _ => ?_⟩
      rw [grants_of_pc (by simp)]
      simp only []
      omega

theorem workerInv_start (world : Contexts (Option ι)) (finished : ι → Bool) :
    WorkerInv (workerCreateWorker world finished) :=
  ⟨.inl rfl, fun _ => rfl⟩

theorem WorkerInv.step (h : WorkerInv s) (hstep : s.step op = some s') : WorkerInv s' := by
  cases op with
  | init i =>
      simp only [WorkerRun.step, Option.ite_none_right_eq_some, Option.some.injEq] at hstep
      obtain ⟨-, rfl⟩ := hstep
      exact (h.initItem i).of_eq rfl rfl rfl rfl rfl
  | raise i =>
      simp only [WorkerRun.step, Option.ite_none_right_eq_some, Option.some.injEq] at hstep
      obtain ⟨-, rfl⟩ := hstep
      exact h.raise_of_length rfl rfl rfl rfl
  | enqueue i =>
      simp only [WorkerRun.step, Option.ite_none_right_eq_some, Option.some.injEq] at hstep
      obtain ⟨hi, rfl⟩ := hstep
      refine h.of_eq rfl rfl rfl rfl ?_
      have hpos := List.length_pos_of_mem hi
      simp only [WorkerRun.enqueue, List.length_append, List.length_singleton,
        List.length_erase_of_mem hi]
      omega
  | critInit i =>
      simp only [WorkerRun.step, Option.ite_none_right_eq_some, Option.some.injEq] at hstep
      obtain ⟨-, rfl⟩ := hstep
      exact (h.initItem i).workerAddItem i
  | down =>
      simp only [WorkerRun.step, Option.ite_none_right_eq_some, Option.some.injEq] at hstep
      obtain ⟨⟨hruns, hpc⟩, rfl⟩ := hstep
      exact h.down hruns hpc
  | pop =>
      simp only [WorkerRun.step, Option.ite_none_right_eq_some, Option.some.injEq] at hstep
      obtain ⟨⟨hruns, hpc⟩, rfl⟩ := hstep
      exact h.pop hruns hpc
  | block =>
      simp only [WorkerRun.step] at hstep
      split at hstep
      · simp only [Option.ite_none_right_eq_some, Option.some.injEq] at hstep
        obtain ⟨-, rfl⟩ := hstep
        exact h.of_eq rfl rfl (lockingBlock_context_none _ _) rfl rfl
      · cases hstep
  | acquire =>
      simp only [WorkerRun.step] at hstep
      split at hstep
      · simp only [Option.ite_none_right_eq_some, Option.some.injEq] at hstep
        obtain ⟨-, rfl⟩ := hstep
        exact h.of_eq rfl rfl (lockingAcquire_context_none _ _) rfl rfl
      · cases hstep
  | isAcquired =>
      simp only [WorkerRun.step] at hstep
      split at hstep
      · simp only [Option.ite_none_right_eq_some, Option.some.injEq] at hstep
        obtain ⟨-, rfl⟩ := hstep
        exact h.of_eq rfl rfl (lockingIsAcquired_context_none _ _) rfl rfl
      · cases hstep
  | wake i =>
      simp only [WorkerRun.step, Option.ite_none_right_eq_some, Option.some.injEq] at hstep
      obtain ⟨-, rfl⟩ := hstep
      refine WorkerInv.workerAddItem ?_ i
      exact h.of_eq rfl rfl (lockingAcquire_context_none _ _) rfl rfl
  | ret result =>
      simp only [WorkerRun.step] at hstep
      split at hstep
      · next i hpc =>
        have hpop : s.pc ≠ .pop := by simp [hpc]
        have hfailed : s.pc ≠ .failed := by simp [hpc]
        cases result <;>
        simp only [Option.ite_none_right_eq_some, Option.some.injEq] at hstep
        case pended =>
          obtain ⟨hruns, -, rfl⟩ := hstep
          exact h.of_runs hruns rfl hpop (by simp) hfailed rfl
        all_goals
          obtain ⟨hruns, rfl⟩ := hstep
          exact h.of_runs hruns rfl hpop (by simp) hfailed rfl
      · cases hstep
  | pend =>
      simp only [WorkerRun.step] at hstep
      split at hstep
      · next i hpc =>
        simp only [Option.ite_none_right_eq_some, Option.some.injEq] at hstep
        obtain ⟨hruns, rfl⟩ := hstep
        refine h.of_runs hruns rfl (by simp [hpc]) (by simp) (by simp [hpc]) ?_
        simp only [List.length_append, List.length_singleton]
        omega
      · cases hstep

/-! ## the pops -/

/-- Every `LinkedListPop` finds an item. -/
def PopsItem (s : WorkerRun ι) (op : WorkerOp ι) : Prop :=
  op = .pop → (s.step op).isSome → s.list ≠ []

/-- At a pop, the producers preempted between `SemaphoreUp` and the enqueue are
no more than the grants that are left and the items that were pended. -/
def FewRaised (s : WorkerRun ι) (op : WorkerOp ι) : Prop :=
  op = .pop → (s.step op).isSome → s.raised.length ≤ s.lock.count + s.pends

instance (s : WorkerRun ι) (op : WorkerOp ι) : Decidable (PopsItem s op) :=
  inferInstanceAs (Decidable (_ → _ → _))

instance (s : WorkerRun ι) (op : WorkerOp ι) : Decidable (FewRaised s op) :=
  inferInstanceAs (Decidable (_ → _ → _))

theorem popsItem_iff (h : WorkerInv s) (op : WorkerOp ι) : PopsItem s op ↔ FewRaised s op := by
  refine forall₂_congr fun hop henabled => ?_
  subst hop
  obtain ⟨t, ht⟩ := Option.isSome_iff_exists.mp henabled
  simp only [WorkerRun.step, Option.ite_none_right_eq_some] at ht
  obtain ⟨⟨hruns, hpc⟩, -⟩ := ht
  have hcount := h.count (by simp [hpc])
  rw [grants_of_pop hpc (h.waiting_eq_nil hruns)] at hcount
  rw [← List.length_pos_iff]
  omega

/-- **When the worker finds its list empty.**  In every run, each of its pops
returns an item exactly when at each of them few enough producers are preempted
inside `WorkerAddItem`; and the grants are within the list exactly while no more
of them are than items were pended. -/
theorem worker_pops_iff (world : Contexts (Option ι)) (finished : ι → Bool)
    (ops : List (WorkerOp ι)) :
    (Along WorkerRun.step PopsItem (workerCreateWorker world finished) ops ↔
      Along WorkerRun.step FewRaised (workerCreateWorker world finished) ops) ∧
    ∀ s, exec WorkerRun.step (workerCreateWorker world finished) ops = some s → s.pc ≠ .failed →
      (s.grants ≤ s.list.length ↔ s.raised.length ≤ s.pends) := by
  have hstart := workerInv_start world finished
  refine ⟨along_congr (fun s op hs => popsItem_iff hs op) (fun s op s' hs _ => hs.step) hstart,
    fun s hrun hpc => ?_⟩
  have hcount := (exec_invariant (fun _ _ _ hs => WorkerInv.step hs) hstart hrun).count hpc
  omega

/-- A thread that adds an item is preempted before it enqueues it. -/
theorem worker_pops_empty :
    ∃ (world : Contexts (Option Unit)) (finished : Unit → Bool) (ops : List (WorkerOp Unit)),
      (exec WorkerRun.step (workerCreateWorker world finished) ops).map WorkerRun.pc = some .failed ∧
      ¬ Along WorkerRun.step PopsItem (workerCreateWorker world finished) ops :=
  ⟨⟨fun _ => ⟨.ready, .shared, .worker⟩, fun _ => .running, [], [], false⟩, fun _ => true,
    [.init (), .raise (), .down, .pop], by decide, by decide⟩

/-- Another producer's item is there for it, so nothing happens. -/
theorem worker_pops_iff_sample :
    let start : WorkerRun Bool := workerCreateWorker
      ⟨fun _ => ⟨.ready, .shared, .worker⟩, fun _ => .running, [], [], false⟩ fun _ => true
    Along WorkerRun.step PopsItem start
      [.init true, .raise true, .critInit false, .down, .pop] ∧
    ∃ s, exec WorkerRun.step start [.init true, .raise true, .critInit false, .down, .pop] = some s ∧
      s.pc = .run false ∧ ¬ s.grants ≤ s.list.length := by
  intro start
  have hiff := worker_pops_iff
    (⟨fun _ => ⟨.ready, .shared, .worker⟩, fun _ => .running, [], [], false⟩ :
      Contexts (Option Bool)) (fun _ => true)
    [.init true, .raise true, .critInit false, .down, .pop]
  have hend : (exec WorkerRun.step start
      [.init true, .raise true, .critInit false, .down, .pop]).map
        (fun s => (s.pc, s.raised, s.pends)) = some (.run false, [true], 0) := by decide
  obtain ⟨s, hs, heq⟩ := Option.map_eq_some_iff.mp hend
  obtain ⟨hpc, hrest⟩ := Prod.mk.inj heq
  obtain ⟨hraised, hpends⟩ := Prod.mk.inj hrest
  refine ⟨hiff.1.mpr (by decide), s, hs, hpc, ?_⟩
  rw [hiff.2 s hs (by simp [hpc]), hraised, hpends]
  decide

/-! ## the sleep -/

/-- No item was pended, and none is about to be. -/
def Unpended (s : WorkerRun ι) : Prop := s.pends = 0 ∧ ∀ i, s.pc ≠ .pend i

theorem unpended_step (hstep : s.step op = some s') :
    Unpended s' ↔ Unpended s ∧ op ≠ .ret .pended := by
  cases op with
  | init i | raise i | enqueue i | critInit i | wake i =>
      simp only [WorkerRun.step, Option.ite_none_right_eq_some, Option.some.injEq] at hstep
      obtain ⟨-, rfl⟩ := hstep
      simp [Unpended, WorkerRun.initItem, WorkerRun.workerAddItem, WorkerRun.raise,
        WorkerRun.enqueue]
  | down =>
      simp only [WorkerRun.step, Option.ite_none_right_eq_some, Option.some.injEq] at hstep
      obtain ⟨⟨-, hpc⟩, rfl⟩ := hstep
      simp [Unpended, hpc]
  | pop =>
      simp only [WorkerRun.step, Option.ite_none_right_eq_some, Option.some.injEq] at hstep
      obtain ⟨⟨-, hpc⟩, rfl⟩ := hstep
      cases hl : s.list <;> simp [Unpended, WorkerRun.pop, hl, hpc]
  | block | acquire | isAcquired =>
      simp only [WorkerRun.step] at hstep
      split at hstep
      · simp only [Option.ite_none_right_eq_some, Option.some.injEq] at hstep
        obtain ⟨-, rfl⟩ := hstep
        simp [Unpended]
      · cases hstep
  | ret result =>
      simp only [WorkerRun.step] at hstep
      split at hstep
      · next i hpc =>
        cases result <;>
        simp only [Option.ite_none_right_eq_some, Option.some.injEq] at hstep
        · obtain ⟨-, -, rfl⟩ := hstep
          simp [Unpended]
        all_goals
          obtain ⟨-, rfl⟩ := hstep
          simp [Unpended, hpc]
      · cases hstep
  | pend =>
      simp only [WorkerRun.step] at hstep
      split at hstep
      · next i hpc =>
        simp only [Option.ite_none_right_eq_some, Option.some.injEq] at hstep
        obtain ⟨-, rfl⟩ := hstep
        simp [Unpended, hpc]
      · cases hstep

/-- **When the worker sleeps on work.**  In every run, whenever nobody has still to
enqueue the item that its `WorkerAddItem` has announced and the worker waits for
`queue->Lock`, its list is empty exactly when no item has returned
`WORKER_PENDED`. -/
theorem worker_stranded_iff (world : Contexts (Option ι)) (finished : ι → Bool)
    (ops : List (WorkerOp ι)) (s : WorkerRun ι)
    (h : exec WorkerRun.step (workerCreateWorker world finished) ops = some s)
    (hraised : s.raised = []) (hsleeps : none ∈ s.lock.waitingThreads) :
    s.list = [] ↔ .ret .pended ∉ ops := by
  have hstart := workerInv_start world finished
  have hinv := exec_invariant (fun _ _ _ hs => WorkerInv.step hs) hstart h
  have hs := hinv.waits.resolve_left (List.ne_nil_of_mem hsleeps)
  have hcount := hinv.count (by simp [hs.pc])
  have hpended : Unpended s ↔ .ret .pended ∉ ops := by
    rw [holds_iff_along (I := fun _ => True) (fun _ _ _ _ _ => trivial)
      (fun _ _ _ _ hstep => unpended_step hstep) trivial h, along_iff_forall_mem h]
    rw [List.forall_mem_ne']
    simp [Unpended, workerCreateWorker]
  rw [← hpended, Unpended, hs.pc, ← List.length_eq_zero_iff]
  rw [hs.grants_eq, hraised, List.length_nil, Nat.add_zero, Nat.zero_add] at hcount
  simp [hcount]

/-- An item that asks for more processing is put in the list, and the worker goes
to sleep. -/
theorem worker_sleeps_on_pended :
    ∃ (world : Contexts (Option Unit)) (finished : Unit → Bool) (ops : List (WorkerOp Unit)),
      (exec WorkerRun.step (workerCreateWorker world finished) ops).map
        (fun s => (s.entered, s.raised, s.lock.waitingThreads, s.list)) =
          some ([], [], [none], [()]) :=
  ⟨⟨fun _ => ⟨.ready, .shared, .worker⟩, fun _ => .running, [], [], false⟩, fun _ => true,
    [.init (), .raise (), .enqueue (), .down, .pop, .ret .pended, .pend, .down], by decide⟩

/-- The item blocks, is woken and finishes; then the worker sleeps. -/
theorem worker_stranded_iff_sample :
    ∃ s : WorkerRun Unit, exec WorkerRun.step (workerCreateWorker
        ⟨fun _ => ⟨.ready, .shared, .worker⟩, fun _ => .running, [], [], false⟩ fun _ => true)
        [.critInit (), .down, .pop, .block, .ret .blocked, .wake (), .down, .pop, .isAcquired,
          .ret .finished, .down] = some s ∧ none ∈ s.lock.waitingThreads ∧ s.list = [] := by
  have hend : (exec WorkerRun.step (workerCreateWorker (⟨fun _ => ⟨.ready, .shared, .worker⟩,
      fun _ => .running, [], [], false⟩ : Contexts (Option Unit)) fun _ => true)
      [.critInit (), .down, .pop, .block, .ret .blocked, .wake (), .down, .pop, .isAcquired,
        .ret .finished, .down]).map (fun s => (s.raised, s.lock.waitingThreads)) =
        some ([], [none]) := by decide
  obtain ⟨s, hs, heq⟩ := Option.map_eq_some_iff.mp hend
  obtain ⟨hraised, hwaiting⟩ := Prod.mk.inj heq
  have hsleeps : none ∈ s.lock.waitingThreads := by simp [hwaiting]
  refine ⟨s, hs, hsleeps, ?_⟩
  exact (worker_stranded_iff _ _ _ s hs hraised hsleeps).mpr (by decide)

end KernelPanic
