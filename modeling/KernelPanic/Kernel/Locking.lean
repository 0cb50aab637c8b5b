import Mathlib.Logic.Function.Basic

/-!
# KernelPanic.Kernel.Locking

The locking state machine of `kernel/locking.c`, over which every lock of the
kernel is built.  A lock never touches a thread: it calls `LockingBlock` or
`LockingAcquire` on a `LOCKING_CONTEXT`, and the context's block and wake
functions do what its owner needs, a thread being suspended and resumed, a
non-blocking caller only being told.

`Contexts` is the state these calls read and write.  An `ASSERT` or
`KernelPanic` that is reached sets `panicked`; `granted` logs the
`LockingAcquire` calls in order, which is what it means for a request to be
granted.
-/

namespace KernelPanic

variable {κ : Type*} [DecidableEq κ]

/-- `enum THREAD_STATE`. -/
inductive ThreadState where
  | running
  | blocked
  | done
deriving DecidableEq

/-- `enum LOCKING_STATE`. -/
inductive LockingState where
  | ready
  | blocking
  | acquired
deriving DecidableEq

/-- `enum RESOURCE_STATE`. -/
inductive ResourceState where
  | shared
  | exclusive
deriving DecidableEq

/-- Which block and wake functions a context was initialised with: the
scheduler's, the locking unit's own for non-blocking callers, or the worker
unit's. -/
inductive ContextKind where
  | thread
  | nonBlocking
  | worker
deriving DecidableEq

/-- `struct LOCKING_CONTEXT`. -/
structure LockingContext where
  state : LockingState
  resourceWaitState : ResourceState
  kind : ContextKind
deriving DecidableEq

/-- The locking contexts, the `State` of the threads that own the thread
contexts, the work items the worker contexts have handed to `WorkerAddItem`,
and the log of grants. -/
structure Contexts (κ : Type*) where
  context : κ → LockingContext
  thread : κ → ThreadState
  added : List κ
  granted : List κ
  panicked : Bool

namespace Contexts

/-- `ASSERT(b)`. -/
def assert (w : Contexts κ) (b : Bool) : Contexts κ := { w with panicked := w.panicked || !b }

/-- `KernelPanic()`. -/
def panic (w : Contexts κ) : Contexts κ := { w with panicked := true }

def setState (w : Contexts κ) (c : κ) (s : LockingState) : Contexts κ :=
  { w with context := Function.update w.context c { w.context c with state := s } }

def setThread (w : Contexts κ) (c : κ) (s : ThreadState) : Contexts κ :=
  { w with thread := Function.update w.thread c s }

end Contexts

/-- `SchedulerResumeThread`: the thread is runnable again. -/
def schedulerResumeThread (w : Contexts κ) (c : κ) : Contexts κ :=
  (w.assert (w.thread c = .blocked)).setThread c .running

/-- `SchedulerWakeOnLock`, the wake function of a thread's context. -/
def schedulerWakeOnLock (w : Contexts κ) (c : κ) : Contexts κ :=
  match (w.context c).state with
  | .ready => w.setState c .ready
  | .blocking => schedulerResumeThread (w.setState c .ready) c
  | .acquired => w.panic

/-- `LockingWakeNonBlocking`. -/
def lockingWakeNonBlocking (w : Contexts κ) (c : κ) : Contexts κ :=
  match (w.context c).state with
  | .ready => w.setState c .acquired
  | .blocking => w.setState c .acquired
  | .acquired => w.panic

/-- `WorkerWakeOnLock`: a work item that had to wait goes back to its queue. -/
def workerWakeOnLock (w : Contexts κ) (c : κ) : Contexts κ :=
  match (w.context c).state with
  | .ready => w.setState c .acquired
  | .blocking => { w with added := w.added ++ [c] }.setState c .acquired
  | .acquired => w.panic

/-- `SchedulerBlockOnLock`, the block function of a thread's context: its
thread, which is the active one, will not be scheduled again until it is
woken. -/
def schedulerBlockOnLock (w : Contexts κ) (c : κ) : Contexts κ := w.setThread c .blocked

/-- `LockingAcquire`. -/
def lockingAcquire (w : Contexts κ) (c : κ) : Contexts κ :=
  let w := w.assert ((w.context c).state = .ready || (w.context c).state = .blocking)
  let w := { w with granted := w.granted ++ [c] }
  match (w.context c).kind with
  | .thread => schedulerWakeOnLock w c
  | .nonBlocking => lockingWakeNonBlocking w c
  | .worker => workerWakeOnLock w c

/-- `LockingBlock`; the caller stores the link. -/
def lockingBlock (w : Contexts κ) (blockingInfo : Option ResourceState) (c : κ) : Contexts κ :=
  let w := w.assert ((w.context c).state = .ready)
  let w := match blockingInfo with
    | none => w
    | some info =>
        { w with context :=
            Function.update w.context c { w.context c with resourceWaitState := info } }
  let w := match (w.context c).kind with
    | .thread => schedulerBlockOnLock w c
    | .nonBlocking => w
    | .worker => w
  w.setState c .blocking

/-- `LockingIsAcquired`. -/
def lockingIsAcquired (w : Contexts κ) (c : κ) : Contexts κ × Bool :=
  match (w.context c).state with
  | .acquired => (w.setState c .ready, true)
  | .blocking => (w, false)
  | .ready => (w.panic, false)

/-! ## what a lock sees -/

/-- The context waits on a lock: it is blocking and its thread, if it has one,
is suspended. -/
def Waits (w : Contexts κ) (c : κ) : Prop :=
  (w.context c).state = .blocking ∧ ((w.context c).kind = .thread → w.thread c = .blocked)

/-- From `w` to `w'` the contexts `cs` were granted a lock, each once, and no
assertion failed. -/
structure Grants (w w' : Contexts κ) (cs : List κ) : Prop where
  granted : w'.granted = w.granted ++ cs
  context : ∀ d, d ∉ cs → w'.context d = w.context d
  thread : ∀ d, d ∉ cs → w'.thread d = w.thread d
  waitState : ∀ d, (w'.context d).resourceWaitState = (w.context d).resourceWaitState
  kind : ∀ d, (w'.context d).kind = (w.context d).kind
  state : ∀ c ∈ cs, (w'.context c).state =
    if (w.context c).kind = .thread then .ready else .acquired
  woken : ∀ c ∈ cs, Waits w c → (w.context c).kind = .thread → w'.thread c = .running
  stays : ∀ c ∈ cs, (w.context c).state = .ready → w'.thread c = w.thread c
  /-- A grant kills no thread. -/
  alive : ∀ d, w'.thread d = .done → w.thread d = .done
  panicked : w'.panicked = w.panicked

variable {w w' w'' : Contexts κ} {c : κ} {cs : List κ}

omit [DecidableEq κ] in
theorem Grants.refl : Grants w w [] :=
  ⟨by simp, fun _ _ => rfl, fun _ _ => rfl, fun _ => rfl, fun _ => rfl, by simp, by simp, by simp,
    fun _ h => h, rfl⟩

omit [DecidableEq κ] in
/-- A grant followed by grants to others. -/
theorem Grants.cons (h : Grants w w' [c]) (h' : Grants w' w'' cs) (hc : c ∉ cs) :
    Grants w w'' (c :: cs) where
  granted := by rw [h'.granted, h.granted, List.append_assoc]; rfl
  context d hd := by
    rw [List.mem_cons, not_or] at hd
    rw [h'.context d hd.2, h.context d (by simpa using hd.1)]
  thread d hd := by
    rw [List.mem_cons, not_or] at hd
    rw [h'.thread d hd.2, h.thread d (by simpa using hd.1)]
  waitState d := (h'.waitState d).trans (h.waitState d)
  kind d := (h'.kind d).trans (h.kind d)
  state d hd := by
    obtain rfl | hd := List.mem_cons.mp hd
    · rw [h'.context d hc]
      exact h.state d List.mem_cons_self
    · rw [h'.state d hd, h.kind]
  woken d hd hw hk := by
    obtain rfl | hd := List.mem_cons.mp hd
    · rw [h'.thread d hc]
      exact h.woken d List.mem_cons_self hw hk
    · have hdc : d ∉ [c] := fun hdc => hc (List.mem_singleton.mp hdc ▸ hd)
      refine h'.woken d hd ?_ (h.kind d ▸ hk)
      rw [Waits, h.context d hdc, h.thread d hdc]
      exact hw
  stays d hd hs := by
    obtain rfl | hd := List.mem_cons.mp hd
    · rw [h'.thread d hc]
      exact h.stays d List.mem_cons_self hs
    · have hdc : d ∉ [c] := fun hdc => hc (List.mem_singleton.mp hdc ▸ hd)
      rw [h'.stays d hd (h.context d hdc ▸ hs), h.thread d hdc]
  alive d hd := h.alive d (h'.alive d hd)
  panicked := h'.panicked.trans h.panicked

/-- Writing the granted context's state and its thread's. -/
theorem Grants.of_update {s : LockingState} {t : ThreadState}
    (hctx : w'.context = Function.update w.context c { w.context c with state := s })
    (hthread : w'.thread = Function.update w.thread c t) (hg : w'.granted = w.granted ++ [c])
    (hst : s = if (w.context c).kind = .thread then .ready else .acquired)
    (hwoken : Waits w c → (w.context c).kind = .thread → t = .running)
    (hstays : (w.context c).state = .ready → t = w.thread c)
    (halive : t = .done → w.thread c = .done) (hp : w'.panicked = w.panicked) :
    Grants w w' [c] := by
  have hself : ∀ d, w'.context d = if d = c then { w.context c with state := s }
      else w.context d := fun d => by
    rw [hctx, Function.update_apply]
  refine ⟨hg, fun d hd => ?_, fun d hd => ?_, fun d => ?_, fun d => ?_, fun d hd => ?_,
    fun d hd => ?_, fun d hd => ?_, fun d hd => ?_, hp⟩
  · rw [hself, if_neg (by simpa using hd)]
  · rw [hthread, Function.update_of_ne (by simpa using hd)]
  · rw [hself]
    split
    · next hdc => rw [hdc]
    · rfl
  · rw [hself]
    split
    · next hdc => rw [hdc]
    · rfl
  · obtain rfl := List.mem_singleton.mp hd
    rw [hself, if_pos rfl]
    exact hst
  · obtain rfl := List.mem_singleton.mp hd
    rw [hthread, Function.update_self]
    exact hwoken
  · obtain rfl := List.mem_singleton.mp hd
    rw [hthread, Function.update_self]
    exact hstays
  · rw [hthread, Function.update_apply] at hd
    split at hd
    · next hdc => exact hdc ▸ halive hd
    · exact hd

/-- **`LockingAcquire`** of a context that is ready or waits. -/
theorem lockingAcquire_grants (h : (w.context c).state = .ready ∨ Waits w c) :
    Grants w (lockingAcquire w c) [c] := by
  obtain hs | ⟨hs, hb⟩ := h
  · have hnot : ¬ Waits w c := fun hw => absurd (hs.symm.trans hw.1) (by decide)
    refine Grants.of_update (t := w.thread c)
      (s := if (w.context c).kind = .thread then .ready else .acquired) ?_ ?_ ?_ rfl
      (fun hw => absurd hw hnot) (fun _ => rfl) (fun ht => ht) ?_ <;>
    cases hk : (w.context c).kind <;>
    simp [lockingAcquire, schedulerWakeOnLock, lockingWakeNonBlocking, workerWakeOnLock,
      Contexts.assert, Contexts.setState, hk, hs]
  · refine Grants.of_update
      (t := if (w.context c).kind = .thread then .running else w.thread c)
      (s := if (w.context c).kind = .thread then .ready else .acquired) ?_ ?_ ?_ rfl
      (fun _ hk => if_pos hk) (fun hr => absurd (hs.symm.trans hr) (by decide)) ?_ ?_ <;>
    cases hk : (w.context c).kind <;>
    simp [lockingAcquire, schedulerWakeOnLock, schedulerResumeThread, lockingWakeNonBlocking,
      workerWakeOnLock, Contexts.assert, Contexts.setState, Contexts.setThread, hk, hs, hb]

/-- **`LockingBlock`** of a ready context: it waits. -/
theorem lockingBlock_eq {info : Option ResourceState} (h : (w.context c).state = .ready) :
    lockingBlock w info c =
      { w with
        context := Function.update w.context c
          { w.context c with
            state := .blocking
            resourceWaitState := info.getD (w.context c).resourceWaitState }
        thread := if (w.context c).kind = .thread then Function.update w.thread c .blocked
          else w.thread } := by
  cases info <;> cases hk : (w.context c).kind <;>
  simp [lockingBlock, schedulerBlockOnLock, Contexts.assert, Contexts.setState,
    Contexts.setThread, hk, h]

end KernelPanic
