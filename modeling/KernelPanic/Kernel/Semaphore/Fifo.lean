import KernelPanic.Kernel.Semaphore
import KernelPanic.Lib.Run

/-!
# KernelPanic.Kernel.Semaphore.Fifo

One `SEMAPHORE` over its whole life.  Tokens enter by `SemaphoreInit` and
`SemaphoreUp` and leave by a grant, at once or by being handed to a waiter past
`Count`; `SemaphoreOk` keeps the accounts and the order.

The contexts may be of any kind and in any state; all the semaphore asks is that
a context that calls `SemaphoreDown` is not already waiting.  `Count` is a
natural number, so it does not overflow.
-/

namespace KernelPanic

open Run

variable {κ : Type*} [DecidableEq κ]

/-! ## what the calls log -/

/-- `LockingAcquire` is the grant, whatever the context's owner does with it. -/
theorem lockingAcquire_granted (w : Contexts κ) (c : κ) :
    (lockingAcquire w c).granted = w.granted ++ [c] := by
  cases hk : (w.context c).kind <;> cases hs : (w.context c).state <;>
  simp [lockingAcquire, schedulerWakeOnLock, schedulerResumeThread, lockingWakeNonBlocking,
    workerWakeOnLock, Contexts.assert, Contexts.panic, Contexts.setState, Contexts.setThread, hk, hs]

/-- Who blocks is granted nothing. -/
theorem lockingBlock_granted (w : Contexts κ) (info : Option ResourceState) (c : κ) :
    (lockingBlock w info c).granted = w.granted := by
  cases info <;> cases hk : (w.context c).kind <;>
  simp [lockingBlock, schedulerBlockOnLock, Contexts.assert, Contexts.setState, Contexts.setThread,
    hk]

/-! ## runs -/

/-- A semaphore, the contexts, the calls of `SemaphoreDown` so far, in order, and
how often `SemaphoreUp` was called. -/
structure SemaphoreRun (κ : Type*) where
  world : Contexts κ
  lock : Semaphore κ
  downs : List κ
  ups : ℕ

/-- The calls of the semaphore. -/
inductive SemaphoreOp (κ : Type*) where
  | down (c : κ)
  | up
  /-- Something else happens to a context that does not wait here. -/
  | elsewhere (c : κ) (context : LockingContext) (thread : ThreadState)

namespace SemaphoreRun

/-- After `SemaphoreInit`, with nothing granted yet. -/
def start (count : ℕ) (world : Contexts κ) : SemaphoreRun κ :=
  ⟨{ world with granted := [] }, semaphoreInit count, [], 0⟩

/-- A call; who waits makes none. -/
def step (s : SemaphoreRun κ) : SemaphoreOp κ → Option (SemaphoreRun κ)
  | .down c =>
      if c ∉ s.lock.waitingThreads then
        let r := semaphoreDown s.world s.lock c
        some { s with world := r.1, lock := r.2, downs := s.downs ++ [c] }
      else none
  | .up =>
      let r := semaphoreUp s.world s.lock
      some { s with world := r.1, lock := r.2, ups := s.ups + 1 }
  | .elsewhere c context thread =>
      if c ∉ s.lock.waitingThreads then
        some { s with world := { s.world with
          context := Function.update s.world.context c context
          thread := Function.update s.world.thread c thread } }
      else none

end SemaphoreRun

open SemaphoreRun

/-- The accounts of a semaphore initialised to `n`. -/
structure SemaphoreOk (n : ℕ) (s : SemaphoreRun κ) : Prop where
  /-- Nobody waits while there is a token. -/
  waiting : 0 < s.lock.count → s.lock.waitingThreads = []
  /-- Every token is in the count or was granted. -/
  conserved : s.lock.count + s.world.granted.length = n + s.ups
  /-- The calls are the grants followed by the waiters: the oldest calls are
  granted, in order, each once. -/
  order : s.downs = s.world.granted ++ s.lock.waitingThreads

/-- `SemaphoreUp` grants the oldest call that waits, and only counts when none
does. -/
def UpGrantsOldest (s : SemaphoreRun κ) : SemaphoreOp κ → Prop
  | .up => ∀ s', s.step .up = some s' →
      match s.lock.waitingThreads with
      | c :: rest => s'.world.granted = s.world.granted ++ [c] ∧ s'.lock = ⟨s.lock.count, rest⟩
      | [] => s' = { s with lock := ⟨s.lock.count + 1, []⟩, ups := s.ups + 1 }
  | _ => True

/-! ## one step -/

variable {n : ℕ} {s s' : SemaphoreRun κ} {op : SemaphoreOp κ}

omit [DecidableEq κ] in
/-- A semaphore as `SemaphoreInit` leaves it. -/
theorem semaphoreOk_start (world : Contexts κ) : SemaphoreOk n (start n world) :=
  ⟨fun _ => rfl, rfl, rfl⟩

/-- `SemaphoreDown` keeps the promises. -/
theorem SemaphoreOk.down (h : SemaphoreOk n s) (c : κ) :
    SemaphoreOk n { s with
      world := (semaphoreDown s.world s.lock c).1
      lock := (semaphoreDown s.world s.lock c).2
      downs := s.downs ++ [c] } := by
  have hconserved := h.conserved
  by_cases h0 : s.lock.count = 0
  · simp only [semaphoreDown, h0, ↓reduceIte]
    refine ⟨fun hpos => absurd hpos (by simp), ?_, ?_⟩ <;>
    simp only [lockingBlock_granted]
    · exact h0 ▸ hconserved
    · rw [h.order, List.append_assoc]
  · have hnil := h.waiting (by omega)
    simp only [semaphoreDown, h0, ↓reduceIte]
    refine ⟨fun _ => hnil, ?_, ?_⟩ <;>
    simp only [lockingAcquire_granted]
    · rw [List.length_append, List.length_singleton]
      omega
    · rw [h.order, hnil, List.append_nil, List.append_nil]

/-- `SemaphoreUp` keeps the promises. -/
theorem SemaphoreOk.up (h : SemaphoreOk n s) :
    SemaphoreOk n { s with
      world := (semaphoreUp s.world s.lock).1
      lock := (semaphoreUp s.world s.lock).2
      ups := s.ups + 1 } := by
  have hconserved := h.conserved
  cases hl : s.lock.waitingThreads with
  | nil =>
      simp only [semaphoreUp, hl]
      refine ⟨fun _ => rfl, ?_, ?_⟩
      · simp only []
        omega
      · rw [h.order, hl]
  | cons c rest =>
      have h0 : ¬ 0 < s.lock.count := fun hpos => by
        rw [h.waiting hpos] at hl
        cases hl
      simp only [semaphoreUp, hl]
      refine ⟨fun hpos => absurd hpos h0, ?_, ?_⟩ <;>
      simp only [lockingAcquire_granted]
      · rw [List.length_append, List.length_singleton]
        omega
      · rw [h.order, hl, List.append_assoc]
        rfl

/-- **One step** keeps the promises. -/
theorem SemaphoreOk.step (h : SemaphoreOk n s) (hstep : s.step op = some s') :
    SemaphoreOk n s' := by
  cases op with
  | down c =>
      simp only [SemaphoreRun.step, Option.ite_none_right_eq_some, Option.some.injEq] at hstep
      obtain ⟨-, rfl⟩ := hstep
      exact h.down c
  | up =>
      simp only [SemaphoreRun.step, Option.some.injEq] at hstep
      subst hstep
      exact h.up
  | elsewhere c context thread =>
      simp only [SemaphoreRun.step, Option.ite_none_right_eq_some, Option.some.injEq] at hstep
      obtain ⟨-, rfl⟩ := hstep
      exact ⟨h.waiting, h.conserved, h.order⟩

/-- `SemaphoreUp` serves the one that has waited longest. -/
theorem upGrantsOldest (s : SemaphoreRun κ) (op : SemaphoreOp κ) : UpGrantsOldest s op := by
  cases op with
  | down c => trivial
  | elsewhere c context thread => trivial
  | up =>
      intro s' hstep
      simp only [SemaphoreRun.step, Option.some.injEq] at hstep
      subst hstep
      split
      · next c rest hl => simp only [semaphoreUp, hl, lockingAcquire_granted, and_self]
      · next hl => simp only [semaphoreUp, hl]

/-- **Conservation and order of a semaphore**, in every state that any sequence
of calls reaches. -/
theorem semaphore_fifo (n : ℕ) (world : Contexts κ) (ops : List (SemaphoreOp κ))
    (h : exec SemaphoreRun.step (start n world) ops = some s) :
    SemaphoreOk n s ∧ Along SemaphoreRun.step UpGrantsOldest (start n world) ops :=
  ⟨exec_invariant (fun _ _ _ hs hstep => SemaphoreOk.step hs hstep) (semaphoreOk_start world) h,
    along_of_forall upGrantsOldest⟩

/-- A non-blocking caller, a work item and a thread come to a semaphore of one
token; then a second token comes up. -/
theorem semaphore_fifo_sample :
    ∃ s : SemaphoreRun ContextKind,
      exec SemaphoreRun.step
          (start 1 ⟨fun c => ⟨.ready, .shared, c⟩, fun _ => .running, [], [], false⟩)
          [.down .nonBlocking, .down .worker, .down .thread, .up] = some s ∧
      s.world.granted = [.nonBlocking, .worker] ∧ s.lock.waitingThreads = [.thread] ∧
      SemaphoreOk 1 s := by
  have hend : (exec SemaphoreRun.step (start 1 (⟨fun c => ⟨.ready, .shared, c⟩, fun _ => .running,
      [], [], false⟩ : Contexts ContextKind))
      [.down .nonBlocking, .down .worker, .down .thread, .up]).map
        (fun s => (s.world.granted, s.lock.waitingThreads)) =
          some ([.nonBlocking, .worker], [.thread]) := by decide
  obtain ⟨s, hs, heq⟩ := Option.map_eq_some_iff.mp hend
  obtain ⟨hgranted, hwaiting⟩ := Prod.mk.inj heq
  exact ⟨s, hs, hgranted, hwaiting, (semaphore_fifo _ _ _ hs).1⟩

end KernelPanic
