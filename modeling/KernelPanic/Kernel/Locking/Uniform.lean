import KernelPanic.Kernel.Broadcast
import KernelPanic.Kernel.Resource.Exclusion
import KernelPanic.Kernel.Semaphore
import KernelPanic.Lib.Run

/-!
# KernelPanic.Kernel.Locking.Uniform

Semaphores, resources, signals, barriers and generations over one set of
contexts.  A context has a single link, whatever lock it is put on, and its
state, its thread's and the lists are written by different functions;
`UniformOk` says that they agree, and `uniform_locking` that they do after
every operation.

The callers keep the rules of `kernel/locking.c`.  A thread asks for a lock only
while it runs.  A non-blocking caller asks for one only when it has asked for
none or `LockingIsAcquired` has confirmed the last one, and calls
`LockingIsAcquired` only in between.  A resource is unlocked by a holder.
-/

namespace KernelPanic

open Run

variable {ι κ : Type*} [DecidableEq ι] [DecidableEq κ]

/-! ## runs -/

/-- A lock of any unit; a resource comes with the accounts of who holds it. -/
inductive Lock (κ : Type*) where
  | semaphore (lock : Semaphore κ)
  | resource (lock : Resource κ) (sharedHolders exclusiveHolders : List κ)
  | signal (lock : Signal κ)
  | barrier (lock : Barrier κ)
  | generation (lock : Generation κ)

/-- The arguments of the initialisers. -/
inductive LockInit (κ : Type*) where
  | semaphore (count : ℕ)
  | resource (mode : ResourceState) (creator : κ)
  | signal (state : Bool)
  | barrier (count : ℕ)
  | generation (init : ℕ)

/-- The calls of the five units. -/
inductive LockOp (κ : Type*) where
  | semaphoreDown (c : κ)
  | semaphoreUp
  | resourceLockShared (c : κ)
  | resourceLockExclusive (c : κ)
  | resourceUnlockShared (c : κ)
  | resourceUnlockExclusive (c : κ)
  | signalSet
  | signalUnset
  | signalWaitForSignal (c : κ)
  | barrierSync (c : κ)
  | generationWait (value : ℕ) (c : κ)
  | generationUpdate (value : ℕ)

/-- The context that asks for the lock. -/
def LockOp.request : LockOp κ → Option κ
  | .semaphoreDown c => some c
  | .resourceLockShared c => some c
  | .resourceLockExclusive c => some c
  | .signalWaitForSignal c => some c
  | .barrierSync c => some c
  | .generationWait _ c => some c
  | _ => none

namespace Lock

/-- A lock as its unit makes it. -/
def init : LockInit κ → Lock κ
  | .semaphore count => .semaphore (semaphoreInit count)
  | .resource mode creator =>
      .resource (resourceInit mode) [] (if mode = .exclusive then [creator] else [])
  | .signal state => .signal (signalInit state)
  | .barrier count => .barrier (barrierInit count)
  | .generation init => .generation (generationInit init)

/-- The lock's list. -/
def waiting : Lock κ → List κ
  | .semaphore lock => lock.waitingThreads
  | .resource lock _ _ => lock.waitingThreads
  | .signal lock => lock.waitingThreads
  | .barrier lock => lock.list
  | .generation lock => lock.waitingThreads

/-- A request or an unlock of a resource, with its accounts. -/
def performResource (w : Contexts κ) (lock : Resource κ) (sharedHolders exclusiveHolders : List κ)
    (op : ResourceOp κ) : Option (Contexts κ × Lock κ) :=
  (ResourceRun.step ⟨w, lock, sharedHolders, exclusiveHolders⟩ op).map fun s =>
    (s.world, .resource s.lock s.sharedHolders s.exclusiveHolders)

/-- A call of the lock's unit. -/
def perform (w : Contexts κ) : Lock κ → LockOp κ → Option (Contexts κ × Lock κ)
  | .semaphore lock, .semaphoreDown c => some ((semaphoreDown w lock c).map id .semaphore)
  | .semaphore lock, .semaphoreUp => some ((semaphoreUp w lock).map id .semaphore)
  | .resource lock S E, .resourceLockShared c => performResource w lock S E (.lockShared c)
  | .resource lock S E, .resourceLockExclusive c => performResource w lock S E (.lockExclusive c)
  | .resource lock S E, .resourceUnlockShared c => performResource w lock S E (.unlockShared c)
  | .resource lock S E, .resourceUnlockExclusive c =>
      performResource w lock S E (.unlockExclusive c)
  | .signal lock, .signalSet => some ((signalSet w lock).map id .signal)
  | .signal lock, .signalUnset => some ((signalUnset w lock).map id .signal)
  | .signal lock, .signalWaitForSignal c => some ((signalWaitForSignal w lock c).map id .signal)
  | .barrier lock, .barrierSync c => some ((barrierSync w lock c).map id .barrier)
  | .generation lock, .generationWait value c =>
      some ((generationWait w lock value c).map id .generation)
  | .generation lock, .generationUpdate value =>
      some ((generationUpdate w lock value).map id .generation)
  | _, _ => none

end Lock

/-- The contexts and all locks. -/
structure LockingRun (ι κ : Type*) where
  world : Contexts κ
  lock : ι → Lock κ
  /-- The context has asked for a lock, and `LockingIsAcquired` has not returned
  true since. -/
  asked : κ → Bool
  /-- The calls of `LockingIsAcquired` that returned true. -/
  confirmed : List κ

/-- A call of a lock, or of `LockingIsAcquired`. -/
inductive LockingOp (ι κ : Type*) where
  | call (l : ι) (op : LockOp κ)
  | isAcquired (c : κ)

namespace LockingRun

/-- After `LockingInit` and the initialisers of the locks; the threads run. -/
def start (isThread : κ → Bool) (waitState : κ → ResourceState) (init : ι → LockInit κ) :
    LockingRun ι κ where
  world := {
    context := fun c => ⟨.ready, waitState c, if isThread c then .thread else .nonBlocking⟩
    thread := fun _ => .running
    added := []
    granted := []
    panicked := false }
  lock := fun l => .init (init l)
  asked := fun _ => false
  confirmed := []

/-- The context may ask for a lock. -/
def CanAsk (s : LockingRun ι κ) (c : κ) : Prop :=
  (s.world.context c).kind = .thread ∧ s.world.thread c = .running ∨
    (s.world.context c).kind = .nonBlocking ∧ s.asked c = false

instance (s : LockingRun ι κ) (c : κ) : Decidable (s.CanAsk c) :=
  inferInstanceAs (Decidable (_ ∨ _))

/-- One event; `none` when it cannot happen. -/
def step (s : LockingRun ι κ) : LockingOp ι κ → Option (LockingRun ι κ)
  | .call l op =>
      if ∀ c ∈ op.request, s.CanAsk c then
        ((s.lock l).perform s.world op).map fun r =>
          { s with
            world := r.1
            lock := Function.update s.lock l r.2
            asked := fun c => s.asked c || decide (op.request = some c) }
      else none
  | .isAcquired c =>
      if (s.world.context c).kind = .nonBlocking ∧ s.asked c = true then
        let r := lockingIsAcquired s.world c
        some { s with
          world := r.1
          asked := if r.2 then Function.update s.asked c false else s.asked
          confirmed := if r.2 then s.confirmed ++ [c] else s.confirmed }
      else none

end LockingRun

open LockingRun

/-! ## what a call does -/

variable {w w' : Contexts κ} {c : κ} {lock lock' : Lock κ} {op : LockOp κ}

/-- What the units keep about their own fields. -/
def Lock.Ok (w : Contexts κ) : Lock κ → Prop
  | .resource lock S E => ResourceOk ⟨w, lock, S, E⟩
  | .signal lock => lock.state = true → lock.waitingThreads = []
  | _ => True

/-- A call, as the other locks see it: its list is served and its own fields
stay right. -/
structure Lock.Calls (w : Contexts κ) (lock : Lock κ) (request : Option κ) (w' : Contexts κ)
    (lock' : Lock κ) : Prop where
  serves : Serves w lock.waiting request w' lock'.waiting
  ok : lock'.Ok w'

/-- `SemaphoreDown` serves the caller, or lets it wait. -/
theorem semaphoreDown_serves {lock : Semaphore κ} (hc : (w.context c).state = .ready) :
    Serves w lock.waitingThreads (some c) (semaphoreDown w lock c).1
      (semaphoreDown w lock c).2.waitingThreads := by
  by_cases h0 : lock.count = 0
  · simp only [semaphoreDown, if_pos h0]
    exact .blocks none c
  · simp only [semaphoreDown, if_neg h0]
    exact .at_once hc

/-- `SemaphoreUp` serves the first that waits. -/
theorem semaphoreUp_serves {lock : Semaphore κ} (hw : ∀ c ∈ lock.waitingThreads, Waits w c) :
    Serves w lock.waitingThreads none (semaphoreUp w lock).1
      (semaphoreUp w lock).2.waitingThreads := by
  cases hl : lock.waitingThreads with
  | nil =>
      simp only [semaphoreUp, hl]
      exact .nothing
  | cons c rest =>
      simp only [semaphoreUp, hl]
      exact .grants [c] rfl (lockingAcquire_grants (.inr (hw c (hl ▸ List.mem_cons_self))))

section Resource

variable {s : ResourceRun κ}

/-- A resource serves those it wakes. -/
theorem ResourceInv.woken_serves (h : ResourceInv s) (hne : s.lock.waitingThreads ≠ []) :
    Serves s.world s.lock.waitingThreads none s.woken.world s.woken.lock.waitingThreads := by
  obtain ⟨c, rest, hl, -, hg, hlock, -⟩ | ⟨cs, rest, hl, -, -, -, hg, hlock, -⟩ := h.woken_cases hne
  · rw [hlock]
    exact .grants [c] hl hg
  · rw [hlock]
    exact .grants cs hl hg

/-- `ResourceLockShared` serves the caller, or lets it wait. -/
theorem lockShared_serves (hc : (s.world.context c).state = .ready) :
    Serves s.world s.lock.waitingThreads (some c) (s.perform (.lockShared c)).world
      (s.perform (.lockShared c)).lock.waitingThreads := by
  rw [perform_lockShared hc]
  split
  · exact .at_once hc
  · exact .blocks (some .shared) c

/-- `ResourceLockExclusive` serves the caller, or lets it wait. -/
theorem lockExclusive_serves (hc : (s.world.context c).state = .ready) :
    Serves s.world s.lock.waitingThreads (some c) (s.perform (.lockExclusive c)).world
      (s.perform (.lockExclusive c)).lock.waitingThreads := by
  rw [perform_lockExclusive hc]
  split
  · exact .at_once hc
  · exact .blocks (some .exclusive) c

/-- `ResourceUnlockShared` serves those it wakes. -/
theorem ResourceInv.unlockShared_serves (h : ResourceInv s) (hc : c ∈ s.sharedHolders) :
    Serves s.world s.lock.waitingThreads none (s.perform (.unlockShared c)).world
      (s.perform (.unlockShared c)).lock.waitingThreads := by
  rw [perform_unlockShared h.toResourceOk hc]
  split
  · next hwake => exact h.woken_serves hwake.2
  · exact .nothing

/-- `ResourceUnlockExclusive` serves those it wakes. -/
theorem ResourceInv.unlockExclusive_serves (h : ResourceInv s) (hc : c ∈ s.exclusiveHolders) :
    Serves s.world s.lock.waitingThreads none (s.perform (.unlockExclusive c)).world
      (s.perform (.unlockExclusive c)).lock.waitingThreads := by
  rw [perform_unlockExclusive h.toResourceOk hc]
  split
  · next hne => exact h.woken_serves hne
  · exact .nothing

/-- A call of a resource, in the terms of its own run. -/
theorem ResourceInv.calls (h : ResourceInv s) {op : ResourceOp κ} {request : Option κ}
    (hserves : s.Allowed op → Serves s.world s.lock.waitingThreads request (s.perform op).world
      (s.perform op).lock.waitingThreads)
    (hstep : Lock.performResource s.world s.lock s.sharedHolders s.exclusiveHolders op =
      some (w', lock')) :
    Lock.Calls s.world (.resource s.lock s.sharedHolders s.exclusiveHolders) request w' lock' := by
  simp only [Lock.performResource, ResourceRun.step, Option.map_eq_some_iff,
    Option.ite_none_right_eq_some, Option.some.injEq, Prod.mk.injEq] at hstep
  obtain ⟨s', ⟨hop, rfl⟩, rfl, rfl⟩ := hstep
  exact ⟨hserves hop, (resourceInv_perform h hop).toResourceOk⟩

end Resource

/-- **Every call of every unit** serves its list and keeps its fields. -/
theorem Lock.perform_calls (hw : ∀ c ∈ lock.waiting, Waits w c) (hnd : lock.waiting.Nodup)
    (hok : lock.Ok w)
    (hready : ∀ c ∈ op.request, (w.context c).state = .ready)
    (h : lock.perform w op = some (w', lock')) : lock.Calls w op.request w' lock' := by
  cases lock with
  | semaphore lock =>
      cases op with
      | semaphoreDown c =>
          obtain ⟨rfl, rfl⟩ := Prod.mk.inj (Option.some.inj h)
          exact ⟨semaphoreDown_serves (hready c rfl), trivial⟩
      | semaphoreUp =>
          obtain ⟨rfl, rfl⟩ := Prod.mk.inj (Option.some.inj h)
          exact ⟨semaphoreUp_serves hw, trivial⟩
      | _ => cases h
  | resource lock S E =>
      have hinv : ResourceInv ⟨w, lock, S, E⟩ := ⟨hok, hw, hnd⟩
      cases op with
      | resourceLockShared c => exact hinv.calls (fun _ => lockShared_serves (hready c rfl)) h
      | resourceLockExclusive c => exact hinv.calls (fun _ => lockExclusive_serves (hready c rfl)) h
      | resourceUnlockShared c => exact hinv.calls hinv.unlockShared_serves h
      | resourceUnlockExclusive c => exact hinv.calls hinv.unlockExclusive_serves h
      | _ => cases h
  | signal lock =>
      cases op with
      | signalSet =>
          obtain ⟨rfl, rfl⟩ := Prod.mk.inj (Option.some.inj h)
          exact ⟨signalSet_serves hw hnd hok, fun _ => signalSet_empty hok⟩
      | signalUnset =>
          obtain ⟨rfl, rfl⟩ := Prod.mk.inj (Option.some.inj h)
          exact ⟨.nothing, fun hs => by cases hs⟩
      | signalWaitForSignal c =>
          obtain ⟨rfl, rfl⟩ := Prod.mk.inj (Option.some.inj h)
          exact ⟨signalWaitForSignal_serves (hready c rfl), signalWaitForSignal_empty hok⟩
      | _ => cases h
  | barrier lock =>
      cases op with
      | barrierSync c =>
          obtain ⟨rfl, rfl⟩ := Prod.mk.inj (Option.some.inj h)
          exact ⟨barrierSync_serves hw hnd (hready c rfl), trivial⟩
      | _ => cases h
  | generation lock =>
      cases op with
      | generationWait value c =>
          obtain ⟨rfl, rfl⟩ := Prod.mk.inj (Option.some.inj h)
          exact ⟨generationWait_serves (hready c rfl), trivial⟩
      | generationUpdate value =>
          obtain ⟨rfl, rfl⟩ := Prod.mk.inj (Option.some.inj h)
          exact ⟨.all hw hnd, trivial⟩
      | _ => cases h

/-! ## what becomes of a context -/

/-- What a call makes of the context `d`. -/
inductive Fate (w : Contexts κ) (queue : List κ) (request : Option κ) (w' : Contexts κ)
    (queue' : List κ) (d : κ) : Prop
  | untouched (hrequest : d ∉ request) (hmem : d ∈ queue' ↔ d ∈ queue)
      (hctx : w'.context d = w.context d) (hthread : w'.thread d = w.thread d)
      (hgranted : w'.granted.count d = w.granted.count d)
  | granted (hasked : d ∈ request ∨ d ∈ queue) (hmem : d ∉ queue')
      (hkind : (w'.context d).kind = (w.context d).kind)
      (hstate : (w'.context d).state = if (w.context d).kind = .thread then .ready else .acquired)
      (hthread : (w.context d).kind = .thread → w'.thread d = .running)
      (hgranted : w'.granted.count d = w.granted.count d + 1)
  | blocked (hasked : d ∈ request) (hmem : d ∈ queue')
      (hkind : (w'.context d).kind = (w.context d).kind) (hwaits : Waits w' d)
      (hgranted : w'.granted.count d = w.granted.count d)

/-- The context may make a request: it is ready, and its thread runs. -/
def Asks (w : Contexts κ) (c : κ) : Prop :=
  (w.context c).state = .ready ∧ ((w.context c).kind = .thread → w.thread c = .running)

section Serves

variable {queue queue' : List κ} {request : Option κ}

omit [DecidableEq κ] in
/-- Who asks does not wait already. -/
theorem Asks.notMem (h : Asks w c) (hw : ∀ c ∈ queue, Waits w c) : c ∉ queue := fun hmem => by
  have hblocking := (hw c hmem).1
  rw [h.1] at hblocking
  cases hblocking

/-- **What becomes of a context** in a call. -/
theorem Serves.fate (h : Serves w queue request w' queue') (hw : ∀ c ∈ queue, Waits w c)
    (hnd : queue.Nodup) (hasks : ∀ c ∈ request, Asks w c) (d : κ) :
    Fate w queue request w' queue' d := by
  cases h with
  | blocks info c =>
      rw [lockingBlock_eq (hasks c rfl).1]
      by_cases hdc : d = c
      · subst hdc
        refine .blocked rfl (by simp) (by simp) ⟨by simp, fun hk => ?_⟩ rfl
        have hk : (w.context d).kind = .thread := by simpa using hk
        simp [hk]
      · refine .untouched (by simpa [eq_comm] using hdc) (by simp [hdc]) (by simp [hdc]) ?_ rfl
        split <;> simp [hdc]
  | grants woken hqueue hg =>
      subst hqueue
      have hnd' := List.nodup_append.mp hnd
      have hcs : (request.toList ++ woken).Nodup := by
        cases request with
        | none => exact hnd'.1
        | some c =>
            refine List.nodup_cons.mpr ⟨fun hc => ?_, hnd'.1⟩
            exact (hasks c rfl).notMem hw (List.mem_append_left queue' hc)
      by_cases hd : d ∈ request.toList ++ woken
      · have hcount : w'.granted.count d = w.granted.count d + 1 := by
          rw [hg.granted, List.count_append, List.count_eq_one_of_mem hcs hd]
        obtain hr | hr := List.mem_append.mp hd
        · have hr : d ∈ request := Option.mem_toList.mp hr
          refine .granted (.inl hr) (fun hq => ?_) (hg.kind d) (hg.state d hd) (fun hk => ?_) hcount
          · exact (hasks d hr).notMem hw (List.mem_append_right woken hq)
          · rw [hg.stays d hd (hasks d hr).1]
            exact (hasks d hr).2 hk
        · have hmem := List.mem_append_left queue' hr
          refine .granted (.inr hmem) (fun hq => ?_) (hg.kind d) (hg.state d hd)
            (hg.woken d hd (hw d hmem)) hcount
          exact hnd'.2.2 d hr d hq rfl
      · have hnot : d ∉ request ∧ d ∉ woken := by
          rwa [List.mem_append, Option.mem_toList, not_or] at hd
        refine .untouched hnot.1 (by simp [hnot.2]) (hg.context d hd) (hg.thread d hd) ?_
        rw [hg.granted, List.count_append, List.count_eq_zero_of_not_mem hd, Nat.add_zero]

/-- Nobody waits twice. -/
theorem Serves.nodup (h : Serves w queue request w' queue') (hw : ∀ c ∈ queue, Waits w c)
    (hnd : queue.Nodup) (hasks : ∀ c ∈ request, Asks w c) : queue'.Nodup := by
  cases h with
  | blocks info c =>
      rw [List.nodup_append]
      refine ⟨hnd, List.nodup_singleton c, fun a ha b hb hab => ?_⟩
      exact (hasks c rfl).notMem hw (List.mem_singleton.mp hb ▸ hab ▸ ha)
  | grants woken hqueue hg => exact (List.nodup_append.mp (hqueue ▸ hnd)).2.1

/-- No assertion fails. -/
theorem Serves.panicked (h : Serves w queue request w' queue') (hasks : ∀ c ∈ request, Asks w c) :
    w'.panicked = w.panicked := by
  cases h with
  | blocks info c => rw [lockingBlock_eq (hasks c rfl).1]
  | grants woken hqueue hg => exact hg.panicked

end Serves

/-! ## all locks -/

/-- Every context waits in exactly one list, or in none and is not blocking; the
accounts of the callers are right. -/
structure UniformInv (s : LockingRun ι κ) : Prop where
  waits : ∀ l, ∀ c ∈ (s.lock l).waiting, Waits s.world c
  idle : ∀ c, (∀ l, c ∉ (s.lock l).waiting) → (s.world.context c).state ≠ .blocking
  nodup : ∀ l, (s.lock l).waiting.Nodup
  one : ∀ l m c, c ∈ (s.lock l).waiting → c ∈ (s.lock m).waiting → l = m
  lock : ∀ l, (s.lock l).Ok s.world
  thread : ∀ c, (s.world.context c).kind = .thread → (s.world.context c).state ≠ .blocking →
    (s.world.context c).state = .ready ∧ s.world.thread c = .running
  asked : ∀ c, (s.world.context c).kind = .nonBlocking →
    (s.asked c = false ↔ (s.world.context c).state = .ready)
  confirmed : ∀ c, (s.world.context c).kind = .nonBlocking → s.world.granted.count c =
    s.confirmed.count c + if (s.world.context c).state = .acquired then 1 else 0
  kind : ∀ c, (s.world.context c).kind ≠ .worker
  fine : s.world.panicked = false

/-- What holds of the contexts, the threads and the lists. -/
structure UniformOk (s : LockingRun ι κ) : Prop where
  /-- A context is blocking exactly when it is linked once in one lock's list and
  nowhere else. -/
  linked : ∀ c, (s.world.context c).state = .blocking ↔
    ∃ l, ∀ m, (s.lock m).waiting.count c = if m = l then 1 else 0
  /-- Otherwise it is linked nowhere. -/
  unlinked : ∀ c, (s.world.context c).state ≠ .blocking → ∀ l, c ∉ (s.lock l).waiting
  /-- A thread's context is blocking exactly when the thread is blocked. -/
  thread : ∀ c, (s.world.context c).kind = .thread →
    ((s.world.context c).state = .blocking ↔ s.world.thread c = .blocked)
  /-- A non-blocking context is acquired exactly while it has been granted one
  lock more than `LockingIsAcquired` has confirmed. -/
  acquired : ∀ c, (s.world.context c).kind = .nonBlocking →
    s.world.granted.count c =
      s.confirmed.count c + if (s.world.context c).state = .acquired then 1 else 0
  /-- No `ASSERT` or `KernelPanic` has been reached. -/
  fine : s.world.panicked = false

variable {s s' : LockingRun ι κ} {l m : ι} {d : κ}

omit [DecidableEq ι] in
/-- Who is blocking waits for some lock. -/
theorem UniformInv.mem_of_blocking (h : UniformInv s) (hc : (s.world.context c).state = .blocking) :
    ∃ l, c ∈ (s.lock l).waiting := by
  by_contra hnone
  rw [not_exists] at hnone
  exact h.idle c hnone hc

omit [DecidableEq ι] in
/-- The callers' rules, in the terms of the contexts. -/
theorem UniformInv.asks (h : UniformInv s) (hc : s.CanAsk c) : Asks s.world c := by
  obtain ⟨hk, hrunning⟩ | ⟨hk, hasked⟩ := hc
  · have hnot : (s.world.context c).state ≠ .blocking := fun hb => by
      obtain ⟨l, hl⟩ := h.mem_of_blocking hb
      have hblocked := (h.waits l c hl).2 hk
      rw [hrunning] at hblocked
      cases hblocked
    exact ⟨(h.thread c hk hnot).1, fun _ => hrunning⟩
  · refine ⟨(h.asked c hk).mp hasked, fun hthread => ?_⟩
    rw [hk] at hthread
    cases hthread

omit [DecidableEq κ] in
/-- A lock's own fields, when its waiters are not touched. -/
theorem Lock.Ok.frame (h : lock.Ok w) (hctx : ∀ c ∈ lock.waiting, w'.context c = w.context c)
    (hp : w'.panicked = w.panicked) : lock.Ok w' := by
  cases lock with
  | semaphore lock => trivial
  | barrier lock => trivial
  | generation lock => trivial
  | signal lock => exact h
  | resource lock S E =>
      refine ⟨h.one, h.alone, h.numShared, h.state, h.held, fun hs c hc => ?_, hp.trans h.fine⟩
      rw [hctx c (List.mem_of_mem_head? hc)]
      exact h.head hs c hc

omit [DecidableEq κ] in
/-- The call changes the queue of its lock alone. -/
theorem waiting_update (lock' : Lock κ) :
    (Function.update s.lock l lock' m).waiting =
      if m = l then lock'.waiting else (s.lock m).waiting := by
  by_cases hm : m = l
  · subst hm
    simp
  · simp [hm]

section Call

variable (h : UniformInv s) (hasks : ∀ c ∈ op.request, Asks s.world c)
  (hcalls : (s.lock l).Calls s.world op.request w' lock')

include h hasks hcalls

omit [DecidableEq ι] in
/-- What becomes of a context in a call of the run. -/
theorem UniformInv.fate (d : κ) :
    Fate s.world (s.lock l).waiting op.request w' lock'.waiting d :=
  hcalls.serves.fate (h.waits l) (h.nodup l) hasks d

omit [DecidableEq ι] in
/-- A context that waits for another lock is not touched. -/
theorem UniformInv.call_frame (hm : m ≠ l) (hd : d ∈ (s.lock m).waiting) :
    w'.context d = s.world.context d ∧ w'.thread d = s.world.thread d := by
  have hnot : ¬ (d ∈ op.request ∨ d ∈ (s.lock l).waiting) := by
    rintro (hr | hq)
    · exact (hasks d hr).notMem (h.waits m) hd
    · exact hm (h.one m l d hd hq)
  obtain ⟨-, -, hctx, hthread, -⟩ | ⟨hasked⟩ | ⟨hasked⟩ := h.fate hasks hcalls d
  · exact ⟨hctx, hthread⟩
  · exact absurd hasked hnot
  · exact absurd (.inl hasked) hnot

/-- Whoever is in a list afterwards was in it before, or has just asked. -/
theorem UniformInv.call_mem (hd : d ∈ (Function.update s.lock l lock' m).waiting) :
    d ∈ (s.lock m).waiting ∨ m = l ∧ d ∈ op.request := by
  rw [waiting_update] at hd
  split at hd
  · next hm =>
    subst hm
    obtain ⟨-, hmem, -⟩ | ⟨-, hmem⟩ | ⟨hasked⟩ := h.fate hasks hcalls d
    · exact .inl (hmem.mp hd)
    · exact absurd hd hmem
    · exact .inr ⟨rfl, hasked⟩
  · exact .inl hd

/-- Who is in a queue waits. -/
theorem UniformInv.call_waits (hd : d ∈ (Function.update s.lock l lock' m).waiting) :
    Waits w' d := by
  rw [waiting_update] at hd
  split at hd
  · obtain ⟨-, hmem, hctx, hthread, -⟩ | ⟨-, hmem⟩ | ⟨-, -, -, hwaits⟩ := h.fate hasks hcalls d
    · rw [Waits, hctx, hthread]
      exact h.waits l d (hmem.mp hd)
    · exact absurd hd hmem
    · exact hwaits
  · next hm =>
    obtain ⟨hctx, hthread⟩ := h.call_frame hasks hcalls hm hd
    rw [Waits, hctx, hthread]
    exact h.waits m d hd

/-- Who is in no queue does not wait. -/
theorem UniformInv.call_idle (hd : ∀ m, d ∉ (Function.update s.lock l lock' m).waiting) :
    (w'.context d).state ≠ .blocking := by
  have hl := hd l
  rw [Function.update_self] at hl
  obtain ⟨-, hmem, hctx, -⟩ | ⟨-, -, -, hstate⟩ | ⟨-, hmem⟩ := h.fate hasks hcalls d
  · rw [hctx]
    refine h.idle d fun m hm => ?_
    by_cases hml : m = l
    · exact hl (hmem.mpr (hml ▸ hm))
    · have hnot := hd m
      rw [Function.update_of_ne hml] at hnot
      exact hnot hm
  · rw [hstate]
    split <;> decide
  · exact absurd hmem hl

/-- Nobody waits for two locks. -/
theorem UniformInv.call_one {n : ι} (hm : d ∈ (Function.update s.lock l lock' m).waiting)
    (hn : d ∈ (Function.update s.lock l lock' n).waiting) : m = n := by
  obtain hm | ⟨hml, hr⟩ := h.call_mem hasks hcalls hm <;>
  obtain hn | ⟨hnl, hr'⟩ := h.call_mem hasks hcalls hn
  · exact h.one m n d hm hn
  · exact absurd hm ((hasks d hr').notMem (h.waits m))
  · exact absurd hn ((hasks d hr).notMem (h.waits n))
  · exact hml.trans hnl.symm

omit [DecidableEq ι] in
/-- The kind of a context stays. -/
theorem UniformInv.call_kind : (w'.context d).kind = (s.world.context d).kind := by
  obtain ⟨-, -, hctx, -⟩ | ⟨-, -, hkind, -⟩ | ⟨-, -, hkind, -⟩ := h.fate hasks hcalls d
  · rw [hctx]
  · exact hkind
  · exact hkind

omit [DecidableEq ι] in
/-- A thread that does not wait runs. -/
theorem UniformInv.call_thread (hk : (w'.context d).kind = .thread)
    (hd : (w'.context d).state ≠ .blocking) :
    (w'.context d).state = .ready ∧ w'.thread d = .running := by
  rw [h.call_kind hasks hcalls] at hk
  obtain ⟨-, -, hctx, hthread, -⟩ | ⟨-, -, -, hstate, hthread, -⟩ | ⟨-, -, -, hwaits, -⟩ :=
    h.fate hasks hcalls d
  · rw [hctx] at hd
    rw [hctx, hthread]
    exact h.thread d hk hd
  · exact ⟨hstate.trans (if_pos hk), hthread hk⟩
  · exact absurd hwaits.1 hd

omit [DecidableEq ι] in
/-- A context without a thread is ready when it has not asked. -/
theorem UniformInv.call_asked (hk : (w'.context d).kind = .nonBlocking) :
    (s.asked d || decide (op.request = some d)) = false ↔ (w'.context d).state = .ready := by
  rw [h.call_kind hasks hcalls] at hk
  have hnew : d ∈ op.request → (s.asked d || decide (op.request = some d)) = true := fun hr => by
    simp [Option.mem_def.mp hr]
  obtain ⟨hr, -, hctx, -⟩ | ⟨hasked, -, -, hstate, -⟩ | ⟨hr, -, -, hwaits, -⟩ :=
    h.fate hasks hcalls d
  · rw [hctx, ← h.asked d hk]
    simp [show op.request ≠ some d from hr]
  · refine iff_of_false ?_ (by rw [hstate]; simp [hk])
    rw [Bool.not_eq_false]
    obtain hr | hq := hasked
    · exact hnew hr
    · have hne : (s.world.context d).state ≠ .ready := fun hready => by
        have hblocking := (h.waits l d hq).1
        rw [hready] at hblocking
        cases hblocking
      rw [ne_eq, ← h.asked d hk, Bool.not_eq_false] at hne
      rw [hne, Bool.true_or]
  · refine iff_of_false ?_ (by rw [hwaits.1]; decide)
    rw [Bool.not_eq_false]
    exact hnew hr

omit [DecidableEq ι] in
/-- A grant is confirmed, or still to be confirmed. -/
theorem UniformInv.call_confirmed (hk : (w'.context d).kind = .nonBlocking) :
    w'.granted.count d =
      s.confirmed.count d + if (w'.context d).state = .acquired then 1 else 0 := by
  rw [h.call_kind hasks hcalls] at hk
  have hold := h.confirmed d hk
  obtain ⟨-, -, hctx, -, hgranted⟩ | ⟨hasked, -, -, hstate, -, hgranted⟩ |
    ⟨hr, -, -, hwaits, hgranted⟩ := h.fate hasks hcalls d
  · rw [hgranted, hctx, hold]
  · have hne : (s.world.context d).state ≠ .acquired := by
      obtain hr | hq := hasked
      · rw [(hasks d hr).1]
        decide
      · rw [(h.waits l d hq).1]
        decide
    have hacquired : (w'.context d).state = .acquired := by
      rw [hstate]
      simp [hk]
    rw [hgranted, hold, if_neg hne, if_pos hacquired]
  · rw [hgranted, hold, hwaits.1, (hasks d hr).1]
    rfl

/-- **A call of any lock.** -/
theorem UniformInv.call :
    UniformInv { s with
      world := w'
      lock := Function.update s.lock l lock'
      asked := fun c => s.asked c || decide (op.request = some c) } where
  waits m c hc := h.call_waits hasks hcalls hc
  idle c hc := h.call_idle hasks hcalls hc
  nodup m := by
    simp only [waiting_update]
    split
    · exact hcalls.serves.nodup (h.waits l) (h.nodup l) hasks
    · exact h.nodup m
  one m n c hm hn := h.call_one hasks hcalls hm hn
  lock m := by
    by_cases hm : m = l
    · subst hm
      simp only [Function.update_self]
      exact hcalls.ok
    · simp only [Function.update_of_ne hm]
      exact (h.lock m).frame (fun c hc => (h.call_frame hasks hcalls hm hc).1)
        (hcalls.serves.panicked hasks)
  thread c hk hc := h.call_thread hasks hcalls hk hc
  asked c hk := h.call_asked hasks hcalls hk
  confirmed c hk := h.call_confirmed hasks hcalls hk
  kind c hk := h.kind c ((h.call_kind hasks hcalls).symm.trans hk)
  fine := (hcalls.serves.panicked hasks).trans h.fine

end Call

omit [DecidableEq ι] in
/-- **`LockingIsAcquired`** after a request: it is granted and confirmed now, or it
still waits. -/
theorem UniformInv.isAcquired (h : UniformInv s) (hk : (s.world.context c).kind = .nonBlocking)
    (hasked : s.asked c = true) :
    UniformInv { s with
      world := (lockingIsAcquired s.world c).1
      asked := if (lockingIsAcquired s.world c).2 then Function.update s.asked c false else s.asked
      confirmed := if (lockingIsAcquired s.world c).2 then s.confirmed ++ [c] else s.confirmed } := by
  cases hs : (s.world.context c).state with
  | ready =>
      rw [(h.asked c hk).mpr hs] at hasked
      cases hasked
  | blocking =>
      simp only [lockingIsAcquired, hs, Bool.false_eq_true, ↓reduceIte]
      exact h
  | acquired =>
      have hctx : ∀ d, (s.world.setState c .ready).context d =
          if d = c then { s.world.context c with state := .ready } else s.world.context d :=
        fun d => Function.update_apply ..
      have hnot : ∀ l, c ∉ (s.lock l).waiting := fun l hl => by
        have hblocking := (h.waits l c hl).1
        rw [hs] at hblocking
        cases hblocking
      have hother : ∀ l, ∀ d ∈ (s.lock l).waiting, d ≠ c := fun l d hd hdc => hnot l (hdc ▸ hd)
      simp only [lockingIsAcquired, hs, ↓reduceIte]
      refine ⟨fun l d hd => ?_, fun d hd => ?_, h.nodup, h.one, fun l => ?_, fun d hkd hd => ?_,
        fun d hkd => ?_, fun d hkd => ?_, fun d => ?_, h.fine⟩
      · rw [Waits, hctx, if_neg (hother l d hd)]
        exact h.waits l d hd
      · rw [hctx]
        split
        · exact fun hr => by cases hr
        · exact h.idle d hd
      · exact (h.lock l).frame (fun d hd => by rw [hctx, if_neg (hother l d hd)]) rfl
      · rw [hctx] at hkd hd ⊢
        split at hkd
        · rw [hk] at hkd
          cases hkd
        · next hdc =>
          rw [if_neg hdc] at hd ⊢
          exact h.thread d hkd hd
      · rw [hctx] at hkd ⊢
        by_cases hdc : d = c
        · subst hdc
          simp
        · rw [if_neg hdc] at hkd ⊢
          simp only [Function.update_of_ne hdc]
          exact h.asked d hkd
      · rw [hctx] at hkd ⊢
        by_cases hdc : d = c
        · subst hdc
          have hold := h.confirmed d hk
          rw [if_pos hs] at hold
          simpa [Contexts.setState] using hold
        · rw [if_neg hdc] at hkd ⊢
          have hcount : (s.confirmed ++ [c]).count d = s.confirmed.count d := by
            simp [Ne.symm hdc]
          exact hcount ▸ h.confirmed d hkd
      · rw [hctx]
        split
        · exact h.kind c
        · exact h.kind d

omit [DecidableEq ι] in
/-- Nobody waits at the start. -/
theorem uniformInv_start (isThread : κ → Bool) (waitState : κ → ResourceState)
    (init : ι → LockInit κ) : UniformInv (start isThread waitState init) := by
  have hnil : ∀ l, ((start isThread waitState init).lock l).waiting = [] := fun l => by
    cases hl : init l <;> simp [start, hl, Lock.init, Lock.waiting, semaphoreInit, resourceInit,
      signalInit, barrierInit, generationInit]
  refine ⟨fun l c hc => ?_, fun c _ hb => (by cases hb), fun l => ?_, fun l m c hl => ?_, fun l => ?_,
    fun c _ _ => ⟨rfl, rfl⟩, fun c _ => iff_of_true rfl rfl, fun c _ => rfl, fun c => ?_, rfl⟩
  · rw [hnil] at hc
    cases hc
  · rw [hnil]
    exact List.nodup_nil
  · rw [hnil] at hl
    cases hl
  · cases hl : init l with
    | semaphore count => simp only [start, hl]; trivial
    | barrier count => simp only [start, hl]; trivial
    | generation init => simp only [start, hl]; trivial
    | signal state => simp only [start, hl]; exact fun _ => rfl
    | resource mode creator =>
        simp only [start, hl]
        cases mode <;> constructor <;> simp [resourceInit]
  · cases hc : isThread c <;> simp [start, hc]

/-- **One step** keeps the invariant. -/
theorem UniformInv.step {op : LockingOp ι κ} (h : UniformInv s) (hstep : s.step op = some s') :
    UniformInv s' := by
  cases op with
  | call l op =>
      simp only [LockingRun.step, Option.ite_none_right_eq_some, Option.map_eq_some_iff] at hstep
      obtain ⟨hask, ⟨w', lock'⟩, hperform, rfl⟩ := hstep
      have hasks : ∀ c ∈ op.request, Asks s.world c := fun c hc => h.asks (hask c hc)
      exact h.call hasks (Lock.perform_calls (h.waits l) (h.nodup l) (h.lock l)
        (fun c hc => (hasks c hc).1) hperform)
  | isAcquired c =>
      simp only [LockingRun.step, Option.ite_none_right_eq_some, Option.some.injEq] at hstep
      obtain ⟨⟨hk, hasked⟩, rfl⟩ := hstep
      exact h.isAcquired hk hasked

/-- The invariant gives the promises. -/
theorem UniformInv.uniformOk (h : UniformInv s) : UniformOk s where
  linked c := by
    refine ⟨fun hb => ?_, fun ⟨l, hl⟩ => ?_⟩
    · obtain ⟨l, hl⟩ := h.mem_of_blocking hb
      refine ⟨l, fun m => ?_⟩
      split
      · next hm =>
        subst hm
        exact List.count_eq_one_of_mem (h.nodup m) hl
      · next hm =>
        exact List.count_eq_zero_of_not_mem fun hmem => hm (h.one m l c hmem hl)
    · have hcount := hl l
      rw [if_pos rfl] at hcount
      exact (h.waits l c (List.count_pos_iff.mp (by omega))).1
  unlinked c hc l hl := hc (h.waits l c hl).1
  thread c hk := by
    refine ⟨fun hb => ?_, fun hblocked => ?_⟩
    · obtain ⟨l, hl⟩ := h.mem_of_blocking hb
      exact (h.waits l c hl).2 hk
    · by_contra hb
      have hrunning := (h.thread c hk hb).2
      rw [hblocked] at hrunning
      cases hrunning
  acquired c hk := h.confirmed c hk
  fine := h.fine

/-- **One state machine for all locks.**  For any semaphores, resources, signals,
barriers and generations, any thread and non-blocking contexts, and any sequence
of calls that keeps the callers' rules: after every operation the contexts, the
threads and the lists agree. -/
theorem uniform_locking (isThread : κ → Bool) (waitState : κ → ResourceState)
    (init : ι → LockInit κ) (ops : List (LockingOp ι κ))
    (h : exec LockingRun.step (start isThread waitState init) ops = some s) : UniformOk s :=
  (exec_invariant (fun _ _ _ hs => UniformInv.step hs) (uniformInv_start isThread waitState init)
    h).uniformOk

/-- A thread and two non-blocking callers, 0, 1 and 2, wait for a signal, a
barrier and a resource. -/
theorem uniform_locking_sample :
    ∃ s : LockingRun (Fin 3) (Fin 3), exec LockingRun.step
        (start (fun c => c = 0) (fun _ => .shared)
          fun l => if l = 0 then .signal false else if l = 1 then .barrier 2
            else .resource .exclusive 2)
        [.call 0 (.signalWaitForSignal 0), .call 2 (.resourceLockShared 1), .call 1 (.barrierSync 2),
          .call 2 (.resourceUnlockExclusive 2), .isAcquired 1, .call 1 (.barrierSync 1),
          .call 0 .signalSet] = some s ∧
      (s.world.context 1).state = .acquired ∧ (s.world.context 2).state = .acquired ∧
      s.world.thread 0 = .running ∧ UniformOk s := by
  have hend : (exec LockingRun.step (start (fun c : Fin 3 => c = 0) (fun _ => .shared)
        fun l : Fin 3 => if l = 0 then .signal false else if l = 1 then .barrier 2
          else .resource .exclusive 2)
      [.call 0 (.signalWaitForSignal 0), .call 2 (.resourceLockShared 1), .call 1 (.barrierSync 2),
        .call 2 (.resourceUnlockExclusive 2), .isAcquired 1, .call 1 (.barrierSync 1),
        .call 0 .signalSet]).map
      (fun s => ((s.world.context 1).state, (s.world.context 2).state, s.world.thread 0)) =
        some (.acquired, .acquired, .running) := by decide
  obtain ⟨s, hs, heq⟩ := Option.map_eq_some_iff.mp hend
  obtain ⟨h1, hrest⟩ := Prod.mk.inj heq
  obtain ⟨h2, h0⟩ := Prod.mk.inj hrest
  exact ⟨s, hs, h1, h2, h0, uniform_locking _ _ _ _ hs⟩

end KernelPanic
