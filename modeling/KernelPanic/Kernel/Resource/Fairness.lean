import KernelPanic.Kernel.Resource.Exclusion

/-!
# KernelPanic.Kernel.Resource.Fairness

In which order a `RESOURCE` is granted.  `FairRun` logs every request and every
grant of a run, each with its mode.  The requests are always the grants followed
by the waiting queue (`FairOk`), so that nobody is overtaken and nobody is
granted the lock twice for one request; and an unlock that frees the lock serves
as many waiters as the two modes admit (`inLine`).
-/

namespace KernelPanic

open Run ResourceRun

variable {κ : Type*} [DecidableEq κ]

/-- The waiting contexts, each with the mode it waits for. -/
def ResourceRun.queue (s : ResourceRun κ) : List (κ × ResourceState) :=
  s.lock.waitingThreads.map fun c => (c, (s.world.context c).resourceWaitState)

/-- A group of requests that can hold the lock together: shared ones, or an
exclusive one alone. -/
def Admissible (p : List (κ × ResourceState)) : Prop :=
  (∀ r ∈ p, r.2 = .shared) ∨ ∃ c, p = [(c, .exclusive)]

/-- Whom a free lock should serve: the first waiter alone if it is exclusive,
otherwise the leading shared waiters. -/
def inLine : List (κ × ResourceState) → List (κ × ResourceState)
  | [] => []
  | (c, .exclusive) :: _ => [(c, .exclusive)]
  | (c, .shared) :: rest => (c, .shared) :: rest.takeWhile fun r => r.2 = .shared

/-! ## the longest admissible prefix -/

variable {p q : List (κ × ResourceState)}

/-- A prefix all of whose entries pass a test is a prefix of the longest one. -/
theorem prefix_takeWhile {α : Type*} {f : α → Bool} {l m : List α} (hl : l <+: m)
    (hall : ∀ a ∈ l, f a = true) : l <+: m.takeWhile f := by
  obtain ⟨rest, rfl⟩ := hl
  rw [List.takeWhile_append_of_pos hall]
  exact List.prefix_append l _

omit [DecidableEq κ] in
/-- **Nobody else could be served**: every admissible prefix of the queue is a
prefix of the one served. -/
theorem Admissible.prefix_inLine (hp : Admissible p) (hpre : p <+: q) : p <+: inLine q := by
  cases q with
  | nil => exact hpre
  | cons r rest =>
      obtain ⟨c, mode⟩ := r
      cases p with
      | nil => exact List.nil_prefix
      | cons a p =>
          obtain ⟨rfl, hrest⟩ := List.cons_prefix_cons.mp hpre
          cases mode with
          | exclusive =>
              obtain hall | ⟨d, hd⟩ := hp
              · exact absurd (hall _ List.mem_cons_self) (by simp)
              · rw [hd]
                simp [inLine, (List.cons.inj hd).1]
          | shared =>
              obtain hall | ⟨d, hd⟩ := hp
              · refine List.cons_prefix_cons.mpr ⟨rfl, prefix_takeWhile hrest fun r hr => ?_⟩
                simpa using hall r (List.mem_cons_of_mem _ hr)
              · simp at hd

/-! ## runs with their logs -/

/-- A run, the requests made in it and the requests granted, in order. -/
structure FairRun (κ : Type*) where
  run : ResourceRun κ
  requests : List (κ × ResourceState)
  grants : List (κ × ResourceState)

/-- The request an operation makes. -/
def ResourceOp.request : ResourceOp κ → List (κ × ResourceState)
  | .lockShared c => [(c, .shared)]
  | .lockExclusive c => [(c, .exclusive)]
  | _ => []

/-- The mode in which an operation grants the lock to `c`: the one `c` asks for
now, or the one it has been waiting for. -/
def ResourceRun.grantMode (s : ResourceRun κ) (op : ResourceOp κ) (c : κ) : ResourceState :=
  match op with
  | .lockShared _ => .shared
  | .lockExclusive _ => .exclusive
  | _ => (s.world.context c).resourceWaitState

/-- The requests granted by an operation that leads from `s` to `s'`. -/
def ResourceRun.granted (s : ResourceRun κ) (op : ResourceOp κ) (s' : ResourceRun κ) :
    List (κ × ResourceState) :=
  (newlyGranted s.world s'.world).map fun c => (c, grantMode s op c)

namespace FairRun

def start (mode : ResourceState) (creator : κ) (world : Contexts κ) : FairRun κ :=
  ⟨ResourceRun.start mode creator world, [], []⟩

def step (s : FairRun κ) (op : ResourceOp κ) : Option (FairRun κ) :=
  (s.run.step op).map fun run =>
    ⟨run, s.requests ++ op.request, s.grants ++ granted s.run op run⟩

end FairRun

/-- The requests are the grants followed by the queue: they are granted in the
order in which they were made, each at most once. -/
structure FairOk (s : FairRun κ) : Prop where
  requests : s.requests = s.grants ++ queue s.run

/-- The operation takes the lock from its last holder. -/
def Frees (s : ResourceRun κ) : ResourceOp κ → Prop
  | .unlockShared c => s.sharedHolders.erase c = []
  | .unlockExclusive c => s.exclusiveHolders.erase c = []
  | _ => False

/-- An operation that frees the lock serves the longest admissible part of the
queue: the first waiter alone if it is exclusive, otherwise all leading shared
ones. -/
def ServesInLine (s : FairRun κ) (op : ResourceOp κ) : Prop :=
  ∀ s', s.step op = some s' → Frees s.run op →
    s'.grants = s.grants ++ inLine (queue s.run) ∧
      ∀ p, p <+: queue s.run → Admissible p → p <+: inLine (queue s.run)

/-! ## what each operation grants -/

variable {s s' : ResourceRun κ} {c : κ} {op : ResourceOp κ} {mode : ResourceState}

omit [DecidableEq κ] in
theorem granted_eq {cs : List κ} (h : s'.world.granted = s.world.granted ++ cs) :
    granted s op s' = cs.map fun c => (c, grantMode s op c) := by
  rw [granted, newlyGranted_eq h]

omit [DecidableEq κ] in
theorem granted_same (h : s'.world.granted = s.world.granted) : granted s op s' = [] := by
  have hnil : s'.world.granted = s.world.granted ++ [] := h.trans (List.append_nil _).symm
  rw [granted_eq hnil, List.map_nil]

/-- A request that has to wait is last in the queue. -/
theorem queue_blocked (h : ResourceInv s) (hc : (s.world.context c).state = .ready) :
    queue (s.blocked mode c) = queue s ++ [(c, mode)] := by
  have hnot := h.ready_notMem hc
  simp only [queue, ResourceRun.blocked, lockingBlock_eq hc, List.map_append, List.map_cons,
    List.map_nil, Function.update_self, Option.getD_some]
  congr 1
  refine List.map_congr_left fun d hd => ?_
  have hdc : d ≠ c := fun hdc => hnot (hdc ▸ hd)
  rw [Function.update_of_ne hdc]

theorem granted_blocked (hc : (s.world.context c).state = .ready) :
    granted s op (s.blocked mode c) = [] := by
  refine granted_same ?_
  simp only [ResourceRun.blocked, lockingBlock_eq hc]

omit [DecidableEq κ] in
/-- After some waiters were served, the others wait as before. -/
theorem queue_of_grants {cs rest : List κ} (hl : s.lock.waitingThreads = cs ++ rest)
    (hl' : s'.lock.waitingThreads = rest) (hg : Grants s.world s'.world cs) :
    queue s = (cs.map fun c => (c, (s.world.context c).resourceWaitState)) ++ queue s' := by
  rw [queue, hl, List.map_append, queue, hl']
  congr 1
  exact List.map_congr_left fun d _ => by rw [hg.waitState]

/-- Waking serves the waiters in line. -/
theorem granted_woken (op : ResourceOp κ) (h : ResourceInv s) (hne : s.lock.waitingThreads ≠ [])
    (hop : ∀ c, grantMode s op c = (s.world.context c).resourceWaitState) :
    granted s op s.woken = inLine (queue s) ∧ queue s = granted s op s.woken ++ queue s.woken := by
  have hmode : (fun c => (c, grantMode s op c)) =
      fun c => (c, (s.world.context c).resourceWaitState) := by
    funext c
    rw [hop]
  obtain ⟨c, rest, hl, hc, hg, hlock, -⟩ | ⟨cs, rest, hl, hcs, hshared, hhead, hg, hlock, -⟩ :=
    h.woken_cases hne
  · have hwait : (s.world.context c).resourceWaitState = .exclusive := by
      cases hm : (s.world.context c).resourceWaitState with
      | shared => simp [WantsShared, hm] at hc
      | exclusive => rfl
    rw [granted_eq hg.granted, hmode]
    have hl' : s.lock.waitingThreads = [c] ++ rest := hl
    refine ⟨?_, queue_of_grants hl' (by rw [hlock]) hg⟩
    simp [queue, hl, hwait, inLine]
  · have hwait : ∀ c ∈ cs, (s.world.context c).resourceWaitState = .shared := fun c hc => by
      simpa [WantsShared] using hshared c hc
    rw [granted_eq hg.granted, hmode]
    refine ⟨?_, queue_of_grants hl (by rw [hlock]) hg⟩
    cases cs with
    | nil => exact absurd rfl hcs
    | cons c cs =>
        have hall : ∀ r ∈ cs.map fun c => (c, (s.world.context c).resourceWaitState),
            decide (r.2 = .shared) = true := by
          intro r hr
          obtain ⟨d, hd, rfl⟩ := List.mem_map.mp hr
          simpa using hwait d (List.mem_cons_of_mem c hd)
        have hstop : (rest.map fun c => (c, (s.world.context c).resourceWaitState)).takeWhile
            (fun r => r.2 = .shared) = [] := by
          cases rest with
          | nil => rfl
          | cons d rest =>
              have hd := hhead d rfl
              simp only [WantsShared, decide_eq_false_iff_not] at hd
              simp [hd]
        rw [queue, hl, List.map_append, List.map_cons, hwait c List.mem_cons_self, List.cons_append,
          inLine, List.takeWhile_append_of_pos hall, hstop, List.append_nil]

theorem queue_elsewhere (hc : c ∉ s.lock.waitingThreads) {context : LockingContext}
    {thread : ThreadState} : queue (s.perform (.elsewhere c context thread)) = queue s := by
  refine List.map_congr_left fun d hd => ?_
  have hdc : d ≠ c := fun hdc => hc (hdc ▸ hd)
  simp only [perform, Function.update_of_ne hdc]

/-! ## one step -/

theorem queue_lockShared (h : ResourceInv s) (hc : (s.world.context c).state = .ready) :
    queue s ++ [(c, .shared)] = granted s (.lockShared c) (s.perform (.lockShared c)) ++
      queue (s.perform (.lockShared c)) := by
  rw [perform_lockShared hc]
  split
  · next hfree =>
      have hg : (s.grantShared c).world.granted = s.world.granted ++ [c] :=
        (lockingAcquire_grants (.inl hc)).granted
      rw [granted_eq hg]
      simp [queue, hfree.1, grantMode]
  · rw [granted_blocked hc, queue_blocked h hc, List.nil_append]

theorem queue_lockExclusive (h : ResourceInv s) (hc : (s.world.context c).state = .ready) :
    queue s ++ [(c, .exclusive)] = granted s (.lockExclusive c) (s.perform (.lockExclusive c)) ++
      queue (s.perform (.lockExclusive c)) := by
  rw [perform_lockExclusive hc]
  split
  · next hfree =>
      have hg : (s.grantExclusive c).world.granted = s.world.granted ++ [c] :=
        (lockingAcquire_grants (.inl hc)).granted
      rw [granted_eq hg]
      simp [queue, hfree.1, grantMode]
  · rw [granted_blocked hc, queue_blocked h hc, List.nil_append]

/-- An unlock by a holder: the queue is served in line if that frees the lock,
and waits as before otherwise. -/
theorem queue_unlockShared (h : ResourceInv s) (hc : c ∈ s.sharedHolders) :
    queue s = granted s (.unlockShared c) (s.perform (.unlockShared c)) ++
        queue (s.perform (.unlockShared c)) ∧
      (Frees s (.unlockShared c) →
        granted s (.unlockShared c) (s.perform (.unlockShared c)) = inLine (queue s)) := by
  rw [perform_unlockShared h.toResourceOk hc]
  split
  · next hwake =>
      obtain ⟨hserved, hqueue⟩ :=
        granted_woken (.unlockShared c) h hwake.2 fun _ => rfl
      exact ⟨hqueue, fun _ => hserved⟩
  · next hwake =>
      simp only [granted_same, List.nil_append]
      refine ⟨rfl, fun hfrees => ?_⟩
      have hempty : s.lock.waitingThreads = [] := by
        by_contra hne
        exact hwake ⟨hfrees, hne⟩
      simp [queue, hempty, inLine]

theorem queue_unlockExclusive (h : ResourceInv s) (hc : c ∈ s.exclusiveHolders) :
    queue s = granted s (.unlockExclusive c) (s.perform (.unlockExclusive c)) ++
        queue (s.perform (.unlockExclusive c)) ∧
      granted s (.unlockExclusive c) (s.perform (.unlockExclusive c)) = inLine (queue s) := by
  rw [perform_unlockExclusive h.toResourceOk hc]
  split
  · next hne =>
      obtain ⟨hserved, hqueue⟩ :=
        granted_woken (.unlockExclusive c) h hne fun _ => rfl
      exact ⟨hqueue, hserved⟩
  · next hne =>
      rw [not_not] at hne
      simp [granted_same, queue, hne, inLine]

/-- **One operation**: the queue, with the request made, is the grants followed
by the new queue. -/
theorem queue_perform (h : ResourceInv s) (hop : s.Allowed op) :
    queue s ++ op.request = granted s op (s.perform op) ++ queue (s.perform op) := by
  cases op with
  | lockShared c => exact queue_lockShared h hop
  | lockExclusive c => exact queue_lockExclusive h hop
  | unlockShared c => exact (List.append_nil _).trans (queue_unlockShared h hop).1
  | unlockExclusive c => exact (List.append_nil _).trans (queue_unlockExclusive h hop).1
  | elsewhere c context thread =>
      have hnone : granted s (.elsewhere c context thread)
          (s.perform (.elsewhere c context thread)) = [] := granted_same rfl
      rw [queue_elsewhere hop, hnone]
      exact List.append_nil _

theorem granted_frees (h : ResourceInv s) (hop : s.Allowed op) (hfrees : Frees s op) :
    granted s op (s.perform op) = inLine (queue s) := by
  cases op with
  | lockShared c => exact absurd hfrees id
  | lockExclusive c => exact absurd hfrees id
  | unlockShared c => exact (queue_unlockShared h hop).2 hfrees
  | unlockExclusive c => exact (queue_unlockExclusive h hop).2
  | elsewhere c context thread => exact absurd hfrees id

section Run

variable {f f' : FairRun κ}

theorem FairRun.step_eq_some (hstep : f.step op = some f') :
    f.run.Allowed op ∧ f' = ⟨f.run.perform op, f.requests ++ op.request,
      f.grants ++ granted f.run op (f.run.perform op)⟩ := by
  simp only [FairRun.step, ResourceRun.step, Option.map_eq_some_iff,
    Option.ite_none_right_eq_some, Option.some.injEq] at hstep
  obtain ⟨run, ⟨hop, rfl⟩, rfl⟩ := hstep
  exact ⟨hop, rfl⟩

theorem FairOk.step (h : FairOk f) (hinv : ResourceInv f.run) (hstep : f.step op = some f') :
    FairOk f' := by
  obtain ⟨hop, rfl⟩ := FairRun.step_eq_some hstep
  constructor
  calc f.requests ++ op.request = f.grants ++ (queue f.run ++ op.request) := by
        rw [h.requests, List.append_assoc]
    _ = f.grants ++ granted f.run op (f.run.perform op) ++ queue (f.run.perform op) := by
        rw [queue_perform hinv hop, List.append_assoc]

theorem ResourceInv.servesInLine (hinv : ResourceInv f.run) : ServesInLine f op := by
  intro f' hstep hfrees
  obtain ⟨hop, rfl⟩ := FairRun.step_eq_some hstep
  exact ⟨congrArg (f.grants ++ ·) (granted_frees hinv hop hfrees),
    fun p hpre hp => hp.prefix_inLine hpre⟩

/-- **First come, first served.**  In every run of matching requests and unlocks,
the requests are granted in the order in which they were made, each at most once,
and every unlock that frees the lock serves the longest admissible part of the
queue. -/
theorem resource_fcfs (mode : ResourceState) (creator : κ) (world : Contexts κ)
    (ops : List (ResourceOp κ))
    (h : exec FairRun.step (FairRun.start mode creator world) ops = some f) :
    FairOk f ∧ Along FairRun.step ServesInLine (FairRun.start mode creator world) ops := by
  have hstep : ∀ (f : FairRun κ) op f', ResourceInv f.run ∧ FairOk f → FairRun.step f op = some f' →
      ResourceInv f'.run ∧ FairOk f' := fun f op f' hf hstep => by
    refine ⟨?_, hf.2.step hf.1 hstep⟩
    obtain ⟨hop, rfl⟩ := FairRun.step_eq_some hstep
    exact resourceInv_perform hf.1 hop
  have hstart : ResourceInv (FairRun.start mode creator world).run ∧
      FairOk (FairRun.start mode creator world) :=
    ⟨resourceInv_start mode creator world, ⟨rfl⟩⟩
  refine ⟨(exec_invariant hstep hstart h).2, ?_⟩
  exact (along_congr (P := ServesInLine) (Q := fun _ _ => True)
    (fun f op hf => iff_of_true hf.1.servesInLine trivial)
    (fun f op f' hf _ => hstep f op f' hf) hstart).mpr (along_of_forall fun _ _ => trivial)

end Run

/-- Two readers queue behind a writer, a second writer and a reader behind
them. -/
theorem resource_fcfs_sample :
    ∃ f : FairRun ℕ, exec FairRun.step (FairRun.start .exclusive 0
          ⟨fun _ => ⟨.ready, .shared, .thread⟩, fun _ => .running, [], [], false⟩)
        [.lockShared 1, .lockShared 2, .lockExclusive 3, .lockShared 4, .unlockExclusive 0] =
          some f ∧
      f.grants = [(1, .shared), (2, .shared)] ∧ FairOk f := by
  have hend : (exec FairRun.step (FairRun.start .exclusive 0
        (⟨fun _ => ⟨.ready, .shared, .thread⟩, fun _ => .running, [], [], false⟩ : Contexts ℕ))
      [.lockShared 1, .lockShared 2, .lockExclusive 3, .lockShared 4, .unlockExclusive 0]).map
        (·.grants) = some [(1, .shared), (2, .shared)] := by decide
  obtain ⟨f, hf, hgrants⟩ := Option.map_eq_some_iff.mp hend
  exact ⟨f, hf, hgrants, (resource_fcfs _ _ _ _ hf).1⟩

end KernelPanic
