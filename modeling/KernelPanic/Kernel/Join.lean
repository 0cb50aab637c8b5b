import KernelPanic.Kernel.Resource.Exclusion

/-!
# KernelPanic.Kernel.Join

A thread's exit and those who join it (`kernel/scheduler.c`).  A thread is
created holding its `ResultLock` exclusively.  When its `Main` returns,
`SchedulerThreadStartup` stores the result, releases the lock to the joiners,
takes it back exclusively and dies; a joiner holds the lock shared from its
`SchedulerJoinThread` to its `SchedulerReleaseThread`.

`join_safe` is what this buys the joiners.  The lock is never released again
after the thread's death, so a joiner that comes after the thread has asked for
it back is stranded: `noneStranded_iff` says that these are exactly the
stranded ones.
-/

namespace KernelPanic

open Run

variable {κ ρ : Type*} [DecidableEq κ]

/-- Where `SchedulerThreadStartup` is: the line it executes next. -/
inductive StartupPc (ρ : Type*) where
  /-- `Main` runs. -/
  | main
  /-- `thread->Result =` the value `Main` returned. -/
  | store (value : ρ)
  /-- `ResourceUnlockExclusive(&thread->ResultLock)`. -/
  | unlock
  /-- `ResourceLockExclusive(&thread->ResultLock, NULL)`. -/
  | relock
  /-- `thread->State = THREAD_STATE_DONE`. -/
  | die
  /-- `SchedulerForceSwitch()`, which does not return. -/
  | dead
deriving DecidableEq

/-- `Main` runs. -/
def StartupPc.isMain : StartupPc ρ → Bool
  | .main => true
  | _ => false

theorem StartupPc.isMain_iff {pc : StartupPc ρ} : pc.isMain = true ↔ pc = .main := by
  cases pc <;> simp [isMain]

/-- What a thread has to do with the joined one. -/
inductive Joiner (ρ : Type*) where
  | none
  /-- In `SchedulerJoinThread`, past its `ResourceLockShared`. -/
  | called
  /-- `SchedulerJoinThread` has returned `value`; not released yet. -/
  | joined (value : ρ)
deriving DecidableEq

/-- The thread, its `ResultLock`, `Result` and `State`, and its joiners. -/
structure JoinRun (κ ρ : Type*) where
  resultLock : ResourceRun κ
  pc : StartupPc ρ
  result : ρ
  /-- What `Main` has returned. -/
  returned : Option ρ
  joiner : κ → Joiner ρ

inductive JoinOp (κ ρ : Type*) where
  /-- `Main` returns. -/
  | mainReturns (value : ρ)
  /-- `SchedulerThreadStartup` executes its next line. -/
  | startup
  /-- `SchedulerJoinThread` calls `ResourceLockShared`. -/
  | join (c : κ)
  /-- `SchedulerJoinThread` returns `thread->Result`. -/
  | joinReturns (c : κ)
  /-- `SchedulerReleaseThread`. -/
  | release (c : κ)
  /-- Something else happens to a thread that does not wait for the result. -/
  | elsewhere (c : κ) (context : LockingContext) (thread : ThreadState)

namespace JoinRun

/-- `SchedulerCreateThread` of `t`. -/
def schedulerCreateThread (t : κ) (world : Contexts κ) (null : ρ) (start : Bool) : JoinRun κ ρ where
  resultLock := ResourceRun.start .exclusive t
    { world with
      context := Function.update world.context t ⟨.ready, .shared, .thread⟩
      thread := Function.update world.thread t (if start then .running else .blocked) }
  pc := .main
  result := null
  returned := none
  joiner _ := .none

/-- The thread can execute. -/
def Runs (s : JoinRun κ ρ) (c : κ) : Prop :=
  (s.resultLock.world.context c).state = .ready ∧ s.resultLock.world.thread c = .running

instance (s : JoinRun κ ρ) (c : κ) : Decidable (s.Runs c) := inferInstanceAs (Decidable (_ ∧ _))

/-- The next line of `SchedulerThreadStartup`. -/
def schedulerThreadStartup (t : κ) (s : JoinRun κ ρ) : Option (JoinRun κ ρ) :=
  match s.pc with
  | .main => none
  | .store value => some { s with result := value, pc := .unlock }
  | .unlock =>
      some { s with resultLock := s.resultLock.perform (.unlockExclusive t), pc := .relock }
  | .relock => some { s with resultLock := s.resultLock.perform (.lockExclusive t), pc := .die }
  | .die =>
      some { s with
        resultLock := { s.resultLock with world := s.resultLock.world.setThread t .done }
        pc := .dead }
  | .dead => none

/-- One step of the thread `t` or of those around it.  `t` may even join
itself, as long as its `Main` runs. -/
def step (t : κ) (s : JoinRun κ ρ) : JoinOp κ ρ → Option (JoinRun κ ρ)
  | .mainReturns value =>
      if s.Runs t ∧ s.pc.isMain then some { s with returned := some value, pc := .store value }
      else none
  | .startup => if s.Runs t then s.schedulerThreadStartup t else none
  | .join c =>
      match s.joiner c with
      | .none =>
          if s.Runs c ∧ (c = t → s.pc.isMain) then
            some { s with
              resultLock := s.resultLock.perform (.lockShared c)
              joiner := Function.update s.joiner c .called }
          else none
      | _ => none
  | .joinReturns c =>
      match s.joiner c with
      | .called =>
          if s.Runs c then
            some { s with joiner := Function.update s.joiner c (.joined s.result) }
          else none
      | _ => none
  | .release c =>
      match s.joiner c with
      | .joined _ =>
          if s.Runs c then
            some { s with
              resultLock := s.resultLock.perform (.unlockShared c)
              joiner := Function.update s.joiner c .none }
          else none
      | _ => none
  | .elsewhere c context thread =>
      if c ∉ s.resultLock.lock.waitingThreads ∧
          (c = t → thread ≠ .done ∧ s.resultLock.world.thread t ≠ .done) then
        some { s with resultLock := s.resultLock.perform (.elsewhere c context thread) }
      else none

end JoinRun

open JoinRun ResourceRun

/-! ## the invariant -/

/-- `State` is `THREAD_STATE_DONE`. -/
def Done (t : κ) (s : JoinRun κ ρ) : Prop := s.resultLock.world.thread t = .done

/-- Who holds or awaits the lock at each line of `SchedulerThreadStartup`, and
what `Result` is. -/
def Phase (t : κ) (r : ResourceRun κ) (result : ρ) (returned : Option ρ) : StartupPc ρ → Prop
  | .main => r.exclusiveHolders = [t]
  | .store value => r.exclusiveHolders = [t] ∧ returned = some value
  | .unlock => r.exclusiveHolders = [t] ∧ returned = some result
  | .relock => (r.exclusiveHolders = [] ∧ r.lock.waitingThreads = []) ∧ returned = some result
  | .die =>
      (r.exclusiveHolders = [t] ∨ r.exclusiveHolders = [] ∧ t ∈ r.lock.waitingThreads.head? ∧
        WantsShared r.world t = false) ∧ returned = some result
  | .dead => r.exclusiveHolders = [t] ∧ returned = some result

structure JoinInv (t : κ) (s : JoinRun κ ρ) : Prop where
  inv : ResourceInv s.resultLock
  phase : Phase t s.resultLock s.result s.returned s.pc
  /-- The shared holders are the joiners that do not wait. -/
  holders : ∀ c, c ∈ s.resultLock.sharedHolders ↔
    (s.joiner c = .called ∧ c ∉ s.resultLock.lock.waitingThreads) ∨ ∃ v, s.joiner c = .joined v
  nodup : s.resultLock.sharedHolders.Nodup
  /-- Only joiners wait, besides the thread itself for its own death. -/
  waiting : ∀ c ∈ s.resultLock.lock.waitingThreads,
    (c = t ∧ s.pc = .die) ∨ (s.joiner c = .called ∧ WantsShared s.resultLock.world c = true)
  joined : ∀ c v, s.joiner c = .joined v → s.returned = some v
  self : s.pc ≠ .main → s.joiner t = .none
  done : Done t s → s.pc = .dead

variable {t c d : κ} {s s' : JoinRun κ ρ} {r r' : ResourceRun κ} {result : ρ} {returned : Option ρ}
  {pc : StartupPc ρ} {mode : ResourceState}

theorem joinInv_create (world : Contexts κ) (null : ρ) (start : Bool) :
    JoinInv t (schedulerCreateThread t world null start) where
  inv := resourceInv_start _ _ _
  phase := rfl
  holders c := by
    simp [schedulerCreateThread, ResourceRun.start]
  nodup := List.nodup_nil
  waiting c hc := absurd hc List.not_mem_nil
  joined c v hv := by cases hv
  self h := absurd rfl h
  done h := by
    have hstate : (if start then ThreadState.running else .blocked) = .done := by
      simpa [Done, schedulerCreateThread, ResourceRun.start] using h
    split at hstate <;> cases hstate

/-! ## what the lock's operations leave alone -/

theorem wantsShared_blocked (hc : (r.world.context c).state = .ready) :
    WantsShared (r.blocked mode c).world d =
      if d = c then decide (mode = .shared) else WantsShared r.world d := by
  unfold WantsShared ResourceRun.blocked
  rw [lockingBlock_eq hc]
  by_cases hdc : d = c <;> simp [hdc]

theorem alive_blocked (hc : (r.world.context c).state = .ready)
    (h : (r.blocked mode c).world.thread d = .done) : r.world.thread d = .done := by
  simp only [ResourceRun.blocked, lockingBlock_eq hc] at h
  split at h
  · rw [Function.update_apply] at h
    split at h
    · cases h
    · exact h
  · exact h

omit [DecidableEq κ] in
theorem Grants.wantsShared {w w' : Contexts κ} {cs : List κ} (h : Grants w w' cs) :
    WantsShared w' = WantsShared w := by
  funext d
  rw [WantsShared, WantsShared, h.waitState]

omit [DecidableEq κ] in
theorem Phase.congr (h : Phase t r result returned pc) (hE : r'.exclusiveHolders = r.exclusiveHolders)
    (hl : r'.lock.waitingThreads = r.lock.waitingThreads)
    (hw : WantsShared r'.world t = WantsShared r.world t) : Phase t r' result returned pc := by
  cases pc <;> simpa only [Phase, hE, hl, hw] using h

omit [DecidableEq κ] in
/-- Once `Main` has returned and the result is stored, it stays. -/
theorem Phase.no_exclusive (h : Phase t r result returned pc) (hE : r.exclusiveHolders = []) :
    (pc = .relock ∨ pc = .die) ∧ returned = some result := by
  cases pc <;> simp_all [Phase]

/-! ## one step -/

/-- A new joiner is let in, after the thread has released the lock and before
it has asked for it back. -/
theorem JoinInv.join_granted (h : JoinInv t s) (hc : s.Runs c) (hjoin : s.joiner c = .none)
    (hself : c = t → s.pc = .main) (hl : s.resultLock.lock.waitingThreads = [])
    (hs : s.resultLock.lock.state = .shared) :
    JoinInv t { s with
      resultLock := s.resultLock.grantShared c
      joiner := Function.update s.joiner c .called } := by
  have hgrant := lockingAcquire_grants (.inl hc.1)
  have hnot : c ∉ s.resultLock.sharedHolders := fun hmem => by
    simpa [hjoin] using (h.holders c).mp hmem
  refine ⟨h.inv.grantShared hc.1 hl hs, ?_, fun d => ?_, ?_, fun d hd => ?_, fun d v hv => ?_,
    fun hpc => ?_, fun hdone => h.done (hgrant.alive t hdone)⟩
  · exact h.phase.congr rfl rfl (congrFun hgrant.wantsShared t)
  · rw [grantShared_sharedHolders, List.mem_append, h.holders d, List.mem_singleton,
      grantShared_waitingThreads]
    by_cases hdc : d = c
    · simp [hdc, hl]
    · simp [hdc]
  · rw [grantShared_sharedHolders, List.nodup_append]
    exact ⟨h.nodup, List.nodup_singleton c, fun a ha b hb hab =>
      hnot (List.mem_singleton.mp hb ▸ hab ▸ ha)⟩
  · rw [grantShared_waitingThreads, hl] at hd
    cases hd
  · by_cases hdc : d = c
    · simp [hdc] at hv
    · exact h.joined d v (by simpa [hdc] using hv)
  · have htc : t ≠ c := fun htc => hpc (hself htc.symm)
    simpa [htc] using h.self hpc

/-- A joiner that comes before the release, or after the thread has asked for
the lock back, waits. -/
theorem JoinInv.join_blocked (h : JoinInv t s) (hc : s.Runs c) (hjoin : s.joiner c = .none)
    (hself : c = t → s.pc = .main)
    (hfree : ¬ (s.resultLock.lock.waitingThreads = [] ∧ s.resultLock.lock.state = .shared))
    (hinv : ResourceInv (s.resultLock.blocked .shared c)) :
    JoinInv t { s with
      resultLock := s.resultLock.blocked .shared c
      joiner := Function.update s.joiner c .called } := by
  refine ⟨hinv, ?_, fun d => ?_, h.nodup, fun d hd => ?_, fun d v hv => ?_, fun hpc => ?_,
    fun hdone => h.done (alive_blocked hc.1 hdone)⟩
  · have hphase := h.phase
    cases hpc : s.pc <;> rw [hpc] at hphase <;> try exact hphase
    · exact absurd ⟨hphase.1.2, h.inv.shared_of_no_exclusive hphase.1.1⟩ hfree
    · have htc : t ≠ c := fun htc => by
        rw [hself htc.symm] at hpc
        cases hpc
      refine ⟨hphase.1.imp_right fun hw => ⟨hw.1, ?_, ?_⟩, hphase.2⟩
      · rw [blocked_waitingThreads, List.head?_append, Option.mem_def.mp hw.2.1]
        rfl
      · rw [wantsShared_blocked hc.1, if_neg htc]
        exact hw.2.2
  · rw [blocked_sharedHolders, h.holders d, blocked_waitingThreads]
    by_cases hdc : d = c
    · simp [hdc, hjoin]
    · simp [hdc]
  · rw [blocked_waitingThreads, List.mem_append, List.mem_singleton] at hd
    rw [wantsShared_blocked hc.1]
    by_cases hdc : d = c
    · simp [hdc]
    · obtain hd | hd := hd
      · simpa [hdc] using h.waiting d hd
      · exact absurd hd hdc
  · by_cases hdc : d = c
    · simp [hdc] at hv
    · exact h.joined d v (by simpa [hdc] using hv)
  · have htc : t ≠ c := fun htc => hpc (hself htc.symm)
    simpa [htc] using h.self hpc

theorem JoinInv.join (h : JoinInv t s) (hc : s.Runs c) (hjoin : s.joiner c = .none)
    (hself : c = t → s.pc = .main) :
    JoinInv t { s with
      resultLock := s.resultLock.perform (.lockShared c)
      joiner := Function.update s.joiner c .called } := by
  have hinv := resourceInv_lockShared h.inv hc.1
  rw [perform_lockShared hc.1] at hinv ⊢
  split
  · next hfree => exact h.join_granted hc hjoin hself hfree.1 hfree.2
  · next hfree =>
      rw [if_neg hfree] at hinv
      exact h.join_blocked hc hjoin hself hfree hinv

omit [DecidableEq κ] in
/-- A shared holder shows that the thread has released the lock. -/
theorem JoinInv.holder (h : JoinInv t s) (hc : c ∈ s.resultLock.sharedHolders) :
    s.resultLock.exclusiveHolders = [] ∧ (s.pc = .relock ∨ s.pc = .die) ∧
      s.returned = some s.result := by
  have hE : s.resultLock.exclusiveHolders = [] := by
    by_contra hne
    rw [h.inv.alone hne] at hc
    cases hc
  exact ⟨hE, h.phase.no_exclusive hE⟩

omit [DecidableEq κ] in
/-- While joiners hold the lock, only the thread itself can be first in line. -/
theorem JoinInv.head_eq (h : JoinInv t s) (hE : s.resultLock.exclusiveHolders = [])
    (hne : s.resultLock.lock.waitingThreads ≠ []) :
    s.pc = .die ∧ t ∈ s.resultLock.lock.waitingThreads.head? ∧
      WantsShared s.resultLock.world t = false := by
  have hphase := h.phase
  obtain ⟨hpc | hpc, -⟩ := hphase.no_exclusive hE
  · rw [hpc] at hphase
    exact absurd hphase.1.2 hne
  · rw [hpc] at hphase
    obtain hE' | ⟨-, hhead, hw⟩ := hphase.1
    · rw [hE] at hE'
      cases hE'
    · exact ⟨hpc, hhead, hw⟩

/-- The last joiner to release hands the lock to the thread, which can die. -/
theorem JoinInv.release_last (h : JoinInv t s) {v : ρ} (hjoin : s.joiner c = .joined v)
    (hlast : s.resultLock.sharedHolders.erase c = []) (hne : s.resultLock.lock.waitingThreads ≠ []) :
    JoinInv t { s with
      resultLock := s.resultLock.woken
      joiner := Function.update s.joiner c .none } := by
  have hc : c ∈ s.resultLock.sharedHolders := (h.holders c).mpr (.inr ⟨v, hjoin⟩)
  obtain ⟨hE, -, hret⟩ := h.holder hc
  obtain ⟨hpc, hhead, hw⟩ := h.head_eq hE hne
  have hself : s.joiner t = .none := h.self (by simp [hpc])
  have hS : ∀ d ∈ s.resultLock.sharedHolders, d = c := fun d hd => by
    by_contra hdc
    have hmem := (List.mem_erase_of_ne hdc).mpr hd
    rw [hlast] at hmem
    cases hmem
  obtain ⟨e, rest, hl, -, hg, hlock, hS', hE'⟩ | ⟨cs, rest, hl, hcs, hshared, -⟩ := h.inv.woken_cases hne
  · have het : e = t := by
      simpa [hl] using hhead
    subst het
    have hrest : ∀ d, d ∈ rest → d ∈ s.resultLock.lock.waitingThreads := fun d hd => by
      rw [hl]
      exact List.mem_cons_of_mem e hd
    refine ⟨h.inv.woken hne, ?_, fun d => ?_, ?_, fun d hd => ?_, fun d u hu => ?_, fun hpc => ?_,
      fun hdone => h.done (hg.alive e hdone)⟩
    · rw [hpc]
      exact ⟨.inl hE', hret⟩
    · rw [hS', hlock]
      refine iff_of_false List.not_mem_nil ?_
      by_cases hdc : d = c
      · simp [hdc]
      · simp only [Function.update_of_ne hdc]
        rintro (⟨hcalled, hd⟩ | hd)
        · have hde : d ≠ e := fun hde => by
            rw [hde, hself] at hcalled
            cases hcalled
          refine hdc (hS d ((h.holders d).mpr (.inl ⟨hcalled, ?_⟩)))
          rw [hl]
          exact fun hmem => (List.mem_cons.mp hmem).elim hde hd
        · exact hdc (hS d ((h.holders d).mpr (.inr hd)))
    · rw [hS']
      exact List.nodup_nil
    · rw [hlock] at hd
      obtain ⟨rfl, -⟩ | ⟨hcalled, hwd⟩ := h.waiting d (hrest d hd)
      · have hnd := h.inv.nodup
        rw [hl] at hnd
        exact absurd hd (List.nodup_cons.mp hnd).1
      · have hdc : d ≠ c := fun hdc => by
          rw [hdc, hjoin] at hcalled
          cases hcalled
        exact .inr ⟨by simpa [hdc] using hcalled, by rw [hg.wantsShared]; exact hwd⟩
    · by_cases hdc : d = c
      · simp [hdc] at hu
      · exact h.joined d u (by simpa [hdc] using hu)
    · by_cases hec : e = c
      · simp [hec]
      · simpa [hec] using hself
  · cases cs with
    | nil => exact absurd rfl hcs
    | cons e cs =>
        have het : e = t := by
          simpa [hl] using hhead
        have hshared := hshared e List.mem_cons_self
        rw [het, hw] at hshared
        cases hshared

/-- A joiner that releases while others still hold the lock, or nobody waits. -/
theorem JoinInv.release_other (h : JoinInv t s) {v : ρ} (hjoin : s.joiner c = .joined v)
    (hinv : ResourceInv { s.resultLock with
      lock := { s.resultLock.lock with numShared := s.resultLock.lock.numShared - 1 }
      sharedHolders := s.resultLock.sharedHolders.erase c }) :
    JoinInv t { s with
      resultLock := { s.resultLock with
        lock := { s.resultLock.lock with numShared := s.resultLock.lock.numShared - 1 }
        sharedHolders := s.resultLock.sharedHolders.erase c }
      joiner := Function.update s.joiner c .none } := by
  refine ⟨hinv, h.phase.congr rfl rfl rfl, fun d => ?_, h.nodup.erase c, fun d hd => ?_,
    fun d u hu => ?_, fun hpc => ?_, h.done⟩
  · rw [h.nodup.mem_erase_iff, h.holders d]
    by_cases hdc : d = c
    · simp [hdc]
    · simp [hdc]
  · by_cases hdc : d = c
    · obtain hself | ⟨hcalled, -⟩ := h.waiting d hd
      · exact .inl hself
      · rw [hdc, hjoin] at hcalled
        cases hcalled
    · simpa [hdc] using h.waiting d hd
  · by_cases hdc : d = c
    · simp [hdc] at hu
    · exact h.joined d u (by simpa [hdc] using hu)
  · by_cases htc : t = c
    · simp [htc]
    · simpa [htc] using h.self hpc

theorem JoinInv.release (h : JoinInv t s) {v : ρ} (hjoin : s.joiner c = .joined v) :
    JoinInv t { s with
      resultLock := s.resultLock.perform (.unlockShared c)
      joiner := Function.update s.joiner c .none } := by
  have hc : c ∈ s.resultLock.sharedHolders := (h.holders c).mpr (.inr ⟨v, hjoin⟩)
  have hinv := resourceInv_unlockShared h.inv hc
  rw [perform_unlockShared h.inv.toResourceOk hc] at hinv ⊢
  split
  · next hwake => exact h.release_last hjoin hwake.1 hwake.2
  · next hwake =>
      rw [if_neg hwake] at hinv
      exact h.release_other hjoin hinv

/-- A join returns the value `Main` returned. -/
theorem JoinInv.joinReturns (h : JoinInv t s) (hc : s.Runs c) (hjoin : s.joiner c = .called) :
    JoinInv t { s with joiner := Function.update s.joiner c (.joined s.result) } := by
  have hnot := h.inv.ready_notMem hc.1
  have hmem : c ∈ s.resultLock.sharedHolders := (h.holders c).mpr (.inl ⟨hjoin, hnot⟩)
  obtain ⟨-, hpc, hret⟩ := h.holder hmem
  have hmain : s.pc ≠ .main := by
    obtain hpc | hpc := hpc <;> simp [hpc]
  have htc : t ≠ c := fun htc => by
    have hself := h.self hmain
    rw [htc, hjoin] at hself
    cases hself
  refine ⟨h.inv, h.phase, fun d => ?_, h.nodup, fun d hd => ?_, fun d v hv => ?_, fun hpc => ?_, h.done⟩
  · rw [h.holders d]
    by_cases hdc : d = c
    · simp [hdc, hjoin, hnot]
    · simp [hdc]
  · have hdc : d ≠ c := fun hdc => hnot (hdc ▸ hd)
    simpa [hdc] using h.waiting d hd
  · by_cases hdc : d = c
    · have hv : s.result = v := by simpa [hdc] using hv
      exact hv ▸ hret
    · exact h.joined d v (by simpa [hdc] using hv)
  · simpa [htc] using h.self hpc

omit [DecidableEq κ] in
/-- `Main` cannot return while its thread waits for itself. -/
theorem JoinInv.mainReturns (h : JoinInv t s) (ht : s.Runs t) (hpc : s.pc = .main) (v : ρ) :
    JoinInv t { s with returned := some v, pc := .store v } := by
  have hphase := h.phase
  rw [hpc] at hphase
  have hS : s.resultLock.sharedHolders = [] := h.inv.alone (by simp [show _ = [t] from hphase])
  have hno : ∀ c, ¬ ((s.joiner c = .called ∧ c ∉ s.resultLock.lock.waitingThreads) ∨
      ∃ v, s.joiner c = .joined v) := fun c => by
    rw [← h.holders c, hS]
    exact List.not_mem_nil
  refine ⟨h.inv, ⟨hphase, rfl⟩, h.holders, h.nodup, fun c hc => ?_, fun c u hu => ?_, fun _ => ?_,
    fun hdone => ?_⟩
  · have hw := h.waiting c hc
    rw [hpc] at hw
    exact .inr (hw.resolve_left (by simp))
  · exact absurd (.inr ⟨u, hu⟩) (hno c)
  · cases hj : s.joiner t with
    | none => rfl
    | called => exact absurd (.inl ⟨hj, h.inv.ready_notMem ht.1⟩) (hno t)
    | joined u => exact absurd (.inr ⟨u, hj⟩) (hno t)
  · have hdead := h.done hdone
    rw [hpc] at hdead
    cases hdead

omit [DecidableEq κ] in
theorem JoinInv.store (h : JoinInv t s) {v : ρ} (hpc : s.pc = .store v) :
    JoinInv t { s with result := v, pc := .unlock } := by
  have hphase := h.phase
  rw [hpc] at hphase
  refine ⟨h.inv, hphase, h.holders, h.nodup, fun c hc => ?_, h.joined, fun _ => h.self (by simp [hpc]),
    fun hdone => ?_⟩
  · have hw := h.waiting c hc
    rw [hpc] at hw
    exact .inr (hw.resolve_left (by simp))
  · have hdead := h.done hdone
    rw [hpc] at hdead
    cases hdead

/-- The release lets in everybody who waits. -/
theorem JoinInv.unlock (h : JoinInv t s) (hpc : s.pc = .unlock) :
    JoinInv t { s with resultLock := s.resultLock.perform (.unlockExclusive t), pc := .relock } := by
  have hphase := h.phase
  rw [hpc] at hphase
  obtain ⟨hE, hret⟩ := hphase
  have ht : t ∈ s.resultLock.exclusiveHolders := by simp [hE]
  have hS : s.resultLock.sharedHolders = [] := h.inv.alone (by simp [hE])
  have hwait : ∀ c ∈ s.resultLock.lock.waitingThreads,
      s.joiner c = .called ∧ WantsShared s.resultLock.world c = true := fun c hc => by
    have hw := h.waiting c hc
    rw [hpc] at hw
    exact hw.resolve_left (by simp)
  have hself : s.joiner t = .none := h.self (by simp [hpc])
  have hdead : ¬ Done t s := fun hdone => by
    have hdead := h.done hdone
    rw [hpc] at hdead
    cases hdead
  have hinv := resourceInv_unlockExclusive h.inv ht
  rw [perform_unlockExclusive h.inv.toResourceOk ht] at hinv ⊢
  split
  · next hne =>
      rw [if_pos hne] at hinv
      obtain ⟨e, rest, hl, hexcl, -⟩ | ⟨cs, rest, hl, -, -, hhead, hg, hlock, hS', hE'⟩ :=
        h.inv.woken_cases hne
      · have hshared := (hwait e (by simp [hl])).2
        rw [hexcl] at hshared
        cases hshared
      · have hrest : rest = [] := by
          cases rest with
          | nil => rfl
          | cons e rest =>
              have hshared := (hwait e (by simp [hl])).2
              rw [hhead e rfl] at hshared
              cases hshared
        rw [hrest, List.append_nil] at hl
        rw [hrest] at hlock
        refine ⟨hinv, ⟨⟨hE', by rw [hlock]⟩, hret⟩, fun c => ?_, ?_, fun c hc => ?_, h.joined,
          fun _ => hself, fun hdone => absurd (hg.alive t hdone) hdead⟩
        · rw [hS', hlock, ← hl]
          have hc := h.holders c
          rw [hS] at hc
          refine ⟨fun hmem => .inl ⟨(hwait c hmem).1, List.not_mem_nil⟩, ?_⟩
          rintro (⟨hcalled, -⟩ | hjoined)
          · by_contra hmem
            exact List.not_mem_nil (hc.mpr (.inl ⟨hcalled, hmem⟩))
          · exact absurd (hc.mpr (.inr hjoined)) List.not_mem_nil
        · rw [hS', ← hl]
          exact h.inv.nodup
        · rw [hlock] at hc
          cases hc
  · next hne =>
      rw [if_neg hne] at hinv
      rw [not_not] at hne
      refine ⟨hinv, ⟨⟨rfl, hne⟩, hret⟩, h.holders, h.nodup, fun c hc => ?_, h.joined, fun _ => hself,
        fun hdone => absurd hdone hdead⟩
      simp only [hne] at hc
      cases hc

/-- The thread asks for the lock back. -/
theorem JoinInv.relock (h : JoinInv t s) (ht : s.Runs t) (hpc : s.pc = .relock) :
    JoinInv t { s with resultLock := s.resultLock.perform (.lockExclusive t), pc := .die } := by
  have hphase := h.phase
  rw [hpc] at hphase
  obtain ⟨⟨hE, hl⟩, hret⟩ := hphase
  have hself : s.joiner t = .none := h.self (by simp [hpc])
  have hdead : ¬ Done t s := fun hdone => by
    have hdead := h.done hdone
    rw [hpc] at hdead
    cases hdead
  have hinv := resourceInv_lockExclusive h.inv ht.1
  rw [perform_lockExclusive ht.1] at hinv ⊢
  split
  · next hfree =>
      rw [if_pos hfree] at hinv
      have hg := lockingAcquire_grants (.inl ht.1)
      refine ⟨hinv, ⟨.inl ?_, hret⟩, h.holders, h.nodup, fun c hc => ?_, h.joined, fun _ => hself,
        fun hdone => absurd (hg.alive t hdone) hdead⟩
      · simp [hE]
      · rw [grantExclusive_waitingThreads, hl] at hc
        cases hc
  · next hfree =>
      rw [if_neg hfree] at hinv
      refine ⟨hinv, ⟨.inr ⟨hE, ?_, ?_⟩, hret⟩, fun c => ?_, h.nodup, fun c hc => .inl ⟨?_, rfl⟩, h.joined,
        fun _ => hself, fun hdone => absurd (alive_blocked ht.1 hdone) hdead⟩
      · simp [hl]
      · simp [wantsShared_blocked ht.1]
      · rw [blocked_sharedHolders, h.holders c, blocked_waitingThreads, hl]
        by_cases hct : c = t
        · simp [hct, hself]
        · simp [hct]
      · simpa [hl] using hc

omit [DecidableEq κ] in
/-- The thread dies when it has the lock to itself. -/
theorem JoinInv.exclusive_of_die (h : JoinInv t s) (ht : s.Runs t) (hpc : s.pc = .die) :
    s.resultLock.exclusiveHolders = [t] := by
  have hphase := h.phase
  rw [hpc] at hphase
  refine hphase.1.resolve_right fun hw => ?_
  exact h.inv.ready_notMem ht.1 (List.mem_of_mem_head? hw.2.1)

theorem setThread_eq_elsewhere {thread : ThreadState} :
    { r with world := r.world.setThread t thread } =
      r.perform (.elsewhere t (r.world.context t) thread) := by
  simp [perform, Contexts.setThread]

theorem JoinInv.die (h : JoinInv t s) (ht : s.Runs t) (hpc : s.pc = .die) :
    JoinInv t { s with
      resultLock := { s.resultLock with world := s.resultLock.world.setThread t .done }
      pc := .dead } := by
  have hphase := h.phase
  rw [hpc] at hphase
  have hnot := h.inv.ready_notMem ht.1
  refine ⟨?_, ⟨h.exclusive_of_die ht hpc, hphase.2⟩, h.holders, h.nodup, fun c hc => ?_, h.joined,
    fun _ => h.self (by simp [hpc]), fun _ => rfl⟩
  · rw [setThread_eq_elsewhere]
    exact resourceInv_elsewhere h.inv hnot
  · exact .inr ((h.waiting c hc).resolve_left fun hct => hnot (hct.1 ▸ hc))

theorem JoinInv.elsewhere (h : JoinInv t s) (hc : c ∉ s.resultLock.lock.waitingThreads)
    {context : LockingContext} {thread : ThreadState}
    (hself : c = t → thread ≠ .done) :
    JoinInv t { s with resultLock := s.resultLock.perform (.elsewhere c context thread) } := by
  have hwants : ∀ d ∈ s.resultLock.lock.waitingThreads,
      WantsShared (s.resultLock.perform (.elsewhere c context thread)).world d =
        WantsShared s.resultLock.world d := fun d hd => by
    have hdc : d ≠ c := fun hdc => hc (hdc ▸ hd)
    simp [WantsShared, perform, hdc]
  refine ⟨resourceInv_elsewhere h.inv hc, ?_, h.holders, h.nodup, fun d hd => ?_, h.joined, h.self,
    fun hdone => ?_⟩
  · have hphase := h.phase
    cases hpc : s.pc <;> rw [hpc] at hphase <;> try exact hphase
    refine ⟨hphase.1.imp_right fun hw => ⟨hw.1, hw.2.1, ?_⟩, hphase.2⟩
    rw [hwants t (List.mem_of_mem_head? hw.2.1)]
    exact hw.2.2
  · rw [hwants d hd]
    exact h.waiting d hd
  · by_cases htc : t = c
    · have hthread : thread = .done := by simpa [Done, perform, htc] using hdone
      exact absurd hthread (hself htc.symm)
    · exact h.done (by simpa [Done, perform, htc] using hdone)

theorem JoinInv.startup (h : JoinInv t s) (ht : s.Runs t)
    (hstep : s.schedulerThreadStartup t = some s') : JoinInv t s' := by
  unfold schedulerThreadStartup at hstep
  split at hstep <;> first | (rw [Option.some.injEq] at hstep; subst hstep) | cases hstep
  · next hpc => exact h.store hpc
  · next hpc => exact h.unlock hpc
  · next hpc => exact h.relock ht hpc
  · next hpc => exact h.die ht hpc

/-- What a step is, and when it can be taken. -/
theorem step_cases {op : JoinOp κ ρ} (hstep : step t s op = some s') :
    (∃ v, op = .mainReturns v ∧ s.Runs t ∧ s.pc = .main ∧
        s' = { s with returned := some v, pc := .store v }) ∨
      (op = .startup ∧ s.Runs t ∧ s.schedulerThreadStartup t = some s') ∨
      (∃ c, op = .join c ∧ s.Runs c ∧ s.joiner c = .none ∧ (c = t → s.pc = .main) ∧
        s' = { s with
          resultLock := s.resultLock.perform (.lockShared c)
          joiner := Function.update s.joiner c .called }) ∨
      (∃ c, op = .joinReturns c ∧ s.Runs c ∧ s.joiner c = .called ∧
        s' = { s with joiner := Function.update s.joiner c (.joined s.result) }) ∨
      (∃ c v, op = .release c ∧ s.Runs c ∧ s.joiner c = .joined v ∧
        s' = { s with
          resultLock := s.resultLock.perform (.unlockShared c)
          joiner := Function.update s.joiner c .none }) ∨
      ∃ c context thread, op = .elsewhere c context thread ∧
        c ∉ s.resultLock.lock.waitingThreads ∧ (c = t → thread ≠ .done) ∧
        s' = { s with resultLock := s.resultLock.perform (.elsewhere c context thread) } := by
  cases op with
  | mainReturns v =>
      simp only [JoinRun.step, Option.ite_none_right_eq_some, Option.some.injEq,
        StartupPc.isMain_iff] at hstep
      exact .inl ⟨v, rfl, hstep.1.1, hstep.1.2, hstep.2.symm⟩
  | startup =>
      simp only [JoinRun.step, Option.ite_none_right_eq_some] at hstep
      exact .inr (.inl ⟨rfl, hstep⟩)
  | join c =>
      simp only [JoinRun.step] at hstep
      split at hstep
      · next hjoin =>
          simp only [Option.ite_none_right_eq_some, Option.some.injEq, StartupPc.isMain_iff] at hstep
          exact .inr (.inr (.inl ⟨c, rfl, hstep.1.1, hjoin, hstep.1.2, hstep.2.symm⟩))
      · cases hstep
  | joinReturns c =>
      simp only [JoinRun.step] at hstep
      split at hstep
      · next hjoin =>
          simp only [Option.ite_none_right_eq_some, Option.some.injEq] at hstep
          exact .inr (.inr (.inr (.inl ⟨c, rfl, hstep.1, hjoin, hstep.2.symm⟩)))
      · cases hstep
  | release c =>
      simp only [JoinRun.step] at hstep
      split at hstep
      · next v hjoin =>
          simp only [Option.ite_none_right_eq_some, Option.some.injEq] at hstep
          exact .inr (.inr (.inr (.inr (.inl ⟨c, v, rfl, hstep.1, hjoin, hstep.2.symm⟩))))
      · cases hstep
  | elsewhere c context thread =>
      simp only [JoinRun.step, Option.ite_none_right_eq_some, Option.some.injEq] at hstep
      obtain ⟨⟨hc, hself⟩, rfl⟩ := hstep
      exact .inr (.inr (.inr (.inr (.inr ⟨c, context, thread, rfl, hc, fun h => (hself h).1, rfl⟩))))

theorem joinInv_step {op : JoinOp κ ρ} (h : JoinInv t s) (hstep : step t s op = some s') :
    JoinInv t s' := by
  obtain ⟨v, -, ht, hpc, rfl⟩ | ⟨-, ht, hstep⟩ | ⟨c, -, hc, hjoin, hself, rfl⟩ | ⟨c, -, hc, hjoin, rfl⟩ |
    ⟨c, v, -, -, hjoin, rfl⟩ | ⟨c, context, thread, -, hc, hself, rfl⟩ := step_cases hstep
  · exact h.mainReturns ht hpc v
  · exact h.startup ht hstep
  · exact h.join hc hjoin hself
  · exact h.joinReturns hc hjoin
  · exact h.release hjoin
  · exact h.elsewhere hc hself

theorem joinInv_exec {world : Contexts κ} {null : ρ} {start : Bool} {ops : List (JoinOp κ ρ)}
    (h : exec (step t) (schedulerCreateThread t world null start) ops = some s) : JoinInv t s :=
  exec_invariant (I := JoinInv t) (fun _ _ _ hs hstep => joinInv_step hs hstep)
    (joinInv_create world null start) h

/-! ## what joining guarantees -/

/-- What the joiners of `t` rely on. -/
structure JoinOk (t : κ) (s : JoinRun κ ρ) : Prop where
  /-- A join that has returned has returned what `Main` returned. -/
  returns : ∀ c v, s.joiner c = .joined v → s.returned = some v
  /-- A thread that is done has no joiner that has yet to release it. -/
  released : Done t s → ∀ c v, s.joiner c ≠ .joined v

/-- **Joining is safe**, in every state of every run. -/
theorem join_safe (t : κ) (world : Contexts κ) (null : ρ) (start : Bool) (ops : List (JoinOp κ ρ))
    (h : exec (step t) (schedulerCreateThread t world null start) ops = some s) : JoinOk t s := by
  have hinv := joinInv_exec h
  refine ⟨hinv.joined, fun hdone c v hv => ?_⟩
  have hc := (hinv.holders c).mpr (.inr ⟨v, hv⟩)
  obtain ⟨-, hpc | hpc, -⟩ := hinv.holder hc <;>
  · rw [hinv.done hdone] at hpc
    cases hpc

/-- The threads of the sample runs: all of them run. -/
def sampleThreads : Contexts ℕ :=
  ⟨fun _ => ⟨.ready, .shared, .thread⟩, fun _ => .running, [], [], false⟩

/-- Thread 1 joins thread 0 while its `Main` runs and thread 2 between the
release and the death; thread 0 waits for both. -/
def sampleJoins : List (JoinOp ℕ ℕ) :=
  [.join 1, .mainReturns 7, .startup, .startup, .join 2, .startup, .joinReturns 1, .joinReturns 2,
    .release 2, .release 1, .startup]

theorem join_safe_sample :
    ∃ s, exec (step 0) (schedulerCreateThread 0 sampleThreads 0 true) sampleJoins = some s ∧
      Done 0 s ∧ JoinOk 0 s := by
  have hend : (exec (step 0) (schedulerCreateThread 0 sampleThreads 0 true) sampleJoins).map
      (fun s => s.resultLock.world.thread 0) = some .done := by decide
  obtain ⟨s, hs, hdone⟩ := Option.map_eq_some_iff.mp hend
  exact ⟨s, hs, hdone, join_safe 0 sampleThreads 0 true sampleJoins hs⟩

/-! ## who is stranded -/

/-- No joiner of a dead thread waits for it. -/
def NoneStranded (t : κ) (s : JoinRun κ ρ) : Prop :=
  Done t s → s.resultLock.lock.waitingThreads = []

/-- The joins are made before the thread has asked for its `ResultLock` back. -/
def JoinsInTime (s : JoinRun κ ρ) : JoinOp κ ρ → Prop
  | .join _ => s.pc ≠ .die ∧ s.pc ≠ .dead
  | _ => True

instance [DecidableEq ρ] (s : JoinRun κ ρ) : (op : JoinOp κ ρ) → Decidable (JoinsInTime s op)
  | .join _ => inferInstanceAs (Decidable (s.pc ≠ .die ∧ s.pc ≠ .dead))
  | .mainReturns _ | .startup | .joinReturns _ | .release _ | .elsewhere _ _ _ => isTrue trivial

/-- From its request on, nobody waits for the lock but the thread. -/
def NoneLate (t : κ) (s : JoinRun κ ρ) : Prop :=
  s.pc = .die ∨ s.pc = .dead → ∀ c ∈ s.resultLock.lock.waitingThreads, c = t

omit [DecidableEq κ] in
theorem JoinInv.noneStranded_iff_noneLate (h : JoinInv t s) (hdone : Done t s) :
    NoneStranded t s ↔ NoneLate t s := by
  have hpc := h.done hdone
  have ht : t ∉ s.resultLock.lock.waitingThreads := fun hmem => by
    obtain ⟨-, hdie⟩ | ⟨hcalled, -⟩ := h.waiting t hmem
    · rw [hpc] at hdie
      cases hdie
    · rw [h.self (by simp [hpc])] at hcalled
      cases hcalled
  refine ⟨fun hnone _ c hc => ?_, fun hlate _ => ?_⟩
  · rw [hnone hdone] at hc
    cases hc
  · refine List.eq_nil_iff_forall_not_mem.mpr fun c hc => ht ?_
    exact hlate (.inr hpc) c hc ▸ hc

/-- A join made too late has to wait, and one made in time is nobody's concern
once the thread has asked for the lock back. -/
theorem JoinInv.noneLate_join (h : JoinInv t s) (hc : s.Runs c) (hself : c = t → s.pc = .main) :
    NoneLate t { s with
      resultLock := s.resultLock.perform (.lockShared c)
      joiner := Function.update s.joiner c .called } ↔
      NoneLate t s ∧ (s.pc ≠ .die ∧ s.pc ≠ .dead) := by
  rw [← not_or]
  by_cases hpc : s.pc = .die ∨ s.pc = .dead
  · refine iff_of_false (fun hlate => ?_) fun hlate => hlate.2 hpc
    have hblocked : ¬ (s.resultLock.lock.waitingThreads = [] ∧ s.resultLock.lock.state = .shared) := by
      rintro ⟨hl, hs⟩
      have hE := h.inv.no_exclusive hs
      have hphase := h.phase
      obtain hpc | hpc := hpc <;> rw [hpc] at hphase <;> simp [Phase, hE, hl] at hphase
    have hct : c = t := by
      refine hlate hpc c ?_
      simp [perform_lockShared hc.1, hblocked]
    rw [hself hct] at hpc
    obtain hpc | hpc := hpc <;> cases hpc
  · exact iff_of_true (fun hdie => absurd hdie hpc) ⟨fun hdie => absurd hdie hpc, hpc⟩

theorem JoinInv.noneLate_release (h : JoinInv t s) {v : ρ} (hjoin : s.joiner c = .joined v) :
    NoneLate t { s with
      resultLock := s.resultLock.perform (.unlockShared c)
      joiner := Function.update s.joiner c .none } ↔ NoneLate t s := by
  have hc : c ∈ s.resultLock.sharedHolders := (h.holders c).mpr (.inr ⟨v, hjoin⟩)
  rw [perform_unlockShared h.inv.toResourceOk hc]
  split
  · next hwake =>
      obtain ⟨-, hhead, hw⟩ := h.head_eq (h.holder hc).1 hwake.2
      obtain ⟨e, rest, hl, -, -, hlock, -⟩ | ⟨cs, rest, hl, hcs, hshared, -⟩ :=
        h.inv.woken_cases hwake.2
      · have het : e = t := by simpa [hl] using hhead
        simp [NoneLate, hlock, hl, het]
      · cases cs with
        | nil => exact absurd rfl hcs
        | cons e cs =>
            have het : e = t := by simpa [hl] using hhead
            have hshared := hshared e List.mem_cons_self
            rw [het, hw] at hshared
            cases hshared
  · exact Iff.rfl

theorem JoinInv.noneLate_startup (h : JoinInv t s) (ht : s.Runs t)
    (hstep : s.schedulerThreadStartup t = some s') : NoneLate t s' ↔ NoneLate t s := by
  unfold schedulerThreadStartup at hstep
  split at hstep <;> first | (rw [Option.some.injEq] at hstep; subst hstep) | cases hstep
  · next hpc => simp [NoneLate, hpc]
  · next hpc => simp [NoneLate, hpc]
  · next hpc =>
      have hphase := h.phase
      rw [hpc] at hphase
      have hl := hphase.1.2
      refine iff_of_true (fun _ c hc => ?_) fun hdie => by simp [hpc] at hdie
      rw [perform_lockExclusive ht.1] at hc
      split at hc
      · rw [grantExclusive_waitingThreads, hl] at hc
        cases hc
      · simpa [hl] using hc
  · next hpc => simp [NoneLate, hpc]

theorem noneLate_step {op : JoinOp κ ρ} (h : JoinInv t s) (hstep : step t s op = some s') :
    NoneLate t s' ↔ NoneLate t s ∧ JoinsInTime s op := by
  obtain ⟨v, rfl, ht, hpc, rfl⟩ | ⟨rfl, ht, hstep⟩ | ⟨c, rfl, hc, hjoin, hself, rfl⟩ |
    ⟨c, rfl, hc, hjoin, rfl⟩ | ⟨c, v, rfl, -, hjoin, rfl⟩ |
    ⟨c, context, thread, rfl, hc, hself, rfl⟩ := step_cases hstep
  · simp [NoneLate, JoinsInTime, hpc]
  · rw [h.noneLate_startup ht hstep]
    exact (and_iff_left trivial).symm
  · exact h.noneLate_join hc hself
  · exact (and_iff_left trivial).symm
  · rw [h.noneLate_release hjoin]
    exact (and_iff_left trivial).symm
  · exact (and_iff_left trivial).symm

/-- **Who is stranded**: a dead thread has no joiner waiting for it exactly
when every join was made before the thread asked for its `ResultLock` back. -/
theorem noneStranded_iff (t : κ) (world : Contexts κ) (null : ρ) (start : Bool)
    (ops : List (JoinOp κ ρ))
    (h : exec (step t) (schedulerCreateThread t world null start) ops = some s) :
    NoneStranded t s ↔
      (Done t s → Along (step t) JoinsInTime (schedulerCreateThread t world null start) ops) := by
  have hlate := holds_iff_along (I := JoinInv t) (Q := NoneLate t) (P := JoinsInTime)
    (fun _ _ _ hs hstep => joinInv_step hs hstep) (fun _ _ _ hs hstep => noneLate_step hs hstep)
    (joinInv_create world null start) h
  have hfirst : NoneLate t (schedulerCreateThread t world null start) := fun hdie => by
    simp [schedulerCreateThread] at hdie
  rw [and_iff_right hfirst] at hlate
  by_cases hdone : Done t s
  · rw [(joinInv_exec h).noneStranded_iff_noneLate hdone, hlate]
    exact ⟨fun h _ => h, fun h => h hdone⟩
  · exact iff_of_true (fun h => absurd h hdone) fun h => absurd h hdone

theorem noneStranded_iff_sample :
    ∃ s, exec (step 0) (schedulerCreateThread 0 sampleThreads 0 true) sampleJoins = some s ∧
      Done 0 s ∧ NoneStranded 0 s := by
  have hend : (exec (step 0) (schedulerCreateThread 0 sampleThreads 0 true) sampleJoins).map
      (fun s => s.resultLock.world.thread 0) = some .done := by decide
  obtain ⟨s, hs, hdone⟩ := Option.map_eq_some_iff.mp hend
  refine ⟨s, hs, hdone, (noneStranded_iff 0 sampleThreads 0 true sampleJoins hs).mpr fun _ => ?_⟩
  decide

/-- Thread 0 dies with nobody joining it; the join of thread 1 after that never
returns. -/
theorem joiner_stranded :
    ∃ s, exec (step 0) (schedulerCreateThread 0 sampleThreads 0 true)
        [.mainReturns 7, .startup, .startup, .startup, .startup, .join 1] = some s ∧
      ¬ NoneStranded 0 s := by
  have hend : (exec (step 0) (schedulerCreateThread 0 sampleThreads 0 true)
      [.mainReturns 7, .startup, .startup, .startup, .startup, .join 1]).map
      (fun s => (s.resultLock.world.thread 0, s.resultLock.lock.waitingThreads)) =
        some (.done, [1]) := by decide
  obtain ⟨s, hs, heq⟩ := Option.map_eq_some_iff.mp hend
  obtain ⟨hdone, hwait⟩ := Prod.mk.inj heq
  refine ⟨s, hs, fun hnone => ?_⟩
  rw [hnone hdone] at hwait
  cases hwait

end KernelPanic
