import KernelPanic.Kernel.Pipe.Stream

/-!
# KernelPanic.Kernel.Pipe.Shared

Several pipes with the same threads.  A thread is in one call at a time; while it is
blocked in one pipe it calls no other.  So what happens in one pipe concerns only the
threads that are in its calls (`statement_confined`), and each pipe of the system goes
through a run of a pipe that has its threads for itself (`SharedInv`).
-/

namespace KernelPanic

open Run PipeRun

variable {τ ι : Type*} [DecidableEq τ] [DecidableEq ι]

/-! ## the system -/

/-- The pipes `ι` and the threads' contexts.  The contexts in `part` are not used. -/
structure PipeSystem (ι τ : Type*) where
  world : Contexts τ
  part : ι → PipeRun τ

namespace PipeSystem

/-- One of the pipes, with the threads as they are. -/
def pipe (s : PipeSystem ι τ) (i : ι) : PipeRun τ := { s.part i with world := s.world }

/-- The thread of a step. -/
def thread : PipeOp τ → τ
  | .call t _ => t
  | .run t => t

/-- The thread is in no call of another pipe. -/
def Free (s : PipeSystem ι τ) (i : ι) (t : τ) : Prop := ∀ j, j ≠ i → (s.part j).thread t = none

instance [Fintype ι] (s : PipeSystem ι τ) (i : ι) (t : τ) : Decidable (s.Free i t) :=
  inferInstanceAs (Decidable (∀ j, j ≠ i → (s.part j).thread t = none))

/-- A step in pipe `i`. -/
def step [Fintype ι] (s : PipeSystem ι τ) (l : ι × PipeOp τ) : Option (PipeSystem ι τ) :=
  if s.Free l.1 (thread l.2) then
    ((s.pipe l.1).step l.2).map fun r => ⟨r.world, Function.update s.part l.1 r⟩
  else none

/-- No index of the pipe's ring wraps. -/
def Fits (s : PipeSystem ι τ) (l : ι × PipeOp τ) : Prop := (s.pipe l.1).Fits l.2

instance (s : PipeSystem ι τ) (l : ι × PipeOp τ) : Decidable (s.Fits l) :=
  inferInstanceAs (Decidable ((s.pipe l.1).Fits l.2))

/-- Nobody has called yet. -/
def start (buff : ι → ℕ → UInt8) (size : ι → ℕ) : PipeSystem ι τ where
  world := ⟨fun _ => ⟨.ready, .shared, .thread⟩, fun _ => .running, [], [], false⟩
  part i := PipeRun.start (buff i) (size i)

end PipeSystem

/-! ## what a statement does to the threads -/

/-- What the scheduler and the locks read of a thread. -/
def scheduling (w : Contexts τ) (t : τ) : LockingState × ContextKind × ThreadState :=
  ((w.context t).state, (w.context t).kind, w.thread t)

variable {w w' : Contexts τ} {S : Set τ} {c d t : τ} {f : Contexts τ → Contexts τ}

omit [DecidableEq τ] in
/-- Two worlds schedule a thread alike. -/
theorem scheduling_eq : scheduling w t = scheduling w' t ↔
    (w.context t).state = (w'.context t).state ∧ (w.context t).kind = (w'.context t).kind ∧
      w.thread t = w'.thread t := by
  simp [scheduling, Prod.ext_iff]

/-- The function reads and changes only the threads in `S`, and asserts only what it
reads. -/
structure Within (S : Set τ) (f : Contexts τ → Contexts τ) : Prop where
  outside : ∀ w, ∀ c ∉ S, scheduling (f w) c = scheduling w c
  inside : ∀ w w', (∀ c ∈ S, scheduling w c = scheduling w' c) →
    ∀ c ∈ S, scheduling (f w) c = scheduling (f w') c
  panics : ∀ w w', (∀ c ∈ S, scheduling w c = scheduling w' c) →
    ∃ b, (f w).panicked = (w.panicked || b) ∧ (f w').panicked = (w'.panicked || b)

omit [DecidableEq τ] in
/-- Nothing changes. -/
theorem Within.id : Within S (fun w : Contexts τ => w) :=
  ⟨fun _ _ _ => rfl, fun _ _ h => h, fun _ _ _ => ⟨false, by simp, by simp⟩⟩

omit [DecidableEq τ] in
/-- An assertion changes no context. -/
theorem Within.assert (b : Bool) : Within S (fun w : Contexts τ => w.assert b) :=
  ⟨fun _ _ _ => rfl, fun _ _ h => h, fun _ _ _ => ⟨!b, rfl, rfl⟩⟩

/-- A function that changes one thread, by what it reads of it. -/
theorem Within.of_thread {r : LockingState × ContextKind × ThreadState → _}
    {b : LockingState × ContextKind × ThreadState → Bool} (hc : c ∈ S)
    (hself : ∀ w, scheduling (f w) c = r (scheduling w c))
    (hother : ∀ w, ∀ d ≠ c, scheduling (f w) d = scheduling w d)
    (hpanics : ∀ w, (f w).panicked = (w.panicked || b (scheduling w c))) : Within S f where
  outside w d hd := hother w d fun hdc => hd (hdc ▸ hc)
  inside w w' hS d hd := by
    by_cases hdc : d = c
    · rw [hdc, hself, hself, hS c hc]
    · rw [hother w d hdc, hother w' d hdc, hS d hd]
  panics w w' hS := ⟨b (scheduling w c), hpanics w, by rw [hpanics, hS c hc]⟩

/-- `LockingAcquire`, on what it reads. -/
def acquired : LockingState × ContextKind × ThreadState → LockingState × ContextKind × ThreadState
  | (.ready, .thread, t) => (.ready, .thread, t)
  | (.blocking, .thread, _) => (.ready, .thread, .running)
  | (_, k, t) => (.acquired, k, t)

/-- An assertion of `LockingAcquire` fails. -/
def acquireFails : LockingState × ContextKind × ThreadState → Bool
  | (.blocking, .thread, t) => t ≠ .blocked
  | (.acquired, _, _) => true
  | _ => false

/-- A grant changes the context that gets it. -/
theorem within_acquire (hc : c ∈ S) : Within S (lockingAcquire · c) := by
  refine .of_thread (r := acquired) (b := acquireFails) hc (fun w => ?_) (fun w d hd => ?_)
    fun w => ?_ <;>
  cases hk : (w.context c).kind <;> cases hs : (w.context c).state <;>
  simp [lockingAcquire, schedulerWakeOnLock, schedulerResumeThread, lockingWakeNonBlocking,
    workerWakeOnLock, Contexts.assert, Contexts.setState, Contexts.setThread, Contexts.panic,
    scheduling, acquired, acquireFails, *]

/-- A wait changes the context that waits. -/
theorem within_block (hc : c ∈ S) : Within S (lockingBlock · none c) := by
  refine .of_thread (r := fun x => (.blocking, x.2.1, if x.2.1 = .thread then .blocked else x.2.2))
    (b := fun x => x.1 ≠ .ready) hc (fun w => ?_) (fun w d hd => ?_) fun w => ?_ <;>
  cases hk : (w.context c).kind <;>
  simp [lockingBlock, schedulerBlockOnLock, Contexts.assert, Contexts.setState,
    Contexts.setThread, scheduling, *]

/-- `SemaphoreDown` changes the caller. -/
theorem within_down (lock : Semaphore τ) (hc : c ∈ S) :
    Within S fun w => (semaphoreDown w lock c).1 := by
  unfold semaphoreDown
  by_cases hzero : lock.count = 0
  · simp only [hzero, if_true]
    exact within_block hc
  · simp only [hzero, if_false]
    exact within_acquire hc

/-- `SemaphoreUp` changes the one that waits. -/
theorem within_up {lock : Semaphore τ} (hlock : ∀ c ∈ lock.waitingThreads, c ∈ S) :
    Within S fun w => (semaphoreUp w lock).1 := by
  unfold semaphoreUp
  cases hw : lock.waitingThreads with
  | nil => exact .id
  | cons c rest => exact within_acquire (hlock c (by simp [hw]))

/-- What becomes of the semaphore does not depend on the contexts. -/
theorem semaphoreDown_lock (w w' : Contexts τ) (lock : Semaphore τ) :
    (semaphoreDown w lock c).2 = (semaphoreDown w' lock c).2 := by
  unfold semaphoreDown
  split <;> rfl

/-- What becomes of the semaphore does not depend on the contexts. -/
theorem semaphoreUp_lock (w w' : Contexts τ) (lock : Semaphore τ) :
    (semaphoreUp w lock).2 = (semaphoreUp w' lock).2 := by
  unfold semaphoreUp
  split <;> rfl

variable {s s' r : PipeRun τ} {p : PipeThread}

/-- From `s`, what `F` does to the contexts concerns only the threads in `S`, and the rest
goes the same way whatever the contexts are. -/
def Confined (S : Set τ) (s : PipeRun τ) (F : PipeRun τ → PipeRun τ) : Prop :=
  ∃ f, Within S f ∧ ∀ w, F { s with world := w } = { F s with world := f w }

variable {F G : PipeRun τ → PipeRun τ}

omit [DecidableEq τ] in
theorem Confined.id : Confined S s fun r => r := ⟨_, .id, fun _ => rfl⟩

/-- `SemaphoreDown` stays with the caller. -/
theorem confined_down {l : PipeLock} (hc : c ∈ S) : Confined S s (PipeRun.down · c l) := by
  refine ⟨_, within_down (s.pipe.lock l) hc, fun w => ?_⟩
  simp only [PipeRun.down, semaphoreDown_lock w s.world]

/-- `SemaphoreUp` stays with those that wait. -/
theorem confined_up {l : PipeLock} (hl : ∀ c ∈ (s.pipe.lock l).waitingThreads, c ∈ S) :
    Confined S s (PipeRun.up · l) := by
  refine ⟨_, within_up hl, fun w => ?_⟩
  simp only [PipeRun.up, semaphoreUp_lock w s.world]

omit [DecidableEq τ] in
/-- So does an assertion about the pipe. -/
theorem confined_assert {b : PipeRun τ → Bool} (hb : ∀ w, b { s with world := w } = b s) :
    Confined S s fun r => r.assert (b r) := by
  refine ⟨_, .assert (b s), fun w => ?_⟩
  simp only [hb]
  rfl

omit [DecidableEq τ] in
/-- Either branch is confined. -/
theorem Confined.ite {b : Prop} [Decidable b] (hF : Confined S s F) (hG : Confined S s G) :
    Confined S s fun r => if b then F r else G r := by
  split
  · exact hF
  · exact hG

/-- The thread of the pipe goes on. -/
theorem Confined.setThread {p : PipeRun τ → PipeThread} (h : Confined S s F)
    (hp : ∀ w, p { s with world := w } = p s) : Confined S s fun r => (F r).setThread t (p r) := by
  obtain ⟨f, hf, hF⟩ := h
  exact ⟨f, hf, fun w => congrArg₂ (PipeRun.setThread · t ·) (hF w) (hp w)⟩

/-- **A statement of a pipe's call** concerns only the threads in the pipe's calls, and
goes the same way whatever the other threads are. -/
theorem statement_confined (s : PipeRun τ) (p : PipeThread) (ht : t ∈ S)
    (hl : ∀ l, ∀ c ∈ (s.pipe.lock l).waitingThreads, c ∈ S) :
    Confined S s fun r => r.statement t p := by
  cases hpc : p.pc with
  | downOuter | downGate | downMutex =>
      simp only [statement, hpc]
      exact (confined_down ht).setThread fun _ => rfl
  | upMutex | upOuter =>
      simp only [statement, hpc]
      exact (confined_up (hl _)).setThread fun _ => rfl
  | upOther | upGate =>
      simp only [statement, hpc]
      exact ((confined_up (hl _)).ite .id).setThread fun _ => rfl
  | loop | checkLeft =>
      simp only [statement, hpc]
      exact Confined.id.setThread fun _ => rfl
  | check =>
      simp only [statement, hpc]
      exact (confined_assert fun _ => rfl).setThread fun _ => rfl
  | transfer =>
      cases hop : p.ringOp s.pipe.ring with
      | none =>
          refine ⟨_, .id, fun w => ?_⟩
          simp only [statement, hpc, hop]
          cases p.side <;> rfl
      | some r =>
          refine ⟨_, .assert (0 < r.1), fun w => ?_⟩
          simp only [statement, hpc, hop]
          cases p.side <;> rfl
  | copying =>
      simp only [statement, hpc]
      exact .id
  | ret =>
      refine ⟨_, .assert (!p.call.isStruct || p.done = p.call.size), fun w => ?_⟩
      simp only [statement, hpc]
      rfl

omit [DecidableEq τ] in
theorem runs_iff_scheduling : s.Runs t ↔
    (scheduling s.world t).1 = .ready ∧ (scheduling s.world t).2.2 = .running := Iff.rfl

/-- A step of a pipe goes the same way whatever the threads in other calls are. -/
theorem step_world {op : PipeOp τ} (s : PipeRun τ) (ht : PipeSystem.thread op ∈ S)
    (hl : ∀ l, ∀ c ∈ (s.pipe.lock l).waitingThreads, c ∈ S)
    (hw : ∀ c ∈ S, scheduling w c = scheduling w' c)
    (hstep : ({ s with world := w } : PipeRun τ).step op = some r) :
    ∃ f, Within S f ∧ r.world = f w ∧
      ({ s with world := w' } : PipeRun τ).step op = some { r with world := f w' } := by
  have hruns : ({ s with world := w } : PipeRun τ).Runs (PipeSystem.thread op) →
      ({ s with world := w' } : PipeRun τ).Runs (PipeSystem.thread op) := by
    rw [runs_iff_scheduling, runs_iff_scheduling]
    simp only [hw _ ht]
    exact fun h => h
  obtain ⟨t, call, rfl, hrun, hidle, hsize, rfl⟩ | ⟨t, p, rfl, hrun, hp, rfl⟩ :=
    pipe_step_cases hstep
  · refine ⟨_, .id, rfl, ?_⟩
    simp only [step]
    rw [if_pos ⟨hruns hrun, hidle, hsize⟩]
  · have ht : t ∈ S := ht
    have hruns : ({ s with world := w' } : PipeRun τ).Runs t := hruns hrun
    obtain ⟨f, hf, hstatement⟩ := statement_confined s p ht hl
    simp only at hstatement
    have hp : s.thread t = some p := hp
    refine ⟨f, hf, by rw [hstatement], ?_⟩
    simp only [step, hp]
    rw [if_pos hruns, hstatement w', hstatement w]

/-- What a step does to the calls: it concerns its own thread, which runs, and a call that
returns leaves the threads alone. -/
theorem step_thread {op : PipeOp τ} (h : s.step op = some r) :
    s.Runs (PipeSystem.thread op) ∧ (∀ c ≠ PipeSystem.thread op, r.thread c = s.thread c) ∧
      (r.thread (PipeSystem.thread op) = none → s.thread (PipeSystem.thread op) ≠ none ∧
        ∀ c, scheduling r.world c = scheduling s.world c) := by
  obtain ⟨t, call, rfl, hrun, -, -, rfl⟩ | ⟨t, p, rfl, hrun, hp, rfl⟩ := pipe_step_cases h
  · refine ⟨hrun, fun c hc => Function.update_of_ne hc _ _, fun hnone => ?_⟩
    simp [PipeSystem.thread] at hnone
  · obtain ⟨q, hq, hret, -⟩ := statement_thread hp
    refine ⟨hrun, fun c hc => ?_, fun hnone => ⟨by simp [PipeSystem.thread, hp], fun c => ?_⟩⟩
    · rw [hq]
      exact Function.update_of_ne hc _ _
    · have hpc := hret (by simpa [PipeSystem.thread, hq] using hnone)
      simp only [statement, hpc]
      rfl

/-! ## runs of the system -/

namespace PipeSystem

variable {s s' : PipeSystem ι τ} {i j : ι} {l : ι × PipeOp τ}

/-- A state of the contexts in which pipe `i` could be if it had its threads for itself:
a thread in a call of another pipe is as before that call. -/
structure View (s : PipeSystem ι τ) (i : ι) (w : Contexts τ) : Prop where
  sync : SyncInv { s.part i with world := w }
  stream : StreamInv { s.part i with world := w }
  free : ∀ t, s.Free i t → scheduling w t = scheduling s.world t
  busy : ∀ t, ¬ s.Free i t → scheduling w t = (.ready, .thread, .running)

/-- The invariant. -/
structure SharedInv (s : PipeSystem ι τ) : Prop where
  alone : ∀ t i j, (s.part i).thread t ≠ none → (s.part j).thread t ≠ none → i = j
  view : ∀ i, ∃ w, s.View i w
  fine : s.world.panicked = false

omit [DecidableEq τ] [DecidableEq ι] in
/-- The pipes as `PipeInit` leaves them. -/
theorem sharedInv_start (buff : ι → ℕ → UInt8) {size : ι → ℕ}
    (hsize : ∀ i, 0 < size i ∧ size i < 2 ^ 64) :
    SharedInv (start buff size : PipeSystem ι τ) where
  alone _ _ _ hi := absurd rfl hi
  view i := ⟨_, syncInv_start (buff i) (hsize i).1 (hsize i).2, streamInv_start (buff i) (size i),
    fun _ _ => rfl, fun _ _ => rfl⟩
  fine := rfl

/-- What a step of the system is. -/
theorem system_step_cases [Fintype ι] {op : PipeOp τ} (h : PipeSystem.step s (i, op) = some s') :
    ∃ r, s.Free i (thread op) ∧ (s.pipe i).step op = some r ∧ s'.world = r.world ∧
      s'.part i = r ∧ ∀ j ≠ i, s'.part j = s.part j := by
  obtain ⟨hfree, h⟩ := Option.ite_none_right_eq_some.mp h
  obtain ⟨r, hr, rfl⟩ := Option.map_eq_some_iff.mp h
  exact ⟨r, hfree, hr, rfl, Function.update_self .., fun j hj => Function.update_of_ne hj _ _⟩

/-- The threads of pipe `i`, and `t`. -/
def mine (s : PipeSystem ι τ) (i : ι) (t : τ) : Set τ := {c | (s.part i).thread c ≠ none ∨ c = t}

omit [DecidableEq τ] [DecidableEq ι] in
/-- A thread in a call of the pipe is in no call of another. -/
theorem SharedInv.free_of_call (h : SharedInv s) (hc : (s.part i).thread c ≠ none) : s.Free i c :=
  fun j hji => by
    by_contra hj
    exact hji (h.alone c j i hj hc)

omit [DecidableEq τ] [DecidableEq ι] in
/-- Who waits in the pipe is in no call of another. -/
theorem SharedInv.free_mine (h : SharedInv s) (hfree : s.Free i t) (hc : c ∈ s.mine i t) :
    s.Free i c := by
  obtain hc | rfl := hc
  · exact h.free_of_call hc
  · exact hfree

omit [DecidableEq τ] [DecidableEq ι] in
/-- The pipe of the step goes on as if it had its threads for itself. -/
theorem View.moves (hview : s.View i w) (h : SharedInv s) (hfree : s.Free i t)
    (hf : Within (s.mine i t) f) (hworld : s'.world = f s.world)
    (hsync : SyncInv { s'.part i with world := f w })
    (hstream : StreamInv { s'.part i with world := f w })
    (hparts : ∀ j ≠ i, s'.part j = s.part j) : s'.View i (f w) := by
  have hkeeps : ∀ c, s'.Free i c ↔ s.Free i c := fun c =>
    forall₂_congr fun k hki => by rw [hparts k hki]
  have hagree : ∀ c ∈ s.mine i t, scheduling w c = scheduling s.world c := fun c hc =>
    hview.free c (h.free_mine hfree hc)
  refine ⟨hsync, hstream, fun c hc => ?_, fun c hc => ?_⟩
  · rw [hworld]
    by_cases hmine : c ∈ s.mine i t
    · exact hf.inside _ _ hagree c hmine
    · rw [hf.outside w c hmine, hf.outside s.world c hmine]
      exact hview.free c ((hkeeps c).mp hc)
  · rw [hkeeps] at hc
    rw [hf.outside w c fun hmine => hc (h.free_mine hfree hmine)]
    exact hview.busy c hc

omit [DecidableEq τ] [DecidableEq ι] in
/-- For another pipe nothing happens: the step is one of a thread that is in a call of
pipe `i` before it or after it. -/
theorem View.stays (hview : s.View j w) (hji : j ≠ i)
    (hf : Within (s.mine i t) f) (hworld : s'.world = f s.world)
    (hstart : scheduling s.world t = (.ready, .thread, .running))
    (hothers : ∀ c ≠ t, (s'.part i).thread c = (s.part i).thread c)
    (hret : (s'.part i).thread t = none → (s.part i).thread t ≠ none ∧
      ∀ c, scheduling s'.world c = scheduling s.world c)
    (hparts : ∀ j ≠ i, s'.part j = s.part j) : s'.View j w := by
  have hbusy : ∀ c, (s.part i).thread c ≠ none → ¬ s.Free j c := fun c hc hfree =>
    hc (hfree i hji.symm)
  have hkeeps : ∀ c ≠ t, (s'.Free j c ↔ s.Free j c) := fun c hct =>
    forall₂_congr fun k hkj => by
      obtain rfl | hki := eq_or_ne k i
      · rw [hothers c hct]
      · rw [hparts k hki]
  refine ⟨by rw [hparts j hji]; exact hview.sync, by rw [hparts j hji]; exact hview.stream,
    fun c hc => ?_, fun c hc => ?_⟩
  · obtain rfl | hct := eq_or_ne c t
    · obtain ⟨hcall, hsame⟩ := hret (hc i hji.symm)
      rw [hview.busy c (hbusy c hcall), hsame c, hstart]
    · have hc := (hkeeps c hct).mp hc
      rw [hview.free c hc, hworld, hf.outside _ c fun hmine => ?_]
      exact hbusy c (hmine.resolve_right hct) hc
  · obtain rfl | hct := eq_or_ne c t
    · by_cases hfree : s.Free j c
      · rw [hview.free c hfree, hstart]
      · exact hview.busy c hfree
    · exact hview.busy c fun hfree => hc ((hkeeps c hct).mpr hfree)

/-- **One step keeps it**, in the pipe and in the others. -/
theorem SharedInv.step [Fintype ι] (h : SharedInv s) (hfit : s.Fits l)
    (hstep : PipeSystem.step s l = some s') : SharedInv s' := by
  obtain ⟨i, op⟩ := l
  obtain ⟨r, hfree, hr, hworld', hpart, hparts⟩ := system_step_cases hstep
  obtain ⟨w, hview⟩ := h.view i
  obtain ⟨hrun, hothers, hret⟩ := step_thread hr
  generalize htop : PipeSystem.thread op = t at hfree hrun hothers hret
  have hwait : ∀ m, ∀ c ∈ ((s.part i).pipe.lock m).waitingThreads, c ∈ s.mine i t := fun m c hc => by
    obtain ⟨p, hp, -⟩ := hview.sync.place m c hc
    have hp : (s.part i).thread c = some p := hp
    exact .inl (by simp [hp])
  have hagree : ∀ c ∈ s.mine i t, scheduling s.world c = scheduling w c := fun c hc =>
    (hview.free c (h.free_mine hfree hc)).symm
  obtain ⟨f, hf, hworld, hstep'⟩ := step_world (s.part i) (.inr htop) hwait hagree hr
  have hfit' : ({ s.part i with world := w } : PipeRun τ).Fits op := by
    cases op <;> exact hfit
  obtain ⟨hsync, hstream⟩ := streamInv_step ⟨hview.sync, hview.stream⟩ hfit' hstep'
  rw [← hworld'] at hworld hret
  rw [← hpart] at hothers hret hsync hstream
  have hstart : scheduling s.world t = (.ready, .thread, .running) := by
    have hkind := hview.sync.blocking.kind t
    obtain ⟨-, hkind', -⟩ := scheduling_eq.mp (hagree t (.inr rfl))
    obtain ⟨hready, hrunning⟩ := hrun
    exact Prod.ext hready (Prod.ext (hkind'.trans hkind) hrunning)
  refine ⟨fun c j k hj hk => ?_, fun j => ?_, ?_⟩
  · obtain rfl | hct := eq_or_ne c t
    · have honly : ∀ j, (s'.part j).thread c ≠ none → j = i := fun j hj => by
        by_contra hji
        rw [hparts j hji] at hj
        exact hj (hfree j hji)
      rw [honly j hj, honly k hk]
    · have hsame : ∀ j, (s'.part j).thread c = (s.part j).thread c := fun j => by
        obtain rfl | hji := eq_or_ne j i
        · exact hothers c hct
        · rw [hparts j hji]
      exact h.alone c j k (hsame j ▸ hj) (hsame k ▸ hk)
  · obtain rfl | hji := eq_or_ne j i
    · exact ⟨f w, hview.moves h hfree hf hworld hsync hstream hparts⟩
    · obtain ⟨v, hother⟩ := h.view j
      exact ⟨v, hother.stays hji hf hworld hstart hothers hret hparts⟩
  · obtain ⟨b, hb, hb'⟩ := hf.panics _ _ hagree
    have hfine : (f w).panicked = false := hsync.blocking.fine
    have hwfine : w.panicked = false := hview.sync.blocking.fine
    rw [hb', hwfine, Bool.false_or] at hfine
    rw [hworld, hb, hfine, Bool.or_false]
    exact h.fine

omit [DecidableEq τ] [DecidableEq ι] in
/-- Each pipe keeps its promises. -/
theorem SharedInv.stream (h : SharedInv s) (i : ι) : PipeStreamOk (s.part i) := by
  obtain ⟨w, hview⟩ := h.view i
  have hinv := hview.stream
  refine ⟨⟨_, hinv.fifo.symm⟩, fun p hp => ?_, fun p hp => ?_, fun p hp => (hinv.finished p hp).1⟩
  · obtain hp | ⟨t, hp⟩ := hp
    · exact (hinv.finished p hp).2.2.1
    · exact hinv.contiguous t p hp
  · obtain hp | ⟨t, hp⟩ := hp
    · exact (hinv.finished p hp).2.1
    · exact hinv.takes t p hp

omit [DecidableEq τ] [DecidableEq ι] in
/-- When no call of the pipe can go on, the ring has nothing for any of them. -/
theorem SharedInv.not_stuck (h : SharedInv s)
    (hall : ∀ t p, (s.part i).thread t = some p → ¬ (s.pipe i).Runs t ∨ p.pc = .copying)
    (hp : (s.part i).thread t = some p) : p.side.avail (s.part i).pipe.ring = false := by
  obtain ⟨w, hview⟩ := h.view i
  refine hview.sync.not_stuck (fun d q hq => ?_) hp
  have hq : (s.part i).thread d = some q := hq
  by_contra hblocked
  have hruns := hview.sync.blocking.runs d fun l hl => hblocked ⟨l, hl⟩
  obtain ⟨hstate, -, hthread⟩ := scheduling_eq.mp (hview.free d (h.free_of_call (by simp [hq])))
  obtain hnot | hpc := hall d q hq
  · exact hnot ⟨hstate ▸ hruns.1, hthread ▸ hruns.2⟩
  · exact hview.sync.not_copying hq hpc

end PipeSystem

end KernelPanic
