import KernelPanic.Kernel.Dispatch.Counts

/-!
# KernelPanic.Kernel.Dispatch.Stops

A thread that blocks, or is done, only sets its `State` and goes on: it is the
switch it asks for that takes the processor from it.  `Leaving` lists what stands
between the two, one case for each place the request can be in, and every step
leads from one case to the next.

The thread is in a section when it asks (`Guarded`), so the request is on the list
and the crit interrupt is raised before the section ends (`Watched`): the first
thing the processor does then is to deliver it.
-/

namespace KernelPanic

open Processor

/-- A thread's own code has something disabled. -/
def InSection (f : Frame) : Prop := f.kind = .thread → ∃ l, 0 < held f.code l

/-- A thread calls `SchedulerNeedsSwitch` in a section. -/
def Guarded (f : Frame) : Prop := settled f.code = false → InSection f

/-- The crit interrupt will look at the list. -/
def Watched (s : Processor) : Prop :=
  s.kernel.critPending = true ∨ (∃ f ∈ s.stack, f.code.head? = some .raise ∧ InSection f) ∨
    .critInterrupt ∈ program s.stack

/-- A switch away from the live thread is on its way. -/
inductive Leaving (s : Processor) : Prop where
  | asks (rest : List Instr) : ⟨.thread, .mutexLock :: rest⟩ ∈ s.stack → Leaving s
  | registers (kind : FrameKind) (i : Instr) (rest : List Instr) :
      i.registers = true → ⟨kind, i :: rest⟩ ∈ s.stack → Leaving s
  | queued : .scheduler ∈ s.kernel.critList → Leaving s
  | schedules : .schedule ∈ program s.stack → Leaving s
  | selected : .schedulerSwitch ∈ program s.stack → s.kernel.nextThread ≠ some s.live → Leaving s
  | switches (oldThread newThread : ThreadId) :
      .halContextSwitch oldThread newThread ∈ program s.stack → Leaving s

structure StopInv (s : Processor) : Prop where
  guarded : ∀ f ∈ s.stack, Guarded f
  guardedSaved : ∀ t, t ≠ s.live → ∀ f ∈ s.saved t, Guarded f
  idle : s.stopped idleThread = false
  /-- The thread that was selected is not stopped. -/
  next : ∀ t, s.kernel.nextThread = some t →
    s.stopped t = false ∧ .schedulerSwitch ∈ program s.stack
  chosen : ∀ oldThread newThread, .halContextSwitch oldThread newThread ∈ program s.stack →
    s.stopped newThread = false
  watched : .scheduler ∈ s.kernel.critList → Watched s
  leaving : s.stopped s.live = true → Leaving s

variable {s s' : Processor} {kind : FrameKind} {i : Instr} {rest code : List Instr}
  {below : List Frame}

theorem guarded_isr {level savedMask : IrqLevel} : Guarded ⟨.isr level savedMask, code⟩ := by
  intro _ hkind
  cases hkind

theorem guarded_of_crit (hkind : kind.isCrit = true) : Guarded ⟨kind, code⟩ := by
  cases kind with
  | thread => cases hkind
  | isr level savedMask => exact guarded_isr

theorem guarded_of_settled (h : settled code = true) : Guarded ⟨kind, code⟩ := by
  intro hnot
  rw [h] at hnot
  cases hnot

theorem settled_of_closes (h : code.all Instr.closes) : settled code = true := by
  cases code with
  | nil => rfl
  | cons i rest =>
      rw [List.all_cons, Bool.and_eq_true] at h
      cases i <;> first | rfl | exact absurd h.1 Bool.false_ne_true

theorem guarded_newStack : ∀ f ∈ newStack, Guarded f := by
  simp [newStack, schedulerThreadStartup, isrEnable, guarded_of_settled, settled, Instr.registers]

theorem stopInv_start : StopInv kernelInit := by
  constructor
  · simp [kernelInit, guarded_of_settled, settled, Instr.registers]
  · exact fun _ _ => guarded_newStack
  · rfl
  · simp [kernelInit, Kernel.schedulerStartup]
  · simp [kernelInit]
  · simp [kernelInit, Kernel.schedulerStartup]
  · simp [kernelInit]

/-! ## the top frame goes on -/

/-- The instruction is one of `SchedulerCritHandler`, up to the switch. -/
def Instr.dispatches : Instr → Bool
  | .schedule => true
  | .schedulerSwitch => true
  | .halContextSwitch _ _ => true
  | _ => false

/-- Neither the live thread nor the selected one nor a stopped one has changed. -/
structure SameThreads (s s' : Processor) : Prop where
  next : s'.kernel.nextThread = s.kernel.nextThread := by rfl
  live : s'.live = s.live := by rfl
  saved : ∀ t, s'.saved t = s.saved t ∨ s'.saved t = newStack := by exact fun _ => .inl rfl
  stopped : s'.stopped = s.stopped := by rfl

section top

variable (hs : s.stack = ⟨kind, i :: rest⟩ :: below)
  (hs' : s'.stack = ⟨kind, code ++ rest⟩ :: below)

include hs hs'

theorem mem_stack_top {f : Frame} (hf : f ∈ s.stack) (hne : f.code.head? ≠ some i) :
    f ∈ s'.stack := by
  rw [hs, List.mem_cons] at hf
  rw [hs', List.mem_cons]
  refine .inr (hf.resolve_left ?_)
  rintro rfl
  exact hne rfl

/-- A thread that is leaving still is, unless this is the instruction it waits
for. -/
theorem Leaving.step_top (h : Leaving s) (hi : i.dispatches = false)
    (hlist : .scheduler ∈ s.kernel.critList → .scheduler ∈ s'.kernel.critList)
    (hsame : SameThreads s s') :
    Leaving s' ∨ kind = .thread ∧ i = .mutexLock ∨ i.registers = true := by
  have hne : ∀ j : Instr, j.dispatches = true → j ≠ i := by
    rintro j hj rfl
    rw [hi] at hj
    cases hj
  cases h with
  | asks rest' hmem =>
      rw [hs, List.mem_cons] at hmem
      obtain heq | hmem := hmem
      · cases heq
        exact .inr (.inl ⟨rfl, rfl⟩)
      · refine .inl (.asks rest' ?_)
        rw [hs']
        exact List.mem_cons_of_mem _ hmem
  | registers kind' j rest' hj hmem =>
      rw [hs, List.mem_cons] at hmem
      obtain heq | hmem := hmem
      · cases heq
        exact .inr (.inr hj)
      · refine .inl (.registers kind' j rest' hj ?_)
        rw [hs']
        exact List.mem_cons_of_mem _ hmem
  | queued hmem => exact .inl (.queued (hlist hmem))
  | schedules hmem => exact .inl (.schedules (mem_program_top hs hs' hmem (hne _ rfl)))
  | selected hmem hsel =>
      rw [← hsame.next, ← hsame.live] at hsel
      exact .inl (.selected (mem_program_top hs hs' hmem (hne _ rfl)) hsel)
  | switches oldThread newThread hmem =>
      exact .inl (.switches oldThread newThread (mem_program_top hs hs' hmem (hne _ rfl)))

theorem Watched.step_top (h : Watched s) (hraise : i ≠ .raise) (hloop : i ≠ .critInterrupt)
    (hpending : s'.kernel.critPending = s.kernel.critPending) : Watched s' := by
  obtain hpend | ⟨f, hf, hhead, hsection⟩ | hmem := h
  · exact .inl (hpending.trans hpend)
  · refine .inr (.inl ⟨f, mem_stack_top hs hs' hf ?_, hhead, hsection⟩)
    rw [hhead]
    exact fun heq => hraise (Option.some.inj heq).symm
  · exact .inr (.inr (mem_program_top hs hs' hmem hloop.symm))

/-- The invariant, but for what concerns the request. -/
theorem StopInv.of_top (h : StopInv s) (hi : i.dispatches = false)
    (hcode : ∀ j ∈ code, j.isSwitch = false) (hguard : Guarded ⟨kind, code ++ rest⟩)
    (hsame : SameThreads s s') (hwatched : .scheduler ∈ s'.kernel.critList → Watched s')
    (hleaving : s.stopped s.live = true → Leaving s') : StopInv s' := by
  have hbelow : ∀ f ∈ below, Guarded f := by
    intro f hf
    apply h.guarded
    rw [hs]
    exact List.mem_cons_of_mem _ hf
  constructor
  · rw [hs', List.forall_mem_cons]
    exact ⟨hguard, hbelow⟩
  · exact saved_of_new (P := fun stack => ∀ f ∈ stack, Guarded f) guarded_newStack
      h.guardedSaved hsame.live hsame.saved
  · rw [hsame.stopped]
    exact h.idle
  · intro t ht
    rw [hsame.next] at ht
    obtain ⟨hrun, hmem⟩ := h.next t ht
    rw [hsame.stopped]
    refine ⟨hrun, mem_program_top hs hs' hmem ?_⟩
    rintro rfl
    cases hi
  · intro oldThread newThread hmem
    rw [hsame.stopped]
    apply h.chosen oldThread newThread
    rw [hs', program_cons, List.append_assoc, mem_append_of_switch hcode rfl] at hmem
    rw [hs, program_cons]
    exact List.mem_cons_of_mem _ hmem
  · exact hwatched
  · rw [hsame.stopped, hsame.live]
    exact hleaving

/-- An instruction no thread waits for. -/
theorem StopInv.exec_other (h : StopInv s) (hcode : ∀ j ∈ code, j.isSwitch = false)
    (hguard : Guarded ⟨kind, code ++ rest⟩)
    (hlist : .scheduler ∈ s.kernel.critList → .scheduler ∈ s'.kernel.critList)
    (hwatched : .scheduler ∈ s'.kernel.critList → Watched s') (hsame : SameThreads s s')
    (hi : i.dispatches = false := by rfl) (hlock : i ≠ .mutexLock := by simp)
    (hregisters : i.registers = false := by rfl) : StopInv s' := by
  apply h.of_top hs hs' hi hcode hguard hsame hwatched
  intro hstop
  obtain hleaving | ⟨-, heq⟩ | heq := (h.leaving hstop).step_top hs hs' hi hlist hsame
  · exact hleaving
  · exact absurd heq hlock
  · rw [hregisters] at heq
    cases heq

/-- And that has nothing to do with the list. -/
theorem StopInv.exec_quiet (h : StopInv s) (hcode : ∀ j ∈ code, j.isSwitch = false)
    (hguard : Guarded ⟨kind, code ++ rest⟩) (hsame : SameThreads s s')
    (hlist : .scheduler ∈ s'.kernel.critList ↔ .scheduler ∈ s.kernel.critList := by rfl)
    (hpending : s'.kernel.critPending = s.kernel.critPending := by rfl)
    (hi : i.dispatches = false := by rfl) (hlock : i ≠ .mutexLock := by simp)
    (hregisters : i.registers = false := by rfl) (hraise : i ≠ .raise := by simp)
    (hloop : i ≠ .critInterrupt := by simp) : StopInv s' := by
  apply h.exec_other hs hs' hcode hguard hlist.mpr _ hsame hi hlock hregisters
  exact fun hmem => (h.watched (hlist.mp hmem)).step_top hs hs' hraise hloop hpending

end top

/-! ## the request goes on -/

theorem owns_of_closes (h : code.all Instr.closes) : code.countP Instr.owns = 0 := by
  rw [List.countP_eq_zero]
  intro i hi
  have hcloses := List.all_eq_true.mp h i hi
  cases i <;> first | exact Bool.false_ne_true | cases hcloses

/-- A thread's frame is the only one, when it is on top. -/
theorem CountInv.below_eq_nil (h : CountInv s) (hs : s.stack = ⟨.thread, code⟩ :: below) :
    below = [] := by
  have hstack := h.stack
  rw [hs] at hstack
  exact hstack.2

theorem StopInv.guarded_top (h : StopInv s) (hs : s.stack = ⟨kind, code⟩ :: below) :
    Guarded ⟨kind, code⟩ := by
  apply h.guarded
  rw [hs]
  exact List.mem_cons_self

/-- `MutexLock` fails: somebody else has asked, and the request is not this
thread's own to finish. -/
theorem StopInv.mutexLock_locked (h : StopInv s) (hreq : RequestInv s) (hcount : CountInv s)
    (hs : s.stack = ⟨kind, .mutexLock :: rest⟩ :: below) (hmutex : s.kernel.schedulerMutex = true)
    (hs' : s'.stack = ⟨kind, [] ++ rest⟩ :: below) (hkernel : s'.kernel = s.kernel)
    (hsame : SameThreads s s') : StopInv s' := by
  obtain ⟨⟨code, rfl⟩, ⟨⟨hcloses, -, -⟩, -⟩, -⟩ := hreq.top hs
  apply h.of_top hs hs' rfl (by simp) (guarded_of_settled rfl) hsame
  · intro hmem
    rw [hkernel] at hmem
    exact (h.watched hmem).step_top hs hs' (by simp) (by simp) (by rw [hkernel])
  · intro hstop
    obtain hleaving | ⟨rfl, -⟩ | heq :=
      (h.leaving hstop).step_top hs hs' rfl (by rw [hkernel]; exact id) hsame
    · exact hleaving
    · -- the thread's own call: nothing below, and the code after it is no request
      obtain rfl := hcount.below_eq_nil hs
      have haccount := hreq.account_top hs
      have hzero : (Instr.body :: code ++ program []).countP Instr.owns = 0 := by
        rw [program_nil, List.append_nil]
        exact owns_of_closes hcloses
      rw [hzero, hmutex] at haccount
      simp only [Instr.owns, Bool.false_eq_true, ↓reduceIte, Bool.toNat_true] at haccount
      apply Leaving.queued
      rw [hkernel]
      apply List.count_pos_iff.mp
      omega
    · cases heq

/-- **`MutexLock`**: the request is this one. -/
theorem StopInv.mutexLock_free (h : StopInv s)
    (hs : s.stack = ⟨kind, .mutexLock :: rest⟩ :: below)
    (hs' : s'.stack = ⟨kind, registerSwitch ++ rest⟩ :: below)
    (hlist : s'.kernel.critList = s.kernel.critList)
    (hpending : s'.kernel.critPending = s.kernel.critPending) (hsame : SameThreads s s') :
    StopInv s' := by
  have hsection : InSection ⟨kind, .mutexLock :: rest⟩ := h.guarded_top hs rfl
  have hguard : Guarded ⟨kind, registerSwitch ++ rest⟩ := fun _ => hsection
  apply h.of_top hs hs' rfl (by decide) hguard hsame
  · intro hmem
    rw [hlist] at hmem
    exact (h.watched hmem).step_top hs hs' (by simp) (by simp) hpending
  · intro _
    apply Leaving.registers kind .handlerInit (registerSwitch.tail ++ rest) rfl
    rw [hs']
    exact List.mem_cons_self

/-- `SchedulerNeedsSwitch`, up to the push. -/
theorem StopInv.registers (h : StopInv s) {j : Instr}
    (hs : s.stack = ⟨kind, i :: j :: rest⟩ :: below) (hi : i.registers = true)
    (hj : j.registers = true) (hs' : s'.stack = ⟨kind, [] ++ j :: rest⟩ :: below)
    (hlist : s'.kernel.critList = s.kernel.critList)
    (hpending : s'.kernel.critPending = s.kernel.critPending) (hsame : SameThreads s s') :
    StopInv s' := by
  have hnot : settled (i :: j :: rest) = false := by simp [settled, hi]
  have hother : i.dispatches = false ∧ i ≠ .raise ∧ i ≠ .critInterrupt ∧ i.plain = true := by
    cases i <;> simp_all [Instr.registers, Instr.dispatches, Instr.plain]
  obtain ⟨hdispatch, hraise, hloop, hplain⟩ := hother
  have hguard : Guarded ⟨kind, [] ++ j :: rest⟩ := by
    intro _ hkind
    have hsection := h.guarded_top hs hnot hkind
    rw [held_plain hplain] at hsection
    exact hsection
  apply h.of_top hs hs' hdispatch (by simp) hguard hsame
  · intro hmem
    rw [hlist] at hmem
    exact (h.watched hmem).step_top hs hs' hraise hloop hpending
  · intro _
    apply Leaving.registers kind j rest hj
    rw [hs']
    exact List.mem_cons_self

/-- **`AtomicListPush`** of `SchedulerCritObject`, with the interrupt still to be
raised. -/
theorem StopInv.push (h : StopInv s)
    (hs : s.stack = ⟨kind, .push .scheduler :: .raise :: rest⟩ :: below)
    (hs' : s'.stack = ⟨kind, [] ++ .raise :: rest⟩ :: below)
    (hlist : .scheduler ∈ s'.kernel.critList) (hsame : SameThreads s s') : StopInv s' := by
  have hsection : InSection ⟨kind, .push .scheduler :: .raise :: rest⟩ := h.guarded_top hs rfl
  apply h.of_top hs hs' rfl (by simp) (guarded_of_settled rfl) hsame
  · intro _
    refine .inr (.inl ⟨⟨kind, .raise :: rest⟩, ?_, rfl, hsection⟩)
    rw [hs']
    exact List.mem_cons_self
  · exact fun _ => .queued hlist

/-- `AtomicListPop` yields `SchedulerCritObject`. -/
theorem StopInv.pop (h : StopInv s) (hreq : RequestInv s) {handlers : List CritHandler}
    (hs : s.stack = ⟨kind, .critInterrupt :: rest⟩ :: below)
    (hlist : s.kernel.critList = .scheduler :: handlers)
    (hs' : s'.stack = ⟨kind, (schedulerCritHandler ++ [.critInterrupt]) ++ rest⟩ :: below)
    (hlist' : s'.kernel.critList = handlers) (hsame : SameThreads s s') : StopInv s' := by
  obtain ⟨⟨hkind, rfl⟩, -, -⟩ := hreq.top hs
  have haccount := hreq.account
  rw [hlist, List.count_cons_self] at haccount
  have hle := Bool.toNat_le s.kernel.schedulerMutex
  apply h.of_top hs hs' rfl (by decide) (guarded_of_crit hkind) hsame
  · intro hmem
    rw [hlist', ← List.count_pos_iff] at hmem
    omega
  · intro _
    apply Leaving.schedules
    rw [hs', program_cons]
    simp [schedulerCritHandler]

/-! ## the switch -/

/-- **`Schedule`**: the thread selected is no longer stopped. -/
theorem StopInv.schedule (h : StopInv s) (hreq : RequestInv s)
    (hs : s.stack = ⟨kind, .schedule :: rest⟩ :: below)
    (hs' : s'.stack = ⟨kind, [] ++ rest⟩ :: below) (hkernel : s'.kernel = s.kernel.schedule)
    (hstopped : ∀ t, s'.stopped t = (s.stopped t && s'.kernel.nextThread ≠ some t))
    (hlive : s'.live = s.live) (hsaved : s'.saved = s.saved) : StopInv s' := by
  obtain ⟨⟨hkind, rfl⟩, -, -⟩ := hreq.top hs
  obtain ⟨hlist, -, -, -, hpending⟩ := schedule_critList s.kernel
  have hmem : .schedulerSwitch ∈ program s'.stack := by
    rw [hs', program_cons]
    simp [schedulerCritHandler]
  constructor
  · have hguarded := h.guarded
    rw [hs, List.forall_mem_cons] at hguarded
    rw [hs', List.forall_mem_cons]
    exact ⟨guarded_of_crit hkind, hguarded.2⟩
  · rw [hlive, hsaved]
    exact h.guardedSaved
  · rw [hstopped, h.idle]
    rfl
  · intro t ht
    simp [hstopped, ht, hmem]
  · intro oldThread newThread hswitch
    rw [hstopped, h.chosen oldThread newThread]
    · rfl
    · rw [hs', program_cons, List.nil_append] at hswitch
      rw [hs, program_cons]
      exact List.mem_cons_of_mem _ hswitch
  · intro hqueued
    rw [hkernel, hlist] at hqueued
    exact (h.watched hqueued).step_top hs hs' (by simp) (by simp) (by rw [hkernel, hpending])
  · intro hstop
    rw [hlive, hstopped, Bool.and_eq_true, decide_eq_true_eq, ← hlive] at hstop
    exact .selected hmem hstop.2

/-- The thread to switch to is not stopped. -/
theorem StopInv.selected (h : StopInv s) :
    s.stopped (s.kernel.nextThread.getD idleThread) = false := by
  cases hnext : s.kernel.nextThread with
  | none => exact h.idle
  | some t => exact (h.next t hnext).1

/-- **`SchedulerSwitch`**. -/
theorem StopInv.schedulerSwitch (h : StopInv s) (hreq : RequestInv s)
    (hs : s.stack = ⟨kind, .schedulerSwitch :: rest⟩ :: below)
    (hs' : s'.stack = ⟨kind, code ++ rest⟩ :: below)
    (hcode : s.kernel.activeThread = s.kernel.nextThread.getD idleThread ∧ code = [] ∨
      code = contextSwitch s.kernel.activeThread (s.kernel.nextThread.getD idleThread))
    (hlist : s'.kernel.critList = s.kernel.critList := by rfl)
    (hpending : s'.kernel.critPending = s.kernel.critPending := by rfl)
    (hnext : s'.kernel.nextThread = none := by rfl) (hstopped : s'.stopped = s.stopped := by rfl)
    (hlive : s'.live = s.live := by rfl) (hsaved : s'.saved = s.saved := by rfl) :
    StopInv s' := by
  obtain ⟨hactive, -⟩ := hreq.active_at_switch hs
  obtain ⟨⟨hkind, rfl⟩, -, -⟩ := hreq.top hs
  constructor
  · have hguarded := h.guarded
    rw [hs, List.forall_mem_cons] at hguarded
    rw [hs', List.forall_mem_cons]
    exact ⟨guarded_of_crit hkind, hguarded.2⟩
  · rw [hlive, hsaved]
    exact h.guardedSaved
  · rw [hstopped]
    exact h.idle
  · intro t ht
    rw [hnext] at ht
    cases ht
  · intro oldThread newThread hmem
    rw [hstopped]
    rw [hs', program_cons, List.append_assoc, List.mem_append] at hmem
    obtain hmem | hmem := hmem
    · obtain ⟨-, rfl⟩ | rfl := hcode
      · cases hmem
      · simp only [contextSwitch, isrDisable, isrEnable, List.cons_append, List.nil_append,
          List.mem_cons, List.not_mem_nil, reduceCtorEq, or_false, false_or] at hmem
        obtain ⟨-, rfl⟩ := Instr.halContextSwitch.inj hmem
        exact h.selected
    · apply h.chosen oldThread newThread
      rw [hs, program_cons]
      exact List.mem_cons_of_mem _ hmem
  · intro hqueued
    rw [hlist] at hqueued
    exact (h.watched hqueued).step_top hs hs' (by simp) (by simp) hpending
  · intro hstop
    obtain ⟨hsame, rfl⟩ | rfl := hcode
    · rw [hstopped, hlive, ← hactive, hsame, h.selected] at hstop
      cases hstop
    · apply Leaving.switches s.kernel.activeThread (s.kernel.nextThread.getD idleThread)
      rw [hs', program_cons]
      simp [contextSwitch]

/-- `SchedulerSwitch` is followed by the end of its request. -/
theorem Sound.owns_of_schedulerSwitch (h : Sound kind code) (hmem : .schedulerSwitch ∈ code) :
    0 < code.countP Instr.owns := by
  induction code with
  | nil => cases hmem
  | cons i rest ih =>
      obtain rfl | hmem := List.mem_cons.mp hmem
      · obtain ⟨⟨-, rfl⟩, -⟩ := h
        exact List.countP_pos_iff.mpr ⟨.handlerFinish, by simp, rfl⟩
      · have hpos := ih h.2 hmem
        rw [List.countP_cons]
        omega

/-- **`HalContextSwitch`**: the new thread is the one selected. -/
theorem StopInv.halContextSwitch (h : StopInv s) (hreq : RequestInv s)
    {oldThread newThread : ThreadId}
    (hs : s.stack = ⟨kind, .halContextSwitch oldThread newThread :: rest⟩ :: below)
    (hs' : s'.stack = s.saved newThread) (hkernel : s'.kernel = s.kernel)
    (hstopped : s'.stopped = s.stopped) (hlive : s'.live = newThread)
    (hsaved : s'.saved = Function.update s.saved oldThread (⟨kind, rest⟩ :: below)) :
    StopInv s' := by
  have hmem : .halContextSwitch oldThread newThread ∈ program s.stack := by
    rw [hs, program_cons]
    exact List.mem_cons_self
  obtain ⟨hold, -, hne⟩ := hreq.live.switching oldThread newThread hmem
  have hnot := h.chosen oldThread newThread hmem
  obtain ⟨⟨hkind, rfl⟩, -, hsound⟩ := hreq.top hs
  have htop : 0 < (Instr.halContextSwitch oldThread newThread ::
      (isrEnable .max ++ .handlerFinish :: critInterruptRest)).countP Instr.owns := Nat.one_pos
  obtain ⟨-, hzero, -⟩ := hreq.no_switch_below hs htop
  constructor
  · rw [hs']
    exact h.guardedSaved newThread hne
  · intro t ht
    have hguarded := h.guarded
    rw [hs, List.forall_mem_cons] at hguarded
    rw [hsaved]
    by_cases htold : t = oldThread
    · subst htold
      rw [Function.update_self, List.forall_mem_cons]
      exact ⟨guarded_of_crit hkind, hguarded.2⟩
    · rw [Function.update_of_ne htold]
      exact h.guardedSaved t (hold ▸ htold)
  · rw [hstopped]
    exact h.idle
  · intro t ht
    -- another `SchedulerSwitch` ahead would have a request of its own
    rw [hkernel] at ht
    have hswitch := (h.next t ht).2
    rw [hs, program_cons, List.mem_append] at hswitch
    obtain hswitch | hswitch := hswitch
    · simp [isrEnable, critInterruptRest, isrReturn] at hswitch
    · obtain ⟨f, hf, hswitch⟩ := List.mem_flatMap.mp hswitch
      have hpos := (hsound f hf).owns_of_schedulerSwitch hswitch
      have hle := countP_le_program hf
      omega
  · intro a b hswitch
    rw [hs'] at hswitch
    cases (hreq.parked newThread hne).switch _ hswitch
  · intro hqueued
    rw [hkernel] at hqueued
    have howns : 0 < (program s.stack).countP Instr.owns := by
      rw [hs, program_cons, List.countP_append]
      exact Nat.add_pos_left htop _
    exact absurd hqueued (hreq.owner howns).2.2
  · intro hstop
    rw [hstopped, hlive, hnot] at hstop
    cases hstop

/-! ## one step -/

/-- A frame is put on the stack, or the end of one is taken off. -/
theorem StopInv.restack (h : StopInv s)
    (hframes : ∀ f ∈ s.stack, f.code.head? ≠ some .sigreturn → f ∈ s'.stack)
    (hahead : ∀ i ∈ program s.stack, i ≠ .sigreturn → i ∈ program s'.stack)
    (hswitch : ∀ i ∈ program s'.stack, i.isSwitch = true → i ∈ program s.stack)
    (hguarded : ∀ f ∈ s'.stack, Guarded f)
    (hlist : s'.kernel.critList = s.kernel.critList)
    (hpending : s.kernel.critPending = true → Watched s') (hsame : SameThreads s s') :
    StopInv s' := by
  constructor
  · exact hguarded
  · exact saved_of_new (P := fun stack => ∀ f ∈ stack, Guarded f) guarded_newStack
      h.guardedSaved hsame.live hsame.saved
  · rw [hsame.stopped]
    exact h.idle
  · intro t ht
    rw [hsame.next] at ht
    obtain ⟨hrun, hmem⟩ := h.next t ht
    rw [hsame.stopped]
    exact ⟨hrun, hahead _ hmem (by simp)⟩
  · intro oldThread newThread hmem
    rw [hsame.stopped]
    exact h.chosen oldThread newThread (hswitch _ hmem rfl)
  · intro hqueued
    rw [hlist] at hqueued
    obtain hpend | ⟨f, hf, hhead, hsection⟩ | hmem := h.watched hqueued
    · exact hpending hpend
    · exact .inr (.inl ⟨f, hframes f hf (by simp [hhead]), hhead, hsection⟩)
    · exact .inr (.inr (hahead _ hmem (by simp)))
  · intro hstop
    rw [hsame.stopped, hsame.live] at hstop
    cases h.leaving hstop with
    | asks rest hmem => exact .asks rest (hframes _ hmem (by simp))
    | registers kind i rest hi hmem =>
        refine .registers kind i rest hi (hframes _ hmem fun heq => ?_)
        obtain rfl := Option.some.inj heq
        cases hi
    | queued hmem => exact .queued (hlist ▸ hmem)
    | schedules hmem => exact .schedules (hahead _ hmem (by simp))
    | selected hmem hnext =>
        rw [← hsame.next, ← hsame.live] at hnext
        exact .selected (hahead _ hmem (by simp)) hnext
    | switches oldThread newThread hmem =>
        exact .switches oldThread newThread (hahead _ hmem (by simp))

theorem StopInv.execute (h : StopInv s) (hreq : RequestInv s) (hcount : CountInv s)
    (hs : s.stack = ⟨kind, i :: rest⟩ :: below) (hstep : s.execute kind rest below i = some s') :
    StopInv s' := by
  obtain ⟨hplaced, -, hsound⟩ := hreq.top hs
  cases i with
  | body => cases hstep
  | mask l | decrement l =>
      obtain rfl := Option.some.inj hstep
      obtain ⟨-, code, rfl⟩ := hplaced
      exact h.exec_quiet hs (stack_next rfl) (by simp) (guarded_of_settled rfl) {}
  | increment l =>
      obtain rfl := Option.some.inj hstep
      exact h.exec_quiet hs (stack_next rfl) (by simp) (fun _ _ => ⟨l, hplaced.1⟩) {}
  | unmask l =>
      obtain rfl := Option.some.inj hstep
      exact h.exec_quiet hs (stack_next rfl) (by simp) (guarded_of_settled hplaced.2) {}
  | mutexLock =>
      simp only [Processor.execute] at hstep
      split at hstep <;> obtain rfl := Option.some.inj hstep
      · next hmutex =>
        exact h.mutexLock_locked hreq hcount hs hmutex (stack_next rfl) rfl
          {}
      · exact h.mutexLock_free hs rfl rfl rfl {}
  | handlerInit | handlerCompetion | handlerRegister =>
      obtain rfl := Option.some.inj hstep
      obtain ⟨code, rfl⟩ := hplaced
      exact h.registers hs rfl rfl rfl rfl rfl {}
  | push handler =>
      obtain rfl := Option.some.inj hstep
      obtain ⟨code, rfl⟩ := hplaced
      cases handler with
      | scheduler =>
          exact h.push hs (stack_next rfl) List.mem_cons_self {}
      | other n =>
          exact h.exec_quiet hs (stack_next rfl) (by simp) (guarded_of_settled rfl) {} (by simp)
  | raise =>
      obtain rfl := Option.some.inj hstep
      obtain ⟨code, rfl⟩ := hplaced
      exact h.exec_other hs (stack_next rfl) (by simp) (guarded_of_settled rfl) id
        (fun _ => .inl rfl) {}
  | critInterrupt =>
      obtain ⟨hkind, rfl⟩ := hplaced
      simp only [Processor.execute] at hstep
      split at hstep <;> obtain rfl := Option.some.inj hstep
      · next hlist =>
        refine h.exec_other hs (stack_next rfl) (by simp) (guarded_of_crit hkind) id
          (fun hmem => ?_) {}
        rw [hlist] at hmem
        cases hmem
      · next n handlers hlist =>
        refine h.exec_other hs (stack_other rfl) (by decide) (guarded_of_crit hkind) (fun hmem => ?_)
          (fun _ => ?_) {}
        · rw [hlist] at hmem
          simpa using hmem
        · exact .inr (.inr (by simp))
      · next handlers hlist =>
        refine h.pop hreq hs hlist ?_ rfl {}
        simp
  | handlerRun =>
      obtain rfl := Option.some.inj hstep
      obtain ⟨hkind, rfl⟩ := hplaced
      exact h.exec_quiet hs (stack_next rfl) (by simp) (guarded_of_crit hkind) {}
  | schedule =>
      obtain rfl := Option.some.inj hstep
      exact h.schedule hreq hs (stack_next rfl) rfl (fun _ => rfl) rfl rfl
  | schedulerSwitch =>
      obtain rfl := Option.some.inj hstep
      by_cases hsame : s.kernel.activeThread = s.kernel.nextThread.getD idleThread
      · simp only [if_pos hsame]
        exact h.schedulerSwitch hreq hs (stack_next rfl) (.inl ⟨hsame, rfl⟩)
      · simp only [if_neg hsame]
        exact h.schedulerSwitch hreq hs rfl (.inr rfl)
  | halContextSwitch oldThread newThread =>
      obtain rfl := Option.some.inj hstep
      exact h.halContextSwitch hreq hs rfl rfl rfl rfl rfl
  | handlerFinish =>
      obtain rfl := Option.some.inj hstep
      obtain ⟨-, hcomplete⟩ := hreq.stage_top hs rfl
      exact h.exec_quiet hs (stack_finish hcomplete rfl) (by decide) (guarded_of_settled rfl) {}
  | postCritHandler =>
      obtain rfl := Option.some.inj hstep
      have hsettled : settled rest = true := by
        obtain ⟨-, rfl⟩ | ⟨-, rfl⟩ := hplaced <;> rfl
      exact h.exec_quiet hs (stack_next rfl) (by simp) (guarded_of_settled hsettled) {}
  | sigreturn =>
      cases kind with
      | thread => cases hstep
      | isr level savedMask =>
          obtain rfl := Option.some.inj hstep
          obtain rfl : rest = [] := hplaced
          have hguarded := h.guarded
          rw [hs, List.forall_mem_cons] at hguarded
          refine h.restack (fun f hf hne => ?_) (fun i hi hne => ?_) (fun i hi _ => ?_) hguarded.2 rfl
            .inl {}
          · rw [hs, List.mem_cons] at hf
            obtain rfl | hf := hf
            · exact absurd rfl hne
            · exact hf
          · rw [hs, program_cons, List.cons_append, List.mem_cons] at hi
            exact hi.resolve_left hne
          · rw [hs, program_cons]
            exact List.mem_append_right _ hi

/-- Code of no particular function is a call of `SchedulerNeedsSwitch` only in a
section. -/
theorem guarded_bodyCode (hcount : CountInv s) (hs : s.stack = ⟨kind, .body :: rest⟩ :: below)
    (hcloses : rest.all Instr.closes) (hcode : BodyCode (s.MayAsk kind) rest code) :
    Guarded ⟨kind, code⟩ := by
  cases hcode with
  | leave => exact guarded_of_settled (settled_of_closes hcloses)
  | stay => exact guarded_of_settled rfl
  | disable level _ => exact guarded_of_settled rfl
  | register handler => exact guarded_of_settled rfl
  | ask hask =>
      rintro - hkind
      obtain rfl : kind = .thread := hkind
      obtain rfl := hcount.below_eq_nil hs
      obtain ⟨l, -, hpos⟩ := List.any_eq_true.mp (hask : s.critInterruptIsAtomic = true)
      refine ⟨l, ?_⟩
      rw [hcount.count_top hs, decide_eq_true_eq] at hpos
      exact hpos

/-- **A thread stops**: it is about to ask for a switch. -/
theorem StopInv.stop (h : StopInv s) (hreq : RequestInv s) (hcount : CountInv s)
    (hs : s.stack = ⟨kind, .body :: rest⟩ :: below) (hperform : Performed s kind rest below s')
    (hstop : s.MayStop kind) (hstopped : s'.stopped = Function.update s.stopped s.live true)
    (hs' : s'.stack = ⟨kind, .mutexLock :: .body :: rest⟩ :: below) : StopInv s' := by
  obtain ⟨⟨hcloses, -, -⟩, -, -⟩ := hreq.top hs
  have hguard := guarded_bodyCode hcount hs hcloses (.ask hstop.mayAsk)
  obtain ⟨rfl, -, hidle, -⟩ := hstop
  obtain rfl := hcount.below_eq_nil hs
  have hprogram : program s.stack = .body :: rest := by
    rw [hs, program_cons, program_nil, List.append_nil]
  have hnot : ∀ i : Instr, i.closes = false → i ∉ program s.stack := by
    intro i hi hmem
    rw [hprogram, List.mem_cons] at hmem
    obtain rfl | hmem := hmem
    · cases hi
    · rw [List.all_eq_true.mp hcloses i hmem] at hi
      cases hi
  have hactive : s.kernel.activeThread = s.live := by
    apply hreq.live.active
    intro i hi
    cases hswitch : i.isSwitch with
    | false => rfl
    | true =>
        refine absurd hi (hnot i ?_)
        cases i <;> first | rfl | cases hswitch
  constructor
  · rw [hs', List.forall_mem_singleton]
    exact hguard
  · exact saved_of_new (P := fun stack => ∀ f ∈ stack, Guarded f) guarded_newStack
      h.guardedSaved hperform.live fun t => (hperform.saved t).imp_right And.right
  · rw [hstopped, Function.update_of_ne (fun heq => hidle (hactive.trans heq.symm))]
    exact h.idle
  · intro t ht
    rw [hperform.kernel.next] at ht
    exact absurd (h.next t ht).2 (hnot _ rfl)
  · intro oldThread newThread hmem
    rw [hs', program_cons, program_nil, List.append_nil, List.mem_cons, ← hprogram] at hmem
    obtain heq | hmem := hmem
    · cases heq
    · exact absurd hmem (hnot _ rfl)
  · intro hqueued
    rw [hperform.kernel.list] at hqueued
    have hs'' : s'.stack = ⟨.thread, [.mutexLock, .body] ++ rest⟩ :: [] := hs'
    exact (h.watched hqueued).step_top hs hs'' (by simp) (by simp) hperform.kernel.pending
  · intro _
    apply Leaving.asks (.body :: rest)
    rw [hs']
    exact List.mem_singleton_self _

theorem StopInv.perform (h : StopInv s) (hreq : RequestInv s) (hcount : CountInv s)
    (hs : s.stack = ⟨kind, .body :: rest⟩ :: below) (hperform : Performed s kind rest below s') :
    StopInv s' := by
  obtain hsame | ⟨hstop, hstopped, hs'⟩ := hperform.stopped
  · obtain ⟨code, hcode, hs'⟩ := hperform.code
    obtain ⟨⟨hcloses, -, -⟩, -, -⟩ := hreq.top hs
    have hguard := guarded_bodyCode hcount hs hcloses hcode
    obtain ⟨post, rfl, hpost⟩ := hcode.quiet
    have hswitch : ∀ j ∈ post, j.isSwitch = false := fun j hj =>
      (quiet_iff.mp (List.all_eq_true.mp hpost j hj)).2.2
    have hsame : SameThreads s s' := ⟨hperform.kernel.next, hperform.live,
      fun t => (hperform.saved t).imp_right And.right, hsame⟩
    have hlist : .scheduler ∈ s'.kernel.critList ↔ .scheduler ∈ s.kernel.critList := by
      rw [hperform.kernel.list]
    exact h.exec_quiet hs hs' hswitch hguard hsame hlist hperform.kernel.pending
  · exact h.stop hreq hcount hs hperform hstop hstopped hs'

/-- An interrupt. -/
theorem StopInv.enter (h : StopInv s) {level savedMask : IrqLevel}
    (hs' : s'.stack = ⟨.isr level savedMask, code⟩ :: s.stack)
    (hcode : ∀ i ∈ code, i.isSwitch = false) (hlist : s'.kernel.critList = s.kernel.critList)
    (hpending : s.kernel.critPending = true → Watched s') (hsame : SameThreads s s') :
    StopInv s' := by
  have hprogram : program s'.stack = code ++ program s.stack := by
    rw [hs']
    rfl
  apply h.restack _ _ _ _ hlist hpending hsame
  · intro f hf _
    rw [hs']
    exact List.mem_cons_of_mem _ hf
  · intro i hi _
    rw [hprogram]
    exact List.mem_append_right _ hi
  · intro i hi hswitch
    rw [hprogram] at hi
    exact (mem_append_of_switch hcode hswitch).mp hi
  · rw [hs', List.forall_mem_cons]
    exact ⟨guarded_isr, h.guarded⟩

theorem StopInv.step (h : StopInv s) (hreq : RequestInv s) (hcount : CountInv s) {e : Event}
    (hstep : s.step e = some s') : StopInv s' := by
  obtain ⟨level, -, -, rfl⟩ | ⟨-, -, rfl⟩ | ⟨kind, i, rest, below, -, hs, -, hexec⟩ |
    ⟨op, kind, rest, below, -, hs, -, hperform⟩ := Processor.step_cases hstep
  · exact h.enter rfl (by simp [isrDisable, isrReturn, isrEnable, Instr.isSwitch]) rfl .inl
      {}
  · refine h.enter rfl (by decide) rfl (fun _ => ?_) {}
    exact .inr (.inr (by simp [critInterruptRest]))
  · exact h.execute hreq hcount hs hexec
  · exact h.perform hreq hcount hs hperform

/-- All three invariants, in every state of every run. -/
theorem stopInv_run {es : List Event} (hrun : Run.exec Processor.step kernelInit es = some s) :
    RequestInv s ∧ CountInv s ∧ StopInv s :=
  Run.exec_invariant (I := fun s => RequestInv s ∧ CountInv s ∧ StopInv s)
    (fun _ _ _ hs hstep =>
      ⟨hs.1.step hstep, hs.2.1.step hs.1 hstep, hs.2.2.step hs.1 hs.2.1 hstep⟩)
    ⟨requestInv_start, countInv_start, stopInv_start⟩ hrun

/-! ## a stopped thread -/

/-- Only `CritInterrupt` runs the loop and the switch. -/
theorem Sound.isCrit (h : Sound kind code) (hi : i.dispatches = true ∨ i = .critInterrupt)
    (hmem : i ∈ code) : kind.isCrit = true := by
  induction code with
  | nil => cases hmem
  | cons j rest ih =>
      obtain rfl | hmem := List.mem_cons.mp hmem
      · have hplaced := h.1
        cases i <;> simp only [Instr.dispatches, Bool.false_eq_true, reduceCtorEq, or_self] at hi <;>
          exact hplaced.1
      · exact ih h.2 hmem

/-- With nothing masked, a thread's code is in no section. -/
theorem CountInv.not_inSection (h : CountInv s) (hreq : RequestInv s)
    (hs : s.stack = [⟨.thread, code⟩]) (hmask : s.mask = .none) :
    ¬ InSection ⟨.thread, code⟩ := by
  intro hsection
  obtain ⟨l, hpos⟩ := hsection rfl
  have habove := h.stack.above
  rw [hmask] at habove
  have hzero := held_eq_zero habove (heldStack_none hreq.sound) l
  rw [hs, heldStack_cons] at hzero
  have hsum : held code l + heldStack [] l = 0 := hzero
  have hpos : 0 < held code l := hpos
  omega

/-- **A thread that is leaving is interrupted** as soon as nothing is masked. -/
theorem StopInv.pending (h : StopInv s) (hreq : RequestInv s) (hcount : CountInv s)
    (hs : s.stack = ⟨.thread, code⟩ :: below) (hmask : s.mask = .none)
    (hstop : s.stopped s.live = true) : s.kernel.critPending = true := by
  obtain rfl := hcount.below_eq_nil hs
  have hout := hcount.not_inSection hreq hs hmask
  have hsound : Sound .thread code := by
    apply hreq.sound ⟨.thread, code⟩
    rw [hs]
    exact List.mem_cons_self
  have hprogram : program s.stack = code := by rw [hs, program_cons, program_nil, List.append_nil]
  have hthread : ∀ i : Instr, i.dispatches = true ∨ i = .critInterrupt → i ∉ program s.stack := by
    intro i hi hmem
    rw [hprogram] at hmem
    cases hsound.isCrit hi hmem
  have hguard := h.guarded_top hs
  cases h.leaving hstop with
  | asks rest hmem =>
      rw [hs, List.mem_singleton] at hmem
      cases hmem
      exact absurd (hguard rfl) hout
  | registers kind i rest hi hmem =>
      rw [hs, List.mem_singleton] at hmem
      cases hmem
      exact absurd (hguard (by simp [settled, hi])) hout
  | queued hmem =>
      obtain hpend | ⟨f, hf, -, hsection⟩ | hloop := h.watched hmem
      · exact hpend
      · rw [hs, List.mem_singleton] at hf
        cases hf
        exact absurd hsection hout
      · exact absurd hloop (hthread _ (.inr rfl))
  | schedules hmem => exact absurd hmem (hthread _ (.inl rfl))
  | selected hmem _ => exact absurd hmem (hthread _ (.inl rfl))
  | switches oldThread newThread hmem => exact absurd hmem (hthread _ (.inl rfl))

/-! ## the protocol -/

structure SwitchProtocol (s : Processor) : Prop where
  /-- `SchedulerMutex` is locked exactly while a request is being registered, is
  queued, or runs and is not finished. -/
  mutex : s.kernel.schedulerMutex = true ↔
    (∃ i ∈ program s.stack, i.registers = true) ∨ .scheduler ∈ s.kernel.critList ∨
      .handlerFinish ∈ program s.stack ∨ .postCritHandler ∈ program s.stack
  /-- `SchedulerCritObject` is on the list at most once. -/
  once : s.kernel.critList.count .scheduler ≤ 1
  /-- `HandlerInit` finds it neither queued nor running. -/
  init : ∀ kind rest below, s.stack = ⟨kind, .handlerInit :: rest⟩ :: below →
    s.kernel.schedulerCritObject = .ready
  /-- No `ASSERT` about it has failed. -/
  fine : s.handlerFailed = false
  /-- Once its section has ended, a thread that has blocked or is done executes
  nothing: all that can happen is an interrupt. -/
  stops : ∀ code below e s', s.stack = ⟨.thread, code⟩ :: below → s.mask = .none →
    s.stopped s.live = true → s.step e = some s' → e = .deliver ∨ ∃ level, e = .interrupt level

theorem RequestInv.locked_iff (h : RequestInv s) : s.kernel.schedulerMutex = true ↔
    (∃ i ∈ program s.stack, i.registers = true) ∨ .scheduler ∈ s.kernel.critList ∨
      .handlerFinish ∈ program s.stack ∨ .postCritHandler ∈ program s.stack := by
  have haccount := h.account
  constructor
  · intro hlocked
    rw [hlocked, Bool.toNat_true] at haccount
    by_cases howns : 0 < (program s.stack).countP Instr.owns
    · obtain ⟨i, hi, hown⟩ := List.countP_pos_iff.mp howns
      cases i with
      | push handler =>
          cases handler with
          | scheduler => exact .inl ⟨_, hi, rfl⟩
          | other n => cases hown
      | handlerFinish => exact .inr (.inr (.inl hi))
      | postCritHandler => exact .inr (.inr (.inr hi))
      | _ => cases hown
    · have hpos : 0 < s.kernel.critList.count .scheduler := by omega
      exact .inr (.inl (List.count_pos_iff.mp hpos))
  · rintro (⟨i, hi, hregisters⟩ | hqueued | hfinish | hpost)
    · obtain ⟨f, hf, hmem⟩ := List.mem_flatMap.mp hi
      have hstage : i.stage ≠ none := by
        cases i with
        | push handler => cases handler <;> first | exact Option.some_ne_none _ | cases hregisters
        | _ => first | exact Option.some_ne_none _ | cases hregisters
      have hpos := (h.sound f hf).owns_of_stage hmem hstage
      exact (h.owner (Nat.lt_of_lt_of_le hpos (countP_le_program hf))).1
    · have hpos := List.count_pos_iff.mpr hqueued
      cases hmutex : s.kernel.schedulerMutex with
      | true => rfl
      | false =>
          rw [hmutex, Bool.toNat_false] at haccount
          omega
    · exact (h.owner (List.countP_pos_iff.mpr ⟨_, hfinish, rfl⟩)).1
    · exact (h.owner (List.countP_pos_iff.mpr ⟨_, hpost, rfl⟩)).1

/-- **The switch-request protocol**, for any threads and timer interrupts, however
they interleave. -/
theorem switch_protocol {es : List Event}
    (hrun : Run.exec Processor.step kernelInit es = some s) : SwitchProtocol s := by
  obtain ⟨hreq, hcount, h⟩ := stopInv_run hrun
  constructor
  · exact hreq.locked_iff
  · have haccount := hreq.account
    have hle := Bool.toNat_le s.kernel.schedulerMutex
    omega
  · intro kind rest below hs
    have hready : Stage.Matches s.kernel.schedulerCritObject s.completeFunction .init :=
      hreq.stage_top hs rfl
    exact hready
  · exact hreq.fine
  · intro code below e s' hs hmask hstop hstep
    have hpreempted : s.preempted = true := by
      simp [preempted, hmask, h.pending hreq hcount hs hmask hstop]
    obtain ⟨level, rfl, -⟩ | ⟨rfl, -⟩ | ⟨_, _, _, _, -, -, hnot, -⟩ | ⟨_, _, _, _, -, -, hnot, -⟩ :=
      Processor.step_cases hstep
    · exact .inr ⟨level, rfl⟩
    · exact .inl rfl
    · rw [hpreempted] at hnot
      cases hnot
    · rw [hpreempted] at hnot
      cases hnot

/-- The new thread blocks, and its section ends. -/
def sampleBlock : List Event :=
  sampleSwitch ++ [.exec, .exec, .exec, .exec, .exec, .exec, .exec, .body (.disable .crit), .exec,
    .exec, .body .block, .exec, .exec, .exec, .exec, .exec, .exec, .body .leave, .exec, .exec]

theorem switch_protocol_sample :
    ∃ s, Run.exec Processor.step kernelInit sampleBlock = some s ∧
      s.stack = [⟨.thread, [.body]⟩] ∧ s.mask = .none ∧ s.stopped s.live = true ∧
      SwitchProtocol s := by
  have hend : (Run.exec Processor.step kernelInit sampleBlock).map
      (fun s => (s.stack, s.mask, s.stopped s.live)) =
      some ([⟨.thread, [.body]⟩], .none, true) := by decide
  obtain ⟨s, hs, heq⟩ := Option.map_eq_some_iff.mp hend
  obtain ⟨hstack, hrest⟩ := Prod.mk.inj heq
  obtain ⟨hmask, hstop⟩ := Prod.mk.inj hrest
  exact ⟨s, hs, hstack, hmask, hstop, switch_protocol hs⟩

end KernelPanic
