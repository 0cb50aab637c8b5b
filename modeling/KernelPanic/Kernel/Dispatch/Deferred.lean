import KernelPanic.Kernel.Dispatch.Counts

/-!
# KernelPanic.Kernel.Dispatch.Deferred

Whether the handlers on `CritInterruptHandlerList` get to run.  A registration
pushes and then raises, and many registrations raise one interrupt, so it is the
loop of `CritInterrupt` that has to empty the list.  `SchedulerCritHandler` leaves
that loop for another stack: a suspended thread goes on with a loop of its own,
but `SchedulerThreadStartup` has none.

`Drained` is the condition for a switch to a new thread, and `CoverInv` what holds
while it is met.  Where it is not, the new thread starts with handlers on the list
that nothing will run before the next registration.
-/

namespace KernelPanic

open Processor

/-- Somebody will look at the list. -/
def Covered (s : Processor) : Prop :=
  s.kernel.critList = [] ∨ s.kernel.critPending = true ∨ .raise ∈ program s.stack ∨
    .critInterrupt ∈ program s.stack

structure CoverInv (s : Processor) : Prop where
  covered : Covered s
  /-- A suspended thread is in the loop of `CritInterrupt`. -/
  suspended : ∀ t, t ≠ s.live → s.saved t = newStack ∨ .critInterrupt ∈ program (s.saved t)

/-- The thread that the next instruction switches to. -/
def switchesTo : List Frame → Option ThreadId
  | ⟨_, .halContextSwitch _ newThread :: _⟩ :: _ => some newThread
  | _ => none

/-- A switch to a thread that has never run leaves no handler behind, or the
interrupt is pending. -/
def Drained (s : Processor) (e : Event) : Prop :=
  e = .exec → ∀ t ∈ switchesTo s.stack, s.saved t = newStack →
    s.kernel.critList = [] ∨ s.kernel.critPending = true

instance (s : Processor) (e : Event) : Decidable (Drained s e) :=
  inferInstanceAs (Decidable (_ → ∀ _ ∈ switchesTo s.stack, _))

/-- Thread-level code runs with nothing disabled. -/
def ThreadLevel (s : Processor) : Prop :=
  (∃ rest, s.stack = [⟨.thread, .body :: rest⟩]) ∧ ∀ l, s.count l = 0

variable {s s' : Processor} {kind : FrameKind} {i : Instr} {rest code : List Instr}
  {below : List Frame}

theorem coverInv_start : CoverInv kernelInit where
  covered := .inl rfl
  suspended _ _ := .inl rfl

/-! ## one instruction -/

/-- Nothing that covers the list goes away. -/
theorem Covered.keep (h : Covered s) (hlist : s'.kernel.critList = s.kernel.critList)
    (hpending : s'.kernel.critPending = s.kernel.critPending)
    (hahead : ∀ i ∈ program s.stack, i = .raise ∨ i = .critInterrupt → i ∈ program s'.stack) :
    Covered s' := by
  obtain hnil | hpend | hraise | hloop := h
  · exact .inl (hlist.trans hnil)
  · exact .inr (.inl (hpending.trans hpend))
  · exact .inr (.inr (.inl (hahead _ hraise (.inl rfl))))
  · exact .inr (.inr (.inr (hahead _ hloop (.inr rfl))))

/-- An instruction that does not touch the list. -/
theorem Covered.step_top (h : Covered s) (hs : s.stack = ⟨kind, i :: rest⟩ :: below)
    (hs' : s'.stack = ⟨kind, code ++ rest⟩ :: below) (hi : i ≠ .raise ∧ i ≠ .critInterrupt)
    (hlist : s'.kernel.critList = s.kernel.critList := by rfl)
    (hpending : s'.kernel.critPending = s.kernel.critPending := by rfl) : Covered s' := by
  apply h.keep hlist hpending
  rintro j hj (rfl | rfl)
  · exact mem_program_top hs hs' hj hi.1.symm
  · exact mem_program_top hs hs' hj hi.2.symm

theorem CoverInv.of_covered (h : CoverInv s) (hcovered : Covered s')
    (hlive : s'.live = s.live := by rfl) (hsaved : s'.saved = s.saved := by rfl) : CoverInv s' where
  covered := hcovered
  suspended := by
    rw [hlive, hsaved]
    exact h.suspended

/-- **`HalContextSwitch`**: the new stack has a loop of its own, or the list was
drained. -/
theorem CoverInv.halContextSwitch (h : CoverInv s) (hreq : RequestInv s)
    {oldThread newThread : ThreadId}
    (hs : s.stack = ⟨kind, .halContextSwitch oldThread newThread :: rest⟩ :: below)
    (hdrained : s.saved newThread = newStack →
      s.kernel.critList = [] ∨ s.kernel.critPending = true) :
    CoverInv { s with
      live := newThread
      stack := s.saved newThread
      saved := Function.update s.saved oldThread (⟨kind, rest⟩ :: below) } := by
  obtain ⟨hold, -, hne⟩ := hreq.live.switching oldThread newThread (by rw [hs]; simp)
  obtain ⟨⟨-, rfl⟩, -, -⟩ := hreq.top hs
  constructor
  · obtain hnew | hloop := h.suspended newThread hne
    · obtain hnil | hpend := hdrained hnew
      · exact .inl hnil
      · exact .inr (.inl hpend)
    · exact .inr (.inr (.inr hloop))
  · intro t ht
    by_cases htold : t = oldThread
    · subst htold
      simp [critInterruptRest]
    · simp only [Function.update_of_ne htold]
      exact h.suspended t (hold ▸ htold)

/-- An instruction that does not touch the list and is not replaced. -/
theorem CoverInv.next (h : CoverInv s) (hs : s.stack = ⟨kind, i :: rest⟩ :: below)
    (hs' : s'.stack = ⟨kind, rest⟩ :: below) (hi : i ≠ .raise ∧ i ≠ .critInterrupt := by simp)
    (hlist : s'.kernel.critList = s.kernel.critList := by rfl)
    (hpending : s'.kernel.critPending = s.kernel.critPending := by rfl)
    (hlive : s'.live = s.live := by rfl) (hsaved : s'.saved = s.saved := by rfl) : CoverInv s' :=
  h.of_covered (h.covered.step_top hs (stack_next hs') hi hlist hpending) hlive hsaved

theorem CoverInv.execute (h : CoverInv s) (hreq : RequestInv s)
    (hs : s.stack = ⟨kind, i :: rest⟩ :: below) (hdrained : Drained s .exec)
    (hstep : s.execute kind rest below i = some s') : CoverInv s' := by
  obtain ⟨hplaced, -, -⟩ := hreq.top hs
  cases i with
  | body => cases hstep
  | mutexLock =>
      simp only [Processor.execute] at hstep
      split at hstep <;> obtain rfl := Option.some.inj hstep
      · exact h.next hs rfl
      · exact h.of_covered (h.covered.step_top hs rfl (by simp))
  | push handler =>
      obtain rfl := Option.some.inj hstep
      obtain ⟨code, rfl⟩ := hplaced
      exact h.of_covered (.inr (.inr (.inl (by simp))))
  | raise =>
      obtain rfl := Option.some.inj hstep
      exact h.of_covered (.inr (.inl rfl))
  | critInterrupt =>
      simp only [Processor.execute] at hstep
      split at hstep <;> obtain rfl := Option.some.inj hstep
      · next hlist => exact h.of_covered (.inl hlist)
      · exact h.of_covered (.inr (.inr (.inr (by simp))))
      · exact h.of_covered (.inr (.inr (.inr (by simp))))
  | schedule =>
      obtain rfl := Option.some.inj hstep
      obtain ⟨hlist, -, -, -, hpending⟩ := schedule_critList s.kernel
      exact h.next hs rfl (by simp) hlist hpending
  | schedulerSwitch =>
      obtain rfl := Option.some.inj hstep
      by_cases hsame : s.kernel.activeThread = s.kernel.nextThread.getD idleThread
      · simp only [if_pos hsame]
        exact h.next hs rfl
      · simp only [if_neg hsame]
        exact h.of_covered (h.covered.step_top hs rfl (by simp))
  | halContextSwitch oldThread newThread =>
      obtain rfl := Option.some.inj hstep
      apply h.halContextSwitch hreq hs
      apply hdrained rfl newThread
      rw [hs]
      rfl
  | handlerFinish =>
      obtain rfl := Option.some.inj hstep
      by_cases hcomplete : s.completeFunction
      · simp only [if_pos hcomplete]
        have hs' : ∀ s' : Processor, s'.stack = ⟨kind, .postCritHandler :: rest⟩ :: below →
            s'.stack = ⟨kind, [.postCritHandler] ++ rest⟩ :: below := fun _ heq => heq
        exact h.of_covered (h.covered.step_top hs (hs' _ rfl) (by simp))
      · simp only [if_neg hcomplete]
        exact h.next hs rfl
  | sigreturn =>
      cases kind with
      | thread => cases hstep
      | isr level savedMask =>
          obtain rfl := Option.some.inj hstep
          obtain rfl : rest = [] := hplaced
          refine h.of_covered (h.covered.keep rfl rfl fun i hi hcover => ?_)
          rw [hs, program_cons, List.cons_append, List.mem_cons] at hi
          obtain rfl | hi := hi
          · obtain heq | heq := hcover <;> cases heq
          · exact hi
  | _ =>
      obtain rfl := Option.some.inj hstep
      exact h.next hs rfl

/-! ## one step -/

theorem CoverInv.perform (h : CoverInv s) (hs : s.stack = ⟨kind, .body :: rest⟩ :: below)
    (hperform : Performed s kind rest below s') : CoverInv s' := by
  obtain ⟨code, hcode, hs'⟩ := hperform.code
  obtain ⟨post, rfl, -⟩ := hcode.quiet
  constructor
  · exact h.covered.step_top hs hs' (by simp) hperform.kernel.list hperform.kernel.pending
  · exact saved_of_new (P := fun stack => stack = newStack ∨ .critInterrupt ∈ program stack)
      (.inl rfl) h.suspended hperform.live fun t => (hperform.saved t).imp_right And.right

theorem CoverInv.step (h : CoverInv s) (hreq : RequestInv s) {e : Event} (hdrained : Drained s e)
    (hstep : s.step e = some s') : CoverInv s' := by
  obtain ⟨level, -, -, rfl⟩ | ⟨-, -, rfl⟩ | ⟨kind, i, rest, below, rfl, hs, -, hexec⟩ |
    ⟨op, kind, rest, below, -, hs, -, hperform⟩ := Processor.step_cases hstep
  · refine h.of_covered (h.covered.keep rfl rfl fun i hi _ => ?_)
    exact List.mem_append_right _ hi
  · exact h.of_covered (.inr (.inr (.inr (by simp [critInterruptRest]))))
  · exact h.execute hreq hs hdrained hexec
  · exact h.perform hs hperform

/-- In a run whose switches all meet the condition, somebody always looks at the
list. -/
theorem coverInv_run {es : List Event} (hrun : Run.exec Processor.step kernelInit es = some s)
    (hdrained : Run.Along Processor.step Drained kernelInit es) : CoverInv s := by
  have hinv : RequestInv s ∧ CoverInv s :=
    Run.exec_induction (I := fun s => RequestInv s ∧ CoverInv s)
      (fun _ _ _ hs hP hstep => ⟨hs.1.step hstep, hs.2.step hs.1 hP hstep⟩)
      ⟨requestInv_start, coverInv_start⟩ hdrained hrun
  exact hinv.2

/-- Nothing else looks at it at thread level. -/
theorem Covered.threadLevel (h : Covered s) (hreq : RequestInv s) (hthread : ThreadLevel s) :
    s.kernel.critList = [] ∨ s.kernel.critPending = true := by
  obtain ⟨⟨rest, hs⟩, -⟩ := hthread
  obtain ⟨⟨hcloses, -, hloop⟩, -, -⟩ := hreq.top hs
  have hprogram : program s.stack = .body :: rest := by
    rw [hs, program_cons, program_nil, List.append_nil]
  obtain hnil | hpend | hmem | hmem := h
  · exact .inl hnil
  · exact .inr hpend
  · rw [hprogram, List.mem_cons] at hmem
    have hraise := List.all_eq_true.mp hcloses _ (hmem.resolve_left (by simp))
    cases hraise
  · rw [hprogram, List.mem_cons] at hmem
    exact absurd (hmem.resolve_left (by simp)) (hloop.resolve_left (by simp [FrameKind.isCrit]))

/-! ## a handler is stranded -/

/-- **`SchedulerThreadStartup`**, left alone: it finishes the switch, ends the
critical section and never looks at the list. -/
theorem schedulerThreadStartup_exec (hstack : s.stack = newStack) (hmask : s.mask = .max)
    (hcount : s.count = switchCount) (hcomplete : s.completeFunction = true)
    (hpending : s.kernel.critPending = false) :
    ∃ s', Run.exec Processor.step s (List.replicate 6 .exec) = some s' ∧ ThreadLevel s' ∧
      s'.kernel.critList = s.kernel.critList ∧ s'.kernel.critPending = false := by
  obtain ⟨⟨_, _, _, _, _, _, _, _, _, critPending, _, _, _, _⟩, completeFunction, count, mask, _,
    stack, _, _, _, _⟩ := s
  simp only at hstack hmask hcount hcomplete hpending
  subst hstack hmask hcount hcomplete hpending
  refine ⟨_, rfl, ⟨⟨[], rfl⟩, fun l => ?_⟩, rfl, rfl⟩
  cases l <;> rfl

/-- A switch that does not meet the condition leads to thread-level code with
handlers on the list and no interrupt pending. -/
theorem stranded_of_not_drained (hreq : RequestInv s) (hcount : CountInv s)
    (hnot : ¬ Drained s .exec) :
    ∃ s', Run.exec Processor.step s (List.replicate 7 .exec) = some s' ∧ ThreadLevel s' ∧
      s'.kernel.critList ≠ [] ∧ s'.kernel.critPending = false := by
  simp only [Drained, Classical.not_imp, not_forall, not_or] at hnot
  obtain ⟨-, newThread, hto, hnew, hlist, hpending⟩ := hnot
  rw [Bool.not_eq_true] at hpending
  unfold switchesTo at hto
  split at hto
  · next kind oldThread newThread' rest below hs =>
    obtain rfl := Option.some.inj hto
    obtain ⟨hmask, hswitch⟩ := hcount.at_switch hreq hs
    have hfinish : Stage.Matches s.kernel.schedulerCritObject s.completeFunction .finish := by
      obtain ⟨⟨-, rfl⟩, -, -⟩ := hreq.top hs
      apply hreq.stage
      rw [hs]
      rfl
    have hstep : s.step .exec = some { s with
        live := newThread'
        stack := s.saved newThread'
        saved := Function.update s.saved oldThread (⟨kind, rest⟩ :: below) } := by
      simp [Processor.step, hs, preempted, hmask, Processor.execute, IrqLevel.max]
    obtain ⟨s', hrun, hthread, hlist', hpending'⟩ := schedulerThreadStartup_exec (s := { s with
        live := newThread'
        stack := s.saved newThread'
        saved := Function.update s.saved oldThread (⟨kind, rest⟩ :: below) })
      hnew hmask hswitch hfinish.2 hpending
    refine ⟨s', ?_, hthread, ?_, hpending'⟩
    · exact Run.exec_cons_eq_some.mpr ⟨_, hstep, hrun⟩
    · rw [hlist']
      exact hlist
  · cases hto

/-- **Which deferred handlers are stranded.**  In a run whose switches all meet
the condition, whenever thread-level code runs with nothing disabled, the list is
empty or the crit interrupt is pending; and any switch that does not meet it, left
alone, leads to a state where neither holds. -/
theorem deferred_drained_when {es : List Event}
    (hrun : Run.exec Processor.step kernelInit es = some s) :
    (Run.Along Processor.step Drained kernelInit es → ThreadLevel s →
      s.kernel.critList = [] ∨ s.kernel.critPending = true) ∧
    (¬ Drained s .exec → ∃ es' s', Run.exec Processor.step s es' = some s' ∧ ThreadLevel s' ∧
      s'.kernel.critList ≠ [] ∧ s'.kernel.critPending = false) := by
  obtain ⟨hreq, hcount⟩ := countInv_run hrun
  constructor
  · intro hdrained hthread
    exact (coverInv_run hrun hdrained).covered.threadLevel hreq hthread
  · intro hnot
    obtain ⟨s', hrun', hstranded⟩ := stranded_of_not_drained hreq hcount hnot
    exact ⟨_, s', hrun', hstranded⟩

theorem counts_eq_zero {count : IrqLevel → ℕ}
    (h : (IrqLevel.levels.all (count · = 0) && count .none = 0) = true) (l : IrqLevel) :
    count l = 0 := by
  simp only [Bool.and_eq_true, decide_eq_true_eq, List.all_eq_true] at h
  by_cases hl : l = .none
  · rw [hl]
    exact h.2
  · exact h.1 l (IrqLevel.mem_levels.mpr hl)

/-- The idle thread registers handler 7 and asks for a switch, in one section: the
loop switches to the new thread before it comes to the handler. -/
def strandedRun : List Event :=
  [.body (.createThread 1 true), .body .leave, .exec, .exec, .body (.disable .crit), .exec, .exec,
    .body (.register 7), .exec, .exec, .body .schedulerNeedsSwitch, .exec, .exec, .exec, .exec, .exec,
    .exec, .body .leave, .exec, .exec, .deliver, .exec, .exec, .exec, .exec, .exec, .exec, .exec,
    .exec, .exec, .exec, .exec, .exec, .exec, .exec, .exec, .exec, .exec, .exec, .exec]

/-- **A handler is stranded**: thread 1 runs with nothing disabled, handler 7 is on
the list, and nothing is pending. -/
theorem deferred_handler_stranded :
    ∃ s, Run.exec Processor.step kernelInit strandedRun = some s ∧ ThreadLevel s ∧ s.live = 1 ∧
      s.kernel.critList = [.other 7] ∧ s.kernel.critPending = false := by
  have hend : (Run.exec Processor.step kernelInit strandedRun).map (fun s =>
      (s.stack, IrqLevel.levels.all (s.count · = 0) && s.count .none = 0, s.live,
        s.kernel.critList, s.kernel.critPending)) =
      some ([⟨.thread, [.body]⟩], true, 1, [.other 7], false) := by decide
  obtain ⟨s, hs, heq⟩ := Option.map_eq_some_iff.mp hend
  simp only [Prod.mk.injEq] at heq
  obtain ⟨hstack, hcount, hlive, hlist, hpending⟩ := heq
  exact ⟨s, hs, ⟨⟨[], hstack⟩, counts_eq_zero hcount⟩, hlive, hlist, hpending⟩

/-- The same with the handler registered after the request: it runs first. -/
def drainedRun : List Event :=
  [.body (.createThread 1 true), .body .leave, .exec, .exec, .body (.disable .crit), .exec, .exec,
    .body .schedulerNeedsSwitch, .exec, .exec, .exec, .exec, .exec, .exec, .body (.register 7), .exec,
    .exec, .body .leave, .exec, .exec, .deliver, .exec, .exec, .exec, .body .leave, .exec, .exec,
    .exec, .exec, .exec, .exec, .exec, .exec, .exec, .exec, .exec, .exec, .exec, .exec, .exec, .exec,
    .exec]

theorem deferred_drained_when_sample :
    (∃ s, Run.exec Processor.step kernelInit drainedRun = some s ∧ s.live = 1 ∧
      (s.kernel.critList = [] ∨ s.kernel.critPending = true)) ∧
    ∃ s, Run.exec Processor.step kernelInit (strandedRun.take 33) = some s ∧
      ∃ es s', Run.exec Processor.step s es = some s' ∧ ThreadLevel s' ∧
        s'.kernel.critList ≠ [] ∧ s'.kernel.critPending = false := by
  constructor
  · have hend : (Run.exec Processor.step kernelInit drainedRun).map (fun s =>
        (s.stack, IrqLevel.levels.all (s.count · = 0) && s.count .none = 0, s.live)) =
        some ([⟨.thread, [.body]⟩], true, 1) := by decide
    obtain ⟨s, hs, heq⟩ := Option.map_eq_some_iff.mp hend
    simp only [Prod.mk.injEq] at heq
    obtain ⟨hstack, hcount, hlive⟩ := heq
    exact ⟨s, hs, hlive, (deferred_drained_when hs).1 (by decide)
      ⟨⟨[], hstack⟩, counts_eq_zero hcount⟩⟩
  · have hend : (Run.exec Processor.step kernelInit (strandedRun.take 33)).map
        (fun s => decide (Drained s .exec)) = some false := by decide
    obtain ⟨s, hs, hnot⟩ := Option.map_eq_some_iff.mp hend
    exact ⟨s, hs, (deferred_drained_when hs).2 (of_decide_eq_false hnot)⟩

end KernelPanic
