import KernelPanic.Kernel.Broadcast
import KernelPanic.Kernel.Timer.Run

/-!
# KernelPanic.Kernel.Sleep

`Sleep` (`kernel/sleep.c`).  A sleeping thread waits for a signal; its timer is moved
from the timer unit to the soft interrupt and on to the critical interrupt, where the
signal is set.  The signal and the timer's `HANDLER_OBJECT` are on the thread's
stack, so neither may be in use once `Sleep` has returned.

Any number of threads sleep at the same time.  The interrupts come at any time, but
`CritInterrupt` and the thread's critical sections exclude each other.  The results
are for a clock that does not wrap around: no thread returns early or leaves its
objects behind (`sleep_safe`), and a thread whose time has come is woken by the next
interrupts (`sleep_wakes`).
-/

namespace KernelPanic

open Run

/-! ## the code -/

/-- Where a thread is in `Sleep`. -/
inductive SleepPc where
  | outside
  /-- The signal and the timer are initialised; `TimerRegister` is next. -/
  | initialised
  /-- `TimerRegister` has read the clock. -/
  | timed
  /-- `SignalWaitForSignal` is next. -/
  | registered
  /-- In `SignalWaitForSignal`. -/
  | waiting
deriving DecidableEq

/-- Where `CritInterrupt` is. -/
inductive CritPc (ν : Type*) where
  | head
  /-- The object is popped; `SleepCritHandler` is next. -/
  | running (c : ν)
  /-- `SleepCritHandler` has returned; `HandlerFinish` is next. -/
  | finishing (c : ν)
deriving DecidableEq

/-- A call of `Sleep`: its argument, when it began, and the `time` of its
`TimerRegister`. -/
structure SleepCall where
  wait : ℕ
  begun : ℕ
  time : ℕ
deriving DecidableEq

/-- The threads, by their locking contexts, each with the timer and the signal on its
stack.  `now` is the true time. -/
structure SleepRun (ν : Type*) where
  unit : TimerUnit ν
  contexts : Contexts ν
  signal : ν → Signal ν
  /-- What `SoftInterrupt` has popped. -/
  soft : Option ν
  /-- `CritInterruptHandlerList`, newest first. -/
  critList : List ν
  crit : CritPc ν
  pc : ν → SleepPc
  call : ν → SleepCall
  now : ℕ

inductive SleepEvent (ν : Type*) where
  /-- `Sleep(wait)` is called. -/
  | call (c : ν) (wait : ℕ)
  /-- `TimeGet` in `TimerRegister`. -/
  | timeGet (c : ν)
  /-- The rest of `TimerRegister`. -/
  | register (c : ν)
  /-- `SignalWaitForSignal`. -/
  | wait (c : ν)
  /-- `Sleep` returns. -/
  | leave (c : ν)
  /-- A millisecond passes. -/
  | elapse
  | timerInterrupt
  /-- `SoftInterrupt` pops an object. -/
  | softPop
  /-- `SleepTimerHandler`. -/
  | softHandler
  /-- `CritInterrupt` pops an object. -/
  | critPop
  /-- `SleepCritHandler`. -/
  | critHandler
  /-- `HandlerFinish`. -/
  | critFinish
deriving DecidableEq

variable {ν : Type*} [DecidableEq ν]

namespace SleepRun

/-- After `TimerStartup` at true time `now`, with no thread in `Sleep`. -/
def start (w now : ℕ) (links : WeightedLinks ν) : SleepRun ν where
  unit := timerStartup w (now % 2 ^ w) links
  contexts := ⟨fun _ => ⟨.ready, .shared, .thread⟩, fun _ => .running, [], [], false⟩
  signal := fun _ => signalInit false
  soft := none
  critList := []
  crit := .head
  pc := fun _ => .outside
  call := fun _ => ⟨0, 0, 0⟩
  now := now

/-- The thread can take its next step in `Sleep`: it is scheduled, and no critical
interrupt is going on. -/
def At (s : SleepRun ν) (c : ν) (pc : SleepPc) : Prop :=
  s.pc c = pc ∧ s.contexts.thread c = .running ∧ s.crit = .head

instance (s : SleepRun ν) (c : ν) (pc : SleepPc) : Decidable (s.At c pc) :=
  inferInstanceAs (Decidable (_ ∧ _ ∧ _))

def setPc (s : SleepRun ν) (c : ν) (pc : SleepPc) : SleepRun ν :=
  { s with pc := Function.update s.pc c pc }

def setHandler (s : SleepRun ν) (c : ν) (state : HandlerState) : SleepRun ν :=
  { s with unit := { s.unit with handler := Function.update s.unit.handler c state } }

/-- `CritInterruptRegisterHandler`. -/
def critInterruptRegisterHandler (s : SleepRun ν) (c : ν) : SleepRun ν :=
  { s with unit := s.unit.register c, critList := c :: s.critList }

/-- A call on the thread's signal. -/
def onSignal (s : SleepRun ν) (c : ν)
    (f : Contexts ν → Signal ν → Contexts ν × Signal ν) : SleepRun ν :=
  let r := f s.contexts (s.signal c)
  { s with contexts := r.1, signal := Function.update s.signal c r.2 }

/-- One event; `none` when it cannot happen.  `register` takes the section with `IRQ_LEVEL_MAX`
and `TimerSetNextTimer` as one step, though a timer interrupt may come between them, and in
`TimerSetNextTimer`; see `registerSafe_iff`. -/
def step (w : ℕ) (s : SleepRun ν) : SleepEvent ν → Option (SleepRun ν)
  | .call c wait =>
      if s.At c .outside ∧ wait < 2 ^ w then
        let s := s.onSignal c fun contexts _ => (contexts, signalInit false)
        let s := s.setHandler c .ready
        some { s.setPc c .initialised with
          call := Function.update s.call c ⟨wait, s.now, 0⟩ }
      else none
  | .timeGet c =>
      if s.At c .initialised then
        some { s.setPc c .timed with
          call := Function.update s.call c { s.call c with time := s.now % 2 ^ w } }
      else none
  | .register c =>
      if s.At c .timed then
        some { s.setPc c .registered with
          unit := timerRegister w c (s.call c).wait (s.call c).time s.unit }
      else none
  | .wait c =>
      if s.At c .registered then
        some ((s.onSignal c fun contexts signal =>
          signalWaitForSignal contexts signal c).setPc c .waiting)
      else none
  | .leave c => if s.At c .waiting then some (s.setPc c .outside) else none
  | .elapse => some { s with now := s.now + 1 }
  | .timerInterrupt => some { s with unit := timerInner w (s.now % 2 ^ w) s.unit }
  | .softPop =>
      match s.soft, s.unit.softList with
      | none, c :: rest =>
          some { s with unit := { s.unit with softList := rest }.run c, soft := some c }
      | _, _ => none
  | .softHandler =>
      s.soft.map fun c => { s with soft := none }.critInterruptRegisterHandler c
  | .critPop =>
      match s.crit, s.critList with
      | .head, c :: rest =>
          some { s with unit := s.unit.run c, critList := rest, crit := .running c }
      | _, _ => none
  | .critHandler =>
      match s.crit with
      | .running c => some { s.onSignal c signalSet with crit := .finishing c }
      | _ => none
  | .critFinish =>
      match s.crit with
      | .finishing c =>
          let r := handlerFinish (s.unit.handler c)
          let s := s.setHandler c r.1
          some { s with unit := s.unit.assert r.2, crit := .head }
      | _ => none

end SleepRun

/-! ## the timer unit's view -/

variable {w time wait : ℕ} {u : TimerUnit ν} {h : Heap ν} {A B : Set ν} {c d : ν}
  {g : ν → HandlerState}

/-- The unit with other handler states. -/
def TimerUnit.regard (u : TimerUnit ν) (g : ν → HandlerState) : TimerUnit ν :=
  { u with handler := g }

omit [DecidableEq ν] in
theorem TimerUnit.regard_timers {timers : Heap ν} :
    TimerUnit.regard { u with timers := timers } g = { u.regard g with timers := timers } := rfl

theorem TimerUnit.run_eq (hq : u.handler c = .queued) :
    u.run c = { u with handler := Function.update u.handler c .running } := by
  simp [TimerUnit.run, TimerUnit.assert, handlerRun, hq]

/-- `QueueTimers` only looks at the timers of its heap. -/
theorem queueTimers_regard {fuel : ℕ} (hh : Holds w u.links h A)
    (hq : ∀ a ∈ A, u.handler a = .queued) (hg : ∀ a ∈ A, g a = .queued) :
    queueTimers w time fuel (u.regard g) h =
      ((queueTimers w time fuel u h).1.regard g, (queueTimers w time fuel u h).2) := by
  induction fuel generalizing u h A with
  | zero => rfl
  | succ fuel ih =>
      by_cases hgo : heapSize h > 0 ∧ heapHeadWeight u.links h ≤ time
      · obtain ⟨a, links, h', hpop, -, ha, -, hh', -⟩ := hh.pop (hh.size_pos.mp hgo.1)
        have hstep : queueTimers w time (fuel + 1) u h = queueTimers w time fuel
            { u with links := links, softList := a :: u.softList } h' := by
          have hrun := run_softInterruptRegisterHandler (u := { u with links := links }) (hq a ha)
          simp only [queueTimers, if_pos hgo, hpop, hrun]
        have hstep' : queueTimers w time (fuel + 1) (u.regard g) h = queueTimers w time fuel
            (TimerUnit.regard { u with links := links, softList := a :: u.softList } g) h' := by
          have hgo' : heapSize h > 0 ∧ heapHeadWeight (u.regard g).links h ≤ time := hgo
          have hpop' : heapPop w (u.regard g).links h = some (some a, links, h') := hpop
          have hrun := run_softInterruptRegisterHandler
            (u := { u.regard g with links := links }) (hg a ha)
          simp only [queueTimers, if_pos hgo', hpop', hrun]
          rfl
        rw [hstep, hstep']
        exact ih (u := { u with links := links, softList := a :: u.softList }) hh'
          (fun b hb => hq b hb.1) (fun b hb => hg b hb.1)
      · have hgo' : ¬ (heapSize h > 0 ∧ heapHeadWeight (u.regard g).links h ≤ time) := hgo
        simp only [queueTimers, if_neg hgo, if_neg hgo']

omit [DecidableEq ν] in
theorem timerSetNextTimer_regard :
    timerSetNextTimer w time (u.regard g) = (timerSetNextTimer w time u).regard g := by
  unfold timerSetNextTimer TimerUnit.regard
  dsimp only
  split <;> rfl

theorem timerInner_regard (hh : Holds w u.links u.timers A)
    (hq : ∀ a ∈ A, u.handler a = .queued) (hg : ∀ a ∈ A, g a = .queued)
    (hlast : u.timerLastTime ≤ time) :
    timerInner w time (u.regard g) = (timerInner w time u).regard g := by
  have hnot : ¬ time < u.timerLastTime := Nat.not_lt.mpr hlast
  have hnot' : ¬ time < (u.regard g).timerLastTime := hnot
  have hqueue : queueTimers w time (heapSize u.timers) (u.regard g) u.timers = _ :=
    queueTimers_regard hh hq hg
  have hheap : (u.regard g).timers = u.timers := rfl
  simp only [timerInner, if_neg hnot, if_neg hnot', hheap, hqueue]
  rw [← TimerUnit.regard_timers, timerSetNextTimer_regard]
  rfl

theorem timerRegister_regard (hr : u.handler c ≠ .queued) (hg : g c ≠ .queued) :
    timerRegister w c wait time (u.regard g) =
      (timerRegister w c wait time u).regard (Function.update g c .queued) := by
  unfold timerRegister
  rw [TimerUnit.register_eq hr, TimerUnit.register_eq (u := u.regard g) hg]
  dsimp only
  rw [← timerSetNextTimer_regard]
  unfold TimerUnit.regard
  congr 1
  split
  · cases heapAdd u.links ((time + wait) % 2 ^ w) c u.timers <;> rfl
  · cases heapAdd u.links ((time + wait) % 2 ^ w) c u.timersOverflow <;> rfl

/-! ## the invariant -/

namespace SleepRun

variable {s s' : SleepRun ν}

/-- The reading at which the thread's timer is due, if the clock does not wrap. -/
def due (s : SleepRun ν) (c : ν) : ℕ := (s.call c).time + (s.call c).wait

/-- The thread does not wait on a lock. -/
def Idle (s : SleepRun ν) (c : ν) : Prop :=
  (s.contexts.context c).state = .ready ∧ s.contexts.thread c = .running

/-- `CritInterrupt` has the object in its hands. -/
def InHand (s : SleepRun ν) (c : ν) : Prop := s.crit = .running c ∨ s.crit = .finishing c

/-- The timer is on its way from the heap to `SleepCritHandler`. -/
def Fired (s : SleepRun ν) (c : ν) : Prop :=
  c ∈ s.unit.softList ∨ s.soft = some c ∨ c ∈ s.critList ∨ s.crit = .running c

/-- The thread's signal has not been set: it waits for it, or is about to. -/
def Asleep (s : SleepRun ν) (c : ν) : Prop :=
  s.pc c = .registered ∧ s.Idle c ∧ s.signal c = ⟨false, []⟩ ∨
    s.pc c = .waiting ∧ Waits s.contexts c ∧ s.signal c = ⟨false, [c]⟩

/-- Where a sleeping thread's timer is; `Timers` holds `A` and `TimersOverflow` `B`. -/
inductive Queued (w : ℕ) (s : SleepRun ν) (A B : Set ν) (c : ν) : Prop
  | timers (hmem : c ∈ A) (hweight : s.unit.links.weight c = s.due c)
  | overflow (hmem : c ∈ B) (hlate : 2 ^ w ≤ s.due c)
  | fired (hfired : s.Fired c) (hdue : s.due c ≤ s.now)

/-- What is true of a thread at each place in `Sleep`. -/
inductive Fine (w : ℕ) (s : SleepRun ν) (A B : Set ν) (c : ν) : Prop
  | outside (hpc : s.pc c = .outside) (hready : s.unit.handler c = .ready) (hidle : s.Idle c)
  | initialised (hpc : s.pc c = .initialised) (hready : s.unit.handler c = .ready)
      (hidle : s.Idle c) (hsignal : s.signal c = ⟨false, []⟩) (hwait : (s.call c).wait < 2 ^ w)
      (hbegun : (s.call c).begun ≤ s.now)
  | timed (hpc : s.pc c = .timed) (hready : s.unit.handler c = .ready)
      (hidle : s.Idle c) (hsignal : s.signal c = ⟨false, []⟩) (hwait : (s.call c).wait < 2 ^ w)
      (hbegun : (s.call c).begun ≤ (s.call c).time) (htime : (s.call c).time ≤ s.now)
  | asleep (hasleep : s.Asleep c) (hqueued : Queued w s A B c)
      (hbegun : (s.call c).begun ≤ (s.call c).time)
  | woken (hpc : s.pc c = .registered ∨ s.pc c = .waiting) (hidle : s.Idle c)
      (hsignal : s.signal c = ⟨true, []⟩)
      (hhandler : s.unit.handler c = .ready ∨ s.crit = .finishing c)
      (hdue : s.due c ≤ s.now) (hbegun : (s.call c).begun ≤ (s.call c).time)

/-- The handler states as the timer unit leaves them: it does not know that an object
has been queued again by `CritInterruptRegisterHandler`. -/
def view (s : SleepRun ν) (c : ν) : HandlerState :=
  if c ∈ s.critList then .running else s.unit.handler c

/-- The invariant. -/
structure SleepInv (w : ℕ) (s : SleepRun ν) (A B : Set ν) : Prop where
  timer : TimerInv w (s.unit.regard s.view) A B
  last : s.unit.timerLastTime ≤ s.now
  nodup : s.critList.Nodup
  queued : ∀ c ∈ s.critList, s.unit.handler c = .queued
  soft : ∀ c, s.soft = some c → s.unit.handler c = .running ∧ ¬ s.InHand c
  crit : ∀ c, s.InHand c → s.unit.handler c = .running
  kind : ∀ c, (s.contexts.context c).kind = .thread
  unbroken : s.contexts.panicked = false
  fine : ∀ c, Fine w s A B c

/-- Nothing has happened to the thread, except that its timer may have moved on. -/
structure Unmoved (s s' : SleepRun ν) (c : ν) : Prop where
  pc : s'.pc c = s.pc c
  call : s'.call c = s.call c
  signal : s'.signal c = s.signal c
  context : s'.contexts.context c = s.contexts.context c
  thread : s'.contexts.thread c = s.contexts.thread c
  handler : s'.unit.handler c = s.unit.handler c
  weight : s'.unit.links.weight c = s.unit.links.weight c
  fired : s.Fired c → s'.Fired c
  finishing : s.crit = .finishing c → s'.crit = .finishing c
  now : s.now ≤ s'.now

variable {A' B' : Set ν}

omit [DecidableEq ν] in
theorem Unmoved.due (h : Unmoved s s' c) : s'.due c = s.due c := by
  unfold SleepRun.due
  rw [h.call]

omit [DecidableEq ν] in
theorem Unmoved.idle (h : Unmoved s s' c) (hidle : s.Idle c) : s'.Idle c := by
  unfold Idle
  rw [h.context, h.thread]
  exact hidle

omit [DecidableEq ν] in
theorem Unmoved.asleep (h : Unmoved s s' c) (hasleep : s.Asleep c) : s'.Asleep c := by
  unfold Asleep Idle Waits
  rw [h.pc, h.signal, h.context, h.thread]
  exact hasleep

omit [DecidableEq ν] in
theorem Queued.unmoved (hq : Queued w s A B c) (h : Unmoved s s' c) (hA : c ∈ A → c ∈ A')
    (hB : c ∈ B → c ∈ B') : Queued w s' A' B' c := by
  cases hq with
  | timers hmem hweight => exact .timers (hA hmem) (by rw [h.weight, h.due, hweight])
  | overflow hmem hlate => exact .overflow (hB hmem) (by rw [h.due]; exact hlate)
  | fired hfired hdue => exact .fired (h.fired hfired) (by rw [h.due]; exact hdue.trans h.now)

omit [DecidableEq ν] in
theorem Fine.unmoved (hf : Fine w s A B c) (h : Unmoved s s' c) (hA : c ∈ A → c ∈ A')
    (hB : c ∈ B → c ∈ B') : Fine w s' A' B' c := by
  cases hf with
  | outside hpc hready hidle => exact .outside (h.pc ▸ hpc) (h.handler ▸ hready) (h.idle hidle)
  | initialised hpc hready hidle hsignal hwait hbegun =>
      exact .initialised (h.pc ▸ hpc) (h.handler ▸ hready) (h.idle hidle) (h.signal ▸ hsignal)
        (h.call ▸ hwait) (h.call ▸ hbegun.trans h.now)
  | timed hpc hready hidle hsignal hwait hbegun htime =>
      exact .timed (h.pc ▸ hpc) (h.handler ▸ hready) (h.idle hidle) (h.signal ▸ hsignal)
        (h.call ▸ hwait) (h.call ▸ hbegun) (h.call ▸ htime.trans h.now)
  | asleep hasleep hqueued hbegun =>
      exact .asleep (h.asleep hasleep) (hqueued.unmoved h hA hB) (h.call ▸ hbegun)
  | woken hpc hidle hsignal hhandler hdue hbegun =>
      exact .woken (h.pc ▸ hpc) (h.idle hidle) (h.signal ▸ hsignal)
        (hhandler.imp (h.handler ▸ ·) h.finishing) (by rw [h.due]; exact hdue.trans h.now)
        (h.call ▸ hbegun)

omit [DecidableEq ν] in
/-- A timer that is registered belongs to a thread that is not woken yet. -/
theorem Fine.of_handler (hf : Fine w s A B c) (hne : s.unit.handler c ≠ .ready)
    (hcrit : s.crit ≠ .finishing c) :
    s.Asleep c ∧ Queued w s A B c ∧ (s.call c).begun ≤ (s.call c).time := by
  cases hf with
  | outside _ hready => exact absurd hready hne
  | initialised _ hready => exact absurd hready hne
  | timed _ hready => exact absurd hready hne
  | asleep hasleep hqueued hbegun => exact ⟨hasleep, hqueued, hbegun⟩
  | woken _ _ _ hhandler => exact absurd hhandler (not_or.mpr ⟨hne, hcrit⟩)

omit [DecidableEq ν] in
theorem Queued.due_le (hq : Queued w s A B c) (hA : c ∉ A) (hB : c ∉ B) : s.due c ≤ s.now := by
  cases hq with
  | timers hmem => exact absurd hmem hA
  | overflow hmem => exact absurd hmem hB
  | fired _ hdue => exact hdue

theorem view_eq (hc : c ∉ s.critList) : s.view c = s.unit.handler c := if_neg hc

/-- A handler state that changes outside of `CritInterruptHandlerList`. -/
theorem view_update (state : HandlerState) (hlist : s'.critList = s.critList)
    (hc : c ∉ s.critList) (hhandler : s'.unit.handler = Function.update s.unit.handler c state) :
    s'.view = Function.update s.view c state := by
  funext d
  by_cases hdc : d = c
  · subst hdc
    rw [view_eq (hlist ▸ hc), hhandler, Function.update_self, Function.update_self]
  · unfold view
    rw [hlist, hhandler, Function.update_of_ne hdc, Function.update_of_ne hdc]

theorem SleepInv.not_listed (h : SleepInv w s A B) (hne : s.unit.handler c ≠ .queued) :
    c ∉ s.critList := fun hc => hne (h.queued c hc)

/-- A timer that is not queued, or already fired, is in neither heap. -/
theorem SleepInv.gone (h : SleepInv w s A B) (hc : s.view c ≠ .queued ∨ c ∈ s.unit.softList) :
    c ∉ A ∧ c ∉ B := by
  rw [← not_or, h.timer.pending c]
  exact fun hand => hc.elim (fun hne => hne hand.1) hand.2

theorem SleepInv.waiting_timer (h : SleepInv w s A B) (hc : c ∈ A ∨ c ∈ B) :
    s.unit.handler c = .queued ∧ c ∉ s.critList := by
  have hview : s.view c = .queued := ((h.timer.pending c).mp hc).1
  unfold view at hview
  split at hview
  · cases hview
  · next hnot => exact ⟨hview, hnot⟩

omit [DecidableEq ν] in
theorem Fine.at_outside (hf : Fine w s A B c) (hpc : s.pc c = .outside) :
    s.unit.handler c = .ready ∧ s.Idle c := by
  cases hf <;> grind [Asleep]

omit [DecidableEq ν] in
theorem Fine.at_initialised (hf : Fine w s A B c) (hpc : s.pc c = .initialised) :
    s.unit.handler c = .ready ∧ s.Idle c ∧ s.signal c = ⟨false, []⟩ ∧ (s.call c).wait < 2 ^ w ∧
      (s.call c).begun ≤ s.now := by
  cases hf <;> grind [Asleep]

omit [DecidableEq ν] in
theorem Fine.at_timed (hf : Fine w s A B c) (hpc : s.pc c = .timed) :
    s.unit.handler c = .ready ∧ s.Idle c ∧ s.signal c = ⟨false, []⟩ ∧ (s.call c).wait < 2 ^ w ∧
      (s.call c).begun ≤ (s.call c).time ∧ (s.call c).time ≤ s.now := by
  cases hf <;> grind [Asleep]

omit [DecidableEq ν] in
/-- A thread in `SignalWaitForSignal` that can go on has been woken. -/
theorem Fine.at_waiting (hf : Fine w s A B c) (hkind : (s.contexts.context c).kind = .thread)
    (hat : s.At c .waiting) :
    s.unit.handler c = .ready ∧ s.Idle c ∧ (s.call c).begun + (s.call c).wait ≤ s.now := by
  obtain ⟨hpc, hrunning, hhead⟩ := hat
  cases hf with
  | outside hpc' => cases hpc.symm.trans hpc'
  | initialised hpc' => cases hpc.symm.trans hpc'
  | timed hpc' => cases hpc.symm.trans hpc'
  | asleep hasleep =>
      obtain ⟨hpc', -⟩ | ⟨-, hwaits, -⟩ := hasleep
      · cases hpc.symm.trans hpc'
      · cases hrunning.symm.trans (hwaits.2 hkind)
  | woken _ hidle _ hhandler hdue hbegun =>
      obtain hready | hfinishing := hhandler
      · unfold due at hdue
        exact ⟨hready, hidle, by omega⟩
      · cases hhead.symm.trans hfinishing

/-! ## threads -/

/-- A step of one thread, which touches neither its timer nor the interrupts. -/
theorem SleepInv.thread (h : SleepInv w s A B) (c : ν) (hunit : s'.unit = s.unit)
    (hsoft : s'.soft = s.soft) (hlist : s'.critList = s.critList) (hcrit : s'.crit = s.crit)
    (hnow : s'.now = s.now) (hpc : ∀ d ≠ c, s'.pc d = s.pc d)
    (hcall : ∀ d ≠ c, s'.call d = s.call d) (hsignal : ∀ d ≠ c, s'.signal d = s.signal d)
    (hcontext : ∀ d ≠ c, s'.contexts.context d = s.contexts.context d)
    (hthread : ∀ d ≠ c, s'.contexts.thread d = s.contexts.thread d)
    (hkind : (s'.contexts.context c).kind = .thread)
    (hunbroken : s'.contexts.panicked = false) (hc : Fine w s' A B c) : SleepInv w s' A B := by
  have hview : s'.view = s.view := by
    unfold view
    rw [hlist, hunit]
  have hhand : ∀ d, s'.InHand d ↔ s.InHand d := fun d => by rw [InHand, InHand, hcrit]
  have hother : ∀ d ≠ c, Unmoved s s' d := fun d hd => {
    pc := hpc d hd
    call := hcall d hd
    signal := hsignal d hd
    context := hcontext d hd
    thread := hthread d hd
    handler := by rw [hunit]
    weight := by rw [hunit]
    fired := by unfold Fired; rw [hunit, hsoft, hlist, hcrit]; exact id
    finishing := by rw [hcrit]; exact id
    now := hnow.ge }
  refine ⟨?_, ?_, hlist ▸ h.nodup, ?_, fun d hd => ?_, fun d hd => ?_, fun d => ?_, hunbroken,
    fun d => ?_⟩
  · rw [hview, hunit]
    exact h.timer
  · rw [hunit, hnow]
    exact h.last
  · rw [hlist, hunit]
    exact h.queued
  · rw [hunit, hhand]
    exact h.soft d (hsoft ▸ hd)
  · rw [hunit]
    exact h.crit d ((hhand d).mp hd)
  · by_cases hdc : d = c
    · exact hdc ▸ hkind
    · rw [hcontext d hdc]
      exact h.kind d
  · by_cases hdc : d = c
    · exact hdc ▸ hc
    · exact (h.fine d).unmoved (hother d hdc) id id

theorem SleepInv.call (h : SleepInv w s A B) (hat : s.At c .outside) (hwait : wait < 2 ^ w) :
    SleepInv w { ((s.onSignal c fun contexts _ => (contexts, signalInit false)).setHandler c
        .ready).setPc c .initialised with
      call := Function.update s.call c ⟨wait, s.now, 0⟩ } A B := by
  obtain ⟨hready, hidle⟩ := (h.fine c).at_outside hat.1
  have hhandler : Function.update s.unit.handler c .ready = s.unit.handler :=
    Function.update_eq_self_iff.mpr hready.symm
  refine h.thread c ?_ rfl rfl rfl rfl (fun d hd => Function.update_of_ne hd ..)
    (fun d hd => Function.update_of_ne hd ..) (fun d hd => Function.update_of_ne hd ..)
    (fun _ _ => rfl) (fun _ _ => rfl) (h.kind c) h.unbroken ?_
  · simp [onSignal, setHandler, setPc, hhandler]
  · refine .initialised ?_ ?_ hidle ?_ ?_ ?_ <;>
      simp [onSignal, setHandler, setPc, signalInit, hwait]

theorem SleepInv.timeGet (h : SleepInv w s A B) (hat : s.At c .initialised) (hlt : s.now < 2 ^ w) :
    SleepInv w { s.setPc c .timed with
      call := Function.update s.call c { s.call c with time := s.now % 2 ^ w } } A B := by
  obtain ⟨hready, hidle, hsignal, hwait, hbegun⟩ := (h.fine c).at_initialised hat.1
  refine h.thread c rfl rfl rfl rfl rfl (fun d hd => Function.update_of_ne hd ..)
    (fun d hd => Function.update_of_ne hd ..) (fun _ _ => rfl)
    (fun _ _ => rfl) (fun _ _ => rfl) (h.kind c) h.unbroken ?_
  refine .timed ?_ hready hidle hsignal ?_ ?_ ?_ <;>
    simp [setPc, hwait, Nat.mod_eq_of_lt hlt, hbegun]

/-- `SignalWaitForSignal`: the thread is suspended, unless its signal is set already. -/
theorem SleepInv.signalWait (h : SleepInv w s A B) (hat : s.At c .registered) :
    SleepInv w ((s.onSignal c fun contexts signal =>
      signalWaitForSignal contexts signal c).setPc c .waiting) A B := by
  obtain ⟨hpc, -, hhead⟩ := hat
  have hf := h.fine c
  cases hf with
  | outside hpc' => cases hpc.symm.trans hpc'
  | initialised hpc' => cases hpc.symm.trans hpc'
  | timed hpc' => cases hpc.symm.trans hpc'
  | asleep hasleep hqueued hbegun =>
      obtain ⟨-, hidle, hsignal⟩ | ⟨hpc', -⟩ := hasleep
      · have hblock : lockingBlock s.contexts none c = _ := lockingBlock_eq hidle.1
        simp only [h.kind c, if_true] at hblock
        refine h.thread c rfl rfl rfl rfl rfl (fun d hd => Function.update_of_ne hd ..)
          (fun _ _ => rfl) (fun d hd => Function.update_of_ne hd ..) (fun d hd => ?_)
          (fun d hd => ?_) ?_ ?_ ?_
        · simp [onSignal, setPc, signalWaitForSignal, hsignal, hblock, hd]
        · simp [onSignal, setPc, signalWaitForSignal, hsignal, hblock, hd]
        · simp [onSignal, setPc, signalWaitForSignal, hsignal, hblock]
        · simp [onSignal, setPc, signalWaitForSignal, hsignal, hblock, h.unbroken]
        · refine .asleep (.inr ?_) ?_ hbegun
          · simp [onSignal, setPc, signalWaitForSignal, hsignal, hblock, Waits]
          · cases hqueued with
            | timers hmem hweight => exact .timers hmem hweight
            | overflow hmem hlate => exact .overflow hmem hlate
            | fired hfired hdue => exact .fired hfired hdue
      · cases hpc.symm.trans hpc'
  | woken _ hidle hsignal hhandler hdue hbegun =>
      have hgrants := lockingAcquire_grants (.inl hidle.1)
      refine h.thread c rfl rfl rfl rfl rfl (fun d hd => Function.update_of_ne hd ..)
        (fun _ _ => rfl) (fun d hd => Function.update_of_ne hd ..) (fun d hd => ?_)
        (fun d hd => ?_) ?_ ?_ ?_
      · simpa [onSignal, setPc, signalWaitForSignal, hsignal] using
          hgrants.context d (by simpa using hd)
      · simpa [onSignal, setPc, signalWaitForSignal, hsignal] using
          hgrants.thread d (by simpa using hd)
      · simpa [onSignal, setPc, signalWaitForSignal, hsignal] using
          (hgrants.kind c).trans (h.kind c)
      · simpa [onSignal, setPc, signalWaitForSignal, hsignal] using
          hgrants.panicked.trans h.unbroken
      · have hstate := hgrants.state c (by simp)
        have hstays := hgrants.stays c (by simp) hidle.1
        rw [if_pos (h.kind c)] at hstate
        refine .woken (.inr ?_) ?_ ?_ hhandler hdue hbegun
        · simp [setPc]
        · simpa [Idle, onSignal, setPc, signalWaitForSignal, hsignal] using
            ⟨hstate, hstays.trans hidle.2⟩
        · simp [onSignal, setPc, signalWaitForSignal, hsignal]

theorem SleepInv.leave (h : SleepInv w s A B) (hat : s.At c .waiting) :
    SleepInv w (s.setPc c .outside) A B := by
  obtain ⟨hready, hidle, -⟩ := (h.fine c).at_waiting (h.kind c) hat
  refine h.thread c rfl rfl rfl rfl rfl (fun d hd => Function.update_of_ne hd ..)
    (fun _ _ => rfl) (fun _ _ => rfl) (fun _ _ => rfl) (fun _ _ => rfl) (h.kind c) h.unbroken ?_
  exact .outside (by simp [setPc]) hready hidle

/-- `TimerRegister` can tell from the sum whether it has wrapped. -/
theorem registered_due {W : ℕ} (hwait : wait < W) (htime : time < W) :
    ((time + wait) % W ≥ time → (time + wait) % W = time + wait) ∧
      (¬ (time + wait) % W ≥ time → W ≤ time + wait) := by
  by_cases hlt : time + wait < W
  · rw [Nat.mod_eq_of_lt hlt]
    exact ⟨fun _ => rfl, fun hnot => absurd (Nat.le_add_right time wait) hnot⟩
  · rw [Nat.mod_eq_sub_mod (by omega), Nat.mod_eq_of_lt (by omega)]
    exact ⟨fun hge => by omega, fun _ => by omega⟩

/-- `TimerRegister`: the timer is in one of the heaps, and due when it says. -/
theorem SleepInv.register (h : SleepInv w s A B) (hat : s.At c .timed) (hlt : s.now < 2 ^ w) :
    ∃ A' B', SleepInv w { s.setPc c .registered with
        unit := timerRegister w c (s.call c).wait (s.call c).time s.unit } A' B' ∧
      ∀ d ≠ c, (d ∈ A' → d ∈ A) ∧ (d ∈ B' → d ∈ B) := by
  obtain ⟨hready, hidle, hsignal, hwait, hbegun, htime⟩ := (h.fine c).at_timed hat.1
  have hnot : s.unit.handler c ≠ .queued := by simp [hready]
  have hview : s.view c ≠ .queued := by simp [view_eq (h.not_listed hnot), hready]
  have hregard : timerRegister w c (s.call c).wait (s.call c).time (s.unit.regard s.view) = _ :=
    timerRegister_regard hnot hview
  have hself : timerRegister w c (s.call c).wait (s.call c).time
      (s.unit.regard s.unit.handler) = _ := timerRegister_regard hnot hnot
  have hhandler := congrArg TimerUnit.handler hself
  obtain ⟨hinv, hsoft, hweight, -, hlast⟩ :=
    h.timer.register hview (s.call c).wait (s.call c).time
  rw [hregard] at hinv hsoft hweight hlast
  change (timerRegister w c (s.call c).wait (s.call c).time s.unit).handler = _ at hhandler
  change (timerRegister w c (s.call c).wait (s.call c).time s.unit).softList = _ at hsoft
  change (timerRegister w c (s.call c).wait (s.call c).time s.unit).links.weight = _ at hweight
  change (timerRegister w c (s.call c).wait (s.call c).time s.unit).timerLastTime = _ at hlast
  generalize timerRegister w c (s.call c).wait (s.call c).time s.unit = u' at *
  have hother : ∀ d ≠ c, u'.handler d = s.unit.handler d := fun d hdc => by
    rw [hhandler]
    exact Function.update_of_ne hdc ..
  have hsame : ∀ d, s.unit.handler d ≠ .ready → u'.handler d = s.unit.handler d :=
    fun d hd => hother d fun hdc => hd (hdc ▸ hready)
  have hview' : view { s.setPc c .registered with unit := u' } = Function.update s.view c .queued :=
    view_update _ rfl (h.not_listed hnot) hhandler
  rw [← hview'] at hinv
  refine ⟨_, _, ⟨hinv, hlast.trans_le h.last, h.nodup, fun d hd => ?_, fun d hd => ?_,
    fun d hd => ?_, h.kind, h.unbroken, fun d => ?_⟩, fun d hdc => ?_⟩
  · exact (hsame d (by simp [h.queued d hd])).trans (h.queued d hd)
  · exact ⟨(hsame d (by simp [(h.soft d hd).1])).trans (h.soft d hd).1, (h.soft d hd).2⟩
  · exact (hsame d (by simp [h.crit d hd])).trans (h.crit d hd)
  · by_cases hdc : d = c
    · subst hdc
      refine .asleep (.inl ⟨by simp [setPc], hidle, hsignal⟩) ?_ hbegun
      have hsum := registered_due hwait (htime.trans_lt hlt)
      by_cases hge : ((s.call d).time + (s.call d).wait) % 2 ^ w ≥ (s.call d).time
      · refine .timers (by simp [hge]) ?_
        rw [hweight]
        exact (Function.update_self ..).trans (hsum.1 hge)
      · exact .overflow (by simp [hge]) (hsum.2 hge)
    · refine (h.fine d).unmoved ⟨?_, rfl, rfl, rfl, rfl, hother d hdc, ?_, ?_, id, le_rfl⟩ ?_ ?_
      · simp [setPc, hdc]
      · rw [hweight]
        exact Function.update_of_ne hdc ..
      · unfold Fired
        rw [hsoft]
        exact id
      · split
        · exact Set.mem_insert_of_mem c
        · exact id
      · split
        · exact id
        · exact Set.mem_insert_of_mem c
  · constructor <;> split <;> simp [hdc]

/-! ## interrupts -/

/-- The timer interrupt moves the timers that are due to the soft interrupt. -/
theorem SleepInv.timerInterrupt (h : SleepInv w s A B) (hlt : s.now < 2 ^ w) :
    SleepInv w { s with unit := timerInner w (s.now % 2 ^ w) s.unit }
      (A \ {a | s.unit.links.weight a ≤ s.now}) B := by
  have hview : ∀ a ∈ A, s.view a = .queued := fun a ha => ((h.timer.pending a).mp (.inl ha)).1
  have hqueued : ∀ a ∈ A, s.unit.handler a = .queued := fun a ha => (h.waiting_timer (.inl ha)).1
  have hnot : ¬ s.now < s.unit.timerLastTime := Nat.not_lt.mpr h.last
  rw [Nat.mod_eq_of_lt hlt]
  have hholds : Holds w s.unit.links s.unit.timers A := h.timer.timers
  have hregard := timerInner_regard hholds hqueued hview h.last
  have hhandler := congrArg TimerUnit.handler
    (timerInner_regard (g := s.unit.handler) hholds hqueued hqueued h.last)
  obtain ⟨hinv, hlast, hweight, -, fired, hsoft, hmem⟩ := h.timer.inner s.now
  rw [hregard] at hinv hlast hweight hsoft
  change (timerInner w s.now s.unit).handler = s.unit.handler at hhandler
  change (timerInner w s.now s.unit).timerLastTime = _ at hlast
  change (timerInner w s.now s.unit).links.weight = s.unit.links.weight at hweight
  change (timerInner w s.now s.unit).softList = fired ++ s.unit.softList at hsoft
  have hlast' : ¬ s.now < (s.unit.regard s.view).timerLastTime := hnot
  simp only [hlast', if_false, false_and, false_or] at hinv hmem
  generalize timerInner w s.now s.unit = u' at *
  have hview' : view { s with unit := u' } = s.view := by
    unfold view
    rw [hhandler]
  have hmoved : ∀ d, Unmoved s { s with unit := u' } d := fun d => {
    pc := rfl
    call := rfl
    signal := rfl
    context := rfl
    thread := rfl
    handler := congrFun hhandler d
    weight := congrFun hweight d
    fired := Or.imp_left fun hd => hsoft ▸ List.mem_append_right fired hd
    finishing := id
    now := le_rfl }
  refine ⟨hview' ▸ hinv, hlast.le, h.nodup, hhandler ▸ h.queued, hhandler ▸ h.soft,
    hhandler ▸ h.crit, h.kind, h.unbroken, fun d => ?_⟩
  by_cases hd : d ∈ A ∧ s.unit.links.weight d ≤ s.now
  · have hcrit : s.crit ≠ .finishing d := fun hd' => by
      have := h.crit d (.inr hd')
      rw [hqueued d hd.1] at this
      cases this
    obtain ⟨hasleep, hq, hbegun⟩ := (h.fine d).of_handler (by simp [hqueued d hd.1]) hcrit
    refine .asleep ((hmoved d).asleep hasleep) (.fired (.inl ?_) ?_) hbegun
    · exact hsoft ▸ List.mem_append_left _ ((hmem d).mpr hd)
    · cases hq with
      | timers _ hdue => exact hdue.ge.trans hd.2
      | overflow hB => exact absurd hB (h.timer.disjoint d hd.1)
      | fired _ hdue => exact hdue
  · exact (h.fine d).unmoved (hmoved d) (fun hA => ⟨hA, fun hle => hd ⟨hA, hle⟩⟩) id

theorem SleepInv.elapse (h : SleepInv w s A B) : SleepInv w { s with now := s.now + 1 } A B :=
  ⟨h.timer, h.last.trans (Nat.le_succ _), h.nodup, h.queued, h.soft, h.crit, h.kind, h.unbroken,
    fun d => (h.fine d).unmoved ⟨rfl, rfl, rfl, rfl, rfl, rfl, rfl, id, id, Nat.le_succ _⟩ id id⟩

omit [DecidableEq ν] in
/-- An object whose handler state changes while it is on its way: the timer's thread is
asleep. -/
theorem Fine.onward (hf : Fine w s A B c) (hne : s.unit.handler c ≠ .ready)
    (hcrit : s.crit ≠ .finishing c) (hA : c ∉ A) (hB : c ∉ B) (hpc : s'.pc = s.pc)
    (hcall : s'.call = s.call) (hsignal : s'.signal = s.signal)
    (hcontexts : s'.contexts = s.contexts) (hnow : s'.now = s.now) (hfired : s'.Fired c) :
    Fine w s' A' B' c := by
  obtain ⟨hasleep, hq, hbegun⟩ := hf.of_handler hne hcrit
  refine .asleep ?_ (.fired hfired ?_) (hcall ▸ hbegun)
  · unfold Asleep Idle at hasleep ⊢
    rw [hpc, hsignal, hcontexts]
    exact hasleep
  · have hdue := hq.due_le hA hB
    unfold due at hdue ⊢
    rw [hcall, hnow]
    exact hdue

theorem SleepInv.softPop {rest : List ν} (h : SleepInv w s A B) (hnone : s.soft = none)
    (hlist : s.unit.softList = c :: rest) :
    SleepInv w { s with unit := { s.unit with softList := rest }.run c, soft := some c } A B := by
  have hmem : c ∈ s.unit.softList := by simp [hlist]
  have hview : s.view c = .queued := h.timer.soft c hmem
  obtain ⟨hA, hB⟩ := h.gone (.inr hmem)
  have hnot : c ∉ s.critList := fun hc => by simp [view, hc] at hview
  have hqueued : s.unit.handler c = .queued := (view_eq hnot).symm.trans hview
  have hhand : ¬ s.InHand c := fun hc => by simp [h.crit c hc] at hqueued
  have hinv := h.timer.softInterrupt hlist
  rw [TimerUnit.run_eq (u := { s.unit.regard s.view with softList := rest }) hview] at hinv
  rw [TimerUnit.run_eq (u := { s.unit with softList := rest }) hqueued]
  have hother : ∀ d ≠ c, Function.update s.unit.handler c .running d = s.unit.handler d :=
    fun d hd => Function.update_of_ne hd ..
  refine ⟨?_, h.last, h.nodup, fun d hd => ?_, fun d hd => ?_, fun d hd => ?_, h.kind, h.unbroken,
    fun d => ?_⟩
  · rw [view_update .running ?_ hnot ?_]
    exacts [hinv, rfl, rfl]
  · exact (hother d fun hdc => hnot (hdc ▸ hd)).trans (h.queued d hd)
  · cases hd
    exact ⟨Function.update_self .., hhand⟩
  · exact (hother d fun hdc => hhand (hdc ▸ hd)).trans (h.crit d hd)
  · by_cases hdc : d = c
    · subst hdc
      exact (h.fine d).onward (by simp [hqueued]) (fun hc => hhand (.inr hc)) hA hB rfl rfl rfl rfl
        rfl (.inr (.inl rfl))
    · refine (h.fine d).unmoved ⟨rfl, rfl, rfl, rfl, rfl, hother d hdc, rfl, ?_, id, le_rfl⟩ id id
      unfold Fired
      simp only [hlist, hnone, List.mem_cons, hdc, false_or, reduceCtorEq]
      exact Or.imp_right .inr

theorem SleepInv.softHandler (h : SleepInv w s A B) (hsoft : s.soft = some c) :
    SleepInv w ({ s with soft := none }.critInterruptRegisterHandler c) A B := by
  obtain ⟨hrunning, hhand⟩ := h.soft c hsoft
  have hnot : c ∉ s.critList := h.not_listed (by simp [hrunning])
  obtain ⟨hA, hB⟩ := h.gone (c := c) (.inl (by simp [view_eq hnot, hrunning]))
  unfold critInterruptRegisterHandler
  dsimp only
  rw [TimerUnit.register_eq (by simp [hrunning])]
  have hother : ∀ d ≠ c, Function.update s.unit.handler c .queued d = s.unit.handler d :=
    fun d hd => Function.update_of_ne hd ..
  refine ⟨?_, h.last, List.nodup_cons.mpr ⟨hnot, h.nodup⟩, fun d hd => ?_,
    fun d hd => absurd hd (by simp), fun d hd => ?_, h.kind, h.unbroken, fun d => ?_⟩
  · have hview : (fun d => if d ∈ c :: s.critList then HandlerState.running
        else Function.update s.unit.handler c .queued d) = s.view := by
      funext d
      by_cases hdc : d = c
      · subst hdc
        rw [if_pos List.mem_cons_self, view_eq hnot, hrunning]
      · simp [view, hdc]
    have hinv := h.timer
    rw [← hview] at hinv
    exact hinv
  · obtain rfl | hd := List.mem_cons.mp hd
    · exact Function.update_self ..
    · exact (hother d fun hdc => hnot (hdc ▸ hd)).trans (h.queued d hd)
  · exact (hother d fun hdc => hhand (hdc ▸ hd)).trans (h.crit d hd)
  · by_cases hdc : d = c
    · subst hdc
      exact (h.fine d).onward (by simp [hrunning]) (fun hc => hhand (.inr hc)) hA hB rfl rfl rfl rfl
        rfl (.inr (.inr (.inl List.mem_cons_self)))
    · refine (h.fine d).unmoved ⟨rfl, rfl, rfl, rfl, rfl, hother d hdc, rfl, ?_, id, le_rfl⟩ id id
      unfold Fired
      simp [hsoft, hdc, Ne.symm hdc]

theorem SleepInv.critPop {rest : List ν} (h : SleepInv w s A B) (hhead : s.crit = .head)
    (hlist : s.critList = c :: rest) :
    SleepInv w { s with unit := s.unit.run c, critList := rest, crit := .running c } A B := by
  have hmem : c ∈ s.critList := by simp [hlist]
  have hqueued := h.queued c hmem
  have hview : s.view c = .running := if_pos hmem
  obtain ⟨hA, hB⟩ := h.gone (c := c) (.inl (by simp [hview]))
  obtain ⟨hnot, hnodup⟩ := List.nodup_cons.mp (hlist ▸ h.nodup)
  rw [TimerUnit.run_eq hqueued]
  have hother : ∀ d ≠ c, Function.update s.unit.handler c .running d = s.unit.handler d :=
    fun d hd => Function.update_of_ne hd ..
  refine ⟨?_, h.last, hnodup, fun d hd => ?_, fun d hd => ?_, fun d hd => ?_, h.kind, h.unbroken,
    fun d => ?_⟩
  · have hview' : (fun d => if d ∈ rest then HandlerState.running
        else Function.update s.unit.handler c .running d) = s.view := by
      funext d
      by_cases hdc : d = c
      · subst hdc
        rw [if_neg hnot, Function.update_self, hview]
      · simp [view, hlist, hdc]
    have hinv := h.timer
    rw [← hview'] at hinv
    exact hinv
  · exact (hother d fun hdc => hnot (hdc ▸ hd)).trans (h.queued d (by simp [hlist, hd]))
  · have hdc : d ≠ c := fun hdc => by
      have := (h.soft d hd).1
      rw [hdc, hqueued] at this
      cases this
    refine ⟨(hother d hdc).trans (h.soft d hd).1, ?_⟩
    simp [InHand, Ne.symm hdc]
  · obtain hd | hd := hd
    · cases hd
      exact Function.update_self ..
    · cases hd
  · by_cases hdc : d = c
    · subst hdc
      exact (h.fine d).onward (by simp [hqueued]) (by simp [hhead]) hA hB rfl rfl rfl rfl rfl
        (.inr (.inr (.inr rfl)))
    · refine (h.fine d).unmoved ⟨rfl, rfl, rfl, rfl, rfl, hother d hdc, rfl, ?_, ?_, le_rfl⟩ id id
      · unfold Fired
        simp only [hlist, hhead, List.mem_cons, hdc, false_or, reduceCtorEq, or_false]
        exact Or.imp_right (Or.imp_right .inl)
      · simp [hhead]

/-- `SleepCritHandler` wakes the thread, or lets it through if it has not waited yet. -/
theorem SleepInv.critHandler (h : SleepInv w s A B) (hcrit : s.crit = .running c) :
    SleepInv w { s.onSignal c signalSet with crit := .finishing c } A B := by
  have hrunning := h.crit c (.inl hcrit)
  have hnot : c ∉ s.critList := h.not_listed (by simp [hrunning])
  obtain ⟨hA, hB⟩ := h.gone (c := c) (.inl (by simp [view_eq hnot, hrunning]))
  obtain ⟨hasleep, hq, hbegun⟩ := (h.fine c).of_handler (by simp [hrunning]) (by simp [hcrit])
  obtain ⟨woken, hwoken, hgrants, hpc, hidle, hsignal⟩ : ∃ woken, (∀ d ∈ woken, d = c) ∧
      Grants s.contexts (signalSet s.contexts (s.signal c)).1 woken ∧
      (s.pc c = .registered ∨ s.pc c = .waiting) ∧
      Idle { s with contexts := (signalSet s.contexts (s.signal c)).1 } c ∧
      (signalSet s.contexts (s.signal c)).2 = ⟨true, []⟩ := by
    obtain ⟨hpc, hidle, hsignal⟩ | ⟨hpc, hwaits, hsignal⟩ := hasleep <;> rw [hsignal]
    · exact ⟨[], by simp, .refl, .inl hpc, hidle, rfl⟩
    · have hgrants := lockingAcquire_grants (.inr hwaits)
      have hstate := hgrants.state c (by simp)
      rw [if_pos (h.kind c)] at hstate
      exact ⟨[c], by simp, hgrants, .inr hpc,
        ⟨hstate, hgrants.woken c (by simp) hwaits (h.kind c)⟩, rfl⟩
  have hne : ∀ d ≠ c, d ∉ woken := fun d hdc hd => hdc (hwoken d hd)
  refine ⟨h.timer, h.last, h.nodup, h.queued, fun d hd => ⟨(h.soft d hd).1, ?_⟩, fun d hd => ?_,
    fun d => (hgrants.kind d).trans (h.kind d), hgrants.panicked.trans h.unbroken, fun d => ?_⟩
  · have hdc := (h.soft d hd).2
    unfold InHand at hdc ⊢
    simpa [hcrit] using hdc
  · obtain hd | hd := hd <;> cases hd
    exact hrunning
  · by_cases hdc : d = c
    · subst hdc
      refine .woken hpc hidle ?_ (.inr rfl) (hq.due_le hA hB) hbegun
      simp [onSignal, hsignal]
    · refine (h.fine d).unmoved ⟨rfl, rfl, Function.update_of_ne hdc .., hgrants.context d (hne d hdc),
        hgrants.thread d (hne d hdc), rfl, rfl, ?_, ?_, le_rfl⟩ id id
      · unfold Fired
        simp [onSignal, hcrit, Ne.symm hdc]
      · simp [hcrit]

/-- Once `SleepCritHandler` has returned the object is in no queue. -/
theorem SleepInv.not_on_its_way (h : SleepInv w s A B) (hcrit : s.crit = .finishing c) :
    ¬ Queued w s A B c := by
  have hrunning := h.crit c (.inr hcrit)
  intro hq
  cases hq with
  | timers hmem => cases hrunning.symm.trans (h.waiting_timer (.inl hmem)).1
  | overflow hmem => cases hrunning.symm.trans (h.waiting_timer (.inr hmem)).1
  | fired hfired =>
      have hnot : c ∉ s.critList := h.not_listed (by simp [hrunning])
      obtain hc | hc | hc | hc := hfired
      · cases hrunning.symm.trans ((view_eq hnot).symm.trans (h.timer.soft c hc))
      · exact (h.soft c hc).2 (.inr hcrit)
      · exact hnot hc
      · cases hcrit.symm.trans hc

/-- `HandlerFinish`: nobody refers to the object any more. -/
theorem SleepInv.critFinish (h : SleepInv w s A B) (hcrit : s.crit = .finishing c) :
    SleepInv w { s.setHandler c (handlerFinish (s.unit.handler c)).1 with
      unit := (s.setHandler c (handlerFinish (s.unit.handler c)).1).unit.assert
        (handlerFinish (s.unit.handler c)).2
      crit := .head } A B := by
  have hrunning := h.crit c (.inr hcrit)
  have hnot : c ∉ s.critList := h.not_listed (by simp [hrunning])
  have hinv := h.timer.finish ((view_eq hnot).trans hrunning)
  have hunit : (s.setHandler c (handlerFinish (s.unit.handler c)).1).unit.assert
      (handlerFinish (s.unit.handler c)).2 =
        { s.unit with handler := Function.update s.unit.handler c .ready } := by
    simp [setHandler, handlerFinish, hrunning, TimerUnit.assert]
  rw [hunit]
  have hother : ∀ d ≠ c, Function.update s.unit.handler c .ready d = s.unit.handler d :=
    fun d hd => Function.update_of_ne hd ..
  refine ⟨?_, h.last, h.nodup, fun d hd => ?_, fun d hd => ?_, fun d hd => ?_, h.kind, h.unbroken,
    fun d => ?_⟩
  · rw [view_update .ready ?_ hnot ?_]
    exacts [hinv, rfl, rfl]
  · exact (hother d fun hdc => hnot (hdc ▸ hd)).trans (h.queued d hd)
  · have hdc : d ≠ c := fun hdc => (h.soft d hd).2 (hdc ▸ .inr hcrit)
    refine ⟨(hother d hdc).trans (h.soft d hd).1, ?_⟩
    simp [InHand]
  · obtain hd | hd := hd <;> cases hd
  · by_cases hdc : d = c
    · subst hdc
      cases h.fine d with
      | outside _ hready => cases hready.symm.trans hrunning
      | initialised _ hready => cases hready.symm.trans hrunning
      | timed _ hready => cases hready.symm.trans hrunning
      | asleep _ hq => exact absurd hq (h.not_on_its_way hcrit)
      | woken hpc hidle hsignal _ hdue hbegun =>
          exact .woken hpc hidle hsignal (.inl (Function.update_self ..)) hdue hbegun
    · refine (h.fine d).unmoved ⟨rfl, rfl, rfl, rfl, rfl, hother d hdc, rfl, ?_, ?_, le_rfl⟩ id id
      · unfold Fired
        simp [setHandler, hcrit]
      · simp [hcrit, Ne.symm hdc]

/-! ## runs -/

variable {e : SleepEvent ν} {es es' : List (SleepEvent ν)} {links : WeightedLinks ν} {t₀ : ℕ}

theorem sleepInv_start : SleepInv w (start w t₀ links) ∅ ∅ := by
  have hunit : (start w t₀ links).unit.regard (start w t₀ links).view =
      timerStartup w (t₀ % 2 ^ w) links := by
    unfold start view timerStartup timerSetNextTimer
    dsimp only
    split <;> simp [TimerUnit.regard]
  refine ⟨hunit ▸ timerInv_startup, ?_, by simp [start], by simp [start], by simp [start],
    by simp [start, InHand], fun _ => rfl, rfl, fun c => .outside rfl ?_ ⟨rfl, rfl⟩⟩ <;>
  · unfold start timerStartup timerSetNextTimer
    dsimp only
    split <;> simp [Nat.mod_le]

/-- **One event keeps it**; only the thread that registers its timer adds to a heap. -/
theorem SleepInv.step (h : SleepInv w s A B) (hlt : s.now < 2 ^ w)
    (hs : s.step w e = some s') :
    ∃ A' B', SleepInv w s' A' B' ∧
      ∀ c, s.pc c ≠ .timed → (c ∈ A' → c ∈ A) ∧ (c ∈ B' → c ∈ B) := by
  have hsame : ∀ c : ν, s.pc c ≠ .timed → (c ∈ A → c ∈ A) ∧ (c ∈ B → c ∈ B) :=
    fun _ _ => ⟨id, id⟩
  cases e with
  | call c wait =>
      obtain ⟨hat, hs⟩ := Option.ite_none_right_eq_some.mp hs
      cases hs
      exact ⟨A, B, h.call hat.1 hat.2, hsame⟩
  | timeGet c =>
      obtain ⟨hat, hs⟩ := Option.ite_none_right_eq_some.mp hs
      cases hs
      exact ⟨A, B, h.timeGet hat hlt, hsame⟩
  | register c =>
      obtain ⟨hat, hs⟩ := Option.ite_none_right_eq_some.mp hs
      cases hs
      obtain ⟨A', B', hinv, hold⟩ := h.register hat hlt
      exact ⟨A', B', hinv, fun d hd => hold d fun hdc => hd (hdc ▸ hat.1)⟩
  | wait c =>
      obtain ⟨hat, hs⟩ := Option.ite_none_right_eq_some.mp hs
      cases hs
      exact ⟨A, B, h.signalWait hat, hsame⟩
  | leave c =>
      obtain ⟨hat, hs⟩ := Option.ite_none_right_eq_some.mp hs
      cases hs
      exact ⟨A, B, h.leave hat, hsame⟩
  | elapse =>
      cases hs
      exact ⟨A, B, h.elapse, hsame⟩
  | timerInterrupt =>
      cases hs
      exact ⟨_, B, h.timerInterrupt hlt, fun _ _ => ⟨fun hA => hA.1, id⟩⟩
  | softPop =>
      simp only [SleepRun.step] at hs
      split at hs
      · next hnone hlist =>
          cases hs
          exact ⟨A, B, h.softPop hnone hlist, hsame⟩
      · cases hs
  | softHandler =>
      obtain ⟨c, hsoft, rfl⟩ := Option.map_eq_some_iff.mp hs
      exact ⟨A, B, h.softHandler hsoft, hsame⟩
  | critPop =>
      simp only [SleepRun.step] at hs
      split at hs
      · next hhead hlist =>
          cases hs
          exact ⟨A, B, h.critPop hhead hlist, hsame⟩
      · cases hs
  | critHandler =>
      simp only [SleepRun.step] at hs
      split at hs
      · next hcrit =>
          cases hs
          exact ⟨A, B, h.critHandler hcrit, hsame⟩
      · cases hs
  | critFinish =>
      simp only [SleepRun.step] at hs
      split at hs
      · next hcrit =>
          cases hs
          exact ⟨A, B, h.critFinish hcrit, hsame⟩
      · cases hs

/-- The thread's timer is registered. -/
def Sleeping (s : SleepRun ν) (c : ν) : Prop := s.pc c = .registered ∨ s.pc c = .waiting

/-- Time does not go back, and a thread stays in `Sleep` until it returns. -/
theorem step_keeps (hs : s.step w e = some s') : s.now ≤ s'.now ∧
    ∀ c, e ≠ .leave c → s.Sleeping c → s'.Sleeping c ∧ s'.call c = s.call c := by
  unfold Sleeping
  cases e <;> simp only [SleepRun.step] at hs
  case softHandler =>
    obtain ⟨c, -, rfl⟩ := Option.map_eq_some_iff.mp hs
    exact ⟨le_rfl, fun d _ hd => ⟨hd, rfl⟩⟩
  case elapse =>
    cases hs
    exact ⟨Nat.le_succ _, fun d _ hd => ⟨hd, rfl⟩⟩
  case timerInterrupt =>
    cases hs
    exact ⟨le_rfl, fun d _ hd => ⟨hd, rfl⟩⟩
  case softPop | critPop | critHandler | critFinish =>
    split at hs <;> cases hs
    exact ⟨le_rfl, fun d _ hd => ⟨hd, rfl⟩⟩
  case call c _ | timeGet c | register c | wait c | leave c =>
    obtain ⟨hat, hs⟩ := Option.ite_none_right_eq_some.mp hs
    cases hs
    refine ⟨le_rfl, fun d hne hd => ?_⟩
    by_cases hdc : d = c
    · subst hdc
      simp_all [At, setPc, onSignal, setHandler]
    · simp [setPc, onSignal, setHandler, hdc, hd]

theorem now_le_exec (hrun : exec (SleepRun.step w) s es = some s') : s.now ≤ s'.now :=
  exec_invariant (I := fun t => s.now ≤ t.now) (fun _ _ _ hle hs => hle.trans (step_keeps hs).1)
    le_rfl hrun

theorem SleepInv.exec (h : SleepInv w s A B) (hrun : Run.exec (SleepRun.step w) s es = some s')
    (hlt : s'.now < 2 ^ w) : ∃ A' B', SleepInv w s' A' B' := by
  induction es generalizing s A B with
  | nil =>
      cases hrun
      exact ⟨A, B, h⟩
  | cons e es ih =>
      obtain ⟨t, hs, hrun⟩ := exec_cons_eq_some.mp hrun
      obtain ⟨A', B', h', -⟩ := h.step
        (((step_keeps hs).1.trans (now_le_exec hrun)).trans_lt hlt) hs
      exact ih h' hrun

/-- Nobody refers to the thread's objects: the timer is in neither heap (`Timers` holds
`A`, `TimersOverflow` holds `B`), in neither list and in no interrupt's hands, and the
thread is on no lock's list. -/
structure Unused (s : SleepRun ν) (A B : Set ν) (c : ν) : Prop where
  timers : c ∉ A
  overflow : c ∉ B
  softList : c ∉ s.unit.softList
  soft : s.soft ≠ some c
  critList : c ∉ s.critList
  crit : ¬ s.InHand c
  idle : s.Idle c

theorem SleepInv.unused (h : SleepInv w s A B) (hready : s.unit.handler c = .ready)
    (hidle : s.Idle c) : s.Unused A B c where
  timers hc := by cases hready.symm.trans (h.waiting_timer (.inl hc)).1
  overflow hc := by cases hready.symm.trans (h.waiting_timer (.inr hc)).1
  softList hc := by
    have hview : s.view c = .queued := h.timer.soft c hc
    rw [view_eq (h.not_listed (by simp [hready])), hready] at hview
    cases hview
  soft hc := by cases hready.symm.trans (h.soft c hc).1
  critList := h.not_listed (by simp [hready])
  crit hc := by cases hready.symm.trans (h.crit c hc)
  idle := hidle

/-- **`Sleep` is safe** in every run in which the clock does not wrap around: no
assertion fails, no thread returns before its time, and when it has returned nobody
refers to what was on its stack. -/
theorem sleep_safe (w t₀ : ℕ) (links : WeightedLinks ν) (es : List (SleepEvent ν))
    (hrun : exec (step w) (start w t₀ links) es = some s) (hlt : s.now < 2 ^ w) :
    s.unit.panicked = false ∧ s.contexts.panicked = false ∧
      (∀ c, s.At c .waiting → (s.call c).begun + (s.call c).wait ≤ s.now) ∧
      ∃ A B, Holds w s.unit.links s.unit.timers A ∧
        Holds w s.unit.links s.unit.timersOverflow B ∧
        ∀ c, s.pc c = .outside ∨ s.At c .waiting → s.Unused A B c := by
  obtain ⟨A, B, h⟩ := sleepInv_start.exec hrun hlt
  refine ⟨h.timer.fine, h.unbroken, fun c hat => ?_, A, B, h.timer.timers, h.timer.overflow,
    fun c hc => ?_⟩
  · exact ((h.fine c).at_waiting (h.kind c) hat).2.2
  · obtain hpc | hat := hc
    · obtain ⟨hready, hidle⟩ := (h.fine c).at_outside hpc
      exact h.unused hready hidle
    · obtain ⟨hready, hidle, -⟩ := (h.fine c).at_waiting (h.kind c) hat
      exact h.unused hready hidle

theorem SleepInv.fired_gone (h : SleepInv w s A B) (hfired : s.Fired c) : c ∉ A ∧ c ∉ B := by
  have hview : s.unit.handler c = .running → s.view c ≠ .queued := fun hrunning => by
    simp [view_eq (h.not_listed (c := c) (by simp [hrunning])), hrunning]
  obtain hc | hc | hc | hc := hfired
  · exact h.gone (.inr hc)
  · exact h.gone (.inl (hview (h.soft c hc).1))
  · exact h.gone (.inl (by simp [view, hc]))
  · exact h.gone (.inl (hview (h.crit c (.inl hc))))

/-- The next timer interrupt will find the timer due, if it has not been found yet. -/
theorem SleepInv.overdue (h : SleepInv w s A B) (hc : s.Sleeping c) (hlt : s.now < 2 ^ w)
    (hdue : s.due c ≤ s.now) : (c ∉ A ∨ s.unit.links.weight c ≤ s.now) ∧ c ∉ B := by
  cases h.fine c with
  | outside hpc => obtain hc | hc := hc <;> cases hpc.symm.trans hc
  | initialised hpc => obtain hc | hc := hc <;> cases hpc.symm.trans hc
  | timed hpc => obtain hc | hc := hc <;> cases hpc.symm.trans hc
  | asleep _ hq =>
      cases hq with
      | timers hmem hweight => exact ⟨.inr (hweight.trans_le hdue), h.timer.disjoint c hmem⟩
      | overflow _ hlate => exact absurd (hlate.trans hdue) (Nat.not_le.mpr hlt)
      | fired hfired => exact (h.fired_gone hfired).imp_left .inl
  | woken _ _ _ hhandler =>
      have hne : s.unit.handler c ≠ .queued := by
        obtain hready | hfinishing := hhandler
        · simp [hready]
        · simp [h.crit c (.inr hfinishing)]
      have hgone := h.gone (c := c) (.inl (by rwa [view_eq (h.not_listed hne)]))
      exact hgone.imp_left .inl

/-- The interrupts that wake a thread when its timer has fired. -/
def wakeUp : List (SleepEvent ℕ) := [.softPop, .softHandler, .critPop, .critHandler, .critFinish]

/-- Two threads; the second does not sleep at all, and its timer fires before it waits. -/
def twoSleepers : List (SleepEvent ℕ) :=
  [.call 0 3, .timeGet 0, .call 1 0, .register 0, .timeGet 1, .wait 0, .register 1,
    .timerInterrupt] ++ wakeUp ++ [.wait 1, .elapse, .elapse, .elapse, .timerInterrupt] ++ wakeUp

theorem sleep_safe_sample : ∃ s, exec (step 8) (start 8 0 blankLinks) twoSleepers = some s ∧
    s.At 0 .waiting ∧ s.At 1 .waiting ∧ s.unit.panicked = false ∧
    (s.call 0).begun + (s.call 0).wait ≤ s.now := by
  have hvalues : (exec (step 8) (start 8 0 blankLinks) twoSleepers).map (fun s =>
      (decide (s.At 0 .waiting ∧ s.At 1 .waiting), s.now)) = some (true, 3) := by decide
  obtain ⟨s, hrun, hs⟩ := Option.map_eq_some_iff.mp hvalues
  simp only [Prod.mk.injEq, decide_eq_true_eq] at hs
  have hsafe := sleep_safe 8 0 blankLinks twoSleepers hrun (by simp [hs.2])
  exact ⟨s, hrun, hs.1.1, hs.1.2, hsafe.1, hsafe.2.2.1 0 hs.1.1⟩

/-- A timer that has left the heaps does not come back before the thread has. -/
theorem SleepInv.exec_fired (h : SleepInv w s A B) (hc : s.Sleeping c) (hA : c ∉ A) (hB : c ∉ B)
    (hrun : Run.exec (SleepRun.step w) s es = some s') (hlt : s'.now < 2 ^ w)
    (hstay : .leave c ∉ es) :
    ∃ A' B', SleepInv w s' A' B' ∧ s'.Sleeping c ∧ c ∉ A' ∧ c ∉ B' := by
  induction es generalizing s A B with
  | nil =>
      cases hrun
      exact ⟨A, B, h, hc, hA, hB⟩
  | cons e es ih =>
      obtain ⟨t, hs, hrun⟩ := exec_cons_eq_some.mp hrun
      obtain ⟨hne, hstay⟩ := not_or.mp (mt List.mem_cons.mpr hstay)
      have hkeeps := step_keeps hs
      obtain ⟨A', B', h', hold⟩ := h.step ((hkeeps.1.trans (now_le_exec hrun)).trans_lt hlt) hs
      have htimed : s.pc c ≠ .timed := by obtain hc | hc := hc <;> simp [hc]
      exact ih h' (hkeeps.2 c (Ne.symm hne) hc).1 (fun hc' => hA ((hold c htimed).1 hc'))
        (fun hc' => hB ((hold c htimed).2 hc')) hrun hstay

/-- **A thread whose time has come is woken**: after a timer interrupt that finds its
timer due, as soon as the soft and the critical interrupt have nothing left to do, its
signal is set and it is runnable. -/
theorem sleep_wakes (w t₀ : ℕ) (links : WeightedLinks ν) (before after : List (SleepEvent ν))
    (hrun : exec (step w) (start w t₀ links) before = some s) (c : ν) (hc : s.Sleeping c)
    (hdue : s.due c ≤ s.now)
    (hrun' : exec (step w) s (.timerInterrupt :: after) = some s') (hlt : s'.now < 2 ^ w)
    (hstay : .leave c ∉ after) (hlist : s'.unit.softList = []) (hsoft : s'.soft = none)
    (hcritList : s'.critList = []) (hcrit : s'.crit = .head) :
    s'.contexts.thread c = .running ∧ s'.signal c = ⟨true, []⟩ := by
  have hnow := now_le_exec hrun'
  obtain ⟨A, B, h⟩ := sleepInv_start.exec hrun (hnow.trans_lt hlt)
  obtain ⟨t, hs, hrun'⟩ := exec_cons_eq_some.mp hrun'
  cases hs
  obtain ⟨hA, hB⟩ := h.overdue hc (hnow.trans_lt hlt) hdue
  obtain ⟨A', B', h', hc', hA', hB'⟩ := (h.timerInterrupt (hnow.trans_lt hlt)).exec_fired hc
    (fun hc' => hA.elim (fun hnot => hnot hc'.1) hc'.2) hB hrun' hlt hstay
  cases h'.fine c with
  | outside hpc => obtain hc' | hc' := hc' <;> cases hpc.symm.trans hc'
  | initialised hpc => obtain hc' | hc' := hc' <;> cases hpc.symm.trans hc'
  | timed hpc => obtain hc' | hc' := hc' <;> cases hpc.symm.trans hc'
  | asleep _ hq =>
      cases hq with
      | timers hmem => exact absurd hmem hA'
      | overflow hmem => exact absurd hmem hB'
      | fired hfired => simp [Fired, hlist, hsoft, hcritList, hcrit] at hfired
  | woken _ hidle hsignal => exact ⟨hidle.2, hsignal⟩

/-- A thread sleeps for three milliseconds. -/
def oneSleeper : List (SleepEvent ℕ) :=
  [.call 0 3, .timeGet 0, .register 0, .wait 0, .elapse, .elapse, .elapse]

theorem sleep_wakes_sample : ∃ s,
    exec (step 8) (start 8 0 blankLinks) (oneSleeper ++ .timerInterrupt :: wakeUp) = some s ∧
      s.contexts.thread 0 = .running ∧ s.signal 0 = ⟨true, []⟩ := by
  have hbefore : (exec (step 8) (start 8 0 blankLinks) oneSleeper).map
      (fun s => (s.pc 0, s.due 0, s.now)) = some (.waiting, 3, 3) := by decide
  have hafter : (exec (step 8) (start 8 0 blankLinks)
      (oneSleeper ++ .timerInterrupt :: wakeUp)).map
        (fun s => (s.now, s.unit.softList, s.soft, s.critList, s.crit)) =
          some (3, [], none, [], .head) := by decide
  obtain ⟨s', hwhole, hs'⟩ := Option.map_eq_some_iff.mp hafter
  have hrun' := hwhole
  rw [exec_append] at hrun'
  obtain ⟨s, hrun, hrun'⟩ := Option.bind_eq_some_iff.mp hrun'
  rw [hrun] at hbefore
  simp only [Option.map_some, Option.some.injEq, Prod.mk.injEq] at hbefore hs'
  obtain ⟨hpc, hdue, hnow⟩ := hbefore
  obtain ⟨hnow', hlist, hsoft, hcritList, hcrit⟩ := hs'
  exact ⟨s', hwhole, sleep_wakes 8 0 blankLinks oneSleeper wakeUp hrun 0 (.inr hpc) (by omega)
    hrun' (by omega) (by decide) hlist hsoft hcritList hcrit⟩

end SleepRun

end KernelPanic
