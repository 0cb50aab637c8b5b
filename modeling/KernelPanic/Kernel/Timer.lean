import KernelPanic.Kernel.Handler
import KernelPanic.Utils.Heap.Queue
import Mathlib.Data.List.Nodup

/-!
# KernelPanic.Kernel.Timer

The timer unit (`kernel/timer.c`) and the hardware countdown it programs
(`HalSetTimer` of `hal/unix_hal.c`).

Pending timers are in two heaps, keyed by the clock reading at which they are
due: `Timers`, and `TimersOverflow` for those due only after the clock has
wrapped.  The timer interrupt notices a wrap by a reading below its last one
and exchanges the heaps.

`TIME` is an unsigned integer of `w` bits, so sums and differences of readings
are taken modulo `2 ^ w`.  The clock itself is not modelled: a function that
calls `TimeGet` takes the reading as an argument.
-/

namespace KernelPanic

variable {ν : Type*} [DecidableEq ν]

/-! ## the hardware countdown -/

/-- `struct itimerval`, the fields `HalSetTimer` does not leave at zero. -/
structure TimerInterval where
  seconds : ℕ
  micros : ℕ
deriving DecidableEq

/-- `HalSetTimer`: the interval handed to `setitimer`. -/
def halSetTimer (delta : ℕ) : TimerInterval :=
  let seconds := delta / 1000
  let mills := delta % 1000
  let micros := mills * 1000
  let seconds := if seconds > 100000000 then 100000000 else seconds
  let micros := if seconds = 0 ∧ micros = 0 then 1000 else micros
  ⟨seconds, micros⟩

/-- The interval in microseconds. -/
def TimerInterval.total (i : TimerInterval) : ℕ := i.seconds * 1000000 + i.micros

/-- The countdown never runs longer than it is told to, but for its shortest
interval of one millisecond. -/
theorem halSetTimer_total (delta : ℕ) : (halSetTimer delta).total ≤ max 1000 (delta * 1000) := by
  unfold halSetTimer TimerInterval.total
  dsimp only
  split <;> split <;> omega

/-! ## the unit -/

/-- The timer unit's variables, the pool of timers, the soft interrupt's list
the fired timers go to, and the last value given to `HalSetTimer`. -/
structure TimerUnit (ν : Type*) where
  links : WeightedLinks ν
  /-- `State` of each timer's `HANDLER_OBJECT`. -/
  handler : ν → HandlerState
  timers : Heap ν
  timersOverflow : Heap ν
  timerLastTime : ℕ
  /-- `SoftInterruptHandlerList`, newest first. -/
  softList : List ν
  countdown : ℕ
  panicked : Bool

namespace TimerUnit

/-- `ASSERT(b)`. -/
def assert (u : TimerUnit ν) (b : Bool) : TimerUnit ν := { u with panicked := u.panicked || !b }

/-- `HandlerRun`. -/
def run (u : TimerUnit ν) (timer : ν) : TimerUnit ν :=
  let r := handlerRun (u.handler timer)
  { u with handler := Function.update u.handler timer r.1 }.assert r.2

/-- `HandlerRegister`. -/
def register (u : TimerUnit ν) (timer : ν) : TimerUnit ν :=
  let r := handlerRegister (u.handler timer)
  { u with handler := Function.update u.handler timer r.1 }.assert r.2

/-- `SoftInterruptRegisterHandler`. -/
def softInterruptRegisterHandler (u : TimerUnit ν) (timer : ν) : TimerUnit ν :=
  let u := u.register timer
  { u with softList := timer :: u.softList }

end TimerUnit

/-- `a - b` on `TIME`. -/
def timeSub (w a b : ℕ) : ℕ := (a + (2 ^ w - b)) % 2 ^ w

/-- `QueueTimers`: the timers due by `time` go to the soft interrupt.  The
unit and the heap after it; `fuel` is the heap's size. -/
def queueTimers (w time : ℕ) : ℕ → TimerUnit ν → Heap ν → TimerUnit ν × Heap ν
  | 0, u, heap => (u, heap)
  | fuel + 1, u, heap =>
      if heapSize heap > 0 ∧ heapHeadWeight u.links heap ≤ time then
        match heapPop w u.links heap with
        | some (some timer, links, heap) =>
            queueTimers w time fuel
              (({ u with links := links }.run timer).softInterruptRegisterHandler timer) heap
        | _ => (u.assert false, heap)
      else (u, heap)

/-- `TimerSetNextTimer`. -/
def timerSetNextTimer (w time : ℕ) (u : TimerUnit ν) : TimerUnit ν :=
  if heapSize u.timers > 0 then
    let nextTimer := heapHeadWeight u.links u.timers
    let delta := timeSub w nextTimer time
    { u with countdown := delta }
  else
    let rollover := timeSub w (2 ^ w - 1) time
    { u with countdown := (rollover + 1) % 2 ^ w }

/-- The wrap in `TimerInner`: `Timers` is drained and the heaps change
places. -/
def timerSwap (w : ℕ) (u : TimerUnit ν) : TimerUnit ν :=
  let r := queueTimers w (2 ^ w - 1) (heapSize u.timers) u u.timers
  let u := r.1.assert (heapSize r.2 = 0)
  { u with timers := u.timersOverflow, timersOverflow := r.2 }

/-- `TimerInner`. -/
def timerInner (w time : ℕ) (u : TimerUnit ν) : TimerUnit ν :=
  let u := if time < u.timerLastTime then timerSwap w u else u
  let r := queueTimers w time (heapSize u.timers) u u.timers
  let u := timerSetNextTimer w time { r.1 with timers := r.2 }
  { u with timerLastTime := time }

/-- `TimerRegister`, at the clock reading `time`. -/
def timerRegister (w : ℕ) (newTimer : ν) (wait time : ℕ) (u : TimerUnit ν) : TimerUnit ν :=
  let timerTime := (time + wait) % 2 ^ w
  let u := u.register newTimer
  let u :=
    if timerTime ≥ time then
      match heapAdd u.links timerTime newTimer u.timers with
      | some (links, timers) => { u with links := links, timers := timers }
      | none => u.assert false
    else
      match heapAdd u.links timerTime newTimer u.timersOverflow with
      | some (links, timers) => { u with links := links, timersOverflow := timers }
      | none => u.assert false
  timerSetNextTimer w time u

/-- `TimerStartup`, at the clock reading `time`; no timer is registered. -/
def timerStartup (w time : ℕ) (links : WeightedLinks ν) : TimerUnit ν :=
  timerSetNextTimer w time
    { links := links
      handler := fun _ => .ready
      timers := heapInit
      timersOverflow := heapInit
      timerLastTime := time
      softList := []
      countdown := 0
      panicked := false }

/-! ## QueueTimers -/

variable {w time : ℕ} {u : TimerUnit ν} {h : Heap ν} {s : Set ν}

/-- A timer that is queued goes from its heap to the soft interrupt and is
queued there. -/
theorem run_softInterruptRegisterHandler {timer : ν} (hq : u.handler timer = .queued) :
    (u.run timer).softInterruptRegisterHandler timer =
      { u with softList := timer :: u.softList } := by
  have hhandler : Function.update (Function.update u.handler timer .running) timer .queued =
      u.handler := by
    funext a
    by_cases ha : a = timer
    · subst ha
      rw [Function.update_self, hq]
    · rw [Function.update_of_ne ha, Function.update_of_ne ha]
  simp [TimerUnit.run, TimerUnit.softInterruptRegisterHandler, TimerUnit.register,
    TimerUnit.assert, handlerRun, handlerRegister, hq, hhandler]

omit [DecidableEq ν] in
/-- When the loop of `QueueTimers` stops, nothing in the heap is due. -/
theorem Holds.none_due {m : WeightedLinks ν} (hh : Holds w m h s)
    (hstop : ¬ (heapSize h > 0 ∧ heapHeadWeight m h ≤ time)) :
    (∀ a ∈ s, ¬ m.weight a ≤ time) ∧ s \ {a | m.weight a ≤ time} = s := by
  have hnone : ∀ a ∈ s, ¬ m.weight a ≤ time := by
    intro a ha
    obtain ⟨b, -, -, hhead, hmin⟩ := hh.headWeight ⟨a, ha⟩
    have hpos : heapSize h > 0 := hh.size_pos.mpr ⟨a, ha⟩
    have hle := hmin a ha
    rw [hhead] at hstop
    omega
  refine ⟨hnone, ?_⟩
  ext a
  exact ⟨fun ha => ha.1, fun ha => ⟨ha, hnone a ha⟩⟩

/-- **`QueueTimers`** moves exactly the timers due by `time` to the soft
interrupt, each once, and leaves the others in the heap. -/
theorem queueTimers_spec (time : ℕ) {fuel : ℕ} (hh : Holds w u.links h s)
    (hq : ∀ a ∈ s, u.handler a = .queued) (hf : h.size ≤ fuel) :
    ∃ fired links h', queueTimers w time fuel u h =
        ({ u with links := links, softList := fired ++ u.softList }, h') ∧
      fired.Nodup ∧ (∀ a, a ∈ fired ↔ a ∈ s ∧ u.links.weight a ≤ time) ∧
      links.weight = u.links.weight ∧
      Holds w links h' (s \ {a | u.links.weight a ≤ time}) ∧
      ∀ x, x ∉ s → SameLinks u.links links x := by
  induction fuel generalizing u h s with
  | zero =>
      have hstop : ¬ (heapSize h > 0 ∧ heapHeadWeight u.links h ≤ time) := fun hand => by
        have := hand.1
        unfold heapSize at this
        omega
      obtain ⟨hnone, hs⟩ := hh.none_due hstop
      exact ⟨[], u.links, h, rfl, List.nodup_nil, fun a => by simpa using hnone a, rfl,
        hs.symm ▸ hh, fun _ _ => .refl⟩
  | succ fuel ih =>
      by_cases hgo : heapSize h > 0 ∧ heapHeadWeight u.links h ≤ time
      · have hne : s.Nonempty := hh.size_pos.mp hgo.1
        obtain ⟨a, links, h', hpop, hhead, has, -, hholds, hweight, hsize, hframe⟩ := hh.pop hne
        have hdue : u.links.weight a ≤ time := by simpa [heapHeadWeight, hhead] using hgo.2
        let u' : TimerUnit ν := { u with links := links, softList := a :: u.softList }
        have hstep : queueTimers w time (fuel + 1) u h = queueTimers w time fuel u' h' := by
          have hrun : (({ u with links := links } : TimerUnit ν).run a).softInterruptRegisterHandler a
              = u' := run_softInterruptRegisterHandler (hq a has)
          simp only [queueTimers, if_pos hgo, hpop, hrun]
        obtain ⟨fired, links', h'', hrun, hnodup, hmem, hweight', hholds', hframe'⟩ :=
          ih (u := u') hholds (fun b hb => hq b hb.1) (by omega)
        have hweight'' : links'.weight = u.links.weight := hweight'.trans hweight
        have hdue' : ∀ b, u'.links.weight b = u.links.weight b := fun b => congrFun hweight b
        refine ⟨fired ++ [a], links', h'', ?_, ?_, fun b => ?_, hweight'', ?_, fun x hx => ?_⟩
        · rw [hstep, hrun]
          simp [u']
        · refine List.nodup_append.mpr ⟨hnodup, List.nodup_singleton a, fun b hb c hc => ?_⟩
          rw [List.mem_singleton] at hc
          exact hc ▸ ((hmem b).mp hb).1.2
        · rw [List.mem_append, List.mem_singleton, hmem, hdue']
          constructor
          · rintro (⟨hb, hle⟩ | rfl)
            · exact ⟨hb.1, hle⟩
            · exact ⟨has, hdue⟩
          · rintro ⟨hb, hle⟩
            by_cases hba : b = a
            · exact .inr hba
            · exact .inl ⟨⟨hb, hba⟩, hle⟩
        · have hs : (s \ {a}) \ {b | u'.links.weight b ≤ time} =
              s \ {b | u.links.weight b ≤ time} := by
            ext b
            simp only [Set.mem_sdiff, Set.mem_singleton_iff, Set.mem_ofPred_eq, hdue']
            constructor
            · exact fun hb => ⟨hb.1.1, hb.2⟩
            · exact fun hb => ⟨⟨hb.1, fun hba => hb.2 (hba ▸ hdue)⟩, hb.2⟩
          rw [← hs]
          exact hholds'
        · exact (hframe x hx).trans (hframe' x fun hxs => hx hxs.1)
      · obtain ⟨hnone, hs⟩ := hh.none_due hgo
        exact ⟨[], u.links, h, by simp [queueTimers, hgo], List.nodup_nil,
          fun a => by simpa using hnone a, rfl, hs.symm ▸ hh, fun _ _ => .refl⟩

/-! ## the invariant -/

/-- `Timers` holds `A` and `TimersOverflow` holds `B`, a timer is queued exactly
when it is in one of the heaps or with the soft interrupt, and no assertion
has failed. -/
structure TimerInv (w : ℕ) (u : TimerUnit ν) (A B : Set ν) : Prop where
  timers : Holds w u.links u.timers A
  overflow : Holds w u.links u.timersOverflow B
  disjoint : ∀ a ∈ A, a ∉ B
  pending : ∀ a, a ∈ A ∨ a ∈ B ↔ u.handler a = .queued ∧ a ∉ u.softList
  soft : ∀ a ∈ u.softList, u.handler a = .queued
  nodup : u.softList.Nodup
  fine : u.panicked = false

/-- From `u` to `u'`, `fired` went to the soft interrupt; weights and handlers
are as before. -/
structure Fires (u u' : TimerUnit ν) (fired : List ν) : Prop where
  softList : u'.softList = fired ++ u.softList
  weight : u'.links.weight = u.links.weight
  handler : u'.handler = u.handler
  lastTime : u'.timerLastTime = u.timerLastTime

variable {u' : TimerUnit ν} {A B : Set ν}

omit [DecidableEq ν] in
theorem Fires.refl : Fires u u [] := ⟨rfl, rfl, rfl, rfl⟩

omit [DecidableEq ν] in
theorem Fires.trans {u'' : TimerUnit ν} {fired fired' : List ν} (h : Fires u u' fired)
    (h' : Fires u' u'' fired') : Fires u u'' (fired' ++ fired) where
  softList := by rw [h'.softList, h.softList, List.append_assoc]
  weight := h'.weight.trans h.weight
  handler := h'.handler.trans h.handler
  lastTime := h'.lastTime.trans h.lastTime

omit [DecidableEq ν] in
/-- The invariant does not read the countdown or the last time. -/
theorem TimerInv.congr (h : TimerInv w u A B) {t c : ℕ} :
    TimerInv w { u with timerLastTime := t, countdown := c } A B :=
  ⟨h.timers, h.overflow, h.disjoint, h.pending, h.soft, h.nodup, h.fine⟩

omit [DecidableEq ν] in
theorem timerInv_startup {links : WeightedLinks ν} :
    TimerInv w (timerStartup w time links) ∅ ∅ := by
  unfold timerStartup timerSetNextTimer
  split <;> exact ⟨holds_init, holds_init, by simp, by simp, by simp, by simp, rfl⟩

/-- `QueueTimers(time, Timers)`. -/
theorem TimerInv.queue (time : ℕ) (h : TimerInv w u A B) :
    let r := queueTimers w time (heapSize u.timers) u u.timers
    let u' := { r.1 with timers := r.2 }
    TimerInv w u' (A \ {a | u.links.weight a ≤ time}) B ∧
      u'.timersOverflow = u.timersOverflow ∧
      ∃ fired, Fires u u' fired ∧ ∀ a, a ∈ fired ↔ a ∈ A ∧ u.links.weight a ≤ time := by
  have hq : ∀ a ∈ A, u.handler a = .queued := fun a ha => ((h.pending a).mp (.inl ha)).1
  obtain ⟨fired, links, heap, hrun, hnodup, hmem, hweight, hholds, hframe⟩ :=
    queueTimers_spec time h.timers hq le_rfl
  have hsoft : ∀ a ∈ fired, a ∉ u.softList := fun a ha =>
    ((h.pending a).mp (.inl ((hmem a).mp ha).1)).2
  dsimp only
  rw [heapSize, hrun]
  refine ⟨⟨hholds, ?_, fun a ha => h.disjoint a ha.1, fun a => ?_, fun a ha => ?_, ?_, h.fine⟩, rfl,
    fired, ⟨rfl, hweight, rfl, rfl⟩, hmem⟩
  · exact h.overflow.frame (fun a ha => hframe a fun haA => h.disjoint a haA ha)
      fun a _ => congrFun hweight a
  · have hpend := h.pending a
    have hfired := hmem a
    simp only [Set.mem_sdiff, Set.mem_ofPred_eq, List.mem_append, not_or]
    have hdisj := h.disjoint a
    tauto
  · obtain ha | ha := List.mem_append.mp ha
    · exact hq a ((hmem a).mp ha).1
    · exact h.soft a ha
  · exact List.nodup_append.mpr ⟨hnodup, h.nodup, fun a ha b hb hab => hsoft a ha (hab ▸ hb)⟩

/-- **The wrap**: `Timers` is drained completely, so that the assertion holds,
and the heaps change places. -/
theorem TimerInv.swap (h : TimerInv w u A B) :
    TimerInv w (timerSwap w u) B ∅ ∧
      ∃ fired, Fires u (timerSwap w u) fired ∧ ∀ a, a ∈ fired ↔ a ∈ A := by
  obtain ⟨hinv, hover, fired, hfires, hmem⟩ := h.queue (2 ^ w - 1)
  have hempty : A \ {a | u.links.weight a ≤ 2 ^ w - 1} = ∅ := by
    ext a
    simp only [Set.mem_sdiff, Set.mem_ofPred_eq, Set.mem_empty_iff_false, iff_false, not_and,
      not_not]
    exact h.timers.weight_le
  rw [hempty] at hinv
  unfold timerSwap
  generalize queueTimers w (2 ^ w - 1) (heapSize u.timers) u u.timers = r at hinv hover hfires ⊢
  have hsize : heapSize r.2 = 0 := by
    have := mt hinv.timers.size_pos.mp Set.not_nonempty_empty
    unfold heapSize
    simp only [] at this
    omega
  have hpanic : (r.1.panicked || !decide (heapSize r.2 = 0)) = false := by
    have := hinv.fine
    simp only [] at this
    simp [this, hsize]
  refine ⟨⟨hinv.overflow, hinv.timers, by simp, fun a => ?_, hinv.soft, hinv.nodup, hpanic⟩,
    fired, ⟨hfires.softList, hfires.weight, hfires.handler, hfires.lastTime⟩, fun a => ?_⟩
  · rw [or_comm]
    exact hinv.pending a
  · rw [hmem]
    exact ⟨fun ha => ha.1, fun ha => ⟨ha, h.timers.weight_le ha⟩⟩

omit [DecidableEq ν] in
theorem timerSetNextTimer_eq (w time : ℕ) (u : TimerUnit ν) :
    timerSetNextTimer w time u =
      { u with countdown := (timerSetNextTimer w time u).countdown } := by
  unfold timerSetNextTimer
  split <;> rfl

/-- **`TimerInner`**: which timers fire, and which heaps are left. -/
theorem TimerInv.inner (time : ℕ) (h : TimerInv w u A B) :
    let A₁ := if time < u.timerLastTime then B else A
    let B₁ := if time < u.timerLastTime then ∅ else B
    TimerInv w (timerInner w time u) (A₁ \ {a | u.links.weight a ≤ time}) B₁ ∧
      (timerInner w time u).timerLastTime = time ∧
      (timerInner w time u).links.weight = u.links.weight ∧
      (timerInner w time u).handler = u.handler ∧
      ∃ fired, (timerInner w time u).softList = fired ++ u.softList ∧
        ∀ a, a ∈ fired ↔ (time < u.timerLastTime ∧ a ∈ A) ∨ (a ∈ A₁ ∧ u.links.weight a ≤ time) := by
  intro A₁ B₁
  obtain ⟨u₁, hu₁, hinv₁, fired₁, hfires₁, hmem₁⟩ : ∃ u₁ : TimerUnit ν,
      u₁ = (if time < u.timerLastTime then timerSwap w u else u) ∧ TimerInv w u₁ A₁ B₁ ∧
      ∃ fired, Fires u u₁ fired ∧ ∀ a, a ∈ fired ↔ time < u.timerLastTime ∧ a ∈ A := by
    refine ⟨_, rfl, ?_⟩
    by_cases hlt : time < u.timerLastTime
    · simp only [A₁, B₁, hlt, if_true, true_and]
      exact h.swap
    · simp only [A₁, B₁, hlt, if_false, false_and]
      exact ⟨h, [], .refl, by simp⟩
  obtain ⟨hinv, -, fired, hfires, hmem⟩ := hinv₁.queue time
  have hall := hfires₁.trans hfires
  unfold timerInner
  rw [← hu₁]
  dsimp only
  rw [timerSetNextTimer_eq]
  refine ⟨?_, rfl, hall.weight, hall.handler, fired ++ fired₁, hall.softList, fun a => ?_⟩
  · rw [← hfires₁.weight]
    exact hinv.congr
  · rw [List.mem_append, hmem, hmem₁, hfires₁.weight, or_comm]

/-- `HandlerRegister` of a timer that is not queued. -/
theorem TimerUnit.register_eq {timer : ν} (hr : u.handler timer ≠ .queued) :
    u.register timer = { u with handler := Function.update u.handler timer .queued } := by
  have hok : (u.handler timer = .ready || u.handler timer = .running) = true := by
    cases hs : u.handler timer <;> simp_all
  simp [TimerUnit.register, TimerUnit.assert, handlerRegister, hok]

section Register

variable {timer : ν} (hi : TimerInv w u A B) (hr : u.handler timer ≠ .queued)
include hi hr

omit [DecidableEq ν] in
/-- A timer that is not queued is nowhere. -/
theorem TimerInv.fresh : timer ∉ A ∧ timer ∉ B ∧ timer ∉ u.softList :=
  ⟨fun ha => hr ((hi.pending timer).mp (.inl ha)).1, fun hb => hr ((hi.pending timer).mp (.inr hb)).1,
    fun hs => hr (hi.soft timer hs)⟩

theorem TimerInv.pending_insert (a : ν) :
    a = timer ∨ a ∈ A ∨ a ∈ B ↔
      Function.update u.handler timer .queued a = .queued ∧ a ∉ u.softList := by
  by_cases ha : a = timer
  · subst ha
    simp [(hi.fresh hr).2.2]
  · rw [Function.update_of_ne ha, ← hi.pending a]
    simp [ha]

theorem TimerInv.soft_insert :
    ∀ a ∈ u.softList, Function.update u.handler timer .queued a = .queued := by
  intro a ha
  have hne : a ≠ timer := fun hat => (hi.fresh hr).2.2 (hat ▸ ha)
  rw [Function.update_of_ne hne]
  exact hi.soft a ha

/-- **`TimerRegister`** of a timer that is not queued: it goes to `Timers`, or
to `TimersOverflow` when its sum wraps. -/
theorem TimerInv.register (wait time : ℕ) :
    let d := (time + wait) % 2 ^ w
    let u' := timerRegister w timer wait time u
    TimerInv w u' (if d ≥ time then insert timer A else A) (if d ≥ time then B else insert timer B) ∧
      u'.softList = u.softList ∧ u'.links.weight = Function.update u.links.weight timer d ∧
      u'.handler = Function.update u.handler timer .queued ∧
      u'.timerLastTime = u.timerLastTime := by
  intro d u'
  obtain ⟨hA, hB, -⟩ := hi.fresh hr
  have hd : d ≤ 2 ^ w - 1 := Nat.le_sub_one_of_lt (Nat.mod_lt _ (Nat.two_pow_pos w))
  have hu' : u' = timerRegister w timer wait time u := rfl
  unfold timerRegister at hu'
  rw [TimerUnit.register_eq hr] at hu'
  dsimp only at hu'
  by_cases hge : d ≥ time
  · obtain ⟨m, heap, hadd, hholds, hweight, -, hframe⟩ := hi.timers.add hA hd
    have hpos : (time + wait) % 2 ^ w ≥ time := hge
    rw [if_pos hpos, hadd, timerSetNextTimer_eq] at hu'
    simp only [hge, if_true]
    rw [hu']
    refine ⟨⟨hholds, ?_, fun a ha hb => ?_, fun a => ?_, hi.soft_insert hr, hi.nodup, hi.fine⟩,
      rfl, hweight, rfl, rfl⟩
    · refine hi.overflow.frame (fun a ha => hframe a (fun haA => hi.disjoint a haA ha) ?_)
        fun a ha => ?_
      · exact fun hat => hB (hat ▸ ha)
      · have hat : a ≠ timer := fun hat => hB (hat ▸ ha)
        rw [hweight, Function.update_of_ne hat]
    · obtain rfl | ha := Set.mem_insert_iff.mp ha
      · exact hB hb
      · exact hi.disjoint a ha hb
    · rw [Set.mem_insert_iff, or_assoc]
      exact hi.pending_insert hr a
  · obtain ⟨m, heap, hadd, hholds, hweight, -, hframe⟩ := hi.overflow.add hB hd
    have hneg : ¬ (time + wait) % 2 ^ w ≥ time := hge
    rw [if_neg hneg, hadd, timerSetNextTimer_eq] at hu'
    simp only [hge, if_false]
    rw [hu']
    refine ⟨⟨?_, hholds, fun a ha hb => ?_, fun a => ?_, hi.soft_insert hr, hi.nodup, hi.fine⟩,
      rfl, hweight, rfl, rfl⟩
    · refine hi.timers.frame (fun a ha => hframe a (hi.disjoint a ha) ?_) fun a ha => ?_
      · exact fun hat => hA (hat ▸ ha)
      · have hat : a ≠ timer := fun hat => hA (hat ▸ ha)
        rw [hweight, Function.update_of_ne hat]
    · obtain rfl | hb := Set.mem_insert_iff.mp hb
      · exact hA ha
      · exact hi.disjoint a ha hb
    · rw [Set.mem_insert_iff, or_left_comm]
      exact hi.pending_insert hr a

end Register

end KernelPanic
