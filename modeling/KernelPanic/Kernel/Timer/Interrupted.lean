import KernelPanic.Kernel.Timer.WrapAround

/-!
# KernelPanic.Kernel.Timer.Interrupted

`TimerRegister` with timer interrupts in its open windows.  It reads the clock
before it disables interrupts, and programs the hardware countdown after it has
enabled them again; there `TimerSetNextTimer` first tests the size of `Timers` and
then reads its head.  An interrupt in between may empty the heap, or put the other
one in its place.

`registerSafe_iff` says when none of this does harm.
-/

namespace KernelPanic

variable {ν : Type*} [DecidableEq ν]

/-! ## the code -/

/-- The timer unit, and the epoch of the clock that `Timers` is for: how often the
clock has wrapped.  `TimersOverflow` is for the next one. -/
structure EpochUnit (ν : Type*) where
  unit : TimerUnit ν
  epoch : ℕ

/-- `TimerInterrupt`, at a reading of the clock. -/
def EpochUnit.interrupt (w : ℕ) (s : EpochUnit ν) (reading : ℕ) : EpochUnit ν where
  unit := timerInner w reading s.unit
  epoch := s.epoch + if reading < s.unit.timerLastTime then 1 else 0

/-- Timer interrupts, one after the other. -/
def EpochUnit.interrupts (w : ℕ) (s : EpochUnit ν) (readings : List ℕ) : EpochUnit ν :=
  readings.foldl (EpochUnit.interrupt w) s

/-- `TimerRegister`, from `IsrDisable` to `IsrEnable`. -/
def timerInsert (w : ℕ) (newTimer : ν) (wait time : ℕ) (u : TimerUnit ν) : TimerUnit ν :=
  let timerTime := (time + wait) % 2 ^ w
  let u := u.register newTimer
  if timerTime ≥ time then
    match heapAdd u.links timerTime newTimer u.timers with
    | some (links, timers) => { u with links := links, timers := timers }
    | none => u.assert false
  else
    match heapAdd u.links timerTime newTimer u.timersOverflow with
    | some (links, timers) => { u with links := links, timersOverflow := timers }
    | none => u.assert false

/-- The readings of the timer interrupts during a call of `TimerRegister`, by where
they come: between the clock reading and `IsrDisable`, between `IsrEnable` and the
size test of `TimerSetNextTimer`, and between that and `HeapHeadWeight`. -/
structure Delivered where
  beforeDisable : List ℕ
  beforeTest : List ℕ
  beforeRead : List ℕ
deriving DecidableEq

variable (w : ℕ) (newTimer : ν) (wait time : ℕ) (d : Delivered) (s : EpochUnit ν)

/-- The unit after `IsrEnable`. -/
def EpochUnit.inserted : EpochUnit ν :=
  let s := s.interrupts w d.beforeDisable
  { s with unit := timerInsert w newTimer wait time s.unit }

/-- The unit at the size test. -/
def EpochUnit.tested : EpochUnit ν := (s.inserted w newTimer wait time d).interrupts w d.beforeTest

/-- The unit at `HeapHeadWeight`. -/
def EpochUnit.read : EpochUnit ν := (s.tested w newTimer wait time d).interrupts w d.beforeRead

/-- `TimerRegister`, at the clock reading `time`. -/
def timerRegisterInterrupted : EpochUnit ν :=
  let tested := s.tested w newTimer wait time d
  let s := s.read w newTimer wait time d
  let delta :=
    if heapSize tested.unit.timers > 0 then
      timeSub w (heapHeadWeight s.unit.links s.unit.timers) time
    else (timeSub w (2 ^ w - 1) time + 1) % 2 ^ w
  { s with unit := { s.unit with countdown := delta } }

/-- Without interrupts this is `TimerRegister`. -/
theorem timerRegisterInterrupted_nil :
    timerRegisterInterrupted w newTimer wait time ⟨[], [], []⟩ s =
      { s with unit := timerRegister w newTimer wait time s.unit } := by
  show _ = { s with unit := timerSetNextTimer w time (timerInsert w newTimer wait time s.unit) }
  simp only [timerRegisterInterrupted, timerSetNextTimer, EpochUnit.read, EpochUnit.tested,
    EpochUnit.inserted, EpochUnit.interrupts, List.foldl_nil]
  split <;> simp_all

/-- The heaps that `QueueTimers` applies `HeapHeadWeight` to. -/
def queueReads : ℕ → TimerUnit ν → Heap ν → List (Heap ν)
  | 0, _, _ => []
  | fuel + 1, u, heap =>
      if heapSize heap > 0 then
        if heapHeadWeight u.links heap ≤ time then
          match heapPop w u.links heap with
          | some (some timer, links, heap') =>
              heap :: queueReads fuel
                (({ u with links := links }.run timer).softInterruptRegisterHandler timer) heap'
          | _ => [heap]
        else [heap]
      else []

/-- The heap that `TimerSetNextTimer` applies `HeapHeadWeight` to. -/
def nextReads (u : TimerUnit ν) : List (Heap ν) := if heapSize u.timers > 0 then [u.timers] else []

/-- The heaps that `TimerInner` applies `HeapHeadWeight` to. -/
def innerReads (u : TimerUnit ν) : List (Heap ν) :=
  let wrapped := time < u.timerLastTime
  let u' := if wrapped then timerSwap w u else u
  let r := queueTimers w time (heapSize u'.timers) u' u'.timers
  (if wrapped then queueReads w (2 ^ w - 1) (heapSize u.timers) u u.timers else []) ++
    queueReads w time (heapSize u'.timers) u' u'.timers ++ nextReads { r.1 with timers := r.2 }

/-- The heaps that interrupts apply `HeapHeadWeight` to. -/
def interruptReads : List ℕ → EpochUnit ν → List (Heap ν)
  | [], _ => []
  | reading :: readings, s =>
      innerReads w reading s.unit ++ interruptReads readings (s.interrupt w reading)

/-- The heaps that are read during a call of `TimerRegister`. -/
def registerReads : List (Heap ν) :=
  interruptReads w d.beforeDisable s ++
    interruptReads w d.beforeTest (s.inserted w newTimer wait time d) ++
    interruptReads w d.beforeRead (s.tested w newTimer wait time d) ++
    if heapSize (s.tested w newTimer wait time d).unit.timers > 0 then
      [(s.read w newTimer wait time d).unit.timers] else []

/-! ## what may go wrong -/

/-- The timer is in the heap for the epoch. -/
def InHeapOf (a : ν) (epoch : ℕ) : Prop :=
  ∃ A B, TimerInv w s.unit A B ∧ (a ∈ A ∧ s.epoch = epoch ∨ a ∈ B ∧ s.epoch + 1 = epoch)

/-- `TimerRegister` at true time `now`: every heap whose head is read has one, the
size test and the head read after it see the same heap, and the timer goes to the
heap for the epoch in which it is due. -/
structure RegisterSafe (now : ℕ) : Prop where
  heads : ∀ heap ∈ registerReads w newTimer wait (now % 2 ^ w) d s, heap.head ≠ none
  same : heapSize (s.tested w newTimer wait (now % 2 ^ w) d).unit.timers > 0 →
    (s.read w newTimer wait (now % 2 ^ w) d).unit.timers =
        (s.tested w newTimer wait (now % 2 ^ w) d).unit.timers ∧
      (s.read w newTimer wait (now % 2 ^ w) d).unit.links =
        (s.tested w newTimer wait (now % 2 ^ w) d).unit.links
  epoch : InHeapOf w (s.inserted w newTimer wait (now % 2 ^ w) d) newTimer ((now + wait) / 2 ^ w)

/-- The readings do not go back from `last` on, and none comes up to `head`. -/
def Quiet (head : ℕ) : ℕ → List ℕ → Prop
  | _, [] => True
  | last, reading :: readings => last ≤ reading ∧ reading < head ∧ Quiet head reading readings

/-- How often the readings go back from `last` on. -/
def wraps : ℕ → List ℕ → ℕ
  | _, [] => 0
  | last, reading :: readings => (if reading < last then 1 else 0) + wraps reading readings

/-- Where the size test finds a timer, no interrupt before the head read finds the
clock wrapped or the first timer due; and up to `IsrDisable` the interrupts have
noticed the wraps up to the clock reading, and no others. -/
structure Undisturbed (now : ℕ) : Prop where
  quiet : heapSize (s.tested w newTimer wait (now % 2 ^ w) d).unit.timers > 0 →
    Quiet
      (heapHeadWeight (s.tested w newTimer wait (now % 2 ^ w) d).unit.links
        (s.tested w newTimer wait (now % 2 ^ w) d).unit.timers)
      (s.tested w newTimer wait (now % 2 ^ w) d).unit.timerLastTime d.beforeRead
  epoch : s.epoch + wraps s.unit.timerLastTime d.beforeDisable = now / 2 ^ w

/-! ## interrupts -/

variable {w newTimer wait time d s} {u : TimerUnit ν} {h : Heap ν} {A B S : Set ν} {reading : ℕ}
  {readings : List ℕ}

omit [DecidableEq ν] in
/-- A heap that is not empty has a head. -/
theorem Holds.head_ne_none {m : WeightedLinks ν} (hh : Holds w m h S) (hpos : heapSize h > 0) :
    h.head ≠ none := by
  obtain ⟨a, -, hhead, -⟩ := hh.headWeight (hh.size_pos.mp hpos)
  rw [hhead]
  exact Option.some_ne_none a

/-- `QueueTimers` reads no head that is not there. -/
theorem Holds.queueReads {fuel : ℕ} (hh : Holds w u.links h S)
    (hq : ∀ a ∈ S, u.handler a = .queued) :
    ∀ heap ∈ queueReads w time fuel u h, heap.head ≠ none := by
  induction fuel generalizing u h S with
  | zero => simp [KernelPanic.queueReads]
  | succ fuel ih =>
      unfold KernelPanic.queueReads
      by_cases hpos : heapSize h > 0
      · have hhead := hh.head_ne_none hpos
        obtain ⟨a, links, h', hpop, -, has, -, hholds, -, -, -⟩ := hh.pop (hh.size_pos.mp hpos)
        rw [if_pos hpos]
        by_cases hdue : heapHeadWeight u.links h ≤ time
        · rw [if_pos hdue, hpop]
          have hrun : (({ u with links := links } : TimerUnit ν).run a).softInterruptRegisterHandler a
              = { u with links := links, softList := a :: u.softList } :=
            run_softInterruptRegisterHandler (hq a has)
          dsimp only
          rw [hrun]
          exact List.forall_mem_cons.mpr ⟨hhead, ih hholds fun b hb => hq b hb.1⟩
        · rw [if_neg hdue]
          exact List.forall_mem_singleton.mpr hhead
      · rw [if_neg hpos]
        simp

theorem TimerInv.queueReads (h : TimerInv w u A B) (time fuel : ℕ) :
    ∀ heap ∈ queueReads w time fuel u u.timers, heap.head ≠ none :=
  h.timers.queueReads fun a ha => ((h.pending a).mp (.inl ha)).1

omit [DecidableEq ν] in
theorem TimerInv.nextReads (h : TimerInv w u A B) : ∀ heap ∈ nextReads u, heap.head ≠ none := by
  unfold KernelPanic.nextReads
  split
  · next hpos => exact List.forall_mem_singleton.mpr (h.timers.head_ne_none hpos)
  · simp

/-- **An interrupt reads no head that is not there.** -/
theorem TimerInv.innerReads (h : TimerInv w u A B) (time : ℕ) :
    ∀ heap ∈ innerReads w time u, heap.head ≠ none := by
  unfold KernelPanic.innerReads
  dsimp only
  by_cases hwrap : time < u.timerLastTime
  · rw [if_pos hwrap, if_pos hwrap]
    have hswap := h.swap.1
    exact List.forall_mem_append.mpr ⟨List.forall_mem_append.mpr
      ⟨h.queueReads _ _, hswap.queueReads _ _⟩, (hswap.queue time).1.nextReads⟩
  · rw [if_neg hwrap, if_neg hwrap, List.nil_append]
    exact List.forall_mem_append.mpr ⟨h.queueReads _ _, (h.queue time).1.nextReads⟩

/-- An interrupt brings no timer into the heaps, and takes the first one out when it
finds the clock wrapped or that timer due. -/
theorem TimerInv.interrupt (h : TimerInv w s.unit A B) (reading : ℕ) :
    ∃ A' B', TimerInv w (s.interrupt w reading).unit A' B' ∧
      (∀ a, a ∈ A' ∨ a ∈ B' → a ∈ A ∨ a ∈ B) ∧
      (s.interrupt w reading).unit.handler = s.unit.handler ∧
      ∀ a ∈ A, reading < s.unit.timerLastTime ∨ s.unit.links.weight a ≤ reading →
        ¬ (a ∈ A' ∨ a ∈ B') := by
  obtain ⟨hinv, -, -, hhandler, -⟩ := h.inner reading
  refine ⟨_, _, hinv, fun a ha => ?_, hhandler, fun a ha hout => ?_⟩
  · by_cases hwrap : reading < s.unit.timerLastTime
    · simp only [hwrap, if_true, Set.mem_sdiff, Set.mem_empty_iff_false, or_false] at ha
      exact .inr ha.1
    · simp only [hwrap, if_false, Set.mem_sdiff] at ha
      exact ha.imp_left And.left
  · have hdisj := h.disjoint a ha
    by_cases hwrap : reading < s.unit.timerLastTime
    · simp [hwrap, hdisj]
    · simp [hwrap, hdisj, hout.resolve_left hwrap]

/-- Interrupts, one after the other. -/
theorem TimerInv.interrupts (h : TimerInv w s.unit A B) (readings : List ℕ) :
    (∃ A' B', TimerInv w (s.interrupts w readings).unit A' B' ∧
      (∀ a, a ∈ A' ∨ a ∈ B' → a ∈ A ∨ a ∈ B)) ∧
      (s.interrupts w readings).unit.handler = s.unit.handler ∧
      ∀ heap ∈ interruptReads w readings s, heap.head ≠ none := by
  induction readings generalizing s A B with
  | nil => exact ⟨⟨A, B, h, fun _ ha => ha⟩, rfl, by simp [interruptReads]⟩
  | cons reading readings ih =>
      obtain ⟨A', B', hinv, hsub, hhandler, -⟩ := h.interrupt reading
      obtain ⟨⟨A'', B'', hinv', hsub'⟩, hhandler', hreads⟩ := ih hinv
      exact ⟨⟨A'', B'', hinv', fun a ha => hsub a (hsub' a ha)⟩, hhandler'.trans hhandler,
        List.forall_mem_append.mpr ⟨h.innerReads reading, hreads⟩⟩

/-- The epoch counts the wraps that the interrupts notice. -/
theorem interrupts_epoch : (s.interrupts w readings).epoch =
    s.epoch + wraps s.unit.timerLastTime readings := by
  induction readings generalizing s with
  | nil => rfl
  | cons reading readings ih =>
      show ((s.interrupt w reading).interrupts w readings).epoch = _
      rw [ih, wraps, ← Nat.add_assoc]
      rfl

/-- An interrupt that finds neither a wrap nor a timer due. -/
theorem interrupt_quiet (hlast : s.unit.timerLastTime ≤ reading)
    (hhead : ¬ (heapSize s.unit.timers > 0 ∧ heapHeadWeight s.unit.links s.unit.timers ≤ reading)) :
    (s.interrupt w reading).unit.timers = s.unit.timers ∧
      (s.interrupt w reading).unit.links = s.unit.links ∧
      (s.interrupt w reading).unit.timerLastTime = reading := by
  have hqueue : ∀ fuel, queueTimers w reading fuel s.unit s.unit.timers = (s.unit, s.unit.timers) := by
    intro fuel
    cases fuel with
    | zero => rfl
    | succ fuel => exact if_neg hhead
  unfold EpochUnit.interrupt timerInner
  dsimp only
  rw [if_neg (not_lt.mpr hlast), hqueue, timerSetNextTimer_eq]
  exact ⟨rfl, rfl, rfl⟩

/-- **Interrupts leave `Timers` as it is** exactly when they are quiet. -/
theorem interrupts_same_iff (h : TimerInv w s.unit A B) (hpos : heapSize s.unit.timers > 0) :
    ((s.interrupts w readings).unit.timers = s.unit.timers ∧
        (s.interrupts w readings).unit.links = s.unit.links) ↔
      Quiet (heapHeadWeight s.unit.links s.unit.timers) s.unit.timerLastTime readings := by
  induction readings generalizing s A B with
  | nil => exact iff_of_true ⟨rfl, rfl⟩ trivial
  | cons reading readings ih =>
      show (((s.interrupt w reading).interrupts w readings).unit.timers = _ ∧
        ((s.interrupt w reading).interrupts w readings).unit.links = _) ↔ _ ∧ _ ∧ _
      by_cases hquiet : s.unit.timerLastTime ≤ reading ∧
          reading < heapHeadWeight s.unit.links s.unit.timers
      · obtain ⟨A', B', hinv, -⟩ := h.interrupt reading
        obtain ⟨htimers, hlinks, hlast⟩ := interrupt_quiet (w := w) hquiet.1
          (fun hand => absurd hand.2 (not_le.mpr hquiet.2))
        have hrest := ih hinv (htimers.symm ▸ hpos)
        rw [htimers, hlinks, hlast] at hrest
        rw [hrest]
        exact ⟨fun hq => ⟨hquiet.1, hquiet.2, hq⟩, fun hq => hq.2.2⟩
      · -- the first timer leaves the heaps, and no interrupt brings it back
        obtain ⟨a, ha, -, hweight, -⟩ := h.timers.headWeight (h.timers.size_pos.mp hpos)
        obtain ⟨A', B', hinv, -, -, hgone⟩ := h.interrupt reading
        obtain ⟨⟨A'', B'', hinv', hsub⟩, -⟩ := hinv.interrupts readings
        refine iff_of_false (fun hsame => ?_) fun hq => hquiet ⟨hq.1, hq.2.1⟩
        have hholds := hinv'.timers
        rw [hsame.1, hsame.2] at hholds
        have hback : a ∈ A'' := hholds.unique h.timers ▸ ha
        refine hgone a ha ?_ (hsub a (.inl hback))
        rw [← hweight]
        omega

/-! ## the registration -/

theorem TimerInv.insert (h : TimerInv w u A B) (hr : u.handler newTimer ≠ .queued)
    (wait time : ℕ) :
    TimerInv w (timerInsert w newTimer wait time u)
      (if (time + wait) % 2 ^ w ≥ time then insert newTimer A else A)
      (if (time + wait) % 2 ^ w ≥ time then B else insert newTimer B) := by
  have hinv := (h.register hr wait time).1
  rw [show timerRegister w newTimer wait time u =
    timerSetNextTimer w time (timerInsert w newTimer wait time u) from rfl, timerSetNextTimer_eq] at hinv
  exact hinv.congr (t := (timerInsert w newTimer wait time u).timerLastTime)
    (c := (timerInsert w newTimer wait time u).countdown)

/-- The timer goes to the heap for the epoch in which it is due exactly when
`Timers` is the heap for the epoch of the clock reading. -/
theorem inHeapOf_insert_iff (h : TimerInv w s.unit A B) (hr : s.unit.handler newTimer ≠ .queued)
    {now : ℕ} (hwait : wait < 2 ^ w) :
    InHeapOf w { s with unit := timerInsert w newTimer wait (now % 2 ^ w) s.unit } newTimer
        ((now + wait) / 2 ^ w) ↔ s.epoch = now / 2 ^ w := by
  have hinv := h.insert hr wait (now % 2 ^ w)
  obtain ⟨hA, hB, -⟩ := h.fresh hr
  rw [Nat.mod_add_mod] at hinv
  have hiff := epoch_add (a := now) hwait
  constructor
  · -- any sets with the invariant are the ones the insertion gives
    rintro ⟨A', B', hinv', hin⟩
    rw [hinv'.timers.unique hinv.timers, hinv'.overflow.unique hinv.overflow] at hin
    obtain ⟨hsame, hle⟩ | ⟨hnext, hlt⟩ := hiff
    · simp only [ge_iff_le, hle, if_true, hB, false_and, or_false] at hin
      exact hin.2.trans hsame
    · simp only [ge_iff_le, not_le.mpr hlt, if_false, hA, false_and, false_or] at hin
      exact Nat.add_right_cancel (hin.2.trans hnext)
  · intro hepoch
    refine ⟨_, _, hinv, ?_⟩
    obtain ⟨hsame, hle⟩ | ⟨hnext, hlt⟩ := hiff
    · left
      rw [if_pos hle]
      exact ⟨Set.mem_insert _ _, hepoch.trans hsame.symm⟩
    · right
      rw [if_neg (not_le.mpr hlt), hnext]
      exact ⟨Set.mem_insert _ _, congrArg (· + 1) hepoch⟩

/-- **When interrupts during `TimerRegister` do no harm.** -/
theorem registerSafe_iff (w : ℕ) (newTimer : ν) (wait now : ℕ) (d : Delivered) (s : EpochUnit ν)
    (A B : Set ν) (h : TimerInv w s.unit A B) (hr : s.unit.handler newTimer ≠ .queued)
    (hwait : wait < 2 ^ w) :
    RegisterSafe w newTimer wait d s now ↔ Undisturbed w newTimer wait d s now := by
  obtain ⟨⟨A₁, B₁, hinv₁, -⟩, hhandler, hreads₁⟩ := h.interrupts d.beforeDisable
  have hr₁ : (s.interrupts w d.beforeDisable).unit.handler newTimer ≠ .queued := hhandler ▸ hr
  have hepoch : InHeapOf w (s.inserted w newTimer wait (now % 2 ^ w) d) newTimer
      ((now + wait) / 2 ^ w) ↔ s.epoch + wraps s.unit.timerLastTime d.beforeDisable = now / 2 ^ w :=
    (inHeapOf_insert_iff hinv₁ hr₁ hwait).trans (by rw [interrupts_epoch])
  have hinv₂ : TimerInv w (s.inserted w newTimer wait (now % 2 ^ w) d).unit _ _ :=
    hinv₁.insert hr₁ wait (now % 2 ^ w)
  obtain ⟨⟨A₃, B₃, hinv₃, -⟩, -, hreads₂⟩ := hinv₂.interrupts d.beforeTest
  obtain ⟨-, -, hreads₃⟩ := hinv₃.interrupts d.beforeRead
  constructor
  · intro hsafe
    refine ⟨fun hpos => ?_, hepoch.mp hsafe.epoch⟩
    exact (interrupts_same_iff hinv₃ hpos).mp (hsafe.same hpos)
  · intro hquiet
    have hsame := fun hpos => (interrupts_same_iff hinv₃ hpos).mpr (hquiet.quiet hpos)
    refine ⟨?_, hsame, hepoch.mpr hquiet.epoch⟩
    unfold registerReads
    refine List.forall_mem_append.mpr ⟨List.forall_mem_append.mpr
      ⟨List.forall_mem_append.mpr ⟨hreads₁, hreads₂⟩, hreads₃⟩, ?_⟩
    split
    · next hpos =>
        have hhead := hinv₃.timers.head_ne_none hpos
        rw [← (hsame hpos).1] at hhead
        exact List.forall_mem_singleton.mpr hhead
    · simp

/-- The unit at true time 0, before any timer is registered. -/
def freshUnit : EpochUnit ℕ := ⟨timerStartup 64 0 blankLinks, 0⟩

/-- The only timer, due at 5, is registered; the interrupt comes at 10, between the
size test and the head read. -/
theorem head_missing : ¬ RegisterSafe 64 0 5 ⟨[], [], [10]⟩ freshUnit 0 := by
  intro h
  have hreads : none ∈ (registerReads 64 0 5 (0 % 2 ^ 64) ⟨[], [], [10]⟩ freshUnit).map (·.head) := by
    decide
  obtain ⟨heap, hmem, hnone⟩ := List.mem_map.mp hreads
  exact h.heads heap hmem hnone

/-- The interrupt comes at 4 instead. -/
theorem registerSafe_iff_sample : RegisterSafe 64 0 5 ⟨[], [], [4]⟩ freshUnit 0 := by
  refine (registerSafe_iff 64 0 5 0 ⟨[], [], [4]⟩ freshUnit ∅ ∅ timerInv_startup (by decide)
    (by decide)).mpr ⟨fun _ => ?_, rfl⟩
  exact ⟨by decide, by decide, trivial⟩

end KernelPanic
