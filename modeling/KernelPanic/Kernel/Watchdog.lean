import KernelPanic.Lib.Run
import Mathlib.Algebra.Group.Nat.Defs
import Mathlib.Data.List.Infix

/-!
# KernelPanic.Kernel.Watchdog

The watchdog (`kernel/watchdog.c`): the components of the system are flags, and the
hardware timer is started anew when all of them have reported.

`Watchdog.step` is one call, or one tick of the timer; the masks are only touched
with the watchdog's interrupts disabled, so the calls of different threads do not
overlap.  The timer is `ITIMER_VIRTUAL`, so a tick is a millisecond in which the
process has run, and a process that idles has no ticks.  A component that stops is
found (`watchdog_finds`), and as long as all of them report in time there is no alarm
(`watchdog_quiet`).
-/

namespace KernelPanic

open Run

/-- `FLAG`, an `int`. -/
abbrev Flag := BitVec 32

/-- `FlagGetBit`. -/
def flagGetBit (index : ℕ) : Flag := 1#32 <<< index

/-- `FlagGet`, as a condition. -/
def flagGet (field flag : Flag) : Bool := field &&& flag ≠ 0

/-- `FLAG_MAX_INDEX`. -/
def flagMaxIndex : ℕ := 31

/-- The variables of the unit, and the timer of `HalPetWatchdog`: the ticks that are
left, if it is running. -/
structure Watchdog where
  timeout : ℕ
  desiredMask : Flag
  curMask : Flag
  timer : Option ℕ
  panicked : Bool
deriving DecidableEq

inductive WatchdogOp where
  /-- `WatchdogEnable`. -/
  | enable (timeout : ℕ)
  /-- `WatchdogAddFlag`. -/
  | addFlag (index : ℕ)
  /-- `WatchdogNotify`. -/
  | notify (index : ℕ)
  /-- The timer goes on; when it expires, `WatchdogInterrupt` is called. -/
  | tick
deriving DecidableEq

namespace Watchdog

/-! ## the code -/

/-- `setitimer`, with the ticks that it takes for these microseconds; a timer set to zero
is off. -/
def setTimer (w : Watchdog) (usec : ℕ) : Watchdog :=
  { w with timer := if usec = 0 then none else some ((usec + 999) / 1000) }

/-- `HalPetWatchdog`; the milliseconds are all put into `tv_usec`, where the product can
wrap and which has to be less than a second: `none` when the `CHECK` fails. -/
def halPetWatchdog (w : Watchdog) (when : ℕ) : Option Watchdog :=
  let usec := when * 1000 % 2 ^ 64
  if usec < 1000000 then some (w.setTimer usec) else none

/-- `WatchdogEnable`. -/
def watchdogEnable (w : Watchdog) (timeout : ℕ) : Option Watchdog :=
  halPetWatchdog { w with timeout := timeout, desiredMask := 0, curMask := 0 } timeout

/-- `WatchdogNotify`; `none` when an `ASSERT` fails. -/
def watchdogNotify (w : Watchdog) (index : ℕ) : Option Watchdog :=
  if ¬ index ≤ flagMaxIndex then none
  else
    let flag := flagGetBit index
    if !flagGet flag w.desiredMask then none
    else
      let w := { w with curMask := w.curMask ||| flag }
      if w.curMask = w.desiredMask then do
        let w ← halPetWatchdog w w.timeout
        some { w with curMask := 0 }
      else some w

/-- `WatchdogAddFlag`; `none` when an `ASSERT` fails. -/
def watchdogAddFlag (w : Watchdog) (index : ℕ) : Option Watchdog :=
  if ¬ index ≤ flagMaxIndex then none
  else some { w with desiredMask := w.desiredMask ||| flagGetBit index }

/-- `WatchdogInterrupt` calls `KernelPanic`. -/
def watchdogInterrupt (w : Watchdog) : Watchdog := { w with panicked := true }

/-- A tick of the timer. -/
def tick (w : Watchdog) : Watchdog :=
  match w.timer with
  | none => w
  | some left =>
      if left ≤ 1 then watchdogInterrupt { w with timer := none }
      else { w with timer := some (left - 1) }

/-- One step; after a panic nothing changes. -/
def step (w : Watchdog) (op : WatchdogOp) : Option Watchdog :=
  if w.panicked then some w
  else
    match op with
    | .enable timeout => w.watchdogEnable timeout
    | .addFlag index => w.watchdogAddFlag index
    | .notify index => w.watchdogNotify index
    | .tick => some w.tick

/-! ## flags -/

variable {w w' : Watchdog} {i j k : ℕ} {ops : List WatchdogOp} {op : WatchdogOp}

/-- The flag is in the mask. -/
def Has (mask : Flag) (j : ℕ) : Prop := mask.getLsbD j = true

instance (mask : Flag) (j : ℕ) : Decidable (Has mask j) := inferInstanceAs (Decidable (_ = _))

theorem has_or (mask : Flag) (hi : i ≤ flagMaxIndex) :
    Has (mask ||| flagGetBit i) j ↔ Has mask j ∨ j = i := by
  unfold flagMaxIndex at hi
  unfold Has flagGetBit
  rw [BitVec.getLsbD_or, BitVec.getLsbD_shiftLeft, Bool.or_eq_true]
  refine or_congr_right ?_
  simp only [BitVec.getLsbD_one, Bool.and_eq_true, decide_eq_true_eq, Bool.not_eq_true']
  grind

theorem has_zero : ¬ Has 0#32 j := by simp [Has]

theorem flagGet_iff (mask : Flag) (hi : i ≤ flagMaxIndex) :
    flagGet (flagGetBit i) mask = true ↔ Has mask i := by
  unfold flagMaxIndex at hi
  have hne : BitVec.twoPow 32 i ≠ 0#32 := by
    intro hzero
    have hbit := congrArg (·.getLsbD i) hzero
    simp [Nat.lt_succ_of_le hi] at hbit
  unfold flagGet Has flagGetBit
  rw [← BitVec.twoPow_eq, BitVec.twoPow_and]
  cases mask.getLsbD i <;> simp [hne]

theorem mask_ext {mask mask' : Flag} (h : ∀ j, Has mask j ↔ Has mask' j) : mask = mask' :=
  BitVec.eq_of_getLsbD_eq fun j _ => Bool.eq_iff_iff.mpr (h j)

/-- The timer runs for `k` ticks. -/
def started (w : Watchdog) (k : ℕ) : Watchdog :=
  { w with timer := if k = 0 then none else some k }

/-- Where the product does not wrap, the timer runs for as long as it was asked to. -/
theorem halPetWatchdog_eq_some (hk : k * 1000 < 2 ^ 64) :
    halPetWatchdog w k = some w' ↔ k < 1000 ∧ w.started k = w' := by
  have hzero : k * 1000 = 0 ↔ k = 0 := by omega
  have hticks : (k * 1000 + 999) / 1000 = k := by omega
  simp only [halPetWatchdog, setTimer, started, Nat.mod_eq_of_lt hk, hzero, hticks]
  rw [Option.ite_none_right_eq_some, Option.some.injEq]
  exact and_congr_left' (by omega)

example : (watchdogEnable ⟨0, 0, 0, none, false⟩ (2 ^ 61)).map (·.timer) = some none := by decide

theorem enable_cases (hk : k * 1000 < 2 ^ 64) (h : w.watchdogEnable k = some w') :
    k < 1000 ∧ w' = started { w with timeout := k, desiredMask := 0, curMask := 0 } k := by
  obtain ⟨hlt, rfl⟩ := (halPetWatchdog_eq_some hk).mp h
  exact ⟨hlt, rfl⟩

/-- What `WatchdogNotify` does. -/
theorem notify_cases (hshort : w.timeout < 1000) (h : w.watchdogNotify i = some w') :
    i ≤ flagMaxIndex ∧ Has w.desiredMask i ∧
      (w.curMask ||| flagGetBit i = w.desiredMask ∧
          w' = { started w w.timeout with curMask := 0 } ∨
        w.curMask ||| flagGetBit i ≠ w.desiredMask ∧
          w' = { w with curMask := w.curMask ||| flagGetBit i }) := by
  unfold watchdogNotify at h
  split at h
  · cases h
  next hi =>
  rw [not_not] at hi
  refine ⟨hi, ?_⟩
  rw [← flagGet_iff w.desiredMask hi]
  dsimp only at h
  split at h
  · cases h
  next hget =>
  refine ⟨by simpa using hget, ?_⟩
  split at h
  · next heq =>
      obtain ⟨w₁, hpet, hw'⟩ := Option.bind_eq_some_iff.mp h
      have hbound : w.timeout * 1000 < 2 ^ 64 := by omega
      obtain ⟨-, rfl⟩ := (halPetWatchdog_eq_some hbound).mp hpet
      exact .inl ⟨heq, (Option.some.inj hw').symm⟩
  · next hne => exact .inr ⟨hne, (Option.some.inj h).symm⟩

theorem addFlag_cases (h : w.watchdogAddFlag i = some w') :
    i ≤ flagMaxIndex ∧ w' = { w with desiredMask := w.desiredMask ||| flagGetBit i } := by
  unfold watchdogAddFlag at h
  split at h
  · cases h
  · next hi => exact ⟨not_not.mp hi, (Option.some.inj h).symm⟩

/-! ## a component that stops -/

/-- The ticks of a run. -/
def ticks (ops : List WatchdogOp) : ℕ := ops.count .tick

@[simp] theorem ticks_nil : ticks [] = 0 := rfl

theorem ticks_cons : ticks (op :: ops) = (if op = .tick then 1 else 0) + ticks ops := by
  unfold ticks
  rw [List.count_cons, Nat.add_comm]
  simp

@[simp] theorem ticks_append (ops₁ ops₂ : List WatchdogOp) :
    ticks (ops₁ ++ ops₂) = ticks ops₁ + ticks ops₂ := List.count_append

/-- Between the calls only registered components have reported, and the timer runs
unless it has expired. -/
structure Guards (w : Watchdog) : Prop where
  pos : 0 < w.timeout
  short : w.timeout < 1000
  reported : ∀ j, Has w.curMask j → Has w.desiredMask j
  running : w.panicked = false → ∃ left, w.timer = some left ∧ 0 < left ∧ left ≤ w.timeout

/-- A timeout whose microseconds are zero, as those of 2^61 are, would turn the timer
off. -/
def Sound (op : WatchdogOp) : Prop :=
  ∀ timeout, op = .enable timeout → 0 < timeout ∧ timeout * 1000 < 2 ^ 64

theorem Guards.enable (hpos : 0 < k) (hbound : k * 1000 < 2 ^ 64)
    (h : w.watchdogEnable k = some w') : Guards w' := by
  obtain ⟨hshort, rfl⟩ := enable_cases hbound h
  refine ⟨hpos, hshort, fun j hj => absurd hj has_zero, fun _ => ⟨k, ?_, hpos, le_rfl⟩⟩
  simp [started, Nat.pos_iff_ne_zero.mp hpos]

theorem step_panicked (h : w.panicked = true) : step w op = some w := if_pos h

theorem step_quiet (h : w.panicked = false) : step w op =
    match op with
    | .enable timeout => w.watchdogEnable timeout
    | .addFlag index => w.watchdogAddFlag index
    | .notify index => w.watchdogNotify index
    | .tick => some w.tick := by
  unfold step
  rw [if_neg (by simp [h])]

/-- **One step keeps it.** -/
theorem Guards.step (h : Guards w) (hop : Sound op) (hstep : step w op = some w') : Guards w' := by
  by_cases hpanic : w.panicked = true
  · rw [step_panicked hpanic] at hstep
    exact Option.some.inj hstep ▸ h
  rw [Bool.not_eq_true] at hpanic
  rw [step_quiet hpanic] at hstep
  obtain ⟨left, hleft, hpos, hle⟩ := h.running hpanic
  cases op with
  | enable timeout => exact .enable (hop timeout rfl).1 (hop timeout rfl).2 hstep
  | addFlag index =>
      obtain ⟨hi, rfl⟩ := addFlag_cases hstep
      exact ⟨h.pos, h.short, fun j hj => (has_or _ hi).mpr (.inl (h.reported j hj)), h.running⟩
  | notify index =>
      obtain ⟨hi, hhas, ⟨heq, rfl⟩ | ⟨hne, rfl⟩⟩ := notify_cases h.short hstep
      · refine ⟨h.pos, h.short, fun j hj => absurd hj has_zero,
          fun _ => ⟨w.timeout, ?_, h.pos, le_rfl⟩⟩
        simp [started, Nat.pos_iff_ne_zero.mp h.pos]
      · refine ⟨h.pos, h.short, fun j hj => ?_, h.running⟩
        obtain hj | rfl := (has_or _ hi).mp hj
        · exact h.reported j hj
        · exact hhas
  | tick =>
      cases hstep
      unfold tick
      rw [hleft]
      dsimp only
      split
      · exact ⟨h.pos, h.short, h.reported,
          fun hfalse => absurd hfalse (by simp [watchdogInterrupt])⟩
      · exact ⟨h.pos, h.short, h.reported,
          fun _ => ⟨left - 1, rfl, by omega, (Nat.sub_le _ _).trans hle⟩⟩

theorem Guards.exec (h : Guards w) (hops : ∀ op ∈ ops, Sound op)
    (hrun : Run.exec Watchdog.step w ops = some w') : Guards w' := by
  induction ops generalizing w with
  | nil =>
      cases hrun
      exact h
  | cons op ops ih =>
      obtain ⟨hop, hops⟩ := List.forall_mem_cons.mp hops
      obtain ⟨w₁, hstep, hrun⟩ := exec_cons_eq_some.mp hrun
      exact ih (h.step hop hstep) hops hrun

/-- After a panic nothing changes. -/
theorem exec_panicked (h : w.panicked = true) : exec step w ops = some w := by
  induction ops with
  | nil => rfl
  | cons op ops ih => rw [exec_cons, step_panicked h, Option.bind_some, ih]

/-- The step does not report for the component, nor start anew. -/
def Silent (j : ℕ) (op : WatchdogOp) : Prop :=
  op ≠ .notify j ∧ ∀ timeout, op ≠ .enable timeout

/-- What the timer will still take, when the component does not report any more: it
is started anew once at most. -/
def patience (w : Watchdog) (j : ℕ) : ℕ :=
  w.timer.getD 0 + if Has w.curMask j then w.timeout else 0

/-- **A step without a report uses up the patience.** -/
theorem Guards.patience_step (h : Guards w) (hj : Has w.desiredMask j) (hop : Silent j op)
    (hstep : Watchdog.step w op = some w') (hquiet' : w'.panicked = false) :
    Has w'.desiredMask j ∧ patience w' j + (if op = .tick then 1 else 0) ≤ patience w j := by
  have hquiet : w.panicked = false := by
    by_contra hpanic
    rw [Bool.not_eq_false] at hpanic
    rw [step_panicked hpanic] at hstep
    cases hstep
    simp [hpanic] at hquiet'
  rw [step_quiet hquiet] at hstep
  obtain ⟨left, hleft, hpos, hle⟩ := h.running hquiet
  cases op with
  | enable timeout => exact absurd rfl (hop.2 timeout)
  | addFlag index =>
      obtain ⟨hi, rfl⟩ := addFlag_cases hstep
      exact ⟨(has_or _ hi).mpr (.inl hj), le_rfl⟩
  | notify index =>
      have hne : j ≠ index := fun heq => hop.1 (heq ▸ rfl)
      obtain ⟨hi, hhas, ⟨heq, rfl⟩ | ⟨-, rfl⟩⟩ := notify_cases h.short hstep
      · -- all the others wait for the component's report, so it is in the mask
        have hcur : Has w.curMask j := by
          rw [← heq, has_or _ hi] at hj
          exact hj.resolve_right hne
        refine ⟨hj, ?_⟩
        simp [patience, started, hcur, has_zero, hleft, Nat.pos_iff_ne_zero.mp h.pos]
      · refine ⟨hj, ?_⟩
        simp [patience, has_or _ hi, hne]
  | tick =>
      cases hstep
      unfold Watchdog.tick at hquiet' ⊢
      rw [hleft] at hquiet' ⊢
      dsimp only at hquiet' ⊢
      split at hquiet'
      · simp [watchdogInterrupt] at hquiet'
      · next hgt =>
          rw [if_neg hgt]
          refine ⟨hj, ?_⟩
          simp only [patience, hleft, Option.getD_some, ↓reduceIte]
          omega

theorem Guards.patience_exec (h : Guards w) (hj : Has w.desiredMask j)
    (hops : ∀ op ∈ ops, Silent j op) (hrun : Run.exec Watchdog.step w ops = some w')
    (hquiet' : w'.panicked = false) : patience w' j + ticks ops ≤ patience w j := by
  induction ops generalizing w with
  | nil =>
      cases hrun
      simp
  | cons op ops ih =>
      obtain ⟨hop, hops⟩ := List.forall_mem_cons.mp hops
      obtain ⟨w₁, hstep, hrun⟩ := exec_cons_eq_some.mp hrun
      have hquiet : w₁.panicked = false := by
        by_contra hpanic
        rw [Bool.not_eq_false] at hpanic
        rw [exec_panicked hpanic] at hrun
        cases hrun
        simp [hpanic] at hquiet'
      obtain ⟨hj', hless⟩ := h.patience_step hj hop hstep hquiet
      have hrest := ih (h.step (fun timeout heq => absurd heq (hop.2 timeout)) hstep) hj' hops hrun
      rw [ticks_cons]
      omega

/-- **A component that stops is found**: within twice the timeout of its last report,
in ticks of the virtual timer, there is a panic, whatever the others do, unless the
microseconds of a timeout wrap. -/
theorem watchdog_finds (w : Watchdog) (hquiet : w.panicked = false) (timeout : ℕ)
    (hpos : 0 < timeout) (hbound : timeout * 1000 < 2 ^ 64)
    (before after : List WatchdogOp) (hbefore : ∀ op ∈ before, Sound op)
    {s s' : Watchdog} (hrun : exec step w (.enable timeout :: before) = some s)
    (hj : Has s.desiredMask j) (hafter : ∀ op ∈ after, Silent j op)
    (hrun' : exec step s after = some s') (hticks : 2 * s.timeout ≤ ticks after) :
    s'.panicked = true := by
  obtain ⟨w₁, hstep, hrun⟩ := exec_cons_eq_some.mp hrun
  rw [step_quiet hquiet] at hstep
  have hguards := (Guards.enable hpos hbound hstep).exec hbefore hrun
  by_contra hquiet'
  rw [Bool.not_eq_true] at hquiet'
  have hquiet₁ : s.panicked = false := by
    by_contra hpanic
    rw [Bool.not_eq_false] at hpanic
    rw [exec_panicked hpanic] at hrun'
    cases hrun'
    simp [hpanic] at hquiet'
  have hless := hguards.patience_exec hj hafter hrun' hquiet'
  obtain ⟨left, hleft, -, hle⟩ := hguards.running hquiet₁
  have hguards' : Guards s' := hguards.exec
    (fun op hop timeout heq => absurd heq ((hafter op hop).2 timeout)) hrun'
  obtain ⟨left', hleft', hpos', -⟩ := hguards'.running hquiet'
  unfold patience at hless
  rw [hleft, hleft', Option.getD_some, Option.getD_some] at hless
  split at hless <;> split at hless <;> omega

/-- Two components, of which the first stops: the other goes on alone, and the timer
expires. -/
theorem watchdog_finds_sample :
    (⟨3, 3#32, 2#32, none, true⟩ : Watchdog).panicked = true :=
  watchdog_finds ⟨0, 0, 0, none, false⟩ rfl 3 (by decide) (by decide)
    [.addFlag 0, .addFlag 1, .notify 1, .tick, .notify 0]
    [.notify 1, .tick, .tick, .notify 1, .tick, .tick, .notify 1, .tick, .tick]
    (j := 0) (by simp [Sound]) (s := ⟨3, 3#32, 0#32, some 3, false⟩) (by decide) (by decide)
    (by simp [Silent]) (by decide) (by decide)

/-! ## components that report in time -/

/-- The calls that the components may make: a flag is one of the mask's bits, and only
registered components report. -/
def Permitted (past : List WatchdogOp) : WatchdogOp → Prop
  | .enable _ => False
  | .addFlag index => index ≤ flagMaxIndex
  | .notify index => .addFlag index ∈ past
  | .tick => True

/-- The components that have registered. -/
def registered (past : List WatchdogOp) : List ℕ :=
  past.filterMap fun
    | .addFlag index => some index
    | _ => none

@[simp] theorem mem_registered : j ∈ registered ops ↔ .addFlag j ∈ ops := by
  unfold registered
  rw [List.mem_filterMap]
  constructor
  · rintro ⟨op, hop, heq⟩
    cases op <;> simp_all
  · exact fun hop => ⟨_, hop, rfl⟩

/-- In every stretch of the run, from `m` to `n`, that takes the whole timeout, all
components that are registered by its end report, and there are some. -/
def Attended (timeout : ℕ) (ops : List WatchdogOp) : Prop :=
  ∀ n ≤ ops.length, ∀ m ≤ n, timeout ≤ ticks ((ops.take n).drop m) →
    registered (ops.take n) ≠ [] ∧
      ∀ j ∈ registered (ops.take n), .notify j ∈ (ops.take n).drop m

instance (past : List WatchdogOp) : (op : WatchdogOp) → Decidable (Permitted past op)
  | .enable _ => inferInstanceAs (Decidable False)
  | .addFlag index => inferInstanceAs (Decidable (index ≤ flagMaxIndex))
  | .notify index => inferInstanceAs (Decidable (.addFlag index ∈ past))
  | .tick => inferInstanceAs (Decidable True)

/-- The past of a run, as it grows. -/
def record (past : List WatchdogOp) (op : WatchdogOp) : Option (List WatchdogOp) :=
  some (past ++ [op])

instance (timeout : ℕ) (ops : List WatchdogOp) : Decidable (Attended timeout ops) :=
  inferInstanceAs (Decidable (∀ n ≤ ops.length, ∀ m ≤ n, _))

variable {timeout : ℕ} {past since rest : List WatchdogOp}

theorem Attended.stretch (h : Attended timeout (past ++ since ++ rest))
    (hlate : timeout ≤ ticks since) :
    (∃ j, .addFlag j ∈ past ++ since) ∧ ∀ j, .addFlag j ∈ past ++ since → .notify j ∈ since := by
  have hstretch := h (past ++ since).length (by simp) past.length (by simp)
  rw [List.take_left, List.drop_left] at hstretch
  obtain ⟨hsome, hall⟩ := hstretch hlate
  obtain ⟨j, hj⟩ := List.exists_mem_of_ne_nil _ hsome
  exact ⟨⟨j, mem_registered.mp hj⟩, fun k hk => hall k (mem_registered.mpr hk)⟩

/-- The watchdog after `past` and `since`, where the timer was started between them:
it waits for someone, unless no one is registered. -/
structure Awaits (timeout : ℕ) (past since : List WatchdogOp) (w : Watchdog) : Prop where
  quiet : w.panicked = false
  timeout_eq : w.timeout = timeout
  short : timeout < 1000
  desired : ∀ j, Has w.desiredMask j ↔ .addFlag j ∈ past ++ since
  small : ∀ j, Has w.desiredMask j → j ≤ flagMaxIndex
  cur : ∀ j, Has w.curMask j ↔ .notify j ∈ since
  reported : ∀ j, Has w.curMask j → Has w.desiredMask j
  waits : ∀ j, Has w.desiredMask j → ∃ i, Has w.desiredMask i ∧ ¬ Has w.curMask i
  timer_eq : w.timer = some (timeout - ticks since)
  early : ticks since < timeout

theorem Awaits.enable (hquiet : w.panicked = false) (hpos : 0 < timeout) (hlt : timeout < 1000) :
    Awaits timeout [] []
      (started { w with timeout := timeout, desiredMask := 0, curMask := 0 } timeout) where
  quiet := hquiet
  timeout_eq := rfl
  short := hlt
  desired := by simp [started, has_zero]
  small := by simp [started, has_zero]
  cur := by simp [started, has_zero]
  reported := by simp [started, has_zero]
  waits := by simp [started, has_zero]
  timer_eq := by simp [started, Nat.pos_iff_ne_zero.mp hpos]
  early := hpos

theorem Awaits.addFlag (h : Awaits timeout past since w) (hi : i ≤ flagMaxIndex) :
    Awaits timeout past (since ++ [.addFlag i])
      { w with desiredMask := w.desiredMask ||| flagGetBit i } where
  quiet := h.quiet
  timeout_eq := h.timeout_eq
  short := h.short
  desired j := by simp [has_or _ hi, h.desired, or_assoc]
  small j hj := by
    obtain hj | rfl := (has_or _ hi).mp hj
    · exact h.small j hj
    · exact hi
  cur j := by simp [h.cur]
  reported j hj := (has_or _ hi).mpr (.inl (h.reported j hj))
  waits j hj := by
    by_cases hcur : Has w.curMask i
    · obtain ⟨k, hk, hnot⟩ := h.waits i (h.reported i hcur)
      exact ⟨k, (has_or _ hi).mpr (.inl hk), hnot⟩
    · exact ⟨i, (has_or _ hi).mpr (.inr rfl), hcur⟩
  timer_eq := by simpa [ticks_append, ticks] using h.timer_eq
  early := by simpa [ticks_append, ticks] using h.early

/-- A report that does not complete the mask. -/
theorem Awaits.notify (h : Awaits timeout past since w) (hi : Has w.desiredMask i)
    (hne : w.curMask ||| flagGetBit i ≠ w.desiredMask) :
    Awaits timeout past (since ++ [.notify i])
      { w with curMask := w.curMask ||| flagGetBit i } where
  quiet := h.quiet
  timeout_eq := h.timeout_eq
  short := h.short
  desired j := by simp [h.desired]
  small := h.small
  cur j := by simp [has_or _ (h.small i hi), h.cur]
  reported j hj := by
    obtain hj | rfl := (has_or _ (h.small i hi)).mp hj
    · exact h.reported j hj
    · exact hi
  waits j _ := by
    by_contra hall
    push Not at hall
    refine hne (mask_ext fun k => ⟨fun hk => ?_, hall k⟩)
    obtain hk | rfl := (has_or _ (h.small i hi)).mp hk
    · exact h.reported k hk
    · exact hi
  timer_eq := by simpa [ticks_append, ticks] using h.timer_eq
  early := by simpa [ticks_append, ticks] using h.early

/-- The report that completes the mask starts the timer anew. -/
theorem Awaits.pet (h : Awaits timeout past since w) :
    Awaits timeout (past ++ since ++ [.notify i]) []
      { started w w.timeout with curMask := 0 } where
  quiet := h.quiet
  timeout_eq := h.timeout_eq
  short := h.short
  desired j := by simpa [started] using h.desired j
  small := h.small
  cur j := by simp [has_zero]
  reported j hj := absurd hj has_zero
  waits j hj := ⟨j, hj, has_zero⟩
  timer_eq := by
    have hpos := h.early
    simp [started, h.timeout_eq, Nat.ne_of_gt (Nat.zero_lt_of_lt hpos)]
  early := Nat.zero_lt_of_lt h.early

/-- A tick before the timer expires. -/
theorem Awaits.tick (h : Awaits timeout past since w) (hearly : ticks since + 1 < timeout) :
    Awaits timeout past (since ++ [.tick]) w.tick := by
  have htick : w.tick = { w with timer := some (timeout - (ticks since + 1)) } := by
    unfold Watchdog.tick
    rw [h.timer_eq]
    dsimp only
    rw [if_neg (by omega), Nat.sub_sub]
  rw [htick]
  exact {
    quiet := h.quiet
    timeout_eq := h.timeout_eq
    short := h.short
    desired j := by simp [h.desired]
    small := h.small
    cur j := by simp [h.cur]
    reported := h.reported
    waits := h.waits
    timer_eq := by simp [ticks_append, ticks_cons]
    early := by simpa [ticks_append, ticks_cons] using hearly }

/-- **One step**: if the timer would expire, someone has not reported in time. -/
theorem Awaits.step (h : Awaits timeout past since w) (hop : Permitted (past ++ since) op)
    (hatt : timeout ≤ ticks (since ++ [op]) →
      (∃ j, .addFlag j ∈ past ++ (since ++ [op])) ∧
        ∀ j, .addFlag j ∈ past ++ (since ++ [op]) → .notify j ∈ since ++ [op]) :
    ∃ w' past' since', Watchdog.step w op = some w' ∧ past' ++ since' = past ++ since ++ [op] ∧
      Awaits timeout past' since' w' := by
  rw [step_quiet h.quiet]
  cases op with
  | enable k => exact hop.elim
  | addFlag i =>
      have hi : i ≤ flagMaxIndex := hop
      refine ⟨_, past, since ++ [.addFlag i], ?_, by simp, h.addFlag hi⟩
      simp [watchdogAddFlag, hi]
  | notify i =>
      have hi : Has w.desiredMask i := (h.desired i).mpr hop
      have hget : flagGet (flagGetBit i) w.desiredMask = true :=
        (flagGet_iff _ (h.small i hi)).mpr hi
      by_cases hfull : w.curMask ||| flagGetBit i = w.desiredMask
      · refine ⟨_, past ++ since ++ [.notify i], [], ?_, by simp, h.pet⟩
        have hpet : halPetWatchdog { w with curMask := w.desiredMask } w.timeout =
            some (started { w with curMask := w.desiredMask } w.timeout) := by
          have hshort : w.timeout < 1000 := h.timeout_eq ▸ h.short
          exact (halPetWatchdog_eq_some (by omega)).mpr ⟨hshort, rfl⟩
        simp [watchdogNotify, h.small i hi, hget, hfull, hpet, started]
      · refine ⟨_, past, since ++ [.notify i], ?_, by simp, h.notify hi hfull⟩
        simp [watchdogNotify, h.small i hi, hget, hfull]
  | tick =>
      refine ⟨_, past, since ++ [.tick], rfl, by simp, h.tick ?_⟩
      by_contra hlate
      obtain ⟨⟨j, hj⟩, hall⟩ := hatt (by simp [ticks_append, ticks_cons]; omega)
      have hadd : ∀ k, .addFlag k ∈ past ++ (since ++ [.tick]) ↔ .addFlag k ∈ past ++ since := by
        simp
      have hnotify : ∀ k, .notify k ∈ since ++ [.tick] ↔ .notify k ∈ since := by simp
      obtain ⟨k, hk, hnot⟩ := h.waits j ((h.desired j).mpr ((hadd j).mp hj))
      have hin := hall k ((hadd k).mpr ((h.desired k).mp hk))
      exact hnot ((h.cur k).mpr ((hnotify k).mp hin))

theorem Awaits.exec (h : Awaits timeout past since w)
    (hops : Along record Permitted (past ++ since) rest)
    (hatt : Attended timeout (past ++ since ++ rest)) :
    ∃ w', Run.exec Watchdog.step w rest = some w' ∧ w'.panicked = false := by
  induction rest generalizing w past since with
  | nil => exact ⟨w, rfl, h.quiet⟩
  | cons op rest ih =>
      obtain ⟨hop, hops⟩ := hops
      have hatt' : Attended timeout (past ++ (since ++ [op]) ++ rest) := by simpa using hatt
      obtain ⟨w₁, past', since', hstep, hpast, h'⟩ := h.step hop hatt'.stretch
      obtain ⟨w', hrun, hquiet⟩ := ih h' (hpast ▸ hops _ rfl) (by simpa [hpast] using hatt)
      exact ⟨w', exec_cons_eq_some.mpr ⟨w₁, hstep, hrun⟩, hquiet⟩

/-- **As long as all report in time there is no alarm**: no `ASSERT` fails and the
watchdog does not panic, whatever the order of the calls and of the ticks. -/
theorem watchdog_quiet (w : Watchdog) (hquiet : w.panicked = false) (hpos : 0 < timeout)
    (hlt : timeout < 1000) (ops : List WatchdogOp) (hops : Along record Permitted [] ops)
    (hatt : Attended timeout ops) :
    ∃ w', exec step w (.enable timeout :: ops) = some w' ∧ w'.panicked = false := by
  have hstep : step w (.enable timeout) =
      some (started { w with timeout := timeout, desiredMask := 0, curMask := 0 } timeout) := by
    rw [step_quiet hquiet]
    exact (halPetWatchdog_eq_some (by omega)).mpr ⟨hlt, rfl⟩
  rw [exec_cons, hstep, Option.bind_some]
  exact (Awaits.enable hquiet hpos hlt).exec hops hatt

/-- Two components that report once in three ticks. -/
theorem watchdog_quiet_sample :
    ∃ w', exec step ⟨0, 0, 0, none, false⟩
      [.enable 3, .addFlag 0, .notify 0, .addFlag 1, .tick, .notify 1, .notify 0, .tick,
        .notify 0, .tick, .notify 1, .tick] = some w' ∧ w'.panicked = false :=
  watchdog_quiet ⟨0, 0, 0, none, false⟩ rfl (by decide) (by decide) _ (by decide) (by decide)

end Watchdog

end KernelPanic
