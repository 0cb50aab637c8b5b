import KernelPanic.Kernel.Timer
import KernelPanic.Lib.Run

/-!
# KernelPanic.Kernel.Timer.Run

Runs of the timer unit: registrations and timer interrupts at a clock that
never goes back, with the soft interrupt running what has fired.  The clock's
true time is unbounded; `TimeGet` returns it modulo `2 ^ w`.

The first result is about the hardware countdown.  `TimerSetNextTimer`
subtracts the clock reading from the weight of the first timer, which is right
as long as that timer is not overdue.  `TimerInner` has just taken the overdue
ones away; `TimerRegister` has not, and there the difference wraps around
(`countdownOk_iff_headNotExpired`).
-/

namespace KernelPanic

open Run

variable {ν : Type*} [DecidableEq ν]

/-! ## steps -/

/-- What is remembered of a timer's last registration: the true time, the
wait, and how many interrupts' worth of history the unit had then. -/
structure Registration where
  time : ℕ
  wait : ℕ
  lastInterrupt : ℕ
  swaps : ℕ
deriving DecidableEq

/-- The true time at which the timer is due. -/
def Registration.deadline (r : Registration) : ℕ := r.time + r.wait

/-- The timer unit in true time.  `now` is the latest event's, `lastInterrupt`
the latest interrupt's; `swaps` counts the exchanges of the heaps. -/
structure TimerRun (ν : Type*) where
  unit : TimerUnit ν
  now : ℕ
  lastInterrupt : ℕ
  swaps : ℕ
  registered : ν → Registration

inductive TimerEvent (ν : Type*) where
  /-- `TimerRegister(timer, wait)` at true time `now`. -/
  | register (timer : ν) (wait now : ℕ)
  /-- The timer interrupt at true time `now`. -/
  | interrupt (now : ℕ)
  /-- The soft interrupt pops its list and runs the timer's function. -/
  | softInterrupt
  /-- The timer's function has returned true. -/
  | finish (timer : ν)
deriving DecidableEq

namespace TimerRun

/-- After `TimerStartup` at true time `now`. -/
def start (w now : ℕ) (links : WeightedLinks ν) : TimerRun ν where
  unit := timerStartup w (now % 2 ^ w) links
  now := now
  lastInterrupt := now
  swaps := 0
  registered := fun _ => ⟨0, 0, 0, 0⟩

/-- Whether the interrupt at true time `now` finds the clock wrapped. -/
def swapsAt (w : ℕ) (s : TimerRun ν) (now : ℕ) : ℕ :=
  s.swaps + if now % 2 ^ w < s.unit.timerLastTime then 1 else 0

/-- One event; `none` when it cannot happen.  A timer is only registered when
`HandlerRegister` allows it. -/
def step (w : ℕ) (s : TimerRun ν) : TimerEvent ν → Option (TimerRun ν)
  | .register timer wait now =>
      if s.now ≤ now ∧ wait < 2 ^ w ∧ s.unit.handler timer ≠ .queued then
        some { s with
          unit := timerRegister w timer wait (now % 2 ^ w) s.unit
          now := now
          registered := Function.update s.registered timer ⟨now, wait, s.lastInterrupt, s.swaps⟩ }
      else none
  | .interrupt now =>
      if s.now ≤ now then
        some { s with
          unit := timerInner w (now % 2 ^ w) s.unit
          now := now
          lastInterrupt := now
          swaps := s.swapsAt w now }
      else none
  | .softInterrupt =>
      match s.unit.softList with
      | [] => none
      | timer :: rest => some { s with unit := { s.unit with softList := rest }.run timer }
  | .finish timer =>
      if s.unit.handler timer = .running then
        some { s with unit := { s.unit with handler := Function.update s.unit.handler timer .ready } }
      else none

end TimerRun

open TimerRun

variable {w : ℕ} {s s' : TimerRun ν} {u : TimerUnit ν} {A B : Set ν} {timer : ν}
  {e : TimerEvent ν} {links : WeightedLinks ν}

/-- The soft interrupt runs a fired timer. -/
theorem TimerInv.softInterrupt {rest : List ν} (h : TimerInv w u A B)
    (hl : u.softList = timer :: rest) :
    TimerInv w ({ u with softList := rest }.run timer) A B := by
  have hsoft := h.soft
  have hnodup := h.nodup
  rw [hl] at hsoft hnodup
  obtain ⟨hnot, hnodup⟩ := List.nodup_cons.mp hnodup
  have hq := hsoft timer List.mem_cons_self
  refine ⟨h.timers, h.overflow, h.disjoint, fun a => ?_, fun a ha => ?_, hnodup, ?_⟩
  · rw [h.pending a, hl]
    by_cases hat : a = timer
    · subst hat
      simp [TimerUnit.run, TimerUnit.assert, handlerRun]
    · simp [TimerUnit.run, TimerUnit.assert, hat]
  · have hat : a ≠ timer := fun hat => hnot (hat ▸ ha)
    exact (Function.update_of_ne hat ..).trans (hsoft a (List.mem_cons_of_mem timer ha))
  · simp [TimerUnit.run, TimerUnit.assert, handlerRun, hq, h.fine]

/-- A timer's function has returned. -/
theorem TimerInv.finish (h : TimerInv w u A B) (hr : u.handler timer = .running) :
    TimerInv w { u with handler := Function.update u.handler timer .ready } A B := by
  refine ⟨h.timers, h.overflow, h.disjoint, fun a => ?_, fun a ha => ?_, h.nodup, h.fine⟩
  · rw [h.pending a]
    by_cases hat : a = timer
    · subst hat
      simp [hr]
    · simp [hat]
  · have hat : a ≠ timer := fun hat => by
      have := h.soft a ha
      rw [hat, hr] at this
      cases this
    exact (Function.update_of_ne hat ..).trans (h.soft a ha)

/-- **Every event keeps the invariant.** -/
theorem timerInv_step (h : TimerInv w s.unit A B) (hs : s.step w e = some s') :
    ∃ A' B', TimerInv w s'.unit A' B' := by
  cases e with
  | register timer wait now =>
      simp only [step] at hs
      split at hs
      · next hg =>
          cases hs
          exact ⟨_, _, (h.register hg.2.2 wait (now % 2 ^ w)).1⟩
      · cases hs
  | interrupt now =>
      simp only [step] at hs
      split at hs
      · cases hs
        exact ⟨_, _, (h.inner (now % 2 ^ w)).1⟩
      · cases hs
  | softInterrupt =>
      simp only [step] at hs
      split at hs
      · cases hs
      · next hl =>
          cases hs
          exact ⟨A, B, h.softInterrupt hl⟩
  | finish timer =>
      simp only [step] at hs
      split at hs
      · next hr =>
          cases hs
          exact ⟨A, B, h.finish hr⟩
      · cases hs

/-! ## the countdown -/

/-- The clock reading a step uses. -/
def TimerEvent.reading (w : ℕ) : TimerEvent ν → Option ℕ
  | .register _ _ now => some (now % 2 ^ w)
  | .interrupt now => some (now % 2 ^ w)
  | _ => none

/-- With the first timer of `Timers` at `d` and the reading at `t`, the value
handed to `HalSetTimer` is at most `d - t`, and 0 when the timer is overdue,
and the interval programmed at most `d - t` milliseconds or one. -/
def Countdown (u : TimerUnit ν) (t : ℕ) : Prop :=
  heapSize u.timers > 0 →
    let d := heapHeadWeight u.links u.timers
    (t ≤ d → u.countdown ≤ d - t) ∧ (d < t → u.countdown = 0) ∧
      (halSetTimer u.countdown).total ≤ max 1000 ((d - t) * 1000)

/-- The step leaves the countdown right. -/
def CountdownOk (w : ℕ) (s : TimerRun ν) (e : TimerEvent ν) : Prop :=
  ∀ t ∈ e.reading w, ∀ s', s.step w e = some s' → Countdown s'.unit t

/-- The step does not register a timer while the first timer of `Timers` is
overdue. -/
def HeadNotExpired (w : ℕ) (s : TimerRun ν) (e : TimerEvent ν) : Prop :=
  match e with
  | .register _ _ now =>
      (s.step w e).isSome → heapSize s.unit.timers > 0 →
        now % 2 ^ w ≤ heapHeadWeight s.unit.links s.unit.timers
  | _ => True

omit [DecidableEq ν] in
/-- The head is at or after `t` exactly when every timer of the heap is. -/
theorem Holds.le_headWeight {m : WeightedLinks ν} {h : Heap ν} {t : ℕ} (hh : Holds w m h A) :
    (heapSize h > 0 → t ≤ heapHeadWeight m h) ↔ ∀ a ∈ A, t ≤ m.weight a := by
  constructor
  · intro hle a ha
    obtain ⟨b, -, -, hhead, hmin⟩ := hh.headWeight ⟨a, ha⟩
    exact (hhead ▸ hle (hh.size_pos.mpr ⟨a, ha⟩)).trans (hmin a ha)
  · intro hle hpos
    obtain ⟨b, hb, -, hhead, -⟩ := hh.headWeight (hh.size_pos.mp hpos)
    exact hhead ▸ hle b hb

omit [DecidableEq ν] in
/-- `TimerSetNextTimer` sets the countdown right exactly when no timer of
`Timers` is overdue: then the unsigned difference does not wrap. -/
theorem countdown_iff {t : ℕ} (hh : Holds w u.links u.timers A) (ht : t < 2 ^ w)
    (hc : u.countdown = (timerSetNextTimer w t u).countdown) :
    Countdown u t ↔ ∀ a ∈ A, t ≤ u.links.weight a := by
  rw [← hh.le_headWeight]
  refine forall_congr' fun hpos => ?_
  obtain ⟨b, hb, -, hhead, -⟩ := hh.headWeight (hh.size_pos.mp hpos)
  have hlt : heapHeadWeight u.links u.timers < 2 ^ w := by
    have := hh.weight_le hb
    have := Nat.two_pow_pos w
    omega
  have hval : u.countdown = (heapHeadWeight u.links u.timers + (2 ^ w - t)) % 2 ^ w := by
    rw [hc, timerSetNextTimer, if_pos hpos]
    rfl
  generalize heapHeadWeight u.links u.timers = d at hlt hval ⊢
  constructor
  · intro hok
    by_contra hd
    have hzero := hok.2.1 (by omega)
    rw [hval, Nat.mod_eq_of_lt (by omega)] at hzero
    omega
  · intro hle
    have hdelta : u.countdown = d - t := by
      have hsum : d + (2 ^ w - t) = (d - t) + 2 ^ w := by omega
      rw [hval, hsum, Nat.add_mod_right, Nat.mod_eq_of_lt (by omega)]
    refine ⟨fun _ => hdelta.le, fun hd => by omega, ?_⟩
    rw [hdelta]
    exact halSetTimer_total (d - t)

omit [DecidableEq ν] in
/-- `TimerSetNextTimer` reads only the heap `Timers`. -/
theorem timerSetNextTimer_countdown {u' : TimerUnit ν} {t : ℕ} (hl : u'.links = u.links)
    (ht : u'.timers = u.timers) :
    (timerSetNextTimer w t u').countdown = (timerSetNextTimer w t u).countdown := by
  unfold timerSetNextTimer
  rw [hl, ht]
  split <;> rfl

/-- After a registration the countdown is right exactly when no timer that was
in `Timers` before is overdue; the new one never is. -/
theorem TimerInv.countdown_register (h : TimerInv w u A B) (hr : u.handler timer ≠ .queued)
    (wait : ℕ) {t : ℕ} (ht : t < 2 ^ w) :
    Countdown (timerRegister w timer wait t u) t ↔
      (heapSize u.timers > 0 → t ≤ heapHeadWeight u.links u.timers) := by
  obtain ⟨hinv, -, hweight, -⟩ := h.register hr wait t
  have hcount : (timerRegister w timer wait t u).countdown =
      (timerSetNextTimer w t (timerRegister w timer wait t u)).countdown := by
    unfold timerRegister
    refine (timerSetNextTimer_countdown ?_ ?_).symm <;> rw [timerSetNextTimer_eq]
  have hA := (h.fresh hr).1
  rw [countdown_iff hinv.timers ht hcount, h.timers.le_headWeight]
  have hold : ∀ a ∈ A, (timerRegister w timer wait t u).links.weight a = u.links.weight a :=
    fun a ha => by
      have hat : a ≠ timer := fun hat => hA (hat ▸ ha)
      rw [hweight, Function.update_of_ne hat]
  by_cases hge : (t + wait) % 2 ^ w ≥ t
  · simp only [hge, if_true, Set.mem_insert_iff, forall_eq_or_imp]
    rw [hweight, Function.update_self]
    constructor
    · exact fun hall a ha => (hold a ha) ▸ hweight ▸ hall.2 a ha
    · exact fun hall => ⟨hge, fun a ha => hweight ▸ (hold a ha).symm ▸ hall a ha⟩
  · simp only [hge, if_false]
    exact forall₂_congr fun a ha => by rw [hold a ha]

/-- After a timer interrupt the countdown is right. -/
theorem TimerInv.countdown_inner (h : TimerInv w u A B) {t : ℕ} (ht : t < 2 ^ w) :
    Countdown (timerInner w t u) t := by
  obtain ⟨hinv, -, hweight, -⟩ := h.inner t
  have hcount : (timerInner w t u).countdown =
      (timerSetNextTimer w t (timerInner w t u)).countdown := by
    unfold timerInner
    dsimp only
    refine (timerSetNextTimer_countdown ?_ ?_).symm <;> rw [timerSetNextTimer_eq]
  rw [countdown_iff hinv.timers ht hcount, hweight]
  rintro a ⟨-, ha⟩
  exact Nat.le_of_lt (Nat.not_le.mp ha)

/-- **The countdown.**  Along every run of registrations and timer interrupts
at whatever true times: the countdown is right after each of them exactly when
no timer is registered while the first timer of `Timers` is overdue. -/
theorem countdownOk_iff_headNotExpired (w t₀ : ℕ) (links : WeightedLinks ν)
    (es : List (TimerEvent ν)) :
    Along (step w) (CountdownOk w) (start w t₀ links) es ↔
      Along (step w) (HeadNotExpired w) (start w t₀ links) es := by
  refine along_congr (I := fun s => ∃ A B, TimerInv w s.unit A B) ?_ ?_
    ⟨∅, ∅, timerInv_startup⟩
  · rintro s e ⟨A, B, h⟩
    have hlt : ∀ now, now % 2 ^ w < 2 ^ w := fun now => Nat.mod_lt _ (Nat.two_pow_pos w)
    cases e with
    | register timer wait now =>
        by_cases hg : s.now ≤ now ∧ wait < 2 ^ w ∧ s.unit.handler timer ≠ .queued
        · simp only [CountdownOk, HeadNotExpired, TimerEvent.reading, step, if_pos hg,
            Option.mem_some_iff, forall_eq', Option.some.injEq, Option.isSome_some, true_imp_iff]
          exact h.countdown_register hg.2.2 wait (hlt now)
        · simp [CountdownOk, HeadNotExpired, step, if_neg hg]
    | interrupt now =>
        simp only [HeadNotExpired, iff_true]
        rintro t ht s' hs
        obtain rfl := Option.some.inj ht
        simp only [step] at hs
        split at hs
        · cases hs
          exact h.countdown_inner (hlt now)
        · cases hs
    | softInterrupt => simp [CountdownOk, HeadNotExpired, TimerEvent.reading]
    | finish timer => simp [CountdownOk, HeadNotExpired, TimerEvent.reading]
  · rintro s e s' ⟨A, B, h⟩ - hs
    exact timerInv_step h hs

/-- Links before any timer is registered. -/
def blankLinks : WeightedLinks ℕ := ⟨fun _ => none, fun _ => none, fun _ => none, fun _ => 0⟩

/-- A timer is due at 5 and its interrupt is late when another one is
registered at 10. -/
def lateRegistration : List (TimerEvent ℕ) := [.register 0 5 0, .register 1 5 10]

/-- The second registration sets the countdown to `2 ^ 64 - 5`. -/
theorem countdown_wraps :
    ¬ Along (step 64) (CountdownOk 64) (start 64 0 blankLinks) lateRegistration := by
  intro h
  have hvalues : (exec (step 64) (start 64 0 blankLinks) lateRegistration).map (fun s =>
      (heapSize s.unit.timers, heapHeadWeight s.unit.links s.unit.timers, s.unit.countdown)) =
        some (2, 5, 2 ^ 64 - 5) := by decide
  obtain ⟨s₂, hrun, hs₂⟩ := Option.map_eq_some_iff.mp hvalues
  obtain ⟨s₁, hfirst, hrest⟩ := exec_cons_eq_some.mp hrun
  obtain ⟨s₂, hsecond, hnil⟩ := exec_cons_eq_some.mp hrest
  cases hnil
  simp only [Prod.mk.injEq] at hs₂
  have hcount := (h.2 s₁ hfirst).1 10 rfl s₂ hsecond (by omega)
  have hzero := hcount.2.1 (by omega)
  omega

end KernelPanic
