import KernelPanic.Kernel.Timer.Run

/-!
# KernelPanic.Hal.Clock

The clock of `hal/unix_hal.c`: `HalTimeDelta` turns two `struct timeval` into
the milliseconds between them, and `HalGetTime` is the time since
`HalInitClock`.

The difference of the seconds and the difference of the microseconds are
converted apart.  The second may be negative, where C's division rounds up and
not down, and both are added up in an unsigned `TIME`.  `tdiv_add_mul_le` says
why the sum is monotone in spite of that: a whole number of milliseconds added
before the division never counts for more than added after it.
-/

namespace KernelPanic

open Run

/-! ## the code -/

/-- `struct timeval`, its fields `long`. -/
structure TimeVal where
  sec : Int64
  usec : Int64
deriving DecidableEq

/-- `HalTimeDelta`. -/
def halTimeDelta (time1 time2 : TimeVal) : UInt64 :=
  let delta : UInt64 := 0
  if time2.sec < time1.sec then 0
  else if time2.sec = time1.sec ∧ time2.usec < time1.usec then 0
  else
    let delta := delta + ((time2.sec - time1.sec) * 1000).toUInt64
    let delta := delta + ((time2.usec - time1.usec) / 1000).toUInt64
    delta

/-- `HalGetTime`, where `gettimeofday` gives `sysTime`. -/
def halGetTime (halStartupTime sysTime : TimeVal) : UInt64 := halTimeDelta halStartupTime sysTime

/-! ## timevals -/

namespace TimeVal

/-- The microseconds are less than a second. -/
def Valid (t : TimeVal) : Prop := 0 ≤ t.usec.toInt ∧ t.usec.toInt < 1000000

instance (t : TimeVal) : Decidable t.Valid := inferInstanceAs (Decidable (_ ∧ _))

/-- The time in microseconds. -/
def micros (t : TimeVal) : ℤ := t.sec.toInt * 1000000 + t.usec.toInt

/-- The milliseconds of the seconds from `t₁` to `t₂` fit in 63 bits. -/
def Fits (t₁ t₂ : TimeVal) : Prop := (t₂.sec.toInt - t₁.sec.toInt) * 1000 < 2 ^ 63

instance (t₁ t₂ : TimeVal) : Decidable (Fits t₁ t₂) := inferInstanceAs (Decidable (_ < _))

end TimeVal

variable {t₁ t₂ t₃ : TimeVal}

/-! ## division that truncates -/

/-- What is lost is less than the divisor. -/
theorem natAbs_tdiv_mul_sub_lt (a : ℤ) {d : ℤ} (hd : 0 < d) :
    (a.tdiv d * d - a).natAbs < d.natAbs := by
  have hsum := Int.mul_tdiv_add_tmod a d
  have hlt := Int.tmod_lt_of_pos a hd
  have hgt := Int.lt_tmod_of_pos a hd
  rw [Int.mul_comm] at hsum
  omega

/-- Multiples of the divisor count for no more before the division than after
it: it rounds up below zero and down above. -/
theorem tdiv_add_mul_le (a : ℤ) {d k : ℤ} (hd : 0 < d) (hk : 0 ≤ k) :
    (a + k * d).tdiv d ≤ a.tdiv d + k := by
  have hkd : 0 ≤ k * d := Int.mul_nonneg hk hd.le
  have hup : (0 ≤ a ∨ d ∣ a) → (0 ≤ a + k * d ∨ d ∣ a + k * d) := by
    rintro (ha | ha)
    · exact .inl (Int.add_nonneg ha hkd)
    · exact .inr (Int.dvd_add ha (Int.dvd_mul_left k d))
  rw [Int.tdiv_eq_ediv, Int.tdiv_eq_ediv, Int.add_mul_ediv_right _ _ hd.ne', Int.sign_eq_one_of_pos hd]
  split
  · split <;> omega
  · next hdown =>
      rw [if_neg (mt hup hdown)]
      omega

/-! ## the difference -/

/-- As many milliseconds as the code adds up, in exact arithmetic. -/
def exactDelta (t₁ t₂ : TimeVal) : ℤ :=
  (t₂.sec.toInt - t₁.sec.toInt) * 1000 + (t₂.usec.toInt - t₁.usec.toInt).tdiv 1000

/-- The guards of `HalTimeDelta` compare the times. -/
theorem micros_lt_iff (h₁ : t₁.Valid) (h₂ : t₂.Valid) :
    t₂.micros < t₁.micros ↔ t₂.sec < t₁.sec ∨ t₂.sec = t₁.sec ∧ t₂.usec < t₁.usec := by
  rw [Int64.lt_iff_toInt_lt, Int64.lt_iff_toInt_lt, ← Int64.toInt_inj]
  unfold TimeVal.Valid at h₁ h₂
  unfold TimeVal.micros
  omega

/-- The exact sum is within a millisecond of the time from `t₁` to `t₂`. -/
theorem exactDelta_error :
    (exactDelta t₁ t₂ * 1000 - (t₂.micros - t₁.micros)).natAbs < 1000 := by
  have herror := natAbs_tdiv_mul_sub_lt (t₂.usec.toInt - t₁.usec.toInt) (d := 1000) (by omega)
  unfold exactDelta TimeVal.micros
  omega

/-- The exact sum is monotone. -/
theorem exactDelta_mono (h₂ : t₂.Valid) (h₃ : t₃.Valid) (hle : t₂.micros ≤ t₃.micros) :
    exactDelta t₁ t₂ ≤ exactDelta t₁ t₃ := by
  unfold TimeVal.Valid at h₂ h₃
  unfold TimeVal.micros at hle
  have hk : 0 ≤ (t₃.sec.toInt - t₂.sec.toInt) * 1000 := by omega
  have hmono : (t₂.usec.toInt - t₁.usec.toInt).tdiv 1000 ≤
      (t₃.usec.toInt - t₁.usec.toInt + (t₃.sec.toInt - t₂.sec.toInt) * 1000 * 1000).tdiv 1000 :=
    Int.tdiv_le_tdiv (by omega) (by omega)
  have hshift := tdiv_add_mul_le (t₃.usec.toInt - t₁.usec.toInt) (d := 1000) (by omega) hk
  unfold exactDelta
  omega

/-- An `Int64` as a `TIME`. -/
theorem toNat_toUInt64 (x : Int64) : (x.toUInt64.toNat : ℤ) = x.toInt % 2 ^ 64 := by
  have hint : x.toInt = Int.bmod x.toUInt64.toNat (2 ^ 64) := BitVec.toInt_eq_toNat_bmod x.toBitVec
  have hmod : Int.bmod x.toUInt64.toNat (2 ^ 64) % ((2 ^ 64 : ℕ) : ℤ) =
      x.toUInt64.toNat % ((2 ^ 64 : ℕ) : ℤ) := Int.bmod_emod
  have hlt := x.toUInt64.toNat_lt
  omega

/-- The two differences are computed without overflow. -/
theorem toInt_differences (h₁ : t₁.Valid) (h₂ : t₂.Valid) (hf : TimeVal.Fits t₁ t₂)
    (hle : t₁.micros ≤ t₂.micros) :
    ((t₂.sec - t₁.sec) * 1000).toInt = (t₂.sec.toInt - t₁.sec.toInt) * 1000 ∧
      ((t₂.usec - t₁.usec) / 1000).toInt = (t₂.usec.toInt - t₁.usec.toInt).tdiv 1000 := by
  have hthousand : (1000 : Int64).toInt = 1000 := rfl
  unfold TimeVal.Valid at h₁ h₂
  unfold TimeVal.Fits at hf
  unfold TimeVal.micros at hle
  constructor
  · have hsec : (t₂.sec - t₁.sec).toInt = t₂.sec.toInt - t₁.sec.toInt := by
      rw [Int64.toInt_sub]
      exact Int.bmod_eq_of_le_mul_two (by omega) (by omega)
    rw [Int64.toInt_mul, hsec, hthousand]
    exact Int.bmod_eq_of_le_mul_two (by omega) (by omega)
  · have husec : (t₂.usec - t₁.usec).toInt = t₂.usec.toInt - t₁.usec.toInt := by
      rw [Int64.toInt_sub]
      exact Int.bmod_eq_of_le_mul_two (by omega) (by omega)
    rw [Int64.toInt_div_of_ne_right _ _ (by decide), husec, hthousand]

/-- **`HalTimeDelta`** is the exact sum, which is never below zero, and 0 for a
time before the first. -/
theorem toNat_halTimeDelta (h₁ : t₁.Valid) (h₂ : t₂.Valid) (hf : TimeVal.Fits t₁ t₂) :
    ((halTimeDelta t₁ t₂).toNat : ℤ) = if t₂.micros < t₁.micros then 0 else exactDelta t₁ t₂ := by
  have hguards := micros_lt_iff h₁ h₂
  unfold halTimeDelta
  dsimp only
  by_cases hbefore : t₂.micros < t₁.micros
  · rw [if_pos hbefore]
    obtain hsec | husec := hguards.mp hbefore
    · rw [if_pos hsec]
      rfl
    · rw [if_pos husec, ite_self]
      rfl
  · obtain ⟨hsec, husec⟩ := not_or.mp (mt hguards.mpr hbefore)
    have hle : t₁.micros ≤ t₂.micros := Int.not_lt.mp hbefore
    have herror : (exactDelta t₁ t₂ * 1000 - (t₂.micros - t₁.micros)).natAbs < 1000 :=
      exactDelta_error
    obtain ⟨hseconds, hmicros⟩ := toInt_differences h₁ h₂ hf hle
    have hA := toNat_toUInt64 ((t₂.sec - t₁.sec) * 1000)
    have hB := toNat_toUInt64 ((t₂.usec - t₁.usec) / 1000)
    have htdiv := natAbs_tdiv_mul_sub_lt (t₂.usec.toInt - t₁.usec.toInt) (d := 1000) (by omega)
    rw [hseconds] at hA
    rw [hmicros] at hB
    rw [if_neg hbefore, if_neg hsec, if_neg husec, UInt64.zero_add, UInt64.toNat_add]
    unfold TimeVal.Valid at h₁ h₂
    unfold TimeVal.Fits at hf
    unfold exactDelta at herror ⊢
    omega

/-- A reading is within a millisecond of the time since the start. -/
theorem halTimeDelta_error (h₁ : t₁.Valid) (h₂ : t₂.Valid) (hf : TimeVal.Fits t₁ t₂)
    (hle : t₁.micros ≤ t₂.micros) :
    ((halTimeDelta t₁ t₂).toNat * 1000 - (t₂.micros - t₁.micros)).natAbs < 1000 := by
  rw [toNat_halTimeDelta h₁ h₂ hf, if_neg (Int.not_lt.mpr hle)]
  exact exactDelta_error

theorem TimeVal.Fits.of_le (hf : TimeVal.Fits t₁ t₃) (h₂ : t₂.Valid) (h₃ : t₃.Valid)
    (hle : t₂.micros ≤ t₃.micros) : TimeVal.Fits t₁ t₂ := by
  unfold TimeVal.Valid at h₂ h₃
  unfold TimeVal.micros at hle
  unfold TimeVal.Fits at hf ⊢
  omega

/-- A later time never has an earlier reading. -/
theorem halTimeDelta_mono (h₁ : t₁.Valid) (h₂ : t₂.Valid) (h₃ : t₃.Valid)
    (hf : TimeVal.Fits t₁ t₃) (hle : t₂.micros ≤ t₃.micros) :
    halTimeDelta t₁ t₂ ≤ halTimeDelta t₁ t₃ := by
  have hd₂ := toNat_halTimeDelta h₁ h₂ (hf.of_le h₂ h₃ hle)
  have hd₃ := toNat_halTimeDelta h₁ h₃ hf
  have hmono : exactDelta t₁ t₂ ≤ exactDelta t₁ t₃ := exactDelta_mono h₂ h₃ hle
  rw [UInt64.le_iff_toNat_le]
  by_cases hbefore : t₂.micros < t₁.micros
  · rw [if_pos hbefore] at hd₂
    omega
  · rw [if_neg hbefore] at hd₂
    rw [if_neg (by omega)] at hd₃
    omega

/-! ## the timer unit on this clock -/

variable {ν : Type*} [DecidableEq ν]

/-- The events of a `TimerRun`, with the system's time where it reads its clock. -/
inductive ClockEvent (ν : Type*) where
  | register (timer : ν) (wait : ℕ) (sysTime : TimeVal)
  | interrupt (sysTime : TimeVal)
  | softInterrupt
  | finish (timer : ν)
deriving DecidableEq

namespace ClockEvent

/-- The event, the clock read. -/
def read (halStartupTime : TimeVal) : ClockEvent ν → TimerEvent ν
  | register timer wait sysTime => .register timer wait (halGetTime halStartupTime sysTime).toNat
  | interrupt sysTime => .interrupt (halGetTime halStartupTime sysTime).toNat
  | softInterrupt => .softInterrupt
  | finish timer => .finish timer

/-- The system's time at the event; `last` where the event does not ask. -/
def sysTime (last : TimeVal) : ClockEvent ν → TimeVal
  | register _ _ sysTime => sysTime
  | interrupt sysTime => sysTime
  | softInterrupt => last
  | finish _ => last

end ClockEvent

/-- The timer unit and the system's time when it was last asked for. -/
structure ClockRun (ν : Type*) where
  timers : TimerRun ν
  last : TimeVal

namespace ClockRun

/-- `gettimeofday` may say `sysTime`: the system's clock has not gone back. -/
def Admits (halStartupTime : TimeVal) (s : ClockRun ν) (sysTime : TimeVal) : Prop :=
  s.last.micros ≤ sysTime.micros ∧ sysTime.Valid ∧ TimeVal.Fits halStartupTime sysTime

instance (halStartupTime : TimeVal) (s : ClockRun ν) (sysTime : TimeVal) :
    Decidable (s.Admits halStartupTime sysTime) := inferInstanceAs (Decidable (_ ∧ _ ∧ _))

/-- After `TimerStartup`, which reads the clock at `sysTime`. -/
def start (halStartupTime sysTime : TimeVal) (links : WeightedLinks ν) : ClockRun ν where
  timers := .start 64 (halGetTime halStartupTime sysTime).toNat links
  last := sysTime

/-- One event. -/
def step (halStartupTime : TimeVal) (s : ClockRun ν) (e : ClockEvent ν) : Option (ClockRun ν) :=
  if s.Admits halStartupTime (e.sysTime s.last) then
    (s.timers.step 64 (e.read halStartupTime)).map fun timers => ⟨timers, e.sysTime s.last⟩
  else none

end ClockRun

/-- The clock is not behind what the timer unit has read, and no wrap has been
seen. -/
structure ClockRun.Steady (halStartupTime : TimeVal) (s : ClockRun ν) : Prop where
  valid : s.last.Valid
  fits : TimeVal.Fits halStartupTime s.last
  now : s.timers.now = (halGetTime halStartupTime s.last).toNat
  lastTime : s.timers.unit.timerLastTime ≤ s.timers.now
  swaps : s.timers.swaps = 0

theorem timerLastTime_timerRegister {w wait time : ℕ} {timer : ν} {u : TimerUnit ν} :
    (timerRegister w timer wait time u).timerLastTime = u.timerLastTime := by
  unfold timerRegister
  rw [timerSetNextTimer_eq]
  dsimp only
  split
  · split <;> rfl
  · split <;> rfl

variable {halStartupTime : TimeVal} {s s' : ClockRun ν} {e : ClockEvent ν}

theorem toNat_mod_word (t : UInt64) : t.toNat % 2 ^ 64 = t.toNat := Nat.mod_eq_of_lt t.toNat_lt

omit [DecidableEq ν] in
/-- **The reading never decreases** while the system's clock does not. -/
theorem ClockRun.Steady.le_reading (hstartup : halStartupTime.Valid) (h : s.Steady halStartupTime)
    {sysTime : TimeVal} (hadm : s.Admits halStartupTime sysTime) :
    s.timers.now ≤ (halGetTime halStartupTime sysTime).toNat := by
  obtain ⟨hle, hvalid, hfits⟩ := hadm
  rw [h.now]
  exact halTimeDelta_mono hstartup h.valid hvalid hfits hle

omit [DecidableEq ν] in
theorem clockRun_start_steady {sysTime : TimeVal} (hvalid : sysTime.Valid)
    (hfits : TimeVal.Fits halStartupTime sysTime) (links : WeightedLinks ν) :
    (ClockRun.start halStartupTime sysTime links).Steady halStartupTime where
  valid := hvalid
  fits := hfits
  now := rfl
  lastTime := by
    show (timerStartup 64 ((halGetTime halStartupTime sysTime).toNat % 2 ^ 64) links).timerLastTime ≤ _
    rw [timerStartup, timerSetNextTimer_eq, toNat_mod_word]
    exact le_rfl
  swaps := rfl

/-- Every event keeps the unit steady. -/
theorem ClockRun.Steady.step (hstartup : halStartupTime.Valid) (h : s.Steady halStartupTime)
    (hs : s.step halStartupTime e = some s') : s'.Steady halStartupTime := by
  obtain ⟨hadm, hs⟩ := Option.ite_none_right_eq_some.mp hs
  obtain ⟨timers, hstep, rfl⟩ := Option.map_eq_some_iff.mp hs
  have hread := h.le_reading hstartup hadm
  cases e with
  | register timer wait sysTime =>
      obtain ⟨-, hstep⟩ := Option.ite_none_right_eq_some.mp hstep
      rw [Option.some.injEq] at hstep
      subst hstep
      refine ⟨hadm.2.1, hadm.2.2, rfl, ?_, h.swaps⟩
      dsimp only
      rw [timerLastTime_timerRegister]
      exact h.lastTime.trans hread
  | interrupt sysTime =>
      obtain ⟨-, hstep⟩ := Option.ite_none_right_eq_some.mp hstep
      rw [Option.some.injEq] at hstep
      subst hstep
      refine ⟨hadm.2.1, hadm.2.2, rfl, ?_, ?_⟩
      · show (halGetTime halStartupTime sysTime).toNat % 2 ^ 64 ≤ _
        rw [toNat_mod_word]
      · -- A wrap is seen only where the reading has gone back.
        have hnot : ¬ (halGetTime halStartupTime sysTime).toNat < s.timers.unit.timerLastTime :=
          Nat.not_lt.mpr (h.lastTime.trans hread)
        show s.timers.swapsAt 64 _ = 0
        rw [TimerRun.swapsAt, toNat_mod_word, if_neg hnot, h.swaps]
  | softInterrupt =>
      simp only [ClockEvent.read, TimerRun.step] at hstep
      split at hstep
      · cases hstep
      · cases hstep
        exact ⟨h.valid, h.fits, h.now, h.lastTime, h.swaps⟩
  | finish timer =>
      obtain ⟨-, hstep⟩ := Option.ite_none_right_eq_some.mp hstep
      rw [Option.some.injEq] at hstep
      subst hstep
      exact ⟨h.valid, h.fits, h.now, h.lastTime, h.swaps⟩

/-- **The clock.**  A time before the start reads 0, any other its distance from
the start to within a millisecond, and a later time never less.  In every run of
the timer unit on a system clock that does not go back, the next reading is not
below `TimerLastTime`, and the heaps have never changed places. -/
theorem clock_accurate_monotone (links : WeightedLinks ν) (hstartup : halStartupTime.Valid)
    (h₂ : t₂.Valid) (hf₂ : TimeVal.Fits halStartupTime t₂) :
    (t₂.micros < halStartupTime.micros → halTimeDelta halStartupTime t₂ = 0) ∧
      (halStartupTime.micros ≤ t₂.micros →
        ((halTimeDelta halStartupTime t₂).toNat * 1000 -
          (t₂.micros - halStartupTime.micros)).natAbs < 1000) ∧
      (∀ t₃ : TimeVal, t₃.Valid → TimeVal.Fits halStartupTime t₃ → t₂.micros ≤ t₃.micros →
        halTimeDelta halStartupTime t₂ ≤ halTimeDelta halStartupTime t₃) ∧
      ∀ es s, exec (ClockRun.step halStartupTime) (.start halStartupTime t₂ links) es = some s →
        s.timers.swaps = 0 ∧ ∀ sysTime, s.Admits halStartupTime sysTime →
          s.timers.unit.timerLastTime ≤ (halGetTime halStartupTime sysTime).toNat := by
  refine ⟨fun hbefore => ?_, fun hle => halTimeDelta_error hstartup h₂ hf₂ hle,
    fun t₃ h₃ hf₃ hle => halTimeDelta_mono hstartup h₂ h₃ hf₃ hle, fun es s hrun => ?_⟩
  · have hzero := toNat_halTimeDelta hstartup h₂ hf₂
    rw [if_pos hbefore] at hzero
    exact UInt64.toNat_inj.mp (Int.ofNat_inj.mp hzero)
  · have hsteady : s.Steady halStartupTime :=
      exec_invariant (fun s e s' hs => hs.step hstartup) (clockRun_start_steady h₂ hf₂ links) hrun
    exact ⟨hsteady.swaps, fun sysTime hadm =>
      hsteady.lastTime.trans (hsteady.le_reading hstartup hadm)⟩

theorem clock_accurate_monotone_sample :
    ((halTimeDelta ⟨100, 999999⟩ ⟨101, 500⟩).toNat * 1000 -
        (TimeVal.micros ⟨101, 500⟩ - TimeVal.micros ⟨100, 999999⟩)).natAbs < 1000 ∧
      halTimeDelta ⟨100, 999999⟩ ⟨101, 500⟩ ≤ halTimeDelta ⟨100, 999999⟩ ⟨102, 0⟩ := by
  have hstartup : TimeVal.Valid ⟨100, 999999⟩ := by decide
  have hvalid : TimeVal.Valid ⟨101, 500⟩ := by decide
  have hfits : TimeVal.Fits ⟨100, 999999⟩ ⟨101, 500⟩ := by decide
  have hvalid' : TimeVal.Valid ⟨102, 0⟩ := by decide
  have hfits' : TimeVal.Fits ⟨100, 999999⟩ ⟨102, 0⟩ := by decide
  have hlater : TimeVal.micros ⟨100, 999999⟩ ≤ TimeVal.micros ⟨101, 500⟩ := by decide
  have hlatest : TimeVal.micros ⟨101, 500⟩ ≤ TimeVal.micros ⟨102, 0⟩ := by decide
  obtain ⟨-, hnear, hmono, -⟩ := clock_accurate_monotone (ν := ℕ)
    ⟨fun _ => none, fun _ => none, fun _ => none, fun _ => 0⟩ hstartup hvalid hfits
  exact ⟨hnear hlater, hmono _ hvalid' hfits' hlatest⟩

end KernelPanic
