import KernelPanic.Kernel.Timer.Run

/-!
# KernelPanic.Kernel.Timer.WrapAround

When timers fire, in true time, although the clock wraps around.

A registration picks its heap from its own clock reading; the heaps are
exchanged only by the next timer interrupt that finds its reading below the
last one's.  So the unit has an epoch of its own, counted by the exchanges,
and fires a timer at the first interrupt at or after its deadline *in that
epoch* (`ClockInv.fired_iff`).  The two epochs agree for a timer when, since
its registration, the heaps have been exchanged as often as the clock has
wrapped.  A timer registered after a wrap and before the interrupt that
notices it is taken to be one epoch older, and fires with that interrupt
whether or not it is due; a wrap that is followed by an interrupt exactly
`2 ^ w` after the last is never noticed at all.
-/

namespace KernelPanic

open Run TimerRun

variable {ν : Type*} [DecidableEq ν] {w : ℕ} {s s' : TimerRun ν} {A B : Set ν} {e : TimerEvent ν}
  {t₀ : ℕ}

/-! ## statement -/

/-- The timer is registered and not yet with the soft interrupt. -/
def TimerRun.Pending (s : TimerRun ν) (a : ν) : Prop :=
  s.unit.handler a = .queued ∧ a ∉ s.unit.softList

/-- A timer interrupt moves to the soft interrupt, each once, exactly the
pending timers whose deadline has come, and no assertion fails. -/
def FiresRight (w : ℕ) (s : TimerRun ν) (e : TimerEvent ν) : Prop :=
  match e with
  | .interrupt now => ∀ s', s.step w e = some s' → s'.unit.panicked = false ∧
      ∃ fired, s'.unit.softList = fired ++ s.unit.softList ∧ fired.Nodup ∧
        ∀ a, a ∈ fired ↔ s.Pending a ∧ (s.registered a).deadline ≤ now
  | _ => True

/-- Since the timer's registration the heaps have been exchanged, by an
interrupt at `now` included, as often as the clock has wrapped, or the
difference does not matter.  With an exchange too many it does not matter for
a timer that is due; with `k` too few, for one that is not due or was due `k`
epochs ago. -/
def WrapsMatch (w : ℕ) (s : TimerRun ν) (now : ℕ) (a : ν) : Prop :=
  let r := s.registered a
  let wraps := now / 2 ^ w - r.time / 2 ^ w
  let swaps := s.swapsAt w now - r.swaps
  (wraps < swaps → r.deadline ≤ now) ∧
    (swaps < wraps → now < r.deadline ∨ r.deadline + (wraps - swaps) * 2 ^ w ≤ now)

/-- The exchanges match the wraps for every timer pending at a timer
interrupt. -/
def WrapsSeen (w : ℕ) (s : TimerRun ν) (e : TimerEvent ν) : Prop :=
  match e with
  | .interrupt now => s.now ≤ now → ∀ a, s.Pending a → WrapsMatch w s now a
  | _ => True

/-- A timer interrupt comes fewer than `2 ^ w` ticks after the one before. -/
def GapLt (w : ℕ) (s : TimerRun ν) : TimerEvent ν → Prop
  | .interrupt now => now < s.lastInterrupt + 2 ^ w
  | _ => True

/-- Every timer pending at a timer interrupt that was registered after a wrap
no interrupt had seen is due. -/
def DueIfLate (w : ℕ) (s : TimerRun ν) (e : TimerEvent ν) : Prop :=
  match e with
  | .interrupt now => s.now ≤ now → ∀ a, s.Pending a →
      let r := s.registered a
      r.lastInterrupt / 2 ^ w < r.time / 2 ^ w → r.deadline ≤ now
  | _ => True

/-! ## arithmetic of epochs -/

/-- Times compare by epoch first, then by reading. -/
theorem le_iff_epoch {W a b : ℕ} (hW : 0 < W) :
    a ≤ b ↔ a / W < b / W ∨ (a / W = b / W ∧ a % W ≤ b % W) := by
  have ha := Nat.div_add_mod a W
  have hb := Nat.div_add_mod b W
  have hma := Nat.mod_lt a hW
  have hmb := Nat.mod_lt b hW
  constructor
  · intro hab
    have hle : a / W ≤ b / W := Nat.div_le_div_right hab
    obtain hlt | heq := Nat.lt_or_eq_of_le hle
    · exact .inl hlt
    · rw [heq] at ha
      exact .inr ⟨heq, by omega⟩
  · rintro (hlt | ⟨heq, hmod⟩)
    · have hmul : W * (a / W) + W ≤ W * (b / W) := by
        rw [← Nat.mul_succ]
        exact Nat.mul_le_mul_left W hlt
      omega
    · rw [heq] at ha
      omega

/-- A wait shorter than an epoch ends in the same epoch at a later reading, or
in the next at an earlier one. -/
theorem epoch_add {W a v : ℕ} (hv : v < W) :
    ((a + v) / W = a / W ∧ a % W ≤ (a + v) % W) ∨
      ((a + v) / W = a / W + 1 ∧ (a + v) % W < a % W) := by
  have hW : 0 < W := by omega
  have hm := Nat.mod_lt a hW
  have hdiv : (a + v) / W = a / W + (a % W + v) / W := by
    conv_lhs => rw [← Nat.div_add_mod a W, Nat.add_assoc, Nat.mul_add_div hW]
  have hmod : (a + v) % W = (a % W + v) % W := by
    rw [Nat.mod_add_mod]
  by_cases hlt : a % W + v < W
  · rw [hdiv, hmod, Nat.div_eq_of_lt hlt, Nat.mod_eq_of_lt hlt]
    exact .inl ⟨rfl, by omega⟩
  · have hsub : (a % W + v) / W = 1 := Nat.div_eq_of_lt_le (by omega) (by omega)
    have hsub' : (a % W + v) % W = a % W + v - W := by
      rw [Nat.mod_eq_sub_mod (by omega), Nat.mod_eq_of_lt (by omega)]
    rw [hdiv, hmod, hsub, hsub']
    exact .inr ⟨rfl, by omega⟩

/-! ## the unit's own epoch -/

/-- What the unit knows of a pending timer: its weight is the reading at its
deadline, and in the unit's own count the deadline's epoch is `epoch`. -/
structure Booked (w : ℕ) (s : TimerRun ν) (epoch : ℕ) (a : ν) : Prop where
  weight : s.unit.links.weight a = (s.registered a).deadline % 2 ^ w
  wait : (s.registered a).wait < 2 ^ w
  time : (s.registered a).time ≤ s.now
  swaps : (s.registered a).swaps ≤ s.swaps
  epoch : (s.registered a).swaps + ((s.registered a).deadline / 2 ^ w -
    (s.registered a).time / 2 ^ w) = epoch

/-- `Timers` holds the timers due in the unit's epoch, `TimersOverflow` those
due in the next. -/
structure ClockInv (w : ℕ) (s : TimerRun ν) (A B : Set ν) : Prop where
  inv : TimerInv w s.unit A B
  timers : ∀ a ∈ A, Booked w s s.swaps a
  overflow : ∀ a ∈ B, Booked w s (s.swaps + 1) a

omit [DecidableEq ν] in
theorem ClockInv.pending_iff (h : ClockInv w s A B) (a : ν) : s.Pending a ↔ a ∈ A ∨ a ∈ B :=
  (h.inv.pending a).symm

omit [DecidableEq ν] in
theorem clockInv_start (t₀ : ℕ) (links : WeightedLinks ν) :
    ClockInv w (start w t₀ links) ∅ ∅ :=
  ⟨timerInv_startup, by simp, by simp⟩

omit [DecidableEq ν] in
/-- **The unit's own clock.**  An interrupt fires exactly the pending timers
whose deadline, in the unit's epoch, has come. -/
theorem ClockInv.fired_iff (h : ClockInv w s A B) {now : ℕ} {a : ν} (hp : s.Pending a) :
    (now % 2 ^ w < s.unit.timerLastTime ∧ a ∈ A) ∨
        (a ∈ (if now % 2 ^ w < s.unit.timerLastTime then B else A) ∧
          s.unit.links.weight a ≤ now % 2 ^ w) ↔
      let r := s.registered a
      let epoch := r.swaps + (r.deadline / 2 ^ w - r.time / 2 ^ w)
      epoch < s.swapsAt w now ∨ (epoch = s.swapsAt w now ∧ r.deadline % 2 ^ w ≤ now % 2 ^ w) := by
  dsimp only
  unfold swapsAt
  obtain ha | ha := (h.pending_iff a).mp hp
  · have hb := h.inv.disjoint a ha
    have hbook := h.timers a ha
    rw [hbook.weight, hbook.epoch]
    split <;> simp_all
  · have hA : a ∉ A := fun haA => h.inv.disjoint a haA ha
    have hbook := h.overflow a ha
    rw [hbook.weight, hbook.epoch]
    split <;> simp_all

/-- For one timer the unit's epoch gives the right answer exactly when the
exchanges seen since its registration match the wraps, or the difference does
not matter. -/
theorem fired_iff_due {W time wait now swaps swaps' : ℕ} (hwait : wait < W) (htime : time ≤ now)
    (hswaps : swaps ≤ swaps') :
    ((swaps + ((time + wait) / W - time / W) < swaps' ∨
        (swaps + ((time + wait) / W - time / W) = swaps' ∧ (time + wait) % W ≤ now % W)) ↔
      time + wait ≤ now) ↔
    (now / W - time / W < swaps' - swaps → time + wait ≤ now) ∧
      (swaps' - swaps < now / W - time / W →
        now < time + wait ∨
          time + wait + (now / W - time / W - (swaps' - swaps)) * W ≤ now) := by
  have hW : 0 < W := by omega
  have hdue := le_iff_epoch (a := time + wait) (b := now) hW
  have hle := (le_iff_epoch hW).mp htime
  have hshift := le_iff_epoch (b := now) hW
    (a := time + wait + (now / W - time / W - (swaps' - swaps)) * W)
  rw [Nat.add_mul_div_right _ _ hW, Nat.add_mul_mod_self_right] at hshift
  rw [hshift, ← not_le, hdue]
  obtain ⟨hq, hr⟩ | ⟨hq, hr⟩ := epoch_add (a := time) hwait <;> rw [hq] <;> omega

/-! ## every run -/

omit [DecidableEq ν] in
/-- A timer stays booked while its registration and weight stay. -/
theorem Booked.congr {epoch : ℕ} {a : ν} (h : Booked w s epoch a)
    (hw : s'.unit.links.weight a = s.unit.links.weight a)
    (hr : s'.registered a = s.registered a) (hn : s.now ≤ s'.now) (hs : s.swaps ≤ s'.swaps) :
    Booked w s' epoch a where
  weight := by rw [hw, hr]; exact h.weight
  wait := by rw [hr]; exact h.wait
  time := by rw [hr]; exact h.time.trans hn
  swaps := by rw [hr]; exact h.swaps.trans hs
  epoch := by rw [hr]; exact h.epoch

/-- A registration books the new timer in the heap it goes to. -/
theorem ClockInv.register {timer : ν} {wait now : ℕ} (h : ClockInv w s A B)
    (hs : s.step w (.register timer wait now) = some s') : ∃ A' B', ClockInv w s' A' B' := by
  simp only [step] at hs
  split at hs
  · next hg =>
      obtain ⟨hnow, hwait, hq⟩ := hg
      obtain ⟨hinv, -, hweight, -⟩ := h.inv.register hq wait (now % 2 ^ w)
      obtain ⟨hA, hB, -⟩ := h.inv.fresh hq
      have hmod : (now % 2 ^ w + wait) % 2 ^ w = (now + wait) % 2 ^ w := Nat.mod_add_mod ..
      have hepoch := epoch_add (a := now) hwait
      cases hs
      have hold : ∀ epoch a, a ≠ timer → Booked w s epoch a → Booked w { s with
          unit := timerRegister w timer wait (now % 2 ^ w) s.unit
          now := now
          registered := Function.update s.registered timer
            ⟨now, wait, s.lastInterrupt, s.swaps⟩ } epoch a := fun epoch a hat hb =>
        hb.congr (by rw [hweight, Function.update_of_ne hat]) (Function.update_of_ne hat ..) hnow
          le_rfl
      have hnew : ∀ epoch, s.swaps + ((now + wait) / 2 ^ w - now / 2 ^ w) = epoch →
          Booked w { s with
            unit := timerRegister w timer wait (now % 2 ^ w) s.unit
            now := now
            registered := Function.update s.registered timer
              ⟨now, wait, s.lastInterrupt, s.swaps⟩ } epoch timer := fun epoch hep => by
        refine ⟨?_, ?_, ?_, ?_, ?_⟩ <;> simp only [Function.update_self, Registration.deadline]
        · rw [hweight, Function.update_self, hmod]
        · exact hwait
        · exact le_rfl
        · exact le_rfl
        · exact hep
      refine ⟨_, _, hinv, fun a ha => ?_, fun a ha => ?_⟩
      · rw [hmod] at ha
        split at ha
        · next hge =>
            obtain rfl | ha := Set.mem_insert_iff.mp ha
            · exact hnew _ (by show s.swaps + _ = s.swaps; omega)
            · exact hold _ a (fun hat => hA (hat ▸ ha)) (h.timers a ha)
        · exact hold _ a (fun hat => hA (hat ▸ ha)) (h.timers a ha)
      · rw [hmod] at ha
        split at ha
        · exact hold _ a (fun hat => hB (hat ▸ ha)) (h.overflow a ha)
        · next hge =>
            obtain rfl | ha := Set.mem_insert_iff.mp ha
            · exact hnew _ (by show s.swaps + _ = s.swaps + 1; omega)
            · exact hold _ a (fun hat => hB (hat ▸ ha)) (h.overflow a ha)
  · cases hs

/-- An interrupt keeps what does not fire booked, one epoch on if it exchanges
the heaps. -/
theorem ClockInv.interrupt {now : ℕ} (h : ClockInv w s A B)
    (hs : s.step w (.interrupt now) = some s') : ∃ A' B', ClockInv w s' A' B' := by
  simp only [step] at hs
  split at hs
  · next hnow =>
      obtain ⟨hinv, -, hweight, -⟩ := h.inv.inner (now % 2 ^ w)
      cases hs
      have hkeep : ∀ epoch a, Booked w s epoch a → Booked w { s with
          unit := timerInner w (now % 2 ^ w) s.unit
          now := now
          lastInterrupt := now
          swaps := s.swapsAt w now } epoch a := fun epoch a hb =>
        hb.congr (congrFun hweight a) rfl hnow (Nat.le_add_right ..)
      refine ⟨_, _, hinv, fun a ha => ?_, fun a ha => ?_⟩
      · have ha := ha.1
        unfold swapsAt at hkeep ⊢
        split at ha
        · next hlt =>
            simp only [hlt, if_true] at hkeep ⊢
            exact hkeep _ a (h.overflow a ha)
        · next hlt =>
            simp only [hlt, if_false] at hkeep ⊢
            exact hkeep _ a (h.timers a ha)
      · unfold swapsAt at hkeep ⊢
        split at ha
        · exact absurd ha (Set.notMem_empty a)
        · next hlt =>
            simp only [hlt, if_false] at hkeep ⊢
            exact hkeep _ a (h.overflow a ha)
  · cases hs

/-- **Every event keeps the books.** -/
theorem clockInv_step (h : ClockInv w s A B) (hs : s.step w e = some s') :
    ∃ A' B', ClockInv w s' A' B' := by
  cases e with
  | register timer wait now => exact h.register hs
  | interrupt now => exact h.interrupt hs
  | softInterrupt =>
      simp only [step] at hs
      split at hs
      · cases hs
      · next hl =>
          cases hs
          exact ⟨A, B, h.inv.softInterrupt hl, fun a ha => (h.timers a ha).congr rfl rfl le_rfl le_rfl,
            fun a ha => (h.overflow a ha).congr rfl rfl le_rfl le_rfl⟩
  | finish timer =>
      simp only [step] at hs
      split at hs
      · next hr =>
          cases hs
          exact ⟨A, B, h.inv.finish hr, fun a ha => (h.timers a ha).congr rfl rfl le_rfl le_rfl,
            fun a ha => (h.overflow a ha).congr rfl rfl le_rfl le_rfl⟩
      · cases hs

/-- At one interrupt, the right timers fire exactly when the exchanges match
the wraps for every pending timer. -/
theorem ClockInv.firesRight_iff (h : ClockInv w s A B) : FiresRight w s e ↔ WrapsSeen w s e := by
  cases e with
  | register timer wait now => exact Iff.rfl
  | softInterrupt => exact Iff.rfl
  | finish timer => exact Iff.rfl
  | interrupt now =>
      by_cases hnow : s.now ≤ now
      · obtain ⟨hinv, -, -, -, fired, hsoft, hmem⟩ := h.inv.inner (now % 2 ^ w)
        have hnodup : fired.Nodup := by
          have := hinv.nodup
          rw [hsoft] at this
          exact (List.nodup_append.mp this).1
        have hpend : ∀ a ∈ fired, s.Pending a := fun a ha => by
          rw [h.pending_iff]
          obtain ⟨-, haA⟩ | ⟨ha, -⟩ := (hmem a).mp ha
          · exact .inl haA
          · split at ha
            · exact .inr ha
            · exact .inl ha
        have hiff : ∀ a, s.Pending a →
            ((a ∈ fired ↔ (s.registered a).deadline ≤ now) ↔ WrapsMatch w s now a) := by
          intro a ha
          obtain ⟨epoch, hbook⟩ : ∃ epoch, Booked w s epoch a :=
            ((h.pending_iff a).mp ha).elim (fun haA => ⟨_, h.timers a haA⟩)
              fun haB => ⟨_, h.overflow a haB⟩
          rw [hmem, h.fired_iff ha]
          exact fired_iff_due hbook.wait (hbook.time.trans hnow)
            (hbook.swaps.trans (Nat.le_add_right ..))
        simp only [FiresRight, WrapsSeen, step, hnow, if_true, Option.some.injEq, forall_eq',
          true_imp_iff]
        constructor
        · rintro ⟨-, fired', hsoft', -, hmem'⟩ a ha
          have hsame : fired' = fired := List.append_cancel_right (hsoft'.symm.trans hsoft)
          rw [← hiff a ha, ← hsame, hmem' a]
          exact ⟨fun hand => hand.2, fun hdue => ⟨ha, hdue⟩⟩
        · intro hseen
          refine ⟨hinv.fine, fired, hsoft, hnodup, fun a => ⟨fun ha => ?_, fun ha => ?_⟩⟩
          · exact ⟨hpend a ha, ((hiff a (hpend a ha)).mpr (hseen a (hpend a ha))).mp ha⟩
          · exact ((hiff a ha.1).mpr (hseen a ha.1)).mpr ha.2
      · simp [FiresRight, WrapsSeen, step, hnow]

/-! ## interrupts less than an epoch apart -/

/-- While no wrap is missed, the unit's epoch is the clock's. -/
structure GapInv (w t₀ : ℕ) (s : TimerRun ν) : Prop where
  lastTime : s.unit.timerLastTime = s.lastInterrupt % 2 ^ w
  swaps : s.swaps + t₀ / 2 ^ w = s.lastInterrupt / 2 ^ w
  now : s.lastInterrupt ≤ s.now
  pending : ∀ a, s.Pending a →
    (s.registered a).swaps + t₀ / 2 ^ w = (s.registered a).lastInterrupt / 2 ^ w ∧
      (s.registered a).lastInterrupt ≤ (s.registered a).time ∧ (s.registered a).time ≤ s.now

omit [DecidableEq ν] in
theorem gapInv_start (t₀ : ℕ) (links : WeightedLinks ν) : GapInv w t₀ (start w t₀ links) where
  lastTime := by
    show (timerStartup w (t₀ % 2 ^ w) links).timerLastTime = _
    rw [timerStartup, timerSetNextTimer_eq]
    rfl
  swaps := Nat.zero_add _
  now := le_rfl
  pending a ha := by
    have hready : (start w t₀ links).unit.handler a = .ready := by
      show (timerStartup w (t₀ % 2 ^ w) links).handler a = _
      rw [timerStartup, timerSetNextTimer_eq]
    rw [TimerRun.Pending, hready] at ha
    cases ha.1

omit [DecidableEq ν] in
/-- An interrupt less than an epoch after the last sees every wrap. -/
theorem GapInv.swapsAt (h : GapInv w t₀ s) {now : ℕ} (hnow : s.now ≤ now)
    (hgap : now < s.lastInterrupt + 2 ^ w) : s.swapsAt w now + t₀ / 2 ^ w = now / 2 ^ w := by
  have hle := h.now.trans hnow
  have hadd : s.lastInterrupt + (now - s.lastInterrupt) = now := by omega
  have hepoch := epoch_add (a := s.lastInterrupt) (W := 2 ^ w) (v := now - s.lastInterrupt)
    (by omega)
  rw [hadd] at hepoch
  have hswaps := h.swaps
  unfold TimerRun.swapsAt
  rw [h.lastTime]
  obtain ⟨hq, hr⟩ | ⟨hq, hr⟩ := hepoch
  · rw [if_neg (Nat.not_lt.mpr hr), hq]
    exact hswaps
  · rw [if_pos hr, hq]
    omega

omit [DecidableEq ν] in
/-- Then a mismatch is a timer registered between a wrap and the interrupt that
sees it. -/
theorem GapInv.wrapsMatch_iff (h : GapInv w t₀ s) {now : ℕ} {a : ν} (hp : s.Pending a)
    (hnow : s.now ≤ now) (hgap : now < s.lastInterrupt + 2 ^ w) :
    WrapsMatch w s now a ↔ ((s.registered a).lastInterrupt / 2 ^ w < (s.registered a).time / 2 ^ w →
      (s.registered a).deadline ≤ now) := by
  obtain ⟨hswaps, hlast, htime⟩ := h.pending a hp
  have hnew := h.swapsAt hnow hgap
  have h1 : (s.registered a).lastInterrupt / 2 ^ w ≤ (s.registered a).time / 2 ^ w :=
    Nat.div_le_div_right hlast
  have h2 : (s.registered a).time / 2 ^ w ≤ now / 2 ^ w := Nat.div_le_div_right (htime.trans hnow)
  unfold WrapsMatch
  constructor
  · exact fun hmatch hlate => hmatch.1 (by omega)
  · exact fun hdue => ⟨fun hlt => hdue (by omega), fun hlt => by omega⟩

omit [DecidableEq ν] in
/-- A step that leaves the registrations as they are. -/
theorem GapInv.of_pending (h : GapInv w t₀ s) (hp : ∀ a, s'.Pending a → s.Pending a)
    (hr : s'.registered = s.registered) (hn : s.now ≤ s'.now)
    (hlast : s'.unit.timerLastTime = s'.lastInterrupt % 2 ^ w)
    (hswaps : s'.swaps + t₀ / 2 ^ w = s'.lastInterrupt / 2 ^ w)
    (hnow : s'.lastInterrupt ≤ s'.now) : GapInv w t₀ s' where
  lastTime := hlast
  swaps := hswaps
  now := hnow
  pending a ha := by
    obtain ⟨h1, h2, h3⟩ := h.pending a (hp a ha)
    rw [hr]
    exact ⟨h1, h2, h3.trans hn⟩

/-- Every event keeps the epochs together, if interrupts are less than an epoch
apart. -/
theorem gapInv_step (h : GapInv w t₀ s) (hi : TimerInv w s.unit A B) (hgap : GapLt w s e)
    (hs : s.step w e = some s') : GapInv w t₀ s' := by
  cases e with
  | register timer wait now =>
      simp only [step] at hs
      split at hs
      · next hg =>
          obtain ⟨-, hsoft, -, hhandler, hlast⟩ := hi.register hg.2.2 wait (now % 2 ^ w)
          cases hs
          refine ⟨hlast.trans h.lastTime, h.swaps, h.now.trans hg.1, fun a ha => ?_⟩
          by_cases hat : a = timer
          · subst hat
            simp only [Function.update_self]
            exact ⟨h.swaps, h.now.trans hg.1, le_rfl⟩
          · rw [TimerRun.Pending, hhandler, hsoft, Function.update_of_ne hat] at ha
            obtain ⟨h1, h2, h3⟩ := h.pending a ha
            simp only [Function.update_of_ne hat]
            exact ⟨h1, h2, h3.trans hg.1⟩
      · cases hs
  | interrupt now =>
      simp only [step] at hs
      split at hs
      · next hnow =>
          obtain ⟨-, hlast, -, hhandler, fired, hsoft, -⟩ := hi.inner (now % 2 ^ w)
          cases hs
          refine h.of_pending (fun a ha => ?_) rfl hnow hlast (h.swapsAt hnow hgap) le_rfl
          rw [TimerRun.Pending, hhandler, hsoft] at ha
          exact ⟨ha.1, fun hmem => ha.2 (List.mem_append_right fired hmem)⟩
      · cases hs
  | softInterrupt =>
      simp only [step] at hs
      split at hs
      · cases hs
      · next timer rest hl =>
          cases hs
          refine h.of_pending (fun a ha => ?_) rfl le_rfl h.lastTime h.swaps h.now
          by_cases hat : a = timer
          · subst hat
            simp [TimerRun.Pending, TimerUnit.run, TimerUnit.assert, handlerRun] at ha
          · simp only [TimerRun.Pending, TimerUnit.run, TimerUnit.assert, Function.update_of_ne hat]
              at ha
            rw [TimerRun.Pending, hl, List.mem_cons, not_or]
            exact ⟨ha.1, hat, ha.2⟩
  | finish timer =>
      simp only [step] at hs
      split at hs
      · cases hs
        refine h.of_pending (fun a ha => ?_) rfl le_rfl h.lastTime h.swaps h.now
        by_cases hat : a = timer
        · subst hat
          simp [TimerRun.Pending] at ha
        · simp only [TimerRun.Pending, Function.update_of_ne hat] at ha
          exact ha
      · cases hs

/-- **Timers and the wrap of the clock.**  Along every run: each interrupt
fires exactly the pending timers that are due, and no assertion fails, exactly
when at each interrupt the heaps have been exchanged as often as the clock has
wrapped since the registration of each pending timer, up to differences that
do not matter.  When interrupts are less than `2 ^ w` apart that is: every
timer registered between a wrap and the next interrupt is due by that
interrupt. -/
theorem firesRight_iff_wrapsSeen (w t₀ : ℕ) (links : WeightedLinks ν) (es : List (TimerEvent ν)) :
    (Along (step w) (FiresRight w) (start w t₀ links) es ↔
      Along (step w) (WrapsSeen w) (start w t₀ links) es) ∧
    (Along (step w) (GapLt w) (start w t₀ links) es →
      (Along (step w) (FiresRight w) (start w t₀ links) es ↔
        Along (step w) (DueIfLate w) (start w t₀ links) es)) := by
  constructor
  · refine along_congr (I := fun s => ∃ A B, ClockInv w s A B) ?_ ?_
      ⟨∅, ∅, clockInv_start t₀ links⟩
    · rintro s e ⟨A, B, h⟩
      exact h.firesRight_iff
    · rintro s e s' ⟨A, B, h⟩ - hs
      exact clockInv_step h hs
  · refine along_congr_of (I := fun s => (∃ A B, ClockInv w s A B) ∧ GapInv w t₀ s) ?_ ?_
      ⟨⟨∅, ∅, clockInv_start t₀ links⟩, gapInv_start t₀ links⟩
    · rintro s e ⟨⟨A, B, h⟩, hg⟩ hgap
      rw [h.firesRight_iff]
      cases e with
      | register timer wait now => exact Iff.rfl
      | softInterrupt => exact Iff.rfl
      | finish timer => exact Iff.rfl
      | interrupt now =>
          exact forall_congr' fun hnow => forall₂_congr fun a ha => hg.wrapsMatch_iff ha hnow hgap
    · rintro s e s' ⟨⟨A, B, h⟩, hg⟩ hgap - hs
      exact ⟨clockInv_step h hs, gapInv_step hg h.inv hgap hs⟩

/-- Ten ticks before the clock wraps the unit starts; five after, before any
interrupt, a timer is registered with a wait of 100; a tick later the
interrupt comes. -/
def registeredAfterWrap : List (TimerEvent ℕ) :=
  [.register 0 100 (2 ^ 64 + 5), .interrupt (2 ^ 64 + 6)]

/-- The timer fires 99 ticks early. -/
theorem timer_fires_early :
    ¬ Along (step 64) (FiresRight 64) (start 64 (2 ^ 64 - 10) blankLinks) registeredAfterWrap := by
  intro h
  have hbefore : (step 64 (start 64 (2 ^ 64 - 10) blankLinks) (.register 0 100 (2 ^ 64 + 5))).map
      (fun s => (s.unit.softList, (s.registered 0).deadline)) = some ([], 2 ^ 64 + 105) := by decide
  have hafter : (exec (step 64) (start 64 (2 ^ 64 - 10) blankLinks) registeredAfterWrap).map
      (fun s => s.unit.softList) = some [0] := by decide
  obtain ⟨s₂, hrun, hsoft₂⟩ := Option.map_eq_some_iff.mp hafter
  obtain ⟨s₁, hfirst, hrest⟩ := exec_cons_eq_some.mp hrun
  obtain ⟨s₂, hsecond, hnil⟩ := exec_cons_eq_some.mp hrest
  cases hnil
  rw [hfirst, Option.map_some, Option.some.injEq, Prod.mk.injEq] at hbefore
  obtain ⟨-, fired, hfired, -, hmem⟩ := (h.2 s₁ hfirst).1 s₂ hsecond
  have hzero : 0 ∈ fired := by
    rw [hbefore.1, List.append_nil] at hfired
    rw [← hfired, hsoft₂]
    exact List.mem_singleton_self 0
  have hdue := ((hmem 0).mp hzero).2
  omega

end KernelPanic
