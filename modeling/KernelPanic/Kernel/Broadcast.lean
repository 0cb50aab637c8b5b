import KernelPanic.Kernel.Locking
import Mathlib.Data.List.Nodup

/-!
# KernelPanic.Kernel.Broadcast

The locks that wake everybody at once: the signal of `kernel/signal.c`, the
barrier of `kernel/barrier.c` and the generation of `kernel/generation.c`.  Each
drains its list with the same loop, `lockingAcquireAll`.

`Serves` is what any call of any lock does to the contexts and to the list of
that lock: the caller is put at the end of the list, or the caller and the first
waiters, perhaps none, are granted the lock.
-/

namespace KernelPanic

variable {κ : Type*} [DecidableEq κ]

/-! ## calls of a lock -/

/-- A call by `request` takes the contexts from `w` to `w'` and the lock's list
from `queue` to `queue'`. -/
inductive Serves (w : Contexts κ) (queue : List κ) : Option κ → Contexts κ → List κ → Prop
  | blocks (info : Option ResourceState) (c : κ) :
      Serves w queue (some c) (lockingBlock w info c) (queue ++ [c])
  | grants {request : Option κ} {w' : Contexts κ} {queue' : List κ} (woken : List κ)
      (hqueue : queue = woken ++ queue') (hgrants : Grants w w' (request.toList ++ woken)) :
      Serves w queue request w' queue'

/-- The loop that pops a context and grants it the lock until the list is
empty. -/
def lockingAcquireAll (w : Contexts κ) (waiting : List κ) : Contexts κ :=
  waiting.foldl lockingAcquire w

/-! ## the signal -/

/-- `struct SIGNAL`. -/
structure Signal (κ : Type*) where
  state : Bool
  waitingThreads : List κ
deriving DecidableEq

/-- `SignalInit`. -/
def signalInit (state : Bool) : Signal κ := ⟨state, []⟩

/-- `SignalSet`. -/
def signalSet (w : Contexts κ) (signal : Signal κ) : Contexts κ × Signal κ :=
  if signal.state then (w.assert signal.waitingThreads.isEmpty, signal)
  else (lockingAcquireAll w signal.waitingThreads, ⟨true, []⟩)

/-- `SignalUnset`. -/
def signalUnset (w : Contexts κ) (signal : Signal κ) : Contexts κ × Signal κ :=
  (w, { signal with state := false })

/-- `SignalWaitForSignal`. -/
def signalWaitForSignal (w : Contexts κ) (signal : Signal κ) (c : κ) : Contexts κ × Signal κ :=
  if signal.state then (lockingAcquire w c, signal)
  else
    (lockingBlock w none c, { signal with waitingThreads := signal.waitingThreads ++ [c] })

/-! ## the barrier -/

/-- `struct BARRIER`. -/
structure Barrier (κ : Type*) where
  needed : ℕ
  present : ℕ
  list : List κ
deriving DecidableEq

/-- `BarrierInit`. -/
def barrierInit (count : ℕ) : Barrier κ := ⟨count, 0, []⟩

/-- `BarrierSync`. -/
def barrierSync (w : Contexts κ) (barrier : Barrier κ) (c : κ) : Contexts κ × Barrier κ :=
  if barrier.needed = barrier.present + 1 then
    (lockingAcquireAll (lockingAcquire w c) barrier.list, { barrier with present := 0, list := [] })
  else
    (lockingBlock w none c,
      { barrier with present := barrier.present + 1, list := barrier.list ++ [c] })

/-! ## the generation -/

/-- `struct GENERATION`. -/
structure Generation (κ : Type*) where
  generation : ℕ
  waitingThreads : List κ
deriving DecidableEq

/-- `GenerationInit`. -/
def generationInit (init : ℕ) : Generation κ := ⟨init, []⟩

/-- `GenerationWait`. -/
def generationWait (w : Contexts κ) (gen : Generation κ) (value : ℕ) (c : κ) :
    Contexts κ × Generation κ :=
  if gen.generation = value then
    (lockingBlock w none c, { gen with waitingThreads := gen.waitingThreads ++ [c] })
  else (lockingAcquire w c, gen)

/-- `GenerationUpdate`. -/
def generationUpdate (w : Contexts κ) (gen : Generation κ) (value : ℕ) :
    Contexts κ × Generation κ :=
  (lockingAcquireAll w gen.waitingThreads, ⟨value, []⟩)

/-! ## what they do -/

variable {w w' : Contexts κ} {c : κ} {l : List κ}

omit [DecidableEq κ] in
theorem Waits.of_grant {cs : List κ} (h : Waits w c) (hg : Grants w w' cs) (hc : c ∉ cs) :
    Waits w' c := by
  rw [Waits, hg.context c hc, hg.thread c hc]
  exact h

theorem lockingAcquireAll_grants (hw : ∀ c ∈ l, Waits w c) (hnd : l.Nodup) :
    Grants w (lockingAcquireAll w l) l := by
  induction l generalizing w with
  | nil => exact .refl
  | cons c rest ih =>
      obtain ⟨hc, hnd⟩ := List.nodup_cons.mp hnd
      have hgrant := lockingAcquire_grants (.inr (hw c List.mem_cons_self))
      refine hgrant.cons (ih (fun d hd => ?_) hnd) hc
      refine (hw d (List.mem_cons_of_mem c hd)).of_grant hgrant fun hdc => hc ?_
      exact List.mem_singleton.mp hdc ▸ hd

/-- A request that is granted at once. -/
theorem Serves.at_once (hc : (w.context c).state = .ready) :
    Serves w l (some c) (lockingAcquire w c) l :=
  .grants [] rfl (lockingAcquire_grants (.inl hc))

theorem Serves.all (hw : ∀ c ∈ l, Waits w c) (hnd : l.Nodup) :
    Serves w l none (lockingAcquireAll w l) [] :=
  .grants l (List.append_nil l).symm (lockingAcquireAll_grants hw hnd)

theorem Serves.nothing : Serves w l none w l :=
  .grants [] rfl .refl

theorem signalSet_serves {signal : Signal κ} (hw : ∀ c ∈ signal.waitingThreads, Waits w c)
    (hnd : signal.waitingThreads.Nodup) (hset : signal.state = true → signal.waitingThreads = []) :
    Serves w signal.waitingThreads none (signalSet w signal).1
      (signalSet w signal).2.waitingThreads := by
  cases hs : signal.state with
  | true =>
      have hsame : signalSet w signal = (w, signal) := by
        simp [signalSet, hs, hset hs, Contexts.assert]
      rw [hsame]
      exact .nothing
  | false =>
      simp only [signalSet, hs, Bool.false_eq_true, ↓reduceIte]
      exact .all hw hnd

/-- Nobody waits for a signal that is set. -/
theorem signalSet_empty {signal : Signal κ}
    (h : signal.state = true → signal.waitingThreads = []) :
    (signalSet w signal).2.waitingThreads = [] := by
  cases hs : signal.state with
  | true => simp [signalSet, hs, h hs]
  | false => simp [signalSet, hs]

theorem signalWaitForSignal_empty {signal : Signal κ}
    (h : signal.state = true → signal.waitingThreads = []) :
    (signalWaitForSignal w signal c).2.state = true →
      (signalWaitForSignal w signal c).2.waitingThreads = [] := by
  cases hs : signal.state with
  | true => simp [signalWaitForSignal, hs, h hs]
  | false => simp [signalWaitForSignal, hs]

theorem signalWaitForSignal_serves {signal : Signal κ} (hc : (w.context c).state = .ready) :
    Serves w signal.waitingThreads (some c) (signalWaitForSignal w signal c).1
      (signalWaitForSignal w signal c).2.waitingThreads := by
  cases hs : signal.state <;>
  simp only [signalWaitForSignal, hs, Bool.false_eq_true, ↓reduceIte]
  · exact .blocks none c
  · exact .at_once hc

theorem barrierSync_serves {barrier : Barrier κ} (hw : ∀ c ∈ barrier.list, Waits w c)
    (hnd : barrier.list.Nodup) (hc : (w.context c).state = .ready) :
    Serves w barrier.list (some c) (barrierSync w barrier c).1 (barrierSync w barrier c).2.list := by
  by_cases hlast : barrier.needed = barrier.present + 1
  · simp only [barrierSync, if_pos hlast]
    have hnot : c ∉ barrier.list := fun hmem => by
      have hblocking := (hw c hmem).1
      rw [hc] at hblocking
      cases hblocking
    have hgrant := lockingAcquire_grants (.inl hc)
    refine .grants barrier.list (List.append_nil _).symm ?_
    refine hgrant.cons (lockingAcquireAll_grants (fun d hd => ?_) hnd) hnot
    refine (hw d hd).of_grant hgrant fun hdc => hnot ?_
    exact List.mem_singleton.mp hdc ▸ hd
  · simp only [barrierSync, if_neg hlast]
    exact .blocks none c

theorem generationWait_serves {gen : Generation κ} {value : ℕ}
    (hc : (w.context c).state = .ready) :
    Serves w gen.waitingThreads (some c) (generationWait w gen value c).1
      (generationWait w gen value c).2.waitingThreads := by
  by_cases hv : gen.generation = value
  · simp only [generationWait, if_pos hv]
    exact .blocks none c
  · simp only [generationWait, if_neg hv]
    exact .at_once hc

end KernelPanic
