import KernelPanic.Kernel.Broadcast
import KernelPanic.Kernel.Semaphore.Fifo
import Mathlib.Algebra.Order.Ring.Nat

/-!
# KernelPanic.Kernel.Broadcast.Groups

One `BARRIER` over its whole life.  Its calls fall into groups of `Needed`, in the
order in which they are made; the last call of a group grants itself and then those
that wait, and no other call grants anything.

As with the semaphore, the contexts may be of any kind and in any state, and all the
barrier asks is that a context that calls `BarrierSync` is not already waiting in it.
In between, what waits elsewhere or nowhere may change in any way: threads run,
`LockingIsAcquired` makes a context ready again, a work item is run.
-/

namespace KernelPanic

open Run

variable {κ : Type*} [DecidableEq κ]

/-- A barrier, the contexts, and the calls of `BarrierSync` so far, in order. -/
structure BarrierRun (κ : Type*) where
  world : Contexts κ
  lock : Barrier κ
  syncs : List κ

/-- The call of the barrier. -/
inductive BarrierOp (κ : Type*) where
  | sync (c : κ)
  /-- Something else happens to a context that does not wait here. -/
  | elsewhere (c : κ) (context : LockingContext) (thread : ThreadState)

namespace BarrierRun

/-- After `BarrierInit`, with nothing granted yet. -/
def start (count : ℕ) (world : Contexts κ) : BarrierRun κ :=
  ⟨{ world with granted := [] }, barrierInit count, []⟩

/-- A call; who waits makes none. -/
def step (s : BarrierRun κ) : BarrierOp κ → Option (BarrierRun κ)
  | .sync c =>
      if c ∉ s.lock.list then
        let r := barrierSync s.world s.lock c
        some { world := r.1, lock := r.2, syncs := s.syncs ++ [c] }
      else none
  | .elsewhere c context thread =>
      if c ∉ s.lock.list then
        some { s with world := { s.world with
          context := Function.update s.world.context c context
          thread := Function.update s.world.thread c thread } }
      else none

/-- How many of the calls are in full groups. -/
def grouped (n : ℕ) (s : BarrierRun κ) : ℕ := n * (s.syncs.length / n)

end BarrierRun

open BarrierRun

/-- The accounts of a barrier initialised to `n`. -/
structure BarrierOk (n : ℕ) (s : BarrierRun κ) : Prop where
  needed : s.lock.needed = n
  /-- The calls of the full groups are granted, each once. -/
  granted : s.world.granted.Perm (s.syncs.take (s.grouped n))
  /-- The others wait, in order. -/
  list : s.lock.list = s.syncs.drop (s.grouped n)
  present : s.lock.present = s.lock.list.length
  length : s.lock.list.length = s.syncs.length % n

/-- The last call of a group grants the whole group, its own caller first, and any
other call grants nobody. -/
def GrantsGroup (n : ℕ) (s : BarrierRun κ) : BarrierOp κ → Prop
  | .sync c => ∀ s', s.step (.sync c) = some s' →
      s'.world.granted = s.world.granted ++
        if n ∣ s.syncs.length + 1 then c :: s.syncs.drop (s.grouped n) else []
  | .elsewhere c context thread => ∀ s', s.step (.elsewhere c context thread) = some s' →
      s'.world.granted = s.world.granted

/-! ## one step -/

variable {n : ℕ} {s s' : BarrierRun κ} {op : BarrierOp κ} {w : Contexts κ} {l : List κ}

/-- All are granted in order. -/
theorem lockingAcquireAll_granted : (lockingAcquireAll w l).granted = w.granted ++ l := by
  induction l generalizing w with
  | nil => exact (List.append_nil _).symm
  | cons c rest ih =>
      change (lockingAcquireAll (lockingAcquire w c) rest).granted = _
      rw [ih, lockingAcquire_granted, List.append_assoc]
      rfl

omit [DecidableEq κ] in
/-- A barrier as `BarrierInit` leaves it. -/
theorem barrierOk_start (world : Contexts κ) : BarrierOk n (start n world) := by
  refine ⟨rfl, ?_, ?_, rfl, ?_⟩ <;> simp [start, barrierInit]

omit [DecidableEq κ] in
/-- The call is the last of its group when everyone else of it is present. -/
theorem BarrierOk.last_iff (h : BarrierOk n s) (hn : 1 ≤ n) :
    s.lock.needed = s.lock.present + 1 ↔ n ∣ s.syncs.length + 1 := by
  have hlt := Nat.mod_lt s.syncs.length hn
  have hsplit : s.syncs.length + 1 = n * (s.syncs.length / n) + (s.syncs.length % n + 1) := by
    rw [← Nat.add_assoc, Nat.div_add_mod]
  rw [h.needed, h.present, h.length, hsplit, Nat.dvd_add_right (Nat.dvd_mul_right _ _)]
  refine ⟨fun heq => ⟨1, by omega⟩, fun hdvd => ?_⟩
  have hle := Nat.le_of_dvd (Nat.succ_pos _) hdvd
  omega

omit [DecidableEq κ] in
/-- Full groups are made of calls. -/
theorem grouped_le : s.grouped n ≤ s.syncs.length := Nat.mul_div_le _ _

/-- `BarrierSync` keeps the promises. -/
theorem BarrierOk.sync (h : BarrierOk n s) (hn : 1 ≤ n) (c : κ) :
    BarrierOk n
      { world := (barrierSync s.world s.lock c).1, lock := (barrierSync s.world s.lock c).2,
        syncs := s.syncs ++ [c] } := by
  have hle := grouped_le (n := n) (s := s)
  by_cases hlast : s.lock.needed = s.lock.present + 1
  · have hdvd := (h.last_iff hn).mp hlast
    -- a group is full: all calls are in full groups
    have hgrouped : n * ((s.syncs ++ [c]).length / n) = (s.syncs ++ [c]).length := by
      rw [List.length_append, List.length_singleton]
      exact Nat.mul_div_cancel' hdvd
    have hperm : (s.world.granted ++ c :: s.lock.list).Perm (s.syncs ++ [c]) := by
      have hall : (s.world.granted ++ s.lock.list).Perm s.syncs := by
        rw [h.list]
        exact (h.granted.append_right _).trans (.of_eq (List.take_append_drop _ _))
      exact (List.perm_middle.trans (hall.cons c)).trans (List.perm_append_singleton c _).symm
    simp only [barrierSync, if_pos hlast]
    refine ⟨h.needed, ?_, ?_, rfl, ?_⟩
    · simp only [grouped, hgrouped, List.take_length, lockingAcquireAll_granted,
        lockingAcquire_granted, List.append_assoc]
      exact hperm
    · simp only [grouped, hgrouped, List.drop_length]
    · rw [List.length_append, List.length_singleton, Nat.mod_eq_zero_of_dvd hdvd]
      rfl
  · have hdvd := mt (h.last_iff hn).mpr hlast
    have hgrouped : n * ((s.syncs ++ [c]).length / n) = s.grouped n := by
      rw [List.length_append, List.length_singleton, Nat.succ_div_of_not_dvd hdvd]
      rfl
    have hsame (world : Contexts κ) (lock : Barrier κ) :
        grouped n ⟨world, lock, s.syncs ++ [c]⟩ = s.grouped n := hgrouped
    simp only [barrierSync, if_neg hlast]
    refine ⟨h.needed, ?_, ?_, ?_, ?_⟩
    · rw [hsame, lockingBlock_granted, List.take_append_of_le_length hle]
      exact h.granted
    · rw [hsame, List.drop_append_of_le_length hle, h.list]
    · simp only [List.length_append, List.length_singleton, h.present]
    · have hsplit := Nat.div_add_mod (s.syncs ++ [c]).length n
      have hlength := h.length
      rw [h.list, List.length_drop] at hlength
      rw [hgrouped, List.length_append, List.length_singleton] at hsplit
      simp only [List.length_append, List.length_singleton, h.list, List.length_drop]
      omega

/-- **One step** keeps the promises. -/
theorem BarrierOk.step (h : BarrierOk n s) (hn : 1 ≤ n) (hstep : s.step op = some s') :
    BarrierOk n s' := by
  cases op with
  | sync c =>
      simp only [BarrierRun.step, Option.ite_none_right_eq_some, Option.some.injEq] at hstep
      obtain ⟨-, rfl⟩ := hstep
      exact h.sync hn c
  | elsewhere c context thread =>
      simp only [BarrierRun.step, Option.ite_none_right_eq_some, Option.some.injEq] at hstep
      obtain ⟨-, rfl⟩ := hstep
      exact ⟨h.needed, h.granted, h.list, h.present, h.length⟩

/-- A call grants its group, if it is the last, or nobody. -/
theorem BarrierOk.grantsGroup (h : BarrierOk n s) (hn : 1 ≤ n) (op : BarrierOp κ) :
    GrantsGroup n s op := by
  cases op with
  | sync c =>
      intro s' hstep
      simp only [BarrierRun.step, Option.ite_none_right_eq_some, Option.some.injEq] at hstep
      obtain ⟨-, rfl⟩ := hstep
      rw [← h.list]
      by_cases hlast : s.lock.needed = s.lock.present + 1
      · simp only [barrierSync, if_pos hlast, if_pos ((h.last_iff hn).mp hlast),
          lockingAcquireAll_granted, lockingAcquire_granted, List.append_assoc,
          List.singleton_append]
      · simp only [barrierSync, if_neg hlast, if_neg (mt (h.last_iff hn).mpr hlast),
          lockingBlock_granted, List.append_nil]
  | elsewhere c context thread =>
      intro s' hstep
      simp only [BarrierRun.step, Option.ite_none_right_eq_some, Option.some.injEq] at hstep
      obtain ⟨-, rfl⟩ := hstep
      rfl

/-- **A barrier releases in complete groups**, in every state that any sequence of
calls reaches. -/
theorem barrier_groups (n : ℕ) (hn : 1 ≤ n) (world : Contexts κ) (ops : List (BarrierOp κ))
    (h : exec BarrierRun.step (start n world) ops = some s) :
    BarrierOk n s ∧ Along BarrierRun.step (GrantsGroup n) (start n world) ops :=
  ⟨exec_invariant (fun _ _ _ hs hstep => BarrierOk.step hs hn hstep) (barrierOk_start world) h,
    along_of_invariant (fun _ _ _ hs hstep => BarrierOk.step hs hn hstep)
      (fun _ op hs => hs.grantsGroup hn op) (barrierOk_start world)⟩

/-- A thread, a non-blocking caller and a work item come to a barrier of two; the first
two pass, the third waits. -/
theorem barrier_groups_sample :
    ∃ s : BarrierRun ContextKind,
      exec BarrierRun.step
          (start 2 ⟨fun c => ⟨.ready, .shared, c⟩, fun _ => .running, [], [], false⟩)
          [.sync .thread, .sync .nonBlocking, .sync .worker] = some s ∧
      s.world.granted = [.nonBlocking, .thread] ∧ s.lock.list = [.worker] ∧ BarrierOk 2 s := by
  have hend : (exec BarrierRun.step (start 2 (⟨fun c => ⟨.ready, .shared, c⟩, fun _ => .running,
      [], [], false⟩ : Contexts ContextKind))
      [.sync .thread, .sync .nonBlocking, .sync .worker]).map
        (fun s => (s.world.granted, s.lock.list)) =
          some ([.nonBlocking, .thread], [.worker]) := by decide
  obtain ⟨s, hs, heq⟩ := Option.map_eq_some_iff.mp hend
  obtain ⟨hgranted, hlist⟩ := Prod.mk.inj heq
  exact ⟨s, hs, hgranted, hlist, (barrier_groups 2 (by decide) _ _ hs).1⟩

end KernelPanic
