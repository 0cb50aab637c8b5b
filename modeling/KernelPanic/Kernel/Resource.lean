import KernelPanic.Kernel.Locking
import Mathlib.Data.List.TakeWhile

/-!
# KernelPanic.Kernel.Resource

The dual-mode lock of `kernel/resource.c`: many shared holders or one
exclusive holder, with waiters of both kinds in one queue.

The lock does not record who holds it.  `WaitingThreads` is the sequence of
contexts its links give (`IsList` of `KernelPanic.Utils.LinkedList`); a context
is in at most one list, since it is only enqueued when it is ready.
-/

namespace KernelPanic

variable {κ : Type*} [DecidableEq κ]

/-- `struct RESOURCE`. -/
structure Resource (κ : Type*) where
  state : ResourceState
  numShared : ℕ
  waitingThreads : List κ
deriving DecidableEq

/-- The loop of `ResourceWakeThreads`, over the waiting contexts. -/
def resourceWakeLoop (w : Contexts κ) (lock : Resource κ) : List κ → Contexts κ × Resource κ
  | [] => (w, { lock with waitingThreads := [] })
  | cur :: rest =>
      match (w.context cur).resourceWaitState with
      | .shared =>
          resourceWakeLoop (lockingAcquire w cur)
            { lock with numShared := lock.numShared + 1, state := .shared } rest
      | .exclusive =>
          if lock.numShared = 0 then
            (lockingAcquire w cur, { lock with state := .exclusive, waitingThreads := rest })
          else (w, { lock with waitingThreads := cur :: rest })

/-- `ResourceWakeThreads`. -/
def resourceWakeThreads (w : Contexts κ) (lock : Resource κ) : Contexts κ × Resource κ :=
  let w := w.assert (lock.numShared = 0)
  let w := w.assert (!lock.waitingThreads.isEmpty)
  resourceWakeLoop w lock lock.waitingThreads

/-- `ResourceInit`. -/
def resourceInit (state : ResourceState) : Resource κ := ⟨state, 0, []⟩

/-- `LockingBlock` with the wait state `mode`, and `LinkedListEnqueue`. -/
def resourceBlock (w : Contexts κ) (lock : Resource κ) (mode : ResourceState) (c : κ) :
    Contexts κ × Resource κ :=
  (lockingBlock w (some mode) c, { lock with waitingThreads := lock.waitingThreads ++ [c] })

/-- `ResourceLockShared`. -/
def resourceLockShared (w : Contexts κ) (lock : Resource κ) (c : κ) : Contexts κ × Resource κ :=
  if !lock.waitingThreads.isEmpty then resourceBlock w lock .shared c
  else
    match lock.state with
    | .shared => (lockingAcquire w c, { lock with numShared := lock.numShared + 1 })
    | .exclusive => resourceBlock w lock .shared c

/-- `ResourceLockExclusive`. -/
def resourceLockExclusive (w : Contexts κ) (lock : Resource κ) (c : κ) :
    Contexts κ × Resource κ :=
  if !lock.waitingThreads.isEmpty then resourceBlock w lock .exclusive c
  else
    match lock.state with
    | .shared =>
        if lock.numShared = 0 then (lockingAcquire w c, { lock with state := .exclusive })
        else resourceBlock w lock .exclusive c
    | .exclusive => resourceBlock w lock .exclusive c

/-- `ResourceUnlockShared`. -/
def resourceUnlockShared (w : Contexts κ) (lock : Resource κ) : Contexts κ × Resource κ :=
  match lock.state with
  | .shared =>
      let lock := { lock with numShared := lock.numShared - 1 }
      if lock.numShared = 0 ∧ !lock.waitingThreads.isEmpty then resourceWakeThreads w lock
      else (w, lock)
  | .exclusive => (w.panic, lock)

/-- `ResourceUnlockExclusive`. -/
def resourceUnlockExclusive (w : Contexts κ) (lock : Resource κ) : Contexts κ × Resource κ :=
  let w := w.assert (lock.numShared = 0)
  match lock.state with
  | .exclusive =>
      if lock.waitingThreads.isEmpty then (w, { lock with state := .shared })
      else resourceWakeThreads w lock
  | .shared => (w.panic, lock)

/-! ## the wake loop -/

variable {w : Contexts κ} {lock : Resource κ} {c : κ}

/-- The context waits for shared access. -/
def WantsShared (w : Contexts κ) (c : κ) : Bool := (w.context c).resourceWaitState = .shared

/-- Once one shared waiter has been let in, the loop lets in all shared waiters
before the first exclusive one. -/
theorem resourceWakeLoop_shared {l : List κ} (hw : ∀ c ∈ l, Waits w c) (hnd : l.Nodup)
    (hs : lock.state = .shared) (hn : 0 < lock.numShared) :
    let woken := l.takeWhile (WantsShared w)
    Grants w (resourceWakeLoop w lock l).1 woken ∧
      (resourceWakeLoop w lock l).2 =
        ⟨.shared, lock.numShared + woken.length, l.dropWhile (WantsShared w)⟩ := by
  induction l generalizing w lock with
  | nil =>
      refine ⟨.refl, ?_⟩
      simp [resourceWakeLoop, hs]
  | cons cur rest ih =>
      obtain ⟨hcur, hnd⟩ := List.nodup_cons.mp hnd
      cases hm : (w.context cur).resourceWaitState with
      | exclusive =>
          have hwants : WantsShared w cur = false := by simp [WantsShared, hm]
          have hne : lock.numShared ≠ 0 := by omega
          rw [List.takeWhile_cons_of_neg (by simp [hwants]),
            List.dropWhile_cons_of_neg (by simp [hwants])]
          simp only [resourceWakeLoop, hm, if_neg hne]
          exact ⟨.refl, by simp [hs]⟩
      | shared =>
          have hwants : WantsShared w cur = true := by simp [WantsShared, hm]
          have hgrant := lockingAcquire_grants (.inr (hw cur List.mem_cons_self))
          have hsame : WantsShared (lockingAcquire w cur) = WantsShared w := by
            funext d
            rw [WantsShared, WantsShared, hgrant.waitState]
          have hwaits : ∀ d ∈ rest, Waits (lockingAcquire w cur) d := fun d hd => by
            have hdc : d ∉ [cur] := fun hdc => hcur (List.mem_singleton.mp hdc ▸ hd)
            rw [Waits, hgrant.context d hdc, hgrant.thread d hdc]
            exact hw d (List.mem_cons_of_mem cur hd)
          have hshared : ({ lock with
            numShared := lock.numShared + 1, state := .shared } : Resource κ).state = .shared := rfl
          obtain ⟨hgrants, hlock⟩ := ih hwaits hnd hshared (Nat.succ_pos _)
          rw [hsame] at hgrants hlock
          rw [List.takeWhile_cons_of_pos hwants, List.dropWhile_cons_of_pos hwants]
          simp only [resourceWakeLoop, hm]
          refine ⟨hgrant.cons hgrants fun hmem =>
            hcur ((List.takeWhile_sublist _).subset hmem), ?_⟩
          rw [hlock, List.length_cons]
          congr 1
          simp only []
          omega

/-- **`ResourceWakeThreads`** lets in either the first waiter alone, exclusively,
or all shared waiters before the first exclusive one. -/
theorem resourceWakeThreads_spec (hw : ∀ c ∈ lock.waitingThreads, Waits w c)
    (hnd : lock.waitingThreads.Nodup) (hn : lock.numShared = 0) (hne : lock.waitingThreads ≠ []) :
    ∃ woken rest, lock.waitingThreads = woken ++ rest ∧ woken ≠ [] ∧
      Grants w (resourceWakeThreads w lock).1 woken ∧
      ((woken.length = 1 ∧ (∀ c ∈ woken, WantsShared w c = false) ∧
          (resourceWakeThreads w lock).2 = ⟨.exclusive, 0, rest⟩) ∨
        ((∀ c ∈ woken, WantsShared w c = true) ∧ (∀ c ∈ rest.head?, WantsShared w c = false) ∧
          (resourceWakeThreads w lock).2 = ⟨.shared, woken.length, rest⟩)) := by
  have hassert : resourceWakeThreads w lock = resourceWakeLoop w lock lock.waitingThreads := by
    have hempty : lock.waitingThreads.isEmpty = false := by
      rw [List.isEmpty_eq_false_iff]
      exact hne
    simp [resourceWakeThreads, Contexts.assert, hn, hempty]
  rw [hassert]
  generalize hl : lock.waitingThreads = l at hw hnd hne ⊢
  cases l with
  | nil => exact absurd rfl hne
  | cons cur rest =>
      obtain ⟨hcur, hnd'⟩ := List.nodup_cons.mp hnd
      have hgrant := lockingAcquire_grants (.inr (hw cur List.mem_cons_self))
      cases hm : (w.context cur).resourceWaitState with
      | exclusive =>
          have hwants : WantsShared w cur = false := by simp [WantsShared, hm]
          refine ⟨[cur], rest, rfl, by simp, ?_, .inl ⟨rfl, by simpa using hwants, ?_⟩⟩ <;>
          simp only [resourceWakeLoop, hm, if_pos hn]
          · exact hgrant
          · rw [hn]
      | shared =>
          have hwants : WantsShared w cur = true := by simp [WantsShared, hm]
          have hsame : WantsShared (lockingAcquire w cur) = WantsShared w := by
            funext d
            rw [WantsShared, WantsShared, hgrant.waitState]
          have hwaits : ∀ d ∈ rest, Waits (lockingAcquire w cur) d := fun d hd => by
            have hdc : d ∉ [cur] := fun hdc => hcur (List.mem_singleton.mp hdc ▸ hd)
            rw [Waits, hgrant.context d hdc, hgrant.thread d hdc]
            exact hw d (List.mem_cons_of_mem cur hd)
          have hshared : ({ lock with
            numShared := lock.numShared + 1, state := .shared } : Resource κ).state = .shared := rfl
          obtain ⟨hgrants, hlock⟩ := resourceWakeLoop_shared hwaits hnd' hshared (Nat.succ_pos _)
          rw [hsame] at hgrants hlock
          refine ⟨cur :: rest.takeWhile (WantsShared w), rest.dropWhile (WantsShared w),
            by simp, by simp, ?_, .inr ⟨fun d hd => ?_, fun d hd => ?_, ?_⟩⟩
          · simp only [resourceWakeLoop, hm]
            exact hgrant.cons hgrants fun hmem => hcur ((List.takeWhile_sublist _).subset hmem)
          · obtain rfl | hd := List.mem_cons.mp hd
            · exact hwants
            · exact List.mem_takeWhile_imp hd
          · have hhead := List.head?_dropWhile_not (WantsShared w) rest
            rw [Option.mem_def.mp hd] at hhead
            exact hhead
          · simp only [resourceWakeLoop, hm]
            rw [hlock, List.length_cons, hn]
            congr 1
            simp only []
            omega

end KernelPanic
