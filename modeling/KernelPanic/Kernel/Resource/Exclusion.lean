import KernelPanic.Kernel.Resource
import KernelPanic.Lib.Run
import Mathlib.Data.List.Nodup

/-!
# KernelPanic.Kernel.Resource.Exclusion

Who holds a `RESOURCE`.  The lock itself does not know; the run keeps the
accounts from the outside, adding every context that is granted the lock to
the shared or the exclusive holders and removing the one that unlocks.  The
unit is on the honour system: an unlock is done by a holder in that mode.

`ResourceOk` is what the two modes promise, and `resource_exclusion` that they
keep it in every run.
-/

namespace KernelPanic

open Run

variable {κ : Type*} [DecidableEq κ]

/-! ## runs -/

/-- A lock, the contexts, and the accounts of who holds it. -/
structure ResourceRun (κ : Type*) where
  world : Contexts κ
  lock : Resource κ
  sharedHolders : List κ
  exclusiveHolders : List κ

/-- The calls of the lock. -/
inductive ResourceOp (κ : Type*) where
  | lockShared (c : κ)
  | lockExclusive (c : κ)
  | unlockShared (c : κ)
  | unlockExclusive (c : κ)
  /-- Something else happens to a context that does not wait here: another
  lock, the scheduler, `LockingIsAcquired`. -/
  | elsewhere (c : κ) (context : LockingContext) (thread : ThreadState)

namespace ResourceRun

/-- After `ResourceInit`; a lock initialised exclusive is held by its
creator. -/
def start (mode : ResourceState) (creator : κ) (world : Contexts κ) : ResourceRun κ where
  world := { world with panicked := false }
  lock := resourceInit mode
  sharedHolders := []
  exclusiveHolders := if mode = .exclusive then [creator] else []

/-- The contexts granted since `w`, in order. -/
def newlyGranted (w w' : Contexts κ) : List κ := w'.granted.drop w.granted.length

/-- The run after an unlock: those it woke hold the lock as they asked to. -/
def unlocked (w : Contexts κ) (r : Contexts κ × Resource κ) (sharedHolders exclusiveHolders : List κ) :
    ResourceRun κ where
  world := r.1
  lock := r.2
  sharedHolders := sharedHolders ++ (newlyGranted w r.1).filter (WantsShared w)
  exclusiveHolders := exclusiveHolders ++ (newlyGranted w r.1).filter fun c => !WantsShared w c

/-- What an operation does. -/
def perform (s : ResourceRun κ) : ResourceOp κ → ResourceRun κ
  | .lockShared c =>
      let r := resourceLockShared s.world s.lock c
      { s with
        world := r.1
        lock := r.2
        sharedHolders := s.sharedHolders ++ newlyGranted s.world r.1 }
  | .lockExclusive c =>
      let r := resourceLockExclusive s.world s.lock c
      { s with
        world := r.1
        lock := r.2
        exclusiveHolders := s.exclusiveHolders ++ newlyGranted s.world r.1 }
  | .unlockShared c =>
      unlocked s.world (resourceUnlockShared s.world s.lock) (s.sharedHolders.erase c)
        s.exclusiveHolders
  | .unlockExclusive c =>
      unlocked s.world (resourceUnlockExclusive s.world s.lock) s.sharedHolders
        (s.exclusiveHolders.erase c)
  | .elsewhere c context thread =>
      { s with world := { s.world with
        context := Function.update s.world.context c context
        thread := Function.update s.world.thread c thread } }

/-- A context makes a request only when it is ready, and unlocks what it
holds. -/
def Allowed (s : ResourceRun κ) : ResourceOp κ → Prop
  | .lockShared c => (s.world.context c).state = .ready
  | .lockExclusive c => (s.world.context c).state = .ready
  | .unlockShared c => c ∈ s.sharedHolders
  | .unlockExclusive c => c ∈ s.exclusiveHolders
  | .elsewhere c _ _ => c ∉ s.lock.waitingThreads

instance (s : ResourceRun κ) : (op : ResourceOp κ) → Decidable (s.Allowed op)
  | .lockShared c => inferInstanceAs (Decidable ((s.world.context c).state = .ready))
  | .lockExclusive c => inferInstanceAs (Decidable ((s.world.context c).state = .ready))
  | .unlockShared c => inferInstanceAs (Decidable (c ∈ s.sharedHolders))
  | .unlockExclusive c => inferInstanceAs (Decidable (c ∈ s.exclusiveHolders))
  | .elsewhere c _ _ => inferInstanceAs (Decidable (c ∉ s.lock.waitingThreads))

/-- A call, if it is allowed. -/
def step (s : ResourceRun κ) (op : ResourceOp κ) : Option (ResourceRun κ) :=
  if s.Allowed op then some (s.perform op) else none

/-- The request of `c` has to wait. -/
def blocked (s : ResourceRun κ) (mode : ResourceState) (c : κ) : ResourceRun κ :=
  { s with
    world := lockingBlock s.world (some mode) c
    lock := { s.lock with waitingThreads := s.lock.waitingThreads ++ [c] } }

/-- A shared request is granted at once. -/
def grantShared (s : ResourceRun κ) (c : κ) : ResourceRun κ :=
  { s with
    world := lockingAcquire s.world c
    lock := { s.lock with numShared := s.lock.numShared + 1 }
    sharedHolders := s.sharedHolders ++ [c] }

/-- An exclusive request is granted at once. -/
def grantExclusive (s : ResourceRun κ) (c : κ) : ResourceRun κ :=
  { s with
    world := lockingAcquire s.world c
    lock := { s.lock with state := .exclusive }
    exclusiveHolders := s.exclusiveHolders ++ [c] }

/-- The last holder has left and the waiters are woken. -/
def woken (s : ResourceRun κ) : ResourceRun κ :=
  unlocked s.world (resourceWakeThreads s.world { s.lock with numShared := 0 }) [] []

section fields

variable (s : ResourceRun κ) (mode : ResourceState) (c : κ)

@[simp] theorem blocked_waitingThreads :
    (s.blocked mode c).lock.waitingThreads = s.lock.waitingThreads ++ [c] := rfl

@[simp] theorem blocked_sharedHolders : (s.blocked mode c).sharedHolders = s.sharedHolders := rfl

@[simp] theorem blocked_exclusiveHolders :
    (s.blocked mode c).exclusiveHolders = s.exclusiveHolders := rfl

@[simp] theorem grantShared_waitingThreads :
    (s.grantShared c).lock.waitingThreads = s.lock.waitingThreads := rfl

@[simp] theorem grantShared_sharedHolders :
    (s.grantShared c).sharedHolders = s.sharedHolders ++ [c] := rfl

@[simp] theorem grantShared_exclusiveHolders :
    (s.grantShared c).exclusiveHolders = s.exclusiveHolders := rfl

@[simp] theorem grantExclusive_waitingThreads :
    (s.grantExclusive c).lock.waitingThreads = s.lock.waitingThreads := rfl

@[simp] theorem grantExclusive_sharedHolders :
    (s.grantExclusive c).sharedHolders = s.sharedHolders := rfl

@[simp] theorem grantExclusive_exclusiveHolders :
    (s.grantExclusive c).exclusiveHolders = s.exclusiveHolders ++ [c] := rfl

end fields

end ResourceRun

open ResourceRun

/-! ## the invariant -/

/-- What a dual-mode lock promises. -/
structure ResourceOk (s : ResourceRun κ) : Prop where
  /-- There is at most one exclusive holder. -/
  one : s.exclusiveHolders.length ≤ 1
  /-- With an exclusive holder there is no shared one. -/
  alone : s.exclusiveHolders ≠ [] → s.sharedHolders = []
  numShared : s.lock.numShared = s.sharedHolders.length
  state : s.lock.state = .exclusive ↔ s.exclusiveHolders ≠ []
  /-- Contexts wait only while the lock is held. -/
  held : s.lock.waitingThreads ≠ [] → s.sharedHolders ≠ [] ∨ s.exclusiveHolders ≠ []
  /-- In shared mode the first waiter wants the lock exclusively. -/
  head : s.lock.state = .shared → ∀ c ∈ s.lock.waitingThreads.head?,
    (s.world.context c).resourceWaitState = .exclusive
  /-- No `ASSERT` or `KernelPanic` has been reached. -/
  fine : s.world.panicked = false

/-- Besides, the waiting contexts are distinct and do wait. -/
structure ResourceInv (s : ResourceRun κ) : Prop extends ResourceOk s where
  waits : ∀ c ∈ s.lock.waitingThreads, Waits s.world c
  nodup : s.lock.waitingThreads.Nodup

variable {s s' : ResourceRun κ} {c : κ} {op : ResourceOp κ}

omit [DecidableEq κ] in
/-- A lock as `ResourceInit` leaves it. -/
theorem resourceInv_start (mode : ResourceState) (creator : κ) (world : Contexts κ) :
    ResourceInv (start mode creator world) := by
  have hok : ResourceOk (start mode creator world) := by
    cases mode <;> constructor <;> simp [start, resourceInit]
  exact ⟨hok, fun c hc => absurd hc List.not_mem_nil, List.nodup_nil⟩

omit [DecidableEq κ] in
/-- A ready context does not wait. -/
theorem ResourceInv.ready_notMem (h : ResourceInv s) (hc : (s.world.context c).state = .ready) :
    c ∉ s.lock.waitingThreads := fun hmem => by
  have hb := (h.waits c hmem).1
  rw [hc] at hb
  cases hb

omit [DecidableEq κ] in
/-- The grants since are those appended. -/
theorem newlyGranted_eq {w w' : Contexts κ} {cs : List κ} (h : w'.granted = w.granted ++ cs) :
    newlyGranted w w' = cs := by
  rw [newlyGranted, h, List.drop_left]

omit [DecidableEq κ] in
/-- A shared lock has no exclusive holder. -/
theorem ResourceOk.no_exclusive (h : ResourceOk s) (hs : s.lock.state = .shared) :
    s.exclusiveHolders = [] := by
  by_contra hne
  have hexcl := h.state.mpr hne
  rw [hs] at hexcl
  cases hexcl

omit [DecidableEq κ] in
/-- A lock without an exclusive holder is shared. -/
theorem ResourceOk.shared_of_no_exclusive (h : ResourceOk s) (hE : s.exclusiveHolders = []) :
    s.lock.state = .shared := by
  cases hs : s.lock.state with
  | shared => rfl
  | exclusive => exact absurd hE (h.state.mp hs)

/-! ## the ways an operation ends -/

/-- `ResourceLockShared` grants the lock at once, or the caller waits. -/
theorem perform_lockShared (hc : (s.world.context c).state = .ready) :
    s.perform (.lockShared c) =
      if s.lock.waitingThreads = [] ∧ s.lock.state = .shared then s.grantShared c
      else s.blocked .shared c := by
  have hblock : newlyGranted s.world (resourceBlock s.world s.lock .shared c).1 = [] := by
    apply newlyGranted_eq
    simp only [resourceBlock, lockingBlock_eq hc, List.append_nil]
  have hgrant := newlyGranted_eq (lockingAcquire_grants (.inl hc)).granted
  cases hl : s.lock.waitingThreads with
  | cons a l =>
      have hcode : resourceLockShared s.world s.lock c = resourceBlock s.world s.lock .shared c := by
        simp [resourceLockShared, hl]
      rw [if_neg (by simp)]
      simp only [perform, hcode, hblock, List.append_nil]
      rfl
  | nil =>
      cases hs : s.lock.state with
      | shared => simp [perform, resourceLockShared, hl, hs, hgrant, grantShared]
      | exclusive =>
          have hcode : resourceLockShared s.world s.lock c =
              resourceBlock s.world s.lock .shared c := by
            simp [resourceLockShared, hl, hs]
          rw [if_neg (by simp)]
          simp only [perform, hcode, hblock, List.append_nil]
          rfl

/-- `ResourceLockExclusive` grants the lock at once, or the caller waits. -/
theorem perform_lockExclusive (hc : (s.world.context c).state = .ready) :
    s.perform (.lockExclusive c) =
      if s.lock.waitingThreads = [] ∧ s.lock.state = .shared ∧ s.lock.numShared = 0 then
        s.grantExclusive c
      else s.blocked .exclusive c := by
  split
  · next hfree =>
      obtain ⟨hl, hs, hn⟩ := hfree
      have hgrant := newlyGranted_eq (lockingAcquire_grants (.inl hc)).granted
      simp [perform, resourceLockExclusive, hl, hs, hn, hgrant, grantExclusive]
  · next hfree =>
      have hcode : resourceLockExclusive s.world s.lock c =
          resourceBlock s.world s.lock .exclusive c := by
        unfold resourceLockExclusive
        cases hl : s.lock.waitingThreads with
        | cons a l => simp
        | nil =>
            cases hs : s.lock.state with
            | exclusive => simp
            | shared => simp [show s.lock.numShared ≠ 0 from fun hn => hfree ⟨hl, hs, hn⟩]
      have hblock : newlyGranted s.world (resourceBlock s.world s.lock .exclusive c).1 = [] := by
        apply newlyGranted_eq
        simp only [resourceBlock, lockingBlock_eq hc, List.append_nil]
      simp only [perform, hcode, hblock, List.append_nil]
      rfl

omit [DecidableEq κ] in
theorem unlocked_self {w : Contexts κ} {lock : Resource κ} {S E : List κ} :
    unlocked w (w, lock) S E = ⟨w, lock, S, E⟩ := by
  simp [unlocked, newlyGranted]

/-- The last shared holder wakes those at the head of the queue. -/
theorem perform_unlockShared (h : ResourceOk s) (hc : c ∈ s.sharedHolders) :
    s.perform (.unlockShared c) =
      if s.sharedHolders.erase c = [] ∧ s.lock.waitingThreads ≠ [] then s.woken
      else { s with
        lock := { s.lock with numShared := s.lock.numShared - 1 }
        sharedHolders := s.sharedHolders.erase c } := by
  have hE : s.exclusiveHolders = [] := by
    by_contra hne
    rw [h.alone hne] at hc
    cases hc
  have hs := h.shared_of_no_exclusive hE
  have hlen : (s.sharedHolders.erase c).length = s.lock.numShared - 1 := by
    rw [h.numShared, List.length_erase_of_mem hc]
  split
  · next hwake =>
      have hn : s.lock.numShared - 1 = 0 := by
        rw [← hlen, hwake.1, List.length_nil]
      simp [perform, resourceUnlockShared, hs, hwake, hn, hE, ResourceRun.woken]
  · next hwake =>
      have hcode : resourceUnlockShared s.world s.lock =
          (s.world, { s.lock with numShared := s.lock.numShared - 1 }) := by
        simp only [resourceUnlockShared, hs]
        rw [if_neg]
        rintro ⟨hn, hl⟩
        exact hwake ⟨List.eq_nil_of_length_eq_zero (hlen.trans hn), by simpa using hl⟩
      simp only [perform, hcode, unlocked_self]

/-- The exclusive holder wakes those at the head of the queue. -/
theorem perform_unlockExclusive (h : ResourceOk s) (hc : c ∈ s.exclusiveHolders) :
    s.perform (.unlockExclusive c) =
      if s.lock.waitingThreads ≠ [] then s.woken
      else { s with lock := { s.lock with state := .shared }, exclusiveHolders := [] } := by
  have hne : s.exclusiveHolders ≠ [] := List.ne_nil_of_mem hc
  have hS := h.alone hne
  have hs := h.state.mpr hne
  have hn : s.lock.numShared = 0 := by
    rw [h.numShared, hS, List.length_nil]
  have hE : s.exclusiveHolders.erase c = [] := by
    have hone := h.one
    have hlen := List.length_erase_of_mem hc
    exact List.eq_nil_of_length_eq_zero (by omega)
  by_cases hl : s.lock.waitingThreads = []
  · have hcode : resourceUnlockExclusive s.world s.lock =
        (s.world, { s.lock with state := .shared }) := by
      simp [resourceUnlockExclusive, Contexts.assert, hs, hl, hn]
    rw [if_neg (fun hne => hne hl)]
    simp only [perform, hcode, unlocked_self, hE]
  · have hcode : resourceUnlockExclusive s.world s.lock =
        resourceWakeThreads s.world { s.lock with numShared := 0 } := by
      have hlock : ({ s.lock with numShared := 0 } : Resource κ) = s.lock := by
        rw [← hn]
      rw [hlock]
      simp [resourceUnlockExclusive, Contexts.assert, hs, hl, hn]
    rw [if_pos hl]
    simp only [perform, hcode, hE, hS]
    rfl

/-- Waking hands the lock to the first waiter alone, exclusively, or to all
shared waiters before the first exclusive one. -/
theorem ResourceInv.woken_cases (h : ResourceInv s) (hne : s.lock.waitingThreads ≠ []) :
    (∃ c rest, s.lock.waitingThreads = c :: rest ∧ WantsShared s.world c = false ∧
        Grants s.world s.woken.world [c] ∧ s.woken.lock = ⟨.exclusive, 0, rest⟩ ∧
        s.woken.sharedHolders = [] ∧ s.woken.exclusiveHolders = [c]) ∨
      ∃ cs rest, s.lock.waitingThreads = cs ++ rest ∧ cs ≠ [] ∧
        (∀ c ∈ cs, WantsShared s.world c = true) ∧
        (∀ c ∈ rest.head?, WantsShared s.world c = false) ∧ Grants s.world s.woken.world cs ∧
        s.woken.lock = ⟨.shared, cs.length, rest⟩ ∧ s.woken.sharedHolders = cs ∧
        s.woken.exclusiveHolders = [] := by
  obtain ⟨cs, rest, hsplit, hcs, hgrants, hcases⟩ :=
    @resourceWakeThreads_spec κ _ s.world { s.lock with numShared := 0 } h.waits h.nodup rfl hne
  have hnew := newlyGranted_eq hgrants.granted
  simp only [ResourceRun.woken, unlocked, hnew, List.nil_append]
  obtain ⟨hlen, hexcl, hlock⟩ | ⟨hshared, hhead, hlock⟩ := hcases
  · obtain ⟨c, rfl⟩ := List.length_eq_one_iff.mp hlen
    have hc := hexcl c List.mem_cons_self
    exact .inl ⟨c, rest, hsplit, hc, hgrants, hlock, by simp [hc], by simp [hc]⟩
  · refine .inr ⟨cs, rest, hsplit, hcs, hshared, hhead, hgrants, hlock, ?_, ?_⟩
    · exact List.filter_eq_self.mpr hshared
    · exact List.filter_eq_nil_iff.mpr fun c hc => by simp [hshared c hc]

/-! ## one step -/

omit [DecidableEq κ] in
/-- The contexts that still wait after some were granted the lock. -/
theorem Waits.of_grants {w w' : Contexts κ} {cs rest : List κ}
    (hw : ∀ c ∈ cs ++ rest, Waits w c) (hnd : (cs ++ rest).Nodup) (hg : Grants w w' cs) :
    ∀ c ∈ rest, Waits w' c := fun c hc => by
  have hcs : c ∉ cs := fun hcs => (List.nodup_append.mp hnd).2.2 c hcs c hc rfl
  rw [Waits, hg.context c hcs, hg.thread c hcs]
  exact hw c (List.mem_append_right cs hc)

/-- Those that are woken hold the lock. -/
theorem ResourceInv.woken (h : ResourceInv s) (hne : s.lock.waitingThreads ≠ []) :
    ResourceInv s.woken := by
  obtain ⟨c, rest, hl, -, hg, hlock, hS, hE⟩ | ⟨cs, rest, hl, hcs, hshared, hhead, hg, hlock, hS, hE⟩ :=
    h.woken_cases hne <;>
  have hw := h.waits <;>
  have hnd := h.nodup <;>
  rw [hl] at hw hnd
  · have hfine := hg.panicked.trans h.fine
    refine ⟨⟨?_, fun _ => hS, ?_, ?_, fun _ => .inr ?_, fun hs => ?_, hfine⟩, ?_, ?_⟩ <;>
    rw [hlock] at *
    · simp [hE]
    · simp [hS]
    · simp [hE]
    · simp [hE]
    · cases hs
    · exact @Waits.of_grants κ _ _ [c] rest hw hnd hg
    · exact (List.nodup_cons.mp hnd).2
  · have hfine := hg.panicked.trans h.fine
    refine ⟨⟨?_, fun hne => absurd hE hne, ?_, ?_, fun _ => .inl ?_, fun _ d hd => ?_, hfine⟩, ?_, ?_⟩ <;>
    rw [hlock] at *
    · simp [hE]
    · simp [hS]
    · simp [hE]
    · rw [hS]
      exact hcs
    · rw [hg.waitState]
      have hexcl := hhead d hd
      simp only [WantsShared, decide_eq_false_iff_not] at hexcl
      cases hm : (s.world.context d).resourceWaitState with
      | shared => exact absurd hm hexcl
      | exclusive => rfl
    · exact Waits.of_grants hw hnd hg
    · exact (List.nodup_append.mp hnd).2.1

/-- After a request that has to wait, the requester does. -/
theorem ResourceInv.blocked (h : ResourceInv s) (hc : (s.world.context c).state = .ready)
    {mode : ResourceState} (hheld : s.sharedHolders ≠ [] ∨ s.exclusiveHolders ≠ [])
    (hhead : s.lock.waitingThreads = [] → s.lock.state = .shared → mode = .exclusive) :
    ResourceInv (s.blocked mode c) := by
  have hnot := h.ready_notMem hc
  have hctx : ∀ d, d ≠ c → (s.blocked mode c).world.context d = s.world.context d := fun d hd => by
    simp only [ResourceRun.blocked, lockingBlock_eq hc, Function.update_of_ne hd]
  have hself : (s.blocked mode c).world.context c = ⟨.blocking, mode, (s.world.context c).kind⟩ := by
    simp only [ResourceRun.blocked, lockingBlock_eq hc, Function.update_self, Option.getD_some]
  refine ⟨⟨h.one, h.alone, h.numShared, h.state, fun _ => hheld, fun hs d hd => ?_, ?_⟩,
    fun d hd => ?_, ?_⟩
  · simp only [ResourceRun.blocked, List.head?_append, Option.mem_def] at hd
    cases hl : s.lock.waitingThreads.head? with
    | none =>
        rw [hl, Option.none_or, List.head?_cons, Option.some.injEq] at hd
        rw [← hd, hself]
        exact hhead (List.head?_eq_none_iff.mp hl) hs
    | some e =>
        rw [hl, Option.some_or, Option.some.injEq] at hd
        have hmem : d ∈ s.lock.waitingThreads := hd ▸ List.mem_of_mem_head? hl
        rw [hctx d fun hdc => hnot (hdc ▸ hmem)]
        exact h.head hs d (hd ▸ hl)
  · simp only [ResourceRun.blocked, lockingBlock_eq hc]
    exact h.fine
  · by_cases hdc : d = c
    · subst hdc
      refine ⟨by rw [hself], fun hk => ?_⟩
      rw [hself] at hk
      simp only [ResourceRun.blocked, lockingBlock_eq hc]
      rw [if_pos hk, Function.update_self]
    · have hmem : d ∈ s.lock.waitingThreads := by
        simpa [ResourceRun.blocked, hdc] using hd
      obtain ⟨hb, hthread⟩ := h.waits d hmem
      refine ⟨by rw [hctx d hdc]; exact hb, fun hk => ?_⟩
      rw [hctx d hdc] at hk
      simp only [ResourceRun.blocked, lockingBlock_eq hc]
      split
      · rw [Function.update_of_ne hdc]
        exact hthread hk
      · exact hthread hk
  · simp only [ResourceRun.blocked]
    rw [List.nodup_append]
    exact ⟨h.nodup, List.nodup_singleton c, fun a ha b hb hab =>
      hnot (List.mem_singleton.mp hb ▸ hab ▸ ha)⟩

/-- A caller gets the lock shared. -/
theorem ResourceInv.grantShared (h : ResourceInv s) (hc : (s.world.context c).state = .ready)
    (hl : s.lock.waitingThreads = []) (hs : s.lock.state = .shared) :
    ResourceInv (s.grantShared c) := by
  have hgrant := lockingAcquire_grants (.inl hc)
  have hE := h.no_exclusive hs
  have hn : s.lock.numShared + 1 = (s.sharedHolders ++ [c]).length := by
    rw [h.numShared, List.length_append]
    rfl
  refine ⟨⟨h.one, fun hne => absurd hE hne, hn, h.state, fun hne => absurd hl hne, fun _ d hd => ?_,
    hgrant.panicked.trans h.fine⟩, fun d hd => ?_, h.nodup⟩
  all_goals
    simp only [ResourceRun.grantShared, hl] at hd
    cases hd

/-- A caller gets the lock exclusive. -/
theorem ResourceInv.grantExclusive (h : ResourceInv s) (hc : (s.world.context c).state = .ready)
    (hl : s.lock.waitingThreads = []) (hs : s.lock.state = .shared) (hn : s.lock.numShared = 0) :
    ResourceInv (s.grantExclusive c) := by
  have hgrant := lockingAcquire_grants (.inl hc)
  have hE := h.no_exclusive hs
  have hS : s.sharedHolders = [] := List.eq_nil_of_length_eq_zero (h.numShared ▸ hn)
  refine ⟨⟨?_, fun _ => hS, h.numShared, iff_of_true rfl ?_, fun hne => absurd hl hne,
    fun hs => ResourceState.noConfusion hs, hgrant.panicked.trans h.fine⟩, fun d hd => ?_, h.nodup⟩
  · simp [ResourceRun.grantExclusive, hE]
  · simp [ResourceRun.grantExclusive]
  · simp only [ResourceRun.grantExclusive, hl] at hd
    cases hd

/-- `ResourceLockShared` keeps the invariant. -/
theorem resourceInv_lockShared (h : ResourceInv s) (hc : (s.world.context c).state = .ready) :
    ResourceInv (s.perform (.lockShared c)) := by
  rw [perform_lockShared hc]
  split
  · next hfree => exact h.grantShared hc hfree.1 hfree.2
  · next hfree =>
      refine h.blocked hc ?_ fun hl hs => absurd ⟨hl, hs⟩ hfree
      by_cases hl : s.lock.waitingThreads = []
      · cases hs : s.lock.state with
        | shared => exact absurd ⟨hl, hs⟩ hfree
        | exclusive => exact .inr (h.state.mp hs)
      · exact h.held hl

/-- `ResourceLockExclusive` keeps the invariant. -/
theorem resourceInv_lockExclusive (h : ResourceInv s) (hc : (s.world.context c).state = .ready) :
    ResourceInv (s.perform (.lockExclusive c)) := by
  rw [perform_lockExclusive hc]
  split
  · next hfree => exact h.grantExclusive hc hfree.1 hfree.2.1 hfree.2.2
  · next hfree =>
      refine h.blocked hc ?_ fun _ _ => rfl
      by_cases hl : s.lock.waitingThreads = []
      · cases hs : s.lock.state with
        | exclusive => exact .inr (h.state.mp hs)
        | shared =>
            refine .inl fun hS => hfree ⟨hl, hs, ?_⟩
            rw [h.numShared, hS, List.length_nil]
      · exact h.held hl

/-- `ResourceUnlockShared` keeps the invariant. -/
theorem resourceInv_unlockShared (h : ResourceInv s) (hc : c ∈ s.sharedHolders) :
    ResourceInv (s.perform (.unlockShared c)) := by
  rw [perform_unlockShared h.toResourceOk hc]
  split
  · next hwake => exact h.woken hwake.2
  · next hwake =>
      have hlen : s.lock.numShared - 1 = (s.sharedHolders.erase c).length := by
        rw [h.numShared, List.length_erase_of_mem hc]
      have halone : s.exclusiveHolders ≠ [] → s.sharedHolders.erase c = [] := fun hne => by
        rw [h.alone hne]
        rfl
      exact ⟨⟨h.one, halone, hlen, h.state, fun hne => .inl fun hS => hwake ⟨hS, hne⟩, h.head,
        h.fine⟩, h.waits, h.nodup⟩

/-- `ResourceUnlockExclusive` keeps the invariant. -/
theorem resourceInv_unlockExclusive (h : ResourceInv s) (hc : c ∈ s.exclusiveHolders) :
    ResourceInv (s.perform (.unlockExclusive c)) := by
  rw [perform_unlockExclusive h.toResourceOk hc]
  split
  · next hne => exact h.woken hne
  · next hl =>
      rw [not_not] at hl
      refine ⟨⟨Nat.zero_le _, fun hne => absurd rfl hne, h.numShared, iff_of_false (by simp) (by simp),
        fun hne => absurd hl hne, fun _ d hd => ?_, h.fine⟩, h.waits, h.nodup⟩
      simp only [hl] at hd
      cases hd

/-- What happens to a context that does not wait here leaves the lock alone. -/
theorem resourceInv_elsewhere (h : ResourceInv s) (hc : c ∉ s.lock.waitingThreads)
    {context : LockingContext} {thread : ThreadState} :
    ResourceInv (s.perform (.elsewhere c context thread)) := by
  have hctx : ∀ d ∈ s.lock.waitingThreads, d ≠ c := fun d hd hdc => hc (hdc ▸ hd)
  refine ⟨⟨h.one, h.alone, h.numShared, h.state, h.held, fun hs d hd => ?_, h.fine⟩,
    fun d hd => ?_, h.nodup⟩
  · simp only [perform, Function.update_of_ne (hctx d (List.mem_of_mem_head? hd))]
    exact h.head hs d hd
  · simp only [perform, Waits, Function.update_of_ne (hctx d hd)]
    exact h.waits d hd

/-- Every call that is allowed keeps the invariant. -/
theorem resourceInv_perform (h : ResourceInv s) (hop : s.Allowed op) :
    ResourceInv (s.perform op) := by
  cases op with
  | lockShared c => exact resourceInv_lockShared h hop
  | lockExclusive c => exact resourceInv_lockExclusive h hop
  | unlockShared c => exact resourceInv_unlockShared h hop
  | unlockExclusive c => exact resourceInv_unlockExclusive h hop
  | elsewhere c context thread => exact resourceInv_elsewhere h hop

/-- **One step** keeps the invariant. -/
theorem resourceInv_step (h : ResourceInv s) (hstep : step s op = some s') : ResourceInv s' := by
  simp only [step, Option.ite_none_right_eq_some, Option.some.injEq] at hstep
  obtain ⟨hop, rfl⟩ := hstep
  exact resourceInv_perform h hop

/-- **Exclusion and consistency of the dual-mode lock**, in every state that any
sequence of requests and matching unlocks reaches. -/
theorem resource_exclusion (mode : ResourceState) (creator : κ) (world : Contexts κ)
    (ops : List (ResourceOp κ)) (h : exec step (start mode creator world) ops = some s) :
    ResourceOk s :=
  (exec_invariant (I := ResourceInv) (fun _ _ _ hs hstep => resourceInv_step hs hstep)
    (resourceInv_start mode creator world) h).toResourceOk

/-- A reader, a writer queued behind it and a reader queued behind both: the
lock goes from the first to the second to the third. -/
theorem resource_exclusion_handover :
    ∃ s : ResourceRun ℕ,
      exec step (start .shared 0 ⟨fun _ => ⟨.ready, .shared, .thread⟩, fun _ => .running, [], [], false⟩)
        [.lockShared 1, .lockExclusive 2, .lockShared 3, .unlockShared 1, .unlockExclusive 2] = some s ∧
      s.sharedHolders = [3] ∧ s.exclusiveHolders = [] ∧ ResourceOk s := by
  have hend : (exec step (start .shared 0
      (⟨fun _ => ⟨.ready, .shared, .thread⟩, fun _ => .running, [], [], false⟩ : Contexts ℕ))
      [.lockShared 1, .lockExclusive 2, .lockShared 3, .unlockShared 1, .unlockExclusive 2]).map
        (fun s => (s.sharedHolders, s.exclusiveHolders)) = some ([3], []) := by decide
  obtain ⟨s, hs, heq⟩ := Option.map_eq_some_iff.mp hend
  obtain ⟨hS, hE⟩ := Prod.mk.inj heq
  exact ⟨s, hs, hS, hE, resource_exclusion _ _ _ _ hs⟩

end KernelPanic
