import KernelPanic.Kernel.Pipe
import KernelPanic.Lib.Run
import Mathlib.Data.Set.Card

/-!
# KernelPanic.Kernel.Pipe.Tokens

The token discipline of a pipe.  Every semaphore of a pipe has at most one
token (`TokenInv` of `KernelPanic.Kernel.Semaphore`).  Those of the mutex and of
the outer locks are never lost.  Those of the gates come and go with the ring:
the thread that takes the last byte, or the last space, leaks its own gate's
token, and the one that finds the ring full, or empty, owes the other side's.
`SyncInv` keeps these accounts at every statement of every thread, as long as no
index of the ring wraps, and `pipe_tokens` reads off what they are for.  A thread
that the ring does not give back keeps all its tokens (`wrappingRead`).
-/

namespace KernelPanic

open Run PipeRun RingBuffer

variable {τ : Type*}

/-! ## what a thread is entitled to -/

namespace PipePc

/-- The thread is between `SemaphoreDown` and `SemaphoreUp` of the mutex. -/
@[simp] def inMutex : PipePc → Bool
  | .check | .transfer | .copying | .checkLeft | .upMutex => true
  | _ => false

/-- The thread is between those of its outer lock. -/
@[simp] def inOuter : PipePc → Bool
  | .downOuter | .ret => false
  | _ => true

/-- The own gate's token is leaked as soon as `left` is known to be false. -/
@[simp] def inGate (left : Bool) : PipePc → Bool
  | .downMutex | .check | .transfer | .copying | .checkLeft => true
  | .upMutex | .upOther | .upGate => left
  | _ => false

/-- The other gate's token is owed as soon as `was` is known to be true. -/
@[simp] def owes (was : Bool) : PipePc → Bool
  | .transfer | .copying | .checkLeft | .upMutex | .upOther => was
  | _ => false

end PipePc

namespace PipeThread

/-- The thread has passed `SemaphoreDown`, or owes a `SemaphoreUp`. -/
def claims (p : PipeThread) : PipeLock → Prop
  | .mutex => p.pc.inMutex = true
  | .gate side =>
      p.side = side ∧ p.pc.inGate p.left = true ∨ p.side ≠ side ∧ p.pc.owes p.was = true
  | .outer side => p.side = side ∧ p.pc.inOuter = true

/-- Where a thread is that waits. -/
def At (p : PipeThread) : PipeLock → Prop
  | .mutex => p.pc = .check
  | .gate side => p.side = side ∧ p.pc = .downMutex
  | .outer side => p.side = side ∧ p.pc = .loop ∧ p.done = 0

/-- Neither between the check and the transfer nor between the transfer and
the second check, where the gates lag behind the ring. -/
def Quiet (p : PipeThread) : Prop := p.pc ≠ .transfer ∧ p.pc ≠ .checkLeft

/-- The token of the side's gate is there although the ring has nothing for it:
another thread is about to change the ring, or has just done so. -/
def Amid (p : PipeThread) (side : Side) : Prop :=
  p.pc = .transfer ∧ p.side ≠ side ∧ p.was = true ∨ p.pc = .checkLeft ∧ p.side = side

/-- How far the call has come.  It is not lost in the ring. -/
def Local (p : PipeThread) : Prop :=
  match p.pc with
  | .copying => False
  | .downOuter => p.done = 0 ∧ (p.call.isStruct = false → 0 < p.call.size)
  | .loop => p.done ≤ p.call.size ∧ (p.call.isStruct = false → p.done < p.call.size)
  | .downGate | .downMutex | .check | .transfer => p.done < p.call.size
  | .checkLeft | .upMutex | .upOther | .upGate => 0 < p.n ∧ p.done + p.n ≤ p.call.size
  | .upOuter | .ret => p.call.isStruct = true → p.done = p.call.size

end PipeThread

/-- The claims of all threads. -/
def Claims (thread : τ → Option PipeThread) (l : PipeLock) (t : τ) : Prop :=
  ∃ p, thread t = some p ∧ p.claims l

/-- The accounts of the tokens. -/
structure SyncInv (s : PipeRun τ) : Prop where
  blocking : BlockingInv s.world s.pipe.lock
  token : TokenInv s.pipe.lock (Claims s.thread)
  ring : Ok s.pipe.ring
  capacity : s.pipe.ring.size < 2 ^ 64
  place : ∀ l, ∀ t ∈ (s.pipe.lock l).waitingThreads, ∃ p, s.thread t = some p ∧ p.At l
  progress : ∀ t p, s.thread t = some p → p.Local
  mutex : HasToken s.pipe.lock (Claims s.thread) .mutex
  outer : ∀ side, HasToken s.pipe.lock (Claims s.thread) (.outer side)
  /-- A side for which the ring has something finds its gate's token. -/
  gate : ∀ side : Side, side.avail s.pipe.ring = true →
    HasToken s.pipe.lock (Claims s.thread) (.gate side)
  shut : ∀ side, HasToken s.pipe.lock (Claims s.thread) (.gate side) →
    side.avail s.pipe.ring = true ∨ ∃ t p, s.thread t = some p ∧ p.Amid side
  was : ∀ t p, s.thread t = some p → p.pc = .transfer → p.was = !p.side.other.avail s.pipe.ring

variable [DecidableEq τ] {s s' : PipeRun τ} {t : τ} {p p' : PipeThread} {l : PipeLock} {side : Side}
  {thread : τ → Option PipeThread}

/-! ## claims -/

/-- The thread claims what its new variables say. -/
theorem claims_update {q : Option PipeThread} {m : PipeLock} {d : τ} :
    Claims (Function.update thread t q) m d ↔
      if d = t then ∃ p, q = some p ∧ p.claims m else Claims thread m d := by
  by_cases hd : d = t
  · simp [Claims, hd]
  · simp [Claims, hd]

/-- The thread claims one lock more. -/
theorem claims_gain (hp : thread t = some p) (h : ∀ m, p'.claims m ↔ p.claims m ∨ m = l)
    (m : PipeLock) (d : τ) :
    Claims (Function.update thread t (some p')) m d ↔ Claims thread m d ∨ m = l ∧ d = t := by
  rw [claims_update]
  by_cases hd : d = t
  · simp [Claims, hd, hp, h]
  · simp [hd]

/-- The thread claims one lock less. -/
theorem claims_lose (hp : thread t = some p) (h : ∀ m, p'.claims m ↔ p.claims m ∧ m ≠ l)
    (m : PipeLock) (d : τ) :
    Claims (Function.update thread t (some p')) m d ↔
      Claims thread m d ∧ ¬ (m = l ∧ d = t) := by
  rw [claims_update]
  by_cases hd : d = t
  · simp [Claims, hd, hp, h]
  · simp [hd]

/-- The thread claims the same locks. -/
theorem claims_same {q : Option PipeThread}
    (h : ∀ m, (∃ p, thread t = some p ∧ p.claims m) ↔ ∃ p, q = some p ∧ p.claims m) :
    Claims (Function.update thread t q) = Claims thread := by
  funext m d
  rw [eq_iff_iff, claims_update]
  by_cases hd : d = t
  · simp [Claims, hd, h]
  · simp [hd]

/-! ## the owner of the mutex -/

omit [DecidableEq τ] in
/-- A thread runs unless it waits. -/
theorem SyncInv.runs_iff (h : SyncInv s) : s.Runs t ↔ ∀ l, t ∉ (s.pipe.lock l).waitingThreads :=
  h.blocking.runs_iff

omit [DecidableEq τ] in
/-- A thread that runs owns what it claims. -/
theorem SyncInv.owned (h : SyncInv s) (hp : s.thread t = some p) (ht : s.Runs t)
    (hclaim : p.claims l) : Owned s.pipe.lock (Claims s.thread) l t :=
  ⟨⟨p, hp, hclaim⟩, h.runs_iff.mp ht l⟩

omit [DecidableEq τ] in
/-- A thread at a statement of the ring has the mutex. -/
theorem SyncInv.owned_mutex (h : SyncInv s) (hp : s.thread t = some p) (hq : ¬ p.Quiet) :
    Owned s.pipe.lock (Claims s.thread) .mutex t := by
  have hpc : p.pc = .transfer ∨ p.pc = .checkLeft := by
    by_contra hne
    rw [not_or] at hne
    exact hq hne
  refine ⟨⟨p, hp, ?_⟩, fun hmem => ?_⟩
  · obtain hpc | hpc := hpc <;> simp [PipeThread.claims, hpc]
  · obtain ⟨q, hq, hat⟩ := h.place .mutex t hmem
    rw [hp, Option.some.injEq] at hq
    subst hq
    obtain hpc | hpc := hpc <;> simp [PipeThread.At, hpc] at hat

omit [DecidableEq τ] in
/-- Only the owner of the mutex is at a statement of the ring. -/
theorem SyncInv.quiet_of_ne (h : SyncInv s) (ht : Owned s.pipe.lock (Claims s.thread) .mutex t)
    {d : τ} (hd : d ≠ t) (hp : s.thread d = some p) : p.Quiet := by
  by_contra hq
  exact hd (h.token.unique .mutex d t (h.owned_mutex hp hq) ht)

/-- Who is amid its ring step may leave gates and ring apart. -/
theorem PipeThread.Amid.not_quiet (h : p.Amid side) : ¬ p.Quiet := fun hq => by
  obtain h | h := h
  · exact hq.1 h.1
  · exact hq.2 h.1

omit [DecidableEq τ] in
/-- To the owner of the mutex, the gates agree with the ring, up to what it is
itself about. -/
theorem SyncInv.avail_of_token (h : SyncInv s) (ht : Owned s.pipe.lock (Claims s.thread) .mutex t)
    (hp : s.thread t = some p) (hamid : ¬ p.Amid side)
    (htoken : HasToken s.pipe.lock (Claims s.thread) (.gate side)) :
    side.avail s.pipe.ring = true := by
  refine (h.shut side htoken).resolve_right ?_
  rintro ⟨d, q, hq, hamid'⟩
  by_cases hd : d = t
  · rw [hd, hp, Option.some.injEq] at hq
    exact hamid (hq ▸ hamid')
  · exact hamid'.not_quiet (h.quiet_of_ne ht hd hq)

/-! ## statements away from the ring -/

/-- A statement that leaves the ring alone and only passes tokens on. -/
theorem SyncInv.passes (h : SyncInv s) {q : Option PipeThread}
    (hthread : s'.thread = Function.update s.thread t q) (hring : s'.pipe.ring = s.pipe.ring)
    (hblocking : BlockingInv s'.world s'.pipe.lock)
    (hpasses : Passes s.pipe.lock s'.pipe.lock (Claims s.thread) (Claims s'.thread))
    (hplace : ∀ l, ∀ d ∈ (s'.pipe.lock l).waitingThreads,
      d ∈ (s.pipe.lock l).waitingThreads ∧ d ≠ t ∨ d = t ∧ ∃ p, q = some p ∧ p.At l)
    (hquiet : ∀ p, s.thread t = some p → p.Quiet)
    (hquiet' : ∀ p, q = some p → p.Quiet ∧ p.Local) : SyncInv s' := by
  have hother : ∀ d, d ≠ t → s'.thread d = s.thread d := fun d hd => by
    rw [hthread, Function.update_of_ne hd]
  have hself : s'.thread t = q := by
    rw [hthread, Function.update_self]
  refine ⟨hblocking, hpasses.inv, hring ▸ h.ring, hring ▸ h.capacity, fun l d hd => ?_,
    fun d p hp => ?_, (hpasses.token _).mpr h.mutex, fun side => (hpasses.token _).mpr (h.outer side), fun side hs => ?_,
    fun side hs => ?_, fun d p hp hpc => ?_⟩
  · obtain ⟨hd, hdt⟩ | ⟨rfl, hat⟩ := hplace l d hd
    · rw [hother d hdt]
      exact h.place l d hd
    · rw [hself]
      exact hat
  · by_cases hdt : d = t
    · rw [hdt, hself] at hp
      exact (hquiet' p hp).2
    · rw [hother d hdt] at hp
      exact h.progress d p hp
  · rw [hring] at hs
    exact (hpasses.token _).mpr (h.gate side hs)
  · rw [hring]
    refine (h.shut side ((hpasses.token _).mp hs)).imp_right ?_
    rintro ⟨d, p, hp, hamid⟩
    have hdt : d ≠ t := fun hdt => hamid.not_quiet (hquiet p (hdt ▸ hp))
    exact ⟨d, p, (hother d hdt).trans hp, hamid⟩
  · by_cases hdt : d = t
    · rw [hdt, hself] at hp
      exact absurd hpc (hquiet' p hp).1.1
    · rw [hother d hdt] at hp
      rw [hring]
      exact h.was d p hp hpc

/-- A statement that does nothing to the semaphores. -/
theorem SyncInv.same (h : SyncInv s) (ht : s.Runs t) {q : Option PipeThread}
    (hthread : s'.thread = Function.update s.thread t q)
    (hquiet : ∀ p, s.thread t = some p → p.Quiet) (hquiet' : ∀ p, q = some p → p.Quiet ∧ p.Local)
    (hclaims : ∀ m, (∃ p, s.thread t = some p ∧ p.claims m) ↔ ∃ p, q = some p ∧ p.claims m)
    (hpipe : s'.pipe = s.pipe := by rfl) (hworld : s'.world = s.world := by rfl) : SyncInv s' := by
  have hsame : Claims s'.thread = Claims s.thread := by
    rw [hthread]
    exact claims_same hclaims
  refine h.passes hthread (by rw [hpipe]) ?_ ?_ (fun l d hd => .inl ?_) hquiet hquiet'
  · rw [hpipe, hworld]
    exact h.blocking
  · rw [hpipe, hsame]
    exact ⟨h.token, fun _ => Iff.rfl⟩
  · rw [hpipe] at hd
    exact ⟨hd, fun hdt => h.runs_iff.mp ht l (hdt ▸ hd)⟩

/-- A statement between the semaphores. -/
theorem SyncInv.goesOn (h : SyncInv s) (hp : s.thread t = some p) (ht : s.Runs t)
    (hclaims : ∀ m, p'.claims m ↔ p.claims m) (hquiet : p.Quiet) (hquiet' : p'.Quiet)
    (hlocal : p'.Local) : SyncInv (s.setThread t p') := by
  refine h.same ht rfl (fun q hq => ?_) (fun q hq => ?_) fun m => ?_
  · rw [hp, Option.some.injEq] at hq
    exact hq ▸ hquiet
  · rw [Option.some.injEq] at hq
    exact hq ▸ ⟨hquiet', hlocal⟩
  · simp [hp, hclaims]

/-- `SemaphoreDown` keeps the invariant. -/
theorem SyncInv.down (h : SyncInv s) (hp : s.thread t = some p) (ht : s.Runs t)
    (hgain : ∀ m, p'.claims m ↔ p.claims m ∨ m = l) (hn : ¬ p.claims l) (hat : p'.At l)
    (hquiet : p.Quiet) (hquiet' : p'.Quiet) (hlocal : p'.Local) :
    SyncInv ((s.down t l).setThread t p') := by
  have hwait := h.runs_iff.mp ht
  have hn' : ¬ Claims s.thread l t := fun ⟨q, hq, hclaim⟩ => by
    rw [hp, Option.some.injEq] at hq
    exact hn (hq ▸ hclaim)
  refine h.passes rfl rfl (h.blocking.down hwait)
    (h.token.down (hwait l) hn' (claims_gain hp hgain)) (fun m d hd => ?_)
    (fun q hq => ?_) fun q hq => ?_
  · simp only [setThread, PipeRun.down, waitingThreads_down] at hd
    split at hd
    · next hm =>
        obtain hd | hd := List.mem_append.mp hd
        · rw [← hm.1] at hd
          exact .inl ⟨hd, fun hdt => hwait m (hdt ▸ hd)⟩
        · exact .inr ⟨List.mem_singleton.mp hd, p', rfl, hm.1 ▸ hat⟩
    · exact .inl ⟨hd, fun hdt => hwait m (hdt ▸ hd)⟩
  · rw [hp, Option.some.injEq] at hq
    exact hq ▸ hquiet
  · rw [Option.some.injEq] at hq
    exact hq ▸ ⟨hquiet', hlocal⟩

/-- `SemaphoreUp` of a lock that is claimed keeps the invariant. -/
theorem SyncInv.up (h : SyncInv s) (hp : s.thread t = some p) (ht : s.Runs t)
    (hlose : ∀ m, p'.claims m ↔ p.claims m ∧ m ≠ l) (hclaim : p.claims l)
    (hquiet : p.Quiet) (hquiet' : p'.Quiet) (hlocal : p'.Local) :
    SyncInv ((s.up l).setThread t p') := by
  have hwait := h.runs_iff.mp ht
  refine h.passes rfl rfl h.blocking.up
    (h.token.up (h.blocking.nodup l) (h.owned hp ht hclaim) (claims_lose hp hlose))
    (fun m d hd => .inl ?_) (fun q hq => ?_) fun q hq => ?_
  · have hmem : d ∈ (s.pipe.lock m).waitingThreads := by
      simp only [setThread, PipeRun.up, waitingThreads_up] at hd
      split at hd
      · next hm => exact hm ▸ List.mem_of_mem_tail hd
      · exact hd
    exact ⟨hmem, fun hdt => hwait m (hdt ▸ hmem)⟩
  · rw [hp, Option.some.injEq] at hq
    exact hq ▸ hquiet
  · rw [Option.some.injEq] at hq
    exact hq ▸ ⟨hquiet', hlocal⟩

/-! ## statements of the ring -/

/-- The token stays where it is. -/
theorem hasToken_setThread (hp : s.thread t = some p) (h : p'.claims l ↔ p.claims l) :
    HasToken s.pipe.lock (Claims (Function.update s.thread t (some p'))) l ↔
      HasToken s.pipe.lock (Claims s.thread) l := by
  have hclaim : ∀ d, Claims (Function.update s.thread t (some p')) l d ↔ Claims s.thread l d :=
    fun d => by
      rw [claims_update]
      by_cases hd : d = t
      · simp [Claims, hd, hp, h]
      · simp [hd]
  simp only [HasToken, Owned, hclaim]

/-- The mutex is taken inside the outer lock. -/
theorem inOuter_of_mutex (h : p.claims .mutex) : p.pc.inOuter = true := by
  cases hpc : p.pc <;> simp_all [PipeThread.claims]

/-- A statement inside the mutex: what it has to say about the gates. -/
theorem SyncInv.inMutex (h : SyncInv s) (hp : s.thread t = some p) (ht : s.Runs t)
    (hthread : s'.thread = Function.update s.thread t (some p')) (hmutex : p.claims .mutex)
    (hmutex' : p'.claims .mutex) (hside : p'.side = p.side)
    (hlock : s'.pipe.lock = s.pipe.lock) (hworld : s'.world = s.world) (hring : Ok s'.pipe.ring)
    (hsize : s'.pipe.ring.size = s.pipe.ring.size)
    (htoken : TokenInv s.pipe.lock (Claims s'.thread)) (hlocal : p'.Local)
    (hgate : ∀ side : Side, side.avail s'.pipe.ring = true →
      HasToken s.pipe.lock (Claims s'.thread) (.gate side))
    (hshut : ∀ side, HasToken s.pipe.lock (Claims s'.thread) (.gate side) →
      side.avail s'.pipe.ring = true ∨ p'.Amid side)
    (hwas : p'.pc = .transfer → p'.was = !p'.side.other.avail s'.pipe.ring) : SyncInv s' := by
  have howned : Owned s.pipe.lock (Claims s.thread) .mutex t := h.owned hp ht hmutex
  have hother : ∀ d, d ≠ t → s'.thread d = s.thread d := fun d hd => by
    rw [hthread, Function.update_of_ne hd]
  have hself : s'.thread t = some p' := by
    rw [hthread, Function.update_self]
  have hinOuter : p.pc.inOuter = true ∧ p'.pc.inOuter = true :=
    ⟨inOuter_of_mutex hmutex, inOuter_of_mutex hmutex'⟩
  refine ⟨?_, hlock ▸ htoken, hring, hsize ▸ h.capacity, fun l d hd => ?_, fun d q hq => ?_, ?_, fun side => ?_,
    fun side hs => hlock ▸ hgate side hs, fun side hs => ?_, fun d q hq hpc => ?_⟩
  · rw [hlock, hworld]
    exact h.blocking
  · rw [hlock] at hd
    have hdt : d ≠ t := fun hdt => h.runs_iff.mp ht l (hdt ▸ hd)
    rw [hother d hdt]
    exact h.place l d hd
  · by_cases hdt : d = t
    · rw [hdt, hself, Option.some.injEq] at hq
      exact hq ▸ hlocal
    · rw [hother d hdt] at hq
      exact h.progress d q hq
  · rw [hlock, hthread]
    exact (hasToken_setThread hp (iff_of_true hmutex' hmutex)).mpr h.mutex
  · rw [hlock, hthread]
    refine (hasToken_setThread hp ?_).mpr (h.outer side)
    simp only [PipeThread.claims, hside, hinOuter]
  · rw [hlock] at hs
    exact (hshut side hs).imp_right fun hamid => ⟨t, p', hself, hamid⟩
  · by_cases hdt : d = t
    · rw [hdt, hself, Option.some.injEq] at hq
      subst hq
      exact hwas hpc
    · rw [hother d hdt] at hq
      exact absurd hpc (h.quiet_of_ne howned hdt hq).1

omit [DecidableEq τ] in
/-- An assertion that holds does nothing. -/
theorem assert_true {w : Contexts τ} {b : Bool} (h : b = true) : w.assert b = w := by
  simp [Contexts.assert, h]

omit [DecidableEq τ] in
/-- The token of the own gate shows that the ring has something. -/
theorem SyncInv.avail (h : SyncInv s) (hp : s.thread t = some p) (ht : s.Runs t)
    (hpc : p.pc = .check ∨ p.pc = .transfer) : p.side.avail s.pipe.ring = true := by
  have hmutex : p.claims .mutex := by
    obtain hpc | hpc := hpc <;> simp [PipeThread.claims, hpc]
  have hgate : p.claims (.gate p.side) := by
    obtain hpc | hpc := hpc <;> simp [PipeThread.claims, hpc]
  refine h.avail_of_token (h.owned hp ht hmutex) hp ?_ (.inr ⟨t, h.owned hp ht hgate⟩)
  obtain hpc | hpc := hpc <;> simp [PipeThread.Amid, hpc]

/-- The `ASSERT` before the transfer holds. -/
theorem SyncInv.check (h : SyncInv s) (hp : s.thread t = some p) (ht : s.Runs t)
    (hpc : p.pc = .check) : SyncInv (s.statement t p) := by
  have hmutex : p.claims .mutex := by simp [PipeThread.claims, hpc]
  have howned := h.owned hp ht hmutex
  have hquiet : ∀ side, ¬ p.Amid side := fun side hamid =>
    hamid.not_quiet (by simp [PipeThread.Quiet, hpc])
  have hroom : p.done < p.call.size := by
    simpa [PipeThread.Local, hpc] using h.progress t p hp
  generalize hwas : (!p.side.other.avail s.pipe.ring) = was
  -- with nothing in the ring for the other side, its gate's token is gone
  have hgone : was = true → ¬ HasToken s.pipe.lock (Claims s.thread) (.gate p.side.other) :=
    fun htrue htoken => by
      rw [htrue, h.avail_of_token howned hp (hquiet _) htoken] at hwas
      cases hwas
  have hassert : (!was || decide ((s.pipe.lock (.gate p.side.other)).count = 0)) = true := by
    cases was with
    | false => rfl
    | true =>
        have hne : (s.pipe.lock (.gate p.side.other)).count ≠ 1 := fun h1 => hgone rfl (.inl h1)
        have hle := h.token.count_le (.gate p.side.other)
        simp only [Bool.not_true, Bool.false_or, decide_eq_true_eq]
        omega
  have hstmt : s.statement t p = s.setThread t { p with was := was, pc := .transfer } := by
    simp only [statement, hpc, hwas, PipeRun.assert, assert_true hassert]
  have hclaims : ∀ m, ({ p with was := was, pc := .transfer } : PipeThread).claims m ↔
      p.claims m ∨ was = true ∧ m = .gate p.side.other := fun m => by
    cases m with
    | mutex => simp [PipeThread.claims, hpc]
    | outer side => simp [PipeThread.claims, PipeThread.side, hpc]
    | gate side =>
        by_cases hs : p.side = side
        · subst hs
          simp [PipeThread.claims, PipeThread.side, hpc]
        · have hother := Side.eq_other_of_ne hs
          simp [PipeThread.claims, PipeThread.side, hpc, hother]
  have htoken : TokenInv s.pipe.lock
      (Claims (Function.update s.thread t (some { p with was := was, pc := .transfer }))) ∧
      ∀ m, HasToken s.pipe.lock
        (Claims (Function.update s.thread t (some { p with was := was, pc := .transfer }))) m ↔
        HasToken s.pipe.lock (Claims s.thread) m ∨ was = true ∧ m = .gate p.side.other := by
    cases was with
    | false =>
        have hsame : Claims (Function.update s.thread t
            (some { p with was := false, pc := .transfer })) = Claims s.thread := by
          refine claims_same fun m => ?_
          simp [hp, hclaims]
        rw [hsame]
        exact ⟨h.token, fun m => by simp⟩
    | true =>
        have hgain : ∀ m, ({ p with was := true, pc := .transfer } : PipeThread).claims m ↔
            p.claims m ∨ m = .gate p.side.other := fun m => by simp [hclaims]
        obtain ⟨hinv, hhas⟩ :=
          h.token.owe (hgone rfl) (h.runs_iff.mp ht _) (claims_gain hp hgain)
        exact ⟨hinv, fun m => by simp [hhas]⟩
  rw [hstmt]
  refine h.inMutex hp ht rfl hmutex rfl rfl rfl rfl h.ring rfl htoken.1 hroom (fun side hs => ?_)
    (fun side hs => ?_) fun _ => hwas.symm
  · exact (htoken.2 _).mpr (.inl (h.gate side hs))
  · obtain hs | ⟨htrue, hs⟩ := (htoken.2 _).mp hs
    · exact .inl (h.avail_of_token howned hp (hquiet side) hs)
    · have hother : side = p.side.other := by simpa using hs
      exact .inr (.inl ⟨rfl, by rw [hother]; exact Side.ne_other _, htrue⟩)

omit [DecidableEq τ] in
/-- What the ring step finds and does. -/
theorem SyncInv.ringStep (h : SyncInv s) (hp : s.thread t = some p) (ht : s.Runs t)
    (hfit : s.Fits (.run t)) (hpc : p.pc = .transfer) :
    ∃ r, p.ringOp s.pipe.ring = some r ∧ RingStep p s.pipe.ring r := by
  have hroom : p.done < p.call.size := by
    simpa [PipeThread.Local, hpc] using h.progress t p hp
  exact ringOp_spec h.ring h.capacity hroom (h.avail hp ht (.inr hpc)) (hfit p hp hpc)

omit [DecidableEq τ] in
@[simp] theorem setRing_thread {id : ℕ} {bytes : List UInt8} {ring : RingBuffer} :
    (s.setRing side id bytes ring).thread = s.thread := by
  cases side <;> rfl

omit [DecidableEq τ] in
@[simp] theorem setRing_world {id : ℕ} {bytes : List UInt8} {ring : RingBuffer} :
    (s.setRing side id bytes ring).world = s.world := by
  cases side <;> rfl

omit [DecidableEq τ] in
@[simp] theorem setRing_pipe {id : ℕ} {bytes : List UInt8} {ring : RingBuffer} :
    (s.setRing side id bytes ring).pipe = { s.pipe with ring := ring } := by
  cases side <;> rfl

/-- **The ring step** moves something, and its `ASSERT` holds. -/
theorem SyncInv.transfer (h : SyncInv s) (hp : s.thread t = some p) (ht : s.Runs t)
    (hfit : s.Fits (.run t)) (hpc : p.pc = .transfer) : SyncInv (s.statement t p) := by
  have hmutex : p.claims .mutex := by simp [PipeThread.claims, hpc]
  obtain ⟨r, hop, hr⟩ := h.ringStep hp ht hfit hpc
  have hwas := h.was t p hp hpc
  unfold statement
  simp only [hpc, hop, PipeRun.assert, assert_true (decide_eq_true hr.pos)]
  generalize hp' : ({ p with
    n := r.1
    moved := p.moved.take p.done ++ r.2.1
    pc := .checkLeft } : PipeThread) = p'
  have hpc' : p'.pc = .checkLeft := by rw [← hp']
  have hside : p'.side = p.side := by rw [← hp']; rfl
  have hlocal : p'.Local := by
    simp only [PipeThread.Local, hpc']
    rw [← hp']
    exact ⟨hr.pos, hr.le⟩
  have hclaims : ∀ m, p'.claims m ↔ p.claims m := fun m => by
    rw [← hp']
    cases m <;> simp [PipeThread.claims, PipeThread.side, hpc]
  have hsame : Claims (Function.update s.thread t (some p')) = Claims s.thread := by
    refine claims_same fun m => ?_
    simp [hp, hclaims]
  refine h.inMutex hp ht (by simp [setThread]) hmutex ?_ hside ?_ ?_ ?_ ?_ ?_ hlocal
    (fun side hs => ?_) (fun side hs => ?_) fun hpc => ?_
  · rw [hclaims]
    exact hmutex
  · simp [setThread]
  · simp [setThread]
  · simp only [setThread, setRing_pipe]
    exact hr.ok
  · simp only [setThread, setRing_pipe]
    exact hr.size
  · simp only [setThread, setRing_thread, hsame]
    exact h.token
  · simp only [setThread, setRing_thread, hsame]
    by_cases hs' : p.side = side
    · refine .inr ⟨t, h.owned hp ht ?_⟩
      simp [PipeThread.claims, hpc, hs']
    · have hother := Side.eq_other_of_ne hs'
      cases hw : p.was with
      | true =>
          refine .inr ⟨t, h.owned hp ht ?_⟩
          simp [PipeThread.claims, hpc, hs', hw]
      | false =>
          refine h.gate side ?_
          rw [hw] at hwas
          rw [hother]
          simpa using hwas.symm
  · simp only [setThread, setRing_pipe]
    by_cases hs' : p.side = side
    · exact .inr (.inr ⟨hpc', hside.trans hs'⟩)
    · rw [Side.eq_other_of_ne hs']
      exact .inl hr.other
  · rw [hpc'] at hpc
    cases hpc

/-- The thread looks at what the ring has left. -/
theorem SyncInv.checkLeft (h : SyncInv s) (hp : s.thread t = some p) (ht : s.Runs t)
    (hpc : p.pc = .checkLeft) : SyncInv (s.statement t p) := by
  have hmutex : p.claims .mutex := by simp [PipeThread.claims, hpc]
  have hgate : p.claims (.gate p.side) := by simp [PipeThread.claims, hpc]
  have howned := h.owned hp ht hmutex
  have hlocal : 0 < p.n ∧ p.done + p.n ≤ p.call.size := by
    simpa [PipeThread.Local, hpc] using h.progress t p hp
  unfold statement
  rw [hpc]
  generalize hleft : p.side.avail s.pipe.ring = left
  have hclaims : ∀ m, ({ p with left := left, pc := .upMutex } : PipeThread).claims m ↔
      p.claims m ∧ (left = false → m ≠ .gate p.side) := fun m => by
    cases m with
    | mutex => simp [PipeThread.claims, hpc]
    | outer side => simp [PipeThread.claims, PipeThread.side, hpc]
    | gate side =>
        by_cases hs : p.side = side
        · subst hs
          simp [PipeThread.claims, PipeThread.side, hpc]
        · have hother := Side.eq_other_of_ne hs
          simp [PipeThread.claims, PipeThread.side, hpc, hother]
  have htoken : TokenInv s.pipe.lock
      (Claims (Function.update s.thread t (some { p with left := left, pc := .upMutex }))) ∧
      ∀ m, HasToken s.pipe.lock
        (Claims (Function.update s.thread t (some { p with left := left, pc := .upMutex }))) m ↔
        HasToken s.pipe.lock (Claims s.thread) m ∧ (left = false → m ≠ .gate p.side) := by
    cases left with
    | true =>
        have hsame : Claims (Function.update s.thread t
            (some { p with left := true, pc := .upMutex })) = Claims s.thread := by
          refine claims_same fun m => ?_
          simp [hp, hclaims]
        rw [hsame]
        exact ⟨h.token, fun m => by simp⟩
    | false =>
        have hlose : ∀ m, ({ p with left := false, pc := .upMutex } : PipeThread).claims m ↔
            p.claims m ∧ m ≠ .gate p.side := fun m => by simp [hclaims]
        obtain ⟨hinv, hhas⟩ := h.token.leak (h.owned hp ht hgate) (claims_lose hp hlose)
        exact ⟨hinv, fun m => by simp [hhas]⟩
  refine h.inMutex hp ht rfl hmutex rfl rfl rfl rfl h.ring rfl htoken.1 hlocal (fun side hs => ?_)
    (fun side hs => .inl ?_) fun hpc => by cases hpc
  · refine (htoken.2 _).mpr ⟨h.gate side hs, fun hfalse hs' => ?_⟩
    have hside : side = p.side := by simpa using hs'
    have hs : side.avail s.pipe.ring = true := hs
    rw [hside, hleft, hfalse] at hs
    cases hs
  · obtain ⟨hs, hne⟩ := (htoken.2 _).mp hs
    show side.avail s.pipe.ring = true
    by_cases hside : side = p.side
    · rw [hside, hleft]
      by_contra hfalse
      exact hne (by simpa using hfalse) (by rw [hside])
    · refine h.avail_of_token howned hp ?_ hs
      simp [PipeThread.Amid, hpc, Ne.symm hside]

/-! ## one step -/

/-- The loop of a struct call. -/
theorem SyncInv.loop (h : SyncInv s) (hp : s.thread t = some p) (ht : s.Runs t)
    (hpc : p.pc = .loop) : SyncInv (s.statement t p) := by
  have hlocal := h.progress t p hp
  simp only [PipeThread.Local, hpc] at hlocal
  have hquiet : p.Quiet := by simp [PipeThread.Quiet, hpc]
  unfold PipeRun.statement
  rw [hpc]
  simp only
  split
  · next hstop =>
      rw [Bool.and_eq_true, decide_eq_true_eq] at hstop
      refine h.goesOn hp ht (fun m => ?_) hquiet (by simp [PipeThread.Quiet]) fun _ =>
        Nat.le_antisymm hlocal.1 hstop.2
      cases m <;> simp [PipeThread.claims, PipeThread.side, hpc]
  · next hstop =>
      have hroom : p.done < p.call.size := by
        cases hstruct : p.call.isStruct with
        | false => exact hlocal.2 hstruct
        | true => simpa [hstruct] using hstop
      refine h.goesOn hp ht (fun m => ?_) hquiet (by simp [PipeThread.Quiet]) hroom
      cases m <;> simp [PipeThread.claims, PipeThread.side, hpc]

/-- The `SemaphoreDown`s. -/
theorem SyncInv.downs (h : SyncInv s) (hp : s.thread t = some p) (ht : s.Runs t)
    (hpc : p.pc = .downOuter ∨ p.pc = .downGate ∨ p.pc = .downMutex) :
    SyncInv (s.statement t p) := by
  have hlocal := h.progress t p hp
  obtain hpc | hpc | hpc := hpc <;>
  simp only [PipeThread.Local, hpc] at hlocal <;>
  simp only [statement, hpc]
  · refine h.down hp ht (fun m => ?_) ?_ ⟨rfl, rfl, hlocal.1⟩ ?_ ?_ ⟨?_, ?_⟩
    · cases m <;> simp [PipeThread.claims, PipeThread.side, hpc, eq_comm]
    · simp [PipeThread.claims, hpc]
    · simp [PipeThread.Quiet, hpc]
    · simp [PipeThread.Quiet]
    · rw [hlocal.1]
      exact Nat.zero_le _
    · rw [hlocal.1]
      exact hlocal.2
  · refine h.down hp ht (fun m => ?_) ?_ ⟨rfl, rfl⟩ ?_ ?_ hlocal
    · cases m <;> simp [PipeThread.claims, PipeThread.side, hpc, eq_comm]
    · simp [PipeThread.claims, hpc]
    · simp [PipeThread.Quiet, hpc]
    · simp [PipeThread.Quiet]
  · refine h.down hp ht (fun m => ?_) ?_ rfl ?_ ?_ hlocal
    · cases m <;> simp [PipeThread.claims, PipeThread.side, hpc]
    · simp [PipeThread.claims, hpc]
    · simp [PipeThread.Quiet, hpc]
    · simp [PipeThread.Quiet]

/-- The mutex is given back. -/
theorem SyncInv.upMutex (h : SyncInv s) (hp : s.thread t = some p) (ht : s.Runs t)
    (hpc : p.pc = .upMutex) : SyncInv (s.statement t p) := by
  have hlocal := h.progress t p hp
  simp only [PipeThread.Local, hpc] at hlocal
  simp only [statement, hpc]
  refine h.up hp ht (fun m => ?_) ?_ ?_ ?_ hlocal
  · cases m <;> simp [PipeThread.claims, PipeThread.side, hpc]
  · simp [PipeThread.claims, hpc]
  · simp [PipeThread.Quiet, hpc]
  · simp [PipeThread.Quiet]

/-- The gate of the other side gets the token that was owed to it. -/
theorem SyncInv.upOther (h : SyncInv s) (hp : s.thread t = some p) (ht : s.Runs t)
    (hpc : p.pc = .upOther) : SyncInv (s.statement t p) := by
  have hlocal := h.progress t p hp
  simp only [PipeThread.Local, hpc] at hlocal
  simp only [statement, hpc, hlocal.1, decide_true, Bool.and_true]
  cases hwas : p.was with
  | true =>
      simp only [if_true]
      refine h.up hp ht (fun m => ?_) ?_ ?_ ?_ hlocal
      · cases m with
        | mutex => simp [PipeThread.claims, hpc]
        | outer side => simp [PipeThread.claims, PipeThread.side, hpc]
        | gate side =>
            by_cases hs : p.side = side
            · subst hs
              simp [PipeThread.claims, PipeThread.side, hpc]
            · have hother := Side.eq_other_of_ne hs
              simp [PipeThread.claims, PipeThread.side, hother]
      · simp [PipeThread.claims, hpc, hwas]
      · simp [PipeThread.Quiet, hpc]
      · simp [PipeThread.Quiet]
  | false =>
      rw [if_neg Bool.false_ne_true]
      refine h.goesOn hp ht (fun m => ?_) ?_ ?_ hlocal
      · cases m <;> simp [PipeThread.claims, PipeThread.side, hpc, hwas]
      · simp [PipeThread.Quiet, hpc]
      · simp [PipeThread.Quiet]

/-- After the last statement of `PipeReadInner` or `PipeWriteInner`. -/
theorem local_after_inner (h : 0 < p.n ∧ p.done + p.n ≤ p.call.size) :
    ({ p with
      done := p.done + p.n
      pc := if p.call.isStruct then .loop else .upOuter } : PipeThread).Local := by
  cases hstruct : p.call.isStruct with
  | true => simpa [PipeThread.Local, hstruct] using h.2
  | false => simp [PipeThread.Local, hstruct]

/-- The gate gets its token back, if the ring has something left. -/
theorem SyncInv.upGate (h : SyncInv s) (hp : s.thread t = some p) (ht : s.Runs t)
    (hpc : p.pc = .upGate) : SyncInv (s.statement t p) := by
  have hlocal := h.progress t p hp
  simp only [PipeThread.Local, hpc] at hlocal
  have hlocal' := local_after_inner hlocal
  simp only [statement, hpc]
  generalize hp' : ({ p with
    done := p.done + p.n
    pc := if p.call.isStruct then .loop else .upOuter } : PipeThread) = p' at hlocal'
  have hside : p'.side = p.side := by
    rw [← hp']
    rfl
  have hpc' : p'.pc = .loop ∨ p'.pc = .upOuter := by
    rw [← hp']
    cases p.call.isStruct <;> simp
  have hquiet' : p'.Quiet := by
    obtain hpc' | hpc' := hpc' <;> simp [PipeThread.Quiet, hpc']
  have hclaims : ∀ m, p'.claims m ↔ p.claims m ∧ m ≠ .gate p.side := fun m => by
    cases m with
    | mutex =>
        obtain hpc' | hpc' := hpc' <;> simp [PipeThread.claims, hpc, hpc']
    | outer side =>
        obtain hpc' | hpc' := hpc' <;> simp [PipeThread.claims, hside, hpc, hpc']
    | gate side =>
        by_cases hs : p.side = side <;> obtain hpc' | hpc' := hpc' <;>
        simp [PipeThread.claims, hside, hpc, hpc', hs]
  cases hleft : p.left with
  | true =>
      refine h.up hp ht hclaims ?_ (by simp [PipeThread.Quiet, hpc]) hquiet' hlocal'
      simp [PipeThread.claims, hpc, hleft]
  | false =>
      have hnot : ¬ p.claims (.gate p.side) := by
        simp [PipeThread.claims, hpc, hleft]
      rw [if_neg Bool.false_ne_true]
      refine h.goesOn hp ht (fun m => ?_) (by simp [PipeThread.Quiet, hpc]) hquiet' hlocal'
      rw [hclaims, and_iff_left_iff_imp]
      intro hm hgate
      exact hnot (hgate ▸ hm)

/-- The outer lock is given back. -/
theorem SyncInv.upOuter (h : SyncInv s) (hp : s.thread t = some p) (ht : s.Runs t)
    (hpc : p.pc = .upOuter) : SyncInv (s.statement t p) := by
  have hlocal := h.progress t p hp
  simp only [PipeThread.Local, hpc] at hlocal
  simp only [statement, hpc]
  refine h.up hp ht (fun m => ?_) ?_ ?_ ?_ hlocal
  · cases m <;> simp [PipeThread.claims, PipeThread.side, hpc, eq_comm]
  · simp [PipeThread.claims, hpc]
  · simp [PipeThread.Quiet, hpc]
  · simp [PipeThread.Quiet]

/-- A struct call returns with its `ASSERT`. -/
theorem SyncInv.ret (h : SyncInv s) (hp : s.thread t = some p) (ht : s.Runs t)
    (hpc : p.pc = .ret) : SyncInv (s.statement t p) := by
  have hlocal := h.progress t p hp
  simp only [PipeThread.Local, hpc] at hlocal
  have hassert : (!p.call.isStruct || decide (p.done = p.call.size)) = true := by
    cases hstruct : p.call.isStruct with
    | false => rfl
    | true => simpa using hlocal hstruct
  simp only [statement, hpc, PipeRun.assert, assert_true hassert]
  refine h.same ht rfl (fun q hq => ?_) (fun q hq => by cases hq) fun m => ?_
  · rw [hp, Option.some.injEq] at hq
    simp [PipeThread.Quiet, ← hq, hpc]
  · cases m <;> simp [hp, PipeThread.claims, hpc]

/-- A call is made. -/
theorem SyncInv.call (h : SyncInv s) (ht : s.Runs t) (hidle : s.thread t = none) {call : PipeCall}
    (hsize : call.isStruct = false → 0 < call.size) :
    SyncInv { s with
      thread := Function.update s.thread t (some (.start call s.calls))
      calls := s.calls + 1 } := by
  refine h.same ht rfl (fun q hq => ?_) (fun q hq => ?_) fun m => ?_
  · rw [hidle] at hq
    cases hq
  · rw [Option.some.injEq] at hq
    subst hq
    exact ⟨by simp [PipeThread.Quiet, PipeThread.start], rfl, hsize⟩
  · cases m <;> simp [hidle, PipeThread.start, PipeThread.claims]

omit [DecidableEq τ] in
/-- Nobody is lost in the copy loop. -/
theorem SyncInv.not_copying (h : SyncInv s) (hp : s.thread t = some p) : p.pc ≠ .copying :=
  fun hpc => by
    have hlocal := h.progress t p hp
    simp only [PipeThread.Local, hpc] at hlocal

/-- **A statement** keeps the invariant. -/
theorem SyncInv.statement (h : SyncInv s) (hp : s.thread t = some p) (ht : s.Runs t)
    (hfit : s.Fits (.run t)) : SyncInv (s.statement t p) := by
  cases hpc : p.pc with
  | copying => exact absurd hpc (h.not_copying hp)
  | downOuter => exact h.downs hp ht (.inl hpc)
  | loop => exact h.loop hp ht hpc
  | downGate => exact h.downs hp ht (.inr (.inl hpc))
  | downMutex => exact h.downs hp ht (.inr (.inr hpc))
  | check => exact h.check hp ht hpc
  | transfer => exact h.transfer hp ht hfit hpc
  | checkLeft => exact h.checkLeft hp ht hpc
  | upMutex => exact h.upMutex hp ht hpc
  | upOther => exact h.upOther hp ht hpc
  | upGate => exact h.upGate hp ht hpc
  | upOuter => exact h.upOuter hp ht hpc
  | ret => exact h.ret hp ht hpc

/-- What a step is, and when it can be taken. -/
theorem pipe_step_cases {op : PipeOp τ} (h : step s op = some s') :
    (∃ t call, op = .call t call ∧ s.Runs t ∧ s.thread t = none ∧
        (call.isStruct = false → 0 < call.size) ∧
        s' = { s with
          thread := Function.update s.thread t (some (.start call s.calls))
          calls := s.calls + 1 }) ∨
      ∃ t p, op = .run t ∧ s.Runs t ∧ s.thread t = some p ∧ s' = s.statement t p := by
  cases op with
  | call t call =>
      simp only [step, Option.ite_none_right_eq_some, Option.some.injEq] at h
      obtain ⟨⟨ht, hidle, hsize⟩, rfl⟩ := h
      exact .inl ⟨t, call, rfl, ht, hidle, hsize, rfl⟩
  | run t =>
      simp only [step] at h
      split at h
      · next p hp =>
          simp only [Option.ite_none_right_eq_some, Option.some.injEq] at h
          exact .inr ⟨t, p, rfl, h.1, hp, h.2.symm⟩
      · cases h

/-- **One step** keeps the accounts, unless an index wraps. -/
theorem syncInv_step {op : PipeOp τ} (h : SyncInv s) (hfit : s.Fits op)
    (hstep : step s op = some s') : SyncInv s' := by
  obtain ⟨t, call, -, ht, hidle, hsize, rfl⟩ | ⟨t, p, rfl, ht, hp, rfl⟩ := pipe_step_cases hstep
  · exact h.call ht hidle hsize
  · exact h.statement hp ht hfit

omit [DecidableEq τ] in
/-- A pipe as `PipeInit` leaves it. -/
theorem syncInv_start (buff : ℕ → UInt8) {size : ℕ} (hsize : 0 < size) (hcap : size < 2 ^ 64) :
    SyncInv (start buff size : PipeRun τ) := by
  have hwait : ∀ l, ((start buff size : PipeRun τ).pipe.lock l).waitingThreads = [] := fun l => by
    obtain _ | (_ | _) | (_ | _) := l <;> rfl
  have hcount : ∀ l, ((start buff size : PipeRun τ).pipe.lock l).count ≤ 1 := fun l => by
    obtain _ | (_ | _) | (_ | _) := l <;> simp [start, pipeInit, semaphoreInit]
  have hidle : ∀ t p, (start buff size : PipeRun τ).thread t ≠ some p := fun t p hp => by
    cases hp
  have hclaims : ∀ l t, ¬ Claims (start buff size : PipeRun τ).thread l t := fun l t ⟨p, hp, _⟩ =>
    hidle t p hp
  have hmem : ∀ l t, t ∉ ((start buff size : PipeRun τ).pipe.lock l).waitingThreads := fun l t => by
    rw [hwait]
    exact List.not_mem_nil
  have hblocking : BlockingInv (start buff size : PipeRun τ).world (start buff size).pipe.lock :=
    ⟨fun _ => rfl, fun l t ht => absurd ht (hmem l t), fun _ _ => ⟨rfl, rfl⟩,
      fun l => hwait l ▸ List.nodup_nil, fun l m t ht => absurd ht (hmem l t),
      fun l hne => absurd (hwait l) hne, rfl⟩
  have htoken : TokenInv (start buff size : PipeRun τ).pipe.lock (Claims (start buff size).thread) :=
    ⟨fun l t ht => absurd ht (hmem l t), hcount, fun l t _ ht => hclaims l t ht.1,
      fun l t _ ht => absurd ht.1 (hclaims l t)⟩
  refine ⟨hblocking, htoken, ringBufferInit_ok hsize, hcap, fun l t ht => absurd ht (hmem l t),
    fun t p hp => absurd hp (hidle t p), .inl rfl, fun side => ?_, fun side hs => ?_,
    fun side hs => ?_, fun t p hp => absurd hp (hidle t p)⟩
  · cases side <;> exact .inl rfl
  · cases side with
    | read => cases hs
    | write => exact .inl rfl
  · cases side with
    | read =>
        obtain hs | ⟨t, ht, -⟩ := hs
        · cases hs
        · exact absurd ht (hclaims _ t)
    | write => exact .inl rfl

/-- The accounts are right in every state of every run in which no index wraps. -/
theorem syncInv_exec {buff : ℕ → UInt8} {size : ℕ} (hsize : 0 < size) (hcap : size < 2 ^ 64)
    {ops : List (PipeOp τ)} (hfit : Along step Fits (start buff size) ops)
    (h : exec step (start buff size) ops = some s) : SyncInv s :=
  exec_induction (fun _ _ _ hs hfit hstep => syncInv_step hs hfit hstep)
    (syncInv_start buff hsize hcap) hfit h

/-! ## requests that fit -/

/-- A request after which no index of a ring of `size` bytes can wrap. -/
def PipeOp.Small (size : ℕ) : PipeOp τ → Prop
  | .call _ request => size + request.size ≤ 2 ^ 64
  | .run _ => True

omit [DecidableEq τ] in
instance (size : ℕ) : (op : PipeOp τ) → Decidable (op.Small size)
  | .call _ _ => inferInstanceAs (Decidable (_ ≤ _))
  | .run _ => isTrue trivial

/-- The thread is another one, or the one that is updated. -/
theorem update_thread_cases {d : τ} {q : PipeThread}
    (hq : Function.update thread t (some p') d = some q) :
    d ≠ t ∧ thread d = some q ∨ d = t ∧ q = p' := by
  by_cases hdt : d = t
  · rw [hdt, Function.update_self, Option.some.injEq] at hq
    exact .inr ⟨hdt, hq.symm⟩
  · rw [Function.update_of_ne hdt] at hq
    exact .inl ⟨hdt, hq⟩

/-- A statement leaves the other threads alone, and its own in the same call until
that returns. -/
theorem statement_thread (hp : s.thread t = some p) :
    ∃ q, (s.statement t p).thread = Function.update s.thread t q ∧ (q = none → p.pc = .ret) ∧
      ∀ p' ∈ q, p'.call = p.call := by
  have hsome : ∀ p' : PipeThread, p'.call = p.call →
      (some p' = none → p.pc = .ret) ∧ ∀ r ∈ some p', r.call = p.call :=
    fun p' hcall => ⟨nofun, fun r hr => by rw [← Option.some.inj hr, hcall]⟩
  cases hpc : p.pc with
  | transfer =>
      rw [hpc] at hsome
      simp only [statement, hpc]
      split <;>
      · simp only [setThread, PipeRun.assert, setRing_thread]
        exact ⟨_, rfl, hsome _ rfl⟩
  | copying =>
      rw [hpc] at hsome
      refine ⟨some p, ?_, hsome p rfl⟩
      simp only [statement, hpc]
      exact (Function.update_eq_self_iff.mpr hp.symm).symm
  | ret =>
      refine ⟨none, ?_, fun _ => rfl, fun _ hr => by cases hr⟩
      simp only [statement, hpc]
      rfl
  | upOther | upGate =>
      have hup : ∀ l, (s.up l).thread = s.thread := fun _ => rfl
      rw [hpc] at hsome
      simp only [statement, hpc, setThread, hup, apply_ite PipeRun.thread, ite_self]
      exact ⟨_, rfl, hsome _ rfl⟩
  | _ =>
      rw [hpc] at hsome
      simp only [statement, hpc, setThread]
      exact ⟨_, rfl, hsome _ rfl⟩

/-- Every request in progress is small. -/
structure SmallInv (size : ℕ) (s : PipeRun τ) : Prop where
  sync : SyncInv s
  ring : s.pipe.ring.size = size
  small : ∀ t p, s.thread t = some p → size + p.call.size ≤ 2 ^ 64

variable {size : ℕ} {op : PipeOp τ}

omit [DecidableEq τ] in
/-- A small request does not wrap an index. -/
theorem SmallInv.fits (h : SmallInv size s) (op : PipeOp τ) : s.Fits op := by
  cases op with
  | call t call => trivial
  | run t =>
      intro p hp _
      have hsmall := h.small t p hp
      have hlt : p.side.index s.pipe.ring < size := by
        rw [← h.ring]
        cases p.side
        · exact h.sync.ring.readIndex_lt
        · exact h.sync.ring.writeIndex_lt
      omega

/-- **One step** keeps it. -/
theorem SmallInv.step (h : SmallInv size s) (hop : op.Small size) (hstep : step s op = some s') :
    SmallInv size s' := by
  refine ⟨syncInv_step h.sync (h.fits op) hstep, ?_, ?_⟩ <;>
  obtain ⟨t, call, rfl, ht, hidle, -, rfl⟩ | ⟨t, p, rfl, ht, hp, rfl⟩ := pipe_step_cases hstep
  · exact h.ring
  · cases hpc : p.pc with
    | transfer =>
        obtain ⟨r, hop, hr⟩ := h.sync.ringStep hp ht (h.fits _) hpc
        simp only [statement, hpc, hop, setThread, PipeRun.assert, setRing_pipe]
        exact hr.size.trans h.ring
    | upOther | upGate =>
        simp only [statement, hpc, setThread]
        split <;> exact h.ring
    | _ =>
        simp only [statement, hpc]
        exact h.ring
  · intro d q hq
    obtain ⟨-, hq⟩ | ⟨-, rfl⟩ := update_thread_cases hq
    · exact h.small d q hq
    · exact hop
  · intro d q hq
    obtain ⟨r, hthread, -, hcall⟩ := statement_thread hp
    rw [hthread] at hq
    by_cases hdt : d = t
    · rw [hdt, Function.update_self] at hq
      rw [hcall q hq]
      exact h.small t p hp
    · rw [Function.update_of_ne hdt] at hq
      exact h.small d q hq

/-- Where every request is small, no index wraps. -/
theorem pipe_fits {buff : ℕ → UInt8} (hsize : 0 < size) (hcap : size < 2 ^ 64)
    {ops : List (PipeOp τ)} (hsmall : ∀ op ∈ ops, op.Small size) :
    Along step Fits (start buff size) ops := by
  suffices halong : ∀ s : PipeRun τ, SmallInv size s → Along step Fits s ops from
    halong _ ⟨syncInv_start buff hsize hcap, rfl, fun t p hp => by cases hp⟩
  intro s hs
  induction ops generalizing s with
  | nil => trivial
  | cons op ops ih =>
      rw [List.forall_mem_cons] at hsmall
      exact ⟨hs.fits op, fun s' hstep => ih hsmall.2 s' (hs.step hsmall.1 hstep)⟩

/-! ## what the tokens are for -/

/-- The tokens of a side's gate: those in its `Count`, held by a thread of the
side inside its call, or owed by one of the other. -/
noncomputable def tokens (s : PipeRun τ) (side : Side) : ℕ∞ :=
  (s.pipe.lock (.gate side)).count +
    {t | Owned s.pipe.lock (Claims s.thread) (.gate side) t}.encard

/-- The thread waits in a semaphore of the pipe. -/
def Blocked (s : PipeRun τ) (t : τ) : Prop := ∃ l, t ∈ (s.pipe.lock l).waitingThreads

/-- What the semaphores of a pipe promise. -/
structure PipeTokensOk (s : PipeRun τ) : Prop where
  atMostOne : ∀ side, tokens s side ≤ 1
  /-- While nobody is in the mutex the gates agree with the ring. -/
  whenFree : (s.pipe.lock .mutex).count = 1 →
    ∀ side : Side, tokens s side = 1 ↔ side.avail s.pipe.ring = true
  /-- No `ASSERT` has failed. -/
  fine : s.world.panicked = false
  /-- When no call can go on, the ring has nothing for any of them. -/
  notStuck : (∀ t p, s.thread t = some p → Blocked s t ∨ p.pc = .copying) →
    ∀ t p, s.thread t = some p → p.side.avail s.pipe.ring = false

omit [DecidableEq τ] in
/-- There is one token of a gate where somebody has it, and none elsewhere. -/
theorem TokenInv.tokens_eq (h : TokenInv s.pipe.lock (Claims s.thread)) (side : Side) :
    tokens s side ≤ 1 ∧
      (tokens s side = 1 ↔ HasToken s.pipe.lock (Claims s.thread) (.gate side)) := by
  have hle := h.count_le (.gate side)
  unfold tokens HasToken
  obtain h0 | h1 := Nat.le_one_iff_eq_zero_or_eq_one.mp hle
  · rw [h0, Nat.cast_zero, zero_add, Set.encard_le_one_iff, Set.encard_eq_one]
    refine ⟨fun c d hc hd => h.unique _ c d hc hd, ?_⟩
    simp only [Nat.zero_ne_one, false_or]
    refine ⟨fun ⟨c, hc⟩ => ⟨c, ?_⟩, fun ⟨c, hc⟩ => ⟨c, ?_⟩⟩
    · have hmem : c ∈ ({c} : Set τ) := rfl
      rw [← hc] at hmem
      exact hmem
    · exact Set.eq_singleton_iff_unique_mem.mpr ⟨hc, fun d hd => h.unique _ d c hd hc⟩
  · have hnone : {t | Owned s.pipe.lock (Claims s.thread) (.gate side) t} = ∅ :=
      Set.eq_empty_iff_forall_notMem.mpr fun t ht => h.free _ t h1 ht
    simp [h1, hnone]

omit [DecidableEq τ] in
/-- A blocked thread owns nothing but what it needs the mutex for. -/
theorem SyncInv.blocked_cases (h : SyncInv s) (ht : Blocked s t)
    (howned : Owned s.pipe.lock (Claims s.thread) l t) :
    l ≠ .mutex ∧ ((∃ side, l = .outer side ∧ (t ∈ (s.pipe.lock (.gate side)).waitingThreads)) ∨
      t ∈ (s.pipe.lock .mutex).waitingThreads) := by
  obtain ⟨⟨p, hp, hclaim⟩, hnot⟩ := howned
  obtain ⟨m, hm⟩ := ht
  obtain ⟨q, hq, hat⟩ := h.place m t hm
  rw [hp, Option.some.injEq] at hq
  subst hq
  have hml : m ≠ l := fun hml => hnot (hml ▸ hm)
  cases m with
  | mutex => exact ⟨hml.symm, .inr hm⟩
  | gate side =>
      obtain ⟨rfl, hpc⟩ := hat
      cases l <;> simp_all [PipeThread.claims]
  | outer side =>
      obtain ⟨rfl, hpc, -⟩ := hat
      cases l <;> simp_all [PipeThread.claims]

omit [DecidableEq τ] in
/-- When all calls are blocked, nobody waits for the mutex. -/
theorem SyncInv.mutex_free (h : SyncInv s) (hall : ∀ t p, s.thread t = some p → Blocked s t) :
    (s.pipe.lock .mutex).waitingThreads = [] := by
  by_contra hne
  obtain h1 | ⟨t, ht⟩ := h.mutex
  · rw [h.blocking.empty _ hne] at h1
    cases h1
  · obtain ⟨p, hp, -⟩ := ht.1
    exact (h.blocked_cases (hall t p hp) ht).1 rfl

omit [DecidableEq τ] in
/-- When all calls are blocked, the ring has nothing for any of them. -/
theorem SyncInv.not_stuck (h : SyncInv s) (hall : ∀ t p, s.thread t = some p → Blocked s t)
    (hp : s.thread t = some p) : p.side.avail s.pipe.ring = false := by
  have hmutex := h.mutex_free hall
  by_contra havail
  rw [Bool.not_eq_false] at havail
  -- the token of the gate is in its count: a thread that owned it would not be blocked
  have hcount : (s.pipe.lock (.gate p.side)).count = 1 := by
    refine (h.gate p.side havail).resolve_right ?_
    rintro ⟨d, hd⟩
    obtain ⟨q, hq, -⟩ := hd.1
    obtain ⟨side, hside, -⟩ | hmem := (h.blocked_cases (hall d q hq) hd).2
    · cases hside
    · rw [hmutex] at hmem
      cases hmem
  have hgate : (s.pipe.lock (.gate p.side)).waitingThreads = [] := by
    by_contra hne
    rw [h.blocking.empty _ hne] at hcount
    cases hcount
  -- so the thread waits for its outer lock, whose owner would not be blocked either
  obtain ⟨m, hm⟩ := hall t p hp
  obtain ⟨q, hq, hat⟩ := h.place m t hm
  rw [hp, Option.some.injEq] at hq
  subst hq
  cases m with
  | mutex =>
      rw [hmutex] at hm
      cases hm
  | gate side =>
      obtain ⟨rfl, -⟩ := hat
      rw [hgate] at hm
      cases hm
  | outer side =>
      obtain ⟨rfl, -⟩ := hat
      have hzero := h.blocking.empty _ (List.ne_nil_of_mem hm)
      obtain h1 | ⟨e, he⟩ := h.outer p.side
      · rw [hzero] at h1
        cases h1
      · obtain ⟨r, hr, -⟩ := he.1
        obtain ⟨side, hside, hmem⟩ | hmem := (h.blocked_cases (hall e r hr) he).2
        · cases hside
          rw [hgate] at hmem
          cases hmem
        · rw [hmutex] at hmem
          cases hmem

/-- **Tokens of a pipe**: in every state of every run in which no index wraps there
is at most one token of each gate, and it is there exactly when the ring has
something for the side, unless a thread is in the mutex; no assertion fails, and the
pipe does not get stuck. -/
theorem pipe_tokens (buff : ℕ → UInt8) (size : ℕ) (hsize : 0 < size) (hcap : size < 2 ^ 64)
    (ops : List (PipeOp τ)) (hfit : Along step Fits (start buff size) ops)
    (h : exec step (start buff size) ops = some s) : PipeTokensOk s := by
  have hinv := syncInv_exec hsize hcap hfit h
  refine ⟨fun side => (hinv.token.tokens_eq side).1, fun hfree side => ?_, hinv.blocking.fine,
    fun hall t p hp => hinv.not_stuck (fun d q hq => ?_) hp⟩
  · rw [(hinv.token.tokens_eq side).2]
    refine ⟨fun htoken => (hinv.shut side htoken).resolve_right ?_, hinv.gate side⟩
    rintro ⟨t, p, hp, hamid⟩
    exact hinv.token.free _ t hfree (hinv.owned_mutex hp hamid.not_quiet)
  · exact (hall d q hq).resolve_right (hinv.not_copying hq)

/-- A thread in the copy loop stays there. -/
theorem copying_exec {ops : List (PipeOp τ)} (hp : s.thread t = some p) (hpc : p.pc = .copying)
    (h : exec step s ops = some s') : s'.thread t = some p := by
  refine exec_invariant (I := fun s => s.thread t = some p) (fun s op s' hs hstep => ?_) hp h
  obtain ⟨d, call, rfl, -, hidle, -, rfl⟩ | ⟨d, q, rfl, -, hq, rfl⟩ := pipe_step_cases hstep
  · refine (Function.update_of_ne ?_ ..).trans hs
    rintro rfl
    cases hidle.symm.trans hs
  · by_cases hdt : t = d
    · subst hdt
      obtain rfl := Option.some.inj (hs.symm.trans hq)
      simpa only [statement, hpc] using hs
    · obtain ⟨r, hthread, -⟩ := statement_thread hq
      rw [hthread, Function.update_of_ne hdt]
      exact hs

/-- **Where an index wraps**, the thread gets into the copy loop and does not come back,
whatever follows. -/
theorem pipe_wraps (buff : ℕ → UInt8) (size : ℕ) (hsize : 0 < size) (hcap : size < 2 ^ 64)
    {ops ops' : List (PipeOp τ)} (hfit : Along step Fits (start buff size) ops)
    (h : exec step (start buff size) ops = some s) (hp : s.thread t = some p)
    (hcount : p.call.size < 2 ^ 64) (hwrap : ¬ s.Fits (.run t))
    (h' : exec step s (.run t :: ops') = some s') :
    ∃ q, s'.thread t = some q ∧ q.pc = .copying := by
  have hinv := syncInv_exec hsize hcap hfit h
  obtain ⟨hpc, hwraps⟩ : p.pc = .transfer ∧
      2 ^ 64 ≤ p.side.index s.pipe.ring + (p.call.size - p.done) := by
    simpa [PipeRun.Fits, hp] using hwrap
  obtain ⟨s₁, hstep, h'⟩ := exec_cons_eq_some.mp h'
  obtain ⟨d, call, heq, -⟩ | ⟨d, q, heq, hruns, hq, rfl⟩ := pipe_step_cases hstep
  · cases heq
  · cases heq
    obtain rfl := Option.some.inj (hp.symm.trans hq)
    have hnone := ringOp_eq_none hinv.ring hinv.capacity hcount (hinv.avail hp hruns (.inr hpc)) hwraps
    have hcopying : (s.statement t p).thread t = some
        { p with moved := p.moved.take p.done ++ (p.overrun s.pipe.ring).1, pc := .copying } := by
      simp only [statement, hpc, hnone, setThread, Function.update_self]
    exact ⟨_, copying_exec hcopying rfl h', rfl⟩

/-- A struct of three bytes through a ring of two: the reader waits for the
first bytes, the writer for the space, the reader for the last byte. -/
def samplePipe : List (PipeOp ℕ) :=
  [.call 0 (.pipeReadStruct 3), .run 0, .run 0, .run 0, .call 1 (.pipeWriteStruct [1, 2, 3])] ++
    List.replicate 12 (.run 1) ++ List.replicate 9 (.run 0) ++ List.replicate 10 (.run 1) ++
    List.replicate 10 (.run 0)

theorem pipe_tokens_sample :
    ∃ s : PipeRun ℕ, exec step (start (fun _ => 0) 2) samplePipe = some s ∧
      s.finished.length = 2 ∧ PipeTokensOk s := by
  have hend : (exec step (start (fun _ => 0) 2) samplePipe).map (·.finished.length) = some 2 := by
    decide +kernel
  obtain ⟨s, hs, hlen⟩ := Option.map_eq_some_iff.mp hend
  refine ⟨s, hs, hlen, pipe_tokens _ 2 (by decide) (by decide) samplePipe ?_ hs⟩
  exact pipe_fits (by decide) (by decide) (by decide)

/-- Three bytes are written into a ring of four and one is read.  The next read asks
for as much as a `COUNT` can say, and another reader comes behind it. -/
def wrappingRead : List (PipeOp (Fin 3)) :=
  .call 0 (.pipeWrite [1, 2, 3]) :: List.replicate 12 (.run 0) ++
    .call 1 (.pipeRead 1) :: List.replicate 12 (.run 1) ++
    .call 1 (.pipeRead (2 ^ 64 - 1)) :: List.replicate 6 (.run 1) ++
    [.call 2 (.pipeRead 1), .run 2]

/-- The first reader does not come back and the second waits for it, with two bytes
in the ring. -/
theorem wrappingRead_stuck :
    ∃ s, exec step (start (fun _ => 0) 4) wrappingRead = some s ∧ ¬ PipeTokensOk s := by
  have hend : (exec step (start (fun _ => 0) 4) wrappingRead).map (fun s =>
      (s.thread 0, (s.thread 1).map (·.pc), (s.thread 2).map (·.side),
        (s.pipe.lock (.outer .read)).waitingThreads, Side.read.avail s.pipe.ring)) =
      some (none, some .copying, some .read, [2], true) := by
    decide +kernel
  obtain ⟨s, hs, hvalues⟩ := Option.map_eq_some_iff.mp hend
  simp only [Prod.mk.injEq] at hvalues
  obtain ⟨h0, h1, h2, hwaiting, havail⟩ := hvalues
  obtain ⟨q, hq, hcopying⟩ := Option.map_eq_some_iff.mp h1
  obtain ⟨r, hr, hside⟩ := Option.map_eq_some_iff.mp h2
  refine ⟨s, hs, fun hok => ?_⟩
  have hstuck := hok.notStuck (fun t p hp => ?_) 2 r hr
  · rw [hside, havail] at hstuck
    cases hstuck
  · match t, hp with
    | 0, hp => cases h0.symm.trans hp
    | 1, hp =>
        obtain rfl := Option.some.inj (hq.symm.trans hp)
        exact .inr hcopying
    | 2, _ => exact .inl ⟨.outer .read, by simp [hwaiting]⟩

end KernelPanic
