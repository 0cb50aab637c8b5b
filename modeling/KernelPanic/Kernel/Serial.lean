import KernelPanic.Kernel.Broadcast
import KernelPanic.Kernel.Handler
import KernelPanic.Lib.Run
import Mathlib.Algebra.Ring.Nat
import Mathlib.Data.Fintype.Basic

/-!
# KernelPanic.Kernel.Serial

Serial input (`kernel/serial.c`): the interrupt puts bytes into a ring, and
threads that find it empty wait on a generation until there has been another
interrupt.

The interrupt cannot wake anybody itself.  It counts up `ReadGenerationCount` and
queues an update of the generation to that value, but only when the update before
has finished.  An interrupt that skips both leaves its bytes to readers that see
an old count; a reader that has already seen the count the generation is about to
get is not woken for them (`lostByte`).  Where no reader is caught so, none waits
for bytes that are there (`no_lost_wakeUp`).

The ring is the queue of bytes that `Utils.RingBuffer.Fifo` has it refine, with its
index for the requests that make it wrap.
-/

namespace KernelPanic

open Run

/-- Where a thread is in `SerialRead`. -/
inductive ReaderPoint where
  /-- In no call. -/
  | idle
  /-- At the head of the loop, about to read the ring. -/
  | reading
  /-- In the ring's copy loop, which does not come back. -/
  | copying
  /-- It has read nothing; about to call `GenerationWait` with this `readGeneration`. -/
  | waiting (readGeneration : ℕ)
  /-- In `GenerationWait`; it goes on as soon as its thread runs. -/
  | waited (readGeneration : ℕ)
deriving DecidableEq

/-- The serial input, its readers `ι` and the update of its generation.  `readIndex` is
that of the ring, and `updated` says that the handler function that runs has made its
update. -/
structure SerialUnit (ι : Type*) where
  serialInputRing : List UInt8
  readIndex : ℕ
  readGeneration : Generation ι
  readGenerationCount : ℕ
  readGenerationCritObject : HandlerState
  newValue : ℕ
  updated : Bool
  locks : Contexts ι
  point : ι → ReaderPoint

inductive SerialEvent (ι : Type*) where
  /-- The thread calls `SerialRead`. -/
  | call (i : ι)
  /-- It reads the ring and the count, with the interrupt disabled. -/
  | read (i : ι)
  /-- It calls `GenerationWait`. -/
  | wait (i : ι)
  /-- It returns from `GenerationWait` to the head of the loop. -/
  | again (i : ι)
  /-- `GetBytesInterrupt`, when `HalSerialGetChar` has these bytes. -/
  | getBytes (hal : List UInt8)
  /-- `CritInterrupt` takes the update off its list. -/
  | run
  /-- `GenerationUpdateHandler`. -/
  | update
  /-- `HandlerFinish`. -/
  | finish
deriving DecidableEq

variable {ι : Type*} [DecidableEq ι]

/-! ## the code -/

/-- `BUFFER_SIZE`. -/
def bufferSize : ℕ := 32

/-- `SerialStartup`. -/
def serialStartup : SerialUnit ι where
  serialInputRing := []
  readIndex := 0
  readGeneration := generationInit 0
  readGenerationCount := 0
  readGenerationCritObject := .ready
  newValue := 0
  updated := false
  locks := ⟨fun _ => ⟨.ready, .shared, .thread⟩, fun _ => .running, [], [], false⟩
  point := fun _ => .idle

/-- The loop of `GetBytesInterrupt`: bytes are taken while there are any and the ring
is not full. -/
def getBytesLoop : List UInt8 → List UInt8 → List UInt8
  | [], ring => ring
  | data :: hal, ring =>
      if ring.length = bufferSize then ring else getBytesLoop hal (ring ++ [data])

/-- The count after `GetBytesInterrupt`. -/
def SerialUnit.countAfter (s : SerialUnit ι) : ℕ :=
  if handlerIsFinished s.readGenerationCritObject then (s.readGenerationCount + 1) % 2 ^ 64
  else s.readGenerationCount

/-- `GetBytesInterrupt`. -/
def getBytesInterrupt (s : SerialUnit ι) (hal : List UInt8) : SerialUnit ι :=
  let s := { s with serialInputRing := getBytesLoop hal s.serialInputRing }
  if handlerIsFinished s.readGenerationCritObject then
    { s with
      readGenerationCount := s.countAfter
      newValue := s.countAfter
      readGenerationCritObject := (handlerRegister s.readGenerationCritObject).1 }
  else s

/-- The part of the loop of `SerialRead` that runs with the interrupt disabled, and
what follows from what it has read. -/
def serialReadRing (s : SerialUnit ι) (i : ι) (len : ℕ) : SerialUnit ι :=
  if s.serialInputRing ≠ [] ∧ 2 ^ 64 ≤ s.readIndex + len then
    { s with point := Function.update s.point i .copying }
  else
    let bytes := s.serialInputRing.take len
    { s with
      serialInputRing := s.serialInputRing.drop len
      readIndex := (s.readIndex + bytes.length) % bufferSize
      point := Function.update s.point i
        (if bytes.length = 0 then .waiting s.readGenerationCount else .idle) }

/-- The steps of the readers, of the interrupt and of the update; `len` is what the
readers ask for. -/
def SerialUnit.step (len : ι → ℕ) (s : SerialUnit ι) : SerialEvent ι → Option (SerialUnit ι)
  | .call i =>
      if s.locks.thread i = .running ∧ s.point i = .idle then
        some { s with point := Function.update s.point i .reading }
      else none
  | .read i =>
      if s.locks.thread i = .running ∧ s.point i = .reading then some (serialReadRing s i (len i))
      else none
  | .wait i =>
      match s.point i with
      | .waiting value =>
          if s.locks.thread i = .running then
            let (locks, readGeneration) := generationWait s.locks s.readGeneration value i
            some { s with
              locks := locks
              readGeneration := readGeneration
              point := Function.update s.point i (.waited value) }
          else none
      | _ => none
  | .again i =>
      match s.point i with
      | .waited _ =>
          if s.locks.thread i = .running then
            some { s with point := Function.update s.point i .reading }
          else none
      | _ => none
  | .getBytes hal => some (getBytesInterrupt s hal)
  | .run =>
      if s.readGenerationCritObject = .queued then
        some { s with
          readGenerationCritObject := (handlerRun s.readGenerationCritObject).1
          updated := false }
      else none
  | .update =>
      if s.readGenerationCritObject = .running ∧ s.updated = false then
        let (locks, readGeneration) := generationUpdate s.locks s.readGeneration s.newValue
        some { s with locks := locks, readGeneration := readGeneration, updated := true }
      else none
  | .finish =>
      if s.readGenerationCritObject = .running ∧ s.updated = true then
        some { s with
          readGenerationCritObject := (handlerFinish s.readGenerationCritObject).1 }
      else none

/-! ## lost bytes -/

/-- The thread is about to read the ring. -/
def AboutToRead (s : SerialUnit ι) (i : ι) : Prop :=
  s.locks.thread i = .running ∧ match s.point i with
    | .reading | .waited _ => True
    | _ => False

/-- There are bytes, a reader is blocked, none is about to read them and no update is
on its way. -/
structure LostWakeUp (s : SerialUnit ι) : Prop where
  bytes : s.serialInputRing ≠ []
  blocked : s.readGeneration.waitingThreads ≠ []
  nobody : ∀ i, ¬ AboutToRead s i
  finished : s.readGenerationCritObject = .ready

/-- The snapshot of a reader that is blocked, or between its ring read and its
`GenerationWait`. -/
def SerialUnit.snapshot (s : SerialUnit ι) (i : ι) : Option ℕ :=
  match s.point i with
  | .waiting value => some value
  | .waited value => if i ∈ s.readGeneration.waitingThreads then some value else none
  | _ => none

/-- An interrupt that leaves bytes behind catches no reader with the count it leaves
behind. -/
def CatchesNone (s : SerialUnit ι) : SerialEvent ι → Prop
  | .getBytes hal =>
      getBytesLoop hal s.serialInputRing ≠ [] → ∀ i, s.snapshot i ≠ some s.countAfter
  | _ => True

/-- The read does not make the index of the ring wrap. -/
def SerialUnit.Fits (len : ι → ℕ) (s : SerialUnit ι) : SerialEvent ι → Prop
  | .read i => s.serialInputRing ≠ [] → s.readIndex + len i < 2 ^ 64
  | _ => True

/-- What the steps keep, as long as the interrupt catches no reader. -/
structure SerialInv (s : SerialUnit ι) : Prop where
  kind : ∀ i, (s.locks.context i).kind = .thread
  blocked : ∀ i ∈ s.readGeneration.waitingThreads,
    s.locks.thread i = .blocked ∧ s.point i = .waited s.readGeneration.generation
  fresh : s.serialInputRing ≠ [] → ∀ i, s.snapshot i ≠ some s.readGenerationCount
  /-- The update that is queued, or runs and has not been made, is to the count. -/
  pending : s.readGenerationCritObject = .queued ∨
    s.readGenerationCritObject = .running ∧ s.updated = false →
      s.newValue = s.readGenerationCount
  current : s.readGenerationCritObject = .ready ∨
    s.readGenerationCritObject = .running ∧ s.updated = true →
      s.readGeneration.generation = s.readGenerationCount

variable {s s' : SerialUnit ι} {i j : ι} {e : SerialEvent ι} {len : ι → ℕ}

/-- **No reader waits for bytes that are there.** -/
theorem SerialInv.not_lost (h : SerialInv s) : ¬ LostWakeUp s := by
  rintro ⟨hbytes, hblocked, -, hready⟩
  obtain ⟨i, hi⟩ := List.exists_mem_of_ne_nil _ hblocked
  have hsnapshot : s.snapshot i = some s.readGeneration.generation := by
    unfold SerialUnit.snapshot
    rw [(h.blocked i hi).2]
    exact if_pos hi
  exact h.fresh hbytes i (hsnapshot.trans (congrArg some (h.current (.inl hready))))

theorem serialStartup_inv : SerialInv (serialStartup (ι := ι)) := by
  constructor <;> simp [serialStartup, generationInit]

/-! ## what the steps keep -/

section Locks

variable {w : Contexts ι} {l : List ι} {info : Option ResourceState}

theorem lockingAcquire_kind : ((lockingAcquire w i).context j).kind = (w.context j).kind := by
  unfold lockingAcquire schedulerWakeOnLock lockingWakeNonBlocking workerWakeOnLock
    schedulerResumeThread Contexts.setState Contexts.setThread Contexts.panic Contexts.assert
  by_cases hj : j = i
  · subst hj
    dsimp only
    split <;> split <;> simp_all
  · dsimp only
    split <;> split <;> simp [hj]

theorem lockingAcquireAll_kind :
    ((lockingAcquireAll w l).context j).kind = (w.context j).kind :=
  List.foldlRecOn (motive := fun v => (v.context j).kind = (w.context j).kind) l lockingAcquire rfl
    fun _ hv _ _ => lockingAcquire_kind.trans hv

theorem lockingAcquire_thread (hj : j ≠ i) : (lockingAcquire w i).thread j = w.thread j := by
  unfold lockingAcquire schedulerWakeOnLock lockingWakeNonBlocking workerWakeOnLock
    schedulerResumeThread Contexts.setState Contexts.setThread Contexts.panic Contexts.assert
  dsimp only
  split <;> split <;> simp [hj]

theorem lockingBlock_kind : ((lockingBlock w none i).context j).kind = (w.context j).kind := by
  by_cases hj : j = i
  · subst hj
    cases hk : (w.context j).kind <;>
    simp [lockingBlock, schedulerBlockOnLock, Contexts.assert, Contexts.setState,
      Contexts.setThread, hk]
  · cases hk : (w.context i).kind <;>
    simp [lockingBlock, schedulerBlockOnLock, Contexts.assert, Contexts.setState,
      Contexts.setThread, hk, hj]

theorem lockingBlock_thread (hk : (w.context i).kind = .thread) :
    (lockingBlock w none i).thread = Function.update w.thread i .blocked := by
  simp [lockingBlock, schedulerBlockOnLock, Contexts.assert, Contexts.setState,
    Contexts.setThread, hk]

end Locks

theorem SerialInv.not_mem (h : SerialInv s) (hrun : s.locks.thread i = .running) :
    i ∉ s.readGeneration.waitingThreads := fun hi => by
  rw [(h.blocked i hi).1] at hrun
  cases hrun

/-- A reader that is not blocked goes on, and takes no snapshot unless it leaves the
ring empty. -/
theorem SerialInv.move (h : SerialInv s) (hrun : s.locks.thread i = .running) {p : ReaderPoint}
    {ring : List UInt8} {n : ℕ}
    (hp : ring ≠ [] → s.serialInputRing ≠ [] ∧ (p = .idle ∨ p = .reading)) :
    SerialInv { s with
      serialInputRing := ring
      readIndex := n
      point := Function.update s.point i p } := by
  have hmem := h.not_mem hrun
  refine ⟨h.kind, fun j hj => ?_, fun hring j => ?_, h.pending, h.current⟩
  · have hji : j ≠ i := fun heq => hmem (heq ▸ hj)
    show _ ∧ Function.update s.point i p j = _
    rw [Function.update_of_ne hji]
    exact h.blocked j hj
  · obtain ⟨hbefore, hp⟩ := hp hring
    have hfresh := h.fresh hbefore j
    unfold SerialUnit.snapshot at hfresh ⊢
    dsimp only
    by_cases hji : j = i
    · rw [hji, Function.update_self]
      obtain rfl | rfl := hp <;> simp
    · rwa [Function.update_of_ne hji]

theorem SerialInv.read (h : SerialInv s) (hrun : s.locks.thread i = .running) {n : ℕ} (hn : 1 ≤ n)
    (hfit : s.serialInputRing ≠ [] → s.readIndex + n < 2 ^ 64) :
    SerialInv (serialReadRing s i n) := by
  rw [serialReadRing, if_neg fun hwrap => Nat.not_lt.mpr hwrap.2 (hfit hwrap.1)]
  refine h.move hrun fun hring => ?_
  have hbefore : s.serialInputRing ≠ [] := fun hempty => hring (by rw [hempty, List.drop_nil])
  have hpos := List.length_pos_iff.mpr hbefore
  refine ⟨hbefore, .inl (if_neg ?_)⟩
  rw [List.length_take]
  omega

/-- A reader that calls `GenerationWait` is blocked when its snapshot is the
generation, and keeps it. -/
theorem SerialInv.wait (h : SerialInv s) (hrun : s.locks.thread i = .running) {value : ℕ}
    (hpoint : s.point i = .waiting value) :
    SerialInv { s with
      locks := (generationWait s.locks s.readGeneration value i).1
      readGeneration := (generationWait s.locks s.readGeneration value i).2
      point := Function.update s.point i (.waited value) } := by
  have hmem := h.not_mem hrun
  have hne : ∀ j ∈ s.readGeneration.waitingThreads, j ≠ i := fun j hj heq => hmem (heq ▸ hj)
  unfold generationWait
  by_cases hvalue : s.readGeneration.generation = value
  · rw [if_pos hvalue]
    refine ⟨fun j => lockingBlock_kind.trans (h.kind j), fun j hj => ?_, fun hring j => ?_,
      h.pending, h.current⟩
    · show (lockingBlock s.locks none i).thread j = _ ∧ Function.update s.point i _ j = _
      rw [lockingBlock_thread (h.kind i)]
      obtain hj | hj := List.mem_append.mp hj
      · rw [Function.update_of_ne (hne j hj), Function.update_of_ne (hne j hj)]
        exact h.blocked j hj
      · rw [List.mem_singleton.mp hj, Function.update_self, Function.update_self, hvalue]
        exact ⟨rfl, rfl⟩
    · have hfresh := h.fresh hring j
      unfold SerialUnit.snapshot at hfresh ⊢
      dsimp only
      by_cases hji : j = i
      · rw [hji, hpoint] at hfresh
        rw [hji, Function.update_self]
        simpa using hfresh
      · rw [Function.update_of_ne hji]
        simpa [hji] using hfresh
  · rw [if_neg hvalue]
    refine ⟨fun j => lockingAcquire_kind.trans (h.kind j), fun j hj => ?_, fun hring j => ?_,
      h.pending, h.current⟩
    · show (lockingAcquire s.locks i).thread j = _ ∧ Function.update s.point i _ j = _
      rw [lockingAcquire_thread (hne j hj), Function.update_of_ne (hne j hj)]
      exact h.blocked j hj
    · have hfresh := h.fresh hring j
      unfold SerialUnit.snapshot at hfresh ⊢
      dsimp only
      by_cases hji : j = i
      · rw [hji, Function.update_self]
        simp [hmem]
      · rwa [Function.update_of_ne hji]

/-- An interrupt that catches no reader. -/
theorem SerialInv.getBytes (h : SerialInv s) {hal : List UInt8}
    (hcatches : CatchesNone s (.getBytes hal)) : SerialInv (getBytesInterrupt s hal) := by
  unfold getBytesInterrupt
  unfold CatchesNone SerialUnit.countAfter at hcatches
  dsimp only at hcatches ⊢
  split
  · next hfinished =>
      rw [if_pos hfinished] at hcatches
      refine ⟨h.kind, h.blocked, ?_, ?_, ?_⟩
      · show _ → ∀ i, s.snapshot i ≠ some (SerialUnit.countAfter _)
        unfold SerialUnit.countAfter
        rwa [if_pos hfinished]
      · exact fun _ => rfl
      · simp [handlerRegister]
  · next hbusy =>
      rw [if_neg hbusy] at hcatches
      exact ⟨h.kind, h.blocked, hcatches, h.pending, h.current⟩

theorem SerialInv.update (h : SerialInv s) (hnew : s.newValue = s.readGenerationCount)
    (hbusy : s.readGenerationCritObject = .running) :
    SerialInv { s with
      locks := (generationUpdate s.locks s.readGeneration s.newValue).1
      readGeneration := (generationUpdate s.locks s.readGeneration s.newValue).2
      updated := true } := by
  unfold generationUpdate
  refine ⟨fun j => lockingAcquireAll_kind.trans (h.kind j), by simp, fun hring j => ?_, ?_,
    fun _ => hnew⟩
  · have hfresh := h.fresh hring j
    unfold SerialUnit.snapshot at hfresh ⊢
    dsimp only
    cases hpoint : s.point j with
    | waited value => simp
    | waiting value => simpa [hpoint] using hfresh
    | _ => simp
  · simp [hbusy]

/-- **Every step keeps the invariant**, unless the interrupt catches a reader or the index
wraps. -/
theorem SerialInv.step (h : SerialInv s) (hlen : ∀ i, 1 ≤ len i) (hcatches : CatchesNone s e)
    (hfit : s.Fits len e) (hs : s.step len e = some s') : SerialInv s' := by
  cases e with
  | call i =>
      obtain ⟨⟨hrun, -⟩, heq⟩ := Option.ite_none_right_eq_some.mp hs
      obtain rfl := Option.some.inj heq
      exact h.move hrun fun hring => ⟨hring, .inr rfl⟩
  | read i =>
      obtain ⟨⟨hrun, -⟩, heq⟩ := Option.ite_none_right_eq_some.mp hs
      obtain rfl := Option.some.inj heq
      exact h.read hrun (hlen i) hfit
  | wait i =>
      simp only [SerialUnit.step] at hs
      split at hs
      · next value hpoint =>
          obtain ⟨hrun, heq⟩ := Option.ite_none_right_eq_some.mp hs
          obtain rfl := Option.some.inj heq
          exact h.wait hrun hpoint
      · cases hs
  | again i =>
      simp only [SerialUnit.step] at hs
      split at hs
      · obtain ⟨hrun, heq⟩ := Option.ite_none_right_eq_some.mp hs
        obtain rfl := Option.some.inj heq
        exact h.move hrun fun hring => ⟨hring, .inr rfl⟩
      · cases hs
  | getBytes hal =>
      obtain rfl := Option.some.inj hs
      exact h.getBytes hcatches
  | run =>
      obtain ⟨hqueued, heq⟩ := Option.ite_none_right_eq_some.mp hs
      obtain rfl := Option.some.inj heq
      exact ⟨h.kind, h.blocked, h.fresh, fun _ => h.pending (.inl hqueued), by simp [handlerRun]⟩
  | update =>
      obtain ⟨hbusy, heq⟩ := Option.ite_none_right_eq_some.mp hs
      obtain rfl := Option.some.inj heq
      exact h.update (h.pending (.inr hbusy)) hbusy.1
  | finish =>
      obtain ⟨hbusy, heq⟩ := Option.ite_none_right_eq_some.mp hs
      obtain rfl := Option.some.inj heq
      exact ⟨h.kind, h.blocked, h.fresh, by simp [handlerFinish], fun _ => h.current (.inr hbusy)⟩

/-- **No wake-up is lost** where no interrupt catches a reader with its count, and no
request makes the index of the ring wrap. -/
theorem no_lost_wakeUp (len : ι → ℕ) (hlen : ∀ i, 1 ≤ len i) (es : List (SerialEvent ι))
    (s : SerialUnit ι) (hrun : exec (SerialUnit.step len) serialStartup es = some s)
    (hcatches : Along (SerialUnit.step len) CatchesNone serialStartup es)
    (hfit : Along (SerialUnit.step len) (SerialUnit.Fits len) serialStartup es) : ¬ LostWakeUp s :=
  (exec_induction (fun _ _ _ h hc hs => h.step hlen hc.1 hc.2 hs) serialStartup_inv
    (hcatches.and hfit) hrun).not_lost

/-- A byte comes and is read; the reader comes again and finds nothing.  The next byte
comes while the update for the first is still queued, and only then the reader
waits for the count that it has seen to change. -/
def lostByte : List (SerialEvent Unit) :=
  [.call (), .getBytes [1], .read (), .call (), .read (), .getBytes [2], .run, .update, .finish,
    .wait ()]

/-- The reader is blocked, its byte is in the ring, and nothing will wake it. -/
theorem lostByte_lost : ∃ s, exec (SerialUnit.step fun _ => 1) serialStartup lostByte = some s ∧
    LostWakeUp s := by
  refine ⟨_, rfl, ⟨by decide, by decide, ?_, by decide⟩⟩
  rintro ⟨⟩ ⟨hrun, -⟩
  revert hrun
  decide

instance [Fintype ι] (s : SerialUnit ι) : ∀ e, Decidable (CatchesNone s e)
  | .getBytes _ => inferInstanceAs (Decidable (_ → ∀ _, _))
  | .call _ | .read _ | .wait _ | .again _ | .run | .update | .finish => isTrue trivial

instance (len : ι → ℕ) (s : SerialUnit ι) : ∀ e, Decidable (s.Fits len e)
  | .read _ => inferInstanceAs (Decidable (_ → _))
  | .call _ | .wait _ | .again _ | .getBytes _ | .run | .update | .finish => isTrue trivial

/-- The same with the second byte after the update has finished. -/
def timelyByte : List (SerialEvent Unit) :=
  [.call (), .getBytes [1], .read (), .call (), .read (), .run, .update, .finish, .getBytes [2],
    .wait ()]

theorem no_lost_wakeUp_sample :
    ∃ s, exec (SerialUnit.step fun _ => 1) serialStartup timelyByte = some s ∧ ¬ LostWakeUp s := by
  obtain ⟨s, hs⟩ : ∃ s, exec (SerialUnit.step fun _ => 1) serialStartup timelyByte = some s :=
    ⟨_, rfl⟩
  exact ⟨s, hs, no_lost_wakeUp (fun _ => 1) (fun _ => le_rfl) timelyByte s hs (by decide) (by decide)⟩

end KernelPanic
