import KernelPanic.Kernel.Handler
import KernelPanic.Lib.Run
import Mathlib.Data.List.Nodup
import Mathlib.Logic.Function.Basic

/-!
# KernelPanic.Kernel.Handler.Ownership

Who owns a `HANDLER_OBJECT` on its way from timer to soft interrupt to critical
interrupt and back (`kernel/timer.c`, `kernel/softinterrupt.c`,
`kernel/critinterrupt.c`).

Any number of agents, threads and interrupts, register objects and run loops that
take them out of the two timer heaps and the two lists.  Only the operations on
heaps and lists are atomic: between writing an object's fields and queueing it,
anything may happen elsewhere.  `Located` says that at any time an object is free,
in one queue or in the hands of one agent; the rest follows from what its place
says of its state (`Fine`).

Two rules are the callers' part.  An owner registers an object that is `READY` and
that nobody is about to register, and the object's function returns false exactly
when it has registered the object again.
-/

namespace KernelPanic

open Run

/-- Where objects wait. -/
inductive Container where
  | timers
  | timersOverflow
  | soft
  | crit
deriving DecidableEq

/-- What an agent is in the middle of, apart from the object in its hands. -/
inductive Loop where
  /-- No interrupt. -/
  | outside
  /-- `QueueTimers` in `TimerInner`; `drain` when the clock has wrapped and `Timers` is
  being emptied. -/
  | timerInner (drain : Bool)
  | softInterrupt
  | critInterrupt
deriving DecidableEq

/-- A step of a registration. -/
inductive RegisterStep where
  /-- `handler->Function = foo` -/
  | function
  /-- `handler->Context = context` -/
  | context
  /-- `HandlerRegister` -/
  | state
  /-- `HeapAdd` or `AtomicListPush` -/
  | link
deriving DecidableEq

/-- `struct HANDLER_OBJECT`, with the functions and contexts it was registered with
and those it was invoked with, in order. -/
structure HandlerObject (φ χ : Type*) where
  state : HandlerState
  function : φ
  context : χ
  registered : List (φ × χ)
  invoked : List (φ × χ)

/-- Where an agent is. -/
inductive Activity (ν φ χ : Type*) where
  /-- At the head of its loop. -/
  | head (l : Loop)
  /-- It has taken the object from its queue; `HandlerRun` is next. -/
  | taken (l : Loop) (o : ν)
  /-- `HandlerRun` is done; the object's function is next, or its registration with the
  soft interrupt. -/
  | running (l : Loop) (o : ν)
  /-- In the object's function. -/
  | inside (l : Loop) (o : ν)
  /-- The function has returned true; `HandlerFinish` is next. -/
  | finishing (l : Loop) (o : ν)
  /-- In a registration with `c`; the steps still to do. -/
  | registering (l : Loop) (o : ν) (f : φ) (x : χ) (c : Container) (todo : List RegisterStep)

/-- The object in the agent's hands. -/
def Activity.object {ν φ χ : Type*} : Activity ν φ χ → Option ν
  | .head _ => none
  | .taken _ o | .running _ o | .inside _ o | .finishing _ o | .registering _ o _ _ _ _ => some o

/-- The agent is moving the object: it has taken it from a queue and `HandlerRun` is
next, or is registering it. -/
def Activity.Moves {ν φ χ : Type*} (o : ν) : Activity ν φ χ → Prop
  | .taken _ o' | .registering _ o' _ _ _ _ => o' = o
  | _ => False

/-- The handler objects `ν`, the queues and the agents `ι`; `failed` is set by an
`ASSERT` of `handler.c`. -/
structure HandlerUnit (ι ν φ χ : Type*) where
  object : ν → HandlerObject φ χ
  queue : Container → List ν
  agent : ι → Activity ν φ χ
  failed : Bool

inductive HandlerEvent (ι ν φ χ : Type*) where
  /-- An interrupt begins. -/
  | enter (i : ι) (l : Loop)
  /-- The loop takes the object. -/
  | pop (i : ι) (o : ν)
  /-- The loop ends. -/
  | leave (i : ι)
  /-- A call of `TimerRegister`, `SoftInterruptRegisterHandler` or
  `CritInterruptRegisterHandler` begins. -/
  | register (i : ι) (c : Container) (o : ν) (f : φ) (x : χ)
  /-- The next step on the object in hand. -/
  | step (i : ι)
  /-- The object's function returns true. -/
  | returnTrue (i : ι)
  /-- The object's function registers the object again, and will return false. -/
  | reRegister (i : ι) (c : Container) (f : φ) (x : χ)

variable {ι ν φ χ : Type*} [DecidableEq ι] [DecidableEq ν]

/-! ## the code -/

/-- The steps of `TimerRegister`, `SoftInterruptRegisterHandler` and
`CritInterruptRegisterHandler`, in their order. -/
def registerSteps : Container → List RegisterStep
  | .timers | .timersOverflow => [.state, .function, .context, .link]
  | .soft | .crit => [.function, .context, .state, .link]

/-- The queue that a loop empties. -/
def Loop.source : Loop → Option Container
  | .outside => none
  | .timerInner _ => some .timers
  | .softInterrupt => some .soft
  | .critInterrupt => some .crit

/-- What can be taken from a queue: any timer may be the first of its heap, of a list
it is the object pushed last. -/
def Takes (c : Container) (queue : List ν) (o : ν) : Prop :=
  match c with
  | .timers | .timersOverflow => o ∈ queue
  | .soft | .crit => queue.head? = some o

instance (c : Container) (queue : List ν) (o : ν) : Decidable (Takes c queue o) := by
  unfold Takes
  cases c <;> infer_instance

namespace HandlerUnit

def setObject (s : HandlerUnit ι ν φ χ) (o : ν) (h : HandlerObject φ χ) : HandlerUnit ι ν φ χ :=
  { s with object := Function.update s.object o h }

def setAgent (s : HandlerUnit ι ν φ χ) (i : ι) (a : Activity ν φ χ) : HandlerUnit ι ν φ χ :=
  { s with agent := Function.update s.agent i a }

def setQueue (s : HandlerUnit ι ν φ χ) (c : Container) (queue : List ν) : HandlerUnit ι ν φ χ :=
  { s with queue := Function.update s.queue c queue }

/-- `ASSERT(b)`. -/
def assert (s : HandlerUnit ι ν φ χ) (b : Bool) : HandlerUnit ι ν φ χ :=
  { s with failed := s.failed || !b }

/-- After `HandlerInit` of every object. -/
def start (function : ν → φ) (context : ν → χ) : HandlerUnit ι ν φ χ where
  object := fun o => ⟨.ready, function o, context o, [], []⟩
  queue := fun _ => []
  agent := fun _ => .head .outside
  failed := false

/-- One step of a registration. -/
def registerStep (s : HandlerUnit ι ν φ χ) (o : ν) (f : φ) (x : χ) (c : Container) :
    RegisterStep → HandlerUnit ι ν φ χ
  | .function => s.setObject o { s.object o with function := f }
  | .context => s.setObject o { s.object o with context := x }
  | .state =>
      let r := handlerRegister (s.object o).state
      (s.setObject o { s.object o with state := r.1 }).assert r.2
  | .link => s.setQueue c (o :: s.queue c)

/-- The next step of the agent on the object in its hands. -/
def stepObject (s : HandlerUnit ι ν φ χ) (i : ι) : Option (HandlerUnit ι ν φ χ) :=
  match s.agent i with
  | .taken l o =>
      let r := handlerRun (s.object o).state
      some (((s.setObject o { s.object o with state := r.1 }).assert r.2).setAgent i (.running l o))
  | .running (.timerInner drain) o =>
      some (s.setAgent i (.registering (.timerInner drain) o (s.object o).function
        (s.object o).context .soft (registerSteps .soft)))
  | .running l o =>
      some ((s.setObject o { s.object o with
        invoked := (s.object o).invoked ++ [((s.object o).function, (s.object o).context)] }).setAgent
          i (.inside l o))
  | .finishing l o =>
      let r := handlerFinish (s.object o).state
      some (((s.setObject o { s.object o with state := r.1 }).assert r.2).setAgent i (.head l))
  | .registering l o f x c (op :: todo) =>
      some ((s.registerStep o f x c op).setAgent i
        (if todo = [] then .head l else .registering l o f x c todo))
  | _ => none

/-- The end of a loop: the list is empty, the next timer is not due, or `Timers` has
been drained and the heaps change places. -/
def stepLeave (s : HandlerUnit ι ν φ χ) (i : ι) : Option (HandlerUnit ι ν φ χ) :=
  match s.agent i with
  | .head .softInterrupt =>
      if s.queue .soft = [] then some (s.setAgent i (.head .outside)) else none
  | .head .critInterrupt =>
      if s.queue .crit = [] then some (s.setAgent i (.head .outside)) else none
  | .head (.timerInner true) =>
      if s.queue .timers = [] then
        some (((s.setQueue .timers (s.queue .timersOverflow)).setQueue .timersOverflow
          (s.queue .timers)).setAgent i (.head (.timerInner false)))
      else none
  | .head (.timerInner false) => some (s.setAgent i (.head .outside))
  | _ => none

/-- The registration that begins is logged with the object. -/
def beginRegister (s : HandlerUnit ι ν φ χ) (i : ι) (l : Loop) (c : Container) (o : ν) (f : φ)
    (x : χ) : HandlerUnit ι ν φ χ :=
  (s.setObject o { s.object o with registered := (s.object o).registered ++ [(f, x)] }).setAgent i
    (.registering l o f x c (registerSteps c))

def step (s : HandlerUnit ι ν φ χ) : HandlerEvent ι ν φ χ → Option (HandlerUnit ι ν φ χ)
  | .enter i l =>
      match s.agent i with
      | .head .outside => some (s.setAgent i (.head l))
      | _ => none
  | .pop i o =>
      match s.agent i with
      | .head l =>
          match l.source with
          | some c =>
              if Takes c (s.queue c) o then
                some ((s.setQueue c ((s.queue c).erase o)).setAgent i (.taken l o))
              else none
          | none => none
      | _ => none
  | .leave i => s.stepLeave i
  | .register i c o f x =>
      match s.agent i with
      | .head .outside =>
          -- as many invocations as registrations: none has begun
          if (s.object o).state = .ready ∧
              (s.object o).registered.length = (s.object o).invoked.length then
            some (s.beginRegister i .outside c o f x)
          else none
      | _ => none
  | .step i => s.stepObject i
  | .returnTrue i =>
      match s.agent i with
      | .inside l o => some (s.setAgent i (.finishing l o))
      | _ => none
  | .reRegister i c f x =>
      match s.agent i with
      | .inside l o => some (s.beginRegister i l c o f x)
      | _ => none

end HandlerUnit

open HandlerUnit

/-! ## the invariant -/

/-- Where an object is. -/
inductive Place (ι : Type*) where
  | free
  | queued (c : Container)
  | handled (i : ι)

/-- Its last registration, with this function and context, has not been invoked. -/
def HandlerObject.Pending (h : HandlerObject φ χ) (f : φ) (x : χ) : Prop :=
  h.registered = h.invoked ++ [(f, x)]

/-- Every registration has been invoked. -/
def HandlerObject.Settled (h : HandlerObject φ χ) : Prop := h.registered = h.invoked

/-- What is left of a registration: linking comes last, nothing comes twice, and what
is not left has been done. -/
structure Registering (h : HandlerObject φ χ) (f : φ) (x : χ) (todo : List RegisterStep) : Prop where
  pending : h.Pending f x
  nodup : todo.Nodup
  last : todo.getLast? = some .link
  state : (.state ∈ todo → h.state ≠ .queued) ∧ (.state ∉ todo → h.state = .queued)
  function : .function ∉ todo → h.function = f
  context : .context ∉ todo → h.context = x

/-- What an agent knows of the object in its hands. -/
def Handles (h : HandlerObject φ χ) : Activity ν φ χ → Prop
  | .head _ => True
  | .taken _ _ => h.state = .queued ∧ h.Pending h.function h.context
  | .running _ _ => h.state = .running ∧ h.Pending h.function h.context
  | .inside _ _ | .finishing _ _ => h.state = .running ∧ h.Settled
  | .registering _ _ f x _ todo => Registering h f x todo

/-- What is known of an object from where it is. -/
def Fine (agent : ι → Activity ν φ χ) (h : HandlerObject φ χ) : Place ι → Prop
  | .free => h.state = .ready ∧ h.Settled
  | .queued _ => h.state = .queued ∧ h.Pending h.function h.context
  | .handled i => Handles h (agent i)

/-- Every object is in one place. -/
structure Located (s : HandlerUnit ι ν φ χ) (place : ν → Place ι) : Prop where
  queue : ∀ c o, o ∈ s.queue c ↔ place o = .queued c
  nodup : ∀ c, (s.queue c).Nodup
  agent : ∀ i o, (s.agent i).object = some o ↔ place o = .handled i
  object : ∀ o, Fine s.agent (s.object o) (place o)
  fine : s.failed = false

variable {s s' : HandlerUnit ι ν φ χ} {place : ν → Place ι} {i j : ι} {o : ν} {c : Container}
  {l : Loop} {f : φ} {x : χ} {todo : List RegisterStep} {op : RegisterStep}
  {e : HandlerEvent ι ν φ χ} {a : Activity ν φ χ} {h : HandlerObject φ χ} {p : Place ι}

/-- An agent that takes an object up, keeps it or puts it down: who has what. -/
theorem Located.update_agent (hl : Located s place) (hplace : ∀ j, place o = .handled j → j = i)
    (hothers : ∀ b, b ≠ o → place b ≠ .handled i)
    (ha : a.object = some o ∧ p = .handled i ∨ a.object = none ∧ ∀ j, p ≠ .handled j) (b : ν) :
    (Function.update s.agent i a j).object = some b ↔ Function.update place o p b = .handled j := by
  by_cases hb : b = o
  · subst hb
    rw [Function.update_self]
    by_cases hj : j = i
    · subst hj
      rw [Function.update_self]
      obtain ⟨hsome, rfl⟩ | ⟨hnone, hp⟩ := ha
      · exact iff_of_true hsome rfl
      · exact iff_of_false (by simp [hnone]) (hp j)
    · rw [Function.update_of_ne hj]
      refine iff_of_false (fun hobj => hj (hplace j ((hl.agent j b).mp hobj))) ?_
      obtain ⟨-, rfl⟩ | ⟨-, hp⟩ := ha
      · exact fun heq => hj (Place.handled.inj heq).symm
      · exact hp j
  · rw [Function.update_of_ne hb]
    by_cases hj : j = i
    · subst hj
      rw [Function.update_self]
      refine iff_of_false (fun hobj => ?_) (hothers b hb)
      obtain ⟨hsome, -⟩ | ⟨hnone, -⟩ := ha
      · rw [hsome] at hobj
        exact hb (Option.some.inj hobj).symm
      · rw [hnone] at hobj
        cases hobj
    · rw [Function.update_of_ne hj]
      exact hl.agent j b

omit [DecidableEq ν] in
/-- The other objects are as before: their agents have not moved. -/
theorem Located.update_object (hl : Located s place) {b : ν} (hb : place b ≠ .handled i) :
    Fine (Function.update s.agent i a) (s.object b) (place b) := by
  have hb' := hl.object b
  cases hp : place b with
  | free | queued _ =>
      rw [hp] at hb'
      exact hb'
  | handled j =>
      have hj : j ≠ i := fun hj => hb (hj ▸ hp)
      rw [hp] at hb'
      show Handles _ (Function.update s.agent i a j)
      rw [Function.update_of_ne hj]
      exact hb'

/-- **One object moves**: the agent that had it, or takes it up, and the queues change
with it. -/
theorem Located.move (hl : Located s place) (i : ι) (o : ν) (a : Activity ν φ χ) (p : Place ι)
    (hs : s'.object = Function.update s.object o h ∧ s'.agent = Function.update s.agent i a ∧
      s'.failed = false)
    (hhands : (s.agent i).object = none ∨ (s.agent i).object = some o)
    (hplace : ∀ j, place o = .handled j → j = i)
    (ha : a.object = some o ∧ p = .handled i ∨ a.object = none ∧ ∀ j, p ≠ .handled j)
    (hqueue : ∀ c b, b ∈ s'.queue c ↔ if b = o then p = .queued c else b ∈ s.queue c)
    (hnodup : ∀ c, (s'.queue c).Nodup) (hfine : Fine s'.agent h p) :
    Located s' (Function.update place o p) := by
  obtain ⟨hobject, hagent, hfailed⟩ := hs
  -- the agent has no other object in its hands
  have hothers : ∀ b, b ≠ o → place b ≠ .handled i := fun b hb hbi => by
    have hobj := (hl.agent i b).mpr hbi
    obtain hnone | hsome := hhands
    · rw [hnone] at hobj
      cases hobj
    · rw [hsome] at hobj
      exact hb (Option.some.inj hobj).symm
  constructor
  · intro c b
    rw [hqueue]
    by_cases hb : b = o
    · rw [if_pos hb, hb, Function.update_self]
    · rw [if_neg hb, Function.update_of_ne hb, hl.queue]
  · exact hnodup
  · intro j b
    rw [hagent]
    exact hl.update_agent hplace hothers ha b
  · intro b
    rw [hobject]
    by_cases hb : b = o
    · rw [hb, Function.update_self, Function.update_self]
      exact hfine
    · rw [Function.update_of_ne hb, Function.update_of_ne hb, hagent]
      exact hl.update_object (hothers b hb)
  · exact hfailed

/-- An object that stays in the hands of its agent. -/
theorem Located.keep (hl : Located s place) (hobj : (s.agent i).object = some o)
    (ha : a.object = some o) (hhandles : Handles h a)
    (hs : s'.object = Function.update s.object o h ∧ s'.agent = Function.update s.agent i a ∧
      s'.failed = false) (hqueue : s'.queue = s.queue) :
    Located s' (Function.update place o (.handled i)) := by
  have hp := (hl.agent i o).mp hobj
  refine hl.move i o a (.handled i) hs (.inr hobj)
    (fun j hj => Place.handled.inj (hj.symm.trans hp)) (.inl ⟨ha, rfl⟩) (fun c b => ?_)
    (hqueue ▸ hl.nodup) ?_
  · rw [hqueue]
    split
    · next hb => simp [hb, hl.queue, hp]
    · rfl
  · rw [hs.2.1]
    show Handles h (Function.update s.agent i a i)
    rwa [Function.update_self]

omit [DecidableEq ν] in
/-- An agent without an object goes on without one; the queues of the timers may have
changed places. -/
theorem Located.idle (hl : Located s place) (hobj : (s.agent i).object = none)
    (ha : a.object = none) (swap : Container → Container) (hswap : ∀ c, swap (swap c) = c)
    (hs : s'.object = s.object ∧ s'.agent = Function.update s.agent i a ∧ s'.failed = s.failed)
    (hqueue : ∀ c, s'.queue c = s.queue (swap c)) :
    Located s' fun o => match place o with
      | .queued c => .queued (swap c)
      | p => p := by
  obtain ⟨hobject, hagent, hfailed⟩ := hs
  have hnot : ∀ b, place b ≠ .handled i := fun b hb => by
    rw [(hl.agent i b).mpr hb] at hobj
    cases hobj
  constructor
  · intro c b
    rw [hqueue, hl.queue]
    cases hp : place b with
    | queued c' =>
        rw [Place.queued.injEq, Place.queued.injEq]
        exact ⟨fun heq => by rw [heq, hswap], fun heq => by rw [← heq, hswap]⟩
    | _ => simp
  · intro c
    rw [hqueue]
    exact hl.nodup _
  · intro j b
    rw [hagent]
    by_cases hj : j = i
    · subst hj
      rw [Function.update_self, ha]
      refine iff_of_false (by simp) ?_
      have hb := hnot b
      cases hp : place b with
      | handled k => exact fun heq => hb (hp.trans heq)
      | _ => simp
    · rw [Function.update_of_ne hj, hl.agent]
      cases hp : place b <;> simp
  · intro b
    have hb := hl.update_object (a := a) (hnot b)
    rw [hobject, hagent]
    cases hp : place b <;>
    · rw [hp] at hb
      exact hb
  · rw [hfailed, hl.fine]

omit [DecidableEq ι] [DecidableEq ν] in
/-- The agent of an object knows it. -/
theorem Located.handles (hl : Located s place) (hobj : (s.agent i).object = some o) :
    Handles (s.object o) (s.agent i) := by
  have ho := hl.object o
  rw [(hl.agent i o).mp hobj] at ho
  exact ho

/-! ## the steps -/

theorem Located.pop (hl : Located s place) (hagent : s.agent i = .head l) (hmem : o ∈ s.queue c) :
    ∃ place', Located ((s.setQueue c ((s.queue c).erase o)).setAgent i (.taken l o)) place' := by
  have hp := (hl.queue c o).mp hmem
  have ho := hl.object o
  rw [hp] at ho
  refine ⟨_, hl.move (h := s.object o) i o (.taken l o) (.handled i)
    ⟨(Function.update_eq_self ..).symm, rfl, hl.fine⟩ (.inl (by rw [hagent]; rfl))
    (fun j hj => by rw [hp] at hj; cases hj) (.inl ⟨rfl, rfl⟩) (fun c' b => ?_) (fun c' => ?_) ?_⟩
  · show b ∈ Function.update s.queue c _ c' ↔ _
    by_cases hc : c' = c
    · rw [hc, Function.update_self, (hl.nodup c).mem_erase_iff]
      by_cases hb : b = o <;> simp [hb]
    · rw [Function.update_of_ne hc]
      by_cases hb : b = o
      · rw [if_pos hb, hb, hl.queue, hp]
        simp [Ne.symm hc]
      · rw [if_neg hb]
  · show (Function.update s.queue c _ c').Nodup
    by_cases hc : c' = c
    · rw [hc, Function.update_self]
      exact (hl.nodup c).erase o
    · rw [Function.update_of_ne hc]
      exact hl.nodup c'
  · show Handles _ (Function.update s.agent i _ i)
    rw [Function.update_self]
    exact ho

/-- The last step of a registration puts the object into its queue. -/
theorem Located.link (hl : Located s place) (hagent : s.agent i = .registering l o f x c todo)
    (hstate : (s.object o).state = .queued)
    (hpending : (s.object o).Pending (s.object o).function (s.object o).context) :
    ∃ place', Located ((s.setQueue c (o :: s.queue c)).setAgent i (.head l)) place' := by
  have hobj : (s.agent i).object = some o := by rw [hagent]; rfl
  have hp := (hl.agent i o).mp hobj
  have hnot : ∀ c, o ∉ s.queue c := fun c hmem => by
    rw [hl.queue, hp] at hmem
    cases hmem
  refine ⟨_, hl.move (h := s.object o) i o (.head l) (.queued c)
    ⟨(Function.update_eq_self ..).symm, rfl, hl.fine⟩ (.inr hobj)
    (fun j hj => Place.handled.inj (hj.symm.trans hp)) (.inr ⟨rfl, by simp⟩) (fun c' b => ?_)
    (fun c' => ?_) ⟨hstate, hpending⟩⟩
  · show b ∈ Function.update s.queue c _ c' ↔ _
    by_cases hc : c' = c
    · rw [hc, Function.update_self]
      by_cases hb : b = o <;> simp [hb]
    · rw [Function.update_of_ne hc]
      by_cases hb : b = o
      · rw [if_pos hb, hb]
        simp [hnot c', Ne.symm hc]
      · rw [if_neg hb]
  · show (Function.update s.queue c _ c').Nodup
    by_cases hc : c' = c
    · rw [hc, Function.update_self]
      exact List.nodup_cons.mpr ⟨hnot c, hl.nodup c⟩
    · rw [Function.update_of_ne hc]
      exact hl.nodup c'

omit [DecidableEq ι] [DecidableEq ν] in
/-- A step that leaves others to do is not the last one. -/
theorem Registering.rest (h' : Registering h f x (op :: todo)) (hop : op ≠ .link) :
    todo ≠ [] ∧ todo.Nodup ∧ todo.getLast? = some .link ∧ op ∉ todo := by
  have hlast := h'.last
  obtain ⟨hnot, hnodup⟩ := List.nodup_cons.mp h'.nodup
  have hne : todo ≠ [] := fun hnil => by
    rw [hnil, List.getLast?_singleton] at hlast
    exact hop (Option.some.inj hlast)
  rw [List.getLast?_cons_of_ne_nil hne] at hlast
  exact ⟨hne, hnodup, hlast, hnot⟩

omit [DecidableEq ι] [DecidableEq ν] in
/-- Linking is the last step, and everything else has been done. -/
theorem Registering.link (h' : Registering h f x (.link :: todo)) :
    todo = [] ∧ h.state = .queued ∧ h.function = f ∧ h.context = x := by
  have hnil : todo = [] := by
    by_contra hne
    have hlast := h'.last
    rw [List.getLast?_cons_of_ne_nil hne] at hlast
    exact (List.nodup_cons.mp h'.nodup).1 (List.mem_of_getLast? hlast)
  subst hnil
  exact ⟨rfl, h'.state.2 (by simp), h'.function (by simp), h'.context (by simp)⟩

/-- **A step of a registration.** -/
theorem Located.registerStep (hl : Located s place)
    (hagent : s.agent i = .registering l o f x c (op :: todo)) :
    ∃ place', Located ((s.registerStep o f x c op).setAgent i
      (if todo = [] then .head l else .registering l o f x c todo)) place' := by
  have hobj : (s.agent i).object = some o := by rw [hagent]; rfl
  have hreg := hl.handles hobj
  rw [hagent] at hreg
  cases op with
  | link =>
      obtain ⟨hnil, hstate, hfunction, hcontext⟩ := Registering.link hreg
      rw [if_pos hnil]
      refine hl.link hagent hstate ?_
      rw [hfunction, hcontext]
      exact hreg.pending
  | function =>
      obtain ⟨hne, hnodup, hlast, -⟩ := Registering.rest hreg (by decide)
      rw [if_neg hne]
      refine ⟨_, hl.keep hobj rfl ?_ ⟨rfl, rfl, hl.fine⟩ rfl⟩
      refine ⟨hreg.pending, hnodup, hlast, ?_, fun _ => rfl, fun hx => hreg.context (by simpa using hx)⟩
      exact ⟨fun hs => hreg.state.1 (List.mem_cons_of_mem _ hs),
        fun hs => hreg.state.2 (by simpa using hs)⟩
  | context =>
      obtain ⟨hne, hnodup, hlast, -⟩ := Registering.rest hreg (by decide)
      rw [if_neg hne]
      refine ⟨_, hl.keep hobj rfl ?_ ⟨rfl, rfl, hl.fine⟩ rfl⟩
      refine ⟨hreg.pending, hnodup, hlast, ?_, fun hf => hreg.function (by simpa using hf), fun _ => rfl⟩
      exact ⟨fun hs => hreg.state.1 (List.mem_cons_of_mem _ hs),
        fun hs => hreg.state.2 (by simpa using hs)⟩
  | state =>
      obtain ⟨hne, hnodup, hlast, hnot⟩ := Registering.rest hreg (by decide)
      rw [if_neg hne]
      have hstate := hreg.state.1 List.mem_cons_self
      have hassert : (handlerRegister (s.object o).state).2 = true := by
        cases hs : (s.object o).state <;> simp_all [handlerRegister]
      refine ⟨_, hl.keep hobj rfl ?_ ⟨rfl, rfl, ?_⟩ rfl⟩
      · exact ⟨hreg.pending, hnodup, hlast, ⟨fun hs => absurd hs hnot, fun _ => rfl⟩,
          fun hf => hreg.function (by simpa using hf), fun hx => hreg.context (by simpa using hx)⟩
      · show (s.failed || !(handlerRegister (s.object o).state).2) = false
        rw [hl.fine, hassert]
        rfl

/-- A registration that has just begun. -/
theorem registering_begin (hs : h.state ≠ .queued) (hp : h.Pending f x) (c : Container) :
    Registering h f x (registerSteps c) := by
  cases c <;>
  exact ⟨hp, by decide, rfl, ⟨fun _ => hs, fun hn => absurd (by decide) hn⟩,
    fun hn => absurd (by decide) hn, fun hn => absurd (by decide) hn⟩

/-- A function is called, or a timer goes on to the soft interrupt. -/
theorem Located.call (hl : Located s place) (hagent : s.agent i = .running l o)
    (hs : s.stepObject i = some s') : ∃ place', Located s' place' := by
  have hobj : (s.agent i).object = some o := by rw [hagent]; rfl
  have hhandles := hl.handles hobj
  rw [hagent] at hhandles
  obtain ⟨hstate, hpending⟩ := hhandles
  unfold HandlerUnit.stepObject at hs
  have hcalled : (s.object o).registered =
      (s.object o).invoked ++ [((s.object o).function, (s.object o).context)] := hpending
  cases l with
  | timerInner drain =>
      simp only [hagent, Option.some.injEq] at hs
      subst hs
      refine ⟨_, hl.keep (h := s.object o) hobj rfl ?_
        ⟨(Function.update_eq_self ..).symm, rfl, hl.fine⟩ rfl⟩
      exact registering_begin (by rw [hstate]; decide) hpending .soft
  | _ =>
      simp only [hagent, Option.some.injEq] at hs
      subst hs
      refine ⟨_, hl.keep hobj rfl ?_ ⟨rfl, rfl, hl.fine⟩ rfl⟩
      exact ⟨hstate, hcalled⟩

/-- **The next step on an object in hand.** -/
theorem Located.stepObject (hl : Located s place) (hs : s.stepObject i = some s') :
    ∃ place', Located s' place' := by
  cases hagent : s.agent i with
  | head l | inside l o => simp [HandlerUnit.stepObject, hagent] at hs
  | running l o => exact hl.call hagent hs
  | taken l o =>
      have hobj : (s.agent i).object = some o := by rw [hagent]; rfl
      have hhandles := hl.handles hobj
      rw [hagent] at hhandles
      obtain ⟨hstate, hpending⟩ := hhandles
      simp only [HandlerUnit.stepObject, hagent, Option.some.injEq] at hs
      subst hs
      refine ⟨_, hl.keep hobj rfl ?_ ⟨rfl, rfl, ?_⟩ rfl⟩
      · exact ⟨rfl, hpending⟩
      · show (s.failed || !(handlerRun (s.object o).state).2) = false
        simp [hl.fine, handlerRun, hstate]
  | finishing l o =>
      have hobj : (s.agent i).object = some o := by rw [hagent]; rfl
      have hp := (hl.agent i o).mp hobj
      have hhandles := hl.handles hobj
      rw [hagent] at hhandles
      obtain ⟨hstate, hsettled⟩ := hhandles
      simp only [HandlerUnit.stepObject, hagent, Option.some.injEq] at hs
      subst hs
      refine ⟨_, hl.move i o (.head l) .free ⟨rfl, rfl, ?_⟩ (.inr hobj)
        (fun j hj => Place.handled.inj (hj.symm.trans hp)) (.inr ⟨rfl, by simp⟩) (fun c b => ?_)
        hl.nodup ⟨rfl, hsettled⟩⟩
      · show (s.failed || !(handlerFinish (s.object o).state).2) = false
        simp [hl.fine, handlerFinish, hstate]
      · show b ∈ s.queue c ↔ _
        by_cases hb : b = o <;> simp [hb, hl.queue, hp]
  | registering l o f x c todo =>
      cases todo with
      | nil => simp [HandlerUnit.stepObject, hagent] at hs
      | cons op todo =>
          simp only [HandlerUnit.stepObject, hagent, Option.some.injEq] at hs
          subst hs
          exact hl.registerStep hagent

/-- `Timers` and `TimersOverflow` change places. -/
def Container.swap : Container → Container
  | .timers => .timersOverflow
  | .timersOverflow => .timers
  | c => c

omit [DecidableEq ν] in
theorem Located.leave (hl : Located s place) (hs : s.stepLeave i = some s') :
    ∃ place', Located s' place' := by
  have hidle {l l' : Loop} (hagent : s.agent i = .head l) :
      ∃ place', Located (s.setAgent i (.head l')) place' :=
    ⟨_, hl.idle (by rw [hagent]; rfl) rfl id (fun _ => rfl) ⟨rfl, rfl, rfl⟩ fun _ => rfl⟩
  unfold HandlerUnit.stepLeave at hs
  split at hs
  · next hagent =>
      obtain ⟨-, heq⟩ := Option.ite_none_right_eq_some.mp hs
      obtain rfl := Option.some.inj heq
      exact hidle hagent
  · next hagent =>
      obtain ⟨-, heq⟩ := Option.ite_none_right_eq_some.mp hs
      obtain rfl := Option.some.inj heq
      exact hidle hagent
  · next hagent =>
      obtain ⟨-, heq⟩ := Option.ite_none_right_eq_some.mp hs
      obtain rfl := Option.some.inj heq
      refine ⟨_, hl.idle (by rw [hagent]; rfl) rfl Container.swap (fun c => ?_)
        ⟨rfl, rfl, rfl⟩ fun c => ?_⟩
      · cases c <;> rfl
      · cases c <;> rfl
  · next hagent =>
      obtain rfl := Option.some.inj hs
      exact hidle hagent
  · cases hs

omit [DecidableEq ι] [DecidableEq ν] in
/-- An object that is ready and has been invoked as often as registered is free. -/
theorem Located.free (hl : Located s place) (hstate : (s.object o).state = .ready)
    (hlength : (s.object o).registered.length = (s.object o).invoked.length) : place o = .free := by
  have ho := hl.object o
  cases hp : place o with
  | free => rfl
  | queued c =>
      rw [hp] at ho
      exact absurd (hstate.symm.trans ho.1) (by decide)
  | handled j =>
      have hobj := (hl.agent j o).mpr hp
      have hhandles := hl.handles hobj
      cases hagent : s.agent j with
      | head l =>
          rw [hagent] at hobj
          cases hobj
      | registering l b f x c todo =>
          rw [hagent] at hhandles
          have hmore := congrArg List.length hhandles.pending
          rw [List.length_append, List.length_singleton] at hmore
          omega
      | _ =>
          rw [hagent] at hhandles
          exact absurd (hstate.symm.trans hhandles.1) (by decide)

/-- A registration begins, of a free object or from the object's own function. -/
theorem Located.begin (hl : Located s place)
    (hobj : (s.agent i).object = none ∧ place o = .free ∨ (s.agent i).object = some o)
    (hstate : (s.object o).state ≠ .queued) (hsettled : (s.object o).Settled) :
    ∃ place', Located (s.beginRegister i l c o f x) place' := by
  have hreg : Registering { s.object o with registered := (s.object o).registered ++ [(f, x)] } f x
      (registerSteps c) := by
    refine registering_begin ?_ ?_ c
    · exact hstate
    · exact congrArg (· ++ [(f, x)]) hsettled
  obtain ⟨hnone, hp⟩ | hobj := hobj
  · refine ⟨_, hl.move i o _ (.handled i) ⟨rfl, rfl, hl.fine⟩ (.inl hnone)
      (fun j hj => by rw [hp] at hj; cases hj) (.inl ⟨rfl, rfl⟩) (fun c b => ?_) hl.nodup ?_⟩
    · show b ∈ s.queue c ↔ _
      by_cases hb : b = o <;> simp [hb, hl.queue, hp]
    · show Handles _ (Function.update s.agent i _ i)
      rw [Function.update_self]
      exact hreg
  · refine ⟨_, hl.keep hobj rfl ?_ ⟨rfl, rfl, hl.fine⟩ rfl⟩
    exact hreg

/-- **Every step keeps every object in one place.** -/
theorem Located.step (hl : Located s place) (hs : s.step e = some s') :
    ∃ place', Located s' place' := by
  cases e with
  | enter i l =>
      simp only [HandlerUnit.step] at hs
      split at hs
      · next hagent =>
          obtain rfl := Option.some.inj hs
          exact ⟨_, hl.idle (by rw [hagent]; rfl) rfl id (fun _ => rfl) ⟨rfl, rfl, rfl⟩ fun _ => rfl⟩
      · cases hs
  | pop i o =>
      simp only [HandlerUnit.step] at hs
      split at hs
      · next l hagent =>
          split at hs
          · next c hc =>
              obtain ⟨htakes, heq⟩ := Option.ite_none_right_eq_some.mp hs
              obtain rfl := Option.some.inj heq
              have hmem : o ∈ s.queue c := by
                unfold Takes at htakes
                cases c <;> first | exact htakes | exact List.mem_of_head? htakes
              exact hl.pop hagent hmem
          · cases hs
      · cases hs
  | leave i => exact hl.leave hs
  | register i c o f x =>
      simp only [HandlerUnit.step] at hs
      split at hs
      · next hagent =>
          obtain ⟨⟨hready, hlength⟩, heq⟩ := Option.ite_none_right_eq_some.mp hs
          obtain rfl := Option.some.inj heq
          have hp := hl.free hready hlength
          have ho := hl.object o
          rw [hp] at ho
          exact hl.begin (.inl ⟨by rw [hagent]; rfl, hp⟩) (by rw [hready]; decide) ho.2
      · cases hs
  | step i => exact hl.stepObject hs
  | returnTrue i =>
      simp only [HandlerUnit.step] at hs
      split at hs
      · next l o hagent =>
          obtain rfl := Option.some.inj hs
          have hobj : (s.agent i).object = some o := by rw [hagent]; rfl
          have hhandles := hl.handles hobj
          rw [hagent] at hhandles
          refine ⟨_, hl.keep hobj rfl ?_ ⟨(Function.update_eq_self ..).symm, rfl, hl.fine⟩ rfl⟩
          exact hhandles
      · cases hs
  | reRegister i c f x =>
      simp only [HandlerUnit.step] at hs
      split at hs
      · next l o hagent =>
          obtain rfl := Option.some.inj hs
          have hobj : (s.agent i).object = some o := by rw [hagent]; rfl
          have hhandles := hl.handles hobj
          rw [hagent] at hhandles
          exact hl.begin (.inr hobj) (by rw [hhandles.1]; decide) hhandles.2
      · cases hs

omit [DecidableEq ι] [DecidableEq ν] in
theorem located_start (function : ν → φ) (context : ν → χ) :
    Located (start function context : HandlerUnit ι ν φ χ) fun _ => .free := by
  refine ⟨?_, fun _ => List.nodup_nil, ?_, fun _ => ⟨rfl, rfl⟩, rfl⟩ <;>
  simp [start, Activity.object]

/-! ## ownership -/

/-- An object is in one queue at most, and only when its state says that it is queued;
when it is not being moved, it is in one whenever its state says so.  The functions
invoked, with their contexts, are those registered, in order and each once, up to a
last one to come. -/
structure Exclusive (s : HandlerUnit ι ν φ χ) : Prop where
  once : ∀ c, (s.queue c).Nodup
  apart : ∀ o c c', o ∈ s.queue c → o ∈ s.queue c' → c = c'
  queued : ∀ o c, o ∈ s.queue c → (s.object o).state = .queued
  queue : ∀ o, (∀ i, ¬ (s.agent i).Moves o) → (s.object o).state = .queued →
    ∃ c, o ∈ s.queue c
  invoked : ∀ o, (s.object o).invoked <+: (s.object o).registered
  fine : s.failed = false

omit [DecidableEq ι] [DecidableEq ν] in
/-- Each registration has been invoked once, the last one perhaps not yet. -/
theorem Located.invoked (hl : Located s place) (o : ν) :
    (s.object o).invoked <+: (s.object o).registered := by
  have hpending : ∀ f x, (s.object o).Pending f x →
      (s.object o).invoked <+: (s.object o).registered := fun f x hp => ⟨[(f, x)], hp.symm⟩
  have hsettled : (s.object o).Settled → (s.object o).invoked <+: (s.object o).registered :=
    fun hp => ⟨[], (List.append_nil _).trans hp.symm⟩
  have ho := hl.object o
  cases hp : place o with
  | free =>
      rw [hp] at ho
      exact hsettled ho.2
  | queued c =>
      rw [hp] at ho
      exact hpending _ _ ho.2
  | handled i =>
      have hobj := (hl.agent i o).mpr hp
      have hhandles := hl.handles hobj
      cases hagent : s.agent i with
      | head l =>
          rw [hagent] at hobj
          cases hobj
      | taken | running =>
          rw [hagent] at hhandles
          exact hpending _ _ hhandles.2
      | inside | finishing =>
          rw [hagent] at hhandles
          exact hsettled hhandles.2
      | registering =>
          rw [hagent] at hhandles
          exact hpending _ _ hhandles.pending

omit [DecidableEq ι] [DecidableEq ν] in
theorem Located.exclusive (hl : Located s place) : Exclusive s := by
  refine ⟨hl.nodup, fun o c c' hc hc' => ?_, fun o c hc => ?_, fun o hnot hstate => ?_, fun o => ?_,
    hl.fine⟩
  · rw [hl.queue] at hc hc'
    exact Place.queued.inj (hc.symm.trans hc')
  · have ho := hl.object o
    rw [(hl.queue c o).mp hc] at ho
    exact ho.1
  · have ho := hl.object o
    cases hp : place o with
    | free =>
        rw [hp] at ho
        exact absurd (hstate.symm.trans ho.1) (by decide)
    | queued c => exact ⟨c, (hl.queue c o).mpr hp⟩
    | handled i =>
        have hobj := (hl.agent i o).mpr hp
        have hhandles := hl.handles hobj
        have hmoves := hnot i
        cases hagent : s.agent i with
        | head l =>
            rw [hagent] at hobj
            cases hobj
        | taken | registering =>
            rw [hagent] at hobj hmoves
            exact absurd (Option.some.inj hobj) hmoves
        | running | inside | finishing =>
            rw [hagent] at hhandles
            exact absurd (hstate.symm.trans hhandles.1) (by decide)
  · exact hl.invoked o

/-- **Handler ownership**, after any steps of any agents. -/
theorem handler_owned (function : ν → φ) (context : ν → χ) (es : List (HandlerEvent ι ν φ χ))
    (s : HandlerUnit ι ν φ χ) (hrun : exec HandlerUnit.step (start function context) es = some s) :
    Exclusive s := by
  obtain ⟨place, hl⟩ : ∃ place, Located s place :=
    exec_invariant (I := fun s => ∃ place, Located s place) (fun _ _ _ ⟨_, hl⟩ hs => hl.step hs)
      ⟨_, located_start function context⟩ hrun
  exact hl.exclusive

/-- A timer fires, and its function registers it as a critical interrupt, whose
function registers it as a timer again. -/
def roundTrip : List (HandlerEvent Unit Unit ℕ ℕ) :=
  let steps (n : ℕ) : List (HandlerEvent Unit Unit ℕ ℕ) := List.replicate n (.step ())
  .register () .timers () 1 10 :: steps 4 ++ .enter () (.timerInner false) :: .pop () () :: steps 6 ++
    .leave () :: .enter () .softInterrupt :: .pop () () :: steps 2 ++
    .reRegister () .crit 2 20 :: steps 4 ++ .leave () :: .enter () .critInterrupt :: .pop () () ::
    steps 2 ++ .reRegister () .timers 1 30 :: steps 4

theorem handler_owned_sample : ∃ s : HandlerUnit Unit Unit ℕ ℕ,
    exec HandlerUnit.step (start (fun _ => 0) fun _ => 0) roundTrip = some s ∧ Exclusive s ∧
      (s.object ()).invoked = [(1, 10), (2, 20)] ∧ s.queue .timers = [()] := by
  have hend : (exec HandlerUnit.step (start (fun _ => 0) fun _ => 0) roundTrip).map
      (fun s : HandlerUnit Unit Unit ℕ ℕ => ((s.object ()).invoked, s.queue .timers)) =
        some ([(1, 10), (2, 20)], [()]) := by decide
  obtain ⟨s, hs, heq⟩ := Option.map_eq_some_iff.mp hend
  exact ⟨s, hs, handler_owned _ _ _ s hs, congrArg Prod.fst heq, congrArg Prod.snd heq⟩

end KernelPanic
