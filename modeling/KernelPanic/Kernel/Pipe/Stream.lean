import KernelPanic.Kernel.Pipe.Tokens

/-!
# KernelPanic.Kernel.Pipe.Stream

What goes through a pipe.  The bytes that have entered the ring and those that
have left it are two streams, logged with the call that moved each byte.
`StreamInv` says that the ring holds their difference and that the bytes of one
call stand together: of the calls of one side only the owner of the side's
outer lock moves bytes, and it moves all of its own before it gives the lock
back.
-/

namespace KernelPanic

open Run PipeRun RingBuffer

variable {τ : Type*}

/-! ## tagged streams -/

/-- The bytes of call `id` are `bytes`, and end the stream. -/
def Ends (stream : List (ℕ × UInt8)) (id : ℕ) (bytes : List UInt8) : Prop :=
  ∃ before, stream = before ++ bytes.map (id, ·) ∧ ∀ e ∈ before, e.1 ≠ id

/-- The bytes of call `id` are `bytes`, and stand together. -/
def Contiguous (stream : List (ℕ × UInt8)) (id : ℕ) (bytes : List UInt8) : Prop :=
  ∃ before after, stream = before ++ bytes.map (id, ·) ++ after ∧ ∀ e ∈ before ++ after, e.1 ≠ id

variable {stream : List (ℕ × UInt8)} {id other : ℕ} {bytes more : List UInt8}

/-- Bytes at the end of the stream stand together. -/
theorem Ends.contiguous (h : Ends stream id bytes) : Contiguous stream id bytes := by
  obtain ⟨before, hstream, hne⟩ := h
  exact ⟨before, [], by simpa using hstream, by simpa using hne⟩

/-- The call goes on. -/
theorem Ends.append (h : Ends stream id bytes) :
    Ends (stream ++ more.map (id, ·)) id (bytes ++ more) := by
  obtain ⟨before, hstream, hne⟩ := h
  refine ⟨before, ?_, hne⟩
  rw [hstream, List.map_append, List.append_assoc]

/-- Another call comes first. -/
theorem Ends.append_other (h : Ends stream id []) (hne : other ≠ id) :
    Ends (stream ++ more.map (other, ·)) id [] := by
  obtain ⟨before, hstream, hbefore⟩ := h
  refine ⟨before ++ more.map (other, ·), ?_, fun e he => ?_⟩
  · simpa using hstream
  · obtain he | he := List.mem_append.mp he
    · exact hbefore e he
    · obtain ⟨b, -, rfl⟩ := List.mem_map.mp he
      exact hne

/-- Another call comes after. -/
theorem Contiguous.append_other (h : Contiguous stream id bytes) (hne : other ≠ id) :
    Contiguous (stream ++ more.map (other, ·)) id bytes := by
  obtain ⟨before, after, hstream, hall⟩ := h
  refine ⟨before, after ++ more.map (other, ·), by rw [hstream, List.append_assoc], fun e he => ?_⟩
  rw [← List.append_assoc] at he
  obtain he | he := List.mem_append.mp he
  · exact hall e he
  · obtain ⟨b, -, rfl⟩ := List.mem_map.mp he
    exact hne

/-! ## the invariant -/

/-- What the calls of a side have moved, in the order of the ring. -/
def PipeRun.log (s : PipeRun τ) : Side → List (ℕ × UInt8)
  | .read => s.returned
  | .write => s.accepted

namespace PipeThread

/-- The call's variables count what it has moved. -/
def Counts (p : PipeThread) : Prop :=
  p.moved.length =
    match p.pc with
    | .checkLeft | .upMutex | .upOther | .upGate => p.done + p.n
    | _ => p.done

/-- A write has moved the first bytes of its buffer. -/
def Takes (p : PipeThread) : Prop :=
  ∀ buff, p.call = .pipeWrite buff ∨ p.call = .pipeWriteStruct buff →
    p.moved = buff.take p.moved.length

end PipeThread

/-- The accounts of the bytes. -/
structure StreamInv (s : PipeRun τ) : Prop where
  fifo : s.accepted.map Prod.snd = s.returned.map Prod.snd ++ s.pipe.ring.contents
  logged : ∀ side, ∀ e ∈ s.log side, e.1 < s.calls
  ids : ∀ t p, s.thread t = some p → p.id < s.calls
  distinct : ∀ t d p q, s.thread t = some p → s.thread d = some q → p.id = q.id → t = d
  counts : ∀ t p, s.thread t = some p → p.Counts
  takes : ∀ t p, s.thread t = some p → p.Takes
  ends : ∀ t p, s.thread t = some p → p.pc ≠ .ret → Ends (s.log p.side) p.id p.moved
  contiguous : ∀ t p, s.thread t = some p → Contiguous (s.log p.side) p.id p.moved
  finished : ∀ p ∈ s.finished, (p.call.isStruct = true → p.moved.length = p.call.size) ∧ p.Takes ∧
    Contiguous (s.log p.side) p.id p.moved ∧ p.id < s.calls ∧ ∀ t q, s.thread t = some q → q.id ≠ p.id

variable [DecidableEq τ] {s s' : PipeRun τ} {t d : τ} {p p' q : PipeThread} {side : Side}

omit [DecidableEq τ] in
/-- Nothing has been moved at the start. -/
theorem streamInv_start (buff : ℕ → UInt8) (size : ℕ) : StreamInv (start buff size : PipeRun τ) := by
  have hidle : ∀ t p, (start buff size : PipeRun τ).thread t ≠ some p := fun t p hp => by
    cases hp
  refine ⟨rfl, fun side e he => ?_, fun t p hp => absurd hp (hidle t p),
    fun t d p q hp => absurd hp (hidle t p), fun t p hp => absurd hp (hidle t p),
    fun t p hp => absurd hp (hidle t p), fun t p hp => absurd hp (hidle t p),
    fun t p hp => absurd hp (hidle t p), fun p hp => absurd hp List.not_mem_nil⟩
  cases side <;> cases he

/-! ## one step -/

/-- What a statement inside a call does to the streams: it moves `bytes`, which may
be none. -/
structure Advances (s s' : PipeRun τ) (t : τ) (p p' : PipeThread) (bytes : List UInt8) : Prop where
  before : s.thread t = some p
  inside : p.pc ≠ .ret
  thread : s'.thread = Function.update s.thread t (some p')
  call : p'.call = p.call
  id : p'.id = p.id
  moved : p'.moved = p.moved ++ bytes
  log : ∀ side, s'.log side =
    if side = p.side then s.log side ++ bytes.map (p.id, ·) else s.log side
  calls : s'.calls = s.calls
  finished : s'.finished = s.finished
  /-- The other calls of the side have moved nothing, or are over. -/
  alone : bytes ≠ [] → ∀ d q, d ≠ t → s.thread d = some q → q.side = p.side → q.pc ≠ .ret →
    q.moved = []

namespace Advances

/-- A call stays on its side. -/
theorem side_eq (a : Advances s s' t p p' bytes) : p'.side = p.side := by
  rw [PipeThread.side, PipeThread.side, a.call]

/-- The thread is another one, or the one that has moved. -/
theorem cases (a : Advances s s' t p p' bytes) (hq : s'.thread d = some q) :
    d ≠ t ∧ s.thread d = some q ∨ d = t ∧ q = p' :=
  update_thread_cases (a.thread ▸ hq)

/-- A call is known by its number, which a statement keeps. -/
theorem number (a : Advances s s' t p p' bytes) (hq : s'.thread d = some q) :
    ∃ r, s.thread d = some r ∧ r.id = q.id := by
  obtain ⟨-, hq⟩ | ⟨rfl, rfl⟩ := a.cases hq
  · exact ⟨q, hq, rfl⟩
  · exact ⟨p, a.before, a.id.symm⟩

/-- Another call has another number. -/
theorem ne_id (a : Advances s s' t p p' bytes) (h : StreamInv s) (hdt : d ≠ t)
    (hq : s.thread d = some q) : p.id ≠ q.id :=
  fun hpq => hdt (h.distinct d t q p hq a.before hpq.symm)

/-- Only calls that were made are logged. -/
theorem logged (a : Advances s s' t p p' bytes) (h : StreamInv s) :
    ∀ side, ∀ e ∈ s'.log side, e.1 < s'.calls := fun side e he => by
  rw [a.calls]
  rw [a.log] at he
  split at he
  · obtain he | he := List.mem_append.mp he
    · exact h.logged side e he
    · obtain ⟨b, -, rfl⟩ := List.mem_map.mp he
      exact h.ids t p a.before
  · exact h.logged side e he

/-- A call in progress was made. -/
theorem ids (a : Advances s s' t p p' bytes) (h : StreamInv s) :
    ∀ d q, s'.thread d = some q → q.id < s'.calls := fun d q hq => by
  obtain ⟨r, hr, hrq⟩ := a.number hq
  rw [← hrq, a.calls]
  exact h.ids d r hr

/-- Two threads are in two calls. -/
theorem distinct (a : Advances s s' t p p' bytes) (h : StreamInv s) :
    ∀ d e q r, s'.thread d = some q → s'.thread e = some r → q.id = r.id → d = e :=
  fun d e q r hq hr hqr => by
    obtain ⟨q', hq', hq'q⟩ := a.number hq
    obtain ⟨r', hr', hr'r⟩ := a.number hr
    exact h.distinct d e q' r' hq' hr' (hq'q.trans (hqr.trans hr'r.symm))

/-- The bytes of the call end its side's stream. -/
theorem self_ends (a : Advances s s' t p p' bytes) (h : StreamInv s) :
    Ends (s'.log p'.side) p'.id p'.moved := by
  rw [a.log, a.side_eq, if_pos rfl, a.id, a.moved]
  exact (h.ends t p a.before a.inside).append

/-- The bytes of a call in progress end the stream of its side. -/
theorem ends (a : Advances s s' t p p' bytes) (h : StreamInv s) :
    ∀ d q, s'.thread d = some q → q.pc ≠ .ret → Ends (s'.log q.side) q.id q.moved :=
  fun d q hq hpc => by
    obtain ⟨hdt, hq⟩ | ⟨-, rfl⟩ := a.cases hq
    · have hends := h.ends d q hq hpc
      rw [a.log]
      split
      · next hside =>
          by_cases hbytes : bytes = []
          · simpa [hbytes] using hends
          · rw [a.alone hbytes d q hdt hq hside hpc] at hends ⊢
            exact hends.append_other (a.ne_id h hdt hq)
      · exact hends
    · exact a.self_ends h

/-- The bytes of a call in progress stand together. -/
theorem contiguous (a : Advances s s' t p p' bytes) (h : StreamInv s) :
    ∀ d q, s'.thread d = some q → Contiguous (s'.log q.side) q.id q.moved := fun d q hq => by
  obtain ⟨hdt, hq⟩ | ⟨-, rfl⟩ := a.cases hq
  · rw [a.log]
    split
    · exact (h.contiguous d q hq).append_other (a.ne_id h hdt hq)
    · exact h.contiguous d q hq
  · exact (a.self_ends h).contiguous

/-- The calls that have returned have moved all they were to move. -/
theorem returned (a : Advances s s' t p p' bytes) (h : StreamInv s) :
    ∀ q ∈ s'.finished, (q.call.isStruct = true → q.moved.length = q.call.size) ∧ q.Takes ∧
      Contiguous (s'.log q.side) q.id q.moved ∧ q.id < s'.calls ∧
      ∀ d r, s'.thread d = some r → r.id ≠ q.id := fun q hq => by
  rw [a.finished] at hq
  obtain ⟨hexact, htakes, hcont, hlt, hne⟩ := h.finished q hq
  refine ⟨hexact, htakes, ?_, a.calls ▸ hlt, fun d r hr hrq => ?_⟩
  · rw [a.log]
    split
    · exact hcont.append_other (hne t p a.before)
    · exact hcont
  · obtain ⟨r', hr', hr'r⟩ := a.number hr
    exact hne d r' hr' (hr'r.trans hrq)

end Advances

/-- **A statement inside a call** keeps the accounts, when it keeps those of its own
call and the ring. -/
theorem StreamInv.advances (h : StreamInv s) (a : Advances s s' t p p' bytes)
    (hfifo : s'.accepted.map Prod.snd = s'.returned.map Prod.snd ++ s'.pipe.ring.contents)
    (hcounts : p'.Counts) (htakes : p'.Takes) : StreamInv s' where
  fifo := hfifo
  logged := a.logged h
  ids := a.ids h
  distinct := a.distinct h
  counts d q hq := by
    obtain ⟨-, hq⟩ | ⟨-, rfl⟩ := a.cases hq
    · exact h.counts d q hq
    · exact hcounts
  takes d q hq := by
    obtain ⟨-, hq⟩ | ⟨-, rfl⟩ := a.cases hq
    · exact h.takes d q hq
    · exact htakes
  ends := a.ends h
  contiguous := a.contiguous h
  finished := a.returned h

/-- A statement that moves no bytes. -/
theorem StreamInv.keeps (h : StreamInv s) (hp : s.thread t = some p)
    (hthread : s'.thread = Function.update s.thread t (some p')) (hcounts : p'.Counts)
    (hret : p.pc ≠ .ret) (hring : s'.pipe.ring = s.pipe.ring := by rfl)
    (hlog : s'.log = s.log := by rfl) (hcalls : s'.calls = s.calls := by rfl)
    (hfinished : s'.finished = s.finished := by rfl) (hcall : p'.call = p.call := by rfl)
    (hid : p'.id = p.id := by rfl) (hmoved : p'.moved = p.moved := by rfl) : StreamInv s' := by
  have hreturned : s'.returned = s.returned := congrFun hlog .read
  have haccepted : s'.accepted = s.accepted := congrFun hlog .write
  have hadvances : Advances s s' t p p' [] :=
    ⟨hp, hret, hthread, hcall, hid, by rw [hmoved, List.append_nil], fun side => by simp [hlog],
      hcalls, hfinished, fun hne => absurd rfl hne⟩
  refine h.advances hadvances ?_ hcounts ?_
  · rw [hreturned, haccepted, hring]
    exact h.fifo
  · unfold PipeThread.Takes
    rw [hcall, hmoved]
    exact h.takes t p hp

omit [DecidableEq τ] in
/-- While a call moves bytes, the calls of its side that are not over have not
moved any. -/
theorem SyncInv.waits_outer (h : SyncInv s) (hp : s.thread t = some p) (ht : s.Runs t)
    (houter : p.pc.inOuter = true) (hdt : d ≠ t) (hq : s.thread d = some q) (hside : q.side = p.side)
    (hret : q.pc ≠ .ret) : q.done = 0 ∧ (q.pc = .downOuter ∨ q.pc = .loop) := by
  have howned := h.owned hp ht (show p.claims (.outer p.side) from ⟨rfl, houter⟩)
  by_cases hpc : q.pc = .downOuter
  · have hlocal := h.progress d q hq
    simp only [PipeThread.Local, hpc] at hlocal
    exact ⟨hlocal.1, .inl hpc⟩
  · have hclaim : q.claims (.outer p.side) := by
      refine ⟨hside, ?_⟩
      cases hpc' : q.pc <;> simp_all [PipePc.inOuter]
    by_cases hmem : d ∈ (s.pipe.lock (.outer p.side)).waitingThreads
    · obtain ⟨r, hr, hat⟩ := h.place _ d hmem
      rw [hq, Option.some.injEq] at hr
      subst hr
      exact ⟨hat.2.2, .inr hat.2.1⟩
    · exact absurd (h.token.unique _ d t ⟨⟨q, hq, hclaim⟩, hmem⟩ howned) hdt

omit [DecidableEq τ] in
/-- The bytes are logged on their side. -/
theorem log_setRing {id : ℕ} {bytes : List UInt8} {ring : RingBuffer} (side' : Side) :
    (s.setRing side id bytes ring).log side' =
      if side' = side then s.log side' ++ bytes.map (id, ·) else s.log side' := by
  cases side <;> cases side' <;> rfl

omit [DecidableEq τ] in
@[simp] theorem setRing_calls {id : ℕ} {bytes : List UInt8} {ring : RingBuffer} :
    (s.setRing side id bytes ring).calls = s.calls := by
  cases side <;> rfl

omit [DecidableEq τ] in
@[simp] theorem setRing_finished {id : ℕ} {bytes : List UInt8} {ring : RingBuffer} :
    (s.setRing side id bytes ring).finished = s.finished := by
  cases side <;> rfl

omit [DecidableEq τ] in
/-- The ring step moves the bytes from one stream to the other. -/
theorem StreamInv.fifo_setRing (h : StreamInv s) {id : ℕ} {bytes : List UInt8} {ring : RingBuffer}
    (hmoves : Moves side s.pipe.ring bytes ring) :
    (s.setRing side id bytes ring).accepted.map Prod.snd =
      (s.setRing side id bytes ring).returned.map Prod.snd ++ ring.contents := by
  have hsnd : (bytes.map (id, ·)).map Prod.snd = bytes := by
    simp
  cases side with
  | read =>
      show s.accepted.map Prod.snd = (s.returned ++ bytes.map (id, ·)).map Prod.snd ++ ring.contents
      have hmoves : s.pipe.ring.contents = bytes ++ ring.contents := hmoves
      rw [List.map_append, hsnd, h.fifo, hmoves, List.append_assoc]
  | write =>
      show (s.accepted ++ bytes.map (id, ·)).map Prod.snd = s.returned.map Prod.snd ++ ring.contents
      have hmoves : ring.contents = s.pipe.ring.contents ++ bytes := hmoves
      rw [List.map_append, hsnd, h.fifo, hmoves, List.append_assoc]

omit [DecidableEq τ] in
/-- A call that has not begun has moved nothing. -/
theorem StreamInv.moved_eq_nil (h : StreamInv s) (hq : s.thread d = some q) (hdone : q.done = 0)
    (hpc : q.pc = .downOuter ∨ q.pc = .loop) : q.moved = [] := by
  have hcounts := h.counts d q hq
  unfold PipeThread.Counts at hcounts
  obtain hpc | hpc := hpc <;>
  · simp only [hpc, hdone] at hcounts
    exact List.eq_nil_of_length_eq_zero hcounts

/-- The ring step moves its bytes, and no other call of the side is under way. -/
theorem SyncInv.advances (hsync : SyncInv s) (h : StreamInv s) (hp : s.thread t = some p)
    (ht : s.Runs t) (hpc : p.pc = .transfer) {n : ℕ} {ring : RingBuffer} {bytes : List UInt8} :
    Advances s ((s.setRing p.side p.id bytes ring).setThread t
        { p with n := n, moved := p.moved ++ bytes, pc := .checkLeft })
      t p { p with n := n, moved := p.moved ++ bytes, pc := .checkLeft } bytes where
  before := hp
  inside := by simp [hpc]
  thread := by simp [setThread]
  call := rfl
  id := rfl
  moved := rfl
  log := log_setRing
  calls := by simp [setThread]
  finished := by simp [setThread]
  alone _ d q hdt hq hside hret := by
    obtain ⟨hdone, hpcq⟩ := hsync.waits_outer hp ht (by simp [hpc]) hdt hq hside hret
    exact h.moved_eq_nil hq hdone hpcq

/-- **The ring step** moves the bytes of the call. -/
theorem StreamInv.transfer (h : StreamInv s) (hsync : SyncInv s) (hp : s.thread t = some p)
    (ht : s.Runs t) (hfit : s.Fits (.run t)) (hpc : p.pc = .transfer) :
    StreamInv (s.statement t p) := by
  obtain ⟨⟨n, bytes, ring⟩, hop, hr⟩ := hsync.ringStep hp ht hfit hpc
  have hcounts : p.moved.length = p.done := by
    have hcounts := h.counts t p hp
    simpa only [PipeThread.Counts, hpc] using hcounts
  have htake : p.moved.take p.done = p.moved := List.take_of_length_le (by omega)
  have hlen : bytes.length = n := hr.length
  unfold statement
  simp only [hpc, hop, PipeRun.assert, assert_true (decide_eq_true hr.pos), htake]
  refine h.advances (hsync.advances h hp ht hpc) ?_ ?_ fun buff hcall => ?_
  · simp only [setThread, setRing_pipe]
    exact h.fifo_setRing hr.moves
  · show (p.moved ++ bytes).length = p.done + n
    rw [List.length_append, hcounts, hlen]
  · have hbytes : bytes = (buff.drop p.done).take n := hr.taken buff hcall
    have hmoved := h.takes t p hp buff hcall
    rw [hcounts] at hmoved
    show p.moved ++ bytes = buff.take (p.moved ++ bytes).length
    rw [List.length_append, hcounts, hlen, List.take_add, ← hbytes, ← hmoved]

/-- A call returns. -/
theorem StreamInv.ret (h : StreamInv s) (hsync : SyncInv s) (hp : s.thread t = some p)
    (hpc : p.pc = .ret) : StreamInv (s.statement t p) := by
  have hlocal := hsync.progress t p hp
  have hcounts := h.counts t p hp
  simp only [PipeThread.Local, hpc] at hlocal
  simp only [PipeThread.Counts, hpc] at hcounts
  have hother : ∀ d q, Function.update s.thread t none d = some q → d ≠ t ∧ s.thread d = some q :=
    fun d q hq => by
      by_cases hdt : d = t
      · rw [hdt, Function.update_self] at hq
        cases hq
      · rw [Function.update_of_ne hdt] at hq
        exact ⟨hdt, hq⟩
  unfold statement
  rw [hpc]
  simp only [PipeRun.assert]
  refine ⟨h.fifo, h.logged, fun d q hq => h.ids d q (hother d q hq).2,
    fun d e q r hq hr => h.distinct d e q r (hother d q hq).2 (hother e r hr).2,
    fun d q hq => h.counts d q (hother d q hq).2, fun d q hq => h.takes d q (hother d q hq).2,
    fun d q hq => h.ends d q (hother d q hq).2, fun d q hq => h.contiguous d q (hother d q hq).2,
    fun q hq => ?_⟩
  obtain hq | hq := List.mem_append.mp hq
  · obtain ⟨hexact, htakes, hcont, hlt, hne⟩ := h.finished q hq
    exact ⟨hexact, htakes, hcont, hlt, fun d r hr => hne d r (hother d r hr).2⟩
  · obtain rfl := List.mem_singleton.mp hq
    refine ⟨fun hstruct => hcounts.trans (hlocal hstruct), h.takes t q hp, h.contiguous t q hp,
      h.ids t q hp, fun d r hr hrq => ?_⟩
    obtain ⟨hdt, hr⟩ := hother d r hr
    exact hdt (h.distinct d t r q hr hp hrq)

/-- A call is made. -/
theorem StreamInv.call (h : StreamInv s) {call : PipeCall} :
    StreamInv { s with
      thread := Function.update s.thread t (some (.start call s.calls))
      calls := s.calls + 1 } := by
  have hfresh : Ends (s.log call.side) s.calls [] :=
    ⟨s.log call.side, by simp, fun e he => Nat.ne_of_lt (h.logged _ e he)⟩
  refine ⟨h.fifo, fun side e he => Nat.lt_succ_of_lt (h.logged side e he), fun d q hq => ?_,
    fun d e q r hq hr hqr => ?_, fun d q hq => ?_, fun d q hq => ?_, fun d q hq hpc => ?_,
    fun d q hq => ?_, fun q hq => ?_⟩
  · obtain ⟨-, hq⟩ | ⟨-, rfl⟩ := update_thread_cases hq
    · exact Nat.lt_succ_of_lt (h.ids d q hq)
    · exact Nat.lt_succ_self s.calls
  · obtain ⟨-, hq⟩ | ⟨hd, rfl⟩ := update_thread_cases hq <;>
    obtain ⟨-, hr⟩ | ⟨he, rfl⟩ := update_thread_cases hr
    · exact h.distinct d e q r hq hr hqr
    · exact absurd hqr (Nat.ne_of_lt (h.ids d q hq))
    · exact absurd hqr.symm (Nat.ne_of_lt (h.ids e r hr))
    · exact hd.trans he.symm
  · obtain ⟨-, hq⟩ | ⟨-, rfl⟩ := update_thread_cases hq
    · exact h.counts d q hq
    · rfl
  · obtain ⟨-, hq⟩ | ⟨-, rfl⟩ := update_thread_cases hq
    · exact h.takes d q hq
    · exact fun buff _ => rfl
  · obtain ⟨-, hq⟩ | ⟨-, rfl⟩ := update_thread_cases hq
    · exact h.ends d q hq hpc
    · exact hfresh
  · obtain ⟨-, hq⟩ | ⟨-, rfl⟩ := update_thread_cases hq
    · exact h.contiguous d q hq
    · exact hfresh.contiguous
  · obtain ⟨hexact, htakes, hcont, hlt, hne⟩ := h.finished q hq
    refine ⟨hexact, htakes, hcont, Nat.lt_succ_of_lt hlt, fun d r hr => ?_⟩
    obtain ⟨-, hr⟩ | ⟨-, rfl⟩ := update_thread_cases hr
    · exact hne d r hr
    · exact (Nat.ne_of_lt hlt).symm

/-- **A statement** keeps the accounts. -/
theorem StreamInv.statement (h : StreamInv s) (hsync : SyncInv s) (hp : s.thread t = some p)
    (ht : s.Runs t) (hfit : s.Fits (.run t)) : StreamInv (s.statement t p) := by
  have hcounts := h.counts t p hp
  unfold PipeThread.Counts at hcounts
  cases hpc : p.pc with
  | transfer => exact h.transfer hsync hp ht hfit hpc
  | copying => exact absurd hpc (hsync.not_copying hp)
  | ret => exact h.ret hsync hp hpc
  | upOther =>
      rw [hpc] at hcounts
      simp only [PipeRun.statement, hpc]
      split <;> exact h.keeps hp rfl hcounts (by simp [hpc])
  | upGate =>
      rw [hpc] at hcounts
      have hcounts' : ({ p with
          done := p.done + p.n
          pc := if p.call.isStruct then .loop else .upOuter } : PipeThread).Counts := by
        cases p.call.isStruct <;> exact hcounts
      simp only [PipeRun.statement, hpc]
      split <;> exact h.keeps hp rfl hcounts' (by simp [hpc])
  | loop =>
      rw [hpc] at hcounts
      simp only [PipeRun.statement, hpc]
      split <;> exact h.keeps hp rfl hcounts (by simp [hpc])
  | downOuter | downGate | downMutex | check | checkLeft | upMutex | upOuter =>
      rw [hpc] at hcounts
      simp only [PipeRun.statement, hpc]
      exact h.keeps hp rfl hcounts (by simp [hpc])

/-- **One step** keeps the accounts. -/
theorem streamInv_step {op : PipeOp τ} (h : SyncInv s ∧ StreamInv s) (hfit : s.Fits op)
    (hstep : step s op = some s') : SyncInv s' ∧ StreamInv s' := by
  refine ⟨syncInv_step h.1 hfit hstep, ?_⟩
  obtain ⟨t, call, -, -, -, -, rfl⟩ | ⟨t, p, rfl, ht, hp, rfl⟩ := pipe_step_cases hstep
  · exact h.2.call
  · exact h.2.statement h.1 hp ht hfit

/-! ## what a pipe is for -/

/-- The call has been made: it is in progress or has returned. -/
def Made (s : PipeRun τ) (p : PipeThread) : Prop := p ∈ s.finished ∨ ∃ t, s.thread t = some p

/-- What a pipe promises. -/
structure PipeStreamOk (s : PipeRun τ) : Prop where
  /-- The bytes come out as they went in. -/
  fifo : s.returned.map Prod.snd <+: s.accepted.map Prod.snd
  /-- The bytes a call has moved stand together in its side's stream. -/
  contiguous : ∀ p, Made s p → Contiguous (s.log p.side) p.id p.moved
  /-- The bytes a write has moved are the first of its buffer. -/
  takes : ∀ p, Made s p → p.Takes
  /-- A struct call returns when it has moved as much as it was asked to. -/
  whole : ∀ p ∈ s.finished, p.call.isStruct = true → p.moved.length = p.call.size

/-- **A pipe is a byte-exact queue with atomic structs**, whatever its threads
do and in whatever order, as long as no index wraps. -/
theorem pipe_stream (buff : ℕ → UInt8) (size : ℕ) (hsize : 0 < size) (hcap : size < 2 ^ 64)
    (ops : List (PipeOp τ)) (hfit : Along step Fits (start buff size) ops)
    (h : exec step (start buff size) ops = some s) : PipeStreamOk s := by
  obtain ⟨-, hinv⟩ := exec_induction (I := fun s : PipeRun τ => SyncInv s ∧ StreamInv s)
    (fun _ _ _ hs hfit hstep => streamInv_step hs hfit hstep)
    ⟨syncInv_start buff hsize hcap, streamInv_start buff size⟩ hfit h
  refine ⟨⟨s.pipe.ring.contents, hinv.fifo.symm⟩, fun p hp => ?_, fun p hp => ?_,
    fun p hp => (hinv.finished p hp).1⟩
  · obtain hp | ⟨t, hp⟩ := hp
    · exact (hinv.finished p hp).2.2.1
    · exact hinv.contiguous t p hp
  · obtain hp | ⟨t, hp⟩ := hp
    · exact (hinv.finished p hp).2.1
    · exact hinv.takes t p hp

theorem pipe_stream_sample :
    ∃ s : PipeRun ℕ, exec step (start (fun _ => 0) 2) samplePipe = some s ∧
      s.returned = [(0, 1), (0, 2), (0, 3)] ∧ PipeStreamOk s := by
  have hend : (exec step (start (fun _ => 0) 2) samplePipe).map (·.returned) =
      some [(0, 1), (0, 2), (0, 3)] := by
    decide +kernel
  obtain ⟨s, hs, hreturned⟩ := Option.map_eq_some_iff.mp hend
  refine ⟨s, hs, hreturned, pipe_stream _ 2 (by decide) (by decide) samplePipe ?_ hs⟩
  exact pipe_fits (by decide) (by decide) (by decide)

/-- The read that does not come back has filled in a byte that was never written. -/
theorem wrappingRead_overrun :
    ∃ s, exec step (start (fun _ => 0) 4) wrappingRead = some s ∧ ¬ PipeStreamOk s := by
  have hend : (exec step (start (fun _ => 0) 4) wrappingRead).map (fun s =>
      (s.returned.map Prod.snd, s.accepted.map Prod.snd)) = some ([1, 2, 3, 0], [1, 2, 3]) := by
    decide +kernel
  obtain ⟨s, hs, hvalues⟩ := Option.map_eq_some_iff.mp hend
  obtain ⟨hreturned, haccepted⟩ := Prod.mk.inj hvalues
  refine ⟨s, hs, fun hok => ?_⟩
  have hfifo := hok.fifo.length_le
  rw [hreturned, haccepted] at hfifo
  exact absurd hfifo (by decide)

end KernelPanic
