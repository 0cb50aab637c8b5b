import KernelPanic.Kernel.Serial
import KernelPanic.Utils.RingBuffer.Transfer

/-!
# KernelPanic.Kernel.Serial.Port

The bytes of the serial port (`kernel/serial.c`), in both directions: its two rings are
filled and emptied by threads with the interrupt disabled, and emptied and filled by
the interrupts.

A thread raises the interrupt only after it has enabled it again, and between the two
others go on.  Nothing is doubled or reordered, whatever the terminal answers.  It need
not answer well: a `write` that does not take its byte is a panic, with the byte gone
from the ring, and a `read` that is interrupted ends the input interrupt with bytes left.
Where it takes and gives every byte, none is left behind: bytes that wait in the output
ring, or on the line while the input ring has space, wait for an interrupt that is
pending or that some thread is about to raise (`serialPort_stream`).
-/

namespace KernelPanic

open Run RingBuffer

/-- What `read` says. -/
inductive ReadResult where
  /-- It gives the byte that is there. -/
  | byte
  /-- It gives none: its result is 0, or its error `EINTR`, `EAGAIN` or `EWOULDBLOCK`. -/
  | nothing
  /-- Any other error. -/
  | error
deriving DecidableEq

/-- The rings, the line, and what has gone through them.  `line` is what the terminal
has still to give and `sent` what it has taken. -/
structure SerialPort (ι : Type*) where
  serialInputRing : RingBuffer
  serialOutputRing : RingBuffer
  line : List UInt8
  sent : List UInt8
  /-- The interrupts that are raised. -/
  serialRead : Bool
  serialWrite : Bool
  /-- `wasFull` of a reader that has not raised the interrupt yet. -/
  wasFull : ι → Bool
  /-- The writer has not raised the interrupt yet. -/
  wrote : ι → Bool
  /-- All that has come in on the line, and the bytes that the calls of `SerialRead` have
  returned and those of `SerialWrite` have taken. -/
  arrived : List UInt8
  returned : List UInt8
  accepted : List UInt8
  panicked : Bool

inductive PortEvent (ι : Type*) where
  /-- Bytes come in on the line. -/
  | arrive (bytes : List UInt8)
  /-- The interrupt, and what `read` says in it; where the list is over it gives what is
  there. -/
  | getBytesInterrupt (reads : List ReadResult)
  /-- The interrupt, and whether `write` takes its byte. -/
  | sendBytesInterrupt (writes : List Bool)
  /-- `SerialRead`, with the interrupt disabled. -/
  | read (i : ι) (len : ℕ)
  /-- The end of `SerialRead`. -/
  | readEnd (i : ι)
  /-- `SerialWrite`, with the interrupt disabled. -/
  | write (i : ι) (buf : List UInt8)
  /-- The end of `SerialWrite`. -/
  | writeEnd (i : ι)
deriving DecidableEq

variable {ι : Type*} [DecidableEq ι]

namespace SerialPort

/-! ## the code -/

/-- `SerialStartup`, with what the buffers hold then. -/
def startup (input output : ℕ → UInt8) : SerialPort ι where
  serialInputRing := ringBufferInit input bufferSize
  serialOutputRing := ringBufferInit output bufferSize
  line := []
  sent := []
  serialRead := false
  serialWrite := false
  wasFull := fun _ => false
  wrote := fun _ => false
  arrived := []
  returned := []
  accepted := []
  panicked := false

/-- `CHECK(b)`. -/
def check (s : SerialPort ι) (b : Bool) : SerialPort ι := { s with panicked := s.panicked || !b }

/-- The loop of `SendBytesInterrupt`; `fuel` is the size of the ring.  A byte that
`write` does not take is a panic in `HalSerialWriteChar`. -/
def sendBytes : ℕ → List Bool → SerialPort ι → Option (SerialPort ι)
  | 0, _, s => some s
  | fuel + 1, writes, s =>
      if ringBufferIsEmpty s.serialOutputRing then some s
      else (ringBufferRead 1 s.serialOutputRing).bind fun r =>
        let s := { s with serialOutputRing := r.2 }.check (r.1.length = 1)
        if writes.headD true then sendBytes fuel writes.tail { s with sent := s.sent ++ r.1 }
        else some { s with panicked := true }

/-- The loop of `GetBytesInterrupt`, for what is on the line.  `HalSerialGetChar` panics
on an error it does not know. -/
def getBytes : List UInt8 → List ReadResult → SerialPort ι → Option (SerialPort ι)
  | [], reads, s =>
      if !ringBufferIsFull s.serialInputRing && reads.headD .nothing = .error then
        some { s with line := [], panicked := true }
      else some { s with line := [] }
  | data :: line, reads, s =>
      if ringBufferIsFull s.serialInputRing then some { s with line := data :: line }
      else
        match reads.headD .byte with
        | .byte => (ringBufferWrite [data] s.serialInputRing).bind fun r =>
            getBytes line reads.tail ({ s with serialInputRing := r.2 }.check (r.1 = 1))
        | .nothing => some { s with line := data :: line }
        | .error => some { s with line := data :: line, panicked := true }

/-- One event; `none` when it cannot happen, after a panic, or when it does not come back
from a ring.  A thread is in one call at a time, and `SerialRead` does not come back
with nothing. -/
def step (s : SerialPort ι) (e : PortEvent ι) : Option (SerialPort ι) :=
  if s.panicked then none
  else
    match e with
    | .arrive bytes =>
        some { s with line := s.line ++ bytes, arrived := s.arrived ++ bytes, serialRead := true }
    | .getBytesInterrupt reads =>
        if s.serialRead then getBytes s.line reads { s with serialRead := false } else none
    | .sendBytesInterrupt writes =>
        if s.serialWrite then
          sendBytes s.serialOutputRing.size writes { s with serialWrite := false }
        else none
    | .read i len =>
        if s.wasFull i = false ∧ s.wrote i = false ∧ 0 < len then
          let full := ringBufferIsFull s.serialInputRing
          (ringBufferRead len s.serialInputRing).map fun r =>
            { s with
              serialInputRing := r.2
              returned := s.returned ++ r.1
              wasFull := Function.update s.wasFull i full }
        else none
    | .readEnd i =>
        if s.wasFull i then
          some { s with wasFull := Function.update s.wasFull i false, serialRead := true }
        else none
    | .write i buf =>
        if s.wasFull i = false ∧ s.wrote i = false then
          (ringBufferWrite buf s.serialOutputRing).map fun r =>
            { s with
              serialOutputRing := r.2
              accepted := s.accepted ++ buf.take r.1
              wrote := Function.update s.wrote i true }
        else none
    | .writeEnd i =>
        if s.wrote i then
          some { s with wrote := Function.update s.wrote i false, serialWrite := true }
        else none

/-- The request does not make an index of a ring wrap. -/
def Fits : PortEvent ι → Prop
  | .read _ len => bufferSize + len ≤ 2 ^ 64
  | .write _ buf => bufferSize + buf.length ≤ 2 ^ 64
  | _ => True

/-- The terminal gives every byte that is there, and takes every byte it is given. -/
def Served : PortEvent ι → Prop
  | .getBytesInterrupt reads => ∀ r ∈ reads, r = .byte
  | .sendBytesInterrupt writes => ∀ w ∈ writes, w = true
  | _ => True

instance : DecidablePred (Fits : PortEvent ι → Prop)
  | .read .. | .write .. => inferInstanceAs (Decidable (_ ≤ _))
  | .arrive _ | .getBytesInterrupt _ | .sendBytesInterrupt _ | .readEnd _ | .writeEnd _ =>
      isTrue trivial

instance : DecidablePred (Served : PortEvent ι → Prop)
  | .getBytesInterrupt _ | .sendBytesInterrupt _ => inferInstanceAs (Decidable (∀ _ ∈ _, _))
  | .arrive _ | .read .. | .readEnd _ | .write .. | .writeEnd _ => isTrue trivial

/-! ## the interrupts -/

variable {s s' : SerialPort ι}

/-- A request that fits into one ring of the port. -/
theorem index_fits {ring : RingBuffer} {n : ℕ} (h : Ok ring) (hsize : ring.size = bufferSize)
    (hn : bufferSize + n ≤ 2 ^ 64) :
    ring.size < 2 ^ 64 ∧ ring.readIndex + n < 2 ^ 64 ∧ ring.writeIndex + n < 2 ^ 64 := by
  have hread := h.readIndex_lt
  have hwrite := h.writeIndex_lt
  rw [hsize] at hread hwrite ⊢
  exact ⟨by decide, by omega, by omega⟩

omit [DecidableEq ι] in
/-- `SendBytesInterrupt` sends the bytes of the ring in order, all of them unless one is
not taken. -/
theorem sendBytes_spec {fuel : ℕ} (writes : List Bool) (hok : Ok s.serialOutputRing)
    (hsize : s.serialOutputRing.size = bufferSize)
    (hfuel : s.serialOutputRing.contents.length ≤ fuel) :
    ∃ ring bytes failed, sendBytes fuel writes s = some { s with
        serialOutputRing := ring
        sent := s.sent ++ bytes
        panicked := s.panicked || failed } ∧
      Ok ring ∧ ring.size = bufferSize ∧ bytes <+: s.serialOutputRing.contents ∧
      (failed = false → bytes = s.serialOutputRing.contents ∧ ring.contents = []) ∧
      ((∀ w ∈ writes, w = true) → failed = false) := by
  induction fuel generalizing s writes with
  | zero =>
      have hnil := List.eq_nil_of_length_eq_zero (Nat.le_zero.mp hfuel)
      exact ⟨s.serialOutputRing, [], false, by simp [sendBytes], hok, hsize, List.nil_prefix,
        fun _ => ⟨hnil.symm, hnil⟩, fun _ => rfl⟩
  | succ fuel ih =>
      cases hempty : ringBufferIsEmpty s.serialOutputRing with
      | true =>
          have hnil := (isEmpty_iff hok).mp hempty
          exact ⟨s.serialOutputRing, [], false, by simp [sendBytes, hempty], hok, hsize,
            List.nil_prefix, fun _ => ⟨hnil.symm, hnil⟩, fun _ => rfl⟩
      | false =>
          have hne : s.serialOutputRing.contents ≠ [] := fun hnil => by
            rw [(isEmpty_iff hok).mpr hnil] at hempty
            cases hempty
          have hpos := List.length_pos_iff.mpr hne
          obtain ⟨hcap, hindex, -⟩ := index_fits (n := 1) hok hsize (by decide)
          obtain ⟨byte, rest, hread, hok', htake, hdrop, hsize', -⟩ :=
            ringBufferRead_spec hok hcap hindex
          have hlen : byte.length = 1 := by
            rw [htake, List.length_take]
            omega
          have hsplit : byte ++ rest.contents = s.serialOutputRing.contents := by
            rw [htake, hdrop, List.take_append_drop]
          cases htaken : writes.headD true with
          | false =>
              refine ⟨rest, [], true, ?_, hok', hsize'.trans hsize, List.nil_prefix,
                fun hfalse => (by cases hfalse), fun hall => ?_⟩
              · simp only [sendBytes, hempty, Bool.false_eq_true, if_false, hread, Option.bind_some,
                  check, htaken, List.append_nil, Bool.or_true]
              · cases writes with
                | nil => cases htaken
                | cons w writes =>
                    rw [List.headD_cons, hall w List.mem_cons_self] at htaken
                    cases htaken
          | true =>
              obtain ⟨ring, bytes, failed, hrun, hring, hringSize, hprefix, hdone, hserved⟩ := ih
                (s := { s with serialOutputRing := rest, sent := s.sent ++ byte }) writes.tail hok'
                (hsize'.trans hsize)
                (by simp only [hdrop, List.length_drop]; omega)
              refine ⟨ring, byte ++ bytes, failed, ?_, hring, hringSize, ?_, fun hfalse => ?_,
                fun hall => hserved fun w hw => hall w (List.mem_of_mem_tail hw)⟩
              · simp only [sendBytes, hempty, Bool.false_eq_true, if_false, hread, Option.bind_some,
                  hlen, check, decide_true, Bool.not_true, Bool.or_false, htaken, if_true]
                rw [hrun]
                simp only [List.append_assoc]
              · rw [← hsplit]
                exact (List.prefix_append_right_inj byte).mpr hprefix
              · obtain ⟨hbytes, hnil⟩ := hdone hfalse
                exact ⟨by rw [hbytes]; exact hsplit, hnil⟩

omit [DecidableEq ι] in
/-- `GetBytesInterrupt` takes the first bytes of the line.  Where `read` gives every byte,
it stops when there are no more or the ring is full. -/
theorem getBytes_spec (line : List UInt8) (reads : List ReadResult) (hok : Ok s.serialInputRing)
    (hsize : s.serialInputRing.size = bufferSize) :
    ∃ ring rest failed, getBytes line reads s = some { s with
        serialInputRing := ring
        line := rest
        panicked := s.panicked || failed } ∧
      Ok ring ∧ ring.size = bufferSize ∧
      ring.contents ++ rest = s.serialInputRing.contents ++ line ∧
      ((∀ r ∈ reads, r = .byte) → failed = false ∧ (rest = [] ∨ ringBufferIsFull ring = true)) := by
  induction line generalizing s reads with
  | nil =>
      refine ⟨s.serialInputRing, [],
        !ringBufferIsFull s.serialInputRing && reads.headD .nothing = .error, ?_, hok, hsize, rfl,
        fun hall => ⟨?_, .inl rfl⟩⟩
      · unfold getBytes
        split_ifs with hfailed
        · rw [hfailed, Bool.or_true]
        · rw [Bool.not_eq_true] at hfailed
          rw [hfailed, Bool.or_false]
      · cases reads with
        | nil => simp
        | cons r reads => simp [hall r List.mem_cons_self]
  | cons data line ih =>
      cases hfull : ringBufferIsFull s.serialInputRing with
      | true =>
          exact ⟨s.serialInputRing, data :: line, false, by simp [getBytes, hfull], hok, hsize, rfl,
            fun _ => ⟨rfl, .inr hfull⟩⟩
      | false =>
          have hhead : (∀ r ∈ reads, r = .byte) → reads.headD .byte = .byte := fun hall => by
            cases reads with
            | nil => rfl
            | cons r reads => exact hall r List.mem_cons_self
          cases hresult : reads.headD .byte with
          | byte =>
              have hspace : s.serialInputRing.contents.length ≠ s.serialInputRing.size := fun heq => by
                rw [(isFull_iff hok).mpr heq] at hfull
                cases hfull
              have hle := contents_length_le hok
              obtain ⟨hcap, -, hindex⟩ := index_fits (n := 1) hok hsize (by decide)
              have hindex : s.serialInputRing.writeIndex + [data].length < 2 ^ 64 := hindex
              obtain ⟨count, ring, hwrite, hok', hcount, hcontents, hsize', -⟩ :=
                ringBufferWrite_spec hok hcap hindex
              have hone : count = 1 := by
                rw [hcount, List.length_singleton]
                omega
              obtain ⟨ring', rest, failed, hrun, hring, hringSize, happend, hserved⟩ := ih
                (s := { s with serialInputRing := ring }) reads.tail hok' (hsize'.trans hsize)
              refine ⟨ring', rest, failed, ?_, hring, hringSize, ?_,
                fun hall => hserved fun r hr => hall r (List.mem_of_mem_tail hr)⟩
              · simp only [getBytes, hfull, Bool.false_eq_true, if_false, hresult, hwrite,
                  Option.bind_some, hone, check, decide_true, Bool.not_true, Bool.or_false]
                exact hrun
              · rw [happend]
                simp [hcontents, hone]
          | nothing =>
              refine ⟨s.serialInputRing, data :: line, false, ?_, hok, hsize, rfl, fun hall => ?_⟩
              · simp only [getBytes, hfull, Bool.false_eq_true, if_false, hresult, Bool.or_false]
              · rw [hhead hall] at hresult
                cases hresult
          | error =>
              refine ⟨s.serialInputRing, data :: line, true, ?_, hok, hsize, rfl, fun hall => ?_⟩
              · simp only [getBytes, hfull, Bool.false_eq_true, if_false, hresult, Bool.or_true]
              · rw [hhead hall] at hresult
                cases hresult

/-! ## runs -/

/-- The accounts of the bytes, whatever the terminal answers. -/
structure PortInv (s : SerialPort ι) : Prop where
  input : Ok s.serialInputRing
  inputSize : s.serialInputRing.size = bufferSize
  output : Ok s.serialOutputRing
  outputSize : s.serialOutputRing.size = bufferSize
  sends : s.panicked = false → s.sent ++ s.serialOutputRing.contents = s.accepted
  sent : s.sent <+: s.accepted
  reads : s.returned ++ s.serialInputRing.contents ++ s.line = s.arrived

/-- Who sees to the bytes that wait, when the terminal has answered well. -/
structure ServedInv (s : SerialPort ι) : Prop where
  port : PortInv s
  sender : s.serialOutputRing.contents ≠ [] → s.serialWrite = true ∨ ∃ i, s.wrote i = true
  getter : s.line ≠ [] → ringBufferIsFull s.serialInputRing = true ∨ s.serialRead = true ∨
    ∃ i, s.wasFull i = true
  fine : s.panicked = false

omit [DecidableEq ι] in
theorem portInv_startup (input output : ℕ → UInt8) : PortInv (startup input output : SerialPort ι) :=
  ⟨ringBufferInit_ok (by decide), rfl, ringBufferInit_ok (by decide), rfl, fun _ => rfl,
    List.prefix_refl _, rfl⟩

omit [DecidableEq ι] in
theorem servedInv_startup (input output : ℕ → UInt8) :
    ServedInv (startup input output : SerialPort ι) :=
  ⟨portInv_startup input output, fun hne => absurd rfl hne, fun hne => absurd rfl hne, rfl⟩

/-- **One event keeps the accounts**, unless an index wraps. -/
theorem PortInv.step {e : PortEvent ι} (h : PortInv s) (hfit : Fits e) (hs : s.step e = some s') :
    PortInv s' := by
  obtain ⟨hfine, hs⟩ := Option.ite_none_left_eq_some.mp hs
  rw [Bool.not_eq_true] at hfine
  cases e with
  | arrive bytes =>
      cases hs
      refine { h with reads := ?_ }
      simp only [← h.reads, List.append_assoc]
  | getBytesInterrupt reads =>
      obtain ⟨-, hs⟩ := Option.ite_none_right_eq_some.mp hs
      obtain ⟨ring, rest, failed, hrun, hok, hsize, happend, -⟩ :=
        getBytes_spec (s := { s with serialRead := false }) s.line reads h.input h.inputSize
      obtain rfl := Option.some.inj (hrun.symm.trans hs)
      refine { h with input := hok, inputSize := hsize, sends := fun _ => h.sends hfine, reads := ?_ }
      rw [List.append_assoc, happend, ← List.append_assoc]
      exact h.reads
  | sendBytesInterrupt writes =>
      obtain ⟨-, hs⟩ := Option.ite_none_right_eq_some.mp hs
      obtain ⟨ring, bytes, failed, hrun, hok, hsize, hprefix, hdone, -⟩ :=
        sendBytes_spec (s := { s with serialWrite := false }) writes h.output h.outputSize
          (contents_length_le h.output)
      obtain rfl := Option.some.inj (hrun.symm.trans hs)
      refine { h with output := hok, outputSize := hsize, sends := fun hfalse => ?_, sent := ?_ }
      · obtain ⟨hbytes, hnil⟩ := hdone (by simpa [hfine] using hfalse)
        simp only [hbytes, hnil, List.append_nil]
        exact h.sends hfine
      · rw [← h.sends hfine]
        exact (List.prefix_append_right_inj _).mpr hprefix
  | read i len =>
      obtain ⟨-, hs⟩ := Option.ite_none_right_eq_some.mp hs
      obtain ⟨hcap, hindex, -⟩ := index_fits h.input h.inputSize hfit
      obtain ⟨bytes, ring, hread, hok, htake, hdrop, hsize, -⟩ :=
        ringBufferRead_spec h.input hcap hindex
      rw [hread] at hs
      cases hs
      refine { h with input := hok, inputSize := hsize.trans h.inputSize, reads := ?_ }
      simp only [htake, hdrop, List.append_assoc]
      rw [← List.append_assoc (List.take _ _), List.take_append_drop, ← List.append_assoc]
      exact h.reads
  | readEnd i =>
      obtain ⟨-, hs⟩ := Option.ite_none_right_eq_some.mp hs
      cases hs
      exact { h with }
  | write i buf =>
      obtain ⟨-, hs⟩ := Option.ite_none_right_eq_some.mp hs
      obtain ⟨hcap, -, hindex⟩ := index_fits h.output h.outputSize hfit
      obtain ⟨count, ring, hwrite, hok, -, hcontents, hsize, -⟩ :=
        ringBufferWrite_spec h.output hcap hindex
      rw [hwrite] at hs
      cases hs
      refine { h with
        output := hok
        outputSize := hsize.trans h.outputSize
        sends := fun _ => ?_
        sent := h.sent.trans (List.prefix_append _ _) }
      rw [hcontents, ← List.append_assoc, h.sends hfine]
  | writeEnd i =>
      obtain ⟨-, hs⟩ := Option.ite_none_right_eq_some.mp hs
      cases hs
      exact { h with }

/-- **One event leaves no byte without somebody who sees to it**, when the terminal
answers well. -/
theorem ServedInv.step {e : PortEvent ι} (h : ServedInv s) (hfit : Fits e) (hserved : Served e)
    (hs : s.step e = some s') : ServedInv s' := by
  have hport := h.port.step hfit hs
  obtain ⟨-, hs⟩ := Option.ite_none_left_eq_some.mp hs
  cases e with
  | arrive bytes =>
      cases hs
      exact ⟨hport, h.sender, fun _ => .inr (.inl rfl), h.fine⟩
  | getBytesInterrupt reads =>
      obtain ⟨-, hs⟩ := Option.ite_none_right_eq_some.mp hs
      obtain ⟨ring, rest, failed, hrun, -, -, -, hdone⟩ :=
        getBytes_spec (s := { s with serialRead := false }) s.line reads h.port.input
          h.port.inputSize
      obtain rfl := Option.some.inj (hrun.symm.trans hs)
      obtain ⟨hfailed, hstop⟩ := hdone hserved
      exact ⟨hport, h.sender, fun hne => .inl (hstop.resolve_left hne), by simp [h.fine, hfailed]⟩
  | sendBytesInterrupt writes =>
      obtain ⟨-, hs⟩ := Option.ite_none_right_eq_some.mp hs
      obtain ⟨ring, bytes, failed, hrun, -, -, -, hdone, hall⟩ :=
        sendBytes_spec (s := { s with serialWrite := false }) writes h.port.output
          h.port.outputSize (contents_length_le h.port.output)
      obtain rfl := Option.some.inj (hrun.symm.trans hs)
      have hfailed := hall hserved
      exact ⟨hport, fun hne => absurd (hdone hfailed).2 hne, h.getter, by simp [h.fine, hfailed]⟩
  | read i len =>
      obtain ⟨⟨hfull, -, -⟩, hs⟩ := Option.ite_none_right_eq_some.mp hs
      obtain ⟨r, -, rfl⟩ := Option.map_eq_some_iff.mp hs
      refine ⟨hport, h.sender, fun hne => ?_, h.fine⟩
      -- the reader that makes space in a full ring will raise the interrupt
      obtain hring | hread | ⟨j, hj⟩ := h.getter hne
      · exact .inr (.inr ⟨i, by simp [hring]⟩)
      · exact .inr (.inl hread)
      · have hji : j ≠ i := fun hji => by simp [hji, hfull] at hj
        exact .inr (.inr ⟨j, by simp [hji, hj]⟩)
  | readEnd i =>
      obtain ⟨-, hs⟩ := Option.ite_none_right_eq_some.mp hs
      cases hs
      exact ⟨hport, h.sender, fun _ => .inr (.inl rfl), h.fine⟩
  | write i buf =>
      obtain ⟨-, hs⟩ := Option.ite_none_right_eq_some.mp hs
      obtain ⟨r, -, rfl⟩ := Option.map_eq_some_iff.mp hs
      exact ⟨hport, fun _ => .inr ⟨i, by simp⟩, h.getter, h.fine⟩
  | writeEnd i =>
      obtain ⟨-, hs⟩ := Option.ite_none_right_eq_some.mp hs
      cases hs
      exact ⟨hport, fun _ => .inl rfl, h.getter, h.fine⟩

/-- No thread is about to raise an interrupt, and none is raised. -/
structure Quiet (s : SerialPort ι) : Prop where
  readers : ∀ i, s.wasFull i = false
  writers : ∀ i, s.wrote i = false
  serialRead : s.serialRead = false
  serialWrite : s.serialWrite = false

/-- What the port promises, and what it promises only where the terminal has `served` it. -/
structure StreamOk (s : SerialPort ι) (served : Prop) : Prop where
  /-- Bytes go out as they were accepted, -/
  sent : s.sent <+: s.accepted
  /-- and come in as they arrived; none is doubled or skipped. -/
  returned : s.returned <+: s.arrived
  /-- When nothing is going on everything accepted has been sent, -/
  all_sent : served → s.Quiet → s.sent = s.accepted
  /-- and everything that arrived can be read, unless the ring is full. -/
  all_taken : served → s.Quiet → ringBufferIsFull s.serialInputRing = true ∨
    s.returned ++ s.serialInputRing.contents = s.arrived
  /-- There is no panic. -/
  fine : served → s.panicked = false

omit [DecidableEq ι] in
theorem ServedInv.all_sent (h : ServedInv s) (hquiet : s.Quiet) : s.sent = s.accepted := by
  by_contra hne
  have hrest : s.serialOutputRing.contents ≠ [] := fun hnil => hne (by
    rw [← h.port.sends h.fine, hnil, List.append_nil])
  obtain hwrite | ⟨i, hi⟩ := h.sender hrest
  · simp [hquiet.serialWrite] at hwrite
  · simp [hquiet.writers] at hi

omit [DecidableEq ι] in
theorem ServedInv.all_taken (h : ServedInv s) (hquiet : s.Quiet) :
    ringBufferIsFull s.serialInputRing = true ∨
      s.returned ++ s.serialInputRing.contents = s.arrived := by
  by_cases hline : s.line = []
  · refine .inr ?_
    rw [← h.port.reads, hline, List.append_nil]
  · obtain hfull | hread | ⟨i, hi⟩ := h.getter hline
    · exact .inl hfull
    · simp [hquiet.serialRead] at hread
    · simp [hquiet.readers] at hi

/-- **The serial port is byte-exact in both directions**, whatever its threads and
interrupts do, in whatever order, and whatever the terminal answers, as long as no
request makes an index wrap; where the terminal gives and takes every byte, it leaves
nothing behind. -/
theorem serialPort_stream (input output : ℕ → UInt8) (es : List (PortEvent ι))
    (hfit : ∀ e ∈ es, Fits e) (hrun : exec SerialPort.step (startup input output) es = some s) :
    StreamOk s (∀ e ∈ es, Served e) := by
  have hport := exec_induction (I := fun s : SerialPort ι => PortInv s)
    (fun _ _ _ h hfit hs => h.step hfit hs) (portInv_startup input output)
    ((along_iff_forall_mem hrun).mpr hfit) hrun
  have hinv : (∀ e ∈ es, Served e) → ServedInv s := fun hserved =>
    exec_induction (P := fun _ e => Fits e ∧ Served e)
      (fun _ _ _ h hgood hs => h.step hgood.1 hgood.2 hs)
      (servedInv_startup input output)
      ((along_iff_forall_mem hrun).mpr fun e he => ⟨hfit e he, hserved e he⟩) hrun
  exact {
    sent := hport.sent
    returned := ⟨s.serialInputRing.contents ++ s.line, by rw [← hport.reads, List.append_assoc]⟩
    all_sent := fun hserved => (hinv hserved).all_sent
    all_taken := fun hserved => (hinv hserved).all_taken
    fine := fun hserved => (hinv hserved).fine }

/-- Two threads write, and the second before the first has raised the interrupt. -/
theorem serialPort_stream_sample :
    ∃ s : SerialPort ℕ, exec SerialPort.step (startup (fun _ => 0) (fun _ => 0))
        [.write 0 [1, 2], .arrive [7, 8], .write 1 [3], .writeEnd 0, .sendBytesInterrupt [true],
          .getBytesInterrupt [], .read 2 1, .writeEnd 1] = some s ∧
      s.sent = [1, 2, 3] ∧ s.returned = [7] ∧ s.panicked = false := by
  have hend : (exec SerialPort.step (startup (fun _ => 0) (fun _ => 0) : SerialPort ℕ)
      [.write 0 [1, 2], .arrive [7, 8], .write 1 [3], .writeEnd 0, .sendBytesInterrupt [true],
        .getBytesInterrupt [], .read 2 1, .writeEnd 1]).map (fun s => (s.sent, s.returned)) =
      some ([1, 2, 3], [7]) := by decide +kernel
  obtain ⟨s, hs, hvalues⟩ := Option.map_eq_some_iff.mp hend
  simp only [Prod.mk.injEq] at hvalues
  have hok := serialPort_stream _ _ _ (by decide) hs
  exact ⟨s, hs, hvalues.1, hvalues.2, hok.fine (by decide)⟩

/-- The second byte is not taken: it has left the ring, and the port is in panic. -/
example : (exec SerialPort.step (startup (fun _ => 0) (fun _ => 0) : SerialPort ℕ)
    [.write 0 [1, 2, 3], .writeEnd 0, .sendBytesInterrupt [true, false]]).map
      (fun s => (s.sent, s.serialOutputRing.contents, s.panicked)) = some ([1], [3], true) := by
  decide +kernel

end SerialPort

end KernelPanic
