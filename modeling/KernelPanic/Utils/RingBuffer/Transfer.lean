import KernelPanic.Utils.RingBuffer
import Mathlib.Algebra.Ring.Nat

/-!
# KernelPanic.Utils.RingBuffer.Transfer

What the operations of a ring do as long as no index wraps.  `Transfer` gives each
of them by the bytes it moves, with no loop over positions.  The loops of
`utils/ringbuffer.c` end with the same result (`ringBufferRead_eq`,
`ringBufferWrite_eq`), so `ringBufferRead_spec` and `ringBufferWrite_spec` say
what the operations do to the queue.
-/

namespace KernelPanic

open RingBuffer

namespace Transfer

/-- The bytes `bs` stored from position `cur` on. -/
def copyIn (buffer : ℕ → UInt8) (cur : ℕ) : List UInt8 → ℕ → UInt8
  | [] => buffer
  | b :: bs => copyIn (Function.update buffer cur b) (cur + 1) bs

/-- Where a transfer of `size` bytes that starts at index `i`, with the other
side at index `j`, ends, and the index it leaves behind. -/
def stops (size capacity i j : ℕ) : ℕ × ℕ :=
  let stop := i + size
  if i < j then
    -- up to the other index only
    let stop := if stop > j then j else stop
    (stop, stop)
  else if stop ≥ capacity then
    -- to the end of the buffer, and wrap the index
    (capacity, 0)
  else (stop, stop)

/-- The bytes of one piece of a read, and the ring without them. -/
def readSmall (size : ℕ) (ring : RingBuffer) : List UInt8 × RingBuffer :=
  let e := stops size ring.size ring.readIndex ring.writeIndex
  (slice ring.buffer ring.readIndex e.1, { ring with readIndex := e.2 })

/-- How many bytes one piece of a write stores, and the ring with them. -/
def writeSmall (buff : List UInt8) (ring : RingBuffer) : ℕ × RingBuffer :=
  let e := stops buff.length ring.size ring.writeIndex ring.readIndex
  let count := e.1 - ring.writeIndex
  (count, { ring with
    writeIndex := e.2
    buffer := copyIn ring.buffer ring.writeIndex (buff.take count) })

/-- One piece of a read, and what follows it in the loop. -/
def readRound (size : ℕ) (ring : RingBuffer) : List UInt8 × RingBuffer :=
  let r := readSmall size ring
  (r.1, if r.2.readIndex = r.2.writeIndex then { r.2 with empty := true } else r.2)

/-- A read, in at most `fuel` pieces. -/
def readLoop : ℕ → ℕ → RingBuffer → List UInt8 × RingBuffer
  | 0, _, ring => ([], ring)
  | fuel + 1, size, ring =>
      if 0 < size ∧ !ringBufferIsEmpty ring then
        let r := readRound size ring
        let rest := readLoop fuel (size - r.1.length) r.2
        (r.1 ++ rest.1, rest.2)
      else ([], ring)

/-- One piece of a write, and what follows it in the loop. -/
def writeRound (buff : List UInt8) (ring : RingBuffer) : ℕ × RingBuffer :=
  let r := writeSmall buff ring
  (r.1, { r.2 with empty := false })

/-- A write, in at most `fuel` pieces. -/
def writeLoop : ℕ → List UInt8 → RingBuffer → ℕ × RingBuffer
  | 0, _, ring => (0, ring)
  | fuel + 1, buff, ring =>
      if 0 < buff.length ∧ !ringBufferIsFull ring then
        let r := writeRound buff ring
        let rest := writeLoop fuel (buff.drop r.1) r.2
        (r.1 + rest.1, rest.2)
      else (0, ring)

/-! ## what is stored -/

variable {buffer : ℕ → UInt8} {i j cur : ℕ} {bs : List UInt8}

theorem copyIn_of_lt (h : i < cur) : copyIn buffer cur bs i = buffer i := by
  induction bs generalizing buffer cur with
  | nil => rfl
  | cons b bs ih =>
      rw [copyIn, ih (Nat.lt_succ_of_lt h), Function.update_of_ne (Nat.ne_of_lt h)]

theorem copyIn_of_ge (h : cur + bs.length ≤ i) : copyIn buffer cur bs i = buffer i := by
  induction bs generalizing buffer cur with
  | nil => rfl
  | cons b bs ih =>
      rw [List.length_cons] at h
      rw [copyIn, ih (by omega), Function.update_of_ne (by omega)]

theorem slice_copyIn (hj : j = cur + bs.length) : slice (copyIn buffer cur bs) cur j = bs := by
  induction bs generalizing buffer cur with
  | nil => simp [hj]
  | cons b bs ih =>
      rw [List.length_cons] at hj
      rw [slice_cons (by omega), copyIn, ih (by omega), copyIn_of_lt (Nat.lt_succ_self cur),
        Function.update_self]

variable {ring : RingBuffer} {size : ℕ} {buff : List UInt8}

/-! ## where a transfer ends -/

variable {capacity : ℕ}

/-- A transfer ends at or behind where it starts, inside the buffer, and takes
no more than was asked for. -/
theorem stops_bounds (size : ℕ) (hi : i < capacity) (hj : j < capacity) :
    i ≤ (stops size capacity i j).1 ∧ (stops size capacity i j).1 ≤ capacity ∧
      (stops size capacity i j).1 ≤ i + size := by
  unfold stops
  grind

/-- Where a transfer leaves its index, what remains of the request still fits. -/
theorem stops_fits (hi : i < capacity) (hfit : i + size < 2 ^ 64) :
    (stops size capacity i j).2 + (size - ((stops size capacity i j).1 - i)) < 2 ^ 64 := by
  unfold stops
  grind

theorem readRound_readIndex :
    (readRound size ring).2.readIndex =
      (stops size ring.size ring.readIndex ring.writeIndex).2 := by
  by_cases hend : (stops size ring.size ring.readIndex ring.writeIndex).2 = ring.writeIndex <;>
  simp [readRound, readSmall, hend]

/-! ## reading -/

/-- A transfer that starts behind the other index stays in front of it. -/
theorem stops_of_lt {capacity : ℕ} (h : i < j) :
    stops size capacity i j = (min (i + size) j, min (i + size) j) := by
  have hmin : (if i + size > j then j else i + size) = min (i + size) j := by
    grind
  simp only [stops, if_pos h, hmin]

/-- One round of a read takes a piece off the front of the queue. -/
theorem readRound_spec (h : Ok ring) (hne : ring.empty = false) (hs : 0 < size) :
    let r := readRound size ring
    Ok r.2 ∧ ring.contents = r.1 ++ r.2.contents ∧ 0 < r.1.length ∧ r.1.length ≤ size ∧
      r.2.size = ring.size ∧ r.2.buffer = ring.buffer := by
  have hr := h.readIndex_lt
  have hw := h.writeIndex_lt
  obtain ⟨buffer, cap, r, w, empty⟩ := ring
  simp only at hne hr hw
  subst hne
  by_cases hrw : r < w
  · -- the queue is the slice from `r` to `w`
    simp only [readRound, readSmall, stops_of_lt hrw]
    have hsplit : slice buffer r (min (r + size) w) ++ slice buffer (min (r + size) w) w =
        slice buffer r w := slice_append (by omega) (by omega)
    by_cases hall : min (r + size) w = w
    · rw [if_pos hall, hall]
      refine ⟨⟨hw, hw, fun _ => rfl⟩, ?_, ?_, ?_, rfl, rfl⟩
      · simp [contents, hrw]
      · rw [slice_length]
        omega
      · rw [slice_length]
        omega
    · rw [if_neg hall]
      have hlt : min (r + size) w < w := by omega
      refine ⟨⟨by simp only; omega, hw, fun hempty => by cases hempty⟩, ?_, ?_, ?_, rfl, rfl⟩
      · simp [contents, hrw, hlt, hsplit]
      · rw [slice_length]
        omega
      · rw [slice_length]
        omega
  · -- the queue goes on from the start of the buffer
    simp only [readRound, readSmall, stops, if_neg hrw]
    by_cases hend : r + size ≥ cap
    · rw [if_pos hend]
      have hlen : (slice buffer r cap).length = cap - r := slice_length
      by_cases h0 : 0 = w
      · simp only [if_pos h0]
        refine ⟨⟨by simp only; omega, hw, fun _ => h0⟩, ?_, by omega, by omega, trivial, trivial⟩
        simp [contents, ← h0]
      · simp only [if_neg h0]
        refine ⟨⟨by simp only; omega, hw, fun hempty => by cases hempty⟩, ?_, by omega, by omega,
          trivial, trivial⟩
        simp [contents, hrw, show 0 < w by omega]
    · have hne : r + size ≠ w := by omega
      have hsplit : slice buffer r (r + size) ++ slice buffer (r + size) cap = slice buffer r cap :=
        slice_append (by omega) (by omega)
      rw [if_neg hend]
      simp only [if_neg hne]
      refine ⟨⟨by simp only; omega, hw, fun hempty => by cases hempty⟩, ?_, ?_, ?_, trivial, trivial⟩
      · simp [contents, hrw, show ¬ r + size < w by omega, ← hsplit]
      · simpa using hs
      · simp

/-- A read takes the oldest bytes, as many as there are and are asked for. -/
theorem readLoop_spec {fuel : ℕ} (h : Ok ring) (hfuel : size ≤ fuel) :
    let r := readLoop fuel size ring
    Ok r.2 ∧ r.1 = ring.contents.take size ∧ r.2.contents = ring.contents.drop size ∧
      r.2.size = ring.size ∧ r.2.buffer = ring.buffer := by
  induction fuel generalizing size ring with
  | zero =>
      obtain rfl : size = 0 := by omega
      exact ⟨h, rfl, rfl, rfl, rfl⟩
  | succ fuel ih =>
      simp only [readLoop]
      split
      · next hgo =>
          have hne : ring.empty = false := by simpa [ringBufferIsEmpty] using hgo.2
          obtain ⟨hok, hsplit, hpos, hle, hsize, hbuf⟩ := readRound_spec h hne hgo.1
          have hfuel' : size - (readRound size ring).1.length ≤ fuel := by omega
          obtain ⟨hok', htake, hdrop, hsize', hbuf'⟩ := ih hok hfuel'
          refine ⟨hok', ?_, ?_, hsize'.trans hsize, hbuf'.trans hbuf⟩
          · rw [hsplit, List.take_append, List.take_of_length_le hle, htake]
          · rw [hsplit, List.drop_append, List.drop_of_length_le hle, hdrop, List.nil_append]
      · next hstop =>
          refine ⟨h, ?_, ?_, rfl, rfl⟩ <;>
          obtain rfl | hs := Nat.eq_zero_or_pos size
          · rfl
          · have hempty := (isEmpty_iff h).mp (by simpa [hs] using hstop)
            simp [hempty]
          · rfl
          · have hempty := (isEmpty_iff h).mp (by simpa [hs] using hstop)
            simp [hempty]

/-! ## writing -/

/-- The bytes a write stores come right behind those already there. -/
theorem slice_copyIn_append (hi : i ≤ cur) (hj : j = cur + bs.length) :
    slice (copyIn buffer cur bs) i j = slice buffer i cur ++ bs := by
  rw [← slice_append hi (by omega), slice_copyIn hj]
  congr 1
  exact slice_congr fun n _ hn => copyIn_of_lt hn

/-- One round of a write puts the first bytes at the back of the queue. -/
theorem writeRound_spec (h : Ok ring) (hfull : ringBufferIsFull ring = false)
    (hb : 0 < buff.length) :
    let r := writeRound buff ring
    Ok r.2 ∧ r.2.contents = ring.contents ++ buff.take r.1 ∧ 0 < r.1 ∧ r.1 ≤ buff.length ∧
      r.2.size = ring.size ∧ ∀ i, ring.size ≤ i → r.2.buffer i = ring.buffer i := by
  have hr := h.readIndex_lt
  have hw := h.writeIndex_lt
  have hempty := h.empty
  obtain ⟨buffer, cap, r, w, empty⟩ := ring
  simp only [ringBufferIsFull] at hr hw hempty hfull
  by_cases hwr : w < r
  · -- the queue wraps, and the free space is the slice from `w` to `r`
    have hne : empty = false := by grind
    have hlen : (buff.take (min (w + buff.length) r - w)).length = min (w + buff.length) r - w := by
      rw [List.length_take]
      omega
    simp only [writeRound, writeSmall, stops_of_lt hwr]
    refine ⟨⟨hr, by simp only; omega, fun h => by cases h⟩, ?_, by omega, by omega, trivial,
      fun i hi => copyIn_of_ge (by omega)⟩
    have hfront : slice (copyIn buffer w (buff.take (min (w + buff.length) r - w))) 0
        (min (w + buff.length) r) = slice buffer 0 w ++ buff.take (min (w + buff.length) r - w) :=
      slice_copyIn_append (Nat.zero_le w) (by omega)
    have hback : slice (copyIn buffer w (buff.take (min (w + buff.length) r - w))) r cap =
        slice buffer r cap := slice_congr fun n hn _ => copyIn_of_ge (by omega)
    simp [contents, hne, show ¬ r < min (w + buff.length) r by omega, show ¬ r < w by omega, hfront,
      hback]
  · -- the free space begins behind `w` and goes on from the start of the buffer
    have hcontents : contents ⟨buffer, cap, r, w, empty⟩ = slice buffer r w := by
      by_cases hrw : r = w
      · have hemp : empty = true := by grind
        simp [contents, hemp, hrw]
      · have hemp : empty = false := by grind
        simp [contents, hemp, show r < w by omega]
    rw [hcontents]
    simp only [writeRound, writeSmall, stops, if_neg hwr]
    by_cases hend : w + buff.length ≥ cap
    · have hlen : (buff.take (cap - w)).length = cap - w := by
        rw [List.length_take]
        omega
      have hslice : slice (copyIn buffer w (buff.take (cap - w))) r cap =
          slice buffer r w ++ buff.take (cap - w) := slice_copyIn_append (by omega) (by omega)
      simp only [if_pos hend]
      refine ⟨⟨hr, by simp only; omega, fun h => by cases h⟩, ?_, by omega, by omega, trivial,
        fun i hi => copyIn_of_ge (by omega)⟩
      simp [contents, hslice]
    · have hlen : (buff.take (w + buff.length - w)).length = buff.length := by
        rw [List.length_take]
        omega
      have hslice : slice (copyIn buffer w (buff.take (w + buff.length - w))) r (w + buff.length) =
          slice buffer r w ++ buff.take (w + buff.length - w) :=
        slice_copyIn_append (by omega) (by omega)
      simp only [if_neg hend]
      refine ⟨⟨hr, by simp only; omega, fun h => by cases h⟩, ?_, by omega, by omega, trivial,
        fun i hi => copyIn_of_ge (by omega)⟩
      rw [← hslice]
      simp [contents, show r < w + buff.length by omega]

/-- A write appends the first bytes of `buff`, as many as there is space for. -/
theorem writeLoop_spec {fuel : ℕ} (h : Ok ring) (hfuel : buff.length ≤ fuel) :
    let r := writeLoop fuel buff ring
    Ok r.2 ∧ r.1 = min buff.length (ring.size - ring.contents.length) ∧
      r.2.contents = ring.contents ++ buff.take r.1 ∧ r.2.size = ring.size ∧
      ∀ i, ring.size ≤ i → r.2.buffer i = ring.buffer i := by
  induction fuel generalizing buff ring with
  | zero =>
      obtain rfl : buff = [] := List.eq_nil_of_length_eq_zero (by omega)
      exact ⟨h, by simp [writeLoop], by simp [writeLoop], rfl, fun _ _ => rfl⟩
  | succ fuel ih =>
      simp only [writeLoop]
      split
      · next hgo =>
          have hfull : ringBufferIsFull ring = false := by simpa using hgo.2
          obtain ⟨hok, hcontents, hpos, hle, hsize, hframe⟩ := writeRound_spec h hfull hgo.1
          have hfuel' : (buff.drop (writeRound buff ring).1).length ≤ fuel := by
            rw [List.length_drop]
            omega
          obtain ⟨hok', hcount, hcontents', hsize', hframe'⟩ := ih hok hfuel'
          have hbound := contents_length_le hok
          have hsum : (writeRound buff ring).2.contents.length =
              ring.contents.length + (writeRound buff ring).1 := by
            rw [hcontents, List.length_append, List.length_take]
            omega
          refine ⟨hok', ?_, ?_, hsize'.trans hsize, fun i hi => ?_⟩
          · rw [hcount, hsum, List.length_drop]
            omega
          · rw [hcontents', hcontents, List.append_assoc, List.take_add]
          · rw [hframe' i (hsize.symm ▸ hi), hframe i hi]
      · next hstop =>
          refine ⟨h, ?_, by simp, rfl, fun _ _ => rfl⟩
          obtain hb | hb := Nat.eq_zero_or_pos buff.length
          · rw [hb, Nat.zero_min]
          · have hfull := (isFull_iff h).mp (by simpa [hb] using hstop)
            rw [hfull, Nat.sub_self, Nat.min_zero]

end Transfer

/-! ## the loops end -/

open Transfer

variable {buffer : ℕ → UInt8} {i j size capacity stop fuel cur : ℕ} {buff : List UInt8}
  {ring : RingBuffer}

theorem indexAdd_eq (h : i + j < 2 ^ 64) : indexAdd i j = i + j := Nat.mod_eq_of_lt h

theorem clampEnd_eq : clampEnd (i + size) capacity i j = stops size capacity i j := rfl

/-- A copy loop that starts at or before its end gets there. -/
theorem copyOutLoop_eq (hcur : cur ≤ stop) (hstop : stop < 2 ^ 64) (hfuel : stop - cur ≤ fuel) :
    copyOutLoop buffer fuel cur stop = some (slice buffer cur stop) := by
  induction fuel generalizing cur with
  | zero =>
      obtain rfl : cur = stop := by omega
      simp [copyOutLoop]
  | succ fuel ih =>
      obtain rfl | hne := eq_or_ne cur stop
      · simp [copyOutLoop]
      · have hlt : cur < stop := by omega
        rw [copyOutLoop, if_pos hne, indexAdd_eq (by omega), ih hlt (by omega), slice_cons hlt,
          Option.map_some]

theorem copyInLoop_eq (hcur : cur ≤ stop) (hstop : stop < 2 ^ 64) (hfuel : stop - cur ≤ fuel)
    (hbuff : stop - cur ≤ buff.length) :
    copyInLoop fuel buffer cur stop buff =
      some (stop - cur, copyIn buffer cur (buff.take (stop - cur))) := by
  induction fuel generalizing buffer cur buff with
  | zero =>
      obtain rfl : cur = stop := by omega
      simp [copyInLoop, copyIn]
  | succ fuel ih =>
      obtain rfl | hne := eq_or_ne cur stop
      · cases buff <;> simp [copyInLoop, copyIn]
      · cases buff with
        | nil =>
            rw [List.length_nil] at hbuff
            omega
        | cons b buff =>
            rw [List.length_cons] at hbuff
            have hsub : stop - cur = stop - (cur + 1) + 1 := by omega
            rw [copyInLoop, if_pos hne, indexAdd_eq (by omega),
              ih (by omega) (by omega) (by omega), hsub, List.take_succ_cons, copyIn,
              Option.map_some]

/-- A copy loop that starts behind its end leaves the buffer. -/
theorem copyOutLoop_eq_none (hcur : stop < cur) (hfuel : cur + fuel < 2 ^ 64) :
    copyOutLoop buffer fuel cur stop = none := by
  induction fuel generalizing cur with
  | zero => rw [copyOutLoop, if_pos (by omega)]
  | succ fuel ih =>
      rw [copyOutLoop, if_pos (by omega), indexAdd_eq (by omega), ih (by omega) (by omega),
        Option.map_none]

theorem copyInLoop_eq_none (hcur : stop < cur) (hfuel : cur + fuel < 2 ^ 64) :
    copyInLoop fuel buffer cur stop buff = none := by
  have hne : cur ≠ stop := by omega
  induction fuel generalizing buffer cur buff with
  | zero => simp [copyInLoop, hne]
  | succ fuel ih =>
      cases buff with
      | nil => simp [copyInLoop, hne]
      | cons b buff =>
          rw [copyInLoop, if_pos hne, indexAdd_eq (by omega),
            ih (by omega) (by omega) (by omega), Option.map_none]

/-- An end that has wrapped is in front of the start, and stays there. -/
theorem clampEnd_lt (hi : i < capacity) (hcap : capacity < 2 ^ 64) (hwrap : 2 ^ 64 ≤ i + size)
    (hsize : size < 2 ^ 64) :
    clampEnd (indexAdd i size) capacity i j = (i + size - 2 ^ 64, i + size - 2 ^ 64) := by
  have hsum : indexAdd i size = i + size - 2 ^ 64 := by
    unfold indexAdd
    omega
  rw [hsum, clampEnd]
  split
  · rw [if_neg (by omega)]
  · rw [if_neg (by omega)]

theorem ringBufferReadSmall_eq (h : Ok ring) (hsize : ring.size < 2 ^ 64)
    (hfit : ring.readIndex + size < 2 ^ 64) :
    ringBufferReadSmall size ring = some (readSmall size ring) := by
  obtain ⟨hle, hcap, -⟩ := stops_bounds size h.readIndex_lt h.writeIndex_lt
  simp only [ringBufferReadSmall, readSmall, indexAdd_eq hfit, clampEnd_eq]
  rw [copyOutLoop_eq hle (by omega) (by omega), Option.map_some]

theorem ringBufferWriteSmall_eq (h : Ok ring) (hsize : ring.size < 2 ^ 64)
    (hfit : ring.writeIndex + buff.length < 2 ^ 64) :
    ringBufferWriteSmall buff ring = some (writeSmall buff ring) := by
  obtain ⟨hle, hcap, hstop⟩ :=
    stops_bounds buff.length h.writeIndex_lt h.readIndex_lt
  simp only [ringBufferWriteSmall, writeSmall, indexAdd_eq hfit, clampEnd_eq]
  rw [copyInLoop_eq hle (by omega) (by omega) (by omega), Option.map_some]

/-- The loops of a read end, with the bytes and the ring the transfers give. -/
theorem ringBufferReadLoop_eq (h : Ok ring) (hcap : ring.size < 2 ^ 64)
    (hfit : ring.readIndex + size < 2 ^ 64) (hfuel : size ≤ fuel) :
    ringBufferReadLoop fuel size ring = some (readLoop fuel size ring) := by
  induction fuel generalizing size ring with
  | zero =>
      obtain rfl : size = 0 := by omega
      rfl
  | succ fuel ih =>
      by_cases hgo : 0 < size ∧ !ringBufferIsEmpty ring
      · have hne : ring.empty = false := by simpa [ringBufferIsEmpty] using hgo.2
        obtain ⟨hok, -, hpos, -, hsize, -⟩ := readRound_spec h hne hgo.1
        have hfits := stops_fits (j := ring.writeIndex) h.readIndex_lt hfit
        have hindex : (readRound size ring).2.readIndex +
            (size - (readRound size ring).1.length) < 2 ^ 64 := by
          rw [readRound_readIndex]
          simpa [readRound, readSmall] using hfits
        have hrest := ih hok (by omega) hindex (by omega)
        simp only [readRound] at hrest
        simp only [ringBufferReadLoop, readLoop, if_pos hgo, ringBufferReadSmall_eq h hcap hfit,
          readRound, Option.bind_eq_bind, Option.bind_some, hrest, Option.pure_def]
      · simp only [ringBufferReadLoop, readLoop, if_neg hgo]

/-- The loops of a write end, with the count and the ring the transfers give. -/
theorem ringBufferWriteLoop_eq (h : Ok ring) (hcap : ring.size < 2 ^ 64)
    (hfit : ring.writeIndex + buff.length < 2 ^ 64) (hfuel : buff.length ≤ fuel) :
    ringBufferWriteLoop fuel buff ring = some (writeLoop fuel buff ring) := by
  induction fuel generalizing buff ring with
  | zero =>
      obtain rfl : buff = [] := List.eq_nil_of_length_eq_zero (by omega)
      rfl
  | succ fuel ih =>
      by_cases hgo : 0 < buff.length ∧ !ringBufferIsFull ring
      · have hfull : ringBufferIsFull ring = false := by simpa using hgo.2
        obtain ⟨hok, -, hpos, -, hsize, -⟩ := writeRound_spec h hfull hgo.1
        have hfits := stops_fits (j := ring.readIndex) h.writeIndex_lt hfit
        have hlen := List.length_drop (i := (writeRound buff ring).1) (l := buff)
        have hindex : (writeRound buff ring).2.writeIndex +
            (buff.drop (writeRound buff ring).1).length < 2 ^ 64 := by
          rw [hlen]
          exact hfits
        have hrest := ih hok (by omega) hindex (by omega)
        simp only [writeRound] at hrest
        simp only [ringBufferWriteLoop, writeLoop, if_pos hgo,
          ringBufferWriteSmall_eq h hcap hfit, writeRound, Option.bind_eq_bind,
          Option.bind_some, hrest, Option.pure_def]
      · simp only [ringBufferWriteLoop, writeLoop, if_neg hgo]

/-- **`RingBufferRead`** takes the oldest bytes, as many as there are and are
asked for. -/
theorem ringBufferRead_spec (h : Ok ring) (hcap : ring.size < 2 ^ 64)
    (hfit : ring.readIndex + size < 2 ^ 64) :
    ∃ bytes ring', ringBufferRead size ring = some (bytes, ring') ∧ Ok ring' ∧
      bytes = ring.contents.take size ∧ ring'.contents = ring.contents.drop size ∧
      ring'.size = ring.size ∧ ring'.buffer = ring.buffer :=
  ⟨_, _, ringBufferReadLoop_eq h hcap hfit (Nat.le_refl size), readLoop_spec h (Nat.le_refl size)⟩

/-- **`RingBufferWrite`** appends the first bytes of `buff`, as many as there is
space for. -/
theorem ringBufferWrite_spec (h : Ok ring) (hcap : ring.size < 2 ^ 64)
    (hfit : ring.writeIndex + buff.length < 2 ^ 64) :
    ∃ count ring', ringBufferWrite buff ring = some (count, ring') ∧ Ok ring' ∧
      count = min buff.length (ring.size - ring.contents.length) ∧
      ring'.contents = ring.contents ++ buff.take count ∧ ring'.size = ring.size ∧
      ∀ i, ring.size ≤ i → ring'.buffer i = ring.buffer i :=
  ⟨_, _, ringBufferWriteLoop_eq h hcap hfit (Nat.le_refl _), writeLoop_spec h (Nat.le_refl _)⟩

/-- A request that makes the index wrap does not come back. -/
theorem ringBufferRead_eq_none (h : Ok ring) (hcap : ring.size < 2 ^ 64) (hsize : size < 2 ^ 64)
    (hne : ringBufferIsEmpty ring = false) (hwrap : 2 ^ 64 ≤ ring.readIndex + size) :
    ringBufferRead size ring = none := by
  have hr := h.readIndex_lt
  obtain ⟨n, rfl⟩ : ∃ n, size = n + 1 := ⟨size - 1, by omega⟩
  have hsmall : ringBufferReadSmall (n + 1) ring = none := by
    rw [ringBufferReadSmall, clampEnd_lt hr hcap hwrap hsize,
      copyOutLoop_eq_none (by omega) (by omega), Option.map_none]
  rw [ringBufferRead, ringBufferReadLoop, if_pos ⟨Nat.succ_pos n, by simp [hne]⟩, hsmall]
  rfl

theorem ringBufferWrite_eq_none (h : Ok ring) (hcap : ring.size < 2 ^ 64)
    (hsize : buff.length < 2 ^ 64) (hne : ringBufferIsFull ring = false)
    (hwrap : 2 ^ 64 ≤ ring.writeIndex + buff.length) : ringBufferWrite buff ring = none := by
  have hw := h.writeIndex_lt
  obtain ⟨n, hn⟩ : ∃ n, buff.length = n + 1 := ⟨buff.length - 1, by omega⟩
  have hsmall : ringBufferWriteSmall buff ring = none := by
    rw [ringBufferWriteSmall, clampEnd_lt hw hcap hwrap hsize,
      copyInLoop_eq_none (by omega) (by omega), Option.map_none]
  rw [ringBufferWrite, hn, ringBufferWriteLoop, if_pos ⟨by omega, by simp [hne]⟩, hsmall]
  rfl

end KernelPanic
