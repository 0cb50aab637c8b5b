import KernelPanic.Kernel.Minilisp.Markers

/-!
# KernelPanic.Kernel.Minilisp.Output

What the interpreter sends on the serial port.

`lisp_printf` is called by the collector, for a line when `debug_gc` is set, and by the
printer; both go to the port, in the order of the calls (`sent`).  The lines depend on the
heap.  Without `debug_gc` there are none, and what is sent is what the program writes.
-/

namespace KernelPanic.Minilisp

open Machine Prog

/-- `debug_gc` is off, still, and the collector has printed nothing. -/
def Silent (s s' : State) : Prop :=
  s.block.debugGc = false → s'.block.debugGc = false ∧ s'.printed = s.printed

/-! ## the collector -/

section silent

variable {c : Statics} {s s' s'' : State} {root root' : Frames} {p obj fuel n : ℕ}

theorem Silent.refl : Silent s s := fun h => ⟨h, rfl⟩

/-- Neither the flag nor the lines have changed. -/
theorem Silent.of_eq (hdebug : s'.block.debugGc = s.block.debugGc) (hprinted : s'.printed = s.printed) :
    Silent s s' := fun hoff => ⟨hdebug.trans hoff, hprinted⟩

/-- One part of the collector after the other. -/
theorem Silent.trans (h : Silent s s') (h' : Silent s' s'') : Silent s s'' := fun hoff =>
  ⟨(h' (h hoff).1).1, (h' (h hoff).1).2.trans (h hoff).2⟩

/-- An object is copied. -/
theorem forward_silent (h : forward s obj = .ok (s', p)) : Silent s s' := by
  simp only [forward] at h
  split_ifs at h
  · cases h
    exact .refl
  · split at h
    · cases h
    · split at h <;> cases h <;> exact .refl

/-- A slot is updated. -/
theorem forwardSlot_silent (h : forwardSlot s obj = .ok (s', p)) : Silent s s' := by
  rw [forwardSlot] at h
  split_ifs at h
  · cases h
    exact .refl
  · exact forward_silent h

theorem forwardFrame_silent {frame frame' : List ℕ} (h : forwardFrame s frame = .ok (s', frame')) :
    Silent s s' := by
  induction frame generalizing s frame' with
  | nil => cases h; exact .refl
  | cons slot slots ih =>
      obtain ⟨⟨s₁, slot'⟩, hslot, h⟩ := Except.bind_eq_ok h
      obtain ⟨⟨s₂, slots'⟩, hslots, h⟩ := Except.bind_eq_ok h
      cases h
      exact (forwardSlot_silent hslot).trans (ih hslots)

theorem forwardFrames_silent (h : forwardFrames s root = .ok (s', root')) : Silent s s' := by
  induction root generalizing s root' with
  | nil => cases h; exact .refl
  | cons frame frames ih =>
      obtain ⟨⟨s₁, frame'⟩, hframe, h⟩ := Except.bind_eq_ok h
      obtain ⟨⟨s₂, frames'⟩, hframes, h⟩ := Except.bind_eq_ok h
      cases h
      exact (forwardFrame_silent hframe).trans (ih hframes)

/-- The roots are updated. -/
theorem forwardRootObjects_silent (h : forwardRootObjects s root = .ok (s', root')) :
    Silent s s' := by
  rw [forwardRootObjects] at h
  obtain ⟨⟨s₁, symbols⟩, hsymbols, h⟩ := Except.bind_eq_ok h
  have hframes := forwardFrames_silent h
  exact (forward_silent hsymbols).trans (.trans (.of_eq rfl rfl) hframes)

theorem forwardField_silent {f : Field} (h : forwardField s f = .ok s') : Silent s s' := by
  rw [forwardField] at h
  split at h
  · cases h
  · split at h
    · cases h
    · obtain ⟨⟨s₁, q⟩, hforward, h⟩ := Except.bind_eq_ok h
      simp only at h
      split at h
      · cases h
      · cases h
        exact (forward_silent hforward).trans (.of_eq rfl rfl)

/-- The members of an object are updated. -/
theorem forwardFields_silent {fs : List Field} (h : forwardFields s fs = .ok s') : Silent s s' := by
  induction fs generalizing s with
  | nil => cases h; exact .refl
  | cons f fs ih =>
      obtain ⟨s₁, hfield, h⟩ := Except.bind_eq_ok h
      exact (forwardField_silent hfield).trans (ih h)

/-- An object of the new space is scanned. -/
theorem scanObject_silent (h : scanObject s = .ok s') : Silent s s' := by
  rw [scanObject] at h
  split at h
  · cases h
  · split at h
    · cases h
    · obtain ⟨s₁, hfields, h⟩ := Except.bind_eq_ok h
      split at h
      · cases h
      · cases h
        exact (forwardFields_silent hfields).trans (.of_eq rfl rfl)

/-- The loop of the collector, by induction on its turns. -/
theorem scan_silent (h : scan fuel s = .ok s') : Silent s s' := by
  induction fuel generalizing s with
  | zero => cases h
  | succ fuel ih =>
      rw [scan] at h
      split_ifs at h
      · obtain ⟨s₁, hobject, h⟩ := Except.bind_eq_ok h
        exact (scanObject_silent hobject).trans (ih h)
      · cases h
        exact .refl

/-- **A collection prints nothing** without `debug_gc`. -/
theorem gc_silent (h : gc fuel s root = .ok (s', root')) : Silent s s' := by
  rw [gc] at h
  split_ifs at h
  obtain ⟨⟨s₁, root₁⟩, hroots, h⟩ := Except.bind_eq_ok h
  obtain ⟨s₂, hscan, h⟩ := Except.bind_eq_ok h
  cases h
  have hswap : Silent s s.swapHeaps := .of_eq rfl rfl
  have hfinish : Silent s₂ s₂.finishGc := fun hoff => ⟨hoff, by simp [State.finishGc, hoff]⟩
  exact ((hswap.trans (forwardRootObjects_silent hroots)).trans (scan_silent hscan)).trans hfinish

/-- The end of `alloc`. -/
theorem take_silent (hs : Silent s s')
    (h : (if s'.block.memorySize < s'.block.memNused + n then
        throw (Fault.error "Memory exhausted")
      else return (s'.take n, root', s'.block.memory + s'.block.memNused) :
        Except Fault (State × Frames × ℕ)) = .ok (s'', root, p)) : Silent s s'' := by
  split_ifs at h
  cases h
  exact hs.trans (.of_eq rfl rfl)

/-- An allocation collects, or does not. -/
theorem alloc_silent (h : alloc s root n = .ok (s', root', p)) : Silent s s' := by
  rw [alloc] at h
  simp only at h
  split at h
  · obtain ⟨⟨s₁, root₁⟩, hgc, h⟩ := Except.bind_eq_ok h
    have hs₁ : Silent s s₁ := gc_silent hgc
    simp only at h
    split at h
    · obtain ⟨⟨s₂, root₂⟩, hgc, h⟩ := Except.bind_eq_ok h
      exact take_silent (hs₁.trans (gc_silent hgc)) h
    · obtain ⟨⟨s₂, root₂⟩, hpure, h⟩ := Except.bind_eq_ok h
      cases hpure
      exact take_silent hs₁ h
  · obtain ⟨⟨s₁, root₁⟩, hpure, h⟩ := Except.bind_eq_ok h
    cases hpure
    simp only at h
    split at h
    · obtain ⟨⟨s₂, root₂⟩, hgc, h⟩ := Except.bind_eq_ok h
      exact take_silent (gc_silent hgc) h
    · obtain ⟨⟨s₂, root₂⟩, hpure, h⟩ := Except.bind_eq_ok h
      cases hpure
      exact take_silent .refl h

/-- An object is made. -/
theorem make_silent {req : Request} (h : make c s root req = .ok (s', root', p)) : Silent s s' := by
  obtain ⟨⟨s₁, root₁, q⟩, halloc, h⟩ := Except.bind_eq_ok h
  cases h
  exact (alloc_silent halloc).trans (.of_eq rfl rfl)

end silent

/-! ## the serial port -/

section port

variable {α β : Type} {c : Statics} {m m' : Machine State} {i : Machine Ideal} {o : Op β} {x : β}
  {p : Code α}

/-- **No operation** makes the collector print, without `debug_gc`. -/
theorem handle_silent (h : handle (concrete c) c o m = .ok (x, m')) : Silent m.heap m'.heap := by
  cases o with
  | deref r => cases h; exact .refl
  | assign r q =>
      obtain ⟨a, -, h⟩ := Except.bind_eq_ok h
      cases r with
      | slot depth j => cases h; exact .refl
      | symbols =>
          simp only at h
          split at h
          · cases h
          · cases h
            exact .of_eq rfl rfl
      | nil => cases h
      | constTrue => cases h
  | look q view =>
      obtain ⟨a, -, h⟩ := Except.bind_eq_ok h
      obtain ⟨payload, -, h⟩ := Except.bind_eq_ok h
      split at h <;> cases h
      exact .refl
  | load q f =>
      obtain ⟨a, -, h⟩ := Except.bind_eq_ok h
      obtain ⟨payload, -, h⟩ := Except.bind_eq_ok h
      split at h <;> cases h
      exact .refl
  | store q f q' =>
      obtain ⟨a, -, h⟩ := Except.bind_eq_ok h
      obtain ⟨a', -, h⟩ := Except.bind_eq_ok h
      obtain ⟨payload, -, h⟩ := Except.bind_eq_ok h
      split at h
      · cases h
        exact .of_eq rfl rfl
      · split at h <;> cases h
        exact .refl
  | same q q' =>
      obtain ⟨a, -, h⟩ := Except.bind_eq_ok h
      obtain ⟨a', -, h⟩ := Except.bind_eq_ok h
      cases h
      exact .refl
  | make req =>
      obtain ⟨⟨s, frames, a⟩, hmake, h⟩ := Except.bind_eq_ok h
      cases h
      exact make_silent hmake
  | push n => cases h; exact .refl
  | pop => cases h; exact .refl
  | io f =>
      obtain ⟨r, -, h⟩ := Except.bind_eq_ok h
      cases h
      exact .refl

/-- What an operation sends: the line of a collection, or what the program writes. -/
def sends (m m' : Machine State) : List UInt8 :=
  (m'.heap.printed.drop m.heap.printed.length).flatMap chars ++
    m'.world.output.drop m.world.output.length

/-- What the program writes. -/
def writes (i i' : Machine Ideal) : List UInt8 := i'.world.output.drop i.world.output.length

/-- **What a run sends** on the serial port. -/
def sent (c : Statics) (p : Code α) (m : Machine State) : List UInt8 :=
  (p.run (observe (handle (concrete c) c) sends) (m, [])).2.2

/-- Without `debug_gc`, what is sent is what is written on a heap without a collector. -/
theorem observe_sim (c : Statics) :
    Prog.Simulates (observe (handle (ideal c) c) writes) (observe (handle (concrete c) c) sends)
      (fun e => ∃ a, e = .badAccess a) (· = .error "Memory exhausted")
      fun x y => (Related c x.1 y.1 ∧ y.1.heap.block.debugGc = false) ∧ x.2 = y.2 := by
  refine ((handle_sim c).keep fun β o m x m' hoff h => (handle_silent h hoff).1).observe ?_
  intro β o x i m i' m' hs hs' h
  obtain ⟨objs, D, ρ, hsim⟩ := hs.1
  obtain ⟨objs', D', ρ', hsim'⟩ := hs'.1
  simp [sends, writes, (handle_silent h hs.2).2, hsim.world, hsim'.world]

/-- The same is sent on every heap. -/
theorem sent_agree (hrel : Related c i m) (hoff : m.heap.block.debugGc = false)
    (hgood : ∀ a, (p.run (handle (ideal c) c) i).1 ≠ .error (.badAccess a)) :
    (p.run (handle (concrete c) c) m).1 = .error (.error "Memory exhausted") ∨
      sent c p m = (p.run (observe (handle (ideal c) c) writes) (i, [])).2.2 := by
  have hstart : (Related c (i, ([] : List UInt8)).1 (m, ([] : List UInt8)).1 ∧
      m.heap.block.debugGc = false) ∧ (i, ([] : List UInt8)).2 = (m, ([] : List UInt8)).2 :=
    ⟨⟨hrel, hoff⟩, rfl⟩
  rcases run_sim (observe_sim c) p hstart with
    ⟨e, he, a, rfl⟩ | ⟨e, x, he, rfl, -⟩ | ⟨-, -, hsame⟩
  · exact absurd ((run_observe p i []).1 ▸ he) (hgood a)
  · exact .inl ((run_observe p m []).1 ▸ he)
  · exact .inr hsame.symm

end port

end KernelPanic.Minilisp
