import KernelPanic.Kernel.Minilisp.Machine

/-!
# KernelPanic.Kernel.Minilisp.Simulation

Code that never uses a stale handle cannot tell the two kinds of heap apart.

`Sim` relates a heap in which objects never move to one that is collected: `ρ` takes
the objects of `D`, which are closed under pointers and hold everything that can be
reached, to their present addresses.  A collection changes `ρ`, and forgets what only
stale handles could reach.  Each operation keeps the relation (`handle_sim`), so every
program does (`run_agree`), whenever the collector runs.
-/

namespace KernelPanic.Minilisp

open Machine

/-! ## renaming pointers -/

namespace Payload

variable {σ τ : ℕ → ℕ} {payload : Payload} {f : Field} {p : ℕ}

/-- One renaming after another. -/
@[simp] theorem mapPointers_mapPointers :
    (payload.mapPointers σ).mapPointers τ = payload.mapPointers (τ ∘ σ) := by
  cases payload <;> rfl

/-- What is no pointer is not renamed. -/
@[simp] theorem erase_mapPointers : (payload.mapPointers σ).erase = payload.erase := by
  cases payload <;> rfl

@[simp] theorem type_mapPointers : (payload.mapPointers σ).type = payload.type := by
  cases payload <;> rfl

/-- A member is renamed with its object. -/
@[simp] theorem field_mapPointers :
    (payload.mapPointers σ).field f = (payload.field f).map σ := by
  cases payload <;> cases f <;> rfl

/-- An assignment to a member, renamed. -/
theorem setField_mapPointers :
    (payload.mapPointers σ).setField (σ p) f = (payload.setField p f).mapPointers σ := by
  cases payload <;> cases f <;> rfl

/-- A member that is a pointer is one of the pointers. -/
theorem mem_pointers_of_field (h : payload.field f = some p) : p ∈ payload.pointers := by
  cases payload <;> cases f <;> simp_all [field, pointers]

/-- An assignment brings no pointer but its own. -/
theorem pointers_setField {q : ℕ} (h : q ∈ (payload.setField p f).pointers) :
    q = p ∨ q ∈ payload.pointers := by
  cases payload <;> cases f <;> simp_all [setField, pointers] <;> grind

theorem scanned_setField : (payload.setField p f).scanned = payload.scanned := by
  cases payload <;> cases f <;> rfl

/-- A constant has no pointers. -/
theorem mapPointers_of_isConst (h : payload.IsConst) : payload.mapPointers σ = payload := by
  cases payload <;> simp_all [IsConst, mapPointers]

theorem isConst_mapPointers : (payload.mapPointers σ).IsConst ↔ payload.IsConst := by
  cases payload <;> simp [IsConst, mapPointers]

end Payload

/-! ## frames -/

section frames

variable {root : Frames} {depth i p : ℕ} {σ : ℕ → ℕ}

/-- Frames are renamed slot by slot. -/
theorem Frames.frame_map : Frames.frame (root.map (List.map σ)) depth = (root.frame depth).map σ := by
  simp only [Frames.frame, ← List.map_reverse, List.getElem?_map]
  cases root.reverse[depth]? <;> rfl

/-- What a variable holds is renamed with the frames. -/
theorem deref_map {c : Statics} {symbols : ℕ} {r : Ref} (hnull : σ null = null)
    (hstatic : ∀ a ∈ c.addresses, σ a = a) :
    deref c (σ symbols) (root.map (List.map σ)) r = σ (deref c symbols root r) := by
  cases r with
  | slot depth i =>
      simp only [deref, Frames.frame_map, List.getElem?_map]
      cases (root.frame depth)[i]? with
      | none => exact hnull.symm
      | some p => rfl
  | nil => exact (hstatic c.constNil (by simp)).symm
  | constTrue => exact (hstatic c.constTrue (by simp)).symm
  | symbols => rfl

/-- An assignment to a slot, renamed. -/
theorem Frames.set_map :
    Frames.set (root.map (List.map σ)) depth i (σ p) = (root.set depth i p).map (List.map σ) := by
  have hmodify : (root.reverse.map (List.map σ)).modify depth (·.set i (σ p)) =
      (root.reverse.modify depth (·.set i p)).map (List.map σ) := by
    refine List.ext_getElem? fun j => ?_
    rw [List.getElem?_modify, List.getElem?_map, List.getElem?_map, List.getElem?_modify]
    cases root.reverse[j]? with
    | none => rfl
    | some frame => by_cases hj : depth = j <;> simp [hj, List.map_set]
  simp only [Frames.set, ← List.map_reverse, hmodify]

/-- What a slot holds after an assignment is what was assigned, or was held before. -/
theorem Frames.mem_set {frame : List ℕ} {q : ℕ} (hframe : frame ∈ Frames.set root depth i p)
    (hq : q ∈ frame) : q = p ∨ ∃ frame ∈ root, q ∈ frame := by
  obtain ⟨j, hj⟩ := List.mem_iff_getElem?.mp (List.mem_reverse.mp hframe)
  rw [List.getElem?_modify] at hj
  obtain ⟨old, hold, rfl⟩ := Option.map_eq_some_iff.mp hj
  have hmem : old ∈ root := List.mem_reverse.mp (List.mem_of_getElem? hold)
  split at hq
  · exact (List.mem_or_eq_of_mem_set hq).symm.imp id fun hq => ⟨old, hmem, hq⟩
  · exact .inr ⟨old, hmem, hq⟩

end frames

/-! ## an assignment to a member -/

section store

variable {c : Statics} {s : State} {root : Frames} {objs : List ℕ} {a p : ℕ} {payload : Payload}
  {f : Field}

/-- A member is assigned in place: the size stays, and so do the other objects. -/
theorem concrete_write_mem (h : WellFormed c s root objs) (ha : a ∈ objs)
    (hbytes : payload.bytes = (payloadAt s.mem a).bytes) :
    ((concrete c).write s a payload).mem a = some ⟨sizeAt s.mem a, payload⟩ ∧
      (∀ b ∈ objs, b ≠ a → ((concrete c).write s a payload).mem b = s.mem b) ∧
      ∀ x o, (x, o) ∈ c.objects → ((concrete c).write s a payload).mem x = some o := by
  have hsize : Obj.bytes ⟨sizeAt s.mem a, payload⟩ = sizeAt s.mem a :=
    OldSpace.bytes_eq (k := h.oldSpace) ha (hbytes ▸ le_max_right ..)
  have hbounds := h.tiles.bounds ha
  refine ⟨Memory.write_self, fun b hb hne => ?_, fun x o hx => ?_⟩
  · obtain ⟨q, hq, hqreg⟩ := h.regular b hb
    rw [hq]
    refine Memory.write_of_disjoint hq ?_
    rw [Outside, hsize, hqreg.bytes_eq, ← sizeAt_of_some hq]
    exact h.tiles.disjoint hb ha hne
  · obtain ⟨hmem, hcur, -⟩ := h.statics x o hx
    refine Memory.write_of_disjoint hmem ?_
    have hused := h.used
    have hcurrent := h.current
    rw [Outside] at hcur ⊢
    rw [hsize]
    simp only [id] at hbounds
    omega

/-- The heap stays well formed when the pointer assigned is one of its own. -/
theorem WellFormed.store (h : WellFormed c s root objs) (ha : a ∈ objs)
    (hp : p = null ∨ p ∈ objs ∨ p ∈ c.addresses) :
    WellFormed c ((concrete c).write s a ((payloadAt s.mem a).setField p f)) root objs := by
  obtain ⟨hself, hother, hstatics⟩ :=
    concrete_write_mem h ha (Payload.bytes_setField (p := p) (f := f))
  have hsizes : ∀ b ∈ objs, sizeAt ((concrete c).write s a ((payloadAt s.mem a).setField p f)).mem b =
      sizeAt s.mem b := by
    intro b hb
    by_cases hne : b = a
    · rw [hne, sizeAt_of_some hself]
    · rw [sizeAt, hother b hb hne, sizeAt]
  refine { h with tiles := ?_, regular := fun b hb => ?_, pointers := fun b hb q hq => ?_, statics := ?_ }
  · exact h.tiles.congr (fun _ _ => rfl) hsizes
  · by_cases hne : b = a
    · subst hne
      refine ⟨_, hself, ?_, ?_⟩
      · rw [Payload.scanned_setField]
        exact (OldSpace.isRegular (k := h.oldSpace) hb).1
      · rw [Payload.bytes_setField]
        exact (OldSpace.isRegular (k := h.oldSpace) hb).2
    · obtain ⟨o, ho, hreg⟩ := h.regular b hb
      exact ⟨o, (hother b hb hne).trans ho, hreg⟩
  · by_cases hne : b = a
    · subst hne
      rw [payloadAt_of_some hself] at hq
      rcases Payload.pointers_setField hq with rfl | hq
      · exact hp
      · exact h.pointers b hb q hq
    · rw [payloadAt, hother b hb hne] at hq
      exact h.pointers b hb q hq
  · exact fun x o hx => ⟨hstatics x o hx, (h.statics x o hx).2⟩

end store

/-! ## the relation -/

/-- A pointer to an object of `D`, to a static one, or NULL. -/
def Known (c : Statics) (D : Set ℕ) (a : ℕ) : Prop := a ∈ D ∨ Fixed c a

/-- Under `ρ` the objects of `D` are objects of the concrete heap. -/
structure Sim (c : Statics) (objs : List ℕ) (D : Set ℕ) (ρ : ℕ → ℕ) (i : Machine Ideal)
    (m : Machine State) : Prop where
  wellFormed : WellFormed c m.heap m.frames objs
  fixed : ∀ a, Fixed c a → ρ a = a
  injOn : Set.InjOn ρ D
  object : ∀ a ∈ D, ρ a ∈ objs ∧ ∃ payload, i.heap.read a = some payload ∧
    (concrete c).read m.heap (ρ a) = some (payload.mapPointers ρ) ∧
    ∀ p ∈ payload.pointers, Known c D p
  constant : ∀ x o, (x, o) ∈ c.objects → i.heap.read x = some o.payload
  null : i.heap.read null = none
  next : ∀ a, Known c D a → a < i.heap.next
  symbols : Known c D i.heap.symbols ∧ i.heap.symbols ≠ Minilisp.null ∧
    m.heap.block.symbols = ρ i.heap.symbols
  frames : m.frames = i.frames.map (List.map ρ)
  slots : ∀ frame ∈ i.frames, ∀ a ∈ frame, Known c D a
  age : m.table.old.length = i.table.old.length
  length : m.table.all.length = i.table.all.length
  handles : ∀ n a, i.table.all[n]? = some a → i.table.old.length ≤ n ∨ Fixed c a →
    Known c D a ∧ m.table.all[n]? = some (ρ a)
  world : m.world = i.world

/-- The machines are related in some way. -/
def Related (c : Statics) (i : Machine Ideal) (m : Machine State) : Prop :=
  ∃ objs D ρ, Sim c objs D ρ i m

section sim

variable {c : Statics} {objs : List ℕ} {D : Set ℕ} {ρ : ℕ → ℕ} {i : Machine Ideal}
  {m : Machine State} {a b p q : ℕ} {payload : Payload} {x : Ptr}

/-- An object of the heap is neither NULL nor static. -/
theorem WellFormed.not_fixed {s : State} {root : Frames} (h : WellFormed c s root objs)
    (ha : a ∈ objs) : ¬ Fixed c a := by
  have hin : s.block.InSpace a := OldSpace.inside (k := h.oldSpace) ha
  rintro (rfl | hstatic)
  · exact OldSpace.not_inside_null (k := h.oldSpace) hin
  · exact h.not_inSpace_of_mem hstatic hin

namespace Sim

theorem not_fixed (h : Sim c objs D ρ i m) (ha : a ∈ D) : ¬ Fixed c a := by
  intro hfixed
  have hobj := (h.object a ha).1
  rw [h.fixed a hfixed] at hobj
  exact h.wellFormed.not_fixed hobj hfixed

/-- `ρ` keeps different pointers apart. -/
theorem inj (h : Sim c objs D ρ i m) (ha : Known c D a) (hb : Known c D b) : ρ a = ρ b ↔ a = b := by
  refine ⟨fun heq => ?_, congrArg ρ⟩
  rcases ha with ha | ha <;> rcases hb with hb | hb
  · exact h.injOn ha hb heq
  · exact absurd (h.fixed b hb ▸ heq ▸ (h.object a ha).1 : b ∈ objs) fun hobj =>
      h.wellFormed.not_fixed hobj hb
  · exact absurd (h.fixed a ha ▸ heq.symm ▸ (h.object b hb).1 : a ∈ objs) fun hobj =>
      h.wellFormed.not_fixed hobj ha
  · rw [← h.fixed a ha, heq, h.fixed b hb]

/-- The image of a pointer that is known points to something. -/
theorem known_map (h : Sim c objs D ρ i m) (ha : Known c D a) :
    ρ a = Minilisp.null ∨ ρ a ∈ objs ∨ ρ a ∈ c.addresses := by
  rcases ha with ha | ha
  · exact .inr (.inl (h.object a ha).1)
  · rw [h.fixed a ha]
    exact ha.imp id .inr

/-- At a static address there is a constant. -/
theorem static_mem {x : ℕ} (hx : x ∈ c.addresses) : ∃ o, (x, o) ∈ c.objects ∧ o.payload.IsConst := by
  obtain ⟨⟨y, o⟩, hmem, rfl⟩ := List.mem_map.mp hx
  refine ⟨o, hmem, ?_⟩
  simp only [Statics.objects, List.mem_cons, Prod.mk.injEq, List.not_mem_nil, or_false] at hmem
  rcases hmem with ⟨-, rfl⟩ | ⟨-, rfl⟩ | ⟨-, rfl⟩ | ⟨-, rfl⟩ <;> simp [Payload.IsConst]

/-- What is read at an address is read, renamed, at its image. -/
theorem read (h : Sim c objs D ρ i m) (ha : Known c D a) (hread : i.heap.read a = some payload) :
    (concrete c).read m.heap (ρ a) = some (payload.mapPointers ρ) ∧
      (∀ p ∈ payload.pointers, Known c D p) ∧ (payload.IsConst ∨ a ∈ D) := by
  rcases ha with ha | rfl | ha
  · obtain ⟨-, payload', hread', hmem, hpointers⟩ := h.object a ha
    rw [hread, Option.some.injEq] at hread'
    subst hread'
    exact ⟨hmem, hpointers, .inr ha⟩
  · rw [h.null] at hread
    cases hread
  · obtain ⟨o, hx, hconst⟩ := static_mem ha
    rw [h.constant a o hx, Option.some.injEq] at hread
    subst hread
    rw [h.fixed a (.inr ha), Payload.mapPointers_of_isConst hconst]
    refine ⟨?_, fun p hp => ?_, .inl hconst⟩
    · exact congrArg (Option.map Obj.payload) (h.wellFormed.statics a o hx).1
    · cases hpayload : o.payload <;> simp_all [Payload.IsConst, Payload.pointers]

/-- A variable that may be used holds the image of what it holds on the other side. -/
theorem address (h : Sim c objs D ρ i m) (hx : i.address (ideal c) c x = .ok a) :
    Known c D a ∧ m.address (concrete c) c x = .ok (ρ a) := by
  have hstatic : ∀ a, Fixed c a → Known c D a ∧ (.ok a : Except Fault ℕ) = .ok (ρ a) :=
    fun a ha => ⟨.inr ha, by rw [h.fixed a ha]⟩
  cases x with
  | var n =>
      simp only [Machine.address, Handles.address] at hx ⊢
      cases hn : i.table.all[n]? with
      | none => simp [hn] at hx
      | some b =>
          simp only [hn, ideal, Bool.true_and] at hx
          split at hx
          · cases hx
          · rename_i hfresh
            cases hx
            have husable : i.table.old.length ≤ n ∨ Fixed c a := by
              simpa [not_and_or, imp_iff_not_or] using hfresh
            obtain ⟨hknown, hm⟩ := h.handles n a hn husable
            exact ⟨hknown, by simp [hm, concrete]⟩
  | null => cases hx; exact hstatic _ (.inl rfl)
  | nil => cases hx; exact hstatic _ (.inr (by simp))
  | constTrue => cases hx; exact hstatic _ (.inr (by simp))
  | dot => cases hx; exact hstatic _ (.inr (by simp))
  | cparen => cases hx; exact hstatic _ (.inr (by simp))

/-- An object that is found is found, renamed, on the other side. -/
theorem fetch (h : Sim c objs D ρ i m) (ha : Known c D a)
    (hfetch : i.fetch (ideal c) a = .ok payload) :
    m.fetch (concrete c) (ρ a) = .ok (payload.mapPointers ρ) ∧
      (∀ p ∈ payload.pointers, Known c D p) ∧ (payload.IsConst ∨ a ∈ D) := by
  simp only [Machine.fetch] at hfetch ⊢
  cases hread : (ideal c).read i.heap a with
  | none => simp [hread] at hfetch
  | some payload' =>
      simp only [hread, Except.ok.injEq] at hfetch
      subst hfetch
      obtain ⟨hmem, hpointers, hmember⟩ := h.read ha hread
      exact ⟨by rw [hmem], hpointers, hmember⟩

/-- The pointer noted is the last one in the table. -/
theorem handles_hold {H : Type} {m : Machine H} {a : ℕ} :
    (m.hold a).2.table.all = m.table.all ++ [a] := by
  simp [Machine.hold, Handles.hold, Handles.all]

/-- A pointer that is noted on both sides. -/
theorem hold (h : Sim c objs D ρ i m) (ha : Known c D a) :
    (m.hold (ρ a)).1 = (i.hold a).1 ∧ Sim c objs D ρ (i.hold a).2 (m.hold (ρ a)).2 := by
  refine ⟨by simp [Machine.hold, Handles.hold, h.length], { h with length := ?_, handles := fun n b hn hb => ?_ }⟩
  · simp [handles_hold, h.length]
  · rw [handles_hold, List.getElem?_append] at hn ⊢
    rw [h.length]
    split at hn
    · rename_i hlt
      rw [if_pos hlt]
      exact h.handles n b hn hb
    · rename_i hlt
      rw [if_neg hlt]
      rw [List.getElem?_singleton] at hn ⊢
      split at hn
      · cases hn
        rename_i heq
        rw [if_pos heq]
        exact ⟨ha, rfl⟩
      · cases hn

end Sim

end sim

/-! ## one operation -/

/-- The same answer in related machines, unless the left one uses a pointer that it
must not use or the right one runs out of memory. -/
def Agrees {β : Type} (c : Statics) (r₁ : Except Fault (β × Machine Ideal))
    (r₂ : Except Fault (β × Machine State)) : Prop :=
  (∃ e, r₁ = .error e ∧ ∃ a, e = .badAccess a) ∨
    (∃ e, r₂ = .error e ∧ e = .error "Memory exhausted") ∨
    (∃ e, r₁ = .error e ∧ r₂ = .error e) ∨
    ∃ x i' m', r₁ = .ok (x, i') ∧ r₂ = .ok (x, m') ∧ Related c i' m'

section operations

variable {β : Type} {c : Statics} {objs : List ℕ} {D : Set ℕ} {ρ : ℕ → ℕ} {i : Machine Ideal}
  {m : Machine State} {p q : Ptr} {f : Field} {r : Ref} {n : ℕ}

namespace Agrees

/-- The left machine uses a pointer that it must not use. -/
theorem bad {a : ℕ} {r₂ : Except Fault (β × Machine State)} :
    Agrees c (.error (.badAccess a)) r₂ := .inl ⟨_, rfl, a, rfl⟩

/-- Both machines give the answer, and are related. -/
theorem ok {x : β} {i' : Machine Ideal} {m' : Machine State} (h : Sim c objs D ρ i' m') :
    Agrees c (.ok (x, i')) (.ok (x, m')) := .inr (.inr (.inr ⟨x, i', m', rfl, rfl, _, _, _, h⟩))

/-- A pointer is noted on both sides. -/
theorem hold {a : ℕ} (h : Sim c objs D ρ i m) (ha : Known c D a) :
    Agrees c (.ok (i.hold a)) (.ok (m.hold (ρ a))) := by
  obtain ⟨heq, hsim⟩ := h.hold ha
  exact .inr (.inr (.inr ⟨(i.hold a).1, (i.hold a).2, (m.hold (ρ a)).2, rfl, by rw [← heq], _, _,
    _, hsim⟩))

/-- A variable is looked up on both sides. -/
theorem address (h : Sim c objs D ρ i m) (p : Ptr) {k₁ : ℕ → Except Fault (β × Machine Ideal)}
    {k₂ : ℕ → Except Fault (β × Machine State)}
    (hk : ∀ a, Known c D a → Agrees c (k₁ a) (k₂ (ρ a))) :
    Agrees c (i.address (ideal c) c p >>= k₁) (m.address (concrete c) c p >>= k₂) := by
  cases hp : i.address (ideal c) c p with
  | ok a =>
      obtain ⟨hknown, hm⟩ := h.address hp
      rw [hm]
      exact hk a hknown
  | error e =>
      have hbad : ∃ a, e = .badAccess a := by
        cases p with
        | var n =>
            simp only [Machine.address, Handles.address] at hp
            grind
        | _ => cases hp
      obtain ⟨a, rfl⟩ := hbad
      exact bad

/-- An object is looked up on both sides. -/
theorem fetch {a : ℕ} (h : Sim c objs D ρ i m) (ha : Known c D a)
    {k₁ : Payload → Except Fault (β × Machine Ideal)}
    {k₂ : Payload → Except Fault (β × Machine State)}
    (hk : ∀ payload, i.heap.read a = some payload → (∀ p ∈ payload.pointers, Known c D p) →
      (payload.IsConst ∨ a ∈ D) → Agrees c (k₁ payload) (k₂ (payload.mapPointers ρ))) :
    Agrees c (i.fetch (ideal c) a >>= k₁) (m.fetch (concrete c) (ρ a) >>= k₂) := by
  cases hread : i.heap.read a with
  | none =>
      have hfetch : i.fetch (ideal c) a = .error (.badAccess a) := by
        simp [Machine.fetch, ideal, hread]
      rw [hfetch]
      exact bad
  | some payload =>
      have hfetch : i.fetch (ideal c) a = .ok payload := by simp [Machine.fetch, ideal, hread]
      obtain ⟨hm, hpointers, hmember⟩ := h.fetch ha hfetch
      rw [hfetch, hm]
      exact hk payload hread hpointers hmember

end Agrees

/-- A slot holds the image of what it holds on the other side. -/
theorem Sim.deref (h : Sim c objs D ρ i m) (r : Ref) :
    Known c D (deref c i.heap.symbols i.frames r) ∧
      Minilisp.deref c m.heap.block.symbols m.frames r =
        ρ (Minilisp.deref c i.heap.symbols i.frames r) := by
  refine ⟨?_, ?_⟩
  · cases r with
    | slot depth j =>
        rcases Frames.slot_mem i.frames depth j with hnull | ⟨frame, hframe, hp⟩
        · exact .inr (.inl hnull)
        · exact h.slots frame hframe _ hp
    | nil => exact .inr (.inr (by simp [Minilisp.deref]))
    | constTrue => exact .inr (.inr (by simp [Minilisp.deref]))
    | symbols => exact h.symbols.1
  · rw [h.frames, h.symbols.2.2]
    exact deref_map (h.fixed _ (.inl rfl)) fun a ha => h.fixed a (.inr ha)

/-- The frames change in the same way. -/
theorem Sim.reframe (h : Sim c objs D ρ i m) {frames : Frames}
    (hslots : ∀ frame ∈ frames, ∀ a ∈ frame, Known c D a) :
    Sim c objs D ρ { i with frames := frames } { m with frames := frames.map (List.map ρ) } :=
  { h with
    wellFormed := { h.wellFormed with
      roots := by
        intro frame hframe p hp
        obtain ⟨old, hold, rfl⟩ := List.mem_map.mp hframe
        obtain ⟨a, ha, rfl⟩ := List.mem_map.mp hp
        exact h.known_map (hslots old hold a ha) }
    frames := rfl
    slots := hslots }

/-- A slot is assigned on both sides. -/
theorem Sim.set_slot {a depth j : ℕ} (h : Sim c objs D ρ i m) (ha : Known c D a) :
    Sim c objs D ρ { i with frames := i.frames.set depth j a }
      { m with frames := m.frames.set depth j (ρ a) } := by
  rw [h.frames, Frames.set_map]
  refine h.reframe fun frame hframe b hb => ?_
  rcases Frames.mem_set hframe hb with rfl | ⟨old, hold, hb⟩
  · exact ha
  · exact h.slots old hold b hb

/-- `Symbols` is assigned on both sides. -/
theorem Sim.set_symbols {a : ℕ} (h : Sim c objs D ρ i m) (ha : Known c D a) (hnull : a ≠ Minilisp.null) :
    Sim c objs D ρ { i with heap := (ideal c).setSymbols i.heap a }
      { m with heap := (concrete c).setSymbols m.heap (ρ a) } :=
  { h with
    wellFormed := { h.wellFormed with
      symbols := (h.known_map ha).resolve_left fun heq =>
        hnull ((h.inj ha (.inr (.inl rfl))).mp (heq.trans (h.fixed Minilisp.null (.inl rfl)).symm)) }
    symbols := ⟨ha, hnull, rfl⟩ }

/-- A slot is read on both sides. -/
theorem agrees_deref (h : Sim c objs D ρ i m) :
    Agrees c (handle (ideal c) c (.deref r) i) (handle (concrete c) c (.deref r) m) := by
  obtain ⟨hknown, heq⟩ := h.deref r
  have := Agrees.hold h hknown
  rw [← heq] at this
  exact this

/-- A slot or `Symbols` is assigned on both sides. -/
theorem agrees_assign (h : Sim c objs D ρ i m) :
    Agrees c (handle (ideal c) c (.assign r p) i) (handle (concrete c) c (.assign r p) m) := by
  refine Agrees.address h p fun a ha => ?_
  cases r with
  | slot depth j => exact .ok (h.set_slot ha)
  | symbols =>
      have hnull : ρ a = null ↔ a = null := by
        rw [← h.inj ha (.inr (.inl rfl)), h.fixed null (.inl rfl)]
      by_cases heq : a = null
      · simp only [heq, ↓reduceIte]
        exact .bad
      · simp only [heq, hnull, ↓reduceIte]
        exact .ok (h.set_symbols ha heq)
  | nil => exact .bad
  | constTrue => exact .bad

/-- A member that is no pointer is the same on both sides. -/
theorem agrees_look (h : Sim c objs D ρ i m) {view : Payload → Option β} :
    Agrees c (handle (ideal c) c (.look p view) i) (handle (concrete c) c (.look p view) m) := by
  refine Agrees.address h p fun a ha => Agrees.fetch h ha fun payload _ _ _ => ?_
  rw [Payload.erase_mapPointers]
  cases view payload.erase with
  | none => exact .bad
  | some x => exact .ok h

/-- A member that is a pointer is read on both sides. -/
theorem agrees_load (h : Sim c objs D ρ i m) :
    Agrees c (handle (ideal c) c (.load p f) i) (handle (concrete c) c (.load p f) m) := by
  refine Agrees.address h p fun a ha => Agrees.fetch h ha fun payload _ hpointers _ => ?_
  rw [Payload.field_mapPointers]
  cases hf : payload.field f with
  | none => exact .bad
  | some q => exact .hold h (hpointers q (Payload.mem_pointers_of_field hf))

/-- Two pointers are equal on both sides, or on neither. -/
theorem agrees_same (h : Sim c objs D ρ i m) :
    Agrees c (handle (ideal c) c (.same p q) i) (handle (concrete c) c (.same p q) m) := by
  refine Agrees.address h p fun a ha => Agrees.address h q fun b hb => ?_
  have heq : decide (ρ a = ρ b) = decide (a = b) := decide_eq_decide.mpr (h.inj ha hb)
  rw [heq]
  exact .ok h

/-- A scope is opened on both sides. -/
theorem agrees_push (h : Sim c objs D ρ i m) :
    Agrees c (handle (ideal c) c (.push n) i) (handle (concrete c) c (.push n) m) := by
  have hnull : ρ null = null := h.fixed null (.inl rfl)
  have hframes : List.replicate n null :: m.frames =
      (List.replicate n null :: i.frames).map (List.map ρ) := by
    rw [List.map_cons, List.map_replicate, hnull, h.frames]
  have hlength : m.frames.length = i.frames.length := by rw [h.frames, List.length_map]
  simp only [handle, hframes, hlength]
  refine .ok (h.reframe fun frame hframe a ha => ?_)
  rcases List.mem_cons.mp hframe with rfl | hframe
  · exact .inr (.inl (List.eq_of_mem_replicate ha))
  · exact h.slots frame hframe a ha

/-- A scope is closed on both sides. -/
theorem agrees_pop (h : Sim c objs D ρ i m) :
    Agrees c (handle (ideal c) c .pop i) (handle (concrete c) c .pop m) := by
  simp only [handle, h.frames, ← List.map_tail]
  exact .ok (h.reframe fun frame hframe => h.slots frame (List.mem_of_mem_tail hframe))

/-- An assignment to a member of an object of `D`. -/
theorem Sim.store {a b : ℕ} {payload : Payload} (h : Sim c objs D ρ i m) (ha : a ∈ D)
    (hb : Known c D b) (hread : i.heap.read a = some payload) :
    Sim c objs D ρ { i with heap := (ideal c).write i.heap a (payload.setField b f) }
      { m with heap := (concrete c).write m.heap (ρ a)
                ((payload.mapPointers ρ).setField (ρ b) f) } := by
  obtain ⟨hobj, payload', hread', hmem, hpointers⟩ := h.object a ha
  rw [hread, Option.some.injEq] at hread'
  subst hread'
  have hpayload : payloadAt m.heap.mem (ρ a) = payload.mapPointers ρ := by
    obtain ⟨o, ho, -⟩ := h.wellFormed.regular _ hobj
    simp only [concrete, ho, Option.map_some, Option.some.injEq] at hmem
    rw [payloadAt_of_some ho, hmem]
  have hwf := h.wellFormed.store (f := f) hobj (h.known_map hb)
  rw [hpayload] at hwf
  have hbytes : ((payload.mapPointers ρ).setField (ρ b) f).bytes =
      (payloadAt m.heap.mem (ρ a)).bytes := by rw [hpayload, Payload.bytes_setField]
  obtain ⟨hself, hother, -⟩ := concrete_write_mem h.wellFormed hobj hbytes
  refine { h with wellFormed := hwf, object := fun d hd => ?_, constant := fun x o hx => ?_, null := ?_ }
  · obtain ⟨hobjd, payload₁, hread₁, hmem₁, hpointers₁⟩ := h.object d hd
    refine ⟨hobjd, ?_⟩
    by_cases heq : d = a
    · subst heq
      refine ⟨payload.setField b f, by simp [ideal], ?_, fun p hp => ?_⟩
      · rw [← Payload.setField_mapPointers]
        exact congrArg (Option.map Obj.payload) hself
      · rcases Payload.pointers_setField hp with rfl | hp
        · exact hb
        · exact hpointers p hp
    · have hne : ρ d ≠ ρ a := fun hρ => heq (h.injOn hd ha hρ)
      refine ⟨payload₁, by simp [ideal, heq, hread₁], ?_, hpointers₁⟩
      exact (congrArg (Option.map Obj.payload) (hother _ hobjd hne)).trans hmem₁
  · have hne : x ≠ a := fun heq => h.not_fixed ha (.inr (List.mem_map.mpr ⟨_, hx, heq⟩))
    simpa [ideal, hne] using h.constant x o hx
  · have hne : Minilisp.null ≠ a := fun heq => h.not_fixed ha (.inl heq.symm)
    simpa [ideal, hne] using h.null

/-- A member is assigned on both sides. -/
theorem agrees_store (h : Sim c objs D ρ i m) :
    Agrees c (handle (ideal c) c (.store p f q) i) (handle (concrete c) c (.store p f q) m) := by
  refine Agrees.address h p fun a ha => Agrees.address h q fun b hb =>
    Agrees.fetch h ha fun payload hread _ hmember => ?_
  rw [Payload.field_mapPointers]
  cases hf : payload.field f with
  | some old =>
      have hD : a ∈ D := hmember.resolve_left fun hconst => by
        cases payload <;> simp_all [Payload.IsConst, Payload.field]
      exact .ok (h.store hD hb hread)
  | none =>
      simp only [Option.map_none, Payload.isConst_mapPointers]
      by_cases hconst : payload.IsConst
      · simp only [hconst, ↓reduceIte, Payload.mapPointers_of_isConst hconst, h.world]
        exact .ok { h with world := rfl }
      · simp only [hconst, ↓reduceIte]
        exact .bad

/-! ### allocation -/

/-- What the allocator keeps: the objects that can be reached without a handle. -/
def kept (D : Set ℕ) (ρ : ℕ → ℕ) (m : Machine State) : Set ℕ :=
  {a | a ∈ D ∧ m.heap.Reachable m.frames (ρ a)}

/-- An object of `D` is in the space that is in use. -/
theorem Sim.inSpace {a : ℕ} (h : Sim c objs D ρ i m) (ha : a ∈ D) : m.heap.block.InSpace (ρ a) :=
  OldSpace.inside (k := h.wellFormed.oldSpace) (h.object a ha).1

/-- What a slot, `Symbols` or an object that is kept points to is kept. -/
theorem Sim.kept_root {a : ℕ} (h : Sim c objs D ρ i m) (ha : Known c D a)
    (hroot : ρ a ∈ m.heap.block.symbols :: m.frames.flatten) : Known c (kept D ρ m) a :=
  ha.imp (fun hD => ⟨hD, .root (List.mem_filter.mpr ⟨hroot, decide_eq_true (h.inSpace hD)⟩)⟩) id

/-- What an object that is kept points to is kept. -/
theorem Sim.kept_next {a b : ℕ} {payload : Payload} (h : Sim c objs D ρ i m)
    (ha : a ∈ kept D ρ m) (hread : i.heap.read a = some payload) (hb : b ∈ payload.pointers) :
    Known c (kept D ρ m) b := by
  obtain ⟨hmem, hpointers, -⟩ := h.read (.inl ha.1) hread
  refine (hpointers b hb).imp (fun hD => ⟨hD, .next ha.2 ?_⟩) id
  refine List.mem_filter.mpr ⟨?_, decide_eq_true (h.inSpace hD)⟩
  have hpayload : payloadAt m.heap.mem (ρ a) = payload.mapPointers ρ := by
    simp only [concrete] at hmem
    rw [payloadAt]
    cases hobj : m.heap.mem (ρ a) with
    | none => simp [hobj] at hmem
    | some o => simpa [hobj] using hmem
  rw [hpayload, Payload.pointers_mapPointers]
  exact List.mem_map_of_mem hb

/-- What is in a slot is kept. -/
theorem Sim.kept_slot (h : Sim c objs D ρ i m) {frame : List ℕ} {a : ℕ}
    (hframe : frame ∈ i.frames) (ha : a ∈ frame) : Known c (kept D ρ m) a := by
  refine h.kept_root (h.slots frame hframe a ha) (List.mem_cons_of_mem _ ?_)
  rw [h.frames]
  exact List.mem_flatten.mpr ⟨_, List.mem_map_of_mem hframe, List.mem_map_of_mem ha⟩

/-- The list of symbols is kept. -/
theorem Sim.kept_symbols (h : Sim c objs D ρ i m) : Known c (kept D ρ m) i.heap.symbols :=
  h.kept_root h.symbols.1 (h.symbols.2.2 ▸ List.mem_cons_self)

/-- What a variable of the program refers to is kept. -/
theorem Sim.kept_deref (h : Sim c objs D ρ i m) (r : Ref) :
    Known c (kept D ρ m) (Minilisp.deref c i.heap.symbols i.frames r) := by
  cases r with
  | slot depth j =>
      rcases Frames.slot_mem i.frames depth j with hnull | ⟨frame, hframe, hp⟩
      · exact .inr (.inl hnull)
      · exact h.kept_slot hframe hp
  | nil => exact .inr (.inr (by simp [Minilisp.deref]))
  | constTrue => exact .inr (.inr (by simp [Minilisp.deref]))
  | symbols => exact h.kept_symbols

/-- The arguments of a request are renamed with the slots. -/
theorem Request.payload_map {value : Ref → ℕ} {σ : ℕ → ℕ} {req : Request} :
    req.payload (σ ∘ value) = (req.payload value).mapPointers σ := by
  cases req with
  | makeFunction env isMacro => cases isMacro <;> rfl
  | _ => rfl

/-- The heaps after an allocation: the objects kept have moved with `σ`, and both
heaps have a new object. -/
theorem Sim.make {req : Request} {s' : State} {root' : Frames} {objs' : List ℕ} {σ : ℕ → ℕ}
    (h : Sim c objs D ρ i m) (hkept : Kept c m.heap m.frames objs s' root' objs' σ)
    (hfits : req.Fits)
    (hroom : s'.block.memNused + allocSize req.bytes ≤ s'.block.memorySize) :
    ∃ D' ρ', ρ' i.heap.next = s'.block.memory + s'.block.memNused ∧
      Known c D' i.heap.next ∧
      Sim c (objs' ++ [s'.block.memory + s'.block.memNused]) D' ρ'
        { i with
          heap := i.heap.place (req.payload (Minilisp.deref c i.heap.symbols i.frames))
          table := i.table.expire }
        { m with
          heap := s'.place ⟨allocSize req.bytes,
            req.payload (Minilisp.deref c s'.block.symbols root')⟩
          frames := root'
          table := m.table.expire } := by
  obtain ⟨hreg, -, -⟩ := hfits.regular (Minilisp.deref c s'.block.symbols root')
  obtain ⟨hold, -⟩ := hkept.wellFormed.write_free hreg hroom
  have hnext : ∀ a, Known c (kept D ρ m) a → a ≠ i.heap.next := fun a ha =>
    (h.next a (ha.imp And.left id)).ne
  -- The new addresses.
  obtain ⟨ρ', hρ'⟩ : ∃ ρ', ρ' = Function.update (σ ∘ ρ) i.heap.next
    (s'.block.memory + s'.block.memNused) := ⟨_, rfl⟩
  have hnew : ρ' i.heap.next = s'.block.memory + s'.block.memNused := by simp [hρ']
  have hτ : ∀ a, Known c (kept D ρ m) a → ρ' a = σ (ρ a) := fun a ha => by
    rw [hρ', Function.update_of_ne (hnext a ha)]
    rfl
  have hfixed : ∀ a, Fixed c a → ρ' a = a := fun a ha => by
    rw [hτ a (.inr ha), h.fixed a ha, hkept.fixed a ha]
  have hframes : root' = i.frames.map (List.map ρ') := by
    rw [hkept.roots, h.frames, List.map_map]
    refine List.map_congr_left fun frame hframe => ?_
    rw [Function.comp_apply, List.map_map]
    exact List.map_congr_left fun a ha => (hτ a (h.kept_slot hframe ha)).symm
  have hsymbols : s'.block.symbols = ρ' i.heap.symbols := by
    rw [hkept.symbols, h.symbols.2.2, hτ _ h.kept_symbols]
  have hpayload : req.payload (Minilisp.deref c s'.block.symbols root') =
      (req.payload (Minilisp.deref c i.heap.symbols i.frames)).mapPointers ρ' := by
    rw [← Request.payload_map]
    refine congrArg (Request.payload · req) (funext fun r => ?_)
    rw [hsymbols, hframes]
    exact deref_map (hfixed _ (.inl rfl)) fun a ha => hfixed a (.inr ha)
  have hfresh : s'.block.memory + s'.block.memNused ∉ objs' := fun hmem => by
    have hbounds := hkept.wellFormed.tiles.bounds hmem
    have hpos := hkept.wellFormed.pos hmem
    simp only [id] at hbounds
    omega
  have hmono {a : ℕ} (ha : Known c (kept D ρ m) a) : Known c (insert i.heap.next (kept D ρ m)) a :=
    ha.imp (Set.mem_insert_of_mem _) id
  have hmoved : ∀ a ∈ kept D ρ m, ρ' a ∈ objs' := fun a ha => by
    rw [hτ a (.inl ha)]
    exact (hkept.copies _ ha.2).1
  refine ⟨insert i.heap.next (kept D ρ m), ρ', hnew, .inl (Set.mem_insert ..), ?_⟩
  constructor
  case wellFormed =>
    refine hkept.wellFormed.place hreg hroom fun p hp => ?_
    obtain ⟨r, rfl⟩ := Request.pointers_payload hp
    exact hkept.wellFormed.deref_valid r
  case fixed => exact hfixed
  case injOn =>
    intro a ha b hb heq
    rcases ha with rfl | ha <;> rcases hb with rfl | hb
    · rfl
    · exact absurd (hnew ▸ heq ▸ hmoved b hb) hfresh
    · exact absurd (hnew ▸ heq.symm ▸ hmoved a ha) hfresh
    · rw [hτ a (.inl ha), hτ b (.inl hb)] at heq
      exact h.injOn ha.1 hb.1 (hkept.injOn ha.2 hb.2 heq)
  case object =>
    rintro a (rfl | ha)
    · refine ⟨?_, _, Function.update_self .., ?_, fun p hp => ?_⟩
      · rw [hnew]
        exact List.mem_append_right _ List.mem_cons_self
      · rw [hnew, ← hpayload]
        exact congrArg (Option.map Obj.payload) State.place_self
      · obtain ⟨r, rfl⟩ := Request.pointers_payload hp
        exact hmono (h.kept_deref r)
    · obtain ⟨-, payload, hread, hmem, -⟩ := h.object a ha.1
      refine ⟨List.mem_append_left _ (hmoved a ha), payload, ?_, ?_, fun p hp =>
        hmono (h.kept_next ha hread hp)⟩
      · exact (Function.update_of_ne (hnext a (.inl ha)) ..).trans hread
      · obtain ⟨-, o, ho, ho'⟩ := hkept.copies _ ha.2
        have hpay : o.payload = payload.mapPointers ρ := by
          simpa [concrete, ho] using hmem
        have hcopy : payload.mapPointers ρ' = (payload.mapPointers ρ).mapPointers σ := by
          rw [Payload.mapPointers_mapPointers]
          exact Payload.mapPointers_congr fun p hp => hτ p (h.kept_next ha hread hp)
        rw [hcopy, ← hpay]
        rw [← hτ a (.inl ha)] at ho'
        exact congrArg (Option.map Obj.payload) ((hold _ (hmoved a ha)).trans ho')
  case constant =>
    intro x o hx
    have hne : x ≠ i.heap.next := hnext x (.inr (.inr (List.mem_map.mpr ⟨_, hx, rfl⟩)))
    exact (Function.update_of_ne hne ..).trans (h.constant x o hx)
  case null =>
    exact (Function.update_of_ne (hnext _ (.inr (.inl rfl))) ..).trans h.null
  case next =>
    rintro a ((rfl | ha) | ha)
    · exact Nat.lt_succ_self _
    · exact Nat.lt_succ_of_lt (h.next a (.inl ha.1))
    · exact Nat.lt_succ_of_lt (h.next a (.inr ha))
  case symbols => exact ⟨hmono h.kept_symbols, h.symbols.2.1, hsymbols⟩
  case frames => exact hframes
  case slots => exact fun frame hframe a ha => hmono (h.kept_slot hframe ha)
  case age => exact h.length
  case length => simpa [Handles.expire, Handles.all] using h.length
  case handles =>
    intro n a hn husable
    simp only [Handles.expire, Handles.all, List.append_nil] at hn
    have hlt : n < i.table.all.length := (List.getElem?_eq_some_iff.mp hn).1
    have ha : Fixed c a := husable.resolve_left (Nat.not_le.mpr hlt)
    obtain ⟨-, hm⟩ := h.handles n a hn (.inr ha)
    rw [h.fixed a ha] at hm
    exact ⟨.inr ha, by rw [hfixed a ha]; simpa [Handles.expire, Handles.all] using hm⟩
  case world => exact h.world

/-- An allocation, with or without a collection before it. -/
theorem agrees_make (h : Sim c objs D ρ i m) {req : Request} :
    Agrees c (handle (ideal c) c (.make req) i) (handle (concrete c) c (.make req) m) := by
  by_cases hfits : req.Fits
  · rcases make_spec h.wellFormed hfits with ⟨-, hmake⟩ | ⟨-, s', root', objs', σ, hkept, hroom, hmake⟩
    · exact .inr (.inl ⟨_, by simp [handle, concrete, hmake, bind, Except.bind], rfl⟩)
    · obtain ⟨D', ρ', hnew, hknown, hsim⟩ := h.make hkept hfits hroom
      have := Agrees.hold hsim hknown
      rw [hnew] at this
      simp only [handle, concrete, ideal, hmake, hfits, ↓reduceIte, bind, Except.bind, pure,
        Except.pure]
      exact this
  · simp only [handle, ideal, hfits, ↓reduceIte]
    exact .bad

/-- Input and output do not look at the heap. -/
theorem agrees_io (h : Sim c objs D ρ i m) {f : World → Except Fault (β × World)} :
    Agrees c (handle (ideal c) c (.io f) i) (handle (concrete c) c (.io f) m) := by
  simp only [handle, h.world]
  rcases f i.world with e | ⟨x, w⟩
  · exact .inr (.inr (.inl ⟨e, rfl, rfl⟩))
  · exact .ok { h with world := rfl }

end operations

/-! ## every program -/

/-- **Every operation** gives the same answer on both heaps. -/
theorem handle_sim (c : Statics) :
    Prog.Simulates (handle (ideal c) c) (handle (concrete c) c) (fun e => ∃ a, e = .badAccess a)
      (· = .error "Memory exhausted") (Related c) := by
  rintro β o i m ⟨objs, D, ρ, h⟩
  cases o with
  | deref r => exact agrees_deref h
  | assign r p => exact agrees_assign h
  | look p view => exact agrees_look h
  | load p f => exact agrees_load h
  | store p f q => exact agrees_store h
  | same p q => exact agrees_same h
  | make req => exact agrees_make h
  | push n => exact agrees_push h
  | pop => exact agrees_pop h
  | io f => exact agrees_io h

/-- **Every program** takes the same course on both heaps, whenever the collector
runs, unless it follows a pointer on the ideal heap that it must not follow, or the
other runs out of memory on the way. -/
theorem run_agree {α : Type} {c : Statics} {i : Machine Ideal} {m : Machine State} (p : Code α)
    (h : Related c i m) (hgood : ∀ a, (p.run (handle (ideal c) c) i).1 ≠ .error (.badAccess a)) :
    (p.run (handle (concrete c) c) m).1 = .error (.error "Memory exhausted") ∧
        (∃ i', p.Visits (handle (ideal c) c) i i' ∧
          Related c i' (p.run (handle (concrete c) c) m).2) ∨
      (p.run (handle (concrete c) c) m).1 = (p.run (handle (ideal c) c) i).1 ∧
        Related c (p.run (handle (ideal c) c) i).2 (p.run (handle (concrete c) c) m).2 := by
  rcases Prog.run_sim (handle_sim c) p h with ⟨e, he, a, rfl⟩ | ⟨e, i', he, rfl, hvisits, hrel⟩ |
    ⟨heq, hrel⟩
  · exact absurd he (hgood a)
  · exact .inl ⟨he, i', hvisits, hrel⟩
  · exact .inr ⟨heq.symm, hrel⟩

end KernelPanic.Minilisp
