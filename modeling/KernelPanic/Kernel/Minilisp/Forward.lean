import KernelPanic.Kernel.Minilisp.Graph

/-!
# KernelPanic.Kernel.Minilisp.Forward

What `forward` and `forward_root_objects` do in the middle of a collection.

The collector is followed against `Traversal`: `l` is the list of the objects
copied so far, in the order in which they lie in the new space, and `σ` gives
their new addresses.  `Copying` relates them to memory at every point between
two calls of `forward`; what the copy of an object holds (`c`) differs from what
the object held only from where `gc` begins to replace its pointers.
-/

namespace KernelPanic.Minilisp

open Tiling Traversal

/-! ## the old space -/

/-- The old space as a collection finds it, and where the new space is. -/
structure OldSpace where
  mem : Memory
  objs : List ℕ
  src : ℕ
  dst : ℕ
  room : ℕ
  nused : ℕ
  tiles : Tiles id (sizeAt mem) src objs (src + nused)
  regular : ∀ a ∈ objs, ∃ o, mem a = some o ∧ o.IsRegular
  closed : ∀ a ∈ objs, ∀ p ∈ (payloadAt mem a).pointers, p ∈ objs ∨ p < src ∨ src + room ≤ p
  fits : nused ≤ room
  apart : src + room ≤ dst ∨ dst + room ≤ src
  notNull : 0 < src

namespace OldSpace

variable {k : OldSpace} {l : List ℕ} {a b p q : ℕ} {P : Payload}

/-- The size of an object. -/
abbrev size (k : OldSpace) (a : ℕ) : ℕ := sizeAt k.mem a

/-- What an object is. -/
abbrev payload (k : OldSpace) (a : ℕ) : Payload := payloadAt k.mem a

/-- An address in the old space. -/
def Inside (k : OldSpace) (p : ℕ) : Prop := k.src ≤ p ∧ p < k.src + k.room

instance : DecidablePred k.Inside := fun _ => inferInstanceAs (Decidable (_ ∧ _))

/-- What a pointer may be: an object's address, or one outside the old space. -/
def Valid (k : OldSpace) (p : ℕ) : Prop := p ∈ k.objs ∨ ¬ k.Inside p

/-- The pointers into the old space among `ps`. -/
def live (k : OldSpace) (ps : List ℕ) : List ℕ := ps.filter (k.Inside ·)

/-- The objects that an object points to. -/
def next (k : OldSpace) (a : ℕ) : List ℕ := k.live (k.payload a).pointers

/-- An object is there. -/
theorem mem_eq (ha : a ∈ k.objs) : k.mem a = some ⟨k.size a, k.payload a⟩ := by
  obtain ⟨o, ho, -⟩ := k.regular a ha
  rw [size, payload, sizeAt_of_some ho, payloadAt_of_some ho, ho]

/-- An object is regular. -/
theorem isRegular (ha : a ∈ k.objs) : Obj.IsRegular ⟨k.size a, k.payload a⟩ := by
  obtain ⟨o, ho, hreg⟩ := k.regular a ha
  rw [mem_eq ha, Option.some.injEq] at ho
  exact ho ▸ hreg

/-- An object has room for a forwarding pointer. -/
theorem le_size (ha : a ∈ k.objs) : 16 ≤ k.size a := by
  have h := (isRegular ha).2
  simp only [headerSize] at h
  omega

/-- Whatever is written over an object with its size stays within it. -/
theorem bytes_eq (ha : a ∈ k.objs) (hP : P.bytes ≤ max 8 (k.payload a).bytes) :
    Obj.bytes ⟨k.size a, P⟩ = k.size a :=
  max_eq_left (le_trans (Nat.add_le_add_left hP _) (isRegular ha).2)

/-- An object is inside the old space. -/
theorem bounds (ha : a ∈ k.objs) : k.src ≤ a ∧ a + k.size a ≤ k.src + k.nused :=
  k.tiles.bounds ha

/-- The address of an object is inside the old space. -/
theorem inside (ha : a ∈ k.objs) : k.Inside a := by
  have hb := bounds ha
  have hs := le_size ha
  have hf := k.fits
  exact ⟨hb.1, by omega⟩

/-- An object points to objects, constants or NULL. -/
theorem valid_of_mem_pointers (ha : a ∈ k.objs) (hp : p ∈ (k.payload a).pointers) : k.Valid p := by
  rcases k.closed a ha p hp with h | h
  · exact .inl h
  · refine .inr fun hin => ?_
    have := hin.1
    have := hin.2
    omega

/-- NULL is no object. -/
theorem not_inside_null : ¬ k.Inside null := fun h => by
  have := k.notNull
  have := h.1
  simp only [null] at this
  omega

/-- What is written to the new space leaves the objects of the old one alone. -/
theorem outside_new (ha : a ∈ k.objs) (hP : P.bytes ≤ max 8 (k.payload a).bytes) {x n : ℕ}
    (hlo : k.dst ≤ x) (hhi : x + n ≤ k.dst + k.room) : Outside x n a ⟨k.size a, P⟩ := by
  have hb := bounds ha
  have hf := k.fits
  rw [Outside, bytes_eq ha hP]
  rcases k.apart with hd | hd <;> omega

/-- What is written over an object of the old space leaves the new one alone. -/
theorem outside_old (ha : a ∈ k.objs) {x : ℕ} {o : Obj} (hlo : k.dst ≤ x)
    (hhi : x + o.bytes ≤ k.dst + k.room) : Outside a (k.size a) x o := by
  have hb := bounds ha
  have hf := k.fits
  rw [Outside]
  rcases k.apart with hd | hd <;> omega

/-- What is written over an object of the old space leaves the others there alone. -/
theorem outside_of_ne (ha : a ∈ k.objs) (hb : b ∈ k.objs) (hne : a ≠ b)
    (hP : P.bytes ≤ max 8 (k.payload a).bytes) : Outside b (k.size b) a ⟨k.size a, P⟩ := by
  rw [Outside, bytes_eq ha hP]
  exact k.tiles.disjoint ha hb hne

@[simp] theorem mem_live {ps : List ℕ} : p ∈ k.live ps ↔ p ∈ ps ∧ k.Inside p := by
  simp [live]

/-- One pointer after the other. -/
theorem live_cons {ps : List ℕ} : k.live (p :: ps) = k.live [p] ++ k.live ps := by
  rw [live, live, live, ← List.filter_append, List.singleton_append]

/-- An object that is pointed to is found. -/
theorem mem_discoverAll_live {ps : List ℕ} (hp : p ∈ ps) (hin : k.Inside p) :
    p ∈ discoverAll l (k.live ps) :=
  mem_discoverAll.mpr (.inr (mem_live.mpr ⟨hp, hin⟩))

theorem live_of_not_inside (h : ¬ k.Inside p) : k.live [p] = [] := by simp [live, h]

theorem live_of_inside (h : k.Inside p) : k.live [p] = [p] := by simp [live, h]

end OldSpace

/-! ## between two calls of `forward` -/

/-- The objects of `l` have been copied, and `σ` gives the places of their copies;
tombstones stand where they were.  `c` is what the copies hold. -/
structure Copying (k : OldSpace) (l : List ℕ) (σ : ℕ → ℕ) (c : ℕ → Payload) (s : State) :
    Prop where
  fromSpace : s.block.fromSpace = k.src
  room : s.block.memorySize = k.room
  sub : l ⊆ k.objs
  nodup : l.Nodup
  tiles : Tiles σ k.size k.dst l s.scan2
  fixed : ∀ a ∉ l, σ a = a
  tombstone : ∀ a ∈ l, s.mem a = some ⟨k.size a, .moved (σ a)⟩
  untouched : ∀ a ∈ k.objs, a ∉ l → s.mem a = some ⟨k.size a, k.payload a⟩
  copy : ∀ a ∈ l, s.mem (σ a) = some ⟨k.size a, c a⟩
  fresh : ∀ a ∉ l, c a = k.payload a
  bytes : ∀ a, (c a).bytes = (k.payload a).bytes
  outside : ∀ x o, k.mem x = some o → Outside k.src k.room x o → Outside k.dst k.room x o →
    s.mem x = some o

namespace Copying

variable {k : OldSpace} {l l' : List ℕ} {σ σ' : ℕ → ℕ} {c c' : ℕ → Payload} {s s' : State}
  {a b p q : ℕ}

/-- What has been copied fits in the new space. -/
theorem scan2_le (h : Copying k l σ c s) : s.scan2 ≤ k.dst + k.room := by
  have := k.tiles.end_le h.tiles h.nodup h.sub
  have := k.fits
  omega

/-- A copy has the size of its object. -/
theorem copy_bytes (h : Copying k l σ c s) (ha : a ∈ l) :
    Obj.bytes ⟨k.size a, c a⟩ = k.size a :=
  OldSpace.bytes_eq (h.sub ha) (h.bytes a ▸ le_max_right ..)

/-- What is outside the old space is not moved. -/
theorem eq_of_not_inside (h : Copying k l σ c s) (hp : ¬ k.Inside p) : σ p = p :=
  h.fixed p fun hl => hp (OldSpace.inside (h.sub hl))

/-- No copy is in the old space. -/
theorem not_inside (h : Copying k l σ c s) (hl : k.Inside p → p ∈ l) :
    ¬ k.Inside (σ p) := by
  by_cases hin : k.Inside p
  · have hb := h.tiles.bounds (hl hin)
    have hs := OldSpace.le_size (h.sub (hl hin))
    have hle := h.scan2_le
    rintro ⟨hlo, hhi⟩
    rcases k.apart with hd | hd <;> omega
  · rwa [h.eq_of_not_inside hin]

/-- One more object fits. -/
theorem room_for (h : Copying k l σ c s) (hp : p ∈ k.objs) (hl : p ∉ l) :
    s.scan2 + k.size p ≤ k.dst + k.room := by
  have htiles : Tiles (Function.update σ p s.scan2) k.size k.dst (l ++ [p])
      (s.scan2 + k.size p) := by
    have hσ : Function.update σ p s.scan2 p = s.scan2 := Function.update_self ..
    have hmid : Tiles (Function.update σ p s.scan2) k.size k.dst l s.scan2 :=
      h.tiles.congr (fun a ha => Function.update_of_ne (ne_of_mem_of_not_mem ha hl) ..)
        fun _ _ => rfl
    exact hmid.append ⟨hσ, rfl⟩
  have hnodup : (l ++ [p]).Nodup := by
    rw [List.nodup_append]
    exact ⟨h.nodup, List.nodup_singleton p, by grind⟩
  have hsub : l ++ [p] ⊆ k.objs := by
    intro a ha
    rcases List.mem_append.mp ha with ha | ha
    · exact h.sub ha
    · exact List.mem_singleton.mp ha ▸ hp
  have := k.tiles.end_le htiles hnodup hsub
  have := k.fits
  omega

end Copying

/-- What a stretch of the collector does: from `l`, `σ`, `s` on, more objects are
copied, and the addresses given out before stand. -/
structure Moves (k : OldSpace) (l : List ℕ) (σ : ℕ → ℕ) (s : State) (l' : List ℕ) (σ' : ℕ → ℕ)
    (c' : ℕ → Payload) (s' : State) : Prop where
  copying : Copying k l' σ' c' s'
  sub : l ⊆ l'
  agree : ∀ a ∈ l, σ' a = σ a
  scan1 : s'.scan1 = s.scan1
  block : s'.block = s.block

namespace Moves

variable {k : OldSpace} {l l₁ l₂ : List ℕ} {σ σ₁ σ₂ : ℕ → ℕ} {c c₁ c₂ : ℕ → Payload}
  {s s₁ s₂ : State} {a p : ℕ}

/-- Nothing is moved. -/
theorem refl (h : Copying k l σ c s) : Moves k l σ s l σ c s :=
  ⟨h, List.Subset.refl l, fun _ _ => rfl, rfl, rfl⟩

/-- One move after the other. -/
theorem trans (h₁ : Moves k l σ s l₁ σ₁ c₁ s₁) (h₂ : Moves k l₁ σ₁ s₁ l₂ σ₂ c₂ s₂) :
    Moves k l σ s l₂ σ₂ c₂ s₂ where
  copying := h₂.copying
  sub := List.Subset.trans h₁.sub h₂.sub
  agree := fun a ha => (h₂.agree a (h₁.sub ha)).trans (h₁.agree a ha)
  scan1 := h₂.scan1.trans h₁.scan1
  block := h₂.block.trans h₁.block

/-- The address of what is already copied, or never will be, stands. -/
theorem eq (h : Moves k l σ s l₁ σ₁ c₁ s₁) (hc : Copying k l σ c s) (hp : k.Inside p → p ∈ l) :
    σ₁ p = σ p := by
  by_cases hin : k.Inside p
  · exact h.agree p (hp hin)
  · rw [h.copying.eq_of_not_inside hin, hc.eq_of_not_inside hin]

end Moves

/-! ## `forward` -/

section forward

variable {k : OldSpace} {l l' : List ℕ} {σ σ' : ℕ → ℕ} {c c' : ℕ → Payload} {s s' : State}
  {a p : ℕ} {o : Obj}

/-- The test of the offset. -/
theorem Copying.offset_iff (h : Copying k l σ c s) :
    ((p : ℤ) - s.block.fromSpace < 0 ∨ (s.block.memorySize : ℤ) ≤ (p : ℤ) - s.block.fromSpace) ↔
      ¬ k.Inside p := by
  rw [h.fromSpace, h.room, OldSpace.Inside]
  omega

/-- A pointer that leads out of the old space is returned as it is. -/
theorem forward_of_not_inside (h : Copying k l σ c s) (hp : ¬ k.Inside p) :
    forward s p = .ok (s, σ p) := by
  rw [h.eq_of_not_inside hp, forward]
  exact if_pos (h.offset_iff.mpr hp)

/-- A tombstone gives the new address. -/
theorem forward_of_mem (h : Copying k l σ c s) (hp : p ∈ l) : forward s p = .ok (s, σ p) := by
  have hin := OldSpace.inside (h.sub hp)
  have hoff := mt h.offset_iff.mp (not_not.mpr hin)
  simp only [forward, hoff, if_false, h.tombstone p hp]

/-- The state after an object has been moved. -/
def moveObject (k : OldSpace) (s : State) (p : ℕ) : State :=
  { s with
    mem := (s.mem.write s.scan2 ⟨k.size p, k.payload p⟩).write p
      ⟨k.size p, .moved s.scan2⟩
    scan2 := s.scan2 + k.size p }

/-- Any other object is moved. -/
theorem forward_of_not_mem (h : Copying k l σ c s) (hp : p ∈ k.objs) (hl : p ∉ l) :
    forward s p = .ok (moveObject k s p, s.scan2) := by
  have hoff := mt h.offset_iff.mp (not_not.mpr (OldSpace.inside hp))
  have hreg := (OldSpace.isRegular hp).1
  simp only [forward, hoff, if_false, h.untouched p hp hl, moveObject]
  generalize k.payload p = P at hreg ⊢
  cases P <;> first | rfl | cases hreg

/-- An object that shares no byte with the old place nor with the new one is
still there after the move. -/
theorem moveObject_keeps (hp : p ∈ k.objs) (ho : s.mem a = some o)
    (hnew : Outside s.scan2 (k.size p) a o) (hold : Outside p (k.size p) a o) :
    (moveObject k s p).mem a = some o := by
  have hb := OldSpace.bytes_eq hp (P := k.payload p) (le_max_right ..)
  have hb' := OldSpace.bytes_eq hp (P := .moved s.scan2) (le_max_left ..)
  rw [← hb] at hnew
  rw [← hb'] at hold
  exact Memory.write_of_disjoint (Memory.write_of_disjoint ho hnew) hold

/-- The other objects of the old space are still there. -/
theorem Copying.moveObject_keeps_old (h : Copying k l σ c s) (hp : p ∈ k.objs) (hl : p ∉ l)
    (ha : a ∈ k.objs) (hne : a ≠ p) {P : Payload} (hP : P.bytes ≤ max 8 (k.payload a).bytes)
    (ho : s.mem a = some ⟨k.size a, P⟩) : (moveObject k s p).mem a = some ⟨k.size a, P⟩ :=
  moveObject_keeps hp ho (OldSpace.outside_new ha hP h.tiles.le (h.room_for hp hl))
    (OldSpace.outside_of_ne ha hp hne hP)

/-- The copies made before are still there. -/
theorem Copying.moveObject_keeps_copy (h : Copying k l σ c s) (hp : p ∈ k.objs) (ha : a ∈ l) :
    (moveObject k s p).mem (σ a) = some ⟨k.size a, c a⟩ := by
  have hb := h.tiles.bounds ha
  have hbytes := h.copy_bytes ha
  have hle := h.scan2_le
  refine moveObject_keeps hp (h.copy a ha) (.inl ?_) (OldSpace.outside_old hp hb.1 ?_)
  · rw [hbytes]
    exact hb.2
  · rw [hbytes]
    omega

/-- The copy is there: the tombstone does not reach it. -/
theorem Copying.moveObject_copy (h : Copying k l σ c s) (hp : p ∈ k.objs) (hl : p ∉ l) :
    (moveObject k s p).mem s.scan2 = some ⟨k.size p, k.payload p⟩ := by
  have hbytes := OldSpace.bytes_eq hp (P := k.payload p) (le_max_right ..)
  refine Memory.write_of_disjoint Memory.write_self ?_
  rw [OldSpace.bytes_eq hp (le_max_left ..)]
  refine OldSpace.outside_old hp h.tiles.le ?_
  rw [hbytes]
  exact h.room_for hp hl

/-- The move keeps the relation, with one object more. -/
theorem Copying.move (h : Copying k l σ c s) (hp : p ∈ k.objs) (hl : p ∉ l) :
    Copying k (l ++ [p]) (Function.update σ p s.scan2) c (moveObject k s p) := by
  have hσ : Function.update σ p s.scan2 p = s.scan2 := Function.update_self ..
  have hne : ∀ a ∈ l, a ≠ p := fun a ha => ne_of_mem_of_not_mem ha hl
  have hσ' : ∀ a ∈ l, Function.update σ p s.scan2 a = σ a :=
    fun a ha => Function.update_of_ne (hne a ha) ..
  have hroom := h.room_for hp hl
  have hpb := OldSpace.bounds hp
  have hfits := k.fits
  have hlo := h.tiles.le
  refine
    { fromSpace := h.fromSpace, room := h.room, sub := ?_, nodup := ?_, tiles := ?_, fixed := ?_,
      tombstone := ?_, untouched := ?_, copy := ?_, fresh := ?_, bytes := h.bytes, outside := ?_ }
  · exact List.append_subset.mpr ⟨h.sub, by simpa using hp⟩
  · exact (discover_of_not_mem hl) ▸ nodup_discover h.nodup
  · exact (h.tiles.congr hσ' fun _ _ => rfl).append ⟨hσ, rfl⟩
  · intro a ha
    rw [List.mem_append, not_or, List.mem_singleton] at ha
    rw [Function.update_of_ne ha.2, h.fixed a ha.1]
  · intro a ha
    rcases List.mem_append.mp ha with ha | ha
    · rw [hσ' a ha]
      exact h.moveObject_keeps_old hp hl (h.sub ha) (hne a ha) (le_max_left ..) (h.tombstone a ha)
    · rw [List.mem_singleton] at ha
      subst ha
      rw [hσ]
      exact Memory.write_self
  · intro a ha hal
    rw [List.mem_append, not_or, List.mem_singleton] at hal
    exact h.moveObject_keeps_old hp hl ha hal.2 (le_max_right ..) (h.untouched a ha hal.1)
  · intro a ha
    rcases List.mem_append.mp ha with ha | ha
    · rw [hσ' a ha]
      exact h.moveObject_keeps_copy hp ha
    · rw [List.mem_singleton] at ha
      subst ha
      rw [hσ, h.fresh a hl]
      exact h.moveObject_copy hp hl
  · intro a ha
    rw [List.mem_append, not_or] at ha
    exact h.fresh a ha.1
  · intro x o ho hsrc hdst
    refine moveObject_keeps hp (h.outside x o ho hsrc hdst) ?_ ?_
    · rw [Outside] at hdst ⊢
      omega
    · rw [Outside] at hsrc ⊢
      omega

/-- `forward` returns the new address of what a valid pointer points to. -/
theorem forward_spec (h : Copying k l σ c s) (hp : k.Valid p) :
    ∃ s' σ', forward s p = .ok (s', σ' p) ∧ Moves k l σ s (discoverAll l (k.live [p])) σ' c s' := by
  by_cases hin : k.Inside p
  · have hobj : p ∈ k.objs := hp.resolve_right (not_not.mpr hin)
    rw [OldSpace.live_of_inside hin, discoverAll_cons, discoverAll_nil]
    by_cases hl : p ∈ l
    · rw [discover_of_mem hl]
      exact ⟨s, σ, forward_of_mem h hl, .refl h⟩
    · rw [discover_of_not_mem hl]
      refine ⟨moveObject k s p, Function.update σ p s.scan2, ?_, h.move hobj hl,
        List.subset_append_left .., ?_, rfl, rfl⟩
      · rw [forward_of_not_mem h hobj hl, Function.update_self]
      · exact fun a ha => Function.update_of_ne (ne_of_mem_of_not_mem ha hl) ..
  · rw [OldSpace.live_of_not_inside hin]
    exact ⟨s, σ, forward_of_not_inside h hin, .refl h⟩

end forward

/-! ## roots -/

section roots

variable {k : OldSpace} {l : List ℕ} {σ : ℕ → ℕ} {c : ℕ → Payload} {s : State} {p : ℕ}
  {slots : List ℕ} {root : Frames}

/-- A slot needs no test for NULL: `forward` returns NULL as it is. -/
theorem forwardSlot_eq (h : Copying k l σ c s) : forwardSlot s p = forward s p := by
  unfold forwardSlot
  split
  · rename_i hp
    have hout : ¬ k.Inside p := hp ▸ OldSpace.not_inside_null
    rw [forward_of_not_inside h hout, h.eq_of_not_inside hout]
  · rfl

/-- A frame is updated, and its objects are copied. -/
theorem forwardFrame_spec (h : Copying k l σ c s) (hp : ∀ p ∈ slots, k.Valid p) :
    ∃ s' σ', forwardFrame s slots = .ok (s', slots.map σ') ∧
      Moves k l σ s (discoverAll l (k.live slots)) σ' c s' := by
  induction slots generalizing l σ s with
  | nil => exact ⟨s, σ, rfl, .refl h⟩
  | cons p slots ih =>
      obtain ⟨s₁, σ₁, hf, hm₁⟩ := forward_spec h (hp p List.mem_cons_self)
      obtain ⟨s₂, σ₂, hfs, hm₂⟩ :=
        ih hm₁.copying fun q hq => hp q (List.mem_cons_of_mem p hq)
      have hσ : σ₂ p = σ₁ p :=
        hm₂.eq hm₁.copying (OldSpace.mem_discoverAll_live (List.mem_singleton_self p))
      refine ⟨s₂, σ₂, ?_, ?_⟩
      · rw [forwardFrame, forwardSlot_eq h, hf]
        simp only [bind, Except.bind, hfs, pure, Except.pure, List.map_cons, hσ]
      · rw [OldSpace.live_cons, discoverAll_append]
        exact hm₁.trans hm₂

/-- The frames are updated, and their objects are copied. -/
theorem forwardFrames_spec (h : Copying k l σ c s)
    (hp : ∀ frame ∈ root, ∀ p ∈ frame, k.Valid p) :
    ∃ s' σ', forwardFrames s root = .ok (s', root.map (List.map σ')) ∧
      Moves k l σ s (discoverAll l (k.live root.flatten)) σ' c s' := by
  induction root generalizing l σ s with
  | nil => exact ⟨s, σ, rfl, .refl h⟩
  | cons frame root ih =>
      obtain ⟨s₁, σ₁, hf, hm₁⟩ := forwardFrame_spec h (hp frame List.mem_cons_self)
      obtain ⟨s₂, σ₂, hfs, hm₂⟩ :=
        ih hm₁.copying fun q hq => hp q (List.mem_cons_of_mem frame hq)
      have hσ : frame.map σ₂ = frame.map σ₁ :=
        List.map_congr_left fun p hp => hm₂.eq hm₁.copying (OldSpace.mem_discoverAll_live hp)
      refine ⟨s₂, σ₂, ?_, ?_⟩
      · rw [forwardFrames, hf]
        simp only [bind, Except.bind, hfs, pure, Except.pure, List.map_cons, hσ]
      · rw [List.flatten_cons, OldSpace.live, List.filter_append, discoverAll_append]
        exact hm₁.trans hm₂

/-- `Symbols` and the roots are replaced by the new addresses. -/
theorem forwardRootObjects_spec (h : Copying k l σ c s) (hs : k.Valid s.block.symbols)
    (hp : ∀ frame ∈ root, ∀ p ∈ frame, k.Valid p) :
    ∃ s' σ', forwardRootObjects s root = .ok (s', root.map (List.map σ')) ∧
      Copying k (discoverAll l (k.live (s.block.symbols :: root.flatten))) σ' c s' ∧
      s'.scan1 = s.scan1 ∧
      s'.block = { s.block with symbols := σ' s.block.symbols } := by
  obtain ⟨s₁, σ₁, hf, hm₁⟩ := forward_spec h hs
  have hc₁ : Copying k (discoverAll l (k.live [s.block.symbols])) σ₁ c
      { s₁ with block := { s₁.block with symbols := σ₁ s.block.symbols } } :=
    { hm₁.copying with }
  obtain ⟨s₂, σ₂, hfs, hm₂⟩ := forwardFrames_spec hc₁ hp
  have hσ : σ₂ s.block.symbols = σ₁ s.block.symbols :=
    hm₂.eq hc₁ (OldSpace.mem_discoverAll_live (List.mem_singleton_self _))
  refine ⟨s₂, σ₂, ?_, ?_, ?_, ?_⟩
  · simp only [forwardRootObjects, hf, bind, Except.bind, hfs]
  · rw [OldSpace.live_cons, discoverAll_append]
    exact hm₂.copying
  · rw [hm₂.scan1, hm₁.scan1]
  · rw [hm₂.block, hm₁.block, hσ]

end roots

end KernelPanic.Minilisp
