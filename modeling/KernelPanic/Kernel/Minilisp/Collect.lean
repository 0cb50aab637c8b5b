import KernelPanic.Kernel.Minilisp.Forward

/-!
# KernelPanic.Kernel.Minilisp.Collect

A collection keeps the reachable object graph (`gc_collects`) and leaves a
well-formed heap (`Collected.wellFormed`).  `Scanning` is the invariant of the loop
in `gc`: the copies up to `scan1` are final, those from there to `scan2` still hold
pointers into the old space.
-/

namespace KernelPanic.Minilisp

open Tiling Traversal

/-! ## one object -/

section object

variable {k : OldSpace} {l : List ℕ} {σ : ℕ → ℕ} {c : ℕ → Payload} {s : State} {a p : ℕ}
  {f : Field} {fs : List Field}

/-- A member of the copy of `a` is assigned. -/
theorem Copying.setField (h : Copying k l σ c s) (ha : a ∈ l) :
    Copying k l σ (Function.update c a ((c a).setField p f))
      { s with mem := s.mem.write (σ a) ⟨k.size a, (c a).setField p f⟩ } := by
  have hbytes : Obj.bytes ⟨k.size a, (c a).setField p f⟩ = k.size a := by
    rw [Obj.bytes, Payload.bytes_setField]
    exact h.copy_bytes ha
  have hab := h.tiles.bounds ha
  have hle := h.scan2_le
  -- The old space is out of reach.
  have hold {b : ℕ} {P : Payload} (hb : b ∈ k.objs) (hP : P.bytes ≤ max 8 (k.payload b).bytes)
      (ho : s.mem b = some ⟨k.size b, P⟩) :
      s.mem.write (σ a) ⟨k.size a, (c a).setField p f⟩ b = some ⟨k.size b, P⟩ := by
    refine Memory.write_of_disjoint ho (OldSpace.outside_new hb hP hab.1 ?_)
    rw [hbytes]
    omega
  refine
    { fromSpace := h.fromSpace, room := h.room, sub := h.sub, nodup := h.nodup, tiles := h.tiles,
      fixed := h.fixed, tombstone := fun b hb => hold (h.sub hb) (le_max_left ..) (h.tombstone b hb),
      untouched := fun b hb hbl => hold hb (le_max_right ..) (h.untouched b hb hbl), copy := ?_,
      fresh := ?_, bytes := ?_, outside := ?_ }
  · intro b hb
    by_cases heq : b = a
    · subst heq
      rw [Function.update_self]
      exact Memory.write_self
    · rw [Function.update_of_ne heq]
      refine Memory.write_of_disjoint (h.copy b hb) ?_
      rw [hbytes, Outside, h.copy_bytes hb]
      exact h.tiles.disjoint hb ha heq
  · intro b hb
    rw [Function.update_of_ne (ne_of_mem_of_not_mem ha hb).symm]
    exact h.fresh b hb
  · intro b
    by_cases heq : b = a
    · subst heq
      rw [Function.update_self, Payload.bytes_setField]
      exact h.bytes b
    · rw [Function.update_of_ne heq]
      exact h.bytes b
  · intro x o ho hsrc hdst
    refine Memory.write_of_disjoint (h.outside x o ho hsrc hdst) ?_
    rw [hbytes]
    rw [Outside] at hdst ⊢
    omega

/-- `scan1->f = forward(scan1->f)`: the member becomes a new address. -/
theorem forwardField_spec (h : Copying k l σ c s) (ha : a ∈ l) (hscan : s.scan1 = σ a)
    (hf : (c a).field f = some p) (hp : k.Valid p) :
    ∃ s' σ', forwardField s f = .ok s' ∧
      Moves k l σ s (discoverAll l (k.live [p])) σ'
        (Function.update c a ((c a).setField (σ' p) f)) s' := by
  obtain ⟨s₁, σ₁, hfw, hm⟩ := forward_spec h hp
  have hσ : σ₁ a = σ a := hm.agree a ha
  have hload : s.mem s.scan1 = some ⟨k.size a, c a⟩ := by rw [hscan, h.copy a ha]
  have hscan₁ : s₁.scan1 = σ₁ a := by rw [hm.scan1, hscan, hσ]
  have hload₁ : s₁.mem (σ₁ a) = some ⟨k.size a, c a⟩ := hm.copying.copy a (hm.sub ha)
  refine ⟨_, σ₁, ?_, hm.copying.setField (p := σ₁ p) (f := f) (hm.sub ha), hm.sub, hm.agree,
    hm.scan1, hm.block⟩
  simp only [forwardField, hload, hf, hfw, bind, Except.bind, hscan₁, hload₁, pure, Except.pure]

/-- All members the collector updates; those still ahead hold old pointers. -/
theorem forwardFields_spec (h : Copying k l σ c s) (ha : a ∈ l) (hscan : s.scan1 = σ a)
    (hnodup : fs.Nodup) {ps : List ℕ} (hfs : fs.map (c a).field = ps.map some)
    (hps : ∀ p ∈ ps, k.Valid p) :
    ∃ s' σ', forwardFields s fs = .ok s' ∧
      Moves k l σ s (discoverAll l (k.live ps)) σ'
        (Function.update c a ((c a).mapFields σ' fs)) s' := by
  induction fs generalizing l σ c s ps with
  | nil =>
      cases ps with
      | nil =>
          refine ⟨s, σ, rfl, ?_⟩
          rw [Payload.mapFields, Function.update_eq_self]
          exact .refl h
      | cons p ps => cases hfs
  | cons f fs ih =>
      cases ps with
      | nil => cases hfs
      | cons p ps =>
          rw [List.map_cons, List.map_cons, List.cons.injEq] at hfs
          rw [List.nodup_cons] at hnodup
          obtain ⟨s₁, σ₁, hf₁, hm₁⟩ :=
            forwardField_spec h ha hscan hfs.1 (hps p List.mem_cons_self)
          have hσ₁ : σ₁ a = σ a := hm₁.agree a ha
          have hself : Function.update c a ((c a).setField (σ₁ p) f) a =
              (c a).setField (σ₁ p) f := Function.update_self ..
          have hahead : fs.map ((c a).setField (σ₁ p) f).field = ps.map some := by
            rw [← hfs.2]
            refine List.map_congr_left fun g hg => Payload.field_setField ?_
            exact ne_of_mem_of_not_mem hg hnodup.1
          obtain ⟨s₂, σ₂, hf₂, hm₂⟩ :=
            ih hm₁.copying (hm₁.sub ha) (by rw [hm₁.scan1, hscan, hσ₁]) hnodup.2
              (hself.symm ▸ hahead) fun q hq => hps q (List.mem_cons_of_mem p hq)
          have hσ : σ₂ p = σ₁ p :=
            hm₂.eq hm₁.copying (OldSpace.mem_discoverAll_live (List.mem_singleton_self p))
          refine ⟨s₂, σ₂, ?_, ?_⟩
          · simp only [forwardFields, hf₁, bind, Except.bind, hf₂]
          · have hmap : (c a).mapFields σ₂ (f :: fs) =
                ((c a).setField (σ₁ p) f).mapFields σ₂ fs := by
              rw [Payload.mapFields, hfs.1, Option.elim_some, hσ]
            rw [OldSpace.live_cons, discoverAll_append, hmap]
            rw [hself, Function.update_idem] at hm₂
            exact hm₁.trans hm₂

/-- The object at `scan1` gets its final pointers, and `scan1` moves past it. -/
theorem scanObject_spec (h : Copying k l σ c s) (ha : a ∈ l) (hscan : s.scan1 = σ a)
    (hc : c a = k.payload a) :
    ∃ s' σ', scanObject s = .ok { s' with scan1 := σ a + k.size a } ∧
      Moves k l σ s (discoverAll l (k.next a)) σ'
        (Function.update c a ((k.payload a).mapPointers σ')) s' := by
  obtain ⟨fs, hfs⟩ := Option.isSome_iff_exists.mp (OldSpace.isRegular (h.sub ha)).1
  change (k.payload a).scanned = some fs at hfs
  obtain ⟨hnodup, hfields⟩ := Payload.pointers_of_scanned hfs
  obtain ⟨s₁, σ₁, hf, hm⟩ := forwardFields_spec h ha hscan hnodup (hc ▸ hfields)
    fun p hp => OldSpace.valid_of_mem_pointers (h.sub ha) hp
  rw [hc, Payload.mapFields_scanned hfs] at hm
  refine ⟨s₁, σ₁, ?_, hm⟩
  have hload : s.mem s.scan1 = some ⟨k.size a, k.payload a⟩ := by
    rw [hscan, h.copy a ha, hc]
  have hload₁ : s₁.mem s₁.scan1 =
      some ⟨k.size a, (k.payload a).mapPointers σ₁⟩ := by
    rw [hm.scan1, hscan, ← hm.agree a ha, hm.copying.copy a (hm.sub ha), Function.update_self]
  simp only [scanObject, hload, hfs, hf, bind, Except.bind, hload₁, pure, Except.pure]
  rw [hm.scan1, hscan]

end object

/-! ## the loop -/

/-- The head of the loop in `gc`: the copies of the objects of `done` are final,
those of `pending` hold old pointers, and `scan1` stands between them. -/
structure Scanning (k : OldSpace) (roots done pending : List ℕ) (σ : ℕ → ℕ) (c : ℕ → Payload)
    (s : State) : Prop where
  copying : Copying k (done ++ pending) σ c s
  traversed : Traversed k.next roots done pending
  scan1 : Tiles σ k.size k.dst done s.scan1
  old : ∀ a ∈ pending, c a = k.payload a
  final : ∀ a ∈ done, c a = (k.payload a).mapPointers σ

namespace Scanning

variable {k : OldSpace} {roots done pending : List ℕ} {σ : ℕ → ℕ} {c : ℕ → Payload} {s : State}
  {a p : ℕ}

/-- What lies between the scan pointers are the copies with old pointers. -/
theorem tiles_pending (h : Scanning k roots done pending σ c s) :
    Tiles σ k.size s.scan1 pending s.scan2 := by
  obtain ⟨mid, hdone, hpending⟩ := h.copying.tiles.split
  rwa [h.scan1.end_eq, ← hdone.end_eq]

/-- A pointer of a final copy leads to a copy or out of the old space. -/
theorem mem_of_mem_pointers (h : Scanning k roots done pending σ c s) (ha : a ∈ done)
    (hp : p ∈ (k.payload a).pointers) (hin : k.Inside p) : p ∈ done ++ pending :=
  h.traversed.closed a ha p (OldSpace.mem_live.mpr ⟨hp, hin⟩)

/-- One turn of the loop. -/
theorem step (h : Scanning k roots done (a :: pending) σ c s) :
    ∃ s' σ' c' new, scanObject s = .ok s' ∧
      Scanning k roots (done ++ [a]) (pending ++ new) σ' c' s' ∧
      (∀ b ∈ done ++ a :: pending, σ' b = σ b) ∧ s'.block = s.block := by
  have ha : a ∈ done ++ a :: pending := by simp
  have hscan : s.scan1 = σ a := h.tiles_pending.1.symm
  have hnodup := h.copying.nodup
  have hnot : a ∉ done ∧ a ∉ pending := by
    rw [List.nodup_append, List.nodup_cons] at hnodup
    exact ⟨fun hd => hnodup.2.2 a hd a List.mem_cons_self rfl, hnodup.2.1.1⟩
  obtain ⟨s', σ', hrun, hm⟩ :=
    scanObject_spec h.copying ha hscan (h.old a List.mem_cons_self)
  obtain ⟨new, hnew, htrav⟩ := h.traversed.visit
  have hc' : Copying k (done ++ [a] ++ (pending ++ new)) σ'
      (Function.update c a ((k.payload a).mapPointers σ')) s' := by
    have hl := hm.copying
    rw [show k.next a = k.live (k.payload a).pointers from rfl] at hnew
    rwa [show k.next a = k.live (k.payload a).pointers from rfl, hnew] at hl
  refine ⟨_, σ', _, new, hrun, ⟨{ hc' with }, htrav, ?_, ?_, ?_⟩, hm.agree, hm.block⟩
  · -- `scan1` has moved past the copy of `a`.
    have hdone : Tiles σ' k.size k.dst done (σ a) := by
      refine (hscan ▸ h.scan1).congr (fun b hb => ?_) fun _ _ => rfl
      exact hm.agree b (List.mem_append_left _ hb)
    exact hdone.append ⟨hm.agree a ha, rfl⟩
  · -- The objects found last are copied as they were.
    intro b hb
    have hba : b ≠ a := by
      have hnd := List.disjoint_of_nodup_append hc'.nodup
      rintro rfl
      exact hnd (List.mem_append_right _ (List.mem_singleton_self b)) hb
    rw [Function.update_of_ne hba]
    rcases List.mem_append.mp hb with hb | hb
    · exact h.old b (List.mem_cons_of_mem a hb)
    · by_cases hbl : b ∈ done ++ a :: pending
      · have hnd := hc'.nodup
        rw [List.append_assoc, List.nodup_append] at hnd
        grind
      · exact h.copying.fresh b hbl
  · -- The addresses in final copies stand.
    intro b hb
    rcases List.mem_append.mp hb with hb | hb
    · rw [Function.update_of_ne (ne_of_mem_of_not_mem hb hnot.1), h.final b hb]
      refine (Payload.mapPointers_congr fun p hp => ?_).symm
      exact hm.eq h.copying (h.mem_of_mem_pointers hb hp)
    · rw [List.mem_singleton] at hb
      rw [hb, Function.update_self]

/-- The loop ends, with nothing pending. -/
theorem run (h : Scanning k roots done pending σ c s) {fuel : ℕ}
    (hfuel : k.objs.length < done.length + fuel) :
    ∃ s' σ' c' done', scan fuel s = .ok s' ∧ Scanning k roots done' [] σ' c' s' ∧
      (∀ b ∈ done ++ pending, σ' b = σ b ∧ b ∈ done') ∧ s'.block = s.block := by
  induction fuel generalizing done pending σ c s with
  | zero =>
      have := h.traversed.length_le h.copying.sub
      omega
  | succ fuel ih =>
      cases pending with
      | nil =>
          have hend : s.scan1 = s.scan2 := h.tiles_pending
          refine ⟨s, σ, c, done, ?_, h, by simp, rfl⟩
          rw [scan, if_neg (by omega)]
      | cons a pending =>
          have ha : a ∈ k.objs := h.copying.sub (by simp)
          have hlt : s.scan1 < s.scan2 := by
            have hs := OldSpace.le_size ha
            have hb := h.tiles_pending.bounds List.mem_cons_self
            have hstart : σ a = s.scan1 := h.tiles_pending.1
            omega
          obtain ⟨s₁, σ₁, c₁, new, hstep, hs₁, hagree₁, hblock₁⟩ := h.step
          obtain ⟨s₂, σ₂, c₂, done', hrun, hs₂, hagree₂, hblock₂⟩ :=
            ih hs₁ (by simp only [List.length_append, List.length_singleton]; omega)
          refine ⟨s₂, σ₂, c₂, done', ?_, hs₂, fun b hb => ?_, hblock₂.trans hblock₁⟩
          · rw [scan, if_pos hlt, hstep]
            exact hrun
          · have hmem := hagree₂ b (by simp at hb ⊢; tauto)
            exact ⟨hmem.1.trans (hagree₁ b hb), hmem.2⟩

/-- The copy of an object that has been visited is final. -/
theorem final_copy (h : Scanning k roots done pending σ c s) (ha : a ∈ done) :
    s.mem (σ a) = some ⟨k.size a, (k.payload a).mapPointers σ⟩ := by
  have hload := h.copying.copy a (List.mem_append_left _ ha)
  rwa [h.final a ha] at hload

/-! ### nothing pending -/

theorem scan1_eq (h : Scanning k roots done [] σ c s) : s.scan1 = s.scan2 := h.tiles_pending

/-- No root leads to the old space. -/
theorem not_inside_root {ps : List ℕ} (h : Scanning k (k.live ps) done [] σ c s) (hp : p ∈ ps) :
    ¬ k.Inside (σ p) :=
  h.copying.not_inside fun hin => h.traversed.roots p (OldSpace.mem_live.mpr ⟨hp, hin⟩)

/-- No copy has a pointer into the old space. -/
theorem not_inside_pointer (h : Scanning k roots done [] σ c s) (ha : a ∈ done)
    (hp : p ∈ (payloadAt s.mem (σ a)).pointers) : ¬ k.Inside p := by
  rw [payloadAt_of_some (h.final_copy ha), Payload.pointers_mapPointers] at hp
  obtain ⟨q, hq, rfl⟩ := List.mem_map.mp hp
  exact h.copying.not_inside (h.mem_of_mem_pointers ha hq)

/-- The copies tile the new space. -/
theorem tiles_new (h : Scanning k roots done [] σ c s) :
    Tiles id (sizeAt s.mem) k.dst (done.map σ) s.scan1 := by
  rw [tiles_map]
  exact h.scan1.congr (fun _ _ => rfl) fun a ha => sizeAt_of_some (h.final_copy ha)

/-- The reachable objects and the objects of the new space, one for one. -/
theorem bijOn (h : Scanning k roots done [] σ c s) :
    Set.BijOn σ {a | Reachable k.next roots a} {b | b ∈ done.map σ} := by
  have hmem : ∀ a, a ∈ done ↔ Reachable k.next roots a := fun a => h.traversed.mem_iff
  refine ⟨fun a ha => ?_, fun a ha b hb heq => ?_, fun b hb => ?_⟩
  · exact List.mem_map_of_mem ((hmem a).mpr ha)
  · refine h.scan1.start_injective (fun a ha => ?_) ((hmem a).mpr ha) ((hmem b).mpr hb) heq
    exact lt_of_lt_of_le (by decide) (OldSpace.le_size (h.copying.sub (by simpa using ha)))
  · obtain ⟨a, ha, rfl⟩ := List.mem_map.mp hb
    exact ⟨a, (hmem a).mp ha, rfl⟩

end Scanning

/-! ## a collection -/

section collection

variable {c : Statics} {s : State} {root : Frames} {objs : List ℕ} {p x : ℕ} {o : Obj}

namespace WellFormed

/-- A statically allocated object is in neither space. -/
theorem not_inSpace_of_mem (h : WellFormed c s root objs) (hp : p ∈ c.addresses) :
    ¬ s.block.InSpace p := by
  obtain ⟨⟨x, o⟩, hmem, rfl⟩ := List.mem_map.mp hp
  have hout := (h.statics x o hmem).2.1
  have hbytes := o.le_bytes
  rw [← h.current] at hout
  rintro ⟨hlo, hhi⟩
  simp only [Outside, headerSize] at hout hbytes hlo hhi
  omega

/-- What a collection of the heap finds. -/
def oldSpace (h : WellFormed c s root objs) : OldSpace where
  mem := s.mem
  objs := objs
  src := s.block.memory
  dst := s.block.nextHeap
  room := s.block.memorySize
  nused := s.block.memNused
  tiles := h.tiles
  regular := h.regular
  closed := fun a ha p hp => by
    rcases h.pointers a ha p hp with rfl | hobj | hstatic
    · exact .inr (.inl (h.current ▸ h.notNull.1))
    · exact .inl hobj
    · have := h.not_inSpace_of_mem hstatic
      rw [AllocBlock.InSpace] at this
      omega
  fits := h.used
  apart := h.current ▸ h.apart
  notNull := h.current ▸ h.notNull.1

theorem valid_of_static (h : WellFormed c s root objs)
    (hp : p ∈ objs ∨ p ∈ c.addresses) : h.oldSpace.Valid p :=
  hp.imp id h.not_inSpace_of_mem

theorem valid (h : WellFormed c s root objs) (hp : p = null ∨ p ∈ objs ∨ p ∈ c.addresses) :
    h.oldSpace.Valid p := by
  rcases hp with hnull | hp
  · exact .inr (hnull ▸ OldSpace.not_inside_null)
  · exact h.valid_of_static hp

/-- When the heaps have been swapped, nothing has been copied. -/
theorem copying (h : WellFormed c s root objs) :
    Copying h.oldSpace [] id h.oldSpace.payload s.swapHeaps where
  fromSpace := rfl
  room := rfl
  sub := List.nil_subset _
  nodup := List.nodup_nil
  tiles := rfl
  fixed := fun _ _ => rfl
  tombstone := by simp
  untouched := fun _ ha _ => OldSpace.mem_eq ha
  copy := by simp
  fresh := fun _ _ => rfl
  bytes := fun _ => rfl
  outside := fun _ _ ho _ _ => ho

end WellFormed

/-- The end of the loop, and of `gc`: the objects copied are those reachable. -/
theorem Scanning.collected (h : WellFormed c s root objs) {done : List ℕ} {σ : ℕ → ℕ}
    {cs : ℕ → Payload} {t : State} (hs : Scanning h.oldSpace (s.rootRefs root) done [] σ cs t)
    (hblock : t.block = { s.swapHeaps.block with symbols := σ s.block.symbols }) :
    Collected c s root t.finishGc (root.map (List.map σ)) (done.map σ) σ := by
  have hc := hs.copying
  have hmemory : t.block.memory = s.block.nextHeap := by rw [hblock]; rfl
  have hroom : t.block.memorySize = s.block.memorySize := by rw [hblock]; rfl
  have hlo : s.block.nextHeap ≤ t.scan1 := hs.scan1.le
  have hhi : t.scan1 ≤ s.block.nextHeap + s.block.memorySize := hs.scan1_eq.trans_le hc.scan2_le
  have hroots : ∀ p ∈ s.block.symbols :: root.flatten, ¬ s.block.InSpace (σ p) :=
    fun p hp => hs.not_inside_root hp
  constructor
  case tiles =>
    have hend : t.finishGc.block.memory + t.finishGc.block.memNused = t.scan1 := by
      show t.block.memory + (t.scan1 - t.block.memory) = t.scan1
      rw [hmemory]
      omega
    rw [hend, show t.finishGc.block.memory = s.block.nextHeap from hmemory]
    exact hs.tiles_new
  case bijective => exact hs.bijOn
  case copies =>
    intro a ha
    have hdone := hs.traversed.mem_iff.mpr ha
    exact ⟨_, OldSpace.mem_eq (hc.sub (List.mem_append_left _ hdone)), hs.final_copy hdone⟩
  case fixed => exact fun p hp => hc.eq_of_not_inside hp
  case null => exact hc.eq_of_not_inside OldSpace.not_inside_null
  case statics =>
    intro x o ho
    obtain ⟨hx, hsrc, hdst⟩ := h.statics x o ho
    rw [← h.current] at hsrc
    exact ⟨hc.eq_of_not_inside (h.not_inSpace_of_mem (List.mem_map.mpr ⟨_, ho, rfl⟩)),
      hc.outside x o hx hsrc hdst⟩
  case roots => rfl
  case symbols =>
    show t.block.symbols = _
    rw [hblock]
  case noOldPointer =>
    intro b hb p hp
    obtain ⟨a, ha, rfl⟩ := List.mem_map.mp hb
    exact hs.not_inside_pointer ha hp
  case noOldRoot =>
    intro frame hframe p hp
    obtain ⟨old, hold, rfl⟩ := List.mem_map.mp hframe
    obtain ⟨q, hq, rfl⟩ := List.mem_map.mp hp
    exact hroots q (List.mem_cons_of_mem _ (List.mem_flatten.mpr ⟨old, hold, hq⟩))
  case noOldSymbols =>
    show ¬ s.block.InSpace t.block.symbols
    rw [hblock]
    exact hroots _ List.mem_cons_self
  case memory =>
    show t.block.memory = t.block.curHeap
    rw [hblock]
    rfl
  case curHeap =>
    show t.block.curHeap = _
    rw [hblock]
    rfl
  case nextHeap =>
    show t.block.nextHeap = _
    rw [hblock]
    rfl
  case used =>
    show t.scan1 - t.block.memory ≤ t.block.memorySize
    rw [hmemory, hroom]
    omega
  case memorySize => exact hroom
  case alwaysGc =>
    show t.block.alwaysGc = _
    rw [hblock]
    rfl
  case idle => rfl

/-- **A collection preserves the reachable object graph**, and returns: as many
turns of the loop as there are bytes in use are enough. -/
theorem gc_collects (h : WellFormed c s root objs) {fuel : ℕ} (hfuel : s.block.memNused < fuel) :
    ∃ s' root' objs' σ, gc fuel s root = .ok (s', root') ∧
      Collected c s root s' root' objs' σ := by
  obtain ⟨s₁, σ₁, hroots, hc₁, hscan₁, hblock₁⟩ :=
    forwardRootObjects_spec h.copying (h.valid_of_static h.symbols) fun _ hf _ hp =>
      h.valid (h.roots _ hf _ hp)
  have hstart : Scanning h.oldSpace (s.rootRefs root) [] (discoverAll [] (s.rootRefs root)) σ₁
      h.oldSpace.payload s₁ :=
    ⟨hc₁, .start, hscan₁.symm, fun _ _ => rfl, by simp⟩
  have hturns : h.oldSpace.objs.length < ([] : List ℕ).length + fuel := by
    have hlength := h.tiles.length_le fun a ha =>
      lt_of_lt_of_le (by decide) (OldSpace.le_size (k := h.oldSpace) ha)
    show objs.length < 0 + fuel
    omega
  obtain ⟨s₂, σ₂, c₂, done, hrun, hs₂, hagree, hblock₂⟩ := hstart.run hturns
  have hσ : ∀ p ∈ s.block.symbols :: root.flatten, σ₂ p = σ₁ p := by
    intro p hp
    by_cases hin : h.oldSpace.Inside p
    · exact (hagree p (OldSpace.mem_discoverAll_live hp hin)).1
    · rw [hc₁.eq_of_not_inside hin, hs₂.copying.eq_of_not_inside hin]
  have hroot : root.map (List.map σ₁) = root.map (List.map σ₂) := by
    refine List.map_congr_left fun frame hf => List.map_congr_left fun p hp => ?_
    exact (hσ p (List.mem_cons_of_mem _ (List.mem_flatten.mpr ⟨frame, hf, hp⟩))).symm
  refine ⟨s₂.finishGc, root.map (List.map σ₂), done.map σ₂, σ₂, ?_, hs₂.collected h ?_⟩
  · rw [gc, h.idle, if_neg (by decide), hroots, ← hroot]
    simp only [bind, Except.bind, hrun, pure, Except.pure]
  · rw [hblock₂, hblock₁, hσ _ List.mem_cons_self]
    rfl

/-! ## a heap again -/

/-- What a valid pointer into the space points to is an object of it. -/
theorem WellFormed.mem_objs (h : WellFormed c s root objs)
    (hp : p = null ∨ p ∈ objs ∨ p ∈ c.addresses) (hin : s.block.InSpace p) : p ∈ objs :=
  (h.valid hp).resolve_right (not_not.mpr hin)

theorem WellFormed.mem_of_reachable (h : WellFormed c s root objs) (ha : s.Reachable root p) :
    p ∈ objs := by
  induction ha with
  | root hp =>
      obtain ⟨hmem, hin⟩ := List.mem_filter.mp hp
      have hin := of_decide_eq_true hin
      rcases List.mem_cons.mp hmem with rfl | hmem
      · exact h.mem_objs (.inr h.symbols) hin
      · obtain ⟨frame, hf, hp⟩ := List.mem_flatten.mp hmem
        exact h.mem_objs (h.roots frame hf _ hp) hin
  | next _ hp ih =>
      obtain ⟨hmem, hin⟩ := List.mem_filter.mp hp
      exact h.mem_objs (h.pointers _ ih _ hmem) (of_decide_eq_true hin)

section collected

variable {s' : State} {root' : Frames} {objs' : List ℕ} {σ : ℕ → ℕ}

/-- A pointer that is followed leads to an object of the new space, or to a
statically allocated one. -/
theorem Collected.valid (h : WellFormed c s root objs) (hc : Collected c s root s' root' objs' σ)
    (hp : p ∈ objs ∨ p ∈ c.addresses) (hreach : s.block.InSpace p → s.Reachable root p) :
    σ p ∈ objs' ∨ σ p ∈ c.addresses := by
  by_cases hin : s.block.InSpace p
  · exact .inl (hc.bijective.mapsTo (hreach hin))
  · rw [hc.fixed p hin]
    refine hp.imp (fun hobj => ?_) id
    exact absurd (OldSpace.inside (k := h.oldSpace) hobj) hin

/-- **After a collection the heap is well formed**, for the roots it has left. -/
theorem Collected.wellFormed (h : WellFormed c s root objs)
    (hc : Collected c s root s' root' objs' σ) : WellFormed c s' root' objs' := by
  -- An object of the new space is the copy of a reachable one.
  have hcopy : ∀ b ∈ objs', ∃ a o, s.Reachable root a ∧ s.mem a = some o ∧ o.IsRegular ∧
      s'.mem b = some ⟨o.size, o.payload.mapPointers σ⟩ := by
    intro b hb
    obtain ⟨a, ha, rfl⟩ := hc.bijective.surjOn hb
    obtain ⟨o, ho, ho'⟩ := hc.copies a ha
    obtain ⟨o₁, ho₁, hreg⟩ := h.regular a (h.mem_of_reachable ha)
    rw [ho, Option.some.injEq] at ho₁
    exact ⟨a, o, ha, ho, ho₁ ▸ hreg, ho'⟩
  have hroot : ∀ p ∈ s.block.symbols :: root.flatten, s.block.InSpace p → s.Reachable root p :=
    fun p hp hin => .root (List.mem_filter.mpr ⟨hp, decide_eq_true hin⟩)
  constructor
  case tiles => exact hc.tiles
  case regular =>
    intro b hb
    obtain ⟨a, o, -, -, hreg, ho'⟩ := hcopy b hb
    refine ⟨_, ho', ?_, ?_⟩
    · rw [Payload.scanned_mapPointers]
      exact hreg.1
    · rw [Payload.bytes_mapPointers]
      exact hreg.2
  case pointers =>
    intro b hb p hp
    obtain ⟨a, o, ha, ho, -, ho'⟩ := hcopy b hb
    rw [payloadAt_of_some ho', Payload.pointers_mapPointers] at hp
    obtain ⟨q, hq, rfl⟩ := List.mem_map.mp hp
    rw [← payloadAt_of_some ho] at hq
    rcases h.pointers a (h.mem_of_reachable ha) q hq with rfl | hvalid
    · exact .inl hc.null
    · refine .inr (hc.valid h hvalid fun hin => ?_)
      exact .next ha (List.mem_filter.mpr ⟨hq, decide_eq_true hin⟩)
  case roots =>
    intro frame hframe p hp
    rw [hc.roots] at hframe
    obtain ⟨old, hold, rfl⟩ := List.mem_map.mp hframe
    obtain ⟨q, hq, rfl⟩ := List.mem_map.mp hp
    have hflat : q ∈ root.flatten := List.mem_flatten.mpr ⟨old, hold, hq⟩
    rcases h.roots old hold q hq with rfl | hvalid
    · exact .inl hc.null
    · exact .inr (hc.valid h hvalid (hroot q (List.mem_cons_of_mem _ hflat)))
  case symbols =>
    rw [hc.symbols]
    exact hc.valid h h.symbols (hroot _ List.mem_cons_self)
  case used => exact hc.used
  case current => exact hc.memory
  case apart =>
    rw [hc.curHeap, hc.nextHeap, hc.memorySize]
    exact h.apart.symm
  case notNull =>
    rw [hc.curHeap, hc.nextHeap]
    exact h.notNull.symm
  case statics =>
    intro x o ho
    obtain ⟨-, hcur, hnext⟩ := h.statics x o ho
    rw [hc.curHeap, hc.nextHeap, hc.memorySize]
    exact ⟨(hc.statics x o ho).2, hnext, hcur⟩
  case idle => exact hc.idle

end collected

end collection

/-! ## a small heap -/

def sampleStatics : Statics := ⟨8, 16, 24, 32⟩

/-- A number that two cells share, one of which is its own `cdr`, and a symbol that
nothing points to. -/
def sampleObjects : List (ℕ × Obj) :=
  [(64, ⟨16, .int 7⟩), (80, ⟨24, .cell 64 80⟩), (104, ⟨16, .symbol [120]⟩),
    (120, ⟨24, .cell 64 16⟩)]

def sampleHeap : State where
  mem := fun a => (sampleStatics.objects ++ sampleObjects).lookup a
  block :=
    { memory := 64, fromSpace := 192, memNused := 80, curHeap := 64, nextHeap := 192,
      memorySize := 96, gcRunning := false, debugGc := false, alwaysGc := false,
      symbols := 120 }
  scan1 := 0
  scan2 := 0
  printed := []

def sampleRoots : Frames := [[80, null], [16]]

theorem sampleHeap_wellFormed :
    WellFormed sampleStatics sampleHeap sampleRoots [64, 80, 104, 120] where
  tiles := ⟨rfl, rfl, rfl, rfl, rfl⟩
  regular := by
    intro a ha
    simp only [List.mem_cons, List.not_mem_nil, or_false] at ha
    rcases ha with rfl | rfl | rfl | rfl <;> exact ⟨_, rfl, rfl, by decide⟩
  pointers := by decide
  roots := by decide
  symbols := by decide
  used := by decide
  current := rfl
  apart := by decide
  notNull := by decide
  statics := by
    intro x o ho
    simp only [Statics.objects, List.mem_cons, Prod.mk.injEq, List.not_mem_nil, or_false] at ho
    rcases ho with ⟨rfl, rfl⟩ | ⟨rfl, rfl⟩ | ⟨rfl, rfl⟩ | ⟨rfl, rfl⟩ <;>
      exact ⟨rfl, .inl (by decide), .inl (by decide)⟩
  idle := rfl

theorem gc_collects_sample :
    ∃ s' root' objs' σ, gc 81 sampleHeap sampleRoots = .ok (s', root') ∧
      Collected sampleStatics sampleHeap sampleRoots s' root' objs' σ :=
  gc_collects sampleHeap_wellFormed (by decide)

example : (gc 81 sampleHeap sampleRoots).toOption.map (fun r => (r.2, r.1.block.symbols,
    r.1.block.memNused, r.1.mem 192, r.1.mem 216, r.1.mem 240)) =
    some ([[216, null], [16]], 192, 64, some ⟨24, .cell 240 16⟩, some ⟨24, .cell 240 216⟩,
      some ⟨16, .int 7⟩) := rfl

end KernelPanic.Minilisp
