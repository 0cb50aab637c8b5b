import KernelPanic.Kernel.Minilisp.Reads
import KernelPanic.Kernel.Minilisp.Simulation

/-!
# KernelPanic.Kernel.Minilisp.Independence

Reading does not depend on when the collector runs.

Two machines that start with the same heap and the same symbols, one of which collects
before every allocation, are both related to one machine whose objects never move.  So
is what they leave (`run_agree`), and `readExpr` builds the same data on both, with the
same sharing (`SameData`); every symbol in it is the one of that name in `Symbols`.
-/

namespace KernelPanic.Minilisp

open Machine Prog

/-! ## data -/

/-- The objects that an object points to. -/
def children (rd : ℕ → Option Payload) (a : ℕ) : List ℕ :=
  (((rd a).map Payload.pointers).getD []).filter (· ≠ null)

/-- The objects that the data at `a` consists of. -/
def Part (rd : ℕ → Option Payload) (a : ℕ) : ℕ → Prop :=
  Traversal.Reachable (children rd) ([a].filter (· ≠ null))

/-- The data at `a₁` and at `a₂` is the same, sharing included: `σ` renames the addresses
of one to those of the other. -/
structure SameData (c : Statics) (rd₁ rd₂ : ℕ → Option Payload) (a₁ a₂ : ℕ) (σ : ℕ → ℕ) : Prop where
  root : σ a₁ = a₂
  fixed : ∀ x, Fixed c x → σ x = x
  injOn : Set.InjOn σ {x | Part rd₁ a₁ x}
  copies : ∀ x, Part rd₁ a₁ x →
    ∃ payload, rd₁ x = some payload ∧ rd₂ (σ x) = some (payload.mapPointers σ)

/-- `Symbols` is a list of symbols, no two of them with one name. -/
structure Interned (c : Statics) (s : State) (tbl : List Entry) : Prop where
  listed : Listed ((concrete c).read s) c.constNil tbl s.block.symbols
  names : (tbl.map Entry.name).Nodup
  notNull : ∀ e ∈ tbl, e.cell ≠ null ∧ e.sym ≠ null

section part

variable {rd : ℕ → Option Payload} {a x y p : ℕ} {payload : Payload}

theorem mem_children (hread : rd a = some payload) :
    p ∈ children rd a ↔ p ∈ payload.pointers ∧ p ≠ null := by
  simp [children, hread]

theorem Part.ne_null (h : Part rd a x) : x ≠ null := by
  cases h with
  | root h => exact of_decide_eq_true (List.mem_filter.mp h).2
  | next _ h => exact of_decide_eq_true (List.mem_filter.mp h).2

theorem Part.refl (ha : a ≠ null) : Part rd a a :=
  .root (List.mem_filter.mpr ⟨List.mem_cons_self, decide_eq_true ha⟩)

/-- An object of the data is at its root, or belongs to what the root points to. -/
theorem Part.split (h : Part rd a x) : x = a ∨ ∃ b ∈ children rd a, Part rd b x := by
  induction h with
  | root h => exact .inl (List.mem_singleton.mp (List.mem_filter.mp h).1)
  | @next y z hy hz ih =>
      have hz' := of_decide_eq_true (List.mem_filter.mp hz).2
      refine .inr ?_
      rcases ih with rfl | ⟨b, hb, hy⟩
      · exact ⟨z, hz, .refl hz'⟩
      · exact ⟨b, hb, .next hy hz⟩

theorem Part.trans {b : ℕ} (h : Part rd a b) (h' : Part rd b x) : Part rd a x := by
  induction h' with
  | root hx => exact List.mem_singleton.mp (List.mem_filter.mp hx).1 ▸ h
  | next _ hx ih => exact .next ih hx

/-- An object without pointers is all of its data. -/
theorem Part.leaf (h : Part rd a x) (hread : rd a = some payload) (hleaf : payload.pointers = []) :
    x = a := by
  rcases h.split with rfl | ⟨b, hb, -⟩
  · rfl
  · simp [mem_children hread, hleaf] at hb

/-- What holds of the root and passes on to what an object points to holds of all the
data. -/
theorem Part.invariant {P : ℕ → Prop} (h : Part rd a x) (ha : P a)
    (hnext : ∀ y z payload, P y → rd y = some payload → z ∈ payload.pointers → P z) : P x := by
  induction h with
  | root h => exact List.mem_singleton.mp (List.mem_filter.mp h).1 ▸ ha
  | @next y z hy hz ih =>
      cases hread : rd y with
      | none => simp [children, hread] at hz
      | some payload => exact hnext y z payload ih hread ((mem_children hread).mp hz).1

end part

/-- The symbols of what the parser built are those of the table. -/
theorem Rep.symbol {c : Statics} {tbl : List Entry} {h : Ideal} {lo hi a x : ℕ} {e : Sexp}
    {name : List UInt8} (hrep : Rep c tbl h.read lo hi a e) (htbl : SymbolTable c tbl h)
    (hpart : Part h.read a x) (hread : h.read x = some (.symbol name)) :
    ∃ d ∈ tbl, d.sym = x ∧ d.name = name := by
  induction e generalizing a with
  | cell y z ihy ihz =>
      obtain ⟨-, -, p, q, hcell, hy, hz⟩ := hrep
      rcases hpart.split with rfl | ⟨b, hb, hpart⟩
      · rw [hcell] at hread
        cases hread
      · rcases List.mem_pair.mp ((mem_children hcell).mp hb).1 with rfl | rfl
        · exact ihy hy hpart
        · exact ihz hz hpart
  | symbol name' =>
      obtain ⟨d, hd, -, rfl⟩ := hrep
      have hsym := (htbl.listed.entry hd).1
      obtain rfl := hpart.leaf hsym rfl
      rw [hsym] at hread
      cases hread
      exact ⟨d, hd, rfl, rfl⟩
  | null =>
      obtain rfl : a = null := hrep
      rcases hpart.split with rfl | ⟨b, hb, -⟩
      · exact absurd rfl hpart.ne_null
      · simp [children, htbl.null] at hb
  | int n =>
      rw [hpart.leaf hrep.1 rfl, hrep.1] at hread
      cases hread
  | nil =>
      obtain rfl : a = c.constNil := hrep
      rw [hpart.leaf htbl.read_nil rfl, htbl.read_nil] at hread
      cases hread
  | dot =>
      obtain rfl : a = c.constDot := hrep
      rw [hpart.leaf htbl.read_dot rfl, htbl.read_dot] at hread
      cases hread
  | cparen =>
      obtain rfl : a = c.constCparen := hrep
      rw [hpart.leaf htbl.read_cparen rfl, htbl.read_cparen] at hread
      cases hread

/-! ## what two machines have in common -/

section sim

variable {c : Statics} {objs objs' : List ℕ} {D D' : Set ℕ} {ρ ρ' : ℕ → ℕ} {i i' : Machine Ideal}
  {m m' : Machine State} {a x y p : ℕ} {tbl : List Entry}

theorem Sim.read_some (h : Sim c objs D ρ i m) (hx : Known c D x) (hnull : x ≠ Minilisp.null) :
    ∃ payload, i.heap.read x = some payload := by
  rcases hx with hx | hx | hx
  · obtain ⟨-, payload, hread, -⟩ := h.object x hx
    exact ⟨payload, hread⟩
  · exact absurd hx hnull
  · obtain ⟨o, ho, -⟩ := Sim.static_mem hx
    exact ⟨o.payload, h.constant x o ho⟩

theorem Sim.eq_null (h : Sim c objs D ρ i m) (hx : Known c D x) : ρ x = Minilisp.null ↔ x = Minilisp.null := by
  have hfixed := h.fixed Minilisp.null (.inl rfl)
  rw [← h.inj hx (.inr (.inl rfl)), hfixed]

/-- The data at `a` is known. -/
theorem Sim.known_part (h : Sim c objs D ρ i m) (ha : Known c D a) (hpart : Part i.heap.read a x) :
    Known c D x :=
  hpart.invariant ha fun _ z _ hy hread hz => (h.read hy hread).2.1 z hz

/-- The data on the heap that is collected is an image of the data that does not move. -/
theorem Sim.part (h : Sim c objs D ρ i m) (ha : Known c D a)
    (hpart : Part ((concrete c).read m.heap) (ρ a) y) :
    ∃ x, Part i.heap.read a x ∧ Known c D x ∧ y = ρ x := by
  induction hpart with
  | root hy =>
      obtain ⟨hy, hnull⟩ := List.mem_filter.mp hy
      obtain rfl := List.mem_singleton.mp hy
      exact ⟨a, .refl fun heq => of_decide_eq_true hnull ((h.eq_null ha).mpr heq), ha, rfl⟩
  | @next y z hy hz ih =>
      obtain ⟨x, hx, hknown, rfl⟩ := ih
      obtain ⟨payload, hread⟩ := h.read_some hknown hx.ne_null
      obtain ⟨hmem, hpointers, -⟩ := h.read hknown hread
      obtain ⟨hchild, hnull⟩ := (mem_children hmem).mp hz
      rw [Payload.pointers_mapPointers] at hchild
      obtain ⟨b, hb, rfl⟩ := List.mem_map.mp hchild
      have hknown' := hpointers b hb
      refine ⟨b, .next hx ((mem_children hread).mpr ⟨hb, ?_⟩), hknown', rfl⟩
      exact fun heq => hnull ((h.eq_null hknown').mpr heq)

/-- The same data on two heaps. -/
theorem Sim.sameData (h : Sim c objs D ρ i m) (h' : Sim c objs' D' ρ' i m') (ha : Known c D a)
    (ha' : Known c D' a) :
    ∃ σ, SameData c ((concrete c).read m.heap) ((concrete c).read m'.heap) (ρ a) (ρ' a) σ := by
  have hinj : Set.InjOn ρ {x | Known c D x ∧ Known c D' x} := fun x hx y hy heq =>
    (h.inj hx.1 hy.1).mp heq
  obtain ⟨σ, hσ⟩ : ∃ σ : ℕ → ℕ, ∀ x, Known c D x → Known c D' x → σ (ρ x) = ρ' x := by
    refine ⟨ρ' ∘ Function.invFunOn ρ {x | Known c D x ∧ Known c D' x}, fun x hx hx' => ?_⟩
    exact congrArg ρ' (hinj.leftInvOn_invFunOn (show x ∈ {x | Known c D x ∧ Known c D' x} from ⟨hx, hx'⟩))
  have himage {y : ℕ} (hy : Part ((concrete c).read m.heap) (ρ a) y) :
      ∃ x, Part i.heap.read a x ∧ Known c D x ∧ Known c D' x ∧ y = ρ x := by
    obtain ⟨x, hx, hknown, heq⟩ := h.part ha hy
    exact ⟨x, hx, hknown, h'.known_part ha' hx, heq⟩
  refine ⟨σ, hσ a ha ha', fun x hx => ?_, fun y hy z hz heq => ?_, fun y hy => ?_⟩
  · have hfixed := hσ x (.inr hx) (.inr hx)
    rwa [h.fixed x hx, h'.fixed x hx] at hfixed
  · obtain ⟨y, -, hy₁, hy₂, rfl⟩ := himage hy
    obtain ⟨z, -, hz₁, hz₂, rfl⟩ := himage hz
    rw [hσ y hy₁ hy₂, hσ z hz₁ hz₂] at heq
    rw [(h'.inj hy₂ hz₂).mp heq]
  · obtain ⟨x, hx, hx₁, hx₂, rfl⟩ := himage hy
    obtain ⟨payload, hread⟩ := h.read_some hx₁ hx.ne_null
    obtain ⟨hmem, hpointers, -⟩ := h.read hx₁ hread
    obtain ⟨hmem', hpointers', -⟩ := h'.read hx₂ hread
    refine ⟨_, hmem, ?_⟩
    rw [hσ x hx₁ hx₂, hmem', Payload.mapPointers_mapPointers]
    exact congrArg some (Payload.mapPointers_congr fun p hp => (hσ p (hpointers p hp) (hpointers' p hp)).symm)

/-- The entry at its present addresses. -/
def Entry.map (ρ : ℕ → ℕ) (e : Entry) : Entry := ⟨e.name, ρ e.sym, ρ e.cell⟩

theorem Sim.listed (h : Sim c objs D ρ i m) (hp : Known c D p)
    (hlisted : Listed i.heap.read c.constNil tbl p) :
    Listed ((concrete c).read m.heap) c.constNil (tbl.map (Entry.map ρ)) (ρ p) ∧
      ∀ e ∈ tbl, Known c D e.cell ∧ Known c D e.sym := by
  induction tbl generalizing p with
  | nil =>
      obtain rfl : p = c.constNil := hlisted
      exact ⟨h.fixed _ (.inr (by simp)), by simp⟩
  | cons e tbl ih =>
      obtain ⟨rfl, hsym, q, hcell, hrest⟩ := hlisted
      obtain ⟨hcell', hpointers, -⟩ := h.read hp hcell
      have hknown := hpointers e.sym List.mem_cons_self
      obtain ⟨hrest', hknown'⟩ := ih (hpointers q (by simp [Payload.pointers])) hrest
      exact ⟨⟨rfl, (h.read hknown hsym).1, ρ q, hcell', hrest'⟩,
        List.forall_mem_cons.mpr ⟨⟨hp, hknown⟩, hknown'⟩⟩

/-- The table of symbols on the heap that is collected. -/
theorem Sim.interned (h : Sim c objs D ρ i m) (htbl : SymbolTable c tbl i.heap) :
    Interned c m.heap (tbl.map (Entry.map ρ)) := by
  obtain ⟨hlisted, hknown⟩ := h.listed h.symbols.1 htbl.listed
  refine ⟨?_, ?_, fun e he => ?_⟩
  · rw [h.symbols.2.2]
    exact hlisted
  · rw [List.map_map]
    exact htbl.names
  · obtain ⟨d, hd, rfl⟩ := List.mem_map.mp he
    obtain ⟨hsym, q, hcell⟩ := htbl.listed.entry hd
    obtain ⟨hknown₁, hknown₂⟩ := hknown d hd
    refine ⟨fun heq => ?_, fun heq => ?_⟩
    · rw [(h.eq_null hknown₁).mp heq, htbl.null] at hcell
      cases hcell
    · rw [(h.eq_null hknown₂).mp heq, htbl.null] at hsym
      cases hsym

end sim

/-! ## a machine at the start of a call -/

/-- A call of a function, with the input `w`. -/
def State.enter (s : State) (root : Frames) (w : World) : Machine State := ⟨s, root, ⟨[], []⟩, w⟩

/-- `always_gc` -/
def State.setAlwaysGc (s : State) (alwaysGc : Bool) : State :=
  { s with block := { s.block with alwaysGc := alwaysGc } }

/-- The same objects, where they will never move. -/
def State.still (c : Statics) (s : State) (objs : List ℕ) : Ideal where
  read a := if a ∈ objs ∨ a ∈ c.addresses then (concrete c).read s a else none
  next := s.block.memory + s.block.memNused + c.addresses.sum + 1
  symbols := s.block.symbols

section enter

variable {c : Statics} {s : State} {root : Frames} {objs : List ℕ} {tbl : List Entry} {w : World}
  {p : ℕ}

theorem WellFormed.setAlwaysGc (h : WellFormed c s root objs) (alwaysGc : Bool) :
    WellFormed c (s.setAlwaysGc alwaysGc) root objs :=
  { h with }

theorem Interned.setAlwaysGc (h : Interned c s tbl) (alwaysGc : Bool) :
    Interned c (s.setAlwaysGc alwaysGc) tbl :=
  { h with }

/-- The cells and symbols of the table are objects of the heap. -/
theorem WellFormed.listed (h : WellFormed c s root objs)
    (hlisted : Listed ((concrete c).read s) c.constNil tbl p)
    (hp : p = null ∨ p ∈ objs ∨ p ∈ c.addresses) (hnull : ∀ e ∈ tbl, e.cell ≠ null ∧ e.sym ≠ null) :
    ∀ e ∈ tbl, e.cell ∈ objs ∧ (e.sym ∈ objs ∨ e.sym ∈ c.addresses) := by
  induction tbl generalizing p with
  | nil => simp
  | cons e tbl ih =>
      obtain ⟨rfl, hsym, q, hcell, hrest⟩ := hlisted
      obtain ⟨hnull₁, hnull₂⟩ := hnull e List.mem_cons_self
      have hobj : e.cell ∈ objs := by
        refine (hp.resolve_left hnull₁).resolve_right fun hstatic => ?_
        obtain ⟨o, ho, hconst⟩ := Sim.static_mem hstatic
        have hmem := (h.statics e.cell o ho).1
        simp only [concrete, hmem, Option.map_some, Option.some.injEq] at hcell
        simp [hcell, Payload.IsConst] at hconst
      have hpayload : payloadAt s.mem e.cell = .cell e.sym q := by
        obtain ⟨o, ho, -⟩ := h.regular e.cell hobj
        rw [payloadAt_of_some ho]
        simpa [concrete, ho] using hcell
      have hpointers := h.pointers e.cell hobj
      simp only [hpayload, Payload.pointers, List.mem_cons, List.not_mem_nil, or_false,
        forall_eq_or_imp, forall_eq] at hpointers
      refine List.forall_mem_cons.mpr ⟨⟨hobj, hpointers.1.resolve_left hnull₂⟩, ?_⟩
      exact ih hrest hpointers.2 fun d hd => hnull d (List.mem_cons_of_mem _ hd)

theorem still_read {a : ℕ} (ha : a ∈ objs ∨ a ∈ c.addresses) :
    (s.still c objs).read a = (concrete c).read s a := if_pos ha

/-- Before anything has moved. -/
theorem WellFormed.sim (h : WellFormed c s root objs) (hnull : null ∉ c.addresses) :
    Sim c objs {a | a ∈ objs} id ⟨s.still c objs, root, ⟨[], []⟩, w⟩ (s.enter root w) := by
  have hobjs : null ∉ objs := fun hmem => h.not_fixed hmem (.inl rfl)
  have hknown {a : ℕ} (ha : a = null ∨ a ∈ objs ∨ a ∈ c.addresses) : Known c {a | a ∈ objs} a :=
    ha.elim (fun ha => .inr (.inl ha)) fun ha => ha.imp id .inr
  constructor
  case wellFormed => exact h
  case fixed => exact fun _ _ => rfl
  case injOn => exact Set.injOn_id _
  case object =>
    intro a ha
    obtain ⟨o, ho, -⟩ := h.regular a ha
    have hread : (concrete c).read s a = some o.payload := by simp [concrete, ho]
    refine ⟨ha, o.payload, (still_read (.inl ha)).trans hread, ?_, fun p hp => hknown ?_⟩
    · rw [Payload.mapPointers_id]
      exact hread
    · exact h.pointers a ha p (by rwa [payloadAt_of_some ho])
  case constant =>
    intro x o hx
    rw [still_read (.inr (List.mem_map.mpr ⟨_, hx, rfl⟩))]
    simp [concrete, (h.statics x o hx).1]
  case null => exact if_neg (not_or.mpr ⟨hobjs, hnull⟩)
  case next =>
    rintro a (ha | rfl | ha)
    · have hbounds := h.tiles.bounds ha
      have hpos := h.pos ha
      simp only [State.still, id] at hbounds ⊢
      omega
    · exact Nat.succ_pos _
    · have := List.le_sum_of_mem ha
      simp only [State.still]
      omega
  case symbols =>
    refine ⟨hknown (.inr h.symbols), fun heq => ?_, rfl⟩
    have hsymbols := h.symbols
    rw [show s.block.symbols = null from heq] at hsymbols
    exact hsymbols.elim hobjs hnull
  case frames => simp [State.enter]
  case slots => exact fun frame hframe a ha => hknown (h.roots frame hframe a ha)
  case age => rfl
  case length => rfl
  case handles => exact fun n a hn => by simp [Handles.all] at hn
  case world => rfl

theorem WellFormed.symbolTable (h : WellFormed c s root objs) (hnull : null ∉ c.addresses)
    (htbl : Interned c s tbl) : SymbolTable c tbl (s.still c objs) := by
  have hsim := h.sim (w := ⟨[], [], [], 0, []⟩) hnull
  have hmem := h.listed htbl.listed (.inr h.symbols) htbl.notNull
  refine ⟨hsim.constant, hsim.null, fun a ha => ?_, ?_, htbl.names⟩
  · refine hsim.next a ?_
    by_contra hunknown
    refine ha (if_neg fun hmem => hunknown ?_)
    exact hmem.imp id .inr
  · exact htbl.listed.mono fun e he =>
      ⟨still_read (.inl (hmem e he).1), still_read (hmem e he).2⟩

end enter

/-! ## `read_expr` on two machines -/

section read

variable {c : Statics} {s : State} {root : Frames} {objs : List ℕ} {tbl : List Entry} {w : World}
  {limit n : ℕ}

section outcome

variable {heap : Ideal} {frames : Frames} {budget : ℕ} {out : Except Fault Sexp × World}
  {res : Except Fault Ptr} {i : Machine Ideal}

/-- The code stops as `out` does. -/
theorem Reads.isStop (h : Reads c tbl heap frames budget out res i)
    (hout : ∀ e, out.1 = .error e → e.IsStop) : ∀ e, res = .error e → e.IsStop := by
  rcases out with ⟨e | x, w'⟩
  · obtain ⟨rfl, -⟩ := h
    intro e' he
    cases he
    exact hout e rfl
  · obtain ⟨q, -, -, -, rfl, -⟩ := h
    simp

/-- The pointer that is returned may be used. -/
theorem Reads.address {q : Ptr} (h : Reads c tbl heap frames budget out res i) (hq : res = .ok q) :
    ∃ a, i.address (ideal c) c q = .ok a := by
  rcases out with ⟨e | x, w'⟩
  · cases h.1.symm.trans hq
  · obtain ⟨q', heap', t', a, hok, rfl, hq', -⟩ := h
    cases hok.symm.trans hq
    exact ⟨a, hq'⟩

end outcome

/-- `read_expr` on a heap that is collected does what it does on the one where nothing
moves. -/
theorem readExpr_run {i : Machine Ideal} {m : Machine State} (h : Related c i m)
    (htbl : SymbolTable c tbl i.heap) (hn : i.world.input.length < n)
    (hlimit : tbl.length + i.world.input.length < limit) :
    Reads c tbl i.heap i.frames (tbl.length + i.world.input.length) (eval (parseExpr n) i.world)
        ((readExpr limit n).run (handle (ideal c) c) i).1
        ((readExpr limit n).run (handle (ideal c) c) i).2 ∧
      (((readExpr limit n).run (handle (concrete c) c) m).1 = .error (.error "Memory exhausted") ∧
          (∃ i', (readExpr limit n).Visits (handle (ideal c) c) i i' ∧
            Related c i' ((readExpr limit n).run (handle (concrete c) c) m).2) ∨
        ((readExpr limit n).run (handle (concrete c) c) m).1 =
            ((readExpr limit n).run (handle (ideal c) c) i).1 ∧
          Related c ((readExpr limit n).run (handle (ideal c) c) i).2
            ((readExpr limit n).run (handle (concrete c) c) m).2) := by
  have hreads := readExpr_spec c limit n tbl i.heap i.frames i.table i.world htbl hlimit
  refine ⟨hreads, run_agree _ h fun a hbad => ?_⟩
  rcases hreads.isStop (Ends.parseExpr hn) _ hbad with hstop | ⟨message, hstop⟩ <;> cases hstop

/-- A call of `read_expr` on a machine that collects before every allocation, or only
when its memory is full. -/
def reading (c : Statics) (s : State) (root : Frames) (w : World) (limit n : ℕ) (alwaysGc : Bool) :
    Except Fault Ptr × Machine State :=
  (readExpr limit n).run (handle (concrete c) c) ((s.setAlwaysGc alwaysGc).enter root w)

/-- Symbols with one name in the data are one object, the one in the table. -/
structure Shared (rd : ℕ → Option Payload) (tbl : List Entry) (a : ℕ) : Prop where
  entry : ∀ x name, Part rd a x → rd x = some (.symbol name) → ∃ e ∈ tbl, e.name = name ∧ e.sym = x
  same : ∀ x y name, Part rd a x → Part rd a y → rd x = some (.symbol name) →
    rd y = some (.symbol name) → x = y

/-- The symbols in what has been read. -/
theorem Reads.interned {heap : Ideal} {frames : Frames} {budget : ℕ}
    {out : Except Fault Sexp × World} {res : Except Fault Ptr} {i : Machine Ideal} {m : Machine State}
    (hreads : Reads c tbl heap frames budget out res i) (h : Related c i m) :
    ∃ tbl', Interned c m.heap tbl' ∧ ∀ q a, res = .ok q → m.address (concrete c) c q = .ok a →
      Shared ((concrete c).read m.heap) tbl' a := by
  obtain ⟨objs, D, ρ, hsim⟩ := h
  rcases out with ⟨e | x, w'⟩
  · obtain ⟨rfl, -, tbl', htbl'⟩ := hreads
    exact ⟨_, hsim.interned htbl', by simp⟩
  obtain ⟨q, heap', t', a, rfl, rfl, hq, tbl', hgrows, -, hrep⟩ := hreads
  have hinterned := hsim.interned hgrows.table
  refine ⟨_, hinterned, fun p b hp hb => ?_⟩
  obtain rfl : q = p := by cases hp; rfl
  obtain ⟨hknown, haddr⟩ := hsim.address hq
  obtain rfl : ρ a = b := by
    rw [haddr, Except.ok.injEq] at hb
    exact hb
  have hentry : ∀ x name, Part ((concrete c).read m.heap) (ρ a) x →
      (concrete c).read m.heap x = some (.symbol name) →
      ∃ e ∈ tbl'.map (Entry.map ρ), e.name = name ∧ e.sym = x := by
    intro x name hx hread
    obtain ⟨y, hy, hy', rfl⟩ := hsim.part hknown hx
    obtain ⟨payload, hpayload⟩ := hsim.read_some hy' hy.ne_null
    rw [(hsim.read hy' hpayload).1, Option.some.injEq] at hread
    obtain rfl : payload = .symbol name := by cases payload <;> simp_all [Payload.mapPointers]
    obtain ⟨e, he, hsym, hname⟩ := hrep.symbol hgrows.table hy hpayload
    exact ⟨e.map ρ, List.mem_map_of_mem he, hname, congrArg ρ hsym⟩
  refine ⟨hentry, fun x y name hx hy hreadx hready => ?_⟩
  obtain ⟨e, he, hname, rfl⟩ := hentry x name hx hreadx
  obtain ⟨d, hd, hname', rfl⟩ := hentry y name hy hready
  rw [List.inj_on_of_nodup_map hinterned.names he hd (hname.trans hname'.symm)]

/-- **Reading does not depend on when the collector runs**: if memory suffices, a machine
that collects before every allocation and one that does not have the same outcome, at
the same place of the input, and the same data with the same symbols. -/
theorem reading_independent (hwf : WellFormed c s root objs) (hstatic : null ∉ c.addresses)
    (htbl : Interned c s tbl) (hn : w.input.length < n)
    (hlimit : tbl.length + w.input.length < limit)
    (hgc : (reading c s root w limit n true).1 ≠ .error (.error "Memory exhausted"))
    (hno : (reading c s root w limit n false).1 ≠ .error (.error "Memory exhausted")) :
    (reading c s root w limit n true).1 = (reading c s root w limit n false).1 ∧
      (reading c s root w limit n true).2.world = (reading c s root w limit n false).2.world ∧
      (∀ e, (reading c s root w limit n true).1 = .error e → e.IsStop) ∧
      (∀ q, (reading c s root w limit n true).1 = .ok q → ∃ a₁ a₂ σ,
        (reading c s root w limit n true).2.address (concrete c) c q = .ok a₁ ∧
        (reading c s root w limit n false).2.address (concrete c) c q = .ok a₂ ∧
        SameData c ((concrete c).read (reading c s root w limit n true).2.heap)
          ((concrete c).read (reading c s root w limit n false).2.heap) a₁ a₂ σ) ∧
      ∀ gc, ∃ tbl', Interned c (reading c s root w limit n gc).2.heap tbl' ∧
        ∀ q a, (reading c s root w limit n gc).1 = .ok q →
          (reading c s root w limit n gc).2.address (concrete c) c q = .ok a →
          Shared ((concrete c).read (reading c s root w limit n gc).2.heap) tbl' a := by
  have hrun (gc : Bool) := readExpr_run (i := ⟨s.still c objs, root, ⟨[], []⟩, w⟩)
    ⟨objs, _, _, (hwf.setAlwaysGc gc).sim (w := w) hstatic⟩ (hwf.symbolTable hstatic htbl) hn hlimit
  obtain ⟨hreads, hrun₁⟩ := hrun true
  obtain ⟨heq₁, hrel₁⟩ := hrun₁.resolve_left fun h => hgc h.1
  obtain ⟨heq₂, hrel₂⟩ := (hrun false).2.resolve_left fun h => hno h.1
  refine ⟨heq₁.trans heq₂.symm, ?_, fun e he => ?_, fun q hq => ?_, fun gc => ?_⟩
  · obtain ⟨objs₁, D₁, ρ₁, hsim₁⟩ := hrel₁
    obtain ⟨objs₂, D₂, ρ₂, hsim₂⟩ := hrel₂
    exact hsim₁.world.trans hsim₂.world.symm
  · exact hreads.isStop (Ends.parseExpr hn) e (heq₁.symm.trans he)
  · obtain ⟨objs₁, D₁, ρ₁, hsim₁⟩ := hrel₁
    obtain ⟨objs₂, D₂, ρ₂, hsim₂⟩ := hrel₂
    obtain ⟨a, ha⟩ := hreads.address (heq₁.symm.trans hq)
    obtain ⟨hknown₁, haddr₁⟩ := hsim₁.address ha
    obtain ⟨hknown₂, haddr₂⟩ := hsim₂.address ha
    obtain ⟨σ, hsame⟩ := hsim₁.sameData hsim₂ hknown₁ hknown₂
    exact ⟨ρ₁ a, ρ₂ a, σ, haddr₁, haddr₂, hsame⟩
  · cases gc with
    | true =>
        obtain ⟨tbl', hinterned, hshared⟩ := hreads.interned hrel₁
        exact ⟨tbl', hinterned, fun q a hq => hshared q a (heq₁.symm.trans hq)⟩
    | false =>
        obtain ⟨tbl', hinterned, hshared⟩ := hreads.interned hrel₂
        exact ⟨tbl', hinterned, fun q a hq => hshared q a (heq₂.symm.trans hq)⟩

/-- A list of one symbol twice. -/
def sampleInput : World := ⟨chars "(a a) ", [], [], 0, []⟩

theorem reading_independent_sample : ∃ a₁ a₂ σ,
    (reading sampleStatics Client.sampleStart [] sampleInput 9 9 true).1 = .ok (.var 18) ∧
      SameData sampleStatics
        ((concrete sampleStatics).read
          (reading sampleStatics Client.sampleStart [] sampleInput 9 9 true).2.heap)
        ((concrete sampleStatics).read
          (reading sampleStatics Client.sampleStart [] sampleInput 9 9 false).2.heap) a₁ a₂ σ := by
  obtain ⟨objs, halign⟩ := Client.sampleStart_start.inv
  have hwf : WellFormed sampleStatics Client.sampleStart [] objs := halign.toWellFormed
  have htbl : Interned sampleStatics Client.sampleStart [] := ⟨rfl, List.nodup_nil, by simp⟩
  have hlength : sampleInput.input.length < 9 := by decide
  have hok : (reading sampleStatics Client.sampleStart [] sampleInput 9 9 true).1 = .ok (.var 18) := by
    decide +kernel
  have hok' : (reading sampleStatics Client.sampleStart [] sampleInput 9 9 false).1 =
      .ok (.var 18) := by decide +kernel
  obtain ⟨a₁, a₂, σ, -, -, hsame⟩ := (reading_independent hwf (by decide) htbl hlength hlength
    (by simp [hok]) (by simp [hok'])).2.2.2.1 _ hok
  exact ⟨a₁, a₂, σ, hok, hsame⟩

end read

end KernelPanic.Minilisp
