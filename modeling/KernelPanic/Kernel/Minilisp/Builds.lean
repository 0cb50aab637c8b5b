import KernelPanic.Kernel.Minilisp.Syntax

/-!
# KernelPanic.Kernel.Minilisp.Builds

Expressions and the table of symbols in memory, and what the parser does to them on a
heap in which objects never move.

What the parser builds for an expression lies between two addresses, apart from its
symbols, which are those of the table (`Rep`).  While a list is being read its cells
are linked the last one first (`Rev`), each behind its element; `reverse` links them
the other way round (`Fwd`).
-/

namespace KernelPanic.Minilisp

open Machine Prog

/-! ## expressions in memory -/

/-- A cell of `Symbols` and its symbol. -/
structure Entry where
  name : List UInt8
  sym : ℕ
  cell : ℕ

/-- The cells from `p` on are those of the entries. -/
def Listed (rd : ℕ → Option Payload) (nil : ℕ) : List Entry → ℕ → Prop
  | [], p => p = nil
  | e :: es, p => p = e.cell ∧ rd e.sym = some (.symbol e.name) ∧
      ∃ q, rd p = some (.cell e.sym q) ∧ Listed rd nil es q

/-- An ideal heap with its symbols, no two of them with one name. -/
structure SymbolTable (c : Statics) (tbl : List Entry) (h : Ideal) : Prop where
  constant : ∀ x o, (x, o) ∈ c.objects → h.read x = some o.payload
  null : h.read null = none
  bounded : ∀ a, h.read a ≠ none → a < h.next
  listed : Listed h.read c.constNil tbl h.symbols
  names : (tbl.map Entry.name).Nodup

/-- The expression is at `a`, with its symbols in the table and the rest in `[lo, hi)`. -/
def Rep (c : Statics) (tbl : List Entry) (rd : ℕ → Option Payload) (lo hi : ℕ) : ℕ → Sexp → Prop
  | a, .int n => rd a = some (.int n) ∧ lo ≤ a ∧ a < hi
  | a, .symbol name => ∃ e ∈ tbl, e.name = name ∧ e.sym = a
  | a, .nil => a = c.constNil
  | a, .cell x y => lo ≤ a ∧ a < hi ∧
      ∃ p q, rd a = some (.cell p q) ∧ Rep c tbl rd lo hi p x ∧ Rep c tbl rd lo hi q y
  | a, .dot => a = c.constDot
  | a, .cparen => a = c.constCparen
  | a, .null => a = null

/-- A cell of a list that is being read, its `car` and the expression there. -/
structure Link where
  cell : ℕ
  car : ℕ
  x : Sexp

/-- The list so far, in `[lo, hi)`. -/
def Rev (c : Statics) (tbl : List Entry) (rd : ℕ → Option Payload) (lo : ℕ) :
    ℕ → ℕ → List Link → Prop
  | _, p, [] => p = c.constNil
  | hi, p, l :: ls => p = l.cell ∧ l.cell < hi ∧ ∃ mid q, lo ≤ mid ∧ mid ≤ l.cell ∧
      rd p = some (.cell l.car q) ∧ Rep c tbl rd mid l.cell l.car l.x ∧ Rev c tbl rd lo mid q ls

/-- A list in `[lo, hi)` that ends in `tail`. -/
def Fwd (c : Statics) (tbl : List Entry) (rd : ℕ → Option Payload) (hi : ℕ) :
    ℕ → ℕ → List Link → ℕ → Prop
  | _, p, [], tail => p = tail
  | lo, p, l :: ls, tail => p = l.cell ∧ lo ≤ l.cell ∧ l.cell < hi ∧ ∃ q,
      rd p = some (.cell l.car q) ∧ Rep c tbl rd lo l.cell l.car l.x ∧
      Fwd c tbl rd hi (l.cell + 1) q ls tail

section representations

variable {c : Statics} {tbl tbl' : List Entry} {rd rd' : ℕ → Option Payload} {h : Ideal}
  {lo lo' hi hi' a p q t : ℕ} {x : Sexp} {ls : List Link} {e : Entry}

theorem Rep.mono (hrep : Rep c tbl rd lo hi a x) (hlo : lo' ≤ lo) (hhi : hi ≤ hi')
    (hsub : tbl ⊆ tbl') (hrd : ∀ a, lo ≤ a → a < hi → rd' a = rd a) :
    Rep c tbl' rd' lo' hi' a x := by
  induction x generalizing a with
  | int n => exact ⟨(hrd a hrep.2.1 hrep.2.2).trans hrep.1, hlo.trans hrep.2.1, hrep.2.2.trans_le hhi⟩
  | symbol name =>
      obtain ⟨e, he, hname⟩ := hrep
      exact ⟨e, hsub he, hname⟩
  | cell x y ihx ihy =>
      obtain ⟨hla, hah, p, q, hread, hx, hy⟩ := hrep
      exact ⟨hlo.trans hla, hah.trans_le hhi, p, q, (hrd a hla hah).trans hread, ihx hx, ihy hy⟩
  | _ => exact hrep

theorem Rev.mono (hrev : Rev c tbl rd lo hi p ls) (hhi : hi ≤ hi') (hsub : tbl ⊆ tbl')
    (hrd : ∀ a, lo ≤ a → a < hi → rd' a = rd a) : Rev c tbl' rd' lo hi' p ls := by
  induction ls generalizing hi hi' p with
  | nil => exact hrev
  | cons l ls ih =>
      obtain ⟨rfl, hlt, mid, q, hlo, hmid, hread, hrep, hrest⟩ := hrev
      refine ⟨rfl, hlt.trans_le hhi, mid, q, hlo, hmid, (hrd _ (hlo.trans hmid) hlt).trans hread, ?_,
        ?_⟩
      · exact hrep.mono le_rfl le_rfl hsub fun a ha hal => hrd a (hlo.trans ha) (hal.trans hlt)
      · exact ih hrest le_rfl fun a ha hal => hrd a ha (hal.trans_le (hmid.trans hlt.le))

theorem Fwd.mono (hfwd : Fwd c tbl rd hi lo p ls t) (hlo : lo' ≤ lo) (hhi : hi ≤ hi')
    (hsub : tbl ⊆ tbl') (hrd : ∀ a, lo ≤ a → a < hi → rd' a = rd a) :
    Fwd c tbl' rd' hi' lo' p ls t := by
  induction ls generalizing lo lo' p with
  | nil => exact hfwd
  | cons l ls ih =>
      obtain ⟨rfl, hle, hlt, q, hread, hrep, hrest⟩ := hfwd
      refine ⟨rfl, hlo.trans hle, hlt.trans_le hhi, q, (hrd _ hle hlt).trans hread, ?_, ?_⟩
      · exact hrep.mono hlo le_rfl hsub fun a ha hal => hrd a ha (hal.trans hlt)
      · exact ih hrest le_rfl fun a ha hal => hrd a (hle.trans (Nat.le_of_succ_le ha)) hal

/-- A list is the expression with that tail. -/
theorem Fwd.rep (hfwd : Fwd c tbl rd hi lo p ls t) (htail : Rep c tbl rd lo hi t x) :
    Rep c tbl rd lo hi p (.list (ls.map Link.x) x) := by
  suffices hrep : ∀ lo', lo ≤ lo' → Fwd c tbl rd hi lo' p ls t →
      Rep c tbl rd lo hi p (.list (ls.map Link.x) x) from hrep lo le_rfl hfwd
  clear hfwd
  induction ls generalizing p with
  | nil =>
      rintro lo' - rfl
      exact htail
  | cons l ls ih =>
      rintro lo' hlo ⟨rfl, hle, hlt, q, hread, hrep, hrest⟩
      refine ⟨hlo.trans hle, hlt, l.car, q, hread, ?_, ?_⟩
      · exact hrep.mono hlo hlt.le (List.Subset.refl _) fun _ _ _ => rfl
      · exact ih _ (hlo.trans (hle.trans (Nat.le_succ _))) hrest

theorem Listed.mono (hlisted : Listed rd c.constNil tbl p)
    (hrd : ∀ e ∈ tbl, rd' e.cell = rd e.cell ∧ rd' e.sym = rd e.sym) :
    Listed rd' c.constNil tbl p := by
  induction tbl generalizing p with
  | nil => exact hlisted
  | cons e tbl ih =>
      obtain ⟨rfl, hsym, q, hread, hrest⟩ := hlisted
      obtain ⟨hcell, hsym'⟩ := hrd e List.mem_cons_self
      exact ⟨rfl, hsym'.trans hsym, q, hcell.trans hread,
        ih hrest fun e he => hrd e (List.mem_cons_of_mem _ he)⟩

/-- What is in memory for an entry. -/
theorem Listed.entry (hlisted : Listed rd c.constNil tbl p) (he : e ∈ tbl) :
    rd e.sym = some (.symbol e.name) ∧ ∃ q, rd e.cell = some (.cell e.sym q) := by
  induction tbl generalizing p with
  | nil => cases he
  | cons d tbl ih =>
      obtain ⟨rfl, hsym, q, hread, hrest⟩ := hlisted
      rcases List.mem_cons.mp he with rfl | he
      · exact ⟨hsym, q, hread⟩
      · exact ih hrest he

namespace SymbolTable

theorem lt_next (h' : SymbolTable c tbl h) {payload : Payload} (hread : h.read a = some payload) :
    a < h.next := h'.bounded a (by simp [hread])

theorem read_nil (h' : SymbolTable c tbl h) : h.read c.constNil = some .constNil :=
  h'.constant c.constNil ⟨0, .constNil⟩ (by simp [Statics.objects])

theorem read_dot (h' : SymbolTable c tbl h) : h.read c.constDot = some .constDot :=
  h'.constant c.constDot ⟨0, .constDot⟩ (by simp [Statics.objects])

theorem read_cparen (h' : SymbolTable c tbl h) : h.read c.constCparen = some .constCparen :=
  h'.constant c.constCparen ⟨0, .constCparen⟩ (by simp [Statics.objects])

/-- A cell is not the empty list. -/
theorem ne_nil (h' : SymbolTable c tbl h) (hread : h.read a = some (.cell p q)) :
    a ≠ c.constNil := by
  rintro rfl
  rw [h'.read_nil] at hread
  cases hread

/-- A new object leaves the table alone. -/
theorem alloc (h' : SymbolTable c tbl h) (payload : Payload) :
    SymbolTable c tbl (h.place payload) := by
  have hsame : ∀ a payload', h.read a = some payload' →
      Function.update h.read h.next (some payload) a = h.read a := fun a _ ha =>
    Function.update_of_ne (h'.lt_next ha).ne ..
  refine ⟨fun x o hx => ?_, ?_, fun a ha => ?_, h'.listed.mono fun e he => ?_, h'.names⟩
  · exact (hsame x _ (h'.constant x o hx)).trans (h'.constant x o hx)
  · have hnext : Minilisp.null ≠ h.next := (h'.lt_next (h'.constant _ _ List.mem_cons_self)).ne_bot.symm
    exact (Function.update_of_ne hnext ..).trans h'.null
  · by_cases heq : a = h.next
    · exact heq ▸ Nat.lt_succ_self _
    · exact Nat.lt_succ_of_lt (h'.bounded a (by simpa [Ideal.place, heq] using ha))
  · obtain ⟨hsym, q, hcell⟩ := h'.listed.entry he
    exact ⟨hsame _ _ hcell, hsame _ _ hsym⟩

/-- So does a change of an object that has no part in it. -/
theorem update (h' : SymbolTable c tbl h) {payload payload' : Payload} (hread : h.read a = some payload)
    (hconst : ¬ payload.IsConst) (hsymbol : ∀ name, payload ≠ .symbol name)
    (hcells : ∀ e ∈ tbl, e.cell ≠ a) :
    SymbolTable c tbl { h with read := Function.update h.read a (some payload') } := by
  refine ⟨fun x o hx => ?_, ?_, fun b hb => ?_, h'.listed.mono fun e he => ?_, h'.names⟩
  · have hobject := h'.constant x o hx
    have hne : x ≠ a := by
      rintro rfl
      rw [hread, Option.some.injEq] at hobject
      refine hconst (hobject ▸ ?_)
      simp only [Statics.objects, List.mem_cons, Prod.mk.injEq, List.not_mem_nil, or_false] at hx
      rcases hx with ⟨-, rfl⟩ | ⟨-, rfl⟩ | ⟨-, rfl⟩ | ⟨-, rfl⟩ <;> simp [Payload.IsConst]
    exact (Function.update_of_ne hne ..).trans hobject
  · have hne : Minilisp.null ≠ a := by
      rintro rfl
      simp [h'.null] at hread
    exact (Function.update_of_ne hne ..).trans h'.null
  · by_cases heq : b = a
    · rw [heq]
      exact h'.lt_next hread
    · exact h'.bounded b (by simpa [heq] using hb)
  · obtain ⟨hsym, q₁, hcell⟩ := h'.listed.entry he
    refine ⟨Function.update_of_ne (hcells e he) .., Function.update_of_ne ?_ ..⟩
    rintro heq
    rw [heq, hread, Option.some.injEq] at hsym
    exact hsymbol _ hsym

/-- So does an assignment to a member of a cell that is not one of the table. -/
theorem write (h' : SymbolTable c tbl h) {p' q' : ℕ} (hread : h.read a = some (.cell p q))
    (hcells : ∀ e ∈ tbl, e.cell ≠ a) :
    SymbolTable c tbl { h with read := Function.update h.read a (some (.cell p' q')) } :=
  h'.update hread (by simp [Payload.IsConst]) (fun _ => nofun) hcells

end SymbolTable

end representations

/-- The code returns a pointer, and leaves everything but the heap as it is. -/
def Returns (c : Statics) (frames : Frames) (w : World) (P : Ideal → ℕ → Prop) :
    Except Fault Ptr → Machine Ideal → Prop :=
  fun res m' => ∃ q heap' t' a, res = .ok q ∧ m' = ⟨heap', frames, t', w⟩ ∧
    t'.Has (ideal c) c q a ∧ P heap' a

/-! ## `reverse` -/

section reverse

variable {c : Statics} {tbl : List Entry} {heap : Ideal} {frames : Frames} {t : Handles} {w : World}
  {p ret : Ptr} {lo mid hi a r limit : ℕ} {ls done : List Link}

/-- What `reverse` leaves: the list from `a` on, and everything outside `[lo, hi)` as it
was. -/
structure Reversed (c : Statics) (tbl : List Entry) (lo hi : ℕ) (ls : List Link)
    (heap heap' : Ideal) (a : ℕ) : Prop where
  next : heap'.next = heap.next
  table : SymbolTable c tbl heap'
  outside : ∀ x, x < lo ∨ hi ≤ x → heap'.read x = heap.read x
  list : Fwd c tbl heap'.read hi lo a ls c.constNil

/-- The loop of `reverse`: what is done lies behind what is to be done. -/
theorem reverseLoop_spec (hlimit : ls.length < limit) (htbl : SymbolTable c tbl heap)
    (hcells : ∀ l ∈ ls, ∀ e ∈ tbl, e.cell ≠ l.cell) (hlo : lo ≤ mid) (hmid : mid ≤ hi)
    (hp : t.Has (ideal c) c p a) (hret : t.Has (ideal c) c ret r)
    (hrev : Rev c tbl heap.read lo mid a ls)
    (hfwd : Fwd c tbl heap.read hi mid r done c.constNil) :
    wp (handle (ideal c) c) (reverseLoop limit p ret)
      (Returns c frames w (Reversed c tbl lo hi (ls.reverse ++ done) heap))
      ⟨heap, frames, t, w⟩ := by
  induction ls generalizing heap t p ret mid a r limit done with
  | nil =>
      obtain ⟨limit, rfl⟩ : ∃ k, limit = k + 1 := ⟨limit - 1, by simp at hlimit; omega⟩
      obtain rfl : a = c.constNil := hrev
      rw [reverseLoop]
      refine wp_is hp has_nil ?_
      simp only [decide_true, ↓reduceIte]
      refine ⟨ret, heap, t, r, rfl, rfl, hret, rfl, htbl, fun _ _ => rfl, ?_⟩
      exact hfwd.mono hlo le_rfl (List.Subset.refl _) fun _ _ _ => rfl
  | cons l ls ih =>
      obtain ⟨limit, rfl⟩ : ∃ k, limit = k + 1 := ⟨limit - 1, by simp at hlimit; omega⟩
      obtain ⟨rfl, hlt, mid', q, hlo', hmid', hread, hrep, hrest⟩ := hrev
      have hne : l.cell ≠ c.constNil := htbl.ne_nil hread
      rw [reverseLoop]
      refine wp_is hp has_nil ?_
      simp only [hne, decide_false, Bool.false_eq_true, ↓reduceIte]
      refine wp_get hp hread rfl fun t₁ next hle hnext => ?_
      refine wp_set (hle _ _ hp) (hle _ _ hret) hread rfl ?_
      have hagree : ∀ x, x ≠ l.cell →
          Function.update heap.read l.cell (some (.cell l.car r)) x = heap.read x :=
        fun x hx => Function.update_of_ne hx ..
      -- The cell joins those that are done.
      have hdone : Fwd c tbl (Function.update heap.read l.cell (some (.cell l.car r))) hi mid'
          l.cell (l :: done) c.constNil := by
        refine ⟨rfl, hmid', hlt.trans_le hmid, r, Function.update_self .., ?_, ?_⟩
        · exact hrep.mono le_rfl le_rfl (List.Subset.refl _) fun x _ hx => hagree x hx.ne
        · exact hfwd.mono hlt le_rfl (List.Subset.refl _) fun x hx _ =>
            hagree x (hlt.trans_le hx).ne'
      have hrest' : Rev c tbl (Function.update heap.read l.cell (some (.cell l.car r))) lo mid' q
          ls :=
        hrest.mono le_rfl (List.Subset.refl _) fun x _ hx => hagree x (hx.trans_le hmid').ne
      refine wp_mono (ih (by simpa using hlimit) (htbl.write hread (hcells l List.mem_cons_self))
        (fun l' hl' => hcells l' (List.mem_cons_of_mem _ hl')) hlo'
        (hmid'.trans (hlt.le.trans hmid)) hnext (hle _ _ hp) hrest' hdone) ?_
      rintro res m' ⟨q', heap', t', a', rfl, rfl, hq', hrevd⟩
      refine ⟨q', heap', t', a', rfl, rfl, hq', hrevd.next, hrevd.table, fun x hx => ?_, ?_⟩
      · refine (hrevd.outside x hx).trans (hagree x ?_)
        rintro rfl
        have := hlo'.trans hmid'
        have := hlt.trans_le hmid
        omega
      · rw [List.reverse_cons, List.append_assoc]
        exact hrevd.list

/-- **`reverse`** turns a list round. -/
theorem reverse_spec (hlimit : ls.length < limit) (htbl : SymbolTable c tbl heap)
    (hcells : ∀ l ∈ ls, ∀ e ∈ tbl, e.cell ≠ l.cell) (hlo : lo ≤ hi) (hp : t.Has (ideal c) c p a)
    (hrev : Rev c tbl heap.read lo hi a ls) :
    wp (handle (ideal c) c) (reverse limit p)
      (Returns c frames w (Reversed c tbl lo hi ls.reverse heap)) ⟨heap, frames, t, w⟩ := by
  have hnil : Fwd c tbl heap.read hi hi c.constNil [] c.constNil := rfl
  rw [← List.append_nil ls.reverse]
  exact reverseLoop_spec hlimit htbl hcells hlo le_rfl hp has_nil hrev hnil

end reverse

/-! ## `intern` -/

/-- A stretch of the parser: objects below `lo` are as they were, and the table has at
most gained symbols, whose cells are behind `lo`. -/
structure Grows (c : Statics) (lo : ℕ) (tbl : List Entry) (heap : Ideal) (tbl' : List Entry)
    (heap' : Ideal) : Prop where
  table : SymbolTable c tbl' heap'
  old : ∀ a < lo, heap'.read a = heap.read a
  next : heap.next ≤ heap'.next
  sub : tbl ⊆ tbl'
  cells : ∀ e ∈ tbl', e ∈ tbl ∨ lo ≤ e.cell

section intern

variable {c : Statics} {tbl tbl' tbl'' : List Entry} {heap heap' heap'' : Ideal} {frames : Frames}
  {t : Handles} {w : World} {p : Ptr} {name : List UInt8} {lo lo' a limit : ℕ}

theorem Grows.refl (htbl : SymbolTable c tbl heap) : Grows c lo tbl heap tbl heap :=
  ⟨htbl, fun _ _ => rfl, le_rfl, List.Subset.refl _, fun _ he => .inl he⟩

theorem Grows.trans (h₁ : Grows c lo tbl heap tbl' heap')
    (h₂ : Grows c lo' tbl' heap' tbl'' heap'') (hlo : lo ≤ lo') :
    Grows c lo tbl heap tbl'' heap'' where
  table := h₂.table
  old := fun a ha => (h₂.old a (ha.trans_le hlo)).trans (h₁.old a ha)
  next := h₁.next.trans h₂.next
  sub := List.Subset.trans h₁.sub h₂.sub
  cells := fun e he => (h₂.cells e he).elim (h₁.cells e) fun hle => .inr (hlo.trans hle)

/-- A new object. -/
theorem SymbolTable.grows (htbl : SymbolTable c tbl heap) (payload : Payload) :
    Grows c heap.next tbl heap tbl (heap.place payload) :=
  ⟨htbl.alloc payload, fun _ ha => Function.update_of_ne ha.ne .., Nat.le_succ _,
    List.Subset.refl _, fun _ he => .inl he⟩

/-- A new symbol at the head of the list. -/
theorem SymbolTable.insert (htbl : SymbolTable c tbl heap) (hname : ∀ e ∈ tbl, e.name ≠ name) :
    SymbolTable c (⟨name, heap.next, heap.next + 1⟩ :: tbl)
      { (heap.place (.symbol name)).place (.cell heap.next heap.symbols) with
        symbols := heap.next + 1 } := by
  have hsecond := (htbl.alloc (.symbol name)).alloc (.cell heap.next heap.symbols)
  refine { hsecond with
    listed := ⟨rfl, ?_, heap.symbols, Function.update_self .., hsecond.listed⟩
    names := ?_ }
  · show Function.update (Function.update heap.read heap.next _) (heap.next + 1) _ heap.next = _
    rw [Function.update_of_ne (Nat.lt_succ_self _).ne, Function.update_self]
  · rw [List.map_cons, List.nodup_cons]
    refine ⟨fun hmem => ?_, htbl.names⟩
    obtain ⟨e, he, heq⟩ := List.mem_map.mp hmem
    exact hname e he heq

theorem SymbolTable.insert_grows (htbl : SymbolTable c tbl heap) (hname : ∀ e ∈ tbl, e.name ≠ name) :
    Grows c heap.next tbl heap (⟨name, heap.next, heap.next + 1⟩ :: tbl)
      { (heap.place (.symbol name)).place (.cell heap.next heap.symbols) with
        symbols := heap.next + 1 } := by
  refine ⟨htbl.insert hname, fun a ha => ?_, (Nat.le_succ _).trans (Nat.le_succ _),
    List.subset_cons_self .., fun e he => ?_⟩
  · exact (Function.update_of_ne (ha.trans (Nat.lt_succ_self _)).ne ..).trans
      (Function.update_of_ne ha.ne ..)
  · rcases List.mem_cons.mp he with rfl | he
    · exact .inr (Nat.le_succ _)
    · exact .inl he

/-- The loop of `intern` finds the entry with the name. -/
theorem findSymbol_spec (hlimit : tbl.length < limit) (hp : t.Has (ideal c) c p a)
    (hconst : heap.read c.constNil = some .constNil) (hlisted : Listed heap.read c.constNil tbl a) :
    wp (handle (ideal c) c) (findSymbol name limit p)
      (fun res m' => ∃ t', m' = ⟨heap, frames, t', w⟩ ∧
        (res = .ok none ∧ (∀ e ∈ tbl, e.name ≠ name) ∨
          ∃ q, ∃ e ∈ tbl, res = .ok (some q) ∧ e.name = name ∧ t'.Has (ideal c) c q e.sym))
      ⟨heap, frames, t, w⟩ := by
  induction tbl generalizing t p a limit with
  | nil =>
      obtain ⟨limit, rfl⟩ : ∃ k, limit = k + 1 := ⟨limit - 1, by simp at hlimit; omega⟩
      obtain rfl : a = c.constNil := hlisted
      rw [findSymbol]
      refine wp_is hp has_nil ?_
      simp only [decide_true, ↓reduceIte]
      exact ⟨t, rfl, .inl ⟨rfl, by simp⟩⟩
  | cons e tbl ih =>
      obtain ⟨limit, rfl⟩ : ∃ k, limit = k + 1 := ⟨limit - 1, by simp at hlimit; omega⟩
      obtain ⟨rfl, hsym, q, hcell, hrest⟩ := hlisted
      have hne : e.cell ≠ c.constNil := by
        intro heq
        rw [heq, hconst] at hcell
        cases hcell
      rw [findSymbol]
      refine wp_is hp has_nil ?_
      simp only [hne, decide_false, Bool.false_eq_true, ↓reduceIte]
      refine wp_get hp hcell rfl fun t₁ sym hle₁ hsym₁ => ?_
      refine wp_name hsym₁ hsym ?_
      by_cases hname : name = e.name
      · simp only [hname, ↓reduceIte]
        refine wp_get (hle₁ _ _ hp) hcell rfl fun t₂ sym' _ hsym₂ => ?_
        exact ⟨t₂, rfl, .inr ⟨sym', e, List.mem_cons_self, rfl, rfl, hsym₂⟩⟩
      · simp only [hname, ↓reduceIte]
        refine wp_get (hle₁ _ _ hp) hcell rfl fun t₂ next _ hnext => ?_
        refine wp_mono (ih (by simpa using hlimit) hnext hrest) ?_
        rintro res m' ⟨t', rfl, hres⟩
        refine ⟨t', rfl, hres.imp (And.imp_right fun hnone => ?_) ?_⟩
        · exact List.forall_mem_cons.mpr ⟨fun heq => hname heq.symm, hnone⟩
        · rintro ⟨q, d, hd, hq⟩
          exact ⟨q, d, List.mem_cons_of_mem _ hd, hq⟩

/-- **`intern`** answers with the symbol of that name in the table. -/
theorem intern_spec (hlimit : tbl.length < limit) (hname : name.length ≤ symbolMaxLen)
    (htbl : SymbolTable c tbl heap) :
    wp (handle (ideal c) c) (intern limit name)
      (Returns c frames w fun heap' a => ∃ tbl', Grows c heap.next tbl heap tbl' heap' ∧
        tbl'.length ≤ tbl.length + 1 ∧ ∃ e ∈ tbl', e.name = name ∧ e.sym = a)
      ⟨heap, frames, t, w⟩ := by
  rw [intern]
  refine wp_star fun t₁ p _ hp => ?_
  refine wp_bind.mpr (wp_mono (findSymbol_spec hlimit hp htbl.read_nil htbl.listed) ?_)
  rintro res m' ⟨t', rfl, ⟨rfl, hnone⟩ | ⟨q, e, he, rfl, heq, hq⟩⟩
  · simp only
    rw [wp_tail]
    refine wp_define ?_
    refine wp_make (Request.fits_makeSymbol hname) fun t₂ sym hsym => ?_
    refine wp_assign_slot hsym ?_
    refine wp_make Request.fits_cons fun t₃ cell hcell => ?_
    refine wp_assign_symbols hcell (Nat.succ_ne_zero _) ?_
    refine wp_tail.mpr (wp_star fun t₄ q _ hq => ?_)
    simp only [wp_pure, Request.payload, set_self, deref, frame_self] at hq ⊢
    exact ⟨q, _, t₄, heap.next, rfl, rfl, hq, _, htbl.insert_grows hnone, le_rfl,
      ⟨name, heap.next, heap.next + 1⟩, List.mem_cons_self, rfl, rfl⟩
  · refine ⟨q, heap, t', e.sym, rfl, rfl, hq, tbl, Grows.refl htbl, Nat.le_succ _, e, he, heq, rfl⟩

end intern

end KernelPanic.Minilisp
