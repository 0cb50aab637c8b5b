import KernelPanic.Kernel.Minilisp.Builds

/-!
# KernelPanic.Kernel.Minilisp.Reads

**`readExpr` builds what `parseExpr` says**, on a heap in which objects never move.

It follows no pointer that an allocation before has made stale, and it stops where
`parseExpr` stops, with the same error (`readExpr_spec`).  With more turns than there
are characters it always comes to an end (`parseExpr_fuel`).
-/

namespace KernelPanic.Minilisp

open Machine Prog

/-! ## tags -/

/-- The type of what stands for the expression. -/
def Sexp.type : Sexp → Option ℕ
  | .int _ => some tInt
  | .symbol _ => some tSymbol
  | .nil => some tNil
  | .cell .. => some tCell
  | .dot => some Payload.constDot.type
  | .cparen => some Payload.constCparen.type
  | .null => none

section tags

variable {c : Statics} {tbl : List Entry} {h : Ideal} {lo hi a : ℕ} {x : Sexp}

theorem Rep.type (hrep : Rep c tbl h.read lo hi a x) (htbl : SymbolTable c tbl h) :
    (h.read a).map Payload.type = x.type := by
  cases x with
  | int n =>
      rw [hrep.1]
      rfl
  | symbol name =>
      obtain ⟨e, he, rfl, rfl⟩ := hrep
      rw [(htbl.listed.entry he).1]
      rfl
  | cell x y =>
      obtain ⟨-, -, p, q, hread, -⟩ := hrep
      rw [hread]
      rfl
  | nil =>
      obtain rfl : a = c.constNil := hrep
      rw [htbl.read_nil]
      rfl
  | dot =>
      obtain rfl : a = c.constDot := hrep
      rw [htbl.read_dot]
      rfl
  | cparen =>
      obtain rfl : a = c.constCparen := hrep
      rw [htbl.read_cparen]
      rfl
  | null =>
      obtain rfl : a = null := hrep
      rw [htbl.null]
      rfl

theorem Rep.eq_null (hrep : Rep c tbl h.read lo hi a x) (htbl : SymbolTable c tbl h) :
    a = null ↔ x = .null := by
  refine ⟨?_, fun hx => by subst hx; exact hrep⟩
  rintro rfl
  have htype := hrep.type htbl
  rw [htbl.null] at htype
  cases x <;> simp_all [Sexp.type]

theorem Rep.eq_cparen (hrep : Rep c tbl h.read lo hi a x) (htbl : SymbolTable c tbl h) :
    a = c.constCparen ↔ x = .cparen := by
  refine ⟨?_, fun hx => by subst hx; exact hrep⟩
  rintro rfl
  have htype := hrep.type htbl
  rw [htbl.read_cparen] at htype
  cases x <;> simp_all [Sexp.type, Payload.type, tInt, tSymbol, tNil, tCell]

theorem Rep.eq_dot (hrep : Rep c tbl h.read lo hi a x) (htbl : SymbolTable c tbl h) :
    a = c.constDot ↔ x = .dot := by
  refine ⟨?_, fun hx => by subst hx; exact hrep⟩
  rintro rfl
  have htype := hrep.type htbl
  rw [htbl.read_dot] at htype
  cases x <;> simp_all [Sexp.type, Payload.type, tInt, tSymbol, tNil, tCell]

end tags

/-! ## lists -/

section lists

variable {c : Statics} {tbl : List Entry} {rd : ℕ → Option Payload} {lo hi p t t' : ℕ} {l : Link}
  {ls : List Link}

theorem Rev.bounds (hrev : Rev c tbl rd lo hi p ls) : ∀ l ∈ ls, lo ≤ l.cell ∧ l.cell < hi := by
  induction ls generalizing hi p with
  | nil => simp
  | cons d ls ih =>
      obtain ⟨rfl, hlt, mid, q, hlo, hmid, -, -, hrest⟩ := hrev
      refine List.forall_mem_cons.mpr ⟨⟨hlo.trans hmid, hlt⟩, fun l hl => ?_⟩
      exact ⟨(ih hrest l hl).1, (ih hrest l hl).2.trans (hmid.trans_lt hlt)⟩

theorem Fwd.bounds (hfwd : Fwd c tbl rd hi lo p ls t) : ∀ l ∈ ls, lo ≤ l.cell ∧ l.cell < hi := by
  induction ls generalizing lo p with
  | nil => simp
  | cons d ls ih =>
      obtain ⟨rfl, hlo, hlt, q, -, -, hrest⟩ := hfwd
      refine List.forall_mem_cons.mpr ⟨⟨hlo, hlt⟩, fun l hl => ?_⟩
      exact ⟨hlo.trans ((Nat.le_succ _).trans (ih hrest l hl).1), (ih hrest l hl).2⟩

/-- The last cell points to the tail. -/
theorem Fwd.last (hfwd : Fwd c tbl rd hi lo p (ls ++ [l]) t) :
    rd l.cell = some (.cell l.car t) := by
  induction ls generalizing lo p with
  | nil =>
      obtain ⟨rfl, -, -, q, hread, -, rfl⟩ := hfwd
      exact hread
  | cons d ls ih =>
      obtain ⟨-, -, -, q, -, -, hrest⟩ := hfwd
      exact ih hrest

/-- The tail is replaced. -/
theorem Fwd.setTail (hfwd : Fwd c tbl rd hi lo p (ls ++ [l]) t) :
    Fwd c tbl (Function.update rd l.cell (some (.cell l.car t'))) hi lo p (ls ++ [l]) t' := by
  induction ls generalizing lo p with
  | nil =>
      obtain ⟨rfl, hlo, hlt, q, -, hrep, -⟩ := hfwd
      refine ⟨rfl, hlo, hlt, t', Function.update_self .., ?_, rfl⟩
      exact hrep.mono le_rfl le_rfl (List.Subset.refl _) fun a _ ha => Function.update_of_ne ha.ne ..
  | cons d ls ih =>
      obtain ⟨rfl, hlo, hlt, q, hread, hrep, hrest⟩ := hfwd
      have hcell : d.cell < l.cell :=
        Nat.lt_of_succ_le (hrest.bounds l (List.mem_append_right _ List.mem_cons_self)).1
      refine ⟨rfl, hlo, hlt, q, (Function.update_of_ne hcell.ne ..).trans hread, ?_, ih hrest⟩
      exact hrep.mono le_rfl le_rfl (List.Subset.refl _) fun a _ ha =>
        Function.update_of_ne (ha.trans hcell).ne ..

end lists

/-! ## the parser -/

/-- The code returns the expression that `out` says, or stops as `out` does; the table
of symbols stays one.  No more symbols are new than characters have been read. -/
def Reads (c : Statics) (tbl : List Entry) (heap : Ideal) (frames : Frames) (budget : ℕ)
    (out : Except Fault Sexp × World) (res : Except Fault Ptr) (m' : Machine Ideal) : Prop :=
  match out with
  | (.ok x, w') =>
    Returns c frames w' (fun heap' a => ∃ tbl', Grows c heap.next tbl heap tbl' heap' ∧
      tbl'.length + w'.input.length ≤ budget ∧
      Rep c tbl' heap'.read heap.next heap'.next a x) res m'
  | (.error e, w') => res = .error e ∧ m'.world = w' ∧ ∃ tbl', SymbolTable c tbl' m'.heap

/-- The code does what the expression says. -/
def Mirrors (c : Statics) (limit : ℕ) (code : Code Ptr) (expr : Code Sexp) : Prop :=
  ∀ tbl heap frames t w, SymbolTable c tbl heap → tbl.length + w.input.length < limit →
    wp (handle (ideal c) c) code
      (Reads c tbl heap frames (tbl.length + w.input.length) (eval expr w)) ⟨heap, frames, t, w⟩

section parser

variable {c : Statics} {tbl tbl₀ : List Entry} {heap heap₀ : Ideal} {root : Frames} {t : Handles}
  {w : World} {limit budget n o h l : ℕ} {code : Code Ptr} {expr : Code Sexp} {ls : List Link}
  {x : Sexp} {head : List Sexp}

@[simp] theorem deref_self {symbols j : ℕ} {frame : List ℕ} :
    deref c symbols (frame :: root) (.slot root.length j) = frame[j]?.getD null := by
  simp [deref]

/-- While a list is being read: the cells of its elements so far are in `[lo, hi)`. -/
structure Reading (c : Statics) (tbl₀ : List Entry) (heap₀ : Ideal) (tbl : List Entry) (heap : Ideal)
    (hi h : ℕ) (ls : List Link) : Prop where
  grows : Grows c heap₀.next tbl₀ heap₀ tbl heap
  rev : Rev c tbl heap.read heap₀.next hi h ls
  cells : ∀ l ∈ ls, ∀ e ∈ tbl, e.cell ≠ l.cell
  low : heap₀.next ≤ hi
  high : hi ≤ heap.next

/-- More is read. -/
theorem Reading.step {tbl' : List Entry} {heap' : Ideal} {lo hi : ℕ}
    (hread : Reading c tbl₀ heap₀ tbl heap hi h ls) (hgrows : Grows c lo tbl heap tbl' heap')
    (hlo : hi ≤ lo) : Reading c tbl₀ heap₀ tbl' heap' hi h ls where
  grows := hread.grows.trans hgrows (hread.low.trans hlo)
  rev := hread.rev.mono le_rfl hgrows.sub fun a _ ha => hgrows.old a (ha.trans_le hlo)
  cells := fun l hl e he => by
    rcases hgrows.cells e he with he | he
    · exact hread.cells l hl e he
    · exact ((hread.rev.bounds l hl).2.trans_le (hlo.trans he)).ne'
  low := hread.low
  high := hread.high.trans hgrows.next

/-- The expression becomes an element. -/
theorem Reading.push {hi a : ℕ} (hread : Reading c tbl₀ heap₀ tbl heap hi h ls)
    (hrep : Rep c tbl heap.read hi heap.next a x) :
    Reading c tbl₀ heap₀ tbl (heap.place (.cell a h)) (heap.next + 1) heap.next
      (⟨heap.next, a, x⟩ :: ls) := by
  have hagree : ∀ b, b < heap.next → (heap.place (.cell a h)).read b = heap.read b :=
    fun b hb => Function.update_of_ne hb.ne ..
  refine ⟨hread.grows.trans (hread.grows.table.grows _) hread.grows.next, ?_, fun l hl e he => ?_,
    hread.low.trans (hread.high.trans (Nat.le_succ _)), le_rfl⟩
  · refine ⟨rfl, Nat.lt_succ_self _, hi, h, hread.low, hread.high, Function.update_self .., ?_, ?_⟩
    · exact hrep.mono le_rfl le_rfl (List.Subset.refl _) fun b _ hb => hagree b hb
    · exact hread.rev.mono le_rfl (List.Subset.refl _) fun b _ hb =>
        hagree b (hb.trans_le hread.high)
  · rcases List.mem_cons.mp hl with rfl | hl
    · obtain ⟨-, q, hcell⟩ := hread.grows.table.listed.entry he
      exact (hread.grows.table.lt_next hcell).ne
    · exact hread.cells l hl e he

theorem Reversed.grows {lo hi a : ℕ} {heap' : Ideal} (hrevd : Reversed c tbl lo hi ls heap heap' a)
    (hgrows : Grows c lo tbl₀ heap₀ tbl heap) : Grows c lo tbl₀ heap₀ tbl heap' where
  table := hrevd.table
  old := fun a ha => (hrevd.outside a (.inl ha)).trans (hgrows.old a ha)
  next := hrevd.next ▸ hgrows.next
  sub := hgrows.sub
  cells := hgrows.cells

/-- The end of a dotted list. -/
theorem close_spec {lo hi b : ℕ} {y : Sexp} (hread : Reading c tbl₀ heap₀ tbl heap hi h ls)
    (hlimit : ls.length < limit) (hlo : hi ≤ lo) (hrep : Rep c tbl heap.read lo heap.next b y)
    (hbudget : tbl.length + w.input.length ≤ budget) :
    wp (handle (ideal c) c)
      (do
        let ret ← reverse limit (← star (.slot root.length 1))
        (← star (.slot root.length 1)).set .cdr (← star (.slot root.length 2))
        return ret)
      (fun res m' => Reads c tbl₀ heap₀ root budget
        (if ls = [] then (.ok .nil, { w with damaged := w.damaged ++ [(.constNil, .cdr)] })
          else (.ok (.list (ls.map Link.x).reverse y), w))
        res { m' with frames := m'.frames.tail })
      ⟨heap, [o, h, b] :: root, t, w⟩ := by
  refine wp_star_self (a := h) rfl fun t₁ q₁ _ hq₁ => ?_
  refine wp_bind.mpr (wp_mono (reverse_spec hlimit hread.grows.table hread.cells
    hread.low hq₁ hread.rev) ?_)
  rintro res m' ⟨q₂, heap', t₂, a, rfl, rfl, hq₂, hrevd⟩
  refine wp_star_self (a := h) rfl fun t₃ q₃ hle₃ hq₃ => ?_
  refine wp_star_self (a := b) rfl fun t₄ q₄ hle₄ hq₄ => ?_
  cases ls with
  | nil =>
      obtain rfl : h = c.constNil := hread.rev
      obtain rfl : a = c.constNil := hrevd.list
      refine wp_set_const (hle₄ _ _ hq₃) hq₄ hrevd.table.read_nil (by simp [Payload.IsConst]) ?_
      exact ⟨q₂, heap', t₄, c.constNil, rfl, rfl, hle₄ _ _ (hle₃ _ _ hq₂), tbl,
        hrevd.grows hread.grows, hbudget, rfl⟩
  | cons l ls =>
      obtain rfl : h = l.cell := hread.rev.1
      have hfwd := hrevd.list
      rw [List.reverse_cons] at hfwd
      refine wp_set (hle₄ _ _ hq₃) hq₄ hfwd.last rfl ?_
      have hcell := hread.rev.bounds l List.mem_cons_self
      have hgrows := hrevd.grows hread.grows
      refine ⟨q₂, _, t₄, a, rfl, rfl, hle₄ _ _ (hle₃ _ _ hq₂), tbl, { hgrows with
        table := hrevd.table.write hfwd.last (hread.cells l List.mem_cons_self)
        old := fun d hd => ?_ }, hbudget, ?_⟩
      · exact (Function.update_of_ne (hd.trans_le hcell.1).ne ..).trans (hgrows.old d hd)
      · rw [← List.map_reverse, List.reverse_cons]
        refine Fwd.rep (hfwd.setTail.mono le_rfl (hread.high.trans hrevd.next.ge)
          (List.Subset.refl _) fun _ _ _ => rfl) ?_
        refine hrep.mono (hread.low.trans hlo) hrevd.next.ge (List.Subset.refl _) fun d hd _ => ?_
        exact (Function.update_of_ne (hcell.2.trans_le (hlo.trans hd)).ne' ..).trans
          (hrevd.outside d (.inr (hlo.trans hd)))

/-- The loop of `read_list`, with the elements so far in `head`. -/
theorem readListLoop_spec (hmirrors : Mirrors c limit code expr) (hconsumes : Consumes expr)
    (hread : Reading c tbl₀ heap₀ tbl heap heap.next h ls) (hbudget : tbl.length + w.input.length ≤ budget)
    (htable : tbl.length + w.input.length < limit) (hlength : ls.length + w.input.length < limit) :
    wp (handle (ideal c) c)
      (readListLoop code limit (.slot root.length 0) (.slot root.length 1) (.slot root.length 2) n)
      (fun res m' => Reads c tbl₀ heap₀ root budget (eval (parseListLoop expr n (ls.map Link.x)) w)
        res { m' with frames := m'.frames.tail })
      ⟨heap, [o, h, l] :: root, t, w⟩ := by
  induction n generalizing tbl heap t w ls o h l with
  | zero => exact ⟨rfl, rfl, _, hread.grows.table⟩
  | succ n ih =>
      rw [readListLoop, parseListLoop, eval_bind]
      refine wp_bind.mpr (wp_mono (hmirrors tbl heap _ t w hread.grows.table htable) ?_)
      rcases hout : eval expr w with ⟨e | x, w₁⟩
      · rintro res m' ⟨rfl, rfl, htbl'⟩
        exact ⟨rfl, rfl, htbl'⟩
      rintro res m' ⟨q, heap₁, t₁, a, rfl, rfl, hq, tbl₁, hg₁, hb₁, hrep⟩
      have hshorter := hconsumes _ _ _ hout
      have hread₁ := hread.step hg₁ le_rfl
      simp only
      refine wp_assign_slot hq ?_
      simp only [set_self, List.set]
      refine wp_star_self rfl fun t₂ q₂ _ hq₂ => ?_
      refine wp_is hq₂ has_null ?_
      simp only [hrep.eq_null hg₁.table, decide_eq_true_eq]
      by_cases hnull : x = .null
      · simp only [hnull, ↓reduceIte]
        exact ⟨rfl, rfl, _, hg₁.table⟩
      simp only [hnull, ↓reduceIte]
      refine wp_star_self rfl fun t₃ q₃ _ hq₃ => ?_
      refine wp_is hq₃ has_cparen ?_
      simp only [hrep.eq_cparen hg₁.table, decide_eq_true_eq]
      by_cases hcparen : x = .cparen
      · simp only [hcparen, ↓reduceIte]
        refine wp_star_self (a := h) rfl fun t₄ q₄ _ hq₄ => ?_
        refine wp_mono (reverse_spec (by omega) hg₁.table hread₁.cells (hread₁.low.trans hread₁.high)
          hq₄ (hread₁.rev.mono hread₁.high (List.Subset.refl _) fun _ _ _ => rfl)) ?_
        rintro res m' ⟨q₅, heap₂, t₅, a', rfl, rfl, hq₅, hrevd⟩
        refine ⟨q₅, heap₂, t₅, a', rfl, rfl, hq₅, tbl₁, hrevd.grows hread₁.grows, by omega, ?_⟩
        rw [hrevd.next, ← List.map_reverse]
        exact hrevd.list.rep (show Rep c tbl₁ heap₂.read _ _ c.constNil .nil from rfl)
      simp only [hcparen, ↓reduceIte]
      refine wp_star_self rfl fun t₄ q₄ _ hq₄ => ?_
      refine wp_is hq₄ has_dot ?_
      simp only [hrep.eq_dot hg₁.table, decide_eq_true_eq]
      by_cases hdot : x = .dot
      · simp only [hdot, ↓reduceIte, parseListNext, parseListEnd, eval_bind]
        refine wp_bind.mpr (wp_mono (hmirrors tbl₁ heap₁ _ t₄ w₁ hg₁.table (by omega)) ?_)
        rcases hout₂ : eval expr w₁ with ⟨e | y, w₂⟩
        · rintro res m' ⟨rfl, rfl, htbl'⟩
          exact ⟨rfl, rfl, htbl'⟩
        rintro res m' ⟨q₅, heap₂, t₅, b, rfl, rfl, hq₅, tbl₂, hg₂, hb₂, hrep₂⟩
        have hshorter₂ := hconsumes _ _ _ hout₂
        simp only
        refine wp_assign_slot hq₅ ?_
        simp only [set_self, List.set]
        refine wp_bind.mpr (wp_mono (hmirrors tbl₂ heap₂ _ t₅ w₂ hg₂.table (by omega)) ?_)
        rcases hout₃ : eval expr w₂ with ⟨e | z, w₃⟩
        · rintro res m' ⟨rfl, rfl, htbl'⟩
          exact ⟨rfl, rfl, htbl'⟩
        rintro res m' ⟨q₆, heap₃, t₆, d, rfl, rfl, hq₆, tbl₃, hg₃, hb₃, hrep₃⟩
        have hshorter₃ := hconsumes _ _ _ hout₃
        simp only
        refine wp_is hq₆ has_cparen ?_
        simp only [hrep₃.eq_cparen hg₃.table, decide_eq_true_eq]
        by_cases hclose : z = .cparen
        · simp only [hclose, ↓reduceIte]
          have hread₃ := (hread₁.step hg₂ hread₁.high).step hg₃ (hread₁.high.trans hg₂.next)
          refine wp_mono (close_spec hread₃ (by omega) hread₁.high (hrep₂.mono le_rfl hg₃.next
            hg₃.sub fun d _ hd => hg₃.old d hd) (show _ ≤ budget by omega)) fun res m' hres => ?_
          cases ls <;> exact hres
        · simp only [hclose, ↓reduceIte]
          exact ⟨rfl, rfl, _, hg₃.table⟩
      simp only [hdot, ↓reduceIte]
      refine wp_make Request.fits_cons fun t₅ q₅ hq₅ => ?_
      refine wp_assign_slot hq₅ ?_
      simp only [set_self, List.set, Request.payload, deref_self, List.getElem?_cons_zero,
        List.getElem?_cons_succ, Option.getD_some]
      have hnext := ih (t := t₅) (w := w₁) (o := a) (l := l) (hread₁.push hrep) (by omega) (by omega)
        (by simp only [List.length_cons]; omega)
      cases x with
      | null => exact absurd rfl hnull
      | cparen => exact absurd rfl hcparen
      | dot => exact absurd rfl hdot
      | _ => exact hnext

/-- What is read takes no less of the budget. -/
theorem Reads.mono {frames : Frames} {budget' : ℕ} {out : Except Fault Sexp × World}
    {res : Except Fault Ptr} {m' : Machine Ideal} (hreads : Reads c tbl heap frames budget out res m')
    (hle : budget ≤ budget') : Reads c tbl heap frames budget' out res m' := by
  rcases out with ⟨e | x, w'⟩
  · exact hreads
  · obtain ⟨q, heap', t', a, hres, hm', hq, tbl', hgrows, hbudget, hrep⟩ := hreads
    exact ⟨q, heap', t', a, hres, hm', hq, tbl', hgrows, hbudget.trans hle, hrep⟩

/-- `read_list` -/
theorem Mirrors.readList (hmirrors : Mirrors c limit code expr) (hconsumes : Consumes expr) :
    Mirrors c limit (readList code limit n) (parseListLoop expr n []) := by
  intro tbl heap frames t w htbl hlimit
  rw [Minilisp.readList, wp_tail]
  refine wp_define ?_
  refine wp_assign_slot has_nil ?_
  simp only [set_self, List.replicate, List.set]
  have hread : Reading c tbl heap tbl heap heap.next c.constNil [] :=
    ⟨Grows.refl htbl, rfl, by simp, le_rfl, le_rfl⟩
  refine wp_mono (readListLoop_spec (t := t) (o := null) (l := null) (n := n) hmirrors hconsumes
    hread le_rfl hlimit (by simp only [List.length_nil]; omega)) fun res m' hres => ?_
  cases res with
  | ok q => exact hres
  | error e =>
      rcases hout : eval (parseListLoop expr n ([].map Link.x)) w with ⟨e' | x, w'⟩
      · rw [hout] at hres
        simp only [List.map_nil] at hout
        rw [hout]
        exact hres
      · rw [hout] at hres
        obtain ⟨_, _, _, _, hok, -⟩ := hres
        cases hok

/-- `read_quote` -/
theorem readQuote_spec {frames : Frames} (hmirrors : Mirrors c limit code expr)
    (htbl : SymbolTable c tbl heap) (hlimit : tbl.length + 1 + w.input.length < limit) :
    wp (handle (ideal c) c) (readQuote code limit)
      (Reads c tbl heap frames (tbl.length + 1 + w.input.length)
        (eval (expr >>= fun x => return .list [.symbol (chars "quote"), x] .nil) w))
      ⟨heap, frames, t, w⟩ := by
  rw [readQuote, wp_tail, eval_bind]
  refine wp_define ?_
  refine wp_bind.mpr (wp_mono (intern_spec (by omega) (by decide) htbl) ?_)
  rintro res m' ⟨q, heap₁, t₁, a, rfl, rfl, hq, tbl₁, hg₁, hlength, e, he, hname, rfl⟩
  refine wp_assign_slot hq ?_
  simp only [set_self, List.replicate, List.set]
  refine wp_bind.mpr (wp_mono (hmirrors tbl₁ heap₁ _ t₁ w hg₁.table (by omega)) ?_)
  rcases hout : eval expr w with ⟨f | x, w₂⟩
  · rintro res m' ⟨rfl, rfl, htbl'⟩
    exact ⟨rfl, rfl, htbl'⟩
  rintro res m' ⟨q₂, heap₂, t₂, a, rfl, rfl, hq₂, tbl₂, hg₂, hb₂, hrep₂⟩
  simp only
  refine wp_assign_slot hq₂ ?_
  simp only [set_self, List.set]
  refine wp_make Request.fits_cons fun t₃ q₃ hq₃ => ?_
  refine wp_assign_slot hq₃ ?_
  simp only [set_self, List.set, Request.payload, deref, frame_self]
  refine wp_make Request.fits_cons fun t₄ q₄ hq₄ => ?_
  refine wp_assign_slot hq₄ ?_
  simp only [set_self, List.set, Request.payload, deref, frame_self]
  refine wp_tail.mpr (wp_star_self rfl fun t₅ q₅ _ hq₅ => ?_)
  have hgrows₁ := hg₁.trans hg₂ hg₁.next
  have hgrows := hgrows₁.trans ((hg₂.table.grows (.cell a c.constNil)).trans
    ((hg₂.table.alloc (.cell a c.constNil)).grows (.cell e.sym heap₂.next)) (Nat.le_succ _))
    hgrows₁.next
  refine ⟨q₅, _, t₅, _, rfl, rfl, hq₅, tbl₂, hgrows, by omega, ?_⟩
  have hold : ∀ d < heap₂.next, ((heap₂.place (.cell a c.constNil)).place
      (.cell e.sym heap₂.next)).read d = heap₂.read d := fun d hd =>
    (Function.update_of_ne (hd.trans (Nat.lt_succ_self _)).ne ..).trans
      (Function.update_of_ne hd.ne ..)
  have hlow : heap.next ≤ heap₂.next := hgrows₁.next
  refine ⟨Nat.le_succ_of_le hlow, Nat.lt_succ_self _, e.sym, heap₂.next, Function.update_self ..,
    ⟨e, hg₂.sub he, hname, rfl⟩, hlow, (Nat.lt_succ_self _).trans (Nat.lt_succ_self _), a,
    c.constNil, ?_, ?_, rfl⟩
  · exact (Function.update_of_ne (Nat.lt_succ_self heap₂.next).ne ..).trans
      (Function.update_self ..)
  · exact hrep₂.mono hg₁.next ((Nat.le_succ _).trans (Nat.le_succ _)) (List.Subset.refl _)
      fun d _ hd => hold d hd

theorem readName_length {buf buf' : List UInt8} {w' : World}
    (heval : eval (readName n buf) w = (.ok buf', w')) (hbuf : buf.length ≤ symbolMaxLen) :
    buf'.length ≤ symbolMaxLen := by
  induction n generalizing buf w with
  | zero => simp [readName] at heval
  | succ n ih =>
      rw [readName, eval_bind] at heval
      rcases hpeek : eval peek w with ⟨e | ch, w₁⟩
      · simp [hpeek] at heval
      simp only [hpeek] at heval
      split at heval
      · split at heval
        · simp [error] at heval
        · rw [eval_bind] at heval
          rcases hget : eval get1char w₁ with ⟨e | ch, w₂⟩
          · simp [hget] at heval
          · simp only [hget] at heval
            exact ih heval (by simp only [List.length_append, List.length_singleton]; omega)
      · simp only [eval_pure, Prod.mk.injEq, Except.ok.injEq] at heval
        exact heval.1 ▸ hbuf

/-- `read_symbol` -/
theorem readSymbol_spec {frames : Frames} {ch : UInt8} (htbl : SymbolTable c tbl heap)
    (hlimit : tbl.length + 1 + w.input.length < limit) :
    wp (handle (ideal c) c) (readSymbol limit n ch)
      (Reads c tbl heap frames (tbl.length + 1 + w.input.length)
        (eval (readName n [ch] >>= fun buf => return .symbol (cString buf)) w))
      ⟨heap, frames, t, w⟩ := by
  rw [readSymbol, (IoOnly.readName n [ch]).wp_bind, eval_bind]
  rcases hout : eval (readName n [ch]) w with ⟨e | buf, w₁⟩
  · exact ⟨rfl, rfl, _, htbl⟩
  simp only
  have hshorter := (Shorter.advances.readName n _).shorter hout
  have hlength : (cString buf).length ≤ symbolMaxLen :=
    (List.takeWhile_prefix _).length_le.trans (readName_length hout (by simp [symbolMaxLen]))
  refine wp_mono (intern_spec (by omega) hlength htbl) ?_
  rintro res m' ⟨q, heap₁, t₁, a, rfl, rfl, hq, tbl₁, hg₁, hsize, he⟩
  exact ⟨q, heap₁, t₁, a, rfl, rfl, hq, tbl₁, hg₁, by omega, he⟩

/-- A number, as `read_expr` makes it. -/
theorem makeInt_spec {frames : Frames} {number : Code (BitVec 32)} {g : BitVec 32 → BitVec 32}
    (hio : IoOnly number) (hshrinks : Along Shorter number) (htbl : SymbolTable c tbl heap) :
    wp (handle (ideal c) c) (number >>= fun val => makeInt (g val))
      (Reads c tbl heap frames (tbl.length + w.input.length)
        (eval (number >>= fun val => return .int (g val)) w))
      ⟨heap, frames, t, w⟩ := by
  rw [hio.wp_bind, eval_bind]
  rcases hout : eval number w with ⟨e | val, w₁⟩
  · exact ⟨rfl, rfl, _, htbl⟩
  simp only
  have hshorter := hshrinks.shorter hout
  refine wp_tail.mpr (wp_make Request.fits_makeInt fun t₁ q hq => ?_)
  exact ⟨q, _, t₁, heap.next, rfl, rfl, hq, tbl, htbl.grows _, by omega,
    Function.update_self .., le_rfl, Nat.lt_succ_self _⟩

/-- **`read_expr`** builds the expression that the input says. -/
theorem readExpr_spec (c : Statics) (limit n : ℕ) :
    Mirrors c limit (readExpr limit n) (parseExpr n) := by
  induction n with
  | zero => exact fun _ _ _ _ _ htbl _ => ⟨rfl, rfl, _, htbl⟩
  | succ n ih =>
      intro tbl heap frames t w htbl hlimit
      rw [readExpr, parseExpr, IoOnly.get1char.wp_bind, eval_bind]
      rcases hget : eval get1char w with ⟨e | ch, w₁⟩
      · exact ⟨rfl, rfl, _, htbl⟩
      simp only
      have hshorter := Consumes.get1char _ _ _ hget
      have hrest : wp (handle (ideal c) c) (readExpr limit n)
          (Reads c tbl heap frames (tbl.length + w.input.length) (eval (parseExpr n) w₁))
          ⟨heap, frames, t, w₁⟩ :=
        wp_mono (ih tbl heap frames t w₁ htbl (by omega)) fun _ _ h => h.mono (by omega)
      by_cases hblank : ch = char ' ' ∨ ch = char '\n' ∨ ch = char '\r' ∨ ch = char '\t'
      · simp only [hblank, ↓reduceIte]
        exact hrest
      simp only [hblank, ↓reduceIte]
      by_cases heof : ch = eof
      · simp only [heof, ↓reduceIte]
        exact ⟨.null, heap, t, null, rfl, rfl, has_null, tbl, Grows.refl htbl, by omega, rfl⟩
      simp only [heof, ↓reduceIte]
      by_cases hcomment : ch = char ';'
      · simp only [hcomment, ↓reduceIte]
        rw [(IoOnly.skipLine n).wp_bind, eval_bind]
        rcases hskip : eval (skipLine n) w₁ with ⟨e | x, w₂⟩
        · exact ⟨rfl, rfl, _, htbl⟩
        · have hshorter₂ := (Shorter.advances.skipLine n).shorter hskip
          exact wp_mono (ih tbl heap frames t w₂ htbl (by omega)) fun _ _ h => h.mono (by omega)
      simp only [hcomment, ↓reduceIte]
      by_cases hlist : ch = char '('
      · simp only [hlist, ↓reduceIte]
        exact wp_mono (ih.readList (.parseExpr n) tbl heap frames t w₁ htbl (by omega))
          fun _ _ h => h.mono (by omega)
      simp only [hlist, ↓reduceIte]
      by_cases hcparen : ch = char ')'
      · simp only [hcparen, ↓reduceIte]
        exact ⟨.cparen, heap, t, c.constCparen, rfl, rfl, has_cparen, tbl, Grows.refl htbl, by omega,
          rfl⟩
      simp only [hcparen, ↓reduceIte]
      by_cases hdot : ch = char '.'
      · simp only [hdot, ↓reduceIte]
        exact ⟨.dot, heap, t, c.constDot, rfl, rfl, has_dot, tbl, Grows.refl htbl, by omega, rfl⟩
      simp only [hdot, ↓reduceIte]
      by_cases hquote : ch = char '\''
      · simp only [hquote, ↓reduceIte]
        exact wp_mono (readQuote_spec ih htbl (by omega)) fun _ _ h => h.mono (by omega)
      simp only [hquote, ↓reduceIte]
      by_cases hdigit : isDigit ch
      · simp only [hdigit, ↓reduceIte]
        exact wp_mono (makeInt_spec (g := id) (.readNumber n _)
            (Shorter.advances.readNumber n _) htbl)
          fun _ _ h => h.mono (by omega)
      simp only [hdigit, Bool.false_eq_true, ↓reduceIte]
      rw [IoOnly.isMinus.wp_bind, eval_bind]
      rcases hminus : eval (isMinus ch) w₁ with ⟨e | minus, w₂⟩
      · exact ⟨rfl, rfl, _, htbl⟩
      have hshorter₂ := Shorter.advances.isMinus.shorter hminus
      simp only
      cases minus with
      | true =>
          simp only [↓reduceIte]
          exact wp_mono (makeInt_spec (.readNumber n _)
            (Shorter.advances.readNumber n _) htbl)
            fun _ _ h => h.mono (by omega)
      | false =>
          simp only [Bool.false_eq_true, ↓reduceIte]
          by_cases hsymbol : isAlpha ch || isSymbolChar ch
          · simp only [hsymbol, ↓reduceIte]
            exact wp_mono (readSymbol_spec htbl (by omega)) fun _ _ h => h.mono (by omega)
          · simp only [hsymbol, Bool.false_eq_true, ↓reduceIte]
            exact ⟨rfl, rfl, _, htbl⟩

end parser

end KernelPanic.Minilisp
