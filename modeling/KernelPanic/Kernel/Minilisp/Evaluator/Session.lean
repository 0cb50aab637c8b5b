import KernelPanic.Kernel.Minilisp.Evaluator.Soundness
import KernelPanic.Kernel.Minilisp.Evaluator.WellFormed
import KernelPanic.Kernel.Minilisp.Evaluator.Data
import KernelPanic.Kernel.Minilisp.Stacked

/-!
# KernelPanic.Kernel.Minilisp.Evaluator.Session

What a user can do to the evaluator.

A session begins with `lisp_repl_main` and goes on with turns of its loop.  Between two
turns every object that the program can name has a kind (`Ready`), and stays so as far
as the data that is read has no marker in it and the calls are checked.
-/

namespace KernelPanic.Minilisp.Evaluator

open Machine Prog Kinds

/-! ## the beginning -/

section beginning

variable {c : Statics} {tbl : List Entry} {T : Kinds} {heap : Ideal} {frames : Frames} {t : Handles}
  {w : World} {limit k e : ℕ} {env : Ref} {name : String}

/-- The environment has been added to, and there are at most `k` more symbols. -/
def Adds (c : Statics) (tbl : List Entry) (frames : Frames) (w : World) (e k : ℕ) :
    Except Fault Unit → Machine Ideal → Prop
  | .ok _, m => ∃ T tbl', Kinded c T tbl' m.heap ∧ T e = some .env ∧ m.frames = frames ∧
      tbl' ≠ [] ∧ tbl'.length ≤ tbl.length + k ∧ m.world.input = w.input
  | .error err, _ => ∀ a, err ≠ .badAccess a

/-- A variable gets its value. -/
theorem wp_addVariable {sym val : Ref} {v : ℕ} (hk : Kinded c T tbl heap) (he : T e = some .env)
    (htbl : tbl ≠ []) (henv : At c frames env e) (hval : At c frames val v) (hv : Val c T v) :
    wp (handle (ideal c) c) (addVariable env sym val) (Adds c tbl frames w e 0)
      ⟨heap, frames, t, w⟩ := by
  refine wp_mono (Safe.wp (s := ⟨T, heap, w.input⟩) (addVariable_safe henv he hval hv) hk .refl rfl)
    fun res m' hres => ?_
  cases res with
  | error e => exact hres.ne_badAccess
  | ok x =>
      obtain ⟨T', hk', hev, hw, hframes⟩ := hres
      exact ⟨T', tbl, hk', hev.kinds _ _ he, hframes, htbl, le_rfl, hw⟩

/-- A symbol is found or made, and assigned to a variable. -/
theorem wp_intern {f : List ℕ} {code : Unit → Code Unit} {Q : Except Fault Unit → Machine Ideal → Prop}
    (hk : Kinded c T tbl heap) (hlimit : tbl.length < limit) (hname : (chars name).length ≤ symbolMaxLen)
    (hcode : ∀ T' tbl' heap' t' a, Kinded c T' tbl' heap' → Evolves T heap T' heap' →
      tbl' ≠ [] → tbl'.length ≤ tbl.length + 1 →
      wp (handle (ideal c) c) (code ()) Q ⟨heap', f.set 0 a :: frames, t', w⟩) :
    wp (handle (ideal c) c)
      (intern limit (chars name) >>= fun q => assign (.slot frames.length 0) q >>= code) Q
      ⟨heap, f :: frames, t, w⟩ := by
  refine wp_bind.mpr (wp_mono (intern_spec hlimit hname hk.table) fun res m' hres => ?_)
  obtain ⟨q, heap', t', a, rfl, rfl, hq, tbl', hgrows, hlength, d, hd, -⟩ := hres
  obtain ⟨hk', hev⟩ := hk.grow hgrows (K := fun _ => none) (fun _ _ => nofun) fun _ _ => rfl
  refine wp_assign_slot hq ?_
  rw [set_self]
  exact hcode _ _ _ _ _ hk' hev (List.ne_nil_of_mem hd) hlength

/-- `define_constants` -/
theorem defineConstants_spec (hk : Kinded c T tbl heap) (he : T e = some .env)
    (henv : At c frames env e) (hlimit : tbl.length < limit) :
    wp (handle (ideal c) c) (defineConstants limit env) (Adds c tbl frames w e 1)
      ⟨heap, frames, t, w⟩ := by
  rw [defineConstants, wp_tail]
  refine wp_define (wp_intern hk hlimit (by decide) fun T' tbl' heap' t' a hk' hev htbl hlength => ?_)
  refine wp_mono (wp_addVariable hk' (hev.kinds _ _ he) htbl henv.cons at_constTrue val_constTrue)
    fun res m' hres => ?_
  cases res with
  | error e => exact hres
  | ok x =>
      obtain ⟨T₁, tbl₁, hk₁, he₁, hframes, htbl₁, hlength₁, hw⟩ := hres
      exact ⟨T₁, tbl₁, hk₁, he₁, congrArg List.tail hframes, htbl₁, hlength₁.trans hlength, hw⟩

/-- `add_primitive` -/
theorem addPrimitive_spec {fn : ℕ} (hk : Kinded c T tbl heap) (he : T e = some .env)
    (henv : At c frames env e) (hlimit : tbl.length < limit)
    (hname : (chars name).length ≤ symbolMaxLen) (hfn : fn < 22) :
    wp (handle (ideal c) c) (addPrimitive limit env name fn) (Adds c tbl frames w e 1)
      ⟨heap, frames, t, w⟩ := by
  rw [addPrimitive, wp_tail]
  refine wp_define (wp_intern hk hlimit hname fun T' tbl' heap' t' a hk' hev htbl hlength => ?_)
  refine wp_make Request.fits_makePrimitive fun t₁ q hq => ?_
  obtain ⟨hk₁, hev₁⟩ := hk'.place (.primitive hfn)
  refine wp_assign_slot hq ?_
  rw [set_self]
  refine wp_mono (wp_addVariable hk₁ (hev₁.kinds _ _ (hev.kinds _ _ he)) htbl henv.cons (at_self rfl)
    (.atom (Function.update_self ..))) fun res m' hres => ?_
  cases res with
  | error e => exact hres
  | ok x =>
      obtain ⟨T₂, tbl₂, hk₂, he₂, hframes, htbl₂, hlength₂, hw⟩ := hres
      exact ⟨T₂, tbl₂, hk₂, he₂, congrArg List.tail hframes, htbl₂, hlength₂.trans hlength, hw⟩

/-- `define_primitives` -/
theorem definePrimitives_spec {names : List (String × ℕ)} (hk : Kinded c T tbl heap)
    (he : T e = some .env) (henv : At c frames env e) (htbl : tbl ≠ [])
    (hlimit : tbl.length + names.length < limit)
    (hnames : ∀ x ∈ names, (chars x.1).length ≤ symbolMaxLen ∧ x.2 < 22) :
    wp (handle (ideal c) c) (definePrimitives limit env names)
      (Adds c tbl frames w e names.length) ⟨heap, frames, t, w⟩ := by
  induction names generalizing tbl T heap t w with
  | nil => exact ⟨T, tbl, hk, he, rfl, htbl, le_rfl, rfl⟩
  | cons x names ih =>
      obtain ⟨hx, hnames⟩ := List.forall_mem_cons.mp hnames
      rw [List.length_cons] at hlimit
      rw [definePrimitives]
      refine wp_bind.mpr (wp_mono (addPrimitive_spec hk he henv (by omega) hx.1 hx.2)
        fun res m' hres => ?_)
      cases res with
      | error e => exact hres
      | ok _ =>
          obtain ⟨T₁, tbl₁, hk₁, he₁, hframes, htbl₁, hlength, hw⟩ := hres
          obtain ⟨heap₁, frames₁, t₁, w₁⟩ := m'
          obtain rfl : frames₁ = frames := hframes
          refine wp_mono (ih hk₁ he₁ htbl₁ (by omega) hnames) fun res m' hres => ?_
          cases res with
          | error e => exact hres
          | ok _ =>
              obtain ⟨T₂, tbl₂, hk₂, he₂, hframes₂, htbl₂, hlength₂, hw₂⟩ := hres
              refine ⟨T₂, tbl₂, hk₂, he₂, hframes₂, htbl₂, ?_, hw₂.trans hw⟩
              rw [List.length_cons]
              omega

/-- Every object that the program can name has a kind, and the bounds of the loops suffice
for what is left to read; `V` is said of the expression. -/
def Ready (c : Statics) (limit n : ℕ) (V : Kinds → ℕ → Prop) (i : Machine Ideal) : Prop :=
  ∃ T tbl e x, Kinded c T tbl i.heap ∧ T e = some .env ∧ i.frames = [[e, x]] ∧ tbl ≠ [] ∧
    tbl.length + i.world.input.length < limit ∧ i.world.input.length < n ∧ V T x

/-- **The state between two turns.** -/
abbrev Idle (c : Statics) (limit n : ℕ) : Machine Ideal → Prop := Ready c limit n fun _ _ => True

/-- An outcome without a wrong access, or the property. -/
def Unless {α : Type} (R : α → Machine Ideal → Prop) : Except Fault α → Machine Ideal → Prop
  | .ok x, i => R x i
  | .error err, _ => ∀ a, err ≠ .badAccess a

/-- An outcome for which `error` was called or the turns were not enough, or the property. -/
def OrRaised {α : Type} (R : α → Machine Ideal → Prop) : Except Fault α → Machine Ideal → Prop
  | .ok x, i => R x i
  | .error err, _ => err.Raised

theorem OrRaised.unless {α : Type} {R : α → Machine Ideal → Prop} {res : Except Fault α}
    {i : Machine Ideal} (h : OrRaised R res i) : Unless R res i := by
  cases res with
  | error e => exact h.ne_badAccess
  | ok x => exact h

theorem OrRaised.not_badAccess {α : Type} {R : α → Machine Ideal → Prop} (e : Fault)
    (i : Machine Ideal) (h : OrRaised R (.error e) i) : ¬ ∃ a, e = .badAccess a :=
  fun ⟨a, ha⟩ => h.ne_badAccess a ha

/-- What is said of the calls on the heap that is collected holds on the other. -/
theorem met_ideal {c : Statics} (p : Code Unit) (i : Machine Ideal) (m : Machine State)
    (h : Related c i m) (hmet : Met Call.code (Call.Ok (concrete c) c) p m) :
    Met Call.code (Call.Ok (ideal c) c) p i := by
  obtain ⟨objs, D, ρ, hsim⟩ := h
  exact fun call k heq => hsim.callOk (hmet call k heq)

/-- `lisp_repl_main` before its loop -/
theorem replStart_spec {n : ℕ} (hk : Kinded c T [] heap) (hlimit : 23 + w.input.length < limit)
    (hn : w.input.length < n) :
    wp (handle (ideal c) c) (replStart limit (.slot 0 0)) (Unless fun _ => Idle c limit n)
      ⟨heap, [[null, null]], t, w⟩ := by
  have hnames : ∀ x ∈ primitiveNames.zipIdx, (chars x.1).length ≤ symbolMaxLen ∧ x.2 < 22 := by
    decide
  rw [replStart]
  refine wp_make Request.fits_makeEnv fun t₁ q hq => ?_
  obtain ⟨hk₁, hev₁⟩ := hk.place (.env (.inl rfl) (.inl rfl))
  refine wp_assign_slot hq ?_
  have henv : ∀ {e}, At c [[e, null]] (.slot 0 0) e := at_self rfl
  refine wp_bind.mpr (wp_mono (defineConstants_spec hk₁ (Function.update_self ..) henv
    (Nat.zero_lt_of_lt hlimit)) fun res m' hres => ?_)
  cases res with
  | error e => exact hres
  | ok x =>
      obtain ⟨T₂, tbl₂, hk₂, he₂, hframes₂, htbl₂, hlength₂, hw₂⟩ := hres
      obtain ⟨heap₂, frames₂, t₂, w₂⟩ := m'
      obtain rfl : frames₂ = [[heap.next, null]] := hframes₂
      have hzip : primitiveNames.zipIdx.length = 22 := rfl
      rw [List.length_nil] at hlength₂
      refine wp_mono (definePrimitives_spec hk₂ he₂ henv htbl₂ (by omega) hnames) fun res m' hres => ?_
      cases res with
      | error e => exact hres
      | ok x =>
          obtain ⟨T₃, tbl₃, hk₃, he₃, hframes₃, htbl₃, hlength₃, hw₃⟩ := hres
          have hw : m'.world.input.length = w.input.length := congrArg List.length (hw₃.trans hw₂)
          exact ⟨T₃, tbl₃, heap.next, null, hk₃, he₃, hframes₃, htbl₃, by omega, by omega, trivial⟩

end beginning

/-! ## a turn -/

section turn

variable {c : Statics} {i : Machine Ideal} {limit n : ℕ}

/-- The expression that has been read. -/
def datum {H : Type} (b : Backend H) (c : Statics) (m : Machine H) : ℕ :=
  deref c (b.symbols m.heap) m.frames (.slot 0 1)

/-- **A turn reads** an expression, which has kinds if there are no markers in it. -/
theorem replRead_spec (hready : Idle c limit n i) :
    wp (handle (ideal c) c) (replRead limit n (.slot 0 1))
      (Unless fun go i' => go = true → MarkerFree c i'.heap.read (datum (ideal c) c i') →
        Ready c limit n (Val c) i') i := by
  obtain ⟨heap, frames, t, w⟩ := i
  obtain ⟨T, tbl, e, x, hk, he, hframes, htbl, hlimit, hn, -⟩ := hready
  obtain rfl : frames = [[e, x]] := hframes
  rw [replRead]
  refine wp_bind.mpr (wp_mono (readExpr_spec c limit n tbl heap _ t w hk.table hlimit) ?_)
  rcases hout : Minilisp.eval (parseExpr n) w with ⟨err | d, w'⟩
  · rintro res m' ⟨rfl, -⟩ a rfl
    have hstop := Ends.parseExpr hn _ (congrArg Prod.fst hout)
    rcases hstop with hstop | ⟨message, hstop⟩ <;> cases hstop
  rintro res m' ⟨q, heap', t', a, rfl, rfl, hq, tbl', hgrows, hbudget, hrep⟩
  have hshorter : w'.input.length < w.input.length := Consumes.parseExpr n _ _ _ hout
  have hset : Frames.set [[e, x]] 0 1 a = [[e, a]] := rfl
  have hderef : deref c heap'.symbols [[e, a]] (.slot 0 1) = a := rfl
  refine wp_assign_slot hq ?_
  rw [hset]
  refine wp_star fun t₁ q₁ _ hq₁ => wp_is hq₁ has_null ?_
  split
  · exact nofun
  · next hnull =>
    refine wp_star fun t₂ q₂ _ hq₂ => wp_is hq₂ has_cparen ?_
    split
    · exact fun _ => nofun
    · next hcparen =>
      refine wp_star fun t₃ q₃ _ hq₃ => wp_is hq₃ has_dot ?_
      split
      · exact fun _ => nofun
      · next hdot =>
        simp only [ideal, hderef, decide_eq_true_eq] at hnull hcparen hdot
        intro _ hmarkers
        have hproper : d.proper := by
          rw [proper_iff]
          refine ⟨fun h => hnull ?_, fun h => hdot ?_, fun h => hcparen ?_, ?_⟩
          · exact (hrep.eq_null hgrows.table).mpr h
          · exact (hrep.eq_dot hgrows.table).mpr h
          · exact (hrep.eq_cparen hgrows.table).mpr h
          · exact (hrep.markerFree hgrows.table).mp hmarkers
        obtain ⟨T', hk', hev, hval⟩ := hrep.kinded hproper hk htbl hgrows
        have hne : tbl' ≠ [] := by
          rintro rfl
          exact htbl (List.subset_nil.mp hgrows.sub)
        exact ⟨T', tbl', e, a, hk', hev.kinds _ _ he, rfl, hne, hbudget.trans_lt hlimit,
          hshorter.trans hn, hval⟩

/-- **A turn evaluates** what it has read, and makes no wrong access. -/
theorem replEval_safe (hready : Ready c limit n (Val c) i) :
    wlp (handleTyped (ideal c) c) (Met Call.code (Call.Ok (ideal c) c))
      (OrRaised fun _ => Idle c limit n) (replEval limit n (.slot 0 0) (.slot 0 1)) i := by
  obtain ⟨heap, frames, t, w⟩ := i
  obtain ⟨T, tbl, e, x, hk, he, hframes, htbl, hlimit, hn, hx⟩ := hready
  obtain rfl : frames = [[e, x]] := hframes
  have hsafe : Safe c tbl (Call.Ok (ideal c) c) ⟨T, heap, w.input⟩ T ⟨heap, [[e, x]], t, w⟩
      (fun _ _ m' => m'.frames = [[e, x]]) (replEval limit n (.slot 0 0) (.slot 0 1)) := by
    rw [replEval]
    refine (eval_safe n (at_self rfl) he (at_self rfl) hx).bind
      fun q T₁ heap₁ frames₁ t₁ w₁ _ hq => ?_
    obtain ⟨rfl, v, hq, hv⟩ := hq
    refine prints_bind (print_safe limit hq hv) fun t₂ w₂ _ => ?_
    exact safe_tail (safe_write fun _ => safe_ok rfl)
  refine wlp_mono (hsafe hk .refl rfl) fun res m' hres => ?_
  cases res with
  | error err => exact hres
  | ok _ =>
      obtain ⟨T', hk', hev, hw, hframes⟩ := hres
      refine ⟨T', tbl, e, x, hk', hev.kinds _ _ he, hframes, htbl, ?_, ?_, trivial⟩ <;> rw [hw]
      · exact hlimit
      · exact hn

end turn

/-! ## sessions -/

/-- `lisp_repl_main` up to its loop. -/
def replBegin (limit : ℕ) : Code Unit := do
  assign .symbols .nil
  let depth ← (Prog.op (.push 2) : Code ℕ)
  replStart limit (.slot depth 0)

/-- The code of a turn after an expression has been read. -/
abbrev turn (limit n : ℕ) : Code Unit := replEval limit n (.slot 0 0) (.slot 0 1)

/-- From `m` an expression without markers is read, and whatever is called when it is
evaluated checks what it depends on. -/
structure Checked (c : Statics) (limit n : ℕ) (m m₁ : Machine State) : Prop where
  read : (replRead limit n (.slot 0 1)).run (handle (concrete c) c) m = (.ok true, m₁)
  markerFree : MarkerFree c ((concrete c).read m₁.heap) (datum (concrete c) c m₁)
  calls : (turn limit n).Throughout (handleTyped (concrete c) c)
    (Met Call.code (Call.Ok (concrete c) c)) m₁

/-- The machine between two turns. -/
inductive Session (c : Statics) (limit n : ℕ) : Machine State → Prop
  | start {s : State} {w : World} {m : Machine State} (hstart : Client.Start c s [])
      (hstatic : null ∉ c.addresses) (hlimit : 23 + w.input.length < limit)
      (hn : w.input.length < n)
      (hrun : (replBegin limit).run (handle (concrete c) c) (s.enter [] w) = (.ok (), m)) :
      Session c limit n m
  | turn {m m₁ m₂ : Machine State} (h : Session c limit n m) (hturn : Checked c limit n m m₁)
      (hrun : (turn limit n).run (handle (concrete c) c) m₁ = (.ok (), m₂)) : Session c limit n m₂

/-- The code ends with a call of `error`, if the turns of the loops are enough. -/
def Stopped {α : Type} (c : Statics) (code : Code α) (m : Machine State) : Prop :=
  ∃ e, (code.run (handle (concrete c) c) m).1 = .error e ∧ e.Raised

/-- A call is well formed or stopped, unless the code does not test its form, and the values
that a primitive looks at are of the right types and as many as it takes, or it is stopped. -/
def Guarded (c : Statics) (p : Code Unit) (m : Machine State) : Prop :=
  Met Call.code (fun call m => call.Tested (concrete c) c m →
      call.WellFormed (concrete c) c m ∨ Stopped c call.code m) p m ∧
    Met Check.code (fun check m =>
      check.WellTyped (concrete c) c m ∨ Stopped c check.code m) p m

section session

variable {c : Statics} {limit n : ℕ} {m m₁ m₂ : Machine State} {s : State} {w : World}

/-- `Symbols` is set, and the frame of `lisp_repl_main` is there. -/
theorem Session.begin (hstatic : null ∉ c.addresses) :
    (replBegin limit).run (handle (concrete c) c) (s.enter [] w) =
      (replStart limit (.slot 0 0)).run (handle (concrete c) c)
        (((concrete c).setSymbols s c.constNil).enter [[null, null]] w) := by
  have hne : c.constNil ≠ null := fun heq => hstatic (heq ▸ by simp)
  rw [replBegin, assign, op_bind, run]
  simp only [handle, Machine.address, Handles.address, State.enter, hne, ↓reduceIte, Bind.bind,
    Except.bind]
  rfl

/-- A block that has been set up, with the empty table of symbols. -/
theorem setSymbols_start (hstart : Client.Start c s []) :
    Client.Start c ((concrete c).setSymbols s c.constNil) [[null, null]] where
  init := by
    obtain ⟨block, heap1, heap2, heapSize, debugGc, alwaysGc, hblock⟩ := hstart.init
    refine ⟨{ block with symbols := c.constNil }, heap1, heap2, heapSize, debugGc, alwaysGc, ?_⟩
    simp only [concrete, hblock, lispInit]
  idle := hstart.idle
  symbols := by simp [concrete]
  roots := by simp
  apart := hstart.apart
  notNull := hstart.notNull
  statics := hstart.statics

/-- The session begins. -/
theorem Session.begin_idle (hstart : Client.Start c s []) (hstatic : null ∉ c.addresses)
    (hlimit : 23 + w.input.length < limit) (hn : w.input.length < n)
    (hrun : (replBegin limit).run (handle (concrete c) c) (s.enter [] w) = (.ok (), m)) :
    ∃ i, Related c i m ∧ Idle c limit n i := by
  rw [Session.begin hstatic] at hrun
  obtain ⟨objs, halign⟩ := (setSymbols_start hstart).inv
  have hwf := halign.toWellFormed
  have htbl : Interned c ((concrete c).setSymbols s c.constNil) [] :=
    ⟨rfl, List.nodup_nil, by simp⟩
  have hk : Kinded c (fun _ => none) [] (State.still c ((concrete c).setSymbols s c.constNil) objs) :=
    ⟨hwf.symbolTable hstatic htbl, fun _ _ => nofun, by simp, by simp⟩
  have hspec := replStart_spec (t := ⟨[], []⟩) hk hlimit hn
  have hgood : ∀ a, ((replStart limit (.slot 0 0)).run (handle (ideal c) c)
      ⟨State.still c ((concrete c).setSymbols s c.constNil) objs, [[null, null]], ⟨[], []⟩, w⟩).1 ≠
        .error (.badAccess a) := fun a ha => by
    rw [Prog.wp, ha] at hspec
    exact hspec a rfl
  rcases run_agree _ ⟨objs, _, _, hwf.sim (w := w) hstatic⟩ hgood with ⟨hfull, -⟩ | ⟨heq, hrel⟩
  · rw [hrun] at hfull
    cases hfull
  · rw [hrun] at heq hrel
    rw [Prog.wp, ← heq] at hspec
    exact ⟨_, hrel, hspec⟩

/-- An expression is read, on the other heap too. -/
theorem Checked.ready_run {i : Machine Ideal} (hturn : Checked c limit n m m₁)
    (hrel : Related c i m) (hidle : Idle c limit n i) :
    ∃ i₁, (replRead limit n (.slot 0 1)).run (handle (ideal c) c) i = (.ok true, i₁) ∧
      Related c i₁ m₁ ∧ Ready c limit n (Val c) i₁ := by
  have hspec := replRead_spec hidle
  have hgood : ∀ a, ((replRead limit n (.slot 0 1)).run (handle (ideal c) c) i).1 ≠
      .error (.badAccess a) := fun a ha => by
    rw [Prog.wp, ha] at hspec
    exact hspec a rfl
  rcases run_agree _ hrel hgood with ⟨hfull, -⟩ | ⟨heq, hrel⟩
  · rw [hturn.read] at hfull
    cases hfull
  · rw [hturn.read] at heq hrel
    rw [Prog.wp, ← heq] at hspec
    obtain ⟨objs, D, ρ, hsim⟩ := hrel
    refine ⟨_, Prod.ext heq.symm rfl, ⟨objs, D, ρ, hsim⟩, hspec rfl ?_⟩
    obtain ⟨hknown, hdatum⟩ := hsim.deref (.slot 0 1)
    have hfree := hturn.markerFree
    rw [datum, show (concrete c).symbols m₁.heap = m₁.heap.block.symbols from rfl, hdatum] at hfree
    exact (hsim.markerFree hknown).mp hfree

/-- An expression is read. -/
theorem Checked.ready {i : Machine Ideal} (hturn : Checked c limit n m m₁) (hrel : Related c i m)
    (hidle : Idle c limit n i) : ∃ i₁, Related c i₁ m₁ ∧ Ready c limit n (Val c) i₁ := by
  obtain ⟨i₁, -, hready⟩ := hturn.ready_run hrel hidle
  exact ⟨i₁, hready⟩

/-- What has been read is evaluated. -/
theorem Checked.outcome {i : Machine Ideal} (hturn : Checked c limit n m m₁) (hrel : Related c i m₁)
    (hready : Ready c limit n (Val c) i) :
    ((turn limit n).run (handleTyped (concrete c) c) m₁).1 = .error (.error "Memory exhausted") ∨
      ∃ i', OrRaised (fun _ => Idle c limit n) ((turn limit n).run (handleTyped (concrete c) c) m₁).1 i' ∧
        Related c i' ((turn limit n).run (handleTyped (concrete c) c) m₁).2 := by
  rcases wlp_sim (handleTyped_sim c) met_ideal OrRaised.not_badAccess (turn limit n) hrel
    (replEval_safe hready) hturn.calls with ⟨e, he, rfl⟩ | hres
  · exact .inl he
  · exact .inr hres

theorem Checked.noWrongAccess {i : Machine Ideal} (hturn : Checked c limit n m m₁)
    (hrel : Related c i m₁) (hready : Ready c limit n (Val c) i) (a : ℕ) :
    ((turn limit n).run (handleTyped (concrete c) c) m₁).1 ≠ .error (.badAccess a) := by
  rcases hturn.outcome hrel hready with hfull | ⟨i', hidle, -⟩
  · rw [hfull]
    exact nofun
  · intro ha
    rw [ha] at hidle
    exact hidle.ne_badAccess a rfl

/-- **Between two turns** every object that the program can name has a kind. -/
theorem Session.idle (h : Session c limit n m) : ∃ i, Related c i m ∧ Idle c limit n i := by
  induction h with
  | start hstart hstatic hlimit hn hrun => exact Session.begin_idle hstart hstatic hlimit hn hrun
  | turn h hturn hrun ih =>
      obtain ⟨i, hrel, hidle⟩ := ih
      obtain ⟨i₁, hrel₁, hready⟩ := hturn.ready hrel hidle
      have hsame := run_handleTyped (hturn.noWrongAccess hrel₁ hready)
      rcases hturn.outcome hrel₁ hready with hfull | ⟨i', hidle', hrel'⟩
      · rw [hsame, hrun] at hfull
        cases hfull
      · rw [hsame, hrun] at hidle' hrel'
        exact ⟨i', hrel', hidle'⟩

/-- Only what `error` raises ends a turn. -/
theorem Checked.raised {i : Machine Ideal} (hturn : Checked c limit n m m₁)
    (hrel : Related c i m₁) (hready : Ready c limit n (Val c) i) {e : Fault}
    (he : ((turn limit n).run (handleTyped (concrete c) c) m₁).1 = .error e) : e.Raised := by
  rcases hturn.outcome hrel hready with hfull | ⟨i', hidle, -⟩
  · cases he.symm.trans hfull
    exact .inr ⟨_, rfl⟩
  · rwa [he] at hidle

/-- **Every call on the way** is well formed or stopped. -/
theorem Checked.guarded {i : Machine Ideal} (hturn : Checked c limit n m m₁)
    (hrel : Related c i m₁) (hready : Ready c limit n (Val c) i) :
    (turn limit n).Throughout (handleTyped (concrete c) c) (Guarded c) m₁ := by
  refine ((throughout_wlp (handleTyped_sim c) met_ideal OrRaised.not_badAccess hrel
    (replEval_safe hready) hturn.calls).and throughout_outcome).mono fun p m' hpoint => ?_
  obtain ⟨⟨hcalls, i', hrel', hwlp⟩, hsame⟩ := hpoint
  -- an error of the call is the error of the turn
  have hstopped : ∀ (code : Code Ptr) k, p = code >>= k → ∀ e,
      (code.run (handleTyped (concrete c) c) m').1 = .error e → Stopped c code m' := by
    rintro code k rfl e he
    have hturned := congrArg Prod.fst (run_bind_error (f := k) (Prod.ext he rfl))
    have hraised : e.Raised := hturn.raised hrel hready (hsame.symm.trans hturned)
    refine ⟨e, ?_, hraised⟩
    rw [← run_handleTyped fun a ha => hraised.ne_badAccess a (Except.error.inj (he.symm.trans ha)), he]
  refine ⟨fun call k heq htested => ?_, fun check k heq => ?_⟩
  · cases hrun : (call.code.run (handleTyped (concrete c) c) m').1 with
    | error e => exact .inr (hstopped _ k heq e hrun)
    | ok q =>
        subst heq
        refine .inl (Call.wellFormed_of_returns hrel' ?_ (hcalls.here call k rfl) htested hrun)
        rcases wlp_run (handleTyped_sim c) (fun q s₁ s₂ => met_ideal (q >>= k) s₁ s₂)
          (fun e s hQ => (hQ e rfl).not_badAccess e s) call.code hrel' hwlp.bind_left
          hcalls.bind_left with ⟨e, he, rfl⟩ | ⟨-, hideal, -⟩
        · cases hrun.symm.trans he
        · exact hideal.trans hrun
  · cases hrun : (check.code.run (handleTyped (concrete c) c) m').1 with
    | error e => exact .inr (hstopped _ k heq e hrun)
    | ok q =>
        obtain ⟨objs, D, ρ, hsim⟩ := hrel'
        exact .inl (of_returning (Check.returning hsim.read_constNil) hrun)

/-- A heap with room for the primitives. -/
def roomyStart : State :=
  { sampleHeap with
    mem := fun a => sampleStatics.objects.lookup a
    block := { lispInit sampleHeap.block 1024 8192 4096 false false with symbols := 16 } }

theorem roomyStart_start : Client.Start sampleStatics roomyStart [] where
  init := ⟨{ sampleHeap.block with symbols := 16 }, 1024, 8192, 4096, false, false, rfl⟩
  idle := rfl
  symbols := by decide
  roots := by simp
  apart := by decide
  notNull := by decide
  statics := by
    intro x o ho
    simp only [Statics.objects, List.mem_cons, Prod.mk.injEq, List.not_mem_nil, or_false] at ho
    rcases ho with ⟨rfl, rfl⟩ | ⟨rfl, rfl⟩ | ⟨rfl, rfl⟩ | ⟨rfl, rfl⟩ <;>
      exact ⟨rfl, .inl (by decide), .inl (by decide)⟩

/-- The machine at the beginning of the loop, when the text is to be typed. -/
def prompted (text : String) : Except Fault Unit × Stacked :=
  (replBegin 60).run (Stacked.handle sampleStatics)
    ⟨roomyStart, [], 0, [], ⟨chars text, [], [], 0, []⟩⟩

/-- An expression has been read from the text. -/
def entered (text : String) : Except Fault Bool × Stacked :=
  (replRead 60 30 (.slot 0 1)).run (Stacked.handle sampleStatics) (prompted text).2

end session

end KernelPanic.Minilisp.Evaluator
