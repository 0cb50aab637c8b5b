import KernelPanic.Kernel.Minilisp.Evaluator.Session
import KernelPanic.Kernel.Minilisp.Output

/-!
# KernelPanic.Kernel.Minilisp.Evaluator.Repl

The whole of `lisp_repl_main`, from the allocation of its frame to its end.

What a session answers does not depend on the allocator: on two heaps, wherever they lie,
however large they are and whenever they are collected, a session takes the same course, if
neither of them is exhausted (`lispReplMain_independent`).
-/

namespace KernelPanic.Minilisp.Evaluator

open Machine Prog Kinds

/-- The run ends because there is no more memory. -/
def Exhausts (c : Statics) {α : Type} (p : Code α) (m : Machine State) : Prop :=
  (p.run (handle (concrete c) c) m).1 = .error (.error "Memory exhausted")

/-- In each of the turns from `m` on, what is read has no marker in it and the calls are
checked. -/
def CheckedTurns (c : Statics) (limit n : ℕ) : ℕ → Machine State → Prop
  | 0, _ => True
  | turns + 1, m => ∀ m₁,
    (replRead limit n (.slot 0 1)).run (handle (concrete c) c) m = (.ok true, m₁) →
      Checked c limit n m m₁ ∧
        ∀ m₂, (turn limit n).run (handle (concrete c) c) m₁ = (.ok (), m₂) →
          CheckedTurns c limit n turns m₂

/-- The loop of `lisp_repl_main`, in its frame. -/
abbrev loop (limit n turns : ℕ) : Code Unit := replLoop limit n (.slot 0 0) (.slot 0 1) turns

section clean

variable {c : Statics} {limit n turns : ℕ} {i : Machine Ideal} {m m₁ : Machine State} {α β : Type}
  {p : Code α} {k : α → Code β}

/-- The run on the heap without a collector makes no wrong access. -/
def Clean (c : Statics) {α : Type} (p : Code α) (i : Machine Ideal) : Prop :=
  wp (handle (ideal c) c) p (Unless fun _ _ => True) i

theorem noWrongAccess_of_wp {R : α → Machine Ideal → Prop}
    (h : wp (handle (ideal c) c) p (Unless R) i) (a : ℕ) :
    (p.run (handle (ideal c) c) i).1 ≠ .error (.badAccess a) := fun ha => by
  rw [Prog.wp, ha] at h
  exact h a rfl

theorem Exhausts.bind (h : Exhausts c p m) : Exhausts c (p >>= k) m := by
  rcases hout : p.run (handle (concrete c) c) m with ⟨res, m'⟩
  rw [Exhausts, hout] at h
  cases h
  rw [Exhausts, run_bind_error hout]

/-- What is clean up to a call and after it is clean. -/
theorem clean_bind {R : α → Machine Ideal → Prop} (hrel : Related c i m)
    (hp : wp (handle (ideal c) c) p (Unless R) i)
    (hk : ∀ x i' m', p.run (handle (ideal c) c) i = (.ok x, i') →
      p.run (handle (concrete c) c) m = (.ok x, m') → Related c i' m' → R x i' →
      Exhausts c (k x) m' ∨ Clean c (k x) i') :
    Exhausts c (p >>= k) m ∨ Clean c (p >>= k) i := by
  rcases run_agree _ hrel (noWrongAccess_of_wp hp) with ⟨hfull, -⟩ | ⟨heq, hrel'⟩
  · exact .inl (Exhausts.bind hfull)
  rcases hideal : p.run (handle (ideal c) c) i with ⟨res, i'⟩
  rcases hout : p.run (handle (concrete c) c) m with ⟨res', m'⟩
  rw [hideal, hout] at heq hrel'
  obtain rfl : res' = res := heq
  rw [Prog.wp, hideal] at hp
  rw [Clean, wp_bind, Prog.wp, hideal]
  cases res' with
  | error e => exact .inr hp
  | ok x =>
      rw [Exhausts, run_bind_ok hout]
      exact hk x i' m' hideal hout hrel' hp

/-- A turn is clean, and the session goes on from where it ends. -/
theorem Checked.turn_clean (hturn : Checked c limit n m m₁) (hrel : Related c i m₁)
    (hready : Ready c limit n (Val c) i) : Exhausts c (turn limit n) m₁ ∨
      wp (handle (ideal c) c) (turn limit n) (Unless fun _ => Idle c limit n) i := by
  rcases wlp_run (handleTyped_sim c) met_ideal OrRaised.not_badAccess (turn limit n) hrel
    (replEval_safe hready) hturn.calls with ⟨e, he, rfl⟩ | ⟨hwp, -, -⟩
  · refine .inl ?_
    rw [Exhausts, ← run_handleTyped, he]
    intro a ha
    rw [ha] at he
    cases he
  · refine .inr ?_
    have hwp := wp_mono hwp fun _ _ => OrRaised.unless
    have hno : ∀ a, ((turn limit n).run (handleTyped (ideal c) c) i).1 ≠ .error (.badAccess a) :=
      fun a ha => by
        rw [Prog.wp, ha] at hwp
        exact hwp a rfl
    rwa [Prog.wp, run_handleTyped hno] at hwp

/-- **The loop is clean**, as far as there is memory. -/
theorem replLoop_clean (hrel : Related c i m) (hidle : Idle c limit n i)
    (hchecked : CheckedTurns c limit n turns m) :
    Exhausts c (loop limit n turns) m ∨ Clean c (loop limit n turns) i := by
  induction turns generalizing i m with
  | zero => exact .inr fun _ => nofun
  | succ turns ih =>
      rw [loop, replLoop]
      refine clean_bind hrel (replRead_spec hidle) fun go i₁ m₁ hideal hread hrel₁ _ => ?_
      cases go with
      | false => exact .inr trivial
      | true =>
          obtain ⟨hturn, hnext⟩ := hchecked m₁ hread
          obtain ⟨i₁', hideal', -, hready⟩ := hturn.ready_run hrel hidle
          cases hideal.symm.trans hideal'
          rcases hturn.turn_clean hrel₁ hready with hfull | hclean
          · exact .inl (Exhausts.bind hfull)
          · exact clean_bind hrel₁ hclean fun _ i₂ m₂ _ hrun hrel₂ hidle₂ =>
              ih hrel₂ hidle₂ (hnext m₂ hrun)

end clean

/-! ## from the beginning to the end -/

section main

variable {c : Statics} {limit n turns : ℕ} {s s' : State} {w : World}

/-- `lisp_repl_main` in its frame, `Symbols` being set. -/
def replMain (limit n turns : ℕ) : Code Unit := do
  replStart limit (.slot 0 0)
  loop limit n turns
  (Prog.op .pop : Code Unit)

/-- `Symbols = Nil` -/
theorem assign_symbols (hstatic : null ∉ c.addresses) :
    handle (concrete c) c (.assign .symbols .nil) (s.enter [] w) =
      .ok ((), ((concrete c).setSymbols s c.constNil).enter [] w) := by
  have hne : c.constNil ≠ null := fun heq => hstatic (heq ▸ by simp)
  simp only [handle, Machine.address, Handles.address, State.enter, hne, ↓reduceIte, Bind.bind,
    Except.bind]
  rfl

/-- What `lisp_repl_main` does before it calls a function. -/
theorem lispReplMain_run (hstatic : null ∉ c.addresses) :
    (lispReplMain limit n turns).run (handle (concrete c) c) (s.enter [] w) =
      (replMain limit n turns).run (handle (concrete c) c)
        (((concrete c).setSymbols s c.constNil).enter [[null, null]] w) := by
  rw [lispReplMain, assign, op_bind, run, assign_symbols hstatic, define]
  simp only [op_bind, bind_assoc']
  rfl

/-- Nothing is sent before. -/
theorem lispReplMain_sent (hstatic : null ∉ c.addresses) :
    sent c (lispReplMain limit n turns) (s.enter [] w) =
      sent c (replMain limit n turns)
        (((concrete c).setSymbols s c.constNil).enter [[null, null]] w) := by
  have hfirst : sends (s.enter [] w) (((concrete c).setSymbols s c.constNil).enter [] w) = [] := by
    simp [sends, State.enter, concrete]
  rw [sent, lispReplMain, assign, op_bind, run, observe, assign_symbols hstatic, define]
  simp only [op_bind, bind_assoc']
  rw [hfirst, run, observe, handle]
  simp only [sends, List.drop_length, List.flatMap_nil, List.append_nil]
  rfl

/-- A heap without objects is like any other. -/
theorem start_related {heap : Ideal} (hstart : Client.Start c s []) (hstatic : null ∉ c.addresses)
    (htable : SymbolTable c [] heap) : Related c ⟨heap, [[null, null]], ⟨[], []⟩, w⟩
      (((concrete c).setSymbols s c.constNil).enter [[null, null]] w) := by
  obtain ⟨objs, halign⟩ := (setSymbols_start hstart).inv
  have hsymbols : heap.symbols = c.constNil := htable.listed
  have hbelow : ∀ a ∈ c.addresses, a < heap.next := by
    intro a ha
    obtain ⟨⟨x, o⟩, hx, rfl⟩ := List.mem_map.mp ha
    exact htable.bounded _ (by simp [htable.constant x o hx])
  have hnil : c.constNil ∈ c.addresses := by simp
  refine ⟨objs, ∅, id, ?_⟩
  constructor
  case wellFormed => exact halign.toWellFormed
  case fixed => exact fun _ _ => rfl
  case injOn => exact Set.injOn_empty _
  case object => exact fun a ha => ha.elim
  case constant => exact htable.constant
  case null => exact htable.null
  case next =>
    rintro a (ha | rfl | ha)
    · exact ha.elim
    · exact Nat.zero_lt_of_lt (hbelow _ hnil)
    · exact hbelow a ha
  case symbols =>
    rw [hsymbols]
    exact ⟨.inr (.inr hnil), fun heq => hstatic (heq ▸ hnil), rfl⟩
  case frames => rfl
  case slots => simp [Known, Fixed]
  case age => rfl
  case length => rfl
  case handles => exact fun n a hn => by simp [Handles.all] at hn
  case world => rfl

/-- **A session is clean**, as far as there is memory. -/
theorem replMain_clean {heap : Ideal} (hstart : Client.Start c s []) (hstatic : null ∉ c.addresses)
    (hk : Kinded c (fun _ => none) [] heap) (hlimit : 23 + w.input.length < limit)
    (hn : w.input.length < n)
    (hchecked : ∀ m, (replBegin limit).run (handle (concrete c) c) (s.enter [] w) = (.ok (), m) →
      CheckedTurns c limit n turns m) :
    Exhausts c (replMain limit n turns)
        (((concrete c).setSymbols s c.constNil).enter [[null, null]] w) ∨
      Clean c (replMain limit n turns) ⟨heap, [[null, null]], ⟨[], []⟩, w⟩ := by
  refine clean_bind (start_related hstart hstatic hk.table) (replStart_spec hk hlimit hn)
    fun _ i m _ hrun hrel hidle => ?_
  rw [Session.begin hstatic] at hchecked
  rcases replLoop_clean hrel hidle (hchecked m hrun) with hfull | hclean
  · exact .inl (Exhausts.bind hfull)
  · exact clean_bind hrel hclean fun _ _ _ _ _ _ _ => .inr trivial

/-- **A session does not depend on the allocator.**  If what is typed has no marker in it
and the calls are checked, two sessions end in the same way, and the programs have read, written
and slept the same, or one of them has no memory left.  Without `debug_gc` nothing else is sent
on the serial port. -/
theorem lispReplMain_independent (hstart : Client.Start c s []) (hstart' : Client.Start c s' [])
    (hstatic : null ∉ c.addresses) (hlimit : 23 + w.input.length < limit)
    (hn : w.input.length < n)
    (hchecked : ∀ m, (replBegin limit).run (handle (concrete c) c) (s.enter [] w) = (.ok (), m) →
      CheckedTurns c limit n turns m) :
    Exhausts c (lispReplMain limit n turns) (s.enter [] w) ∨
      Exhausts c (lispReplMain limit n turns) (s'.enter [] w) ∨
      ((lispReplMain limit n turns).run (handle (concrete c) c) (s.enter [] w)).1 =
          ((lispReplMain limit n turns).run (handle (concrete c) c) (s'.enter [] w)).1 ∧
        ((lispReplMain limit n turns).run (handle (concrete c) c) (s.enter [] w)).2.world =
          ((lispReplMain limit n turns).run (handle (concrete c) c) (s'.enter [] w)).2.world ∧
        (s.block.debugGc = false → s'.block.debugGc = false →
          sent c (lispReplMain limit n turns) (s.enter [] w) =
            sent c (lispReplMain limit n turns) (s'.enter [] w)) := by
  obtain ⟨objs, halign⟩ := (setSymbols_start hstart).inv
  have hwf := halign.toWellFormed
  have htbl : Interned c ((concrete c).setSymbols s c.constNil) [] :=
    ⟨rfl, List.nodup_nil, by simp⟩
  have hk : Kinded c (fun _ => none) [] (State.still c ((concrete c).setSymbols s c.constNil) objs) :=
    ⟨hwf.symbolTable hstatic htbl, fun _ _ => nofun, by simp, by simp⟩
  simp only [Exhausts, lispReplMain_run hstatic, lispReplMain_sent hstatic]
  rcases replMain_clean hstart hstatic hk hlimit hn hchecked with hfull | hclean
  · exact .inl hfull
  have hgood := noWrongAccess_of_wp hclean
  have hrel := start_related (w := w) hstart hstatic hk.table
  have hrel' := start_related (w := w) hstart' hstatic hk.table
  rcases run_agree _ hrel hgood with ⟨hfull, -⟩ | ⟨heq, objs₁, D₁, ρ₁, hsim₁⟩
  · exact .inl hfull
  rcases run_agree _ hrel' hgood with ⟨hfull, -⟩ | ⟨heq', objs₂, D₂, ρ₂, hsim₂⟩
  · exact .inr (.inl hfull)
  by_cases hoff : s.block.debugGc = false ∧ s'.block.debugGc = false
  · rcases sent_agree hrel hoff.1 hgood with hfull | hsent
    · exact .inl hfull
    rcases sent_agree hrel' hoff.2 hgood with hfull | hsent'
    · exact .inr (.inl hfull)
    exact .inr (.inr ⟨heq.trans heq'.symm, hsim₁.world.trans hsim₂.world.symm,
      fun _ _ => hsent.trans hsent'.symm⟩)
  · exact .inr (.inr ⟨heq.trans heq'.symm, hsim₁.world.trans hsim₂.world.symm,
      fun h h' => absurd ⟨h, h'⟩ hoff⟩)

/-- A smaller heap elsewhere, which has to be collected. -/
def tightStart : State :=
  { roomyStart with
    block := { lispInit sampleHeap.block 4096 8192 2580 false false with symbols := 16 } }

theorem tightStart_start : Client.Start sampleStatics tightStart [] where
  init := ⟨{ sampleHeap.block with symbols := 16 }, 4096, 8192, 2580, false, false, rfl⟩
  idle := rfl
  symbols := by decide
  roots := by simp
  apart := by decide
  notNull := by decide
  statics := by
    intro x o ho
    simp only [Statics.objects, List.mem_cons, Prod.mk.injEq, List.not_mem_nil, or_false] at ho
    rcases ho with ⟨rfl, rfl⟩ | ⟨rfl, rfl⟩ | ⟨rfl, rfl⟩ | ⟨rfl, rfl⟩ <;>
      exact ⟨rfl, .inl (by decide), .inl (by decide)⟩

/-- A sum is typed, and nothing after it. -/
def sampleSum : String := "(+ 1 2) "

/-- `lisp_repl_main` on a heap, for two turns. -/
def sampleSession (s : State) : Except Fault Unit × Stacked :=
  (lispReplMain 60 30 2).run (Stacked.handle sampleStatics)
    ⟨s, [], 0, [], ⟨chars sampleSum, [], [], 0, []⟩⟩

/-- The second turn waits for input. -/
theorem sampleSum_checked {m : Machine State}
    (hrun : (replBegin 60).run (handle (concrete sampleStatics) sampleStatics)
      (roomyStart.enter [] ⟨chars sampleSum, [], [], 0, []⟩) = (.ok (), m)) :
    CheckedTurns sampleStatics 60 30 2 m := by
  have hall : (prompted sampleSum).1 = .ok () ∧ (entered sampleSum).1 = .ok true ∧
      isMarkerFree sampleStatics ((concrete sampleStatics).read (entered sampleSum).2.heap) 9
        (deref sampleStatics (entered sampleSum).2.heap.block.symbols (entered sampleSum).2.frames
          (.slot 0 1)) = true ∧
      (turn 60 30).passes (Stacked.handle sampleStatics) (Call.test sampleStatics 9)
        (entered sampleSum).2 = true ∧
      ((turn 60 30).run (Stacked.handle sampleStatics) (entered sampleSum).2).1 = .ok () ∧
      ((replRead 60 30 (.slot 0 1)).run (Stacked.handle sampleStatics)
        ((turn 60 30).run (Stacked.handle sampleStatics) (entered sampleSum).2).2).1 =
        .error .blocked := by
    decide +kernel
  obtain ⟨hprompted, hentered, hmarkers, hcalls, hturn, hblocked⟩ := hall
  obtain ⟨m', hrun', hm⟩ := Stacked.Models.run_ok
    (m := roomyStart.enter [] ⟨chars sampleSum, [], [], 0, []⟩) ⟨rfl, rfl, rfl, rfl, rfl⟩ hprompted
  cases hrun.symm.trans hrun'
  intro m₁ hread
  obtain ⟨m₁', hread', hm₁⟩ : ∃ m', _ ∧ (entered sampleSum).2.Models m' := hm.run_ok hentered
  cases hread.symm.trans hread'
  rw [← hm₁.heap, ← hm₁.frames] at hmarkers
  refine ⟨⟨hread, .of_isMarkerFree hmarkers,
    .of_passes (Stacked.handle_sim sampleStatics) (fun _ _ _ => Call.Ok.of_test) hm₁ hcalls⟩,
    fun m₂ hrun₂ m₃ hread₂ => ?_⟩
  obtain ⟨m₂', hrun₂', hm₂⟩ := hm₁.run_ok hturn
  cases hrun₂.symm.trans hrun₂'
  obtain ⟨m₃', hread₂', -⟩ := hm₂.run_handle hblocked fun _ => nofun
  cases hread₂.symm.trans hread₂'

/-- The session itself. -/
def sampleMain (s : State) : Except Fault Unit × Machine State :=
  (lispReplMain 60 30 2).run (handle (concrete sampleStatics) sampleStatics)
    (s.enter [] ⟨chars sampleSum, [], [], 0, []⟩)

theorem sampleMain_eq {s : State} (hs : (sampleSession s).1 = .error .blocked) :
    (sampleMain s).1 = .error .blocked ∧ (sampleMain s).2.world = (sampleSession s).2.world := by
  obtain ⟨m', hrun, hm⟩ := Stacked.Models.run_handle
    (m := s.enter [] ⟨chars sampleSum, [], [], 0, []⟩) ⟨rfl, rfl, rfl, rfl, rfl⟩ hs fun _ => nofun
  rw [sampleMain, hrun]
  exact ⟨rfl, hm.world⟩

/-- The sum is printed, and more is waited for. -/
theorem lispReplMain_independent_sample :
    (sampleMain roomyStart).2.world.output = chars "3\n" ∧
      (sampleMain roomyStart).1 = (sampleMain tightStart).1 ∧
      (sampleMain roomyStart).2.world = (sampleMain tightStart).2.world ∧
      sent sampleStatics (lispReplMain 60 30 2)
          (roomyStart.enter [] ⟨chars sampleSum, [], [], 0, []⟩) =
        sent sampleStatics (lispReplMain 60 30 2)
          (tightStart.enter [] ⟨chars sampleSum, [], [], 0, []⟩) := by
  have hroomy : (sampleSession roomyStart).1 = .error .blocked ∧
      (sampleSession roomyStart).2.world.output = chars "3\n" := by decide +kernel
  have htight : (sampleSession tightStart).1 = .error .blocked := by decide +kernel
  obtain ⟨hblocked, hworld⟩ := sampleMain_eq hroomy.1
  obtain ⟨hblocked', -⟩ := sampleMain_eq htight
  have hlimit : 23 + (chars sampleSum).length < 60 := by decide
  have hn : (chars sampleSum).length < 30 := by decide
  have hsame := lispReplMain_independent roomyStart_start tightStart_start (by decide) hlimit hn
    fun _ => sampleSum_checked
  have hnot : ∀ s, (sampleMain s).1 = .error .blocked →
      ¬ Exhausts sampleStatics (lispReplMain 60 30 2) (s.enter [] ⟨chars sampleSum, [], [], 0, []⟩) := by
    intro s hs hfull
    rw [Exhausts] at hfull
    rw [sampleMain, hfull] at hs
    cases hs
  have hboth := (hsame.resolve_left (hnot roomyStart hblocked)).resolve_left (hnot tightStart hblocked')
  obtain ⟨hres, hworld', hsent⟩ := hboth
  have hoff : roomyStart.block.debugGc = false ∧ tightStart.block.debugGc = false := by
    simp only [roomyStart, tightStart, lispInit, and_self]
  refine ⟨(congrArg World.output hworld).trans hroomy.2, ?_⟩
  simp only [sampleMain]
  exact ⟨hres, hworld', hsent hoff.1 hoff.2⟩

end main

end KernelPanic.Minilisp.Evaluator
