import KernelPanic.Kernel.Minilisp.Evaluator
import KernelPanic.Kernel.Minilisp.Independence
import KernelPanic.Kernel.Minilisp.Rules
import KernelPanic.Lib.Calls

/-!
# KernelPanic.Kernel.Minilisp.Typed

Runs in which every access is to a member that the object has.

`handleTyped` is `handle`, except that an access through NULL and an assignment to a member of
one of the constants are errors there too.  The evaluator leaves some calls unchecked, so its programs are
followed as far as their calls are none of these (`Call.Ok`); the rules for operations
are those of `Rules`, for such runs.
-/

namespace KernelPanic.Minilisp

open Machine Prog

/-- The address of the object that is accessed, which is not NULL. -/
def Machine.object {H : Type} (b : Backend H) (c : Statics) (m : Machine H) (p : Ptr) :
    Except Fault ℕ := do
  let a ← m.address b c p
  if a = null then throw (.badAccess a) else return a

/-- The machine, on which every access must be to a member of an object that has it. -/
def handleTyped {H : Type} (b : Backend H) (c : Statics) : Prog.Handler Op Fault (Machine H)
  | _, .look p view, m => do
    let _ ← m.object b c p
    handle b c (.look p view) m
  | _, .load p f, m => do
    let _ ← m.object b c p
    handle b c (.load p f) m
  | _, .store p f q, m => do
    let a ← m.object b c p
    let q ← m.address b c q
    let payload ← m.fetch b a
    match payload.field f with
    | some _ => return ((), { m with heap := b.write m.heap a (payload.setField q f) })
    | none => throw (.badAccess a)
  | _, o, m => handle b c o m

section typed

variable {H : Type} {b : Backend H} {c : Statics}

theorem Handles.Has.object {t : Handles} {p : Ptr} {a : ℕ} {heap : H} {frames : Frames} {w : World}
    (hp : t.Has b c p a) (hnull : a ≠ null) :
    Machine.object b c ⟨heap, frames, t, w⟩ p = .ok a := by
  simp only [Machine.object, Machine.address, hp.eq, Bind.bind, Except.bind, hnull, ↓reduceIte]
  rfl

theorem Agrees.object {β : Type} {objs : List ℕ} {D : Set ℕ} {ρ : ℕ → ℕ} {i : Machine Ideal}
    {m : Machine State} (h : Sim c objs D ρ i m) (p : Ptr)
    {k₁ : ℕ → Except Fault (β × Machine Ideal)} {k₂ : ℕ → Except Fault (β × Machine State)}
    (hk : ∀ a, Known c D a → Agrees c (k₁ a) (k₂ (ρ a))) :
    Agrees c (i.object (ideal c) c p >>= k₁) (m.object (concrete c) c p >>= k₂) := by
  simp only [Machine.object, bind_assoc]
  refine Agrees.address h p fun a ha => ?_
  by_cases hnull : a = null
  · rw [if_pos hnull]
    exact .bad
  · rw [if_neg hnull, if_neg (mt (h.eq_null ha).mp hnull)]
    exact hk a ha

theorem agrees_store_handleTyped {objs : List ℕ} {D : Set ℕ} {ρ : ℕ → ℕ} {i : Machine Ideal}
    {m : Machine State} {p q : Ptr} {f : Field} (h : Sim c objs D ρ i m) :
    Agrees c (handleTyped (ideal c) c (.store p f q) i) (handleTyped (concrete c) c (.store p f q) m) := by
  refine Agrees.object h p fun a ha => Agrees.address h q fun b hb =>
    Agrees.fetch h ha fun payload hread _ hmember => ?_
  rw [Payload.field_mapPointers]
  cases hf : payload.field f with
  | some old =>
      have hD : a ∈ D := hmember.resolve_left fun hconst => by
        cases payload <;> simp_all [Payload.IsConst, Payload.field]
      exact .ok (h.store hD hb hread)
  | none => exact .bad

/-- Every operation gives the same answer on both heaps. -/
theorem handleTyped_sim (c : Statics) :
    Prog.Simulates (handleTyped (ideal c) c) (handleTyped (concrete c) c) (fun e => ∃ a, e = .badAccess a)
      (· = .error "Memory exhausted") (Related c) := by
  rintro β o i m ⟨objs, D, ρ, h⟩
  have hsame := handle_sim c o i m ⟨objs, D, ρ, h⟩
  cases o with
  | store p f q => exact agrees_store_handleTyped h
  | look p view => exact Agrees.object h p fun _ _ => hsame
  | load p f => exact Agrees.object h p fun _ _ => hsame
  | _ => exact hsame

/-- An operation that makes no wrong access does what the code does. -/
theorem handleTyped_eq {β : Type} (o : Op β) (m : Machine H) :
    handleTyped b c o m = handle b c o m ∨ ∃ a, handleTyped b c o m = .error (.badAccess a) := by
  have hobject : ∀ p, m.object b c p = m.address b c p ∨ ∃ a, m.object b c p = .error (.badAccess a) := by
    intro p
    rw [Machine.object]
    cases m.address b c p with
    | error e => exact .inl rfl
    | ok a =>
        by_cases hnull : a = null
        · exact .inr ⟨a, if_pos hnull⟩
        · exact .inl (if_neg hnull)
  cases o with
  | look p view =>
      rcases hobject p with hp | ⟨a, ha⟩
      · simp only [handleTyped, handle, hp]
        cases m.address b c p <;> exact .inl rfl
      · exact .inr ⟨a, by simp only [handleTyped, ha]; rfl⟩
  | load p f =>
      rcases hobject p with hp | ⟨a, ha⟩
      · simp only [handleTyped, handle, hp]
        cases m.address b c p <;> exact .inl rfl
      · exact .inr ⟨a, by simp only [handleTyped, ha]; rfl⟩
  | store p f q =>
      rcases hobject p with hp | ⟨a, ha⟩
      · simp only [handleTyped, handle, hp]
        cases m.address b c p with
        | error e => exact .inl rfl
        | ok a =>
            cases m.address b c q with
            | error e => exact .inl rfl
            | ok a' =>
                simp only [Bind.bind, Except.bind]
                cases m.fetch b a with
                | error e => exact .inl rfl
                | ok payload =>
                    cases hf : payload.field f with
                    | some old => exact .inl (by simp only [hf])
                    | none => exact .inr ⟨a, by simp only [hf]; rfl⟩
      · exact .inr ⟨a, by simp only [handleTyped, ha]; rfl⟩
  | _ => exact .inl rfl

/-- A run without a wrong access is the run of the code. -/
theorem run_handleTyped {α : Type} {p : Code α} {m : Machine H}
    (h : ∀ a, (p.run (handleTyped b c) m).1 ≠ .error (.badAccess a)) :
    p.run (handleTyped b c) m = p.run (handle b c) m := by
  induction p generalizing m with
  | pure a => rfl
  | fail e => rfl
  | step o next ih =>
      simp only [run] at h ⊢
      rcases handleTyped_eq o m with hop | ⟨a, hop⟩
      · rw [hop] at h ⊢
        rcases hout : handle b c o m with e | ⟨x, m'⟩
        · rfl
        · rw [hout] at h
          exact ih x h
      · rw [hop] at h
        exact absurd rfl (h a)

end typed

/-! ## calls -/

/-- A list that ends in the empty list. -/
inductive Proper (c : Statics) (rd : ℕ → Option Payload) : ℕ → Prop
  | nil : Proper c rd c.constNil
  | cell {a p q : ℕ} (hnull : a ≠ null) (hread : rd a = some (.cell p q)) (h : Proper c rd q) :
      Proper c rd a

/-- `is_list` -/
def IsList (c : Statics) (rd : ℕ → Option Payload) (a : ℕ) : Prop :=
  a = c.constNil ∨ ∃ p q, rd a = some (.cell p q)

/-- Each parameter gets an argument: the loop of `push_env` comes to its end. -/
inductive Binds (rd : ℕ → Option Payload) : ℕ → ℕ → Prop
  | rest {params args : ℕ} {payload : Payload} (hread : rd params = some payload)
      (hrest : payload.type ≠ tCell) : Binds rd params args
  | cell {params args x p y q : ℕ} (hparams : rd params = some (.cell x p))
      (hargs : rd args = some (.cell y q)) (h : Binds rd p q) : Binds rd params args

/-- The calls of `apply` and `apply_func`. -/
inductive Call
  | apply (limit n : ℕ) (env fn args : Ref)
  | applyFunc (limit n : ℕ) (fn args : Ref)

namespace Call

/-- The code of a call. -/
def code : Call → Code Ptr
  | .apply limit n env fn args => Evaluator.apply (Evaluator.eval limit n) limit n env fn args
  | .applyFunc limit n fn args => Evaluator.applyFunc (Evaluator.eval limit n) limit fn args

/-- The primitive checks the arguments before it depends on them. -/
def PrimitiveOk (c : Statics) (rd : ℕ → Option Payload) (fn args : ℕ) : Prop :=
  if fn = 2 ∨ fn = 3 ∨ fn = 9 then Proper c rd args ∧ args ≠ c.constNil
  else if fn = 5 ∨ fn = 8 ∨ fn = 10 then Proper c rd args
  else if fn = 12 ∨ fn = 13 ∨ fn = 19 ∨ fn = 20 ∨ fn = 21 then args ≠ c.constNil
  else True

/-- The call depends on nothing that has not been checked.  Where `apply` is given a list,
it is proper for a function, for `car`, `cdr` and `-`, for `setcar`, `+` and `<`, and
`car`, `cdr`, `-`, `defun`, `defmacro`, `println`, `panic` and `sleep` have an argument; where
`push_env` finds an argument for each parameter, the body of the function or macro is a
proper list. -/
def Ok {H : Type} (b : Backend H) (c : Statics) (call : Call) (m : Machine H) : Prop :=
  let read := b.read m.heap
  let value := deref c (b.symbols m.heap) m.frames
  match call with
  | .apply _ _ _ fn args => IsList c read (value args) →
    (∀ k, read (value fn) = some (.primitive k) → PrimitiveOk c read k (value args)) ∧
      ∀ params body env, read (value fn) = some (.function params body env) →
        Proper c read (value args)
  | .applyFunc _ _ fn args =>
    ∀ params body env, read (value fn) = some (.function params body env) ∨
      read (value fn) = some (.macroFn params body env) →
        Binds read params (value args) → Proper c read body

end Call

section calls

variable {c : Statics} {objs : List ℕ} {D : Set ℕ} {ρ : ℕ → ℕ} {i : Machine Ideal}
  {m : Machine State} {a : ℕ}

theorem Sim.proper (hsim : Sim c objs D ρ i m) (ha : Known c D a)
    (h : Proper c ((concrete c).read m.heap) (ρ a)) : Proper c i.heap.read a := by
  generalize hb : ρ a = b at h
  induction h generalizing a with
  | nil =>
      have hnil : Fixed c c.constNil := .inr (by simp)
      have heq := hb.trans (hsim.fixed _ hnil).symm
      rw [(hsim.inj ha (.inr hnil)).mp heq]
      exact .nil
  | cell hnull hread _ ih =>
      subst hb
      have hne : a ≠ Minilisp.null := fun heq => hnull ((hsim.eq_null ha).mpr heq)
      obtain ⟨payload, hpayload⟩ := hsim.read_some ha hne
      obtain ⟨hmem, hpointers, -⟩ := hsim.read ha hpayload
      rw [hmem] at hread
      cases payload with
      | cell p q =>
          cases hread
          exact .cell hne hpayload (ih (hpointers q (by simp [Payload.pointers])) rfl)
      | _ => cases hread

theorem Sim.primitiveOk (hsim : Sim c objs D ρ i m) {k : ℕ} (ha : Known c D a)
    (h : Call.PrimitiveOk c ((concrete c).read m.heap) k (ρ a)) :
    Call.PrimitiveOk c i.heap.read k a := by
  have hnil : ρ a ≠ c.constNil → a ≠ c.constNil := by
    rintro hne rfl
    exact hne (hsim.fixed _ (.inr (by simp)))
  have hproper := hsim.proper ha
  unfold Call.PrimitiveOk at h ⊢
  split_ifs at h ⊢
  · exact h.imp hproper hnil
  · exact hproper h
  · exact hnil h

theorem Sim.isList (hsim : Sim c objs D ρ i m) (ha : Known c D a) (h : IsList c i.heap.read a) :
    IsList c ((concrete c).read m.heap) (ρ a) := by
  rcases h with rfl | ⟨p, q, hread⟩
  · exact .inl (hsim.fixed _ (.inr (by simp)))
  · exact .inr ⟨ρ p, ρ q, (hsim.read ha hread).1⟩

theorem Sim.binds (hsim : Sim c objs D ρ i m) {params args : ℕ} (hp : Known c D params)
    (ha : Known c D args) (h : Binds i.heap.read params args) :
    Binds ((concrete c).read m.heap) (ρ params) (ρ args) := by
  induction h with
  | rest hread hrest =>
      refine .rest (hsim.read hp hread).1 ?_
      rwa [Payload.type_mapPointers]
  | cell hparams hargs _ ih =>
      obtain ⟨hmem, hpointers, -⟩ := hsim.read hp hparams
      obtain ⟨hmem', hpointers', -⟩ := hsim.read ha hargs
      refine .cell hmem hmem' (ih (hpointers _ ?_) (hpointers' _ ?_)) <;> simp [Payload.pointers]

/-- What is said of a call on the heap that is collected holds on the other. -/
theorem Sim.callOk (hsim : Sim c objs D ρ i m) {call : Call} (h : call.Ok (concrete c) c m) :
    call.Ok (ideal c) c i := by
  cases call with
  | apply limit n env fn args =>
      obtain ⟨hfn, hfn'⟩ := hsim.deref fn
      obtain ⟨hargs, hargs'⟩ := hsim.deref args
      simp only [Call.Ok, concrete, hfn', hargs'] at h
      intro hlist
      obtain ⟨hprimitive, hfunction⟩ := h (hsim.isList hargs hlist)
      refine ⟨fun k hread => ?_, fun params body env hread => ?_⟩
      · exact hsim.primitiveOk hargs (hprimitive k (hsim.read hfn hread).1)
      · exact hsim.proper hargs (hfunction _ _ _ (hsim.read hfn hread).1)
  | applyFunc limit n fn args =>
      obtain ⟨hfn, hfn'⟩ := hsim.deref fn
      obtain ⟨hargs, hargs'⟩ := hsim.deref args
      simp only [Call.Ok, concrete, hfn', hargs'] at h
      intro params body env hread hbinds
      rcases hread with hread | hread <;> obtain ⟨hmem, hpointers, -⟩ := hsim.read hfn hread
      · exact hsim.proper (hpointers body (by simp [Payload.pointers]))
          (h _ _ _ (.inl hmem) (hsim.binds (hpointers params (by simp [Payload.pointers])) hargs hbinds))
      · exact hsim.proper (hpointers body (by simp [Payload.pointers]))
          (h _ _ _ (.inr hmem) (hsim.binds (hpointers params (by simp [Payload.pointers])) hargs hbinds))

end calls

end KernelPanic.Minilisp
