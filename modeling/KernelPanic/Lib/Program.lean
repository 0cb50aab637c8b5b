import Mathlib.Init

/-!
# KernelPanic.Lib.Program

Programs over a set of operations, apart from what the operations do.

`Op β` are the operations that answer with a `β`; a `Handler` says what each does to
a state.  A program that is run by two handlers takes the same course as long as
every operation gives the same answer twice (`run_sim`), which reduces a statement
about two executions of any program to one about single operations.

`wp` is the weakest precondition of a run; the postcondition is also told how the
run failed and in which state.

Nothing here names a particular operation.
-/

universe u v

/-- A program that returns an `α` or fails with an `ε`. -/
inductive Prog (Op : Type → Type u) (ε α : Type) : Type (max 1 u)
  | pure (a : α)
  | fail (e : ε)
  | step {β : Type} (op : Op β) (next : β → Prog Op ε α)

namespace Prog

variable {Op : Type → Type u} {ε α β γ : Type} {σ σ₁ σ₂ : Type v}

/-- Sequencing. -/
def bind (p : Prog Op ε α) (f : α → Prog Op ε β) : Prog Op ε β :=
  match p with
  | pure a => f a
  | fail e => fail e
  | step op next => step op fun b => (next b).bind f

instance : Monad (Prog Op ε) where
  pure := Prog.pure
  bind := Prog.bind

/-- A single operation. -/
def op (o : Op α) : Prog Op ε α := step o pure

/-- What the operations do to a state, and answer. -/
abbrev Handler (Op : Type → Type u) (ε : Type) (σ : Type v) :=
  ⦃β : Type⦄ → Op β → σ → Except ε (β × σ)

/-- The outcome of a program, and the state it leaves; a failing operation leaves the
state it was called in. -/
def run (h : Handler Op ε σ) : Prog Op ε α → σ → Except ε α × σ
  | pure a, s => (.ok a, s)
  | fail e, s => (.error e, s)
  | step o next, s =>
    match h o s with
    | .ok (b, s') => run h (next b) s'
    | .error e => (.error e, s)

/-- Every run of the program ends in an outcome and a state that `Q` admits. -/
def wp (h : Handler Op ε σ) (p : Prog Op ε α) (Q : Except ε α → σ → Prop) (s : σ) : Prop :=
  Q (run h p s).1 (run h p s).2

/-! ## equations -/

section equations

variable {h : Handler Op ε σ} {p : Prog Op ε α} {f : α → Prog Op ε β} {g : β → Prog Op ε γ}
  {Q Q' : Except ε α → σ → Prop} {s : σ} {e : ε} {a : α}

@[simp] theorem pure_bind' : (Pure.pure a : Prog Op ε α) >>= f = f a := rfl

@[simp] theorem fail_bind : (fail e : Prog Op ε α) >>= f = fail e := rfl

@[simp] theorem step_bind {o : Op γ} {next : γ → Prog Op ε α} :
    step o next >>= f = step o fun c => next c >>= f := rfl

@[simp] theorem op_bind {o : Op α} : (op o : Prog Op ε α) >>= f = step o f := rfl

/-- Programs are put together in any order. -/
@[simp] theorem bind_assoc' : p >>= f >>= g = p >>= fun a => f a >>= g := by
  induction p with
  | pure a => rfl
  | fail e => rfl
  | step o next ih => exact congrArg (step o) (funext ih)

@[simp] theorem bind_pure' : (p >>= fun a => Pure.pure a) = p := by
  induction p with
  | pure a => rfl
  | fail e => rfl
  | step o next ih => exact congrArg (step o) (funext ih)

@[simp] theorem wp_pure : wp h (Pure.pure a) Q s ↔ Q (.ok a) s := Iff.rfl

@[simp] theorem wp_fail : wp h (fail e) Q s ↔ Q (.error e) s := Iff.rfl

/-- An operation, and what is left. -/
theorem wp_step {o : Op γ} {next : γ → Prog Op ε α} : wp h (step o next) Q s ↔
    match h o s with
    | .ok (b, s') => wp h (next b) Q s'
    | .error e => Q (.error e) s := by
  rw [wp, run]
  rcases h o s with e | ⟨b, s'⟩ <;> rfl

/-- A program goes on where the one before it returned. -/
theorem wp_bind {Q : Except ε β → σ → Prop} : wp h (p >>= f) Q s ↔
    wp h p (fun r s' => match r with
      | .ok a => wp h (f a) Q s'
      | .error e => Q (.error e) s') s := by
  induction p generalizing s with
  | pure a => rfl
  | fail e => rfl
  | step o next ih =>
      rw [step_bind, wp_step, wp_step]
      rcases h o s with e | ⟨b, s'⟩
      · rfl
      · exact ih b

/-- The first part has returned. -/
theorem run_bind_ok {s' : σ} (hp : run h p s = (.ok a, s')) : run h (p >>= f) s = run h (f a) s' := by
  induction p generalizing s with
  | pure b => cases hp; rfl
  | fail e => cases hp
  | step o next ih =>
      simp only [step_bind, run] at hp ⊢
      rcases hout : h o s with e | ⟨b, s₁⟩ <;> rw [hout] at hp
      · cases hp
      · exact ih b hp

/-- The first part has failed. -/
theorem run_bind_error {s' : σ} (hp : run h p s = (.error e, s')) :
    run h (p >>= f) s = (.error e, s') := by
  induction p generalizing s with
  | pure b => cases hp
  | fail e => cases hp; rfl
  | step o next ih =>
      simp only [step_bind, run] at hp ⊢
      rcases hout : h o s with e | ⟨b, s₁⟩ <;> rw [hout] at hp
      · cases hp; rfl
      · exact ih b hp

/-- The last operation of a program goes on to return its answer. -/
theorem wp_tail : wp h p Q s ↔ wp h (p >>= fun a => Pure.pure a) Q s := by rw [bind_pure']

/-- A weaker property. -/
theorem wp_mono (hp : wp h p Q s) (hQ : ∀ r s', Q r s' → Q' r s') : wp h p Q' s := hQ _ _ hp

end equations

/-! ## what returns -/

/-- If the run returns, `Q` holds. -/
def Returning (Q : α → σ → Prop) : Except ε α → σ → Prop
  | .ok a, s => Q a s
  | .error _, _ => True

section returning

variable {h : Handler Op ε σ} {p : Prog Op ε α} {f : α → Prog Op ε β} {s : σ} {P : Prop}

/-- An operation that has answered, and what is left. -/
theorem wp_returning_step {o : Op γ} {next : γ → Prog Op ε α} {Q : α → σ → Prop}
    (hp : ∀ b s', h o s = .ok (b, s') → wp h (next b) (Returning Q) s') :
    wp h (step o next) (Returning Q) s := by
  rw [wp_step]
  rcases hout : h o s with e | ⟨b, s'⟩
  · trivial
  · exact hp b s' hout

/-- One part after the other. -/
theorem wp_returning_bind {Q : β → σ → Prop}
    (hp : wp h p (Returning fun a s' => wp h (f a) (Returning Q) s') s) :
    wp h (p >>= f) (Returning Q) s := by
  refine wp_bind.mpr (wp_mono hp fun r s' hr => ?_)
  cases r with
  | error e => trivial
  | ok a => exact hr

/-- What the first part shows, if it returns, is shown. -/
theorem wp_returning_first {f : α → Prog Op ε β} (hp : wp h p (Returning fun _ _ => P) s) :
    wp h (p >>= f) (Returning fun _ _ => P) s := by
  rw [wp] at hp ⊢
  rcases hrun : run h p s with ⟨e | a, s'⟩
  · rw [run_bind_error hrun]
    trivial
  · rw [hrun] at hp
    rcases (run h (p >>= f) s).1 with e | x
    · trivial
    · exact hp

/-- What is known need not be shown. -/
theorem wp_returning_of (hP : P) : wp h p (Returning fun _ _ => P) s := by
  rw [wp]
  cases (run h p s).1 with
  | error e => trivial
  | ok a => exact hP

/-- A run that returns shows it. -/
theorem of_returning {r : α} (hp : wp h p (Returning fun _ _ => P) s)
    (hrun : (run h p s).1 = .ok r) : P := by
  rwa [wp, hrun] at hp

end returning

/-! ## the course of a run -/

/-- Every operation of the program satisfies `P`. -/
def Forall (P : ∀ ⦃β : Type⦄, Op β → Prop) : Prog Op ε α → Prop
  | pure _ => True
  | fail _ => True
  | step o next => P o ∧ ∀ b, (next b).Forall P

/-- The run passes through the state. -/
def Visits (h : Handler Op ε σ) : Prog Op ε α → σ → σ → Prop
  | pure _, s, s' => s' = s
  | fail _, s, s' => s' = s
  | step o next, s, s' => s' = s ∨ ∃ b s₁, h o s = .ok (b, s₁) ∧ (next b).Visits h s₁ s'

section course

variable {h : Handler Op ε σ} {p : Prog Op ε α} {f : α → Prog Op ε β} {s s' : σ}
  {P : ∀ ⦃β : Type⦄, Op β → Prop}

/-- All operations of both parts. -/
theorem Forall.bind (hp : p.Forall P) (hf : ∀ a, (f a).Forall P) : (p >>= f).Forall P := by
  induction p with
  | pure a => exact hf a
  | fail e => trivial
  | step o next ih => exact ⟨hp.1, fun b => ih b (hp.2 b)⟩

/-- All operations of either branch. -/
theorem Forall.ite {b : Prop} [Decidable b] {q : Prog Op ε α} (hp : p.Forall P) (hq : q.Forall P) :
    (if b then p else q).Forall P := by
  split
  · exact hp
  · exact hq

/-- What holds from before to after each operation holds from the first state of the run
to any state, and from there to the last. -/
theorem Visits.along {R : σ → σ → Prop} (hvisits : p.Visits h s s') (hp : p.Forall P)
    (hrefl : ∀ s, R s s) (htrans : ∀ {s₁ s₂ s₃}, R s₁ s₂ → R s₂ s₃ → R s₁ s₃)
    (hstep : ∀ ⦃β : Type⦄ (o : Op β) s b s', P o → h o s = .ok (b, s') → R s s') :
    R s s' ∧ R s' (run h p s).2 := by
  have hrun : ∀ (p : Prog Op ε α) s, p.Forall P → R s (run h p s).2 := by
    intro p
    induction p with
    | pure a => exact fun s _ => hrefl s
    | fail e => exact fun s _ => hrefl s
    | step o next ih =>
        intro s hp
        rw [run]
        cases hout : h o s with
        | error e => exact hrefl s
        | ok r => exact htrans (hstep o s r.1 r.2 hp.1 hout) (ih r.1 r.2 (hp.2 r.1))
  induction p generalizing s with
  | pure a => exact hvisits ▸ ⟨hrefl _, hrefl _⟩
  | fail e => exact hvisits ▸ ⟨hrefl _, hrefl _⟩
  | step o next ih =>
      rcases hvisits with rfl | ⟨b, s₁, hout, hvisits⟩
      · exact ⟨hrefl _, hrun _ _ hp⟩
      · obtain ⟨hbefore, hafter⟩ := ih b hvisits (hp.2 b)
        rw [run, hout]
        exact ⟨htrans (hstep o s b s₁ hp.1 hout) hbefore, hafter⟩

end course

/-! ## two handlers -/

/-- Each operation, called in related states, answers the same and leaves related
states, unless one side stops for a reason of its own. -/
def Simulates (h₁ : Handler Op ε σ₁) (h₂ : Handler Op ε σ₂) (stop₁ stop₂ : ε → Prop)
    (R : σ₁ → σ₂ → Prop) : Prop :=
  ∀ ⦃β : Type⦄ (o : Op β) (s₁ : σ₁) (s₂ : σ₂), R s₁ s₂ →
    (∃ e, h₁ o s₁ = .error e ∧ stop₁ e) ∨ (∃ e, h₂ o s₂ = .error e ∧ stop₂ e) ∨
    (∃ e, h₁ o s₁ = .error e ∧ h₂ o s₂ = .error e) ∨
    ∃ b s₁' s₂', h₁ o s₁ = .ok (b, s₁') ∧ h₂ o s₂ = .ok (b, s₂') ∧ R s₁' s₂'

/-- What holds of every operation holds of every program.  Where the second side stops
for a reason of its own, the first has passed through a related state. -/
theorem run_sim {h₁ : Handler Op ε σ₁} {h₂ : Handler Op ε σ₂} {stop₁ stop₂ : ε → Prop}
    {R : σ₁ → σ₂ → Prop} (hsim : Simulates h₁ h₂ stop₁ stop₂ R) (p : Prog Op ε α) {s₁ : σ₁}
    {s₂ : σ₂} (hs : R s₁ s₂) :
    (∃ e, (run h₁ p s₁).1 = .error e ∧ stop₁ e) ∨
      (∃ e s, (run h₂ p s₂).1 = .error e ∧ stop₂ e ∧ p.Visits h₁ s₁ s ∧ R s (run h₂ p s₂).2) ∨
      (run h₁ p s₁).1 = (run h₂ p s₂).1 ∧ R (run h₁ p s₁).2 (run h₂ p s₂).2 := by
  induction p generalizing s₁ s₂ with
  | pure a => exact .inr (.inr ⟨rfl, hs⟩)
  | fail e => exact .inr (.inr ⟨rfl, hs⟩)
  | step o next ih =>
      simp only [run]
      rcases hsim o s₁ s₂ hs with ⟨e, he, hstop⟩ | ⟨e, he, hstop⟩ | ⟨e, he₁, he₂⟩ |
        ⟨b, s₁', s₂', hb₁, hb₂, hs'⟩
      · exact .inl ⟨e, by rw [he], hstop⟩
      · rw [he]
        exact .inr (.inl ⟨e, s₁, rfl, hstop, .inl rfl, hs⟩)
      · rw [he₁, he₂]
        exact .inr (.inr ⟨rfl, hs⟩)
      · rw [hb₁, hb₂]
        rcases ih b hs' with hfirst | ⟨e, s, he, hstop, hvisits, hrel⟩ | hlast
        · exact .inl hfirst
        · exact .inr (.inl ⟨e, s, he, hstop, .inr ⟨b, s₁', hb₁, hvisits⟩, hrel⟩)
        · exact .inr (.inr hlast)

/-- What the second side keeps may be assumed of it. -/
theorem Simulates.keep {h₁ : Handler Op ε σ₁} {h₂ : Handler Op ε σ₂} {stop₁ stop₂ : ε → Prop}
    {R : σ₁ → σ₂ → Prop} {I : σ₂ → Prop} (hsim : Simulates h₁ h₂ stop₁ stop₂ R)
    (hkeep : ∀ ⦃β : Type⦄ (o : Op β) s b s', I s → h₂ o s = .ok (b, s') → I s') :
    Simulates h₁ h₂ stop₁ stop₂ fun s₁ s₂ => R s₁ s₂ ∧ I s₂ := by
  intro β o s₁ s₂ hs
  refine (hsim o s₁ s₂ hs.1).imp_right (Or.imp_right (Or.imp_right ?_))
  rintro ⟨b, s₁', s₂', hb₁, hb₂, hs'⟩
  exact ⟨b, s₁', s₂', hb₁, hb₂, hs', hkeep o s₂ b s₂' hs.2 hb₂⟩

/-! ## what is emitted -/

section observe

variable {τ : Type}

/-- The operations, with a record of what each emits. -/
def observe (h : Handler Op ε σ) (emits : σ → σ → List τ) : Handler Op ε (σ × List τ)
  | _, o, (s, out) =>
    match h o s with
    | .ok (b, s') => .ok (b, s', out ++ emits s s')
    | .error e => .error e

/-- The record changes nothing. -/
theorem run_observe {h : Handler Op ε σ} {emits : σ → σ → List τ} (p : Prog Op ε α) (s : σ)
    (out : List τ) : (run (observe h emits) p (s, out)).1 = (run h p s).1 ∧
      (run (observe h emits) p (s, out)).2.1 = (run h p s).2 := by
  induction p generalizing s out with
  | pure a => exact ⟨rfl, rfl⟩
  | fail e => exact ⟨rfl, rfl⟩
  | step o next ih =>
      simp only [run, observe]
      rcases h o s with e | ⟨b, s'⟩
      · exact ⟨rfl, rfl⟩
      · exact ih b s' _

/-- Two sides whose operations emit the same have the same record. -/
theorem Simulates.observe {h₁ : Handler Op ε σ₁} {h₂ : Handler Op ε σ₂} {stop₁ stop₂ : ε → Prop}
    {R : σ₁ → σ₂ → Prop} {emits₁ : σ₁ → σ₁ → List τ} {emits₂ : σ₂ → σ₂ → List τ}
    (hsim : Simulates h₁ h₂ stop₁ stop₂ R)
    (hemits : ∀ ⦃β : Type⦄ (o : Op β) b s₁ s₂ s₁' s₂', R s₁ s₂ → R s₁' s₂' →
      h₂ o s₂ = .ok (b, s₂') → emits₁ s₁ s₁' = emits₂ s₂ s₂') :
    Simulates (Prog.observe h₁ emits₁) (Prog.observe h₂ emits₂) stop₁ stop₂
      fun x y => R x.1 y.1 ∧ x.2 = y.2 := by
  rintro β o ⟨s₁, out⟩ ⟨s₂, out'⟩ ⟨hs, rfl⟩
  simp only [Prog.observe]
  rcases hsim o s₁ s₂ hs with ⟨e, he, hstop⟩ | ⟨e, he, hstop⟩ | ⟨e, he₁, he₂⟩ |
    ⟨b, s₁', s₂', hb₁, hb₂, hs'⟩
  · exact .inl ⟨e, by rw [he], hstop⟩
  · exact .inr (.inl ⟨e, by rw [he], hstop⟩)
  · exact .inr (.inr (.inl ⟨e, by rw [he₁], by rw [he₂]⟩))
  · refine .inr (.inr (.inr ⟨b, (s₁', out ++ emits₁ s₁ s₁'), (s₂', out ++ emits₂ s₂ s₂'), ?_, ?_,
      hs', ?_⟩))
    · rw [hb₁]
    · rw [hb₂]
    · rw [hemits o b s₁ s₂ s₁' s₂' hs hs' hb₂]

end observe

end Prog
