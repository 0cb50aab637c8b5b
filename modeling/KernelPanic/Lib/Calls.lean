import KernelPanic.Lib.Program

/-!
# KernelPanic.Lib.Calls

Programs that may assume something wherever they call one of certain functions.

A function is a family of programs, and a run is at a call of it when what is left of
the program begins with a member of the family (`Met`).  `wlp` is the weakest
precondition as far as the assumption holds at every call on the way; two handlers that
agree on the operations agree here too (`wlp_sim`).  Where the assumption is a test, a run
can be tested (`passes`).
-/

universe u v w

namespace Prog

variable {Op : Type → Type u} {ε α β γ : Type} {σ σ₁ σ₂ : Type v} {ι : Type w}

/-- What is left of the program and the state satisfy `G` throughout the run. -/
def Throughout (h : Handler Op ε σ) (G : Prog Op ε α → σ → Prop) : Prog Op ε α → σ → Prop
  | pure a, s => G (pure a) s
  | fail e, s => G (fail e) s
  | step o next, s => G (step o next) s ∧ ∀ b s', h o s = .ok (b, s') → Throughout h G (next b) s'

/-- The test of what is left of the program and the state succeeds throughout the run. -/
def passes (h : Handler Op ε σ) (test : Prog Op ε α → σ → Bool) : Prog Op ε α → σ → Bool
  | pure a, s => test (pure a) s
  | fail e, s => test (fail e) s
  | step o next, s => test (step o next) s &&
    match h o s with
    | .ok (b, s') => passes h test (next b) s'
    | .error _ => true

/-- The run ends as `Q` says, as far as `G` holds on the way. -/
def wlp (h : Handler Op ε σ) (G : Prog Op ε α → σ → Prop) (Q : Except ε α → σ → Prop) :
    Prog Op ε α → σ → Prop
  | pure a, s => G (pure a) s → Q (.ok a) s
  | fail e, s => G (fail e) s → Q (.error e) s
  | step o next, s => G (step o next) s →
    match h o s with
    | .ok (b, s') => wlp h G Q (next b) s'
    | .error e => Q (.error e) s

/-- The assumption holds, if the program begins with a call. -/
def Met (call : ι → Prog Op ε γ) (P : ι → σ → Prop) (p : Prog Op ε α) (s : σ) : Prop :=
  ∀ i k, p = call i >>= k → P i s

section throughout

variable {h : Handler Op ε σ} {G G' : Prog Op ε α → σ → Prop} {p : Prog Op ε α} {s : σ}

theorem Throughout.mono (hp : p.Throughout h G s) (hG : ∀ p s, G p s → G' p s) :
    p.Throughout h G' s := by
  induction p generalizing s with
  | pure a => exact hG _ _ hp
  | fail e => exact hG _ _ hp
  | step o next ih => exact ⟨hG _ _ hp.1, fun b s' hout => ih b (hp.2 b s' hout)⟩

theorem Throughout.and (hp : p.Throughout h G s) (hp' : p.Throughout h G' s) :
    p.Throughout h (fun p s => G p s ∧ G' p s) s := by
  induction p generalizing s with
  | pure a => exact ⟨hp, hp'⟩
  | fail e => exact ⟨hp, hp'⟩
  | step o next ih =>
      exact ⟨⟨hp.1, hp'.1⟩, fun b s' hout => ih b (hp.2 b s' hout) (hp'.2 b s' hout)⟩

/-- All along the run, what is left of it leads to its outcome. -/
theorem throughout_outcome :
    p.Throughout h (fun p' s' => (run h p' s').1 = (run h p s).1) s := by
  induction p generalizing s with
  | pure a => rfl
  | fail e => rfl
  | step o next ih =>
      refine ⟨rfl, fun b s' hout => ?_⟩
      have hrun : (run h (step o next) s).1 = (run h (next b) s').1 := by rw [run, hout]
      rw [hrun]
      exact ih b

end throughout

section wlp

variable {h : Handler Op ε σ} {G : Prog Op ε α → σ → Prop} {Q Q' : Except ε α → σ → Prop}
  {p : Prog Op ε α} {s : σ} {e : ε} {a : α} {call : ι → Prog Op ε γ} {P : ι → σ → Prop}

theorem Throughout.here (hp : p.Throughout h G s) : G p s := by
  cases p with
  | pure a => exact hp
  | fail e => exact hp
  | step o next => exact hp.1

/-- The assumption about the first step may be used. -/
theorem wlp_here (hp : G p s → wlp h G Q p s) : wlp h G Q p s := by
  cases p with
  | pure a => exact fun hG => hp hG hG
  | fail e => exact fun hG => hp hG hG
  | step o next => exact fun hG => hp hG hG

theorem wlp_pure (hQ : Q (.ok a) s) : wlp h G Q (Pure.pure a) s := fun _ => hQ

theorem wlp_fail (hQ : Q (.error e) s) : wlp h G Q (fail e) s := fun _ => hQ

theorem wlp_step {o : Op β} {next : β → Prog Op ε α} {b : β} {u : σ} (ho : h o s = .ok (b, u))
    (hp : wlp h G Q (next b) u) : wlp h G Q (step o next) s := by
  intro _
  rw [ho]
  exact hp

theorem wlp_mono (hp : wlp h G Q p s) (hQ : ∀ r s', Q r s' → Q' r s') : wlp h G Q' p s := by
  induction p generalizing s with
  | pure a => exact fun hG => hQ _ _ (hp hG)
  | fail e => exact fun hG => hQ _ _ (hp hG)
  | step o next ih =>
      intro hG
      have hp := hp hG
      rcases hout : h o s with e | ⟨b, s'⟩ <;> rw [hout] at hp
      · exact hQ _ _ hp
      · exact ih b hp

/-- As far as the assumption holds to the end, it is a precondition. -/
theorem wlp.wp (hp : wlp h G Q p s) (hG : p.Throughout h G s) : wp h p Q s := by
  induction p generalizing s with
  | pure a => exact hp hG
  | fail e => exact hp hG
  | step o next ih =>
      have hp := hp hG.1
      rw [wp_step]
      rcases hout : h o s with e | ⟨b, s'⟩ <;> rw [hout] at hp
      · exact hp
      · exact ih b hp (hG.2 b s' hout)

theorem Met.bind {f : α → Prog Op ε β} (hp : Met call P (p >>= f) s) : Met call P p s := by
  intro i k heq
  refine hp i (fun c => k c >>= f) ?_
  rw [heq, bind_assoc']

/-- A program goes on where the one before it returned. -/
theorem wlp_bind {f : α → Prog Op ε β} {Q : Except ε β → σ → Prop}
    (hp : wlp h (Met call P) (fun r s' => match r with
      | .ok a => wlp h (Met call P) Q (f a) s'
      | .error e => Q (.error e) s') p s) :
    wlp h (Met call P) Q (p >>= f) s := by
  induction p generalizing s with
  | pure a => exact wlp_here fun hG => hp (Met.bind (f := f) hG)
  | fail e => exact fun hG => hp (Met.bind (f := f) hG)
  | step o next ih =>
      intro hG
      have hp := hp (Met.bind (f := f) hG)
      rcases hout : h o s with e | ⟨b, s'⟩ <;> rw [hout] at hp
      · exact hp
      · exact ih b hp

/-- At a call the assumption holds. -/
theorem wlp_call {i : ι} {k : γ → Prog Op ε α}
    (hp : P i s → wlp h (Met call P) Q (call i >>= k) s) :
    wlp h (Met call P) Q (call i >>= k) s :=
  wlp_here fun hG => hp (hG i k rfl)

end wlp

/-- As far as the assumption holds, the two sides take the same course, if the second stops
for no reason of its own. -/
theorem wlp_run {h₁ : Handler Op ε σ₁} {h₂ : Handler Op ε σ₂} {stop₁ stop₂ : ε → Prop}
    {R : σ₁ → σ₂ → Prop} {G₁ : Prog Op ε α → σ₁ → Prop} {G₂ : Prog Op ε α → σ₂ → Prop}
    {Q : Except ε α → σ₁ → Prop} (hsim : Simulates h₁ h₂ stop₁ stop₂ R)
    (hG : ∀ p s₁ s₂, R s₁ s₂ → G₂ p s₂ → G₁ p s₁) (hQ : ∀ e s, Q (.error e) s → ¬ stop₁ e)
    (p : Prog Op ε α) {s₁ : σ₁} {s₂ : σ₂} (hs : R s₁ s₂) (hp : wlp h₁ G₁ Q p s₁)
    (hthroughout : p.Throughout h₂ G₂ s₂) :
    (∃ e, (run h₂ p s₂).1 = .error e ∧ stop₂ e) ∨
      wp h₁ p Q s₁ ∧ (run h₁ p s₁).1 = (run h₂ p s₂).1 ∧ R (run h₁ p s₁).2 (run h₂ p s₂).2 := by
  induction p generalizing s₁ s₂ with
  | pure a => exact .inr ⟨hp (hG _ _ _ hs hthroughout), rfl, hs⟩
  | fail e => exact .inr ⟨hp (hG _ _ _ hs hthroughout), rfl, hs⟩
  | step o next ih =>
      have hp := hp (hG _ _ _ hs hthroughout.1)
      rw [wp_step]
      simp only [run]
      rcases hsim o s₁ s₂ hs with ⟨e, he, hstop⟩ | ⟨e, he, hstop⟩ | ⟨e, he₁, he₂⟩ |
        ⟨b, s₁', s₂', hb₁, hb₂, hs'⟩
      · rw [he] at hp
        exact absurd hstop (hQ e s₁ hp)
      · rw [he]
        exact .inl ⟨e, rfl, hstop⟩
      · rw [he₁] at hp ⊢
        rw [he₂]
        exact .inr ⟨hp, rfl, hs⟩
      · rw [hb₁] at hp ⊢
        rw [hb₂]
        exact ih b hs' hp (hthroughout.2 b s₂' hb₂)

/-- What the first side does, as far as the assumption holds, the second side does, if
it stops for no reason of its own. -/
theorem wlp_sim {h₁ : Handler Op ε σ₁} {h₂ : Handler Op ε σ₂} {stop₁ stop₂ : ε → Prop}
    {R : σ₁ → σ₂ → Prop} {G₁ : Prog Op ε α → σ₁ → Prop} {G₂ : Prog Op ε α → σ₂ → Prop}
    {Q : Except ε α → σ₁ → Prop} (hsim : Simulates h₁ h₂ stop₁ stop₂ R)
    (hG : ∀ p s₁ s₂, R s₁ s₂ → G₂ p s₂ → G₁ p s₁) (hQ : ∀ e s, Q (.error e) s → ¬ stop₁ e)
    (p : Prog Op ε α) {s₁ : σ₁} {s₂ : σ₂} (hs : R s₁ s₂) (hp : wlp h₁ G₁ Q p s₁)
    (hthroughout : p.Throughout h₂ G₂ s₂) :
    (∃ e, (run h₂ p s₂).1 = .error e ∧ stop₂ e) ∨
      ∃ s, Q (run h₂ p s₂).1 s ∧ R s (run h₂ p s₂).2 := by
  rcases wlp_run hsim hG hQ p hs hp hthroughout with hstop | ⟨hwp, heq, hs'⟩
  · exact .inl hstop
  · refine .inr ⟨_, ?_, hs'⟩
    rw [← heq]
    exact hwp

/-- The assumption holds throughout the first part of a program. -/
theorem Throughout.bind_left {h : Handler Op ε σ} {G : Prog Op ε β → σ → Prop} {p : Prog Op ε α}
    {f : α → Prog Op ε β} {s : σ} (hp : (p >>= f).Throughout h G s) :
    p.Throughout h (fun q s' => G (q >>= f) s') s := by
  induction p generalizing s with
  | pure a => exact hp.here
  | fail e => exact hp
  | step o next ih => exact ⟨hp.1, fun b s' hout => ih b (hp.2 b s' hout)⟩

/-- What is said of the errors of a program is said of those of its first part. -/
theorem wlp.bind_left {h : Handler Op ε σ} {G : Prog Op ε β → σ → Prop} {p : Prog Op ε α}
    {f : α → Prog Op ε β} {s : σ} {Q : Except ε β → σ → Prop} (hp : wlp h G Q (p >>= f) s) :
    wlp h (fun q s' => G (q >>= f) s') (fun r s' => ∀ e, r = .error e → Q (.error e) s') p s := by
  induction p generalizing s with
  | pure a => exact fun _ e => nofun
  | fail e =>
      intro hG e' he
      cases he
      exact hp hG
  | step o next ih =>
      intro hG
      have hp := hp hG
      rcases hout : h o s with e | ⟨b, s'⟩ <;> rw [hout] at hp
      · intro e' he
        cases he
        exact hp
      · exact ih b hp

/-- All along a run of the second side, as far as the assumption holds, the first side is in
a related state and goes on as it should. -/
theorem throughout_wlp {h₁ : Handler Op ε σ₁} {h₂ : Handler Op ε σ₂} {stop₁ stop₂ : ε → Prop}
    {R : σ₁ → σ₂ → Prop} {G₁ : Prog Op ε α → σ₁ → Prop} {G₂ : Prog Op ε α → σ₂ → Prop}
    {Q : Except ε α → σ₁ → Prop} {p : Prog Op ε α} {s₁ : σ₁} {s₂ : σ₂}
    (hsim : Simulates h₁ h₂ stop₁ stop₂ R) (hG : ∀ p s₁ s₂, R s₁ s₂ → G₂ p s₂ → G₁ p s₁)
    (hQ : ∀ e s, Q (.error e) s → ¬ stop₁ e) (hs : R s₁ s₂) (hp : wlp h₁ G₁ Q p s₁)
    (hthroughout : p.Throughout h₂ G₂ s₂) :
    p.Throughout h₂ (fun p' s' => p'.Throughout h₂ G₂ s' ∧ ∃ s, R s s' ∧ wlp h₁ G₁ Q p' s) s₂ := by
  induction p generalizing s₁ s₂ with
  | pure a => exact ⟨hthroughout, s₁, hs, hp⟩
  | fail e => exact ⟨hthroughout, s₁, hs, hp⟩
  | step o next ih =>
      refine ⟨⟨hthroughout, s₁, hs, hp⟩, fun b s' hout => ?_⟩
      have hp := hp (hG _ _ _ hs hthroughout.1)
      rcases hsim o s₁ s₂ hs with ⟨e, he, hstop⟩ | ⟨e, he, -⟩ | ⟨e, -, he⟩ |
        ⟨b', s₁', s₂', hb₁, hb₂, hs'⟩
      · rw [he] at hp
        exact absurd hstop (hQ e s₁ hp)
      · cases he.symm.trans hout
      · cases he.symm.trans hout
      · cases hb₂.symm.trans hout
        rw [hb₁] at hp
        exact ih b hs' hp (hthroughout.2 b s' hout)

/-- A test on the first side, which never stops for a reason of its own, is good for the
second. -/
theorem Throughout.of_passes {h₁ : Handler Op ε σ₁} {h₂ : Handler Op ε σ₂} {R : σ₁ → σ₂ → Prop}
    {test : Prog Op ε α → σ₁ → Bool} {G : Prog Op ε α → σ₂ → Prop} {p : Prog Op ε α} {s₁ : σ₁}
    {s₂ : σ₂} (hsim : Simulates h₁ h₂ (fun _ => False) (fun _ => False) R)
    (htest : ∀ p s₁ s₂, R s₁ s₂ → test p s₁ = true → G p s₂) (hs : R s₁ s₂)
    (hp : p.passes h₁ test s₁ = true) : p.Throughout h₂ G s₂ := by
  induction p generalizing s₁ s₂ with
  | pure a => exact htest _ _ _ hs hp
  | fail e => exact htest _ _ _ hs hp
  | step o next ih =>
      rw [passes, Bool.and_eq_true] at hp
      refine ⟨htest _ _ _ hs hp.1, fun b s₂' hout => ?_⟩
      have hrest := hp.2
      rcases hsim o s₁ s₂ hs with ⟨e, -, hstop⟩ | ⟨e, -, hstop⟩ | ⟨e, -, he⟩ |
        ⟨b', s₁', s₂'', hb₁, hb₂, hs'⟩
      · exact hstop.elim
      · exact hstop.elim
      · rw [he] at hout
        cases hout
      · rw [hb₂] at hout
        cases hout
        rw [hb₁] at hrest
        exact ih b hs' hrest

end Prog
