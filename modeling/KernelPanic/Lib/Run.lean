import Mathlib.Data.List.Basic

/-!
# KernelPanic.Lib.Run

Runs of a labelled machine.  A machine is a partial step function
`step : σ → ℓ → Option σ`; a label that is not enabled in a state has no
successor.  `exec` runs a list of labels, `Along` says that every step of a
run meets a condition on the state it starts from and its label, and
`exec_induction` is the invariant rule every development built on this one
uses: what one step preserves, a whole run preserves.

Nothing here names a particular machine.
-/

namespace Run

variable {σ ℓ : Type*}

/-- The state a list of labels leads to, when every label is enabled in the
state it is taken from. -/
def exec (step : σ → ℓ → Option σ) : σ → List ℓ → Option σ
  | s, [] => some s
  | s, l :: ls => (step s l).bind fun s' => exec step s' ls

/-- Every step of the run satisfies `P`, a condition on the state before the
step and its label. -/
def Along (step : σ → ℓ → Option σ) (P : σ → ℓ → Prop) : σ → List ℓ → Prop
  | _, [] => True
  | s, l :: ls => P s l ∧ ∀ s', step s l = some s' → Along step P s' ls

variable {step : σ → ℓ → Option σ} {P : σ → ℓ → Prop} {s s' : σ} {l : ℓ} {ls ks : List ℓ}

@[simp] theorem exec_nil : exec step s [] = some s := rfl

theorem exec_cons : exec step s (l :: ls) = (step s l).bind fun t => exec step t ls := rfl

/-- A run of `l :: ls` is a step followed by a run of `ls`. -/
theorem exec_cons_eq_some :
    exec step s (l :: ls) = some s' ↔ ∃ t, step s l = some t ∧ exec step t ls = some s' := by
  rw [exec_cons, Option.bind_eq_some_iff]

theorem exec_append :
    exec step s (ls ++ ks) = (exec step s ls).bind fun t => exec step t ks := by
  induction ls generalizing s with
  | nil => rfl
  | cons l ls ih => simp only [List.cons_append, exec_cons, ih, Option.bind_assoc]

/-- The invariant rule: an invariant that every step meeting `P` preserves
holds at the end of every run whose steps all meet `P`. -/
theorem exec_induction {I : σ → Prop}
    (hstep : ∀ s l s', I s → P s l → step s l = some s' → I s')
    (hI : I s) (hP : Along step P s ls) (h : exec step s ls = some s') : I s' := by
  induction ls generalizing s with
  | nil => rw [exec_nil, Option.some.injEq] at h; exact h ▸ hI
  | cons l ls ih =>
      obtain ⟨t, ht, hrun⟩ := exec_cons_eq_some.mp h
      exact ih (hstep s l t hI hP.1 ht) (hP.2 t ht) hrun

/-- Whether a run meets a decidable condition is decided by running it. -/
instance decidableAlong [∀ s l, Decidable (P s l)] (s : σ) (ls : List ℓ) :
    Decidable (Along step P s ls) :=
  match ls with
  | [] => isTrue trivial
  | l :: ls =>
      match h : step s l with
      | none => decidable_of_iff (P s l) (by simp [Along, h])
      | some t =>
          have := decidableAlong t ls
          decidable_of_iff (P s l ∧ Along step P t ls) (by simp [Along, h])

theorem along_of_forall (h : ∀ s l, P s l) : Along step P s ls := by
  induction ls generalizing s with
  | nil => trivial
  | cons l ls ih => exact ⟨h s l, fun t _ => ih⟩

/-- A run whose steps meet two conditions. -/
theorem Along.and {Q : σ → ℓ → Prop} (hP : Along step P s ls) (hQ : Along step Q s ls) :
    Along step (fun s l => P s l ∧ Q s l) s ls := by
  induction ls generalizing s with
  | nil => trivial
  | cons l ls ih => exact ⟨⟨hP.1, hQ.1⟩, fun t ht => ih (hP.2 t ht) (hQ.2 t ht)⟩

/-- In a run that meets `C`, two conditions that agree in every state of an
invariant, where the invariant is kept by the steps that meet them, hold along
the same runs. -/
theorem along_congr_of {I : σ → Prop} {C Q : σ → ℓ → Prop}
    (hPQ : ∀ s l, I s → C s l → (P s l ↔ Q s l))
    (hstep : ∀ s l s', I s → C s l → Q s l → step s l = some s' → I s') (hI : I s)
    (hC : Along step C s ls) : Along step P s ls ↔ Along step Q s ls := by
  induction ls generalizing s with
  | nil => exact Iff.rfl
  | cons l ls ih =>
      refine and_congr_right_iff.mpr ?_ |>.trans (and_congr_left' (hPQ s l hI hC.1))
      exact fun hP => forall₂_congr fun t ht =>
        ih (hstep s l t hI hC.1 ((hPQ s l hI hC.1).mp hP) ht) (hC.2 t ht)

/-- The same for every run. -/
theorem along_congr {I : σ → Prop} {Q : σ → ℓ → Prop} (hPQ : ∀ s l, I s → (P s l ↔ Q s l))
    (hstep : ∀ s l s', I s → Q s l → step s l = some s' → I s') (hI : I s) :
    Along step P s ls ↔ Along step Q s ls :=
  along_congr_of (C := fun _ _ => True) (fun s l hs _ => hPQ s l hs)
    (fun s l s' hs _ => hstep s l s' hs) hI (along_of_forall fun _ _ => trivial)

theorem along_append :
    Along step P s (ls ++ ks) ↔
      Along step P s ls ∧ ∀ t, exec step s ls = some t → Along step P t ks := by
  induction ls generalizing s with
  | nil => simp [Along]
  | cons l ls ih =>
      simp only [List.cons_append, Along, ih, exec_cons_eq_some, and_assoc]
      refine and_congr_right fun _ => ⟨fun h => ⟨fun t ht => (h t ht).1, ?_⟩, fun h t ht => ?_⟩
      · rintro u ⟨t, ht, hu⟩
        exact (h t ht).2 u hu
      · exact ⟨h.1 t ht, fun u hu => h.2 u ⟨t, ht, hu⟩⟩

/-- A condition that holds along a run holds at each of its steps. -/
theorem Along.at_step (h : Along step P s (ls ++ l :: ks)) (hrun : exec step s ls = some s') :
    P s' l := by
  induction ls generalizing s with
  | nil =>
      rw [exec_nil, Option.some.injEq] at hrun
      exact hrun ▸ h.1
  | cons k ls ih =>
      obtain ⟨t, ht, hrun⟩ := exec_cons_eq_some.mp hrun
      exact ih (h.2 t ht) hrun

/-- A property of states that a step keeps exactly when it meets `P` holds at the
end of a run exactly when it held at its start and every step met `P`. -/
theorem holds_iff_along {I Q : σ → Prop} (hI : ∀ s l s', I s → step s l = some s' → I s')
    (hQ : ∀ s l s', I s → step s l = some s' → (Q s' ↔ Q s ∧ P s l)) (hs : I s)
    (h : exec step s ls = some s') : Q s' ↔ Q s ∧ Along step P s ls := by
  induction ls generalizing s with
  | nil =>
      rw [exec_nil, Option.some.injEq] at h
      subst h
      exact (and_iff_left trivial).symm
  | cons l ls ih =>
      obtain ⟨t, ht, hrun⟩ := exec_cons_eq_some.mp h
      rw [ih (hI s l t hs ht) hrun, hQ s l t hs ht, and_assoc]
      refine and_congr_right fun _ => and_congr_right fun _ => ⟨fun hP u hu => ?_, fun hP => hP t ht⟩
      rw [ht, Option.some.injEq] at hu
      exact hu ▸ hP

/-- A condition on labels alone holds along a run exactly when it holds of its
labels. -/
theorem along_iff_forall_mem {Q : ℓ → Prop} (h : exec step s ls = some s') :
    Along step (fun _ l => Q l) s ls ↔ ∀ l ∈ ls, Q l := by
  induction ls generalizing s with
  | nil => exact iff_of_true trivial fun l hl => absurd hl List.not_mem_nil
  | cons l ls ih =>
      obtain ⟨t, ht, hrun⟩ := exec_cons_eq_some.mp h
      rw [List.forall_mem_cons, ← ih hrun]
      refine and_congr_right fun _ => ⟨fun hQ => hQ t ht, fun hQ u hu => ?_⟩
      rw [ht, Option.some.injEq] at hu
      exact hu ▸ hQ

/-- The progress rule: where an invariant enables every step that meets `C`, and
`Q` holds of it, a run whose steps all meet `C` goes through and all meet `Q`. -/
theorem exec_progress {I : σ → Prop} {C Q : σ → ℓ → Prop}
    (hstep : ∀ s l, I s → C s l → Q s l ∧ ∃ s', step s l = some s' ∧ I s') (hI : I s)
    (hC : Along step C s ls) : ∃ s', exec step s ls = some s' ∧ I s' ∧ Along step Q s ls := by
  induction ls generalizing s with
  | nil => exact ⟨s, rfl, hI, trivial⟩
  | cons l ls ih =>
      obtain ⟨hQ, t, ht, hIt⟩ := hstep s l hI hC.1
      obtain ⟨s', hrun, hI', halong⟩ := ih hIt (hC.2 t ht)
      refine ⟨s', exec_cons_eq_some.mpr ⟨t, ht, hrun⟩, hI', hQ, fun u hu => ?_⟩
      rw [ht, Option.some.injEq] at hu
      exact hu ▸ halong

/-- A condition that follows from an invariant holds along every run. -/
theorem along_of_invariant {I : σ → Prop} (hstep : ∀ s l s', I s → step s l = some s' → I s')
    (hP : ∀ s l, I s → P s l) (hI : I s) : Along step P s ls := by
  induction ls generalizing s with
  | nil => trivial
  | cons l ls ih => exact ⟨hP s l hI, fun t ht => ih (hstep s l t hI ht)⟩

/-- The invariant rule for unconditional steps. -/
theorem exec_invariant {I : σ → Prop} (hstep : ∀ s l s', I s → step s l = some s' → I s')
    (hI : I s) (h : exec step s ls = some s') : I s' :=
  exec_induction (P := fun _ _ => True) (fun s l s' hs _ => hstep s l s' hs) hI
    (along_of_forall fun _ _ => trivial) h

end Run
