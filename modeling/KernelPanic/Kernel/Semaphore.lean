import KernelPanic.Kernel.Locking
import Mathlib.Data.List.Nodup

/-!
# KernelPanic.Kernel.Semaphore

The counting semaphore of `kernel/semaphore.c`, and what threads can build from
several of them.

A semaphore knows its count and its waiters, not whom it has let through.
Protocols over semaphores argue about the rest: which thread is entitled, by
where it is in its code, to a grant it has not given back.  Such entitlements
are a relation `claim` beside the semaphores; a thread that claims a semaphore
and does not wait for it `Owned`s the token.  `TokenInv` says that each
semaphore has at most one token, in its count or owned by one thread, and the
lemmas after it what `SemaphoreDown` and `SemaphoreUp` do to the tokens: nothing,
they only pass them on.
-/

namespace KernelPanic

variable {κ ι : Type*} [DecidableEq κ] [DecidableEq ι]

/-- `struct SEMAPHORE`. -/
structure Semaphore (κ : Type*) where
  count : ℕ
  waitingThreads : List κ
deriving DecidableEq

/-- `SemaphoreInit`. -/
def semaphoreInit (count : ℕ) : Semaphore κ := ⟨count, []⟩

/-- `SemaphoreDown`. -/
def semaphoreDown (w : Contexts κ) (lock : Semaphore κ) (c : κ) : Contexts κ × Semaphore κ :=
  if lock.count = 0 then
    (lockingBlock w none c, { lock with waitingThreads := lock.waitingThreads ++ [c] })
  else (lockingAcquire w c, { lock with count := lock.count - 1 })

/-- `SemaphoreUp`. -/
def semaphoreUp (w : Contexts κ) (lock : Semaphore κ) : Contexts κ × Semaphore κ :=
  match lock.waitingThreads with
  | c :: rest => (lockingAcquire w c, { lock with waitingThreads := rest })
  | [] => (w, { lock with count := lock.count + 1 })

/-! ## threads over several semaphores -/

section Blocking

variable {w : Contexts κ} {sem : ι → Semaphore κ} {c : κ} {l : ι}

/-- Every thread runs or waits in exactly one of the semaphores, and none has
both waiters and a count. -/
structure BlockingInv (w : Contexts κ) (sem : ι → Semaphore κ) : Prop where
  kind : ∀ c, (w.context c).kind = .thread
  waits : ∀ l, ∀ c ∈ (sem l).waitingThreads, Waits w c
  runs : ∀ c, (∀ l, c ∉ (sem l).waitingThreads) →
    (w.context c).state = .ready ∧ w.thread c = .running
  nodup : ∀ l, (sem l).waitingThreads.Nodup
  one : ∀ l m c, c ∈ (sem l).waitingThreads → c ∈ (sem m).waitingThreads → l = m
  empty : ∀ l, (sem l).waitingThreads ≠ [] → (sem l).count = 0
  fine : w.panicked = false

omit [DecidableEq κ] [DecidableEq ι] in
theorem BlockingInv.runs_iff (h : BlockingInv w sem) :
    (w.context c).state = .ready ∧ w.thread c = .running ↔ ∀ l, c ∉ (sem l).waitingThreads := by
  refine ⟨fun hc l hl => ?_, h.runs c⟩
  have hb := (h.waits l c hl).1
  rw [hc.1] at hb
  cases hb

omit [DecidableEq κ] in
theorem waitingThreads_count {n : ℕ} (m : ι) :
    (Function.update sem l { sem l with count := n } m).waitingThreads = (sem m).waitingThreads := by
  by_cases hm : m = l
  · subst hm
    simp
  · simp [hm]

/-- The waiters of a semaphore after `SemaphoreDown`. -/
theorem waitingThreads_down (m : ι) :
    (Function.update sem l (semaphoreDown w (sem l) c).2 m).waitingThreads =
      if m = l ∧ (sem l).count = 0 then (sem l).waitingThreads ++ [c]
      else (sem m).waitingThreads := by
  by_cases hm : m = l
  · subst hm
    by_cases h0 : (sem m).count = 0 <;> simp [semaphoreDown, h0]
  · simp [hm]

/-- The waiters of a semaphore after `SemaphoreUp`. -/
theorem waitingThreads_up (m : ι) :
    (Function.update sem l (semaphoreUp w (sem l)).2 m).waitingThreads =
      if m = l then (sem l).waitingThreads.tail else (sem m).waitingThreads := by
  by_cases hm : m = l
  · subst hm
    cases hl : (sem m).waitingThreads <;> simp [semaphoreUp, hl]
  · simp [hm]

theorem BlockingInv.down_blocks (h : BlockingInv w sem) (hc : ∀ m, c ∉ (sem m).waitingThreads)
    (h0 : (sem l).count = 0) :
    BlockingInv (lockingBlock w none c)
      (Function.update sem l { sem l with waitingThreads := (sem l).waitingThreads ++ [c] }) := by
  obtain ⟨hready, -⟩ := h.runs c hc
  have hmem : ∀ m d, d ∈ (Function.update sem l
      { sem l with waitingThreads := (sem l).waitingThreads ++ [c] } m).waitingThreads ↔
      d ∈ (sem m).waitingThreads ∨ m = l ∧ d = c := fun m d => by
    by_cases hm : m = l
    · subst hm
      simp
    · simp [hm]
  have hctx : ∀ d, d ≠ c → (lockingBlock w none c).context d = w.context d ∧
      (lockingBlock w none c).thread d = w.thread d := fun d hd => by
    rw [lockingBlock_eq hready, if_pos (h.kind c)]
    exact ⟨Function.update_of_ne hd _ _, Function.update_of_ne hd _ _⟩
  have hself : Waits (lockingBlock w none c) c := by
    rw [lockingBlock_eq hready, if_pos (h.kind c)]
    exact ⟨by simp, fun _ => by simp⟩
  refine ⟨fun d => ?_, fun m d hd => ?_, fun d hd => ?_, fun m => ?_, fun m n d hm hn => ?_,
    fun m hm => ?_, ?_⟩
  · by_cases hdc : d = c
    · subst hdc
      rw [lockingBlock_eq hready]
      simp [h.kind d]
    · rw [(hctx d hdc).1]
      exact h.kind d
  · obtain hd | ⟨-, rfl⟩ := (hmem m d).mp hd
    · have hdc : d ≠ c := fun hdc => hc m (hdc ▸ hd)
      rw [Waits, (hctx d hdc).1, (hctx d hdc).2]
      exact h.waits m d hd
    · exact hself
  · have hdc : d ≠ c := fun hdc => hd l ((hmem l d).mpr (.inr ⟨rfl, hdc⟩))
    rw [(hctx d hdc).1, (hctx d hdc).2]
    exact h.runs d fun m hm => hd m ((hmem m d).mpr (.inl hm))
  · by_cases hm : m = l
    · subst hm
      rw [Function.update_self, List.nodup_append]
      exact ⟨h.nodup m, List.nodup_singleton c, fun a ha b hb hab =>
        hc m (List.mem_singleton.mp hb ▸ hab ▸ ha)⟩
    · rw [Function.update_of_ne hm]
      exact h.nodup m
  · obtain hm | ⟨hml, hdc⟩ := (hmem m d).mp hm <;> obtain hn | ⟨hnl, hdc'⟩ := (hmem n d).mp hn
    · exact h.one m n d hm hn
    · exact absurd (hdc' ▸ hm) (hc m)
    · exact absurd (hdc ▸ hn) (hc n)
    · exact hml.trans hnl.symm
  · by_cases hml : m = l
    · subst hml
      simpa using h0
    · rw [Function.update_of_ne hml] at hm ⊢
      exact h.empty m hm
  · rw [lockingBlock_eq hready]
    exact h.fine

omit [DecidableEq κ] [DecidableEq ι] in
/-- A thread that is granted a semaphore runs. -/
theorem BlockingInv.granted {w' : Contexts κ} {sem' : ι → Semaphore κ} (h : BlockingInv w sem)
    (hg : Grants w w' [c]) (hc : (∀ m, c ∉ (sem m).waitingThreads) ∨ Waits w c)
    (hmem : ∀ m d, d ∈ (sem' m).waitingThreads ↔ d ∈ (sem m).waitingThreads ∧ d ≠ c)
    (hnodup : ∀ m, (sem' m).waitingThreads.Nodup)
    (hempty : ∀ m, (sem' m).waitingThreads ≠ [] → (sem' m).count = 0) : BlockingInv w' sem' := by
  have hother : ∀ d, d ≠ c → w'.context d = w.context d ∧ w'.thread d = w.thread d := fun d hd =>
    ⟨hg.context d (by simpa using hd), hg.thread d (by simpa using hd)⟩
  refine ⟨fun d => (hg.kind d).trans (h.kind d), fun m d hd => ?_, fun d hd => ?_, hnodup,
    fun m n d hm hn => ?_, hempty, hg.panicked.trans h.fine⟩
  · obtain ⟨hd, hdc⟩ := (hmem m d).mp hd
    rw [Waits, (hother d hdc).1, (hother d hdc).2]
    exact h.waits m d hd
  · by_cases hdc : d = c
    · subst hdc
      have hstate := hg.state d List.mem_cons_self
      rw [if_pos (h.kind d)] at hstate
      refine ⟨hstate, ?_⟩
      obtain hc | hc := hc
      · obtain ⟨hready, hrunning⟩ := h.runs d hc
        rw [hg.stays d List.mem_cons_self hready]
        exact hrunning
      · exact hg.woken d List.mem_cons_self hc (h.kind d)
    · rw [(hother d hdc).1, (hother d hdc).2]
      exact h.runs d fun m hm => hd m ((hmem m d).mpr ⟨hm, hdc⟩)
  · exact h.one m n d ((hmem m d).mp hm).1 ((hmem n d).mp hn).1

/-- **`SemaphoreDown`** by a thread that runs. -/
theorem BlockingInv.down (h : BlockingInv w sem) (hc : ∀ m, c ∉ (sem m).waitingThreads) :
    BlockingInv (semaphoreDown w (sem l) c).1
      (Function.update sem l (semaphoreDown w (sem l) c).2) := by
  by_cases h0 : (sem l).count = 0
  · have hcode : semaphoreDown w (sem l) c =
        (lockingBlock w none c, { sem l with waitingThreads := (sem l).waitingThreads ++ [c] }) := by
      simp [semaphoreDown, h0]
    rw [hcode]
    exact h.down_blocks hc h0
  · have hcode : semaphoreDown w (sem l) c =
        (lockingAcquire w c, { sem l with count := (sem l).count - 1 }) := by
      simp [semaphoreDown, h0]
    have hl : (sem l).waitingThreads = [] := by
      by_contra hne
      exact h0 (h.empty l hne)
    have hwait := @waitingThreads_count κ ι _ sem l ((sem l).count - 1)
    rw [hcode]
    refine h.granted (lockingAcquire_grants (.inl (h.runs c hc).1)) (.inl hc) (fun m d => ?_)
      (fun m => ?_) fun m hm => ?_
    · rw [hwait, iff_self_and]
      exact fun hd hdc => hc m (hdc ▸ hd)
    · rw [hwait]
      exact h.nodup m
    · rw [hwait] at hm
      have hml : m ≠ l := fun hml => hm (hml ▸ hl)
      rw [Function.update_of_ne hml]
      exact h.empty m hm

/-- **`SemaphoreUp`**. -/
theorem BlockingInv.up (h : BlockingInv w sem) :
    BlockingInv (semaphoreUp w (sem l)).1 (Function.update sem l (semaphoreUp w (sem l)).2) := by
  cases hl : (sem l).waitingThreads with
  | nil =>
      have hcode : semaphoreUp w (sem l) = (w, { sem l with count := (sem l).count + 1 }) := by
        simp [semaphoreUp, hl]
      have hwait := @waitingThreads_count κ ι _ sem l ((sem l).count + 1)
      rw [hcode]
      refine ⟨h.kind, fun m d hd => ?_, fun d hd => ?_, fun m => ?_, fun m n d hm hn => ?_,
        fun m hm => ?_, h.fine⟩
      · rw [hwait] at hd
        exact h.waits m d hd
      · exact h.runs d fun m hm => hd m (by rwa [hwait])
      · rw [hwait]
        exact h.nodup m
      · rw [hwait] at hm hn
        exact h.one m n d hm hn
      · rw [hwait] at hm
        have hml : m ≠ l := fun hml => hm (hml ▸ hl)
        rw [Function.update_of_ne hml]
        exact h.empty m hm
  | cons c rest =>
      have hcode : semaphoreUp w (sem l) =
          (lockingAcquire w c, { sem l with waitingThreads := rest }) := by
        simp [semaphoreUp, hl]
      have hc : c ∈ (sem l).waitingThreads := by simp [hl]
      have hnd := h.nodup l
      rw [hl, List.nodup_cons] at hnd
      have hwaits := h.waits l c hc
      rw [hcode]
      refine h.granted (lockingAcquire_grants (.inr hwaits)) (.inr hwaits) (fun m d => ?_)
        (fun m => ?_) fun m hm => ?_
      · by_cases hm : m = l
        · subst hm
          rw [Function.update_self, hl, List.mem_cons]
          exact ⟨fun hd => ⟨.inr hd, fun hdc => hnd.1 (hdc ▸ hd)⟩, fun hd => hd.1.resolve_left hd.2⟩
        · rw [Function.update_of_ne hm, iff_self_and]
          exact fun hd hdc => hm (h.one m l c (hdc ▸ hd) hc)
      · by_cases hm : m = l
        · subst hm
          rw [Function.update_self]
          exact hnd.2
        · rw [Function.update_of_ne hm]
          exact h.nodup m
      · by_cases hml : m = l
        · subst hml
          rw [Function.update_self]
          exact h.empty m (List.ne_nil_of_mem hc)
        · rw [Function.update_of_ne hml] at hm ⊢
          exact h.empty m hm

end Blocking

/-! ## tokens -/

section Tokens

variable {w : Contexts κ} {sem : ι → Semaphore κ} {claim claim' : ι → κ → Prop} {c : κ} {l : ι}

/-- The thread has been let through and has not given the token back. -/
def Owned (sem : ι → Semaphore κ) (claim : ι → κ → Prop) (l : ι) (c : κ) : Prop :=
  claim l c ∧ c ∉ (sem l).waitingThreads

/-- The semaphore's token is there: in its count or with a thread. -/
def HasToken (sem : ι → Semaphore κ) (claim : ι → κ → Prop) (l : ι) : Prop :=
  (sem l).count = 1 ∨ ∃ c, Owned sem claim l c

/-- There is at most one token of each semaphore. -/
structure TokenInv (sem : ι → Semaphore κ) (claim : ι → κ → Prop) : Prop where
  claims : ∀ l, ∀ c ∈ (sem l).waitingThreads, claim l c
  count_le : ∀ l, (sem l).count ≤ 1
  free : ∀ l c, (sem l).count = 1 → ¬ Owned sem claim l c
  unique : ∀ l c d, Owned sem claim l c → Owned sem claim l d → c = d

omit [DecidableEq κ] [DecidableEq ι] in
theorem TokenInv.count_eq_zero (h : TokenInv sem claim) (hc : Owned sem claim l c) :
    (sem l).count = 0 := by
  have hle := h.count_le l
  have hne : (sem l).count ≠ 1 := fun h1 => h.free l c h1 hc
  omega

/-- What a change of the semaphores and the claims may do, seen from one
semaphore at a time. -/
structure Passes (sem sem' : ι → Semaphore κ) (claim claim' : ι → κ → Prop) : Prop where
  inv : TokenInv sem' claim'
  token : ∀ m, HasToken sem' claim' m ↔ HasToken sem claim m

omit [DecidableEq κ] [DecidableEq ι] in
/-- Semaphores that are not touched keep their tokens. -/
theorem owned_congr {sem' : ι → Semaphore κ} {m : ι} {d : κ} (hsem : sem' m = sem m)
    (hclaim : claim' m d ↔ claim m d) : Owned sem' claim' m d ↔ Owned sem claim m d := by
  rw [Owned, Owned, hclaim, hsem]

omit [DecidableEq κ] in
/-- To change one semaphore, it is enough to look at it. -/
theorem Passes.of_update {lock : Semaphore κ} (h : TokenInv sem claim)
    (hclaim : ∀ m d, m ≠ l → (claim' m d ↔ claim m d))
    (hclaims : ∀ d ∈ lock.waitingThreads, claim' l d) (hle : lock.count ≤ 1)
    (hfree : ∀ d, lock.count = 1 → ¬ Owned (Function.update sem l lock) claim' l d)
    (hunique : ∀ d e, Owned (Function.update sem l lock) claim' l d →
      Owned (Function.update sem l lock) claim' l e → d = e)
    (htoken : HasToken (Function.update sem l lock) claim' l ↔ HasToken sem claim l) :
    Passes sem (Function.update sem l lock) claim claim' := by
  have hother : ∀ m d, m ≠ l → (Owned (Function.update sem l lock) claim' m d ↔ Owned sem claim m d) :=
    fun m d hm => owned_congr (Function.update_of_ne hm _ _) (hclaim m d hm)
  refine ⟨⟨fun m d hd => ?_, fun m => ?_, fun m d h1 => ?_, fun m d e hd he => ?_⟩, fun m => ?_⟩ <;>
  by_cases hm : m = l
  · subst hm
    rw [Function.update_self] at hd
    exact hclaims d hd
  · rw [Function.update_of_ne hm] at hd
    rw [hclaim m d hm]
    exact h.claims m d hd
  · subst hm
    rw [Function.update_self]
    exact hle
  · rw [Function.update_of_ne hm]
    exact h.count_le m
  · subst hm
    rw [Function.update_self] at h1
    exact hfree d h1
  · rw [Function.update_of_ne hm] at h1
    rw [hother m d hm]
    exact h.free m d h1
  · subst hm
    exact hunique d e hd he
  · rw [hother m d hm] at hd
    rw [hother m e hm] at he
    exact h.unique m d e hd he
  · subst hm
    exact htoken
  · simp only [HasToken, Function.update_of_ne hm, hother m _ hm]

/-- **`SemaphoreDown`** takes the token or waits for it; either way the thread
claims it from now on. -/
theorem TokenInv.down (h : TokenInv sem claim) (hc : c ∉ (sem l).waitingThreads)
    (hn : ¬ claim l c) (hclaim : ∀ m d, claim' m d ↔ claim m d ∨ m = l ∧ d = c) :
    Passes sem (Function.update sem l (semaphoreDown w (sem l) c).2) claim claim' := by
  have hother : ∀ m d, m ≠ l → (claim' m d ↔ claim m d) := fun m d hm => by
    simp [hclaim, hm]
  have hself : ∀ d, claim' l d ↔ claim l d ∨ d = c := fun d => by
    simp [hclaim]
  by_cases h0 : (sem l).count = 0
  · have hlock : (semaphoreDown w (sem l) c).2 =
        { sem l with waitingThreads := (sem l).waitingThreads ++ [c] } := by
      simp [semaphoreDown, h0]
    rw [hlock]
    have howned : ∀ d, Owned (Function.update sem l
        { sem l with waitingThreads := (sem l).waitingThreads ++ [c] }) claim' l d ↔
        Owned sem claim l d := fun d => by
      simp only [Owned, Function.update_self, List.mem_append, List.mem_singleton, hself]
      by_cases hdc : d = c
      · simp [hdc, hn]
      · simp [hdc]
    refine Passes.of_update h hother (fun d hd => ?_) (h.count_le l) (fun d h1 => ?_)
      (fun d e hd he => ?_) ?_
    · rw [hself]
      simp only [List.mem_append, List.mem_singleton] at hd
      exact hd.imp_left (h.claims l d)
    · rw [howned]
      exact h.free l d h1
    · rw [howned] at hd he
      exact h.unique l d e hd he
    · simp only [HasToken, Function.update_self, howned]
  · have h1 : (sem l).count = 1 := by
      have hle := h.count_le l
      omega
    have hlock : (semaphoreDown w (sem l) c).2 = { sem l with count := 0 } := by
      simp [semaphoreDown, h1]
    rw [hlock]
    have howned : ∀ d, Owned (Function.update sem l { sem l with count := 0 }) claim' l d ↔
        d = c := fun d => by
      have hfree := h.free l d h1
      simp only [Owned, Function.update_self, hself] at hfree ⊢
      by_cases hdc : d = c
      · simp [hdc, hc]
      · simpa [hdc] using hfree
    refine Passes.of_update h hother (fun d hd => ?_) (Nat.zero_le 1) (fun d h0 => by cases h0)
      (fun d e hd he => ?_) ?_
    · rw [hself]
      exact .inl (h.claims l d hd)
    · rw [howned] at hd he
      rw [hd, he]
    · exact iff_of_true (.inr ⟨c, (howned c).mpr rfl⟩) (.inl h1)

/-- **`SemaphoreUp`** by the owner gives the token back, to the next in line if
there is one. -/
theorem TokenInv.up (h : TokenInv sem claim) (hnd : (sem l).waitingThreads.Nodup)
    (hc : Owned sem claim l c) (hclaim : ∀ m d, claim' m d ↔ claim m d ∧ ¬ (m = l ∧ d = c)) :
    Passes sem (Function.update sem l (semaphoreUp w (sem l)).2) claim claim' := by
  have h0 := h.count_eq_zero hc
  have hother : ∀ m d, m ≠ l → (claim' m d ↔ claim m d) := fun m d hm => by
    simp [hclaim, hm]
  have hself : ∀ d, claim' l d ↔ claim l d ∧ d ≠ c := fun d => by
    simp [hclaim]
  cases hl : (sem l).waitingThreads with
  | nil =>
      have hlock : (semaphoreUp w (sem l)).2 = ⟨1, []⟩ := by
        simp [semaphoreUp, hl, h0]
      rw [hlock]
      have howned : ∀ d, ¬ Owned (Function.update sem l ⟨1, []⟩) claim' l d := fun d hd => by
        have hd := (hself d).mp hd.1
        refine hd.2 (h.unique l d c ⟨hd.1, ?_⟩ hc)
        rw [hl]
        exact List.not_mem_nil
      refine Passes.of_update h hother (fun d hd => absurd hd List.not_mem_nil) (Nat.le_refl 1)
        (fun d _ => howned d) (fun d e hd => absurd hd (howned d)) ?_
      exact iff_of_true (.inl (by simp)) (.inr ⟨c, hc⟩)
  | cons e rest =>
      have hlock : (semaphoreUp w (sem l)).2 = ⟨0, rest⟩ := by
        simp [semaphoreUp, hl, h0]
      rw [hlock]
      rw [hl, List.nodup_cons] at hnd
      have hclaims := h.claims l
      rw [hl] at hclaims
      have hne : ∀ d ∈ e :: rest, d ≠ c := fun d hd hdc => by
        have hnot := hc.2
        rw [hl] at hnot
        exact hnot (hdc ▸ hd)
      have howned : ∀ d, Owned (Function.update sem l ⟨0, rest⟩) claim' l d ↔ d = e := fun d => by
        simp only [Owned, Function.update_self, hself]
        refine ⟨fun ⟨⟨hd, hdc⟩, hrest⟩ => ?_, fun hde => ?_⟩
        · by_contra hde
          refine hdc (h.unique l d c ⟨hd, ?_⟩ hc)
          rw [hl]
          exact fun hmem => (List.mem_cons.mp hmem).elim hde hrest
        · subst hde
          exact ⟨⟨hclaims d List.mem_cons_self, hne d List.mem_cons_self⟩, hnd.1⟩
      refine Passes.of_update h hother (fun d hd => ?_) (Nat.zero_le 1) (fun d h0 => by cases h0)
        (fun d f hd hf => ?_) ?_
      · rw [hself]
        exact ⟨hclaims d (List.mem_cons_of_mem e hd), hne d (List.mem_cons_of_mem e hd)⟩
      · rw [howned] at hd hf
        rw [hd, hf]
      · exact iff_of_true (.inr ⟨e, (howned e).mpr rfl⟩) (.inr ⟨c, hc⟩)

omit [DecidableEq κ] [DecidableEq ι] in
/-- The owner drops the token: it is gone. -/
theorem TokenInv.leak (h : TokenInv sem claim) (hc : Owned sem claim l c)
    (hclaim : ∀ m d, claim' m d ↔ claim m d ∧ ¬ (m = l ∧ d = c)) :
    TokenInv sem claim' ∧ ∀ m, HasToken sem claim' m ↔ HasToken sem claim m ∧ m ≠ l := by
  have howned : ∀ m d, Owned sem claim' m d ↔ Owned sem claim m d ∧ m ≠ l := fun m d => by
    simp only [Owned, hclaim]
    refine ⟨fun ⟨⟨hd, hne⟩, hw⟩ => ⟨⟨hd, hw⟩, fun hm => hne ⟨hm, ?_⟩⟩,
      fun ⟨⟨hd, hw⟩, hm⟩ => ⟨⟨hd, fun hne => hm hne.1⟩, hw⟩⟩
    subst hm
    exact h.unique m d c ⟨hd, hw⟩ hc
  refine ⟨⟨fun m d hd => ?_, h.count_le, fun m d h1 hd => ?_, fun m d e hd he => ?_⟩, fun m => ?_⟩
  · rw [hclaim]
    refine ⟨h.claims m d hd, fun ⟨hm, hdc⟩ => hc.2 ?_⟩
    rw [← hm, ← hdc]
    exact hd
  · exact h.free m d h1 ((howned m d).mp hd).1
  · exact h.unique m d e ((howned m d).mp hd).1 ((howned m e).mp he).1
  · simp only [HasToken, howned]
    by_cases hm : m = l
    · subst hm
      simp [h.count_eq_zero hc]
    · simp [hm]

omit [DecidableEq κ] [DecidableEq ι] in
/-- A thread takes it on itself to make a token that is gone. -/
theorem TokenInv.owe (h : TokenInv sem claim) (hno : ¬ HasToken sem claim l)
    (hc : c ∉ (sem l).waitingThreads) (hclaim : ∀ m d, claim' m d ↔ claim m d ∨ m = l ∧ d = c) :
    TokenInv sem claim' ∧ ∀ m, HasToken sem claim' m ↔ HasToken sem claim m ∨ m = l := by
  have hnone : ∀ d, ¬ Owned sem claim l d := fun d hd => hno (.inr ⟨d, hd⟩)
  have howned : ∀ m d, Owned sem claim' m d ↔ Owned sem claim m d ∨ m = l ∧ d = c := fun m d => by
    simp only [Owned, hclaim]
    refine ⟨fun ⟨hd, hw⟩ => hd.imp_left fun hd => ⟨hd, hw⟩, ?_⟩
    rintro (⟨hd, hw⟩ | ⟨rfl, rfl⟩)
    · exact ⟨.inl hd, hw⟩
    · exact ⟨.inr ⟨rfl, rfl⟩, hc⟩
  refine ⟨⟨fun m d hd => (hclaim m d).mpr (.inl (h.claims m d hd)), h.count_le, fun m d h1 hd => ?_,
    fun m d e hd he => ?_⟩, fun m => ?_⟩
  · obtain hd | ⟨rfl, -⟩ := (howned m d).mp hd
    · exact h.free m d h1 hd
    · exact hno (.inl h1)
  · obtain hd | ⟨hm, hd⟩ := (howned m d).mp hd <;> obtain he | ⟨hm', he⟩ := (howned m e).mp he
    · exact h.unique m d e hd he
    · exact absurd (hm' ▸ hd) (hnone d)
    · exact absurd (hm ▸ he) (hnone e)
    · rw [hd, he]
  · simp only [HasToken, howned]
    by_cases hm : m = l
    · simp [hm]
    · simp [hm]

end Tokens

end KernelPanic
