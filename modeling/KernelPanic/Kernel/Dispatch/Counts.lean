import KernelPanic.Kernel.Dispatch.Requests
import KernelPanic.Lib.Run

/-!
# KernelPanic.Kernel.Dispatch.Counts

`IsrDisabledCount` is one array for all threads, while every `IsrDisable` is
paired with an `IsrEnable` of its own stack.  What a stack holds (`heldStack`) is
the number of `IsrEnable`s still ahead of it; `CountInv` says that the counts are
what the live stack holds.

A switch changes stacks and leaves the counts alone, so both stacks have to hold
the same.  They do because of the mask: `CritInterrupt` was entered from code that
held nothing, and the code that switches has only left `IRQ_LEVEL_CRIT` and
`IRQ_LEVEL_MAX` to be enabled, as has a thread that never ran.
-/

namespace KernelPanic

open Processor

/-! ## what a stack holds -/

/-- The `IsrEnable`s ahead of a stack. -/
def heldStack : List Frame → IrqLevel → ℕ
  | [], _ => 0
  | f :: below, l => held f.code l + heldStack below l

/-- The counts at a switch. -/
def switchCount (l : IrqLevel) : ℕ := if l = .crit ∨ l = .max then 1 else 0

/-- The mask is right for what is held, but for the middle of `IsrDisable` and
`IsrEnable`, and for an interrupt that has raised the mask and not yet the
count. -/
def MaskOk (mask : IrqLevel) (held : IrqLevel → ℕ) : List Instr → Prop
  | .mask l :: _ => (∀ m, 0 < held m → m ≤ mask) ∧ (0 < held l → Masks mask held)
  | .increment l :: _ => Masks mask (raised held l)
  | .unmask l :: _ => Masks mask (raised held l)
  | _ => Masks mask held

/-- Every frame fits the mask it runs under, which for an interrupted one is the
mask to be restored. -/
def StackOk : IrqLevel → List Frame → Prop
  | _, [] => False
  | mask, f :: below => MaskOk mask (heldStack (f :: below)) f.code ∧
      match f.kind with
      | .thread => below = []
      | .isr level savedMask => savedMask < level ∧ StackOk savedMask below

/-- The stack of a thread that is not running. -/
structure Suspended (stack : List Frame) : Prop where
  ok : StackOk .max stack
  held : heldStack stack = switchCount

/-- What the stacks say about the counts and the mask. -/
structure CountInv (s : Processor) : Prop where
  stack : StackOk s.mask s.stack
  count : s.count = heldStack s.stack
  suspended : ∀ t, t ≠ s.live → Suspended (s.saved t)
  fine : s.isrFailed = false

variable {s s' : Processor} {kind : FrameKind} {i : Instr} {rest code : List Instr}
  {below : List Frame} {l mask' : IrqLevel} {h₁ h₂ : IrqLevel → ℕ}

/-! ## lemmas -/

/-- The code still has to enable the level once. -/
theorem held_decrement : held (.decrement l :: rest) = raised (held rest) l := rfl

/-- Code that gives back what it takes. -/
theorem held_increment (h : held code = raised (held rest) l) :
    held (.increment l :: code) = held rest := by
  funext m
  by_cases hm : m = l
  · subst hm
    simp [held, h, raised_self]
  · simp [held, h, raised_of_ne hm, hm]

/-- `IsrDisable` undoes the `IsrEnable` ahead. -/
theorem raised_increment (hpos : 0 < held rest l) :
    raised (held (.increment l :: rest)) l = held rest := by
  funext m
  by_cases hm : m = l
  · subst hm
    rw [raised_self]
    simp only [held, ↓reduceIte]
    omega
  · simp [held, raised_of_ne hm, hm]

/-- One level more, on either part. -/
theorem raised_add : (fun m => raised h₁ l m + h₂ m) = raised (fun m => h₁ m + h₂ m) l := by
  funext m
  by_cases hm : m = l
  · subst hm
    rw [raised_self, raised_self]
    omega
  · rw [raised_of_ne hm, raised_of_ne hm]

/-- A stack holds what its frames hold. -/
theorem heldStack_cons (f : Frame) :
    heldStack (f :: below) = fun m => held f.code m + heldStack below m := rfl

/-- No code enables the level none. -/
theorem Sound.held_none (h : Sound kind code) : held code .none = 0 := by
  induction code with
  | nil => rfl
  | cons i rest ih =>
      have hrest := ih h.2
      cases i with
      | decrement l =>
          rw [held_decrement, raised_of_ne h.1.1.symm]
          exact hrest
      | increment l => simp [held, hrest]
      | _ => exact hrest

/-- No stack enables the level none. -/
theorem heldStack_none {stack : List Frame} (h : ∀ f ∈ stack, Sound f.kind f.code) :
    heldStack stack .none = 0 := by
  induction stack with
  | nil => rfl
  | cons f below ih =>
      rw [List.forall_mem_cons] at h
      simp only [heldStack, h.1.held_none, ih h.2]

/-- The mask suits code at the start of an instruction. -/
theorem Masks.fits (h : Masks mask' h₁) (hstarts : starts code) : MaskOk mask' h₁ code := by
  cases code with
  | nil => exact h
  | cons i rest =>
      cases i with
      | mask l => exact ⟨h.above, fun _ => h⟩
      | increment l => cases hstarts
      | unmask l => cases hstarts
      | _ => exact h

/-- What was disabled before is below the mask. -/
theorem Masks.of_raised (h : Masks mask' (raised h₁ l)) : ∀ m, 0 < h₁ m → m ≤ mask' :=
  fun m hm => h.above m (raised_pos.mpr (.inl hm))

/-- What is disabled is not above the mask. -/
theorem MaskOk.above (h : MaskOk mask' h₁ code) : ∀ m, 0 < h₁ m → m ≤ mask' := by
  cases code with
  | nil => exact h.above
  | cons i rest =>
      cases i with
      | mask l => exact h.1
      | increment l => exact Masks.of_raised h
      | unmask l => exact Masks.of_raised h
      | _ => exact h.above

/-- What a stack has disabled is not above the mask. -/
theorem StackOk.above {stack : List Frame} (h : StackOk mask' stack) :
    ∀ m, 0 < heldStack stack m → m ≤ mask' := by
  cases stack with
  | nil => exact h.elim
  | cons f below => exact h.1.above

/-- A new stack is suspended inside a switch. -/
theorem suspended_newStack : Suspended newStack where
  ok := by
    refine ⟨⟨fun m hm => ?_, .inr (by decide)⟩, rfl⟩
    cases m <;> first | decide | exact absurd hm (by decide)
  held := by
    funext m
    cases m <;> rfl

/-- The counts after the start-up. -/
theorem countInv_start : CountInv kernelInit where
  stack := by
    refine ⟨⟨fun m hm => ?_, .inr (by decide)⟩, rfl⟩
    cases m <;> first | decide | exact absurd hm (by decide)
  count := by
    funext m
    cases m <;> rfl
  suspended _ _ := suspended_newStack
  fine := rfl

/-! ## one instruction -/

/-- The instruction changes neither the mask nor a count nor the stack. -/
def Instr.plain : Instr → Bool
  | .mask _ => false
  | .increment _ => false
  | .decrement _ => false
  | .unmask _ => false
  | .halContextSwitch _ _ => false
  | .sigreturn => false
  | _ => true

/-- A plain instruction enables nothing. -/
theorem held_plain (hi : i.plain = true) : held (i :: rest) = held rest := by
  cases i <;> first | rfl | cases hi

/-- Before a plain instruction the mask is that of the counts. -/
theorem MaskOk.masks (hi : i.plain = true) (h : MaskOk mask' h₁ (i :: rest)) : Masks mask' h₁ := by
  cases i <;> first | exact h | cases hi

/-- The top frame goes on. -/
theorem StackOk.goesOn (h : StackOk s.mask (⟨kind, i :: rest⟩ :: below))
    (hfits : MaskOk mask' (heldStack (⟨kind, code⟩ :: below)) code) :
    StackOk mask' (⟨kind, code⟩ :: below) :=
  ⟨hfits, h.2⟩

/-- The counts, when only the top frame has changed. -/
theorem CountInv.of_top (h : CountInv s) (hs : s.stack = ⟨kind, i :: rest⟩ :: below)
    (hs' : s'.stack = ⟨kind, code⟩ :: below) (hcount : s'.count = heldStack s'.stack)
    (hfits : MaskOk s'.mask s'.count code) (hlive : s'.live = s.live)
    (hsaved : ∀ t, s'.saved t = s.saved t ∨ s'.saved t = newStack)
    (hfine : s'.isrFailed = false) : CountInv s' where
  stack := by
    have hstack := h.stack
    rw [hs] at hstack
    rw [hcount, hs'] at hfits
    rw [hs']
    exact hstack.goesOn hfits
  count := hcount
  suspended := saved_of_new suspended_newStack h.suspended hlive hsaved
  fine := hfine

/-- What the top frame's mask has to do with the counts. -/
theorem CountInv.fits (h : CountInv s) (hs : s.stack = ⟨kind, i :: rest⟩ :: below) :
    MaskOk s.mask s.count (i :: rest) := by
  have hstack := h.stack
  rw [hs] at hstack
  rw [h.count, hs]
  exact hstack.1

/-- The counts are what the live stack has still to enable. -/
theorem CountInv.count_top (h : CountInv s) (hs : s.stack = ⟨kind, i :: rest⟩ :: below) :
    s.count = fun m => held (i :: rest) m + heldStack below m := by
  rw [h.count, hs, heldStack_cons]

/-- Neither a level nor a stack has changed, but for the live stack. -/
structure SameLevels (s s' : Processor) : Prop where
  count : s'.count = s.count := by rfl
  mask : s'.mask = s.mask := by rfl
  live : s'.live = s.live := by rfl
  saved : ∀ t, s'.saved t = s.saved t ∨ s'.saved t = newStack := by exact fun _ => .inl rfl
  fine : s'.isrFailed = s.isrFailed := by rfl

/-- An instruction that has nothing to do with levels. -/
theorem CountInv.exec_plain (h : CountInv s) (hs : s.stack = ⟨kind, i :: rest⟩ :: below)
    (hs' : s'.stack = ⟨kind, code⟩ :: below) (hsame : SameLevels s s')
    (hheld : held code = held rest := by rfl) (hstarts : starts code := by rfl)
    (hi : i.plain = true := by rfl) : CountInv s' := by
  have hcount : s'.count = heldStack s'.stack := by
    rw [hsame.count, h.count_top hs, hs', heldStack_cons, hheld, held_plain hi]
  apply h.of_top hs hs' hcount _ hsame.live hsame.saved (hsame.fine.trans h.fine)
  rw [hsame.count, hsame.mask]
  exact (MaskOk.masks hi (h.fits hs)).fits hstarts

/-- **`IsrDisable`**, the mask. -/
theorem CountInv.mask (h : CountInv s) (hnone : s.count .none = 0)
    (hs : s.stack = ⟨kind, .mask l :: rest⟩ :: below) (hplaced : Placed kind rest (.mask l)) :
    CountInv { s with
      mask := if s.count l = 0 then isrDefer s.count l false else s.mask
      stack := ⟨kind, rest⟩ :: below } := by
  obtain ⟨hl, code, rfl⟩ := hplaced
  have hfits := h.fits hs
  have hcount : s.count = heldStack (⟨kind, .increment l :: code⟩ :: below) := by
    rw [h.count_top hs]
    rfl
  refine h.of_top hs rfl hcount ?_ rfl (fun _ => .inl rfl) h.fine
  · by_cases hzero : s.count l = 0
    · simp only [if_pos hzero]
      exact isrDefer_disable hl hnone
    · simp only [if_neg hzero]
      have hmasks := hfits.2 (Nat.pos_of_ne_zero hzero)
      refine hmasks.congr fun m => ?_
      rw [raised_pos, or_iff_left_iff_imp]
      rintro rfl
      exact Nat.pos_of_ne_zero hzero

/-- **`IsrDisable`**, the count. -/
theorem CountInv.increment (h : CountInv s) (hs : s.stack = ⟨kind, .increment l :: rest⟩ :: below)
    (hplaced : Placed kind rest (.increment l)) :
    CountInv { s with
      count := raised s.count l
      stack := ⟨kind, rest⟩ :: below } := by
  obtain ⟨hpos, hstarts⟩ := hplaced
  have hmasks : Masks s.mask (raised s.count l) := h.fits hs
  refine h.of_top hs rfl ?_ (hmasks.fits hstarts) rfl (fun _ => .inl rfl) h.fine
  simp only
  rw [h.count_top hs, ← raised_add, raised_increment hpos, heldStack_cons]

/-- **`IsrEnable`**, the count: both `ASSERT`s hold. -/
theorem CountInv.decrement (h : CountInv s) (hs : s.stack = ⟨kind, .decrement l :: rest⟩ :: below)
    (hplaced : Placed kind rest (.decrement l)) :
    CountInv { (s.assertIsr (l ≤ s.mask)).assertIsr (0 < s.count l) with
      count := Function.update s.count l (s.count l - 1)
      stack := ⟨kind, rest⟩ :: below } := by
  obtain ⟨-, code, rfl⟩ := hplaced
  have hmasks : Masks s.mask s.count := h.fits hs
  have hcount : s.count = raised (heldStack (⟨kind, .unmask l :: code⟩ :: below)) l := by
    rw [h.count_top hs, held_decrement, raised_add, heldStack_cons]
  have hpos : 0 < s.count l := by
    rw [hcount, raised_self]
    exact Nat.succ_pos _
  have hdown : Function.update s.count l (s.count l - 1) =
      heldStack (⟨kind, .unmask l :: code⟩ :: below) := by
    rw [hcount, raised_self, Nat.add_sub_cancel, raised, Function.update_idem,
      Function.update_eq_self]
  have hmasks' : Masks s.mask (raised (heldStack (⟨kind, .unmask l :: code⟩ :: below)) l) :=
    hcount ▸ hmasks
  refine h.of_top hs rfl hdown ?_ rfl (fun _ => .inl rfl) ?_
  · simp only
    rw [hdown]
    exact hmasks'
  · simp [assertIsr, h.fine, hpos, hmasks.above l hpos]

/-- **`IsrEnable`**, the mask. -/
theorem CountInv.unmask (h : CountInv s) (hnone : s.count .none = 0)
    (hs : s.stack = ⟨kind, .unmask l :: rest⟩ :: below) (hstarts : starts rest) :
    CountInv { s with
      mask := if s.count l = 0 then isrDefer s.count l true else s.mask
      stack := ⟨kind, rest⟩ :: below } := by
  have hmasks : Masks s.mask (raised s.count l) := h.fits hs
  refine h.of_top hs rfl (h.count_top hs) ?_ rfl (fun _ => .inl rfl) h.fine
  by_cases hzero : s.count l = 0
  · simp only [if_pos hzero]
    exact (isrDefer_enable hnone).fits hstarts
  · simp only [if_neg hzero]
    refine (hmasks.congr fun m => ?_).fits hstarts
    rw [raised_pos, iff_self_or]
    rintro rfl
    exact Nat.pos_of_ne_zero hzero

/-- **The counts at a switch.**  The loop of `CritInterrupt` was entered with
nothing masked, so the frames below hold nothing. -/
theorem CountInv.at_switch (h : CountInv s) (hreq : RequestInv s) {oldThread newThread : ThreadId}
    (hs : s.stack = ⟨kind, .halContextSwitch oldThread newThread :: rest⟩ :: below) :
    s.mask = .max ∧ s.count = switchCount := by
  obtain ⟨⟨hkind, rfl⟩, -, hbelow⟩ := hreq.top hs
  have hmasks : Masks s.mask s.count := h.fits hs
  have hstack := h.stack
  rw [hs] at hstack
  have hzero : ∀ m, heldStack below m = 0 := by
    cases kind with
    | thread => cases hkind
    | isr level savedMask =>
        cases level <;> simp only [FrameKind.isCrit, Bool.false_eq_true] at hkind
        have hlow : savedMask = .none := by
          have hlt := hstack.2.1
          cases savedMask <;> first | rfl | exact absurd hlt (by decide)
        subst hlow
        exact held_eq_zero hstack.2.2.above (heldStack_none hbelow)
  have hcount : s.count = switchCount := by
    rw [h.count_top hs]
    funext m
    rw [hzero m]
    cases m <;> rfl
  refine ⟨?_, hcount⟩
  rw [hcount] at hmasks
  have hle := hmasks.above .max (by decide)
  obtain hnone | hattained := hmasks.attained
  · rw [hnone] at hle
    exact absurd hle (by decide)
  · generalize s.mask = mask at hle hattained
    cases mask <;> first | rfl | exact absurd hle (by decide) | exact absurd hattained (by decide)

/-- **`HalContextSwitch`**: the new stack holds what the old one did. -/
theorem CountInv.halContextSwitch (h : CountInv s) (hreq : RequestInv s)
    {oldThread newThread : ThreadId}
    (hs : s.stack = ⟨kind, .halContextSwitch oldThread newThread :: rest⟩ :: below) :
    CountInv { s with
      live := newThread
      stack := s.saved newThread
      saved := Function.update s.saved oldThread (⟨kind, rest⟩ :: below) } := by
  obtain ⟨hmask, hcount⟩ := h.at_switch hreq hs
  obtain ⟨hold, -, hne⟩ := hreq.live.switching oldThread newThread (by rw [hs]; simp)
  obtain ⟨⟨-, rfl⟩, -, -⟩ := hreq.top hs
  have hheld : heldStack (⟨kind, isrEnable .max ++ .handlerFinish :: critInterruptRest⟩ :: below) =
      switchCount := by
    rw [← hcount, h.count_top hs]
    rfl
  have hnew := h.suspended newThread hne
  constructor
  · simp only [hmask]
    exact hnew.ok
  · exact hcount.trans hnew.held.symm
  · intro t ht
    by_cases htold : t = oldThread
    · subst htold
      simp only [Function.update_self]
      refine ⟨?_, hheld⟩
      have hstack := h.stack
      have hmasks : Masks s.mask s.count := h.fits hs
      rw [hs] at hstack
      rw [hmask, hcount, ← hheld] at hmasks
      exact hstack.goesOn hmasks
    · simp only [Function.update_of_ne htold]
      exact h.suspended t (hold ▸ htold)
  · exact h.fine

/-- The level none is not disabled. -/
theorem CountInv.count_none (h : CountInv s) (hreq : RequestInv s) : s.count .none = 0 := by
  rw [h.count]
  exact heldStack_none hreq.sound

/-- The handler enables what it disables. -/
theorem held_schedulerCritHandler :
    held (schedulerCritHandler ++ .critInterrupt :: rest) = held rest :=
  held_increment rfl

/-- A switch enables what it disables. -/
theorem held_contextSwitch {oldThread newThread : ThreadId} :
    held (contextSwitch oldThread newThread ++ rest) = held rest :=
  held_increment rfl

/-- **An instruction** keeps the counts. -/
theorem CountInv.execute (h : CountInv s) (hreq : RequestInv s)
    (hs : s.stack = ⟨kind, i :: rest⟩ :: below) (hstep : s.execute kind rest below i = some s') :
    CountInv s' := by
  obtain ⟨hplaced, hsound, hbelow⟩ := hreq.top hs
  have hnone := h.count_none hreq
  cases i with
  | body => cases hstep
  | mask l =>
      obtain rfl := Option.some.inj hstep
      exact h.mask hnone hs hplaced
  | increment l =>
      obtain rfl := Option.some.inj hstep
      exact h.increment hs hplaced
  | decrement l =>
      obtain rfl := Option.some.inj hstep
      exact h.decrement hs hplaced
  | unmask l =>
      obtain rfl := Option.some.inj hstep
      exact h.unmask hnone hs hplaced.1
  | mutexLock =>
      obtain ⟨code, rfl⟩ := hplaced
      simp only [Processor.execute] at hstep
      split at hstep <;> obtain rfl := Option.some.inj hstep
      · exact h.exec_plain hs rfl {}
      · exact h.exec_plain hs rfl {}
  | handlerInit | handlerCompetion | handlerRegister | push handler | raise =>
      obtain rfl := Option.some.inj hstep
      obtain ⟨code, rfl⟩ := hplaced
      exact h.exec_plain hs rfl {}
  | critInterrupt =>
      obtain ⟨-, rfl⟩ := hplaced
      simp only [Processor.execute] at hstep
      split at hstep <;> obtain rfl := Option.some.inj hstep
      · exact h.exec_plain hs rfl {}
      · exact h.exec_plain hs rfl {}
      · exact h.exec_plain hs rfl {} held_schedulerCritHandler
  | handlerRun | schedule =>
      obtain rfl := Option.some.inj hstep
      obtain ⟨-, rfl⟩ := hplaced
      exact h.exec_plain hs rfl {}
  | schedulerSwitch =>
      obtain rfl := Option.some.inj hstep
      obtain ⟨-, rfl⟩ := hplaced
      by_cases hsame : s.kernel.activeThread = s.kernel.nextThread.getD idleThread
      · simp only [if_pos hsame]
        exact h.exec_plain hs rfl {}
      · simp only [if_neg hsame]
        exact h.exec_plain hs rfl {} held_contextSwitch
  | halContextSwitch oldThread newThread =>
      obtain rfl := Option.some.inj hstep
      exact h.halContextSwitch hreq hs
  | handlerFinish =>
      obtain rfl := Option.some.inj hstep
      have hstarts : starts rest := by
        obtain ⟨-, rfl⟩ | ⟨-, rfl⟩ := hplaced <;> rfl
      by_cases hcomplete : s.completeFunction
      · simp only [if_pos hcomplete]
        exact h.exec_plain hs rfl {}
      · simp only [if_neg hcomplete]
        exact h.exec_plain hs rfl {} rfl hstarts
  | postCritHandler =>
      obtain rfl := Option.some.inj hstep
      have hstarts : starts rest := by
        obtain ⟨-, rfl⟩ | ⟨-, rfl⟩ := hplaced <;> rfl
      exact h.exec_plain hs rfl {} rfl hstarts
  | sigreturn =>
      cases kind with
      | thread => cases hstep
      | isr level savedMask =>
          obtain rfl := Option.some.inj hstep
          obtain rfl : rest = [] := hplaced
          have hstack := h.stack
          rw [hs] at hstack
          refine ⟨hstack.2.2, ?_, h.suspended, h.fine⟩
          rw [h.count_top hs]
          funext m
          exact Nat.zero_add _

/-! ## one step -/

/-- The code of a body enables nothing more. -/
theorem BodyCode.held {mayAsk : Prop} (h : BodyCode mayAsk rest code) : held code = held rest := by
  cases h with
  | disable level _ => exact held_increment rfl
  | _ => rfl

/-- The code of a body is at the start of an instruction. -/
theorem BodyCode.starts {mayAsk : Prop} (h : BodyCode mayAsk rest code) (hrest : starts rest) :
    starts code := by
  cases h with
  | leave => exact hrest
  | _ => rfl

/-- **What a body does** keeps the counts. -/
theorem CountInv.perform (h : CountInv s) (hreq : RequestInv s)
    (hs : s.stack = ⟨kind, .body :: rest⟩ :: below) (hstep : Performed s kind rest below s') :
    CountInv s' := by
  obtain ⟨code, hcode, hs'⟩ := hstep.code
  obtain ⟨⟨-, hstarts, -⟩, -, -⟩ := hreq.top hs
  have hsame : SameLevels s s' := ⟨hstep.count, hstep.mask, hstep.live,
    fun t => (hstep.saved t).imp_right And.right, hstep.isrFine⟩
  exact h.exec_plain hs hs' hsame hcode.held (hcode.starts hstarts)

/-- An interrupt finds its own level not disabled. -/
theorem CountInv.enter (h : CountInv s) {level : IrqLevel} (hlevel : s.mask < level)
    (hs' : s'.stack = ⟨.isr level s.mask, .mask level :: code⟩ :: s.stack)
    (hheld : ∀ m, held code m = 0) (hmask : s'.mask = level := by rfl)
    (hcount : s'.count = s.count := by rfl) (hlive : s'.live = s.live := by rfl)
    (hsaved : s'.saved = s.saved := by rfl) (hfine : s'.isrFailed = s.isrFailed := by rfl) :
    CountInv s' := by
  have hstack : heldStack s'.stack = heldStack s.stack := by
    rw [hs', heldStack_cons]
    funext m
    exact (congrArg (· + _) (hheld m)).trans (Nat.zero_add _)
  have habove : ∀ m, 0 < heldStack s.stack m → m < level := fun m hm =>
    Nat.lt_of_le_of_lt (h.stack.above m hm) hlevel
  constructor
  · rw [hmask, hs']
    refine ⟨⟨fun m hm => ?_, fun hpos => ?_⟩, hlevel, h.stack⟩
    · rw [← hs', hstack] at hm
      exact Nat.le_of_lt (habove m hm)
    · rw [← hs', hstack] at hpos
      exact absurd (habove level hpos) (Nat.lt_irrefl _)
  · rw [hcount, hstack, h.count]
  · rw [hsaved, hlive]
    exact h.suspended
  · exact hfine.trans h.fine

/-- **One step** keeps the counts. -/
theorem CountInv.step (h : CountInv s) (hreq : RequestInv s) {e : Event}
    (hstep : s.step e = some s') : CountInv s' := by
  obtain ⟨level, -, ⟨hlevel, -, -⟩, rfl⟩ | ⟨-, hpre, rfl⟩ | ⟨kind, i, rest, below, -, hs, -, hexec⟩ |
    ⟨op, kind, rest, below, -, hs, -, hperform⟩ := Processor.step_cases hstep
  · refine h.enter hlevel rfl fun m => ?_
    exact congrFun (held_increment rfl : held _ = held [.unmask level, .sigreturn]) m
  · have hlevel : s.mask < .crit := by
      simp only [preempted, Bool.and_eq_true, decide_eq_true_eq] at hpre
      rw [hpre.1]
      decide
    refine h.enter hlevel rfl fun m => ?_
    exact congrFun (held_increment rfl : held _ = held [.unmask .crit, .sigreturn]) m
  · exact h.execute hreq hs hexec
  · exact h.perform hreq hs hperform

/-- The counts and the accounts of the mutex, in every state of every run. -/
theorem countInv_run {es : List Event} (hrun : Run.exec Processor.step kernelInit es = some s) :
    RequestInv s ∧ CountInv s :=
  Run.exec_invariant (I := fun s => RequestInv s ∧ CountInv s)
    (fun _ _ _ hs hstep => ⟨hs.1.step hstep, hs.2.step hs.1 hstep⟩)
    ⟨requestInv_start, countInv_start⟩ hrun

/-! ## the counts agree -/

/-- The counts are those of the live stack, and a switch does not see them
differ. -/
structure CountsAgree (s : Processor) : Prop where
  /-- What is disabled is what the live stack has still to enable. -/
  live : s.count = heldStack s.stack
  /-- No `IsrEnable` has found nothing to enable. -/
  fine : s.isrFailed = false
  mask : ∀ kind rest below, s.stack = ⟨kind, .body :: rest⟩ :: below → Masks s.mask s.count
  /-- Every other stack waits for the counts of a switch. -/
  suspended : ∀ t, t ≠ s.live → heldStack (s.saved t) = switchCount
  /-- These are the counts when the old thread is saved and when the new one
  resumes. -/
  switches : ∀ kind oldThread newThread rest below,
    s.stack = ⟨kind, .halContextSwitch oldThread newThread :: rest⟩ :: below →
    s.count = switchCount ∧ ∃ s', s.step .exec = some s' ∧ s'.live = newThread ∧
      s'.stack = s.saved newThread ∧ s'.saved oldThread = ⟨kind, rest⟩ :: below ∧
      s'.count = switchCount ∧ s'.count = heldStack s'.stack

/-- **The counts agree across every switch**, of any threads, interrupted in any
way. -/
theorem isrDisabledCount_agrees {es : List Event}
    (hrun : Run.exec Processor.step kernelInit es = some s) : CountsAgree s := by
  obtain ⟨hreq, h⟩ := countInv_run hrun
  constructor
  · exact h.count
  · exact h.fine
  · intro kind rest below hs
    exact h.fits hs
  · exact fun t ht => (h.suspended t ht).held
  · intro kind oldThread newThread rest below hs
    obtain ⟨hmask, hcount⟩ := h.at_switch hreq hs
    have hstep : s.step .exec = some { s with
        live := newThread
        stack := s.saved newThread
        saved := Function.update s.saved oldThread (⟨kind, rest⟩ :: below) } := by
      simp [Processor.step, hs, preempted, hmask, Processor.execute, IrqLevel.max]
    refine ⟨hcount, _, hstep, rfl, rfl, Function.update_self .., hcount, ?_⟩
    exact (h.step hreq hstep).count

/-- Up to the switch from the idle thread to a new one. -/
def sampleSwitch : List Event :=
  [.body (.createThread 1 true), .body .leave, .exec, .exec, .body (.disable .crit), .exec, .exec,
    .body .schedulerNeedsSwitch, .exec, .exec, .exec, .exec, .exec, .exec, .body .leave, .exec, .exec,
    .deliver, .exec, .exec, .exec, .exec, .exec, .exec, .exec, .exec, .exec, .exec, .exec, .exec]

theorem isrDisabledCount_agrees_sample :
    ∃ s, Run.exec Processor.step kernelInit sampleSwitch = some s ∧
      (∃ kind rest below, s.stack = ⟨kind, .halContextSwitch 0 1 :: rest⟩ :: below) ∧
      CountsAgree s := by
  have hend : (Run.exec Processor.step kernelInit sampleSwitch).map (fun s => s.stack) =
      some [⟨.isr .crit .none, .halContextSwitch 0 1 ::
        (isrEnable .max ++ .handlerFinish :: critInterruptRest)⟩, ⟨.thread, [.body]⟩] := by
    decide
  obtain ⟨s, hs, hstack⟩ := Option.map_eq_some_iff.mp hend
  exact ⟨s, hs, ⟨_, _, _, hstack⟩, isrDisabledCount_agrees hs⟩

end KernelPanic
