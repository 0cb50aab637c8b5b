import KernelPanic.Kernel.Minilisp.Reader
import KernelPanic.Kernel.Minilisp.Rules

/-!
# KernelPanic.Kernel.Minilisp.Syntax

What the parser means without a heap.

`Sexp` are the expressions, with the values that the parser returns in their place.
`parseExpr` reads an expression as `readExpr` does, from the same input and with the
same errors, and builds it at once.
-/

namespace KernelPanic.Minilisp

open Prog

/-- An expression, or one of the values that stand for the end of one. -/
inductive Sexp
  | int (n : BitVec 32)
  | symbol (name : List UInt8)
  | nil
  | cell (car cdr : Sexp)
  | dot
  | cparen
  | null
  deriving DecidableEq, Repr

namespace Sexp

/-- A list that ends in `tail`. -/
def list (xs : List Sexp) (tail : Sexp) : Sexp := xs.foldr cell tail

@[simp] theorem list_nil {tail : Sexp} : list [] tail = tail := rfl

@[simp] theorem list_cons {x : Sexp} {xs : List Sexp} {tail : Sexp} :
    list (x :: xs) tail = cell x (list xs tail) := rfl

/-- Two lists in a row. -/
theorem list_append {xs ys : List Sexp} {tail : Sexp} :
    list (xs ++ ys) tail = list xs (list ys tail) := by
  simp [list]

end Sexp

/-! ## parser -/

/-- An assignment to a member of a statically allocated object. -/
def damage (payload : Payload) (f : Field) : Code Unit :=
  .op (.io fun w => .ok ((), { w with damaged := w.damaged ++ [(payload, f)] }))

/-- The end of a dotted list. -/
def parseListEnd (head : List Sexp) (last next : Sexp) : Code Sexp :=
  if next = .cparen then
    if head = [] then do
      damage .constNil .cdr
      return .nil
    else return .list head.reverse last
  else error "Closed parenthesis expected after dot"

/-- What `readListLoop` does with an element or a marker, when the elements so far are
in `head`, the last one first. -/
def parseListNext (parseExpr : Code Sexp) (head : List Sexp) (loop : Sexp → Code Sexp) :
    Sexp → Code Sexp
  | .null => error "Unclosed parenthesis"
  | .cparen => return .list head.reverse .nil
  | .dot => do
    let last ← parseExpr
    parseListEnd head last (← parseExpr)
  | x => loop x

/-- The list for `readListLoop`. -/
def parseListLoop (parseExpr : Code Sexp) : ℕ → List Sexp → Code Sexp
  | 0, _ => .fail .outOfFuel
  | n + 1, head => do
    let x ← parseExpr
    parseListNext parseExpr head (fun x => parseListLoop parseExpr n (x :: head)) x

/-- The expression for `readExpr`. -/
def parseExpr : ℕ → Code Sexp
  | 0 => .fail .outOfFuel
  | n + 1 => do
    let c ← get1char
    if c = char ' ' ∨ c = char '\n' ∨ c = char '\r' ∨ c = char '\t' then parseExpr n
    else if c = eof then return .null
    else if c = char ';' then do
      skipLine n
      parseExpr n
    else if c = char '(' then parseListLoop (parseExpr n) n []
    else if c = char ')' then return .cparen
    else if c = char '.' then return .dot
    else if c = char '\'' then do
      let x ← parseExpr n
      return .list [.symbol (chars "quote"), x] .nil
    else if isDigit c then do
      return .int (← readNumber n ((c.toBitVec - (char '0').toBitVec).setWidth 32))
    else if ← isMinus c then do
      return .int (-(← readNumber n 0))
    else if isAlpha c || isSymbolChar c then do
      return .symbol (cString (← readName n [c]))
    else error "Don't know how to handle %c"

/-! ## input alone -/

/-- Programs that only look at the input are run on the world. -/
def ioHandle : Handler Op Fault World
  | _, .io f, w => f w
  | _, _, _ => .error (.badAccess null)

/-- The outcome of such a program. -/
def eval {α : Type} (p : Code α) (w : World) : Except Fault α × World := p.run ioHandle w

section eval

variable {α β : Type} {p : Code α} {f : α → Code β} {w w' : World} {a : α} {e : Fault}

@[simp] theorem eval_pure : eval (Pure.pure a : Code α) w = (.ok a, w) := rfl

@[simp] theorem eval_fail : eval (.fail e : Code α) w = (.error e, w) := rfl

/-- One program after the other, unless the first one fails. -/
theorem eval_bind : eval (p >>= f) w =
    match eval p w with
    | (.ok a, w') => eval (f a) w'
    | (.error e, w') => (.error e, w') := by
  induction p generalizing w with
  | pure a => rfl
  | fail e => rfl
  | step o next ih =>
      simp only [eval, step_bind, run]
      rcases ioHandle o w with e | ⟨b, w'⟩
      · rfl
      · exact ih b

/-- The first part has returned. -/
theorem eval_bind_ok (h : eval p w = (.ok a, w')) : eval (p >>= f) w = eval (f a) w' := by
  rw [eval_bind, h]

/-- The first part has failed. -/
theorem eval_bind_error (h : eval p w = (.error e, w')) : eval (p >>= f) w = (.error e, w') := by
  rw [eval_bind, h]

/-- The program has no operation on the heap. -/
inductive IoOnly : {α : Type} → Code α → Prop
  | pure {α : Type} (a : α) : IoOnly (Pure.pure a : Code α)
  | fail {α : Type} (e : Fault) : IoOnly (.fail e : Code α)
  | step {α β : Type} (g : World → Except Fault (β × World)) {k : β → Code α}
      (h : ∀ x, IoOnly (k x)) : IoOnly (.step (.io g) k)

/-- Two such programs make one. -/
theorem IoOnly.bind (hp : IoOnly p) (hf : ∀ a, IoOnly (f a)) : IoOnly (p >>= f) := by
  induction hp with
  | pure a => exact hf a
  | fail e => exact .fail e
  | step g _ ih => exact .step g ih

/-- Such a program leaves a machine's heap alone, and does on it what it does alone. -/
theorem IoOnly.run {H : Type} {b : Backend H} {c : Statics} (hp : IoOnly p) {m : Machine H} :
    p.run (handle b c) m = ((eval p m.world).1, { m with world := (eval p m.world).2 }) := by
  induction hp generalizing m with
  | pure a => rfl
  | fail e => rfl
  | step g _ ih =>
      simp only [eval, Prog.run, handle, ioHandle]
      rcases g m.world with e | ⟨x, w'⟩
      · rfl
      · exact ih x

/-- What is left to show when a program begins with such a one. -/
theorem IoOnly.wp_bind {H : Type} {b : Backend H} {c : Statics} (hp : IoOnly p) {m : Machine H}
    {Q : Except Fault β → Machine H → Prop} :
    wp (handle b c) (p >>= f) Q m ↔
      match eval p m.world with
      | (.ok a, w) => wp (handle b c) (f a) Q { m with world := w }
      | (.error e, w) => Q (.error e) { m with world := w } := by
  rw [Prog.wp_bind, wp, hp.run]
  rcases eval p m.world with ⟨e | a, w⟩ <;> rfl

end eval

section ioOnly

/-- Taking a character has no operation on the heap. -/
theorem IoOnly.get1char : IoOnly get1char := .step _ fun _ => .pure _

theorem IoOnly.peek : IoOnly peek := .step _ fun _ => .pure _

theorem IoOnly.damage {payload : Payload} {f : Field} : IoOnly (damage payload f) :=
  .step _ fun _ => .pure _

theorem IoOnly.isMinus {c : UInt8} : IoOnly (isMinus c) := by
  unfold Minilisp.isMinus
  split
  · exact IoOnly.peek.bind fun _ => .pure _
  · exact .pure _

/-- Skipping a comment has no operation on the heap. -/
theorem IoOnly.skipLine (n : ℕ) : IoOnly (skipLine n) := by
  induction n with
  | zero => exact .fail _
  | succ n ih =>
      refine IoOnly.get1char.bind fun c => ?_
      split
      · exact .pure _
      · split
        · refine IoOnly.peek.bind fun d => ?_
          split
          · exact IoOnly.get1char.bind fun _ => .pure _
          · exact .pure _
        · exact ih

/-- Reading the digits of a number has no operation on the heap. -/
theorem IoOnly.readNumber (n : ℕ) (val : BitVec 32) : IoOnly (readNumber n val) := by
  induction n generalizing val with
  | zero => exact .fail _
  | succ n ih =>
      refine IoOnly.peek.bind fun c => ?_
      split
      · exact IoOnly.get1char.bind fun _ => ih _
      · exact .pure _

/-- Reading the characters of a name has no operation on the heap. -/
theorem IoOnly.readName (n : ℕ) (buf : List UInt8) : IoOnly (readName n buf) := by
  induction n generalizing buf with
  | zero => exact .fail _
  | succ n ih =>
      refine IoOnly.peek.bind fun c => ?_
      split
      · split
        · exact .fail _
        · exact IoOnly.get1char.bind fun _ => ih _
      · exact .pure _

end ioOnly

/-! ## what reading does to the world -/

/-- `R` holds from before to after a step of the parser. -/
structure Advances (R : World → World → Prop) : Prop where
  refl : ∀ w, R w w
  trans : ∀ {w w' w''}, R w w' → R w' w'' → R w w''
  read : ∀ (w : World) c s, w.input = c :: s → R w { w with input := s }
  damage : ∀ (w : World) x, R w { w with damaged := w.damaged ++ [x] }

/-- `R` holds from before to after the code. -/
def Along {α : Type} (R : World → World → Prop) (code : Code α) : Prop := ∀ w, R w (eval code w).2

namespace Advances

variable {α β : Type} {R : World → World → Prop} {p q : Code α} {f : α → Code β} {expr : Code Sexp}

/-- A result takes no step. -/
theorem pure (h : Advances R) {a : α} : Along R (Pure.pure a : Code α) := h.refl

/-- An error takes no step. -/
theorem fail (h : Advances R) {e : Fault} : Along R (.fail e : Code α) := h.refl

/-- `R` holds along both parts, so along the whole. -/
theorem bind (h : Advances R) (hp : Along R p) (hf : ∀ a, Along R (f a)) : Along R (p >>= f) := by
  intro w
  have hfirst := hp w
  rcases hout : eval p w with ⟨e | a, w'⟩
  · rw [hout] at hfirst
    rw [eval_bind_error hout]
    exact hfirst
  · rw [hout] at hfirst
    rw [eval_bind_ok hout]
    exact h.trans hfirst (hf a w')

/-- `R` holds along either branch. -/
theorem ite (_ : Advances R) {P : Prop} [Decidable P] (hp : Along R p) (hq : Along R q) :
    Along R (if P then p else q) := by
  split
  · exact hp
  · exact hq

/-- A character is taken. -/
theorem get1char (h : Advances R) : Along R get1char := by
  intro w
  rcases w with ⟨_ | ⟨ch, rest⟩, out, slept, count, damaged⟩
  · exact h.refl _
  · exact h.read _ ch rest rfl

/-- A character is looked at. -/
theorem peek (h : Advances R) : Along R peek := by
  intro w
  rcases w with ⟨_ | ⟨ch, rest⟩, out, slept, count, damaged⟩
  · exact h.refl _
  · exact h.refl _

/-- The lookahead of a minus sign. -/
theorem isMinus (h : Advances R) {c : UInt8} : Along R (isMinus c) := by
  unfold Minilisp.isMinus
  exact h.ite (h.bind h.peek fun _ => h.pure) h.pure

/-- A comment is skipped. -/
theorem skipLine (h : Advances R) (n : ℕ) : Along R (skipLine n) := by
  induction n with
  | zero => exact h.fail
  | succ n ih =>
      have hreturn : Along R (do
          if (← Minilisp.peek) = char '\n' then let _ ← Minilisp.get1char
          return) :=
        h.bind h.peek fun d => h.ite (h.bind h.get1char fun _ => h.pure) h.pure
      exact h.bind h.get1char fun c => h.ite h.pure (h.ite hreturn ih)

/-- The digits of a number are taken. -/
theorem readNumber (h : Advances R) (n : ℕ) (val : BitVec 32) : Along R (readNumber n val) := by
  induction n generalizing val with
  | zero => exact h.fail
  | succ n ih =>
      exact h.bind h.peek fun c => h.ite (h.bind h.get1char fun _ => ih _) h.pure

/-- The characters of a name are taken. -/
theorem readName (h : Advances R) (n : ℕ) (buf : List UInt8) : Along R (readName n buf) := by
  induction n generalizing buf with
  | zero => exact h.fail
  | succ n ih =>
      exact h.bind h.peek fun c =>
        h.ite (h.ite h.fail (h.bind h.get1char fun _ => ih _)) h.pure

/-- The end of a dotted list takes nothing. -/
theorem parseListEnd (h : Advances R) (head : List Sexp) (last next : Sexp) :
    Along R (parseListEnd head last next) :=
  h.ite (h.ite (h.bind (fun w => h.damage w _) fun _ => h.pure) h.pure) h.fail

/-- An element, a marker or the end of the input. -/
theorem parseListNext (h : Advances R) (hexpr : Along R expr) {head : List Sexp}
    {loop : Sexp → Code Sexp} (hloop : ∀ x, Along R (loop x)) (x : Sexp) :
    Along R (parseListNext expr head loop x) := by
  cases x with
  | null => exact h.fail
  | cparen => exact h.pure
  | dot => exact h.bind hexpr fun last => h.bind hexpr fun next => h.parseListEnd head last next
  | _ => exact hloop _

/-- By induction on the turns of the loop. -/
theorem parseListLoop (h : Advances R) (hexpr : Along R expr) (n : ℕ) (head : List Sexp) :
    Along R (parseListLoop expr n head) := by
  induction n generalizing head with
  | zero => exact h.fail
  | succ n ih => exact h.bind hexpr (h.parseListNext hexpr fun x => ih (x :: head))

/-- The first character is read, and then more. -/
theorem parseExpr_succ (h : Advances R) {n : ℕ} (ih : Along R (parseExpr n)) :
    ∃ f, Minilisp.parseExpr (n + 1) = Minilisp.get1char >>= f ∧ ∀ c, Along R (f c) := by
  refine ⟨_, rfl, fun c => ?_⟩
  refine h.ite ih (h.ite h.pure (h.ite ?_ (h.ite (h.parseListLoop ih n []) (h.ite h.pure
    (h.ite h.pure (h.ite ?_ (h.ite ?_ ?_)))))))
  · exact h.bind (h.skipLine n) fun _ => ih
  · exact h.bind ih fun _ => h.pure
  · exact h.bind (h.readNumber n _) fun _ => h.pure
  · refine h.bind h.isMinus fun _ => h.ite ?_ (h.ite ?_ h.fail)
    · exact h.bind (h.readNumber n _) fun _ => h.pure
    · exact h.bind (h.readName n _) fun _ => h.pure

/-- **The parser** only takes such steps. -/
theorem parseExpr (h : Advances R) (n : ℕ) : Along R (parseExpr n) := by
  induction n with
  | zero => exact h.fail
  | succ n ih =>
      obtain ⟨f, heq, hf⟩ := h.parseExpr_succ ih
      rw [heq]
      exact h.bind h.get1char hf

end Advances

/-- The input gets no longer. -/
def Shorter (w w' : World) : Prop := w'.input.length ≤ w.input.length

/-- No step gives input back. -/
theorem Shorter.advances : Advances Shorter where
  refl _ := Nat.le_refl _
  trans h h' := h'.trans h
  read w c s h := by
    rw [Shorter, h]
    exact Nat.le_succ _
  damage _ _ := Nat.le_refl _

/-- Whenever the code returns, it has read something. -/
def Consumes {α : Type} (code : Code α) : Prop :=
  ∀ w x w', eval code w = (.ok x, w') → w'.input.length < w.input.length

section consumes

variable {α β : Type} {p : Code α} {f : α → Code β} {w w' : World}

/-- What is left after such code. -/
theorem Along.shorter (h : Along Shorter p) {res : Except Fault α} (hout : eval p w = (res, w')) :
    w'.input.length ≤ w.input.length := by
  have hshorter := h w
  rw [hout] at hshorter
  exact hshorter

/-- An error is no return. -/
theorem Consumes.fail {e : Fault} : Consumes (.fail e : Code α) := by
  rintro w x w' heval
  simp at heval

/-- A character has been taken. -/
theorem Consumes.get1char : Consumes get1char := by
  rintro w x w' heval
  rcases w with ⟨_ | ⟨ch, rest⟩, out, slept, count, damaged⟩
  · cases heval
  · cases heval
    exact Nat.lt_succ_self _

/-- It is enough that the first part reads something. -/
theorem Consumes.bind (hp : Consumes p) (hf : ∀ a, Along Shorter (f a)) : Consumes (p >>= f) := by
  rintro w x w' heval
  rw [eval_bind] at heval
  rcases hout : eval p w with ⟨e | a, w₁⟩
  · simp [hout] at heval
  · rw [hout] at heval
    exact ((hf a).shorter heval).trans_lt (hp w a w₁ hout)

/-- The first element, or what closes the list, has been read. -/
theorem Consumes.parseListLoop {expr : Code Sexp} (hexpr : Consumes expr)
    (hshorter : Along Shorter expr) (n : ℕ) (head : List Sexp) :
    Consumes (parseListLoop expr n head) := by
  cases n with
  | zero => exact .fail
  | succ n =>
      exact hexpr.bind (Shorter.advances.parseListNext hshorter fun _ =>
        Shorter.advances.parseListLoop hshorter n _)

/-- **An expression** has at least one character. -/
theorem Consumes.parseExpr (n : ℕ) : Consumes (parseExpr n) := by
  cases n with
  | zero => exact .fail
  | succ n =>
      obtain ⟨f, heq, hf⟩ := Shorter.advances.parseExpr_succ (Shorter.advances.parseExpr n)
      rw [heq]
      exact Consumes.get1char.bind hf

end consumes

/-! ## how many turns it takes -/

/-- The code called `error`, or waits for more input. -/
def Fault.IsStop (e : Fault) : Prop := e = .blocked ∨ ∃ message, e = .error message

/-- The turns suffice: nothing but `error` or the end of the input stops the code. -/
def Ends {α : Type} (code : Code α) (w : World) : Prop :=
  ∀ e, (eval code w).1 = .error e → e.IsStop

section ends

variable {α β : Type} {p : Code α} {f : α → Code β} {w : World} {n : ℕ}

/-- A result is an end. -/
theorem Ends.pure {a : α} : Ends (Pure.pure a : Code α) w := by simp [Ends]

/-- A call of `error` is an end. -/
theorem Ends.error {message : String} : Ends (Minilisp.error message : Code α) w := by
  simp [Ends, Minilisp.error, Fault.IsStop]

/-- The second part has what input the first one has left. -/
theorem Ends.bind (hp : Ends p w) (hf : ∀ a w', eval p w = (.ok a, w') → Ends (f a) w') :
    Ends (p >>= f) w := by
  rw [Ends, eval_bind]
  rcases hout : eval p w with ⟨e | a, w'⟩
  · simpa [Ends, hout] using hp
  · exact hf a w' hout

theorem Ends.ite {P : Prop} [Decidable P] {q : Code α} (hp : Ends p w) (hq : Ends q w) :
    Ends (if P then p else q) w := by
  split
  · exact hp
  · exact hq

/-- A character comes, or the input is at its end. -/
theorem Ends.get1char : Ends get1char w := by
  rcases w with ⟨_ | ⟨ch, rest⟩, out, slept, count, damaged⟩ <;>
    simp [Ends, Fault.IsStop, Minilisp.get1char, Prog.op, eval, run, ioHandle]

theorem Ends.peek : Ends peek w := by
  rcases w with ⟨_ | ⟨ch, rest⟩, out, slept, count, damaged⟩ <;>
    simp [Ends, Fault.IsStop, Minilisp.peek, Prog.op, eval, run, ioHandle]

theorem Ends.damage {payload : Payload} {f : Field} : Ends (damage payload f) w := by
  simp [Ends, Minilisp.damage, Prog.op, eval, run, ioHandle]

theorem Ends.isMinus {c : UInt8} : Ends (isMinus c) w := by
  unfold Minilisp.isMinus
  exact .ite (Ends.peek.bind fun _ _ _ => .pure) .pure

/-- A turn for each character suffices for a comment. -/
theorem Ends.skipLine (h : w.input.length < n) : Ends (skipLine n) w := by
  induction n generalizing w with
  | zero => cases h
  | succ n ih =>
      refine Ends.get1char.bind fun c w₁ hget => ?_
      have hshorter := Consumes.get1char _ _ _ hget
      refine .ite .pure (.ite ?_ (ih (by omega)))
      exact Ends.peek.bind fun _ _ _ => .ite (Ends.get1char.bind fun _ _ _ => .pure) .pure

/-- A turn for each character suffices for a number. -/
theorem Ends.readNumber {val : BitVec 32} (h : w.input.length < n) : Ends (readNumber n val) w := by
  induction n generalizing w val with
  | zero => cases h
  | succ n ih =>
      refine Ends.peek.bind fun c w₁ hpeek => .ite (Ends.get1char.bind fun d w₂ hget => ?_) .pure
      have hle := Shorter.advances.peek.shorter hpeek
      have hshorter := Consumes.get1char _ _ _ hget
      exact ih (by omega)

/-- A turn for each character suffices for a name. -/
theorem Ends.readName {buf : List UInt8} (h : w.input.length < n) : Ends (readName n buf) w := by
  induction n generalizing w buf with
  | zero => cases h
  | succ n ih =>
      refine Ends.peek.bind fun c w₁ hpeek => .ite (.ite .error (Ends.get1char.bind
        fun d w₂ hget => ?_)) .pure
      have hle := Shorter.advances.peek.shorter hpeek
      have hshorter := Consumes.get1char _ _ _ hget
      exact ih (by omega)

/-- A turn for each character suffices for a list: every element takes one at least. -/
theorem Ends.parseListLoop {expr : Code Sexp} {head : List Sexp} {m : ℕ} (hexpr : Consumes expr)
    (hends : ∀ w, w.input.length < n → Ends expr w) (hn : w.input.length < n)
    (hm : w.input.length < m) : Ends (parseListLoop expr m head) w := by
  induction m generalizing w head with
  | zero => cases hm
  | succ m ih =>
      refine (hends w hn).bind fun x w₁ hout => ?_
      have hshorter := hexpr _ _ _ hout
      cases x with
      | null => exact .error
      | cparen => exact .pure
      | dot =>
          refine (hends w₁ (by omega)).bind fun y w₂ hout₂ => ?_
          have hshorter₂ := hexpr _ _ _ hout₂
          exact (hends w₂ (by omega)).bind fun z w₃ _ =>
            .ite (.ite (Ends.damage.bind fun _ _ _ => .pure) .pure) .error
      | _ => exact ih (by omega) (by omega)

/-- **The parser comes to an end** when it has more turns than there are characters. -/
theorem Ends.parseExpr (h : w.input.length < n) : Ends (parseExpr n) w := by
  induction n generalizing w with
  | zero => cases h
  | succ n ih =>
      refine Ends.get1char.bind fun c w₁ hget => ?_
      have hshorter := Consumes.get1char _ _ _ hget
      have hn : w₁.input.length < n := by omega
      refine .ite (ih hn) (.ite .pure (.ite ?_ (.ite ?_ (.ite .pure (.ite .pure
        (.ite ?_ (.ite ?_ ?_)))))))
      · refine (Ends.skipLine hn).bind fun _ w₂ hskip => ?_
        have hshorter₂ := (Shorter.advances.skipLine n).shorter hskip
        exact ih (by omega)
      · exact .parseListLoop (.parseExpr n) (fun w => ih) hn hn
      · exact (ih hn).bind fun _ _ _ => .pure
      · exact (Ends.readNumber hn).bind fun _ _ _ => .pure
      · refine Ends.isMinus.bind fun _ w₂ hminus => ?_
        have hle := Shorter.advances.isMinus.shorter hminus
        refine .ite ?_ (.ite ?_ .error)
        · exact (Ends.readNumber (by omega)).bind fun _ _ _ => .pure
        · exact (Ends.readName (by omega)).bind fun _ _ _ => .pure

end ends

end KernelPanic.Minilisp
