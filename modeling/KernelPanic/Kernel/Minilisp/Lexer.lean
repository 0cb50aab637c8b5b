import KernelPanic.Kernel.Minilisp.Syntax

/-!
# KernelPanic.Kernel.Minilisp.Lexer

What the parser takes from the input at once.

The loops of the parser that read a comment, a number or a name come down to
functions on the list of the characters that are left; `lex` puts them together, and
`eval_parseExpr` says what the parser does with the first lexeme of the input.
-/

namespace KernelPanic.Minilisp

open Prog

/-- Another input. -/
def World.feed (w : World) (s : List UInt8) : World := { w with input := s }

@[simp] theorem World.feed_input {w : World} {s : List UInt8} : (w.feed s).input = s := rfl

@[simp] theorem World.feed_feed {w : World} {s s' : List UInt8} : (w.feed s).feed s' = w.feed s' := rfl

@[simp] theorem World.feed_damaged {w : World} {s : List UInt8} : (w.feed s).damaged = w.damaged := rfl

@[simp] theorem World.feed_self {w : World} : w.feed w.input = w := rfl

/-! ## loops -/

/-- What follows a comment; a comment whose end is missing has none. -/
def lineEnd : List UInt8 → Option (List UInt8)
  | [] => none
  | c :: s =>
    if c = eof ∨ c = char '\n' then some s
    else if c = char '\r' then s.head?.map fun d => if d = char '\n' then s.tail else s
    else lineEnd s

/-- A digit more. -/
def digit (val : BitVec 32) (c : UInt8) : BitVec 32 :=
  val * 10 + (c.toBitVec - (char '0').toBitVec).setWidth 32

/-- A character of a name, except perhaps the first. -/
def isNameChar (c : UInt8) : Bool := isAlnum c || isSymbolChar c

section loops

variable {α : Type} {w : World} {s : List UInt8} {ch : UInt8} {n : ℕ} {k : UInt8 → Code α}

/-- A character is taken. -/
theorem eval_get1char_cons : eval (get1char >>= k) (w.feed (ch :: s)) = eval (k ch) (w.feed s) := rfl

/-- Nothing is left to look at. -/
theorem eval_peek_nil : eval (peek >>= k) (w.feed []) = (.error .blocked, w.feed []) := rfl

/-- A character is looked at. -/
theorem eval_peek_cons :
    eval (peek >>= k) (w.feed (ch :: s)) = eval (k ch) (w.feed (ch :: s)) := rfl

/-- `skip_line` goes to the end of the line. -/
theorem eval_skipLine (hn : s.length < n) : eval (skipLine n) (w.feed s) =
    match lineEnd s with
    | none => (.error .blocked, w.feed [])
    | some rest => (.ok (), w.feed rest) := by
  induction n generalizing s with
  | zero => cases hn
  | succ n ih =>
      cases s with
      | nil => rfl
      | cons c s =>
          rw [skipLine, eval_get1char_cons, lineEnd]
          by_cases hend : c = eof ∨ c = char '\n'
          · simp only [hend, ↓reduceIte]
            rfl
          simp only [hend, ↓reduceIte]
          by_cases hreturn : c = char '\r'
          · simp only [hreturn, ↓reduceIte]
            cases s with
            | nil => rfl
            | cons d s =>
                rw [eval_peek_cons]
                by_cases hnewline : d = char '\n' <;> simp [hnewline, eval_get1char_cons]
          · simp only [hreturn, ↓reduceIte]
            exact ih (Nat.lt_of_succ_lt_succ hn)

/-- `read_number` takes the digits. -/
theorem eval_readNumber {val : BitVec 32} (hn : s.length < n) :
    eval (readNumber n val) (w.feed s) =
      if s.dropWhile isDigit = [] then (.error .blocked, w.feed [])
      else (.ok ((s.takeWhile isDigit).foldl digit val), w.feed (s.dropWhile isDigit)) := by
  induction n generalizing s val with
  | zero => cases hn
  | succ n ih =>
      cases s with
      | nil => rfl
      | cons c s =>
          rw [readNumber, eval_peek_cons]
          by_cases hdigit : isDigit c
          · simp only [hdigit, ↓reduceIte, List.dropWhile_cons_of_pos, List.takeWhile_cons_of_pos,
              List.foldl_cons]
            rw [eval_get1char_cons, ih (Nat.lt_of_succ_lt_succ hn)]
            rfl
          · simp [hdigit]

/-- `read_symbol` takes the characters of the name, if there are not too many. -/
theorem eval_readName {buf : List UInt8} (hn : s.length < n) (hbuf : buf.length ≤ symbolMaxLen) :
    eval (readName n buf) (w.feed s) =
      if symbolMaxLen < buf.length + (s.takeWhile isNameChar).length then
        (.error (.error "Symbol name too long"), w.feed (s.drop (symbolMaxLen - buf.length)))
      else if s.dropWhile isNameChar = [] then (.error .blocked, w.feed [])
      else (.ok (buf ++ s.takeWhile isNameChar), w.feed (s.dropWhile isNameChar)) := by
  induction n generalizing s buf with
  | zero => cases hn
  | succ n ih =>
      cases s with
      | nil => simp [readName, eval_peek_nil, Nat.not_lt.mpr hbuf]
      | cons c s =>
          rw [readName, eval_peek_cons]
          by_cases hname : isNameChar c
          · have hchar : isAlnum c || isSymbolChar c := hname
            simp only [hchar, ↓reduceIte, hname, List.takeWhile_cons_of_pos,
              List.dropWhile_cons_of_pos, List.length_cons]
            by_cases hfull : symbolMaxLen ≤ buf.length
            · have hlong : symbolMaxLen < buf.length + ((s.takeWhile isNameChar).length + 1) := by
                omega
              simp only [hfull, hlong, ↓reduceIte, Nat.sub_eq_zero_of_le, List.drop_zero]
              rfl
            · have hshort : (buf ++ [c]).length ≤ symbolMaxLen := by
                rw [List.length_append, List.length_singleton]
                omega
              have hdrop : symbolMaxLen - buf.length = symbolMaxLen - (buf ++ [c]).length + 1 := by
                rw [List.length_append, List.length_singleton]
                omega
              simp only [hfull, ↓reduceIte]
              rw [eval_get1char_cons, ih (Nat.lt_of_succ_lt_succ hn) hshort, hdrop, List.drop_succ_cons]
              simp only [List.length_append, List.length_singleton, List.append_assoc,
                List.singleton_append]
              rw [Nat.add_right_comm, Nat.add_assoc]
          · have hchar : (isAlnum c || isSymbolChar c) = false := by
              simpa [isNameChar] using hname
            simp [hchar, hname, Nat.not_lt.mpr hbuf]

end loops

/-! ## lexemes -/

/-- What the parser takes at once; `stop` where it does not go on. -/
inductive Lexeme
  | stop (e : Fault)
  | skip
  | eof
  | opening
  | closing
  | dot
  | quote
  | int (n : BitVec 32)
  | symbol (name : List UInt8)
  deriving DecidableEq, Repr

/-- The digits of a number, after what has been read of it. -/
def lexNumber (sign : BitVec 32 → BitVec 32) (val : BitVec 32) (s : List UInt8) :
    Lexeme × List UInt8 :=
  if s.dropWhile isDigit = [] then (.stop .blocked, [])
  else (.int (sign ((s.takeWhile isDigit).foldl digit val)), s.dropWhile isDigit)

/-- The rest of a name. -/
def lexSymbol (c : UInt8) (s : List UInt8) : Lexeme × List UInt8 :=
  if symbolMaxLen < 1 + (s.takeWhile isNameChar).length then
    (.stop (.error "Symbol name too long"), s.drop (symbolMaxLen - 1))
  else if s.dropWhile isNameChar = [] then (.stop .blocked, [])
  else (.symbol (cString (c :: s.takeWhile isNameChar)), s.dropWhile isNameChar)

/-- The first lexeme, and what follows it. -/
def lex : List UInt8 → Lexeme × List UInt8
  | [] => (.stop .blocked, [])
  | c :: s =>
    if c = char ' ' ∨ c = char '\n' ∨ c = char '\r' ∨ c = char '\t' then (.skip, s)
    else if c = eof then (.eof, s)
    else if c = char ';' then
      match lineEnd s with
      | none => (.stop .blocked, [])
      | some rest => (.skip, rest)
    else if c = char '(' then (.opening, s)
    else if c = char ')' then (.closing, s)
    else if c = char '.' then (.dot, s)
    else if c = char '\'' then (.quote, s)
    else if isDigit c then lexNumber id (digit 0 c) s
    else if c = char '-' ∧ s = [] then (.stop .blocked, [])
    else if c = char '-' ∧ s.head?.any isDigit then lexNumber Neg.neg 0 s
    else if isAlpha c || isSymbolChar c then lexSymbol c s
    else (.stop (.error "Don't know how to handle %c"), s)

/-- What the parser does with a lexeme. -/
def lexed (n : ℕ) (w : World) : Lexeme → Except Fault Sexp × World
  | .stop e => (.error e, w)
  | .skip => eval (parseExpr n) w
  | .eof => (.ok .null, w)
  | .opening => eval (parseListLoop (parseExpr n) n []) w
  | .closing => (.ok .cparen, w)
  | .dot => (.ok .dot, w)
  | .quote => eval (parseExpr n >>= fun x => return .list [.symbol (chars "quote"), x] .nil) w
  | .int n => (.ok (.int n), w)
  | .symbol name => (.ok (.symbol name), w)

section lex

variable {w : World} {s : List UInt8} {c : UInt8} {n : ℕ}

/-- A number is one lexeme. -/
theorem eval_number (sign : BitVec 32 → BitVec 32) {val : BitVec 32} (hn : s.length < n) :
    eval (readNumber n val >>= fun val => return Sexp.int (sign val)) (w.feed s) =
      lexed n (w.feed (lexNumber sign val s).2) (lexNumber sign val s).1 := by
  rw [eval_bind, eval_readNumber hn, lexNumber]
  by_cases hend : s.dropWhile isDigit = []
  · simp only [hend, ↓reduceIte]
    rfl
  · simp only [hend, ↓reduceIte]
    rfl

/-- A symbol is one lexeme. -/
theorem eval_symbol (hn : s.length < n) :
    eval (readName n [c] >>= fun buf => return Sexp.symbol (cString buf)) (w.feed s) =
      lexed n (w.feed (lexSymbol c s).2) (lexSymbol c s).1 := by
  rw [eval_bind, eval_readName hn (by simp [symbolMaxLen]), lexSymbol]
  by_cases hlong : symbolMaxLen < 1 + (s.takeWhile isNameChar).length
  · simp only [List.length_singleton, hlong, ↓reduceIte]
    rfl
  by_cases hend : s.dropWhile isNameChar = []
  · simp only [List.length_singleton, hlong, hend, ↓reduceIte]
    rfl
  · simp only [List.length_singleton, hlong, hend, ↓reduceIte]
    rfl

/-- A minus is looked behind for a digit. -/
theorem eval_isMinus {α : Type} {k : Bool → Code α} : eval (isMinus c >>= k) (w.feed s) =
    if c = char '-' ∧ s = [] then (.error .blocked, w.feed [])
    else eval (k (c = char '-' ∧ s.head?.any isDigit)) (w.feed s) := by
  unfold isMinus
  by_cases hminus : c = char '-'
  · cases s with
    | nil =>
        simp only [hminus, ↓reduceIte, and_self]
        rfl
    | cons d s =>
        simp only [hminus, ↓reduceIte, true_and, reduceCtorEq, bind_assoc', pure_bind']
        rw [eval_peek_cons, List.head?_cons, Option.any_some, Bool.decide_eq_true]
  · simp [hminus]

/-- The parser reads one lexeme after the other. -/
theorem eval_parseExpr (hn : s.length ≤ n) :
    eval (parseExpr (n + 1)) (w.feed s) = lexed n (w.feed (lex s).2) (lex s).1 := by
  cases s with
  | nil => rfl
  | cons c s =>
      have hlt : s.length < n := hn
      rw [parseExpr, eval_get1char_cons, lex]
      by_cases hblank : c = char ' ' ∨ c = char '\n' ∨ c = char '\r' ∨ c = char '\t'
      · simp only [hblank, ↓reduceIte]
        rfl
      simp only [hblank, ↓reduceIte]
      by_cases heof : c = eof
      · simp only [heof, ↓reduceIte]
        rfl
      simp only [heof, ↓reduceIte]
      by_cases hcomment : c = char ';'
      · simp only [hcomment, ↓reduceIte]
        rw [eval_bind, eval_skipLine hlt]
        cases lineEnd s <;> rfl
      simp only [hcomment, ↓reduceIte]
      by_cases hlist : c = char '('
      · simp only [hlist, ↓reduceIte]
        rfl
      simp only [hlist, ↓reduceIte]
      by_cases hcparen : c = char ')'
      · simp only [hcparen, ↓reduceIte]
        rfl
      simp only [hcparen, ↓reduceIte]
      by_cases hdot : c = char '.'
      · simp only [hdot, ↓reduceIte]
        rfl
      simp only [hdot, ↓reduceIte]
      by_cases hquote : c = char '\''
      · simp only [hquote, ↓reduceIte]
        rfl
      simp only [hquote, ↓reduceIte]
      by_cases hdigit : isDigit c
      · have hfirst : digit 0 c = (c.toBitVec - (char '0').toBitVec).setWidth 32 := by
          simp [digit]
        simp only [hdigit, ↓reduceIte, hfirst]
        exact eval_number id hlt
      simp only [hdigit, Bool.false_eq_true, ↓reduceIte]
      rw [eval_isMinus]
      by_cases hblocked : c = char '-' ∧ s = []
      · simp only [hblocked, ↓reduceIte, and_self]
        rfl
      simp only [hblocked, ↓reduceIte]
      by_cases hminus : c = char '-' ∧ s.head?.any isDigit
      · simp only [hminus, ↓reduceIte, decide_true, and_self]
        exact eval_number Neg.neg hlt
      simp only [hminus, ↓reduceIte, decide_false, Bool.false_eq_true]
      by_cases hsymbol : isAlpha c || isSymbolChar c
      · simp only [hsymbol, ↓reduceIte]
        exact eval_symbol hlt
      · simp only [hsymbol, Bool.false_eq_true, ↓reduceIte]
        rfl

end lex

end KernelPanic.Minilisp
