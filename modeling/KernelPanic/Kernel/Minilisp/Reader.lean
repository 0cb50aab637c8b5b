import KernelPanic.Kernel.Minilisp.Machine

/-!
# KernelPanic.Kernel.Minilisp.Reader

The parser and the printer of `kernel/minilisp.c`.

The functions that only look at the input are programs without heap operations.  A
loop or recursion along the input has `n` turns, one along a list of the heap `limit`
turns.
-/

namespace KernelPanic.Minilisp

/-! ## characters -/

/-- `EOF`, as `get1char` returns it: a `char` that is -1. -/
def eof : UInt8 := 255

/-- `symbol_chars` -/
def symbolChars : List UInt8 := chars "~!@#$%^&*-_=+:/?<>"

/-- `SYMBOL_MAX_LEN` -/
def symbolMaxLen : ℕ := 200

/-- A character of a program. -/
def char (c : Char) : UInt8 := .ofNat c.toNat

def isDigit (c : UInt8) : Bool := char '0' ≤ c && c ≤ char '9'

def isAlpha (c : UInt8) : Bool :=
  char 'a' ≤ c && c ≤ char 'z' || char 'A' ≤ c && c ≤ char 'Z'

def isAlnum (c : UInt8) : Bool := isAlpha c || isDigit c

/-- `strchr(symbol_chars, c)`, which also finds the byte that ends the string. -/
def isSymbolChar (c : UInt8) : Bool := symbolChars.contains c || c = 0

/-- A buffer, read as a string. -/
def cString (buf : List UInt8) : List UInt8 := buf.takeWhile (· ≠ 0)

/-! ## input -/

/-- `skip_line` -/
def skipLine : ℕ → Code Unit
  | 0 => .fail .outOfFuel
  | n + 1 => do
    let c ← get1char
    if c = eof ∨ c = char '\n' then return
    else if c = char '\r' then do
      if (← peek) = char '\n' then let _ ← get1char
      return
    else skipLine n

/-- `read_number` -/
def readNumber : ℕ → BitVec 32 → Code (BitVec 32)
  | 0, _ => .fail .outOfFuel
  | n + 1, val => do
    if isDigit (← peek) then
      let c ← get1char
      readNumber n (val * 10 + (c.toBitVec - (char '0').toBitVec).setWidth 32)
    else return val

/-- The loop of `read_symbol`. -/
def readName : ℕ → List UInt8 → Code (List UInt8)
  | 0, _ => .fail .outOfFuel
  | n + 1, buf => do
    let c ← peek
    if isAlnum c || isSymbolChar c then
      if symbolMaxLen ≤ buf.length then error "Symbol name too long"
      else
        let c ← get1char
        readName n (buf ++ [c])
    else return buf

/-! ## parser -/

/-- The loop of `reverse`. -/
def reverseLoop : ℕ → Ptr → Ptr → Code Ptr
  | 0, _, _ => .fail .outOfFuel
  | limit + 1, p, ret => do
    if ← p.is .nil then return ret
    else
      let head := p
      let p ← p.get .cdr
      head.set .cdr ret
      reverseLoop limit p head

/-- `reverse` -/
def reverse (limit : ℕ) (p : Ptr) : Code Ptr := reverseLoop limit p .nil

/-- The loop of `intern`, which finds a symbol. -/
def findSymbol (name : List UInt8) : ℕ → Ptr → Code (Option Ptr)
  | 0, _ => .fail .outOfFuel
  | limit + 1, p => do
    if ← p.is .nil then return none
    else
      let sym ← p.get .car
      if name = (← sym.name) then return some (← p.get .car)
      else findSymbol name limit (← p.get .cdr)

/-- `intern` -/
def intern (limit : ℕ) (name : List UInt8) : Code Ptr := do
  match ← findSymbol name limit (← star .symbols) with
  | some p => return p
  | none =>
    define 1 fun d => do
      let sym := .slot d 0
      assign sym (← makeSymbol name)
      assign .symbols (← cons sym .symbols)
      star sym

/-- The loop of `read_list`. -/
def readListLoop (readExpr : Code Ptr) (limit : ℕ) (obj head last : Ref) : ℕ → Code Ptr
  | 0 => .fail .outOfFuel
  | n + 1 => do
    assign obj (← readExpr)
    if ← (← star obj).is .null then error "Unclosed parenthesis"
    else if ← (← star obj).is .cparen then reverse limit (← star head)
    else if ← (← star obj).is .dot then do
      assign last (← readExpr)
      if ← (← readExpr).is .cparen then
        let ret ← reverse limit (← star head)
        (← star head).set .cdr (← star last)
        return ret
      else error "Closed parenthesis expected after dot"
    else do
      assign head (← cons obj head)
      readListLoop readExpr limit obj head last n

/-- `read_list` -/
def readList (readExpr : Code Ptr) (limit n : ℕ) : Code Ptr :=
  define 3 fun d => do
    assign (.slot d 1) .nil
    readListLoop readExpr limit (.slot d 0) (.slot d 1) (.slot d 2) n

/-- `read_quote` -/
def readQuote (readExpr : Code Ptr) (limit : ℕ) : Code Ptr :=
  define 2 fun d => do
    let sym := .slot d 0
    let tmp := .slot d 1
    assign sym (← intern limit (chars "quote"))
    assign tmp (← readExpr)
    assign tmp (← cons tmp .nil)
    assign tmp (← cons sym tmp)
    star tmp

/-- `read_symbol` -/
def readSymbol (limit n : ℕ) (c : UInt8) : Code Ptr := do
  let buf ← readName n [c]
  intern limit (cString buf)

/-- `c == '-' && isdigit(peek())` -/
def isMinus (c : UInt8) : Code Bool := do
  if c = char '-' then return isDigit (← peek)
  else return false

/-- `read_expr` -/
def readExpr (limit : ℕ) : ℕ → Code Ptr
  | 0 => .fail .outOfFuel
  | n + 1 => do
    let c ← get1char
    if c = char ' ' ∨ c = char '\n' ∨ c = char '\r' ∨ c = char '\t' then readExpr limit n
    else if c = eof then return .null
    else if c = char ';' then do
      skipLine n
      readExpr limit n
    else if c = char '(' then readList (readExpr limit n) limit n
    else if c = char ')' then return .cparen
    else if c = char '.' then return .dot
    else if c = char '\'' then readQuote (readExpr limit n) limit
    else if isDigit c then do
      makeInt (← readNumber n ((c.toBitVec - (char '0').toBitVec).setWidth 32))
    else if ← isMinus c then do
      makeInt (-(← readNumber n 0))
    else if isAlpha c || isSymbolChar c then readSymbol limit n c
    else error "Don't know how to handle %c"

/-! ## printer -/

/-- `lisp_printf`, whose buffer holds 99 characters. -/
def lispPrintf (s : List UInt8) : Code Unit := write (s.take 99)

/-- A number, as `%d` prints it. -/
def decimal (n : BitVec 32) : List UInt8 := chars (toString n.toInt)

/-- The loop of `print`. -/
def printLoop (print : Ptr → Code Unit) : ℕ → Ptr → Code Unit
  | 0, _ => .fail .outOfFuel
  | n + 1, obj => do
    print (← obj.get .car)
    if ← (← obj.get .cdr).is .nil then return
    else if (← (← obj.get .cdr).type) ≠ tCell then do
      write (chars " . ")
      print (← obj.get .cdr)
    else do
      write (chars " ")
      printLoop print n (← obj.get .cdr)

/-- `print` -/
def print : ℕ → Ptr → Code Unit
  | 0, _ => .fail .outOfFuel
  | n + 1, obj => do
    let type ← obj.type
    if type = tCell then do
      write (chars "(")
      printLoop (print n) n obj
      write (chars ")")
    else if type = tInt then do lispPrintf (decimal (← obj.value))
    else if type = tSymbol then do lispPrintf (← obj.name)
    else if type = tPrimitive then lispPrintf (chars "<primitive>")
    else if type = tFunction then lispPrintf (chars "<function>")
    else if type = tMacro then lispPrintf (chars "<macro>")
    else if type = tMoved then lispPrintf (chars "<moved>")
    else if type = tTrue then lispPrintf (chars "t")
    else if type = tNil then lispPrintf (chars "()")
    else error "Bug: print: Unknown tag type: %d"

end KernelPanic.Minilisp
