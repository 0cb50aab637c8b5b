import KernelPanic.Kernel.Minilisp.Reader

/-!
# KernelPanic.Kernel.Minilisp.Evaluator

The evaluator and the primitives of `kernel/minilisp.c`.

`eval` calls itself through the other functions, which take it as an argument.  A loop
along a list of the heap or along environments has `limit` turns, a loop of the program
that is evaluated `n`.
-/

namespace KernelPanic.Minilisp.Evaluator

/-- A function like `eval`, from the places of an environment and an object. -/
abbrev Evaluates := Ref → Ref → Code Ptr

/-! ## lists and environments -/

/-- The loop of `length`. -/
def lengthLoop : ℕ → Ptr → ℤ → Code ℤ
  | 0, _, _ => .fail .outOfFuel
  | limit + 1, list, len => do
    if (← list.type) = tCell then lengthLoop limit (← list.get .cdr) (len + 1)
    else if ← list.is .nil then return len
    else return -1

/-- `length` -/
def length (limit : ℕ) (list : Ptr) : Code ℤ := lengthLoop limit list 0

/-- `is_list` -/
def isList (obj : Ptr) : Code Bool := do
  if ← obj.is .nil then return true
  else return (← obj.type) = tCell

/-- `add_variable` -/
def addVariable (env sym val : Ref) : Code Unit :=
  define 2 fun d => do
    let vars := .slot d 0
    let tmp := .slot d 1
    assign vars (← env.get .vars)
    assign tmp (← acons sym val vars)
    (← star env).set .vars (← star tmp)

/-- The loop of `push_env`. -/
def pushEnvLoop (map sym val vars vals : Ref) : ℕ → Code Unit
  | 0 => .fail .outOfFuel
  | limit + 1 => do
    if (← vars.type) = tCell then
      if (← vals.type) ≠ tCell then
        error "Cannot apply function: number of argument does not match"
      else do
        assign sym (← vars.get .car)
        assign val (← vals.get .car)
        assign map (← acons sym val map)
        assign vars (← vars.get .cdr)
        assign vals (← vals.get .cdr)
        pushEnvLoop map sym val vars vals limit
    else return

/-- `push_env` -/
def pushEnv (limit : ℕ) (env vars vals : Ref) : Code Ptr :=
  define 3 fun d => do
    let map := .slot d 0
    let sym := .slot d 1
    let val := .slot d 2
    assign map .nil
    pushEnvLoop map sym val vars vals limit
    if ← (← star vars).is .nil then makeEnv map env
    else do
      assign map (← acons vars vals map)
      makeEnv map env

/-- The inner loop of `find`. -/
def findBind (sym : Ptr) : ℕ → Ptr → Code (Option Ptr)
  | 0, _ => .fail .outOfFuel
  | limit + 1, cell => do
    if ← cell.is .nil then return none
    else do
      let bind ← cell.get .car
      if ← sym.is (← bind.get .car) then return some bind
      else findBind sym limit (← cell.get .cdr)

/-- The outer loop of `find`. -/
def findLoop (limit : ℕ) (sym : Ptr) : ℕ → Ptr → Code Ptr
  | 0, _ => .fail .outOfFuel
  | n + 1, p => do
    if ← p.is .nil then return .null
    else
      match ← findBind sym limit (← p.get .vars) with
      | some bind => return bind
      | none => findLoop limit sym n (← p.get .up)

/-- `find` -/
def find (limit : ℕ) (env : Ref) (sym : Ptr) : Code Ptr := do
  findLoop limit sym limit (← star env)

/-! ## evaluator -/

section evaluator

variable (eval : Evaluates) (limit : ℕ)

/-- The loop of `progn`. -/
def prognLoop (env lp r : Ref) : ℕ → Code Ptr
  | 0 => .fail .outOfFuel
  | limit + 1 => do
    if ← (← star lp).is .nil then star r
    else do
      assign r (← lp.get .car)
      assign r (← eval env r)
      assign lp (← lp.get .cdr)
      prognLoop env lp r limit

/-- `progn` -/
def progn (env list : Ref) : Code Ptr :=
  define 2 fun d => do
    let lp := .slot d 0
    let r := .slot d 1
    assign lp (← star list)
    prognLoop eval env lp r limit

/-- The loop of `eval_list`, in which `lp` is `list`. -/
def evalListLoop (env lp head expr result : Ref) : ℕ → Code Unit
  | 0 => .fail .outOfFuel
  | limit + 1 => do
    if ← (← star lp).is .nil then return
    else do
      assign expr (← lp.get .car)
      assign result (← eval env expr)
      assign head (← cons result head)
      assign lp (← lp.get .cdr)
      evalListLoop env lp head expr result limit

/-- `eval_list` -/
def evalList (env list : Ref) : Code Ptr :=
  define 4 fun d => do
    let head := .slot d 0
    let expr := .slot d 2
    let result := .slot d 3
    assign head .nil
    evalListLoop eval env list head expr result limit
    reverse limit (← star head)

/-- `apply_func` -/
def applyFunc (fn args : Ref) : Code Ptr :=
  define 3 fun d => do
    let params := .slot d 0
    let newenv := .slot d 1
    let body := .slot d 2
    assign params (← fn.get .params)
    assign newenv (← fn.get .env)
    assign newenv (← pushEnv limit newenv params args)
    assign body (← fn.get .body)
    progn eval limit newenv body

/-- `macroexpand` -/
def macroexpand (env obj : Ref) : Code Ptr := do
  if (← obj.type) ≠ tCell then star obj
  else if (← (← obj.get .car).type) ≠ tSymbol then star obj
  else define 3 fun d => do
    let bind := .slot d 0
    let macroFn := .slot d 1
    let args := .slot d 2
    assign bind (← find limit env (← obj.get .car))
    if ← (← star bind).is .null then star obj
    else if (← (← bind.get .cdr).type) ≠ tMacro then star obj
    else do
      assign macroFn (← bind.get .cdr)
      assign args (← obj.get .cdr)
      applyFunc eval limit macroFn args

/-! ## primitives -/

/-- `prim_quote` -/
def primQuote (list : Ref) : Code Ptr := do
  if (← length limit (← star list)) ≠ 1 then error "Malformed quote"
  else list.get .car

/-- `prim_cons` -/
def primCons (env list : Ref) : Code Ptr := do
  if (← length limit (← star list)) ≠ 2 then error "Malformed cons"
  else do
    let cell ← evalList eval limit env list
    cell.set .cdr (← (← cell.get .cdr).get .car)
    return cell

/-- `prim_car` and `prim_cdr`, from the evaluated arguments on -/
def fieldOf (f : Field) (message : String) (args : Ptr) : Code Ptr := do
  if (← (← args.get .car).type) ≠ tCell then error message
  else if ← (← args.get .cdr).is .nil then (← args.get .car).get f
  else error message

/-- `prim_car` and `prim_cdr` -/
def primField (f : Field) (message : String) (env list : Ref) : Code Ptr := do
  fieldOf f message (← evalList eval limit env list)

/-- `prim_car` -/
def primCar : Ref → Ref → Code Ptr := primField eval limit .car "Malformed car"

/-- `prim_cdr` -/
def primCdr : Ref → Ref → Code Ptr := primField eval limit .cdr "Malformed cdr"

/-- `prim_setq` -/
def primSetq (env list : Ref) : Code Ptr := do
  if (← length limit (← star list)) ≠ 2 then error "Malformed setq"
  else if (← (← list.get .car).type) ≠ tSymbol then error "Malformed setq"
  else define 2 fun d => do
    let bind := .slot d 0
    let value := .slot d 1
    assign bind (← find limit env (← list.get .car))
    if ← (← star bind).is .null then do
      let _ ← (← list.get .car).name
      error "Unbound variable %s"
    else do
      assign value (← (← list.get .cdr).get .car)
      assign value (← eval env value)
      (← star bind).set .cdr (← star value)
      star value

/-- `prim_setcar`, from the evaluated arguments on -/
def setcarOf (args : Ref) : Code Ptr := do
  if (← length limit (← star args)) ≠ 2 then error "Malformed setcar"
  else if (← (← args.get .car).type) ≠ tCell then error "Malformed setcar"
  else do
    (← args.get .car).set .car (← (← args.get .cdr).get .car)
    args.get .car

/-- `prim_setcar` -/
def primSetcar (env list : Ref) : Code Ptr :=
  define 1 fun d => do
    let args := .slot d 0
    assign args (← evalList eval limit env list)
    setcarOf limit args

/-- The loop of `prim_while`. -/
def whileLoop (env list cond exprs : Ref) : ℕ → Code Ptr
  | 0 => .fail .outOfFuel
  | n + 1 => do
    if ← (← eval env cond).is .nil then return .nil
    else do
      assign exprs (← list.get .cdr)
      let _ ← evalList eval limit env exprs
      whileLoop env list cond exprs n

/-- `prim_while` -/
def primWhile (n : ℕ) (env list : Ref) : Code Ptr := do
  if (← length limit (← star list)) < 2 then error "Malformed while"
  else define 2 fun d => do
    let cond := .slot d 0
    let exprs := .slot d 1
    assign cond (← list.get .car)
    whileLoop eval limit env list cond exprs n

/-- `count++` -/
def nextCount : Code (BitVec 32) :=
  .op (.io fun w => .ok (w.count, { w with count := w.count + 1 }))

/-- `prim_gensym`, whose buffer holds 9 characters. -/
def primGensym : Code Ptr := do
  makeSymbol ((chars "G__" ++ decimal (← nextCount)).take 9)

/-- The loop of `prim_plus`. -/
def plusLoop : ℕ → Ptr → BitVec 32 → Code (BitVec 32)
  | 0, _, _ => .fail .outOfFuel
  | limit + 1, args, sum => do
    if ← args.is .nil then return sum
    else if (← (← args.get .car).type) ≠ tInt then error "+ takes only numbers"
    else do
      let value ← (← args.get .car).value
      plusLoop limit (← args.get .cdr) (sum + value)

/-- `prim_plus`, from the evaluated arguments on -/
def sumOf (args : Ptr) : Code Ptr := do
  makeInt (← plusLoop limit args 0)

/-- `prim_plus` -/
def primPlus (env list : Ref) : Code Ptr := do
  sumOf limit (← evalList eval limit env list)

/-- The first loop of `prim_minus`. -/
def checkInts : ℕ → Ptr → Code Unit
  | 0, _ => .fail .outOfFuel
  | limit + 1, p => do
    if ← p.is .nil then return
    else if (← (← p.get .car).type) ≠ tInt then error "- takes only numbers"
    else checkInts limit (← p.get .cdr)

/-- The second loop of `prim_minus`. -/
def minusLoop : ℕ → Ptr → BitVec 32 → Code (BitVec 32)
  | 0, _, _ => .fail .outOfFuel
  | limit + 1, p, r => do
    if ← p.is .nil then return r
    else do
      let value ← (← p.get .car).value
      minusLoop limit (← p.get .cdr) (r - value)

/-- `prim_minus`, from the evaluated arguments on -/
def differenceOf (args : Ptr) : Code Ptr := do
  checkInts limit args
  if ← (← args.get .cdr).is .nil then makeInt (-(← (← args.get .car).value))
  else do
    let r ← (← args.get .car).value
    makeInt (← minusLoop limit (← args.get .cdr) r)

/-- `prim_minus` -/
def primMinus (env list : Ref) : Code Ptr := do
  differenceOf limit (← evalList eval limit env list)

/-- `prim_lt` and `prim_num_eq`, from the evaluated arguments on -/
def compareInts (holds : BitVec 32 → BitVec 32 → Bool) (message : String) (args : Ptr) :
    Code Ptr := do
  let x ← args.get .car
  let y ← (← args.get .cdr).get .car
  if (← x.type) ≠ tInt then error message
  else if (← y.type) ≠ tInt then error message
  else if holds (← x.value) (← y.value) then return .constTrue
  else return .nil

/-- `prim_lt`, from the evaluated arguments on -/
def lessThan (args : Ptr) : Code Ptr := do
  if (← length limit args) ≠ 2 then error "malformed <"
  else compareInts BitVec.slt "< takes only numbers" args

/-- `prim_lt` -/
def primLt (env list : Ref) : Code Ptr := do
  lessThan limit (← evalList eval limit env list)

/-- The loop of `handle_function`. -/
def checkParams : ℕ → Ptr → Code Ptr
  | 0, _ => .fail .outOfFuel
  | limit + 1, p => do
    if (← p.type) = tCell then
      if (← (← p.get .car).type) ≠ tSymbol then error "Parameter must be a symbol"
      else checkParams limit (← p.get .cdr)
    else return p

/-- `handle_function` -/
def handleFunction (isMacro : Bool) (env list : Ref) : Code Ptr := do
  if (← list.type) ≠ tCell then error "Malformed lambda"
  else if !(← isList (← list.get .car)) then error "Malformed lambda"
  else if (← (← list.get .cdr).type) ≠ tCell then error "Malformed lambda"
  else do
    let p ← checkParams limit (← list.get .car)
    if ← p.is .nil then makeHandled
    else if (← p.type) ≠ tSymbol then error "Parameter must be a symbol"
    else makeHandled
where
  /-- What follows the checks. -/
  makeHandled : Code Ptr :=
    define 2 fun d => do
      let params := .slot d 0
      let body := .slot d 1
      assign params (← list.get .car)
      assign body (← list.get .cdr)
      makeFunction env isMacro params body

/-- `prim_lambda` -/
def primLambda : Ref → Ref → Code Ptr := handleFunction limit false

/-- `handle_defun` -/
def handleDefun (isMacro : Bool) (env list : Ref) : Code Ptr := do
  if (← (← list.get .car).type) ≠ tSymbol then error "Malformed defun"
  else if (← (← list.get .cdr).type) ≠ tCell then error "Malformed defun"
  else define 3 fun d => do
    let fn := .slot d 0
    let sym := .slot d 1
    let rest := .slot d 2
    assign sym (← list.get .car)
    assign rest (← list.get .cdr)
    assign fn (← handleFunction limit isMacro env rest)
    addVariable env sym fn
    star fn

/-- `prim_defun` -/
def primDefun : Ref → Ref → Code Ptr := handleDefun limit false

/-- `prim_define` -/
def primDefine (env list : Ref) : Code Ptr := do
  if (← length limit (← star list)) ≠ 2 then error "Malformed define"
  else if (← (← list.get .car).type) ≠ tSymbol then error "Malformed define"
  else define 2 fun d => do
    let sym := .slot d 0
    let value := .slot d 1
    assign sym (← list.get .car)
    assign value (← (← list.get .cdr).get .car)
    assign value (← eval env value)
    addVariable env sym value
    star value

/-- `prim_defmacro` -/
def primDefmacro : Ref → Ref → Code Ptr := handleDefun limit true

/-- `prim_macroexpand` -/
def primMacroexpand (env list : Ref) : Code Ptr := do
  if (← length limit (← star list)) ≠ 1 then error "Malformed macroexpand"
  else define 1 fun d => do
    let body := .slot d 0
    assign body (← list.get .car)
    macroexpand eval limit env body

/-- `prim_println` and the beginning of `prim_panic` -/
def printFirst (env list : Ref) : Code Unit :=
  define 1 fun d => do
    let tmp := .slot d 0
    assign tmp (← list.get .car)
    print limit (← eval env tmp)
    write (chars "\n")

/-- `prim_println` -/
def primPrintln (env list : Ref) : Code Ptr := do
  printFirst eval limit env list
  return .nil

/-- `prim_panic` -/
def primPanic (env list : Ref) : Code Ptr := do
  printFirst eval limit env list
  error "minilisp error"

/-- `Sleep` -/
def sleep (milliseconds : BitVec 32) : Code Unit :=
  .op (.io fun w => .ok ((), { w with slept := w.slept ++ [milliseconds] }))

/-- `prim_sleep`, from the evaluated argument on -/
def sleepFor (slot : Ref) : Code Ptr := do
  if (← slot.type) ≠ tInt then error "sleep only takes numbers"
  else do
    sleep (← (← star slot).value)
    return .nil

/-- `prim_sleep` -/
def primSleep (env list : Ref) : Code Ptr :=
  define 1 fun d => do
    let slot := .slot d 0
    assign slot (← list.get .car)
    assign slot (← eval env slot)
    sleepFor slot

/-- `prim_if` -/
def primIf (env list : Ref) : Code Ptr := do
  if (← length limit (← star list)) < 2 then error "Malformed if"
  else define 3 fun d => do
    let cond := .slot d 0
    let thn := .slot d 1
    let els := .slot d 2
    assign cond (← list.get .car)
    assign cond (← eval env cond)
    if ← (← star cond).is .nil then do
      assign els (← (← list.get .cdr).get .cdr)
      if ← (← star els).is .nil then return .nil
      else progn eval limit env els
    else do
      assign thn (← (← list.get .cdr).get .car)
      eval env thn

/-- `prim_num_eq` -/
def primNumEq (env list : Ref) : Code Ptr := do
  if (← length limit (← star list)) ≠ 2 then error "Malformed ="
  else compareInts (· == ·) "= only takes numbers" (← evalList eval limit env list)

/-- `prim_eq` -/
def primEq (env list : Ref) : Code Ptr := do
  if (← length limit (← star list)) ≠ 2 then error "Malformed eq"
  else do
    let values ← evalList eval limit env list
    if ← (← values.get .car).is (← (← values.get .cdr).get .car) then return .constTrue
    else return .nil

/-- A call through the pointer to a primitive, by its place in `define_primitives`. -/
def callPrimitive (n : ℕ) (env list : Ref) : ℕ → Code Ptr
  | 0 => primQuote limit list
  | 1 => primCons eval limit env list
  | 2 => primCar eval limit env list
  | 3 => primCdr eval limit env list
  | 4 => primSetq eval limit env list
  | 5 => primSetcar eval limit env list
  | 6 => primWhile eval limit n env list
  | 7 => primGensym
  | 8 => primPlus eval limit env list
  | 9 => primMinus eval limit env list
  | 10 => primLt eval limit env list
  | 11 => primDefine eval limit env list
  | 12 => primDefun limit env list
  | 13 => primDefmacro limit env list
  | 14 => primMacroexpand eval limit env list
  | 15 => primLambda limit env list
  | 16 => primIf eval limit env list
  | 17 => primNumEq eval limit env list
  | 18 => primEq eval limit env list
  | 19 => primPrintln eval limit env list
  | 20 => primPanic eval limit env list
  | 21 => primSleep eval env list
  | _ => .fail (.badAccess null)

/-! ## `eval` -/

/-- `apply` -/
def apply (n : ℕ) (env fn args : Ref) : Code Ptr := do
  if !(← isList (← star args)) then error "argument must be a list"
  else if (← fn.type) = tPrimitive then
    callPrimitive eval limit n env args (← (← star fn).fn)
  else if (← fn.type) = tFunction then
    define 1 fun d => do
      let eargs := .slot d 0
      assign eargs (← evalList eval limit env args)
      applyFunc eval limit fn eargs
  else error "not supported"

/-- The body of `eval`. -/
def evalStep (n : ℕ) (env obj : Ref) : Code Ptr := do
  let type ← obj.type
  if type = tInt ∨ type = tPrimitive ∨ type = tFunction ∨ type = tTrue ∨ type = tNil then star obj
  else if type = tSymbol then do
    let bind ← find limit env (← star obj)
    if ← bind.is .null then do
      let _ ← (← star obj).name
      error "Undefined symbol: %s"
    else bind.get .cdr
  else if type = tCell then
    define 3 fun d => do
      let fn := .slot d 0
      let expanded := .slot d 1
      let args := .slot d 2
      assign expanded (← macroexpand eval limit env obj)
      if ← (← star expanded).is (← star obj) then do
        assign fn (← obj.get .car)
        assign fn (← eval env fn)
        assign args (← obj.get .cdr)
        if (← fn.type) ≠ tPrimitive ∧ (← fn.type) ≠ tFunction then
          error "The head of a list must be a function"
        else apply eval limit n env fn args
      else eval env expanded
  else error "Bug: eval: Unknown tag type: %d"

end evaluator

/-- `eval` -/
def eval (limit : ℕ) : ℕ → Evaluates
  | 0 => fun _ _ => .fail .outOfFuel
  | n + 1 => evalStep (eval limit n) limit n

/-! ## entry point -/

/-- `add_primitive` -/
def addPrimitive (limit : ℕ) (env : Ref) (name : String) (fn : ℕ) : Code Unit :=
  define 2 fun d => do
    let sym := .slot d 0
    let prim := .slot d 1
    assign sym (← intern limit (chars name))
    assign prim (← makePrimitive fn)
    addVariable env sym prim

/-- `define_constants` -/
def defineConstants (limit : ℕ) (env : Ref) : Code Unit :=
  define 1 fun d => do
    let sym := .slot d 0
    assign sym (← intern limit (chars "t"))
    addVariable env sym .constTrue

/-- The names in `define_primitives`, in order. -/
def primitiveNames : List String :=
  ["quote", "cons", "car", "cdr", "setq", "setcar", "while", "gensym", "+", "-", "<", "define",
    "defun", "defmacro", "macroexpand", "lambda", "if", "=", "eq", "println", "panic", "sleep"]

/-- `define_primitives`, from one of them on -/
def definePrimitives (limit : ℕ) (env : Ref) : List (String × ℕ) → Code Unit
  | [] => return
  | (name, fn) :: rest => do
    addPrimitive limit env name fn
    definePrimitives limit env rest

/-- `lisp_repl_main` before its loop, in the scope of `env` and `expr` -/
def replStart (limit : ℕ) (env : Ref) : Code Unit := do
  assign env (← makeEnv .nil .nil)
  defineConstants limit env
  definePrimitives limit env primitiveNames.zipIdx

/-- A turn of the loop, as far as the expression is read; `false` at the end. -/
def replRead (limit n : ℕ) (expr : Ref) : Code Bool := do
  assign expr (← readExpr limit n)
  if ← (← star expr).is .null then return false
  else if ← (← star expr).is .cparen then error "Stray close parenthesis"
  else if ← (← star expr).is .dot then error "Stray dot"
  else return true

/-- The rest of the turn. -/
def replEval (limit n : ℕ) (env expr : Ref) : Code Unit := do
  print limit (← eval limit n env expr)
  write (chars "\n")

/-- The loop of `lisp_repl_main`. -/
def replLoop (limit n : ℕ) (env expr : Ref) : ℕ → Code Unit
  | 0 => .fail .outOfFuel
  | turns + 1 => do
    if ← replRead limit n expr then do
      replEval limit n env expr
      replLoop limit n env expr turns
    else return

/-- `lisp_repl_main` -/
def lispReplMain (limit n turns : ℕ) : Code Unit := do
  assign .symbols .nil
  define 2 fun d => do
    let env := .slot d 0
    let expr := .slot d 1
    replStart limit env
    replLoop limit n env expr turns

end KernelPanic.Minilisp.Evaluator
