import ToneScript.Postfix.Equality
/-! Evaluation of operand-first expressions on a stack, and folding of known variables. -/
namespace ToneScript

/-- Why an evaluation fails. -/
inductive EvalError.Cause where
  | unboundSlot (slot : Ident)
  | unboundCall (callee : Ident)
  | tooFewOperands
  | parenthesis
  | noOperand
  | tooManyOperands
  | undefinedVariable (name : String)
  | undefinedFunction (name : String)
  | definitionAsValue
  | tooManyArguments (callee : String)
  | noSuchArgument (callee argument : String)
  | argumentTwice (callee argument : String)
  | noDefault (argument : String)
  | missingArgument (callee parameter : String)
  | depthExceeded
  | outlived (function : String)
deriving DecidableEq, Repr, Inhabited

/-- An error of evaluation, with its place if it has one. -/
structure EvalError where
  cause : EvalError.Cause
  pos? : Option Position
deriving DecidableEq, Repr, Inhabited

namespace EvalError

/-- Message of a cause. -/
def Cause.message : Cause → String
  | unboundSlot slot =>
    "attempted to access a nonexistent variable (id=" ++ toString slot ++ ")"
  | unboundCall callee => "no function is bound for call (id=" ++ toString callee ++ ")"
  | tooFewOperands => "not enough values for operator"
  | parenthesis => "unexpected paren in postfix expression"
  | noOperand => "zero values in expression"
  | tooManyOperands => "too many values in expression"
  | undefinedVariable name => "variable `" ++ name ++ "` is not defined"
  | undefinedFunction name => "function `" ++ name ++ "` is not defined"
  | definitionAsValue => "a function definition cannot be evaluated as a value"
  | tooManyArguments callee => "too many arguments in call to `" ++ callee ++ "`"
  | noSuchArgument callee argument =>
    "function `" ++ callee ++ "` has no argument named `" ++ argument ++ "`"
  | argumentTwice callee argument =>
    "argument `" ++ argument ++ "` given twice in call to `" ++ callee ++ "`"
  | noDefault argument => "argument `" ++ argument ++ "` has no default"
  | missingArgument callee parameter =>
    "missing argument `" ++ parameter ++ "` in call to `" ++ callee ++ "`"
  | depthExceeded => "maximum call depth exceeded"
  | outlived function => "function `" ++ function ++ "` outlived the scope that defines it"

/-- Message of an error. -/
def message (e : EvalError) : String :=
  e.cause.message

/-- An error at a position. -/
def located (pos : Position) (cause : Cause) : EvalError :=
  ⟨cause, some pos⟩

/-- Gives an error without a place the given one. -/
def orAt (e : EvalError) (pos : Position) : EvalError :=
  { e with pos? := e.pos?.or (some pos) }

end EvalError

/-- What an expression is evaluated in: values of variables, and a way to perform calls. -/
structure Environment where
  lookup : Ident → Option Value
  call : CallSite → Except EvalError Value

/-- An environment of variables alone, in which every call fails. -/
def Environment.ofBindings (bindings : List (Ident × Value)) : Environment where
  lookup id := bindings.lookup id
  call site := .error (.located site.pos (.unboundCall site.callee))

namespace Postfix

/-- Applies an operator to the top of a stack. -/
def applyOperator (op : Operator) (pos : Position) (stack : List Value) :
    Except EvalError (List Value) :=
  if op.isPrefix then
    match stack with
    | v :: stack => .ok (op.applyPrefix v :: stack)
    | [] => .error (.located pos .tooFewOperands)
  else
    match stack with
    | r :: l :: stack => .ok (op.applyBinary l r :: stack)
    | _ => .error (.located pos .tooFewOperands)

/-- The value of a variable. -/
def readSlot (lookup : Ident → Option Value) (id : Ident) (pos : Position) :
    Except EvalError Value :=
  match lookup id with
  | some v => .ok v
  | none => .error (.located pos (.unboundSlot id))

/-- The value that a stack holds at the end: its only one. -/
def finish : List Value → Except EvalError Value
  | [v] => .ok v
  | [] => .error ⟨.noOperand, none⟩
  | _ => .error ⟨.tooManyOperands, none⟩

/-- What one cell does to the stack. -/
def step (env : Environment) (stack : List Value) : Cell → Except EvalError (List Value)
  | .value v _ => .ok (v :: stack)
  | .slot id pos => (readSlot env.lookup id pos).map (· :: stack)
  | .call site => (env.call site).map (· :: stack)
  | .operator op pos => applyOperator op pos stack
  | .left pos | .right pos => .error (.located pos .parenthesis)

/-- Evaluates the rest of a sequence on a stack. -/
def evalFrom (env : Environment) : List Value → List Cell → Except EvalError Value
  | stack, [] => finish stack
  | stack, cell :: rest =>
    match step env stack cell with
    | .error e => .error e
    | .ok stack => evalFrom env stack rest

/-- Evaluates a sequence. -/
def eval (env : Environment) (cells : List Cell) : Except EvalError Value :=
  evalFrom env [] cells

/-- Replaces a variable by its value, if it has one. -/
def foldCell (lookup : Ident → Option Value) : Cell → Cell
  | .slot id pos =>
    match lookup id with
    | some v => .value v pos
    | none => .slot id pos
  | cell => cell

end Postfix

namespace Compiled

/-- Evaluates an expression. An error without a place gets that of the expression. -/
def eval (e : Compiled) (env : Environment) : Except EvalError Value :=
  (Postfix.eval env e.cells).mapError (·.orAt e.pos)

/-- Evaluates an expression to a number. -/
def evalNumber (e : Compiled) (env : Environment) : Except EvalError Number :=
  (e.eval env).map Value.toNumber

/-- Replaces the variables that have a value by it. Arguments of calls are left alone. -/
def foldScope (e : Compiled) (env : Environment) : Compiled :=
  { e with cells := e.cells.map (Postfix.foldCell env.lookup) }

end Compiled
end ToneScript
