import ToneScript.Activation.Frame
import ToneScript.Log.Record
import ToneScript.Postfix.Evaluation
/-!
Evaluation of syntax trees.

How deep calls may nest is given beforehand, and every call is evaluated with one level less, so that
evaluation always ends.
-/
namespace ToneScript.Activation

/-- How a function is invoked: the function, the chain its body sees, its arguments, and the position
of the call. -/
abbrev Invoker := Callable → Chain → List Value → Position → Except EvalError Value

/-- What stays the same while an expression is evaluated. -/
structure Context where
  names : NameTable
  invoke : Invoker

/-- The place of the parameter that the argument at place `i` of a call goes to. -/
def placeOf (c : Context) (callee : Ident) (style : CallStyle) (params : List (Ident × Option Number))
    (slots : List (Option Value)) (i : Nat) (arg : SiteArgument) : Except EvalError Nat :=
  match style, arg.name? with
  | .named, some name =>
    match params.findIdx? (·.1 == name) with
    | none =>
      .error (.located arg.pos (.noSuchArgument (c.names.name callee) (c.names.name name)))
    | some place =>
      if (slots.getD place none).isSome then
        .error (.located arg.pos (.argumentTwice (c.names.name callee) (c.names.name name)))
      else .ok place
  | _, _ => .ok i

/-- The value that a parameter gets from an argument whose own value is `v`. -/
def argumentValue (c : Context) (default? : Option Number) (arg : SiteArgument) (v : Value) :
    Except EvalError Value :=
  match arg with
  | .opAssign name op _ pos =>
    match default? with
    | some d => .ok (op.applyBinary (.number d) v)
    | none => .error (.located pos (.noDefault (c.names.name name)))
  | _ => .ok v

/-- The values of all parameters, with defaults for those that got none. -/
def fillDefaults (c : Context) (callee : Ident) (pos : Position) :
    List (Ident × Option Number) → List (Option Value) → Except EvalError (List Value)
  | param :: params, slot :: slots =>
    match slot.or (param.2.map Value.number) with
    | some v => (fillDefaults c callee pos params slots).map (v :: ·)
    | none =>
      .error (.located pos (.missingArgument (c.names.name callee) (c.names.name param.1)))
  | _, _ => .ok []

mutual

/-- Evaluates the rest of a sequence on a stack. -/
def cells (c : Context) (chain : Chain) : List Value → List Cell → Except EvalError Value
  | stack, [] => Postfix.finish stack
  | stack, cell :: rest =>
    match cell with
    | .value v _ => cells c chain (v :: stack) rest
    | .slot id pos => do
      let v ← Postfix.readSlot chain.lookup id pos
      cells c chain (v :: stack) rest
    | .call site => do
      let v ← call c chain site
      cells c chain (v :: stack) rest
    | .operator op pos => do
      let stack ← Postfix.applyOperator op pos stack
      cells c chain stack rest
    | .left pos => .error (.located pos .parenthesis)
    | .right pos => .error (.located pos .parenthesis)

/-- Evaluates an expression in operand-first order. -/
def compiled (c : Context) (chain : Chain) : Compiled → Except EvalError Value
  | ⟨sequence, pos⟩ => (cells c chain [] sequence).mapError (·.orAt pos)

/-- Performs a call: finds the function, binds the arguments in the frame of the caller, and invokes
it. -/
def call (c : Context) (chain : Chain) : CallSite → Except EvalError Value
  | ⟨callee, style, args, pos⟩ =>
    match chain.findFunction? callee with
    | none => .error (.located pos (.undefinedFunction (c.names.name callee)))
    | some (callable, home) => do
      let params := callable.params
      if style = .ordered ∧ params.length < args.length then
        .error (.located pos (.tooManyArguments (c.names.name callee)))
      else
        let slots ← arguments c chain callee style params (params.map fun _ => none) 0 args
        let values ← fillDefaults c callee pos params slots
        c.invoke callable home values pos

/-- Puts the values of arguments, the first of which is at place `i`, into the slots of their
parameters. -/
def arguments (c : Context) (chain : Chain) (callee : Ident) (style : CallStyle)
    (params : List (Ident × Option Number)) (slots : List (Option Value)) (i : Nat) :
    List SiteArgument → Except EvalError (List (Option Value))
  | [] => .ok slots
  | arg :: args => do
    let place ← placeOf c callee style params slots i arg
    let v ← argument c chain arg
    let v ← argumentValue c ((params[place]?).bind Prod.snd) arg v
    arguments c chain callee style params (slots.set place (some v)) (i + 1) args

/-- The value of the expression of an argument. -/
def argument (c : Context) (chain : Chain) : SiteArgument → Except EvalError Value
  | .shorthand _ value _ => compiled c chain value
  | .assign _ value _ => compiled c chain value
  | .opAssign _ _ value _ => compiled c chain value
  | .positional value _ => compiled c chain value

end

mutual

/-- Evaluates an expression. -/
def expr (c : Context) (chain : Chain) : Expr → Except EvalError Value
  | .span sequence _ => compiled c chain sequence
  | .number x _ => .ok (.number x)
  | .boolean b _ => .ok (.boolean b)
  | .var name pos =>
    match chain.lookup name with
    | some v => .ok v
    | none => .error (.located pos (.undefinedVariable (c.names.name name)))
  | .prefixed op operand _ => do
    let v ← expr c chain operand
    return op.applyPrefix v
  | .binary op left right _ => do
    let l ← expr c chain left
    let r ← expr c chain right
    return op.applyBinary l r
  | .call site _ => call c chain site
  | .conditional condition thenBranch elseBranch _ => do
    let v ← expr c chain condition
    if v.truthy then expr c chain thenBranch else expr c chain elseBranch
  | .block _ items _ => do
    let result ← entries c {} chain (.number 0) items
    return .number result.toNumber

/-- Gathers up the entries of a block, given its frame and the result so far. -/
def entries (c : Context) (inner : Frame) (chain : Chain) (result : Value) :
    List BlockEntry → Except EvalError Value
  | [] => .ok result
  | .closure f _ :: items =>
    entries c (inner.setFunction f.name (.defined f)) chain result items
  | .operator op value none _ :: items => do
    let v ← expr c (inner :: chain) value
    entries c inner chain (op.applyBinary result v) items
  | .operator op value (some guard) _ :: items => do
    let g ← expr c (inner :: chain) guard
    if g.truthy then
      let v ← expr c (inner :: chain) value
      entries c inner chain (op.applyBinary result v) items
    else entries c inner chain result items

end

/-- Evaluates the value of an entry of a block by itself. The definition of a function has no value. -/
def entryValue (c : Context) (chain : Chain) : BlockEntry → Except EvalError Value
  | .operator _ value _ _ => expr c chain value
  | .closure _ pos => .error (.located pos .definitionAsValue)

/-- Invokes a function when calls may nest `depth` more levels. -/
def invoke (names : NameTable) : (depth : Nat) → Invoker
  | 0, _, _, _, pos => .error (.located pos .depthExceeded)
  | _ + 1, .intrinsic i _, _, args, _ => .ok (i.apply args)
  | depth + 1, .defined f, home, args, _ =>
    expr ⟨names, invoke names depth⟩
      (.ofArguments (Callable.defined f).params args :: home) f.body

/-- The context in which calls may nest `depth` levels. -/
def context (names : NameTable) (depth : Nat) : Context :=
  ⟨names, invoke names depth⟩

/-- Invokes a function whose home may be gone. -/
def invokeAt (names : NameTable) (depth : Nat) (callable : Callable) (home? : Option Chain)
    (args : List Value) (pos : Position) : Except EvalError Value :=
  match home?, callable with
  | none, .defined f =>
    .error (if depth = 0 then .located pos .depthExceeded
      else .located f.pos (.outlived (names.name f.name)))
  | home?, callable => invoke names depth callable (home?.getD []) args pos

/-- What an evaluation leaves in the log: a warning where calls nest too deep. -/
def remarks (depth : Nat) (result : Except EvalError Value) : List Log.Remark :=
  match result with
  | .error ⟨.depthExceeded, _⟩ =>
    [⟨.warn, "runtime", "call depth limit of " ++ toString depth ++ " reached"⟩]
  | _ => []

end ToneScript.Activation
