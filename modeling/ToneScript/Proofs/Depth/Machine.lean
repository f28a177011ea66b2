import Mathlib.Logic.Relation
import ToneScript.Activation.Evaluation

/-! Evaluation in small steps, with a counter of calls. A state holds what is evaluated, what waits for its outcome,
and the counter, which goes up when a function is entered and down when it is left, with a value or an error. -/
namespace ToneScript.Machine

open Activation (placeOf argumentValue fillDefaults)

/-- A call whose arguments are being evaluated in the chain of its caller. -/
structure Pending where
  chain : Chain
  site : CallSite
  callable : Callable
  home : Chain
  slots : List (Option Value)
  /-- The place of the first argument that is still to come. -/
  next : Nat
  args : List SiteArgument

/-- What waits for the outcome of an evaluation. -/
inductive Waiting where
  /-- A sequence gives an error without a place its own. -/
  | sequence (pos : Position)
  /-- The rest of a sequence, on top of whose stack the value goes. -/
  | cells (chain : Chain) (stack : List Value) (rest : List Cell)
  /-- The rest of the arguments of a call, one of which has the value. -/
  | argument (call : Pending) (arg : SiteArgument) (place : Nat)
  | prefixed (op : Operator)
  | right (op : Operator) (chain : Chain) (right : Expr)
  | operation (op : Operator) (left : Value)
  | branches (chain : Chain) (thenBranch elseBranch : Expr)
  | guard (inner : Frame) (chain : Chain) (result : Value) (op : Operator) (value : Expr) (items : List BlockEntry)
  | entry (inner : Frame) (chain : Chain) (result : Value) (op : Operator) (items : List BlockEntry)
  | block
  /-- A function that was entered is left. -/
  | leave

/-- Whether this is a function that was entered and not left. -/
def Waiting.isLeave : Waiting → Bool
  | leave => true
  | sequence _ | cells .. | argument .. | prefixed _ | right .. | operation .. | branches .. | guard .. | entry ..
  | block => false

/-- What a state does next. -/
inductive Control where
  | expr (chain : Chain) (e : Expr)
  | cells (chain : Chain) (stack : List Value) (rest : List Cell)
  | entries (inner : Frame) (chain : Chain) (result : Value) (items : List BlockEntry)
  | arguments (call : Pending)
  /-- A function is invoked, unless calls are nested too deep already. Its home may be gone. -/
  | invoke (callable : Callable) (home? : Option Chain) (args : List Value) (pos : Position)
  | done (outcome : Except EvalError Value)

/-- What an evaluation does next, what waits for its outcome, and the counter of calls. -/
structure State where
  control : Control
  waiting : List Waiting
  depth : Nat

namespace State

/-- The number of functions that were entered and not left. -/
def active (s : State) : Nat :=
  s.waiting.countP Waiting.isLeave

/-- Something is done next, and nothing else is different. -/
def next (s : State) (control : Control) : State :=
  { s with control }

/-- Something more waits for the outcome of what is done next. -/
def hold (s : State) (w : Waiting) : State :=
  { s with waiting := w :: s.waiting }

/-- A sequence is evaluated next. -/
def sequence (s : State) (chain : Chain) (e : Compiled) : State :=
  (s.hold (.sequence e.pos)).next (.cells chain [] e.cells)

/-- There is a value to go on with, or else an error to be done with. -/
def orDone {α : Type} (s : State) (x : Except EvalError α) (go : α → State) : State :=
  match x with
  | .ok a => go a
  | .error e => s.next (.done (.error e))

end State

variable (names : NameTable) (max : Nat)

/-- A call is begun: its function is found, and there must not be too many arguments. -/
def begin (s : State) (chain : Chain) (site : CallSite) : State :=
  match chain.findFunction? site.callee with
  | none => s.next (.done (.error (.located site.pos (.undefinedFunction (names.name site.callee)))))
  | some (callable, home) =>
    if site.style = .ordered ∧ callable.params.length < site.args.length then
      s.next (.done (.error (.located site.pos (.tooManyArguments (names.name site.callee)))))
    else s.next (.arguments ⟨chain, site, callable, home, callable.params.map fun _ => none, 0, site.args⟩)

/-- A step of the evaluation of an expression. -/
def stepExpr (s : State) (chain : Chain) : Expr → State
  | .span e _ => s.sequence chain e
  | .number x _ => s.next (.done (.ok (.number x)))
  | .boolean b _ => s.next (.done (.ok (.boolean b)))
  | .var name pos =>
    match chain.lookup name with
    | some v => s.next (.done (.ok v))
    | none => s.next (.done (.error (.located pos (.undefinedVariable (names.name name)))))
  | .prefixed op operand _ => (s.hold (.prefixed op)).next (.expr chain operand)
  | .binary op left right _ => (s.hold (.right op chain right)).next (.expr chain left)
  | .call site _ => begin names s chain site
  | .conditional condition thenBranch elseBranch _ =>
    (s.hold (.branches chain thenBranch elseBranch)).next (.expr chain condition)
  | .block _ items _ => (s.hold .block).next (.entries {} chain (.number 0) items)

/-- A step of the evaluation of a sequence. -/
def stepCells (s : State) (chain : Chain) (stack : List Value) : List Cell → State
  | [] => s.next (.done (Postfix.finish stack))
  | .value v _ :: rest => s.next (.cells chain (v :: stack) rest)
  | .slot id pos :: rest =>
    s.orDone (Postfix.readSlot chain.lookup id pos) fun v => s.next (.cells chain (v :: stack) rest)
  | .call site :: rest => begin names (s.hold (.cells chain stack rest)) chain site
  | .operator op pos :: rest =>
    s.orDone (Postfix.applyOperator op pos stack) fun stack => s.next (.cells chain stack rest)
  | .left pos :: _ | .right pos :: _ => s.next (.done (.error (.located pos .parenthesis)))

/-- A step of the evaluation of the entries of a block. -/
def stepEntries (s : State) (inner : Frame) (chain : Chain) (result : Value) : List BlockEntry → State
  | [] => s.next (.done (.ok result))
  | .closure f _ :: items => s.next (.entries (inner.setFunction f.name (.defined f)) chain result items)
  | .operator op value none _ :: items =>
    (s.hold (.entry inner chain result op items)).next (.expr (inner :: chain) value)
  | .operator op value (some guard) _ :: items =>
    (s.hold (.guard inner chain result op value items)).next (.expr (inner :: chain) guard)

/-- A step of the evaluation of the arguments of a call. -/
def stepArguments (s : State) (call : Pending) : State :=
  match call.args with
  | [] =>
    s.orDone (fillDefaults (Activation.context names 0) call.site.callee call.site.pos call.callable.params call.slots)
      fun values => s.next (.invoke call.callable (some call.home) values call.site.pos)
  | arg :: args =>
    s.orDone (placeOf (Activation.context names 0) call.site.callee call.site.style call.callable.params call.slots
        call.next arg)
      fun place => (s.hold (.argument { call with args } arg place)).sequence call.chain arg.value

/-- The body of a function that is entered. -/
def body (callable : Callable) (home? : Option Chain) (args : List Value) : Control :=
  match callable, home? with
  | .intrinsic i _, _ => .done (.ok (i.apply args))
  | .defined f, none => .done (.error (.located f.pos (.outlived (names.name f.name))))
  | .defined f, some home => .expr (.ofArguments (Callable.defined f).params args :: home) f.body

/-- A function is entered, unless calls are nested too deep already. -/
def stepInvoke (s : State) (callable : Callable) (home? : Option Chain) (args : List Value) (pos : Position) : State :=
  if max ≤ s.depth then s.next (.done (.error (.located pos .depthExceeded)))
  else { control := body names callable home? args, waiting := .leave :: s.waiting, depth := s.depth + 1 }

/-- What is done with an outcome that something waited for. -/
def resume (s : State) (outcome : Except EvalError Value) : Waiting → State
  | .leave => { s with control := .done outcome, depth := s.depth - 1 }
  | .sequence pos => s.next (.done (outcome.mapError (·.orAt pos)))
  | .cells chain stack rest => s.orDone outcome fun v => s.next (.cells chain (v :: stack) rest)
  | .argument call arg place =>
    s.orDone (outcome.bind (argumentValue (Activation.context names 0) ((call.callable.params[place]?).bind Prod.snd) arg))
      fun v => s.next (.arguments { call with slots := call.slots.set place (some v), next := call.next + 1 })
  | .prefixed op => s.next (.done (outcome.map op.applyPrefix))
  | .right op chain right => s.orDone outcome fun l => (s.hold (.operation op l)).next (.expr chain right)
  | .operation op left => s.next (.done (outcome.map (op.applyBinary left)))
  | .branches chain t e => s.orDone outcome fun v => s.next (.expr chain (if v.truthy then t else e))
  | .guard inner chain result op value items =>
    s.orDone outcome fun v =>
      if v.truthy then (s.hold (.entry inner chain result op items)).next (.expr (inner :: chain) value)
      else s.next (.entries inner chain result items)
  | .entry inner chain result op items =>
    s.orDone outcome fun v => s.next (.entries inner chain (op.applyBinary result v) items)
  | .block => s.next (.done (outcome.map fun v => .number v.toNumber))

/-- The next state, unless the evaluation has come to its end. -/
def step (s : State) : Option State :=
  match s.control with
  | .expr chain e => some (stepExpr names s chain e)
  | .cells chain stack rest => some (stepCells names s chain stack rest)
  | .entries inner chain result items => some (stepEntries s inner chain result items)
  | .arguments call => some (stepArguments names s call)
  | .invoke callable home? args pos => some (stepInvoke names max s callable home? args pos)
  | .done outcome =>
    match s.waiting with
    | [] => none
    | w :: waiting => some (resume names { s with waiting } outcome w)

/-- The states that come after a state. -/
def Reaches : State → State → Prop :=
  Relation.ReflTransGen fun s t => step names max s = some t

end ToneScript.Machine
