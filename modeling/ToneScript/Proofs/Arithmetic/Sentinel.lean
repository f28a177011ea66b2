import ToneScript.Postfix.Evaluation

/-! An engine that knows no truth values, and the refinement of it by the one that does. In the sentinel engine every
operand is a number: one stands for true, minus one for false, and a number counts as true when it is greater than
zero. -/
namespace ToneScript

namespace Sentinel

/-- The number that a comparison, an equality or a logical operator gives. -/
def ofBool : Bool → Number
  | true => 1
  | false => -1

/-- Whether a number counts as true. -/
def truthy (x : Number) : Bool :=
  0 < x

/-- Binary operators on numbers. A prefix operator in this place leaves its left operand. -/
def applyBinary (op : Operator) (l r : Number) : Number :=
  match op with
  | .and => ofBool (truthy l && truthy r)
  | .or => ofBool (truthy l || truthy r)
  | .xor => ofBool (truthy l != truthy r)
  | .equ => ofBool (l == r)
  | .notEqu => ofBool (!(l == r))
  | .less => ofBool (l < r)
  | .greater => ofBool (r < l)
  | .lessEqual => ofBool (l ≤ r)
  | .greaterEqual => ofBool (r ≤ l)
  | .approxEqu => ofBool (Number.near l r)
  | .add => l + r
  | .sub => l - r
  | .mul => l * r
  | .div => l / r
  | .mod => Number.modulo l r
  | .exp => Number.power l r
  | .neg | .not => l

/-- Prefix operators on numbers. -/
def applyPrefix (op : Operator) (x : Number) : Number :=
  if op = .not then ofBool (!truthy x) else -x

/-- A cell whose literals are numbers. -/
inductive Cell where
  | number (x : Number) (pos : Position)
  | slot (id : Ident) (pos : Position)
  | operator (op : Operator) (pos : Position)
  | paren (pos : Position)
  | call (site : CallSite)

/-- Variables and calls whose results are numbers. -/
structure Environment where
  lookup : Ident → Option Number
  call : CallSite → Except EvalError Number

/-- Applies an operator to the top of a stack of numbers. -/
def applyOperator (op : Operator) (pos : Position) : List Number → Except EvalError (List Number)
  | [] => .error (.located pos .tooFewOperands)
  | [x] => if op.isPrefix then .ok [applyPrefix op x] else .error (.located pos .tooFewOperands)
  | r :: l :: stack =>
    if op.isPrefix then .ok (applyPrefix op r :: l :: stack) else .ok (applyBinary op l r :: stack)

/-- What a cell does to a stack of numbers. -/
def step (env : Environment) (stack : List Number) : Cell → Except EvalError (List Number)
  | .number x _ => .ok (x :: stack)
  | .slot id pos =>
    match env.lookup id with
    | some x => .ok (x :: stack)
    | none => .error (.located pos (.unboundSlot id))
  | .operator op pos => applyOperator op pos stack
  | .paren pos => .error (.located pos .parenthesis)
  | .call site => do
    let x ← env.call site
    return x :: stack

/-- Evaluates cells on a stack of numbers, which has to hold one number in the end. -/
def evalFrom (env : Environment) : List Number → List Cell → Except EvalError Number
  | [x], [] => .ok x
  | [], [] => .error ⟨.noOperand, none⟩
  | _ :: _ :: _, [] => .error ⟨.tooManyOperands, none⟩
  | stack, cell :: rest => do
    let stack ← step env stack cell
    evalFrom env stack rest

/-- Evaluates a sequence to a number. -/
def eval (env : Environment) (cells : List Cell) : Except EvalError Number :=
  evalFrom env [] cells

end Sentinel

namespace Value

theorem toNumber_boolean (b : Bool) : (boolean b).toNumber = Sentinel.ofBool b := by
  cases b <;> rfl

/-- Truth does not depend on how a value is represented. -/
theorem truthy_toNumber (v : Value) : Sentinel.truthy v.toNumber = v.truthy := by
  cases v with
  | number x => rfl
  | boolean b => cases b <;> decide

/-- Two truth values are the same exactly when their sentinels are equal numbers. -/
theorem same_toNumber (v w : Value) : (v.toNumber == w.toNumber) = v.same w := by
  cases v with
  | number x => rfl
  | boolean a =>
    cases w with
    | number x => rfl
    | boolean b => cases a <;> cases b <;> decide

end Value

namespace Operator

theorem toNumber_applyBinary (op : Operator) (l r : Value) :
    (op.applyBinary l r).toNumber = Sentinel.applyBinary op l.toNumber r.toNumber := by
  cases op with
  | and | or | xor =>
    simp only [applyBinary, Sentinel.applyBinary, Value.toNumber_boolean, Value.truthy_toNumber]
  | equ | notEqu =>
    simp only [applyBinary, Sentinel.applyBinary, Value.toNumber_boolean, Value.same_toNumber]
  | less | greater | lessEqual | greaterEqual | approxEqu =>
    simp only [applyBinary, Sentinel.applyBinary, Value.toNumber_boolean]
  | add | sub | mul | div | mod | exp | neg | not => rfl

theorem toNumber_applyPrefix (op : Operator) (v : Value) :
    (op.applyPrefix v).toNumber = Sentinel.applyPrefix op v.toNumber := by
  by_cases hop : op = .not
  · subst hop
    rw [Sentinel.applyPrefix, if_pos rfl, Value.truthy_toNumber, ← Value.toNumber_boolean]
    rfl
  · rw [Sentinel.applyPrefix, if_neg hop]
    unfold applyPrefix
    split
    · exact absurd rfl hop
    · rfl

end Operator

namespace Sentinel

/-- A cell with its literal as a number. -/
def Cell.ofCell : ToneScript.Cell → Cell
  | .value v pos => .number v.toNumber pos
  | .slot id pos => .slot id pos
  | .operator op pos => .operator op pos
  | .left pos | .right pos => .paren pos
  | .call site => .call site

/-- An environment with what its variables and calls give as numbers. -/
def Environment.ofEnvironment (env : ToneScript.Environment) : Environment where
  lookup id := (env.lookup id).map Value.toNumber
  call site := (env.call site).map Value.toNumber

variable (env : ToneScript.Environment) (stack : List Value)

theorem map_applyOperator (op : Operator) (pos : Position) :
    (Postfix.applyOperator op pos stack).map (List.map Value.toNumber) =
      applyOperator op pos (stack.map Value.toNumber) := by
  unfold Postfix.applyOperator
  match stack with
  | [] => cases op.isPrefix <;> rfl
  | [v] =>
    cases hop : op.isPrefix
    · simp [applyOperator, hop, Except.map]
    · simp [applyOperator, hop, Except.map, Operator.toNumber_applyPrefix]
  | r :: l :: stack =>
    cases hop : op.isPrefix
    · simp [applyOperator, hop, Except.map, Operator.toNumber_applyBinary]
    · simp [applyOperator, hop, Except.map, Operator.toNumber_applyPrefix]

/-- One cell does the same to the numbers of a stack as to its values, and fails alike. -/
theorem map_step (cell : ToneScript.Cell) :
    (Postfix.step env stack cell).map (List.map Value.toNumber) =
      step (.ofEnvironment env) (stack.map Value.toNumber) (.ofCell cell) := by
  cases cell with
  | value v pos => rfl
  | slot id pos =>
    simp only [Postfix.step, Postfix.readSlot, Cell.ofCell, step, Environment.ofEnvironment]
    cases env.lookup id <;> rfl
  | operator op pos => exact map_applyOperator stack op pos
  | left pos | right pos => rfl
  | call site =>
    simp only [Postfix.step, Cell.ofCell, step, Environment.ofEnvironment]
    cases env.call site <;> rfl

/-- From every stack, the rest of a sequence gives the same number or the same error. -/
theorem map_evalFrom (cells : List ToneScript.Cell) :
    (Postfix.evalFrom env stack cells).map Value.toNumber =
      evalFrom (.ofEnvironment env) (stack.map Value.toNumber) (cells.map .ofCell) := by
  induction cells generalizing stack with
  | nil =>
    match stack with
    | [] | [_] | _ :: _ :: _ => rfl
  | cons cell rest ih =>
    have hstep := map_step env stack cell
    rw [Postfix.evalFrom, List.map_cons, evalFrom, ← hstep]
    cases hresult : Postfix.step env stack cell with
    | error e => rfl
    | ok stack' => exact ih stack'

end Sentinel

/-- Genuine truth values refine the sentinel engine: the number of what an expression evaluates to is what the sentinel
engine gives for the numbers of its literals, variables and calls, and an error is the same at the same place, also
after the place of the expression was filled in. -/
theorem Compiled.evalNumber_eq_sentinel (e : Compiled) (env : Environment) :
    (Postfix.eval env e.cells).map Value.toNumber =
        Sentinel.eval (.ofEnvironment env) (e.cells.map .ofCell) ∧
      e.evalNumber env =
        (Sentinel.eval (.ofEnvironment env) (e.cells.map .ofCell)).mapError (·.orAt e.pos) := by
  have heval : (Postfix.eval env e.cells).map Value.toNumber =
      Sentinel.eval (.ofEnvironment env) (e.cells.map .ofCell) := Sentinel.map_evalFrom env [] e.cells
  refine ⟨heval, ?_⟩
  rw [← heval, Compiled.evalNumber, Compiled.eval]
  cases Postfix.eval env e.cells <;> rfl

end ToneScript
