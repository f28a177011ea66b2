import ToneScript.Diagnostic.SyntaxError
import ToneScript.Postfix.Cell
/-! From infix to operand-first order, with a stack of operators and parentheses. -/
namespace ToneScript.Postfix

/-- Whether an operator on the stack is applied before an incoming one of two operands. -/
def yields (incoming onStack : Operator) : Bool :=
  match incoming.associativity with
  | .left => incoming.precedence ≤ onStack.precedence
  | .right => incoming.precedence < onStack.precedence

/-- Moves the operators that an incoming one yields to from the stack to the output, which is kept in
reverse. -/
def popYielding (incoming : Operator) : List Cell → List Cell → List Cell × List Cell
  | output, .operator op pos :: stack =>
    if yields incoming op then popYielding incoming (.operator op pos :: output) stack
    else (output, .operator op pos :: stack)
  | output, stack => (output, stack)

/-- Moves everything above the topmost left parenthesis to the output and drops that parenthesis;
nothing if there is none. -/
def popToLeft? : List Cell → List Cell → Option (List Cell × List Cell)
  | _, [] => none
  | output, .left _ :: stack => some (output, stack)
  | output, cell :: stack => popToLeft? (cell :: output) stack

/-- Moves the rest of the stack to the output, which must hold no left parenthesis. -/
def popAll : List Cell → List Cell → Except SyntaxError (List Cell)
  | output, [] => .ok output.reverse
  | _, .left pos :: _ => .error (.located pos .neverClosed)
  | output, cell :: stack => popAll (cell :: output) stack

/-- Converts the rest of an expression, given the output so far in reverse and the stack. -/
def convertFrom : List Cell → List Cell → List Cell → Except SyntaxError (List Cell)
  | output, stack, [] => popAll output stack
  | output, stack, cell :: rest =>
    match cell with
    | .value .. | .slot .. | .call _ => convertFrom (cell :: output) stack rest
    | .operator op _ =>
      if op.isPrefix then convertFrom output (cell :: stack) rest
      else
        let (output, stack) := popYielding op output stack
        convertFrom output (cell :: stack) rest
    | .left _ => convertFrom output (cell :: stack) rest
    | .right pos =>
      match popToLeft? output stack with
      | none => .error (.located pos .closedTooOften)
      | some (output, stack) => convertFrom output stack rest

/-- Converts an expression to operand-first order. Fails only on parentheses that do not match. -/
def convert (infixCells : List Cell) : Except SyntaxError (List Cell) :=
  convertFrom [] [] infixCells

end ToneScript.Postfix
