import ToneScript.Diagnostic.SyntaxError
import ToneScript.Syntax.Tree
/-! Rebuilding the tree of an expression from its operand-first sequence. -/
namespace ToneScript

namespace Expr

/-- The literal of a value. -/
def ofValue (v : Value) (pos : Position) : Expr :=
  match v with
  | .number x => .number x pos
  | .boolean b => .boolean b pos

/-- Puts an operator on top of the trees of its operands. -/
def applyOperator (op : Operator) (pos : Position) (stack : List Expr) :
    Except SyntaxError (List Expr) :=
  if op.isPrefix then
    match stack with
    | x :: stack => .ok (.prefixed op x pos :: stack)
    | [] => .error (.located pos .tooFewOperands)
  else
    match stack with
    | r :: l :: stack => .ok (.binary op l r pos :: stack)
    | _ => .error (.located pos .tooFewOperands)

/-- The tree that a stack holds at the end: its only one. -/
def finish (pos : Position) : List Expr → Except SyntaxError Expr
  | [e] => .ok e
  | [] => .error (.located pos .noOperand)
  | _ => .error (.located pos .tooManyOperands)

end Expr

mutual

/-- The tree of an expression, which keeps the sequence. -/
def Compiled.toExpr : Compiled → Except SyntaxError Expr
  | ⟨cells, pos⟩ => do
    let stack ← Cell.toTrees [] cells
    let tree ← Expr.finish pos stack
    return .span ⟨cells, pos⟩ tree

/-- The trees that a stack holds after the rest of a sequence. -/
def Cell.toTrees : List Expr → List Cell → Except SyntaxError (List Expr)
  | stack, [] => .ok stack
  | stack, cell :: rest =>
    match cell with
    | .value v pos => Cell.toTrees (.ofValue v pos :: stack) rest
    | .slot id pos => Cell.toTrees (.var id pos :: stack) rest
    | .call site => do
      let tree ← site.toExpr
      Cell.toTrees (tree :: stack) rest
    | .operator op pos => do
      let stack ← Expr.applyOperator op pos stack
      Cell.toTrees stack rest
    | .left pos => .error (.located pos .parenthesisInSequence)
    | .right pos => .error (.located pos .parenthesisInSequence)

/-- The tree of a call. -/
def CallSite.toExpr : CallSite → Except SyntaxError Expr
  | ⟨callee, style, args, pos⟩ => do
    let trees ← SiteArgument.toArguments args
    return .call ⟨callee, style, args, pos⟩ trees

/-- The trees of the arguments of a call. -/
def SiteArgument.toArguments : List SiteArgument → Except SyntaxError (List Argument)
  | [] => .ok []
  | arg :: args => do
    let tree ← arg.toArgument
    let trees ← SiteArgument.toArguments args
    return tree :: trees

/-- The tree of an argument. A name alone has no value of its own. -/
def SiteArgument.toArgument : SiteArgument → Except SyntaxError Argument
  | .shorthand name _ pos => .ok (.shorthand name pos)
  | .assign name value pos => do
    let tree ← value.toExpr
    return .assign name tree pos
  | .opAssign name op value pos => do
    let tree ← value.toExpr
    return .opAssign name op tree pos
  | .positional value pos => do
    let tree ← value.toExpr
    return .positional tree pos

end
end ToneScript
