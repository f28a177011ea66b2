import ToneScript.Outline.OfTokens
import ToneScript.Postfix.Conversion
/-! Expressions by themselves, in which every name is a variable. -/
namespace ToneScript

/-- How an expression by itself treats calls. -/
inductive CallRule where
  /-- Every call is an error. -/
  | refused
  /-- A call keeps its callee and drops its arguments. -/
  | bare
deriving DecidableEq, Repr, Inhabited

/-- The cell of a term. -/
def Term.cell (rule : CallRule) : Term → Except SyntaxError Cell
  | .const v pos => .ok (.value (.number v) pos)
  | .operator op pos => .ok (.operator op pos)
  | .left pos => .ok (.left pos)
  | .right pos => .ok (.right pos)
  | .name id pos => .ok (.slot id pos)
  | .call id _ pos =>
    match rule with
    | .refused => .error (.located pos .callsUnsupported)
    | .bare => .ok (.call ⟨id, .ordered, [], pos⟩)
  | .flawed e => .error e

/-- The cells of an expression in infix order. -/
def Cell.ofTokens (rule : CallRule) (names : NameTable) (endPos : Position) (ts : List Token) :
    Except SyntaxError (List Cell) :=
  if ts = [] then .error ⟨.emptyExpression, none⟩
  else (Term.listOfTokens names endPos false ts).mapM (Term.cell rule)

end ToneScript
