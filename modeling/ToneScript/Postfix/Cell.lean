import ToneScript.Text.NameTable
import ToneScript.Text.Position
import ToneScript.Value
/-!
Cells of the expression engine, in infix or in operand-first order, and the call sites within them.
-/
namespace ToneScript

/-- How the arguments of a call are matched to parameters. -/
inductive CallStyle where
  | named | ordered
deriving DecidableEq, Repr, Inhabited

mutual

/-- One element of an expression. -/
inductive Cell where
  | value (v : Value) (pos : Position)
  /-- A variable, looked up when the expression is evaluated. -/
  | slot (id : Ident) (pos : Position)
  | operator (op : Operator) (pos : Position)
  | left (pos : Position)
  | right (pos : Position)
  | call (site : CallSite)

/-- A resolved call. -/
structure CallSite where
  callee : Ident
  style : CallStyle
  args : List SiteArgument
  pos : Position

/-- An argument of a call. -/
inductive SiteArgument where
  /-- A name alone: the variable of that name for the parameter of that name. -/
  | shorthand (name : Ident) (value : Compiled) (pos : Position)
  | assign (name : Ident) (value : Compiled) (pos : Position)
  /-- The parameter's default, combined with a value. -/
  | opAssign (name : Ident) (op : Operator) (value : Compiled) (pos : Position)
  | positional (value : Compiled) (pos : Position)

/-- An expression in operand-first order, with the position of its first token. -/
structure Compiled where
  cells : List Cell
  pos : Position

end

deriving instance Repr for Cell, CallSite, SiteArgument, Compiled

instance : Inhabited Compiled := ⟨⟨[], .start⟩⟩
instance : Inhabited CallSite := ⟨⟨0, .ordered, [], .start⟩⟩
instance : Inhabited Cell := ⟨.left .start⟩

namespace SiteArgument

/-- The parameter that an argument names. -/
def name? : SiteArgument → Option Ident
  | shorthand n _ _ | assign n _ _ | opAssign n _ _ _ => some n
  | positional _ _ => none

/-- The value of an argument. -/
def value : SiteArgument → Compiled
  | shorthand _ v _ | assign _ v _ | opAssign _ _ v _ | positional v _ => v

/-- The position of an argument. -/
def pos : SiteArgument → Position
  | shorthand _ _ p | assign _ _ p | opAssign _ _ _ p | positional _ p => p

/-- Whether an argument gives a value to a parameter by name. -/
def isAssignment : SiteArgument → Bool
  | assign .. | opAssign .. => true
  | shorthand .. | positional .. => false

end SiteArgument

namespace Cell

/-- The position of a cell. A call stands where its callee is named. -/
def pos : Cell → Position
  | value _ p | slot _ p | operator _ p | left p | right p => p
  | call site => site.pos

/-- Text of a cell. -/
def toText : Cell → String
  | value v _ => v.toText
  | slot id _ => "$" ++ toString id
  | operator op _ => op.text
  | left _ => "("
  | right _ => ")"
  | call site => "call#" ++ toString site.callee

/-- Whether a cell is a parenthesis. -/
def isParen : Cell → Bool
  | left _ | right _ => true
  | _ => false

/-- Whether a cell is an operand. -/
def isOperand : Cell → Bool
  | value .. | slot .. | call .. => true
  | operator .. | left _ | right _ => false

/-- Text of several cells, separated by blanks. -/
def listText (cells : List Cell) : String :=
  " ".intercalate (cells.map toText)

end Cell
end ToneScript
