/-! Operators of expressions. -/
namespace ToneScript

/-- An operator. `neg` is the minus sign before an operand, which shares its text with `sub`. -/
inductive Operator where
  | add | sub | mul | div | mod | exp | neg
  | less | greater | lessEqual | greaterEqual
  | equ | notEqu | approxEqu
  | not | and | or | xor
deriving DecidableEq, Repr, Inhabited

/-- The side from which operators of one precedence group. -/
inductive Associativity where
  | left | right
deriving DecidableEq, Repr

namespace Operator

/-- Binding strength; a greater one binds more tightly. -/
def precedence : Operator → Nat
  | and | or | xor => 10
  | equ | notEqu | approxEqu => 20
  | less | greater | lessEqual | greaterEqual => 30
  | add | sub => 40
  | mul | div | mod => 50
  | neg | not | exp => 60

/-- Only the power operator groups from the right. -/
def associativity : Operator → Associativity
  | exp => .right
  | _ => .left

/-- Whether the operator stands before its only operand. -/
def isPrefix : Operator → Bool
  | neg | not => true
  | _ => false

/-- Number of operands. -/
def arity (op : Operator) : Nat :=
  if op.isPrefix then 1 else 2

/-- The text of an operator in a source. -/
def text : Operator → String
  | add => "+"
  | sub | neg => "-"
  | mul => "*"
  | div => "/"
  | mod => "%"
  | exp => "^"
  | less => "<"
  | greater => ">"
  | lessEqual => "<="
  | greaterEqual => ">="
  | equ => "=="
  | notEqu => "!="
  | approxEqu => "~="
  | not => "!"
  | and => "&&"
  | or => "||"
  | xor => "^^"

/-- The operators that texts stand for; a minus sign is read as a subtraction. -/
def lexical : List Operator :=
  [add, sub, mul, div, mod, exp, less, greater, lessEqual, greaterEqual, equ, notEqu, approxEqu, not,
    and, or, xor]

/-- The operator with this text. -/
def ofText? (s : String) : Option Operator :=
  lexical.find? (·.text == s)

end Operator
end ToneScript
