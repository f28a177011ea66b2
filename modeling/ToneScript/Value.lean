import ToneScript.Number.Text
import ToneScript.Token.Operator
/-! Values and what operators do to them. -/
namespace ToneScript

/-- A value: a number or a truth value. -/
inductive Value where
  | number (x : Number)
  | boolean (b : Bool)
deriving DecidableEq, Repr

instance : Inhabited Value := ⟨.boolean false⟩

namespace Value

/-- The number that stands for a truth value: one for true, minus one for false. -/
def sentinel (b : Bool) : Number :=
  if b then 1 else -1

/-- A number counts as true when it is greater than zero. -/
def isPositive (x : Number) : Bool :=
  0 < x

/-- Whether a value counts as true. -/
def truthy : Value → Bool
  | number x => isPositive x
  | boolean b => b

/-- The number of a value; truth values become sentinels. -/
def toNumber : Value → Number
  | number x => x
  | boolean b => sentinel b

/-- Text of a value. -/
def toText : Value → String
  | number x => x.toText
  | boolean b => if b then "true" else "false"

/-- Whether two values are equal as the program sees it: truth values by themselves, all others by
their numbers. -/
def same : Value → Value → Bool
  | boolean a, boolean b => a == b
  | a, b => a.toNumber == b.toNumber

end Value

namespace Number

/-- Remainder with the sign of the left operand, from the fraction of the absolute quotient. It is NaN
for a zero divisor. -/
def modulo (l r : Number) : Number :=
  let q := (l / r).abs
  let c := (q - q.floor) * r.abs
  if 0 < l then c else -c

/-- Power, rounded once from double precision. -/
def power (l r : Number) : Number :=
  (l.toFloat ^ r.toFloat).toFloat32

/-- Difference below which two numbers are approximately equal. -/
def tolerance : Number := 0.0001

/-- Whether two numbers are approximately equal. -/
def near (l r : Number) : Bool :=
  (l - r).abs < tolerance

/-- The lesser of two numbers, the first unless the second is less. -/
def least (a b : Number) : Number :=
  if b < a then b else a

/-- The greater of two numbers, the first unless it is less. -/
def greatest (a b : Number) : Number :=
  if a < b then b else a

end Number

namespace Operator

/-- The value of a binary operation. A prefix operator in this place leaves its left operand. -/
def applyBinary (op : Operator) (left right : Value) : Value :=
  let l := left.toNumber
  let r := right.toNumber
  match op with
  | and => .boolean (left.truthy && right.truthy)
  | or => .boolean (left.truthy || right.truthy)
  | xor => .boolean (left.truthy != right.truthy)
  | equ => .boolean (left.same right)
  | notEqu => .boolean (!left.same right)
  | add => .number (l + r)
  | sub => .number (l - r)
  | mul => .number (l * r)
  | div => .number (l / r)
  | mod => .number (Number.modulo l r)
  | exp => .number (Number.power l r)
  | less => .boolean (l < r)
  | greater => .boolean (r < l)
  | lessEqual => .boolean (l ≤ r)
  | greaterEqual => .boolean (r ≤ l)
  | approxEqu => .boolean (Number.near l r)
  | neg | not => left

/-- The value of a prefix operation. Every operator but the logical one negates. -/
def applyPrefix (op : Operator) (operand : Value) : Value :=
  match op with
  | not => .boolean (!operand.truthy)
  | _ => .number (-operand.toNumber)

end Operator
end ToneScript
