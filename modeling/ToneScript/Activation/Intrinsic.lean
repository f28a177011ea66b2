import ToneScript.Text.NameTable
import ToneScript.Value
/-! Functions and constants that every program has. -/
namespace ToneScript

/-- A function that every program has. -/
inductive Intrinsic where
  | sin | cos | tan | abs | floor | sqrt | exp | ln | min | max
deriving DecidableEq, Repr, Inhabited

namespace Intrinsic

/-- All of them, in the order of their definition. -/
def all : List Intrinsic :=
  [sin, cos, tan, abs, floor, sqrt, exp, ln, min, max]

/-- The name of a function. -/
def name : Intrinsic → String
  | sin => "sin"
  | cos => "cos"
  | tan => "tan"
  | abs => "abs"
  | floor => "floor"
  | sqrt => "sqrt"
  | exp => "exp"
  | ln => "ln"
  | min => "min"
  | max => "max"

/-- The names of the parameters. -/
def paramNames : Intrinsic → List String
  | min | max => ["a", "b"]
  | _ => ["x"]

/-- A function of double precision, rounded to single precision. -/
def rounded (f : Float → Float) (x : Number) : Number :=
  (f x.toFloat).toFloat32

/-- The value of a function of one number. -/
def applyUnary (i : Intrinsic) (x : Number) : Number :=
  match i with
  | sin => rounded Float.sin x
  | cos => rounded Float.cos x
  | tan => rounded Float.tan x
  | abs => x.abs
  | floor => x.floor
  | sqrt => x.sqrt
  | exp => rounded Float.exp x
  | ln => rounded Float.log x
  | min | max => x

/-- The value of a function. Arguments that are not there count as zero. -/
def apply (i : Intrinsic) (args : List Value) : Value :=
  let arg (n : Nat) : Number := (args[n]?.map Value.toNumber).getD 0
  match i with
  | min => .number (Number.least (arg 0) (arg 1))
  | max => .number (Number.greatest (arg 0) (arg 1))
  | i => .number (i.applyUnary (arg 0))

end Intrinsic

/-- The number nearest to the ratio of a circle to its diameter. -/
def Number.pi : Number := Float32.ofBits 0x40490fdb

/-- The constants that every program has, in the order of their definition. -/
def intrinsicConstants : List (String × Value) :=
  [("pi", .number Number.pi), ("tau", .number (2 * Number.pi)), ("true", .boolean true),
    ("false", .boolean false)]

end ToneScript
