import ToneScript.Text.NameTable
/-! Types of expressions and of functions. -/
namespace ToneScript

/-- The type of an expression or of a name. -/
inductive Ty where
  | number
  | boolean
  | function (name : Ident)
  /-- Not known, or not known yet. -/
  | indeterminate
deriving DecidableEq, Repr, Inhabited

namespace Ty

/-- Whether a type is known. -/
def isDeterminate : Ty → Bool
  | indeterminate => false
  | _ => true

/-- Whether this is the type of a function. -/
def isFunction : Ty → Bool
  | function _ => true
  | _ => false

/-- Text of a type. -/
def toText (names : NameTable) : Ty → String
  | number => "Number"
  | boolean => "Boolean"
  | function name => "Function(" ++ names.name name ++ ")"
  | indeterminate => "Indeterminate"

end Ty

/-- The type of a function: its parameters with their types, and what it returns. -/
structure FunctionType where
  args : List (Ident × Ty)
  returns : Ty
deriving DecidableEq, Repr, Inhabited

namespace FunctionType

/-- The type of a function that takes numbers only. -/
def ofNumbers (args : List Ident) (returns : Ty) : FunctionType :=
  ⟨args.map fun name => (name, .number), returns⟩

/-- Text of a function type. -/
def toText (names : NameTable) (t : FunctionType) : String :=
  "(" ++ ", ".intercalate (t.args.map fun (name, ty) => names.name name ++ ": " ++ ty.toText names)
    ++ ") -> " ++ t.returns.toText names

end FunctionType
end ToneScript
