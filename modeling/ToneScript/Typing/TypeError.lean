import ToneScript.Diagnostic.Issue
import ToneScript.Token.Operator
import ToneScript.Typing.Ty
/-! Errors of types and of the use of functions. -/
namespace ToneScript

/-- What part an expression plays where its type matters. -/
inductive Role where
  | leftOperand (op : Operator)
  | rightOperand (op : Operator)
  | operand (op : Operator)
  | blockEntry
  | guard
  | condition
  | argument (number : Nat) (callee : Ident)
  | namedArgument (name callee : Ident)
  | shorthand (name : Ident)
deriving DecidableEq, Repr

/-- What is wrong with the types of a program. -/
inductive TypeError where
  | undefinedVariable (name : Ident)
  | undefinedFunction (name : Ident)
  | functionAsValue (name : Ident)
  | mismatch (role : Role) (expected actual : Ty)
  | operandsDiffer (op : Operator) (left right : Ty)
  | branchesDiffer (left right : Ty)
  | cannotAccumulate (op : Operator)
  | cannotUpdate (op : Operator)
  | notAFunction (name : Ident)
  | tooManyArguments (callee : Ident) (expected actual : Nat)
  | missingArgument (callee parameter : Ident)
  | noSuchArgument (callee argument : Ident) (similar : Option String)
  | argumentTwice (callee argument : Ident)
  | noDefault (callee argument : Ident) (op : Operator)
  | undetermined (function : Ident)
  | entryUndefined (name : Ident) (expected : FunctionType)
  | entryNotFunction (name : Ident)
  | entryArity (name : Ident) (expected actual : Nat)
  | entryReturns (name : Ident) (expected actual : Ty)
deriving DecidableEq, Repr

/-- An operator in quotes. -/
def Operator.quoted (op : Operator) : String :=
  "`" ++ op.text ++ "`"

/-- A name in quotes. -/
def NameTable.quoted (names : NameTable) (id : Ident) : String :=
  "`" ++ names.name id ++ "`"

/-- Text of a role. -/
def Role.text (names : NameTable) : Role → String
  | leftOperand op => "left operand of " ++ op.quoted
  | rightOperand op => "right operand of " ++ op.quoted
  | operand op => "operand of " ++ op.quoted
  | blockEntry => "block entry"
  | guard => "guard"
  | condition => "condition"
  | argument n callee => "argument " ++ toString n ++ " of " ++ names.quoted callee
  | namedArgument name callee =>
    "argument " ++ names.quoted name ++ " of " ++ names.quoted callee
  | shorthand name => "variable " ++ names.quoted name

namespace TypeError

/-- Message of an error. -/
def message (names : NameTable) : TypeError → String
  | undefinedVariable name =>
    "variable " ++ names.quoted name ++ " appears in expression but is not defined in scope"
  | undefinedFunction name =>
    "function " ++ names.quoted name ++ " appears in expression but is not defined in scope"
  | functionAsValue name => "function " ++ names.quoted name ++ " cannot be used as a value"
  | mismatch role expected actual =>
    role.text names ++ " must be " ++ expected.toText names ++ ", got " ++ actual.toText names
  | operandsDiffer op left right =>
    "operands of " ++ op.quoted ++ " have different types: " ++ left.toText names ++ " and "
      ++ right.toText names
  | branchesDiffer left right =>
    "branches of conditional have different types: " ++ left.toText names ++ " and "
      ++ right.toText names
  | cannotAccumulate op => "operator " ++ op.quoted ++ " cannot accumulate a block entry"
  | cannotUpdate op => "operator " ++ op.quoted ++ " cannot update an argument"
  | notAFunction name => names.quoted name ++ " is not a function"
  | tooManyArguments callee expected actual =>
    "too many arguments in call to " ++ names.quoted callee ++ ": expected " ++ toString expected
      ++ ", got " ++ toString actual
  | missingArgument callee parameter =>
    "missing argument " ++ names.quoted parameter ++ " in call to " ++ names.quoted callee
  | noSuchArgument callee argument _ =>
    "function " ++ names.quoted callee ++ " has no argument named " ++ names.quoted argument
  | argumentTwice callee argument =>
    "argument " ++ names.quoted argument ++ " given twice in call to " ++ names.quoted callee
  | noDefault callee argument op =>
    "argument " ++ names.quoted argument ++ " of " ++ names.quoted callee
      ++ " has no default to apply " ++ op.quoted ++ "= to"
  | undetermined function => "cannot determine the type of " ++ names.quoted function
  | entryUndefined name _ => "entry point " ++ names.quoted name ++ " is not defined"
  | entryNotFunction name => "entry point " ++ names.quoted name ++ " must be a function"
  | entryArity name expected actual =>
    "entry point " ++ names.quoted name ++ " must take " ++ toString expected
      ++ " argument(s), but takes " ++ toString actual
  | entryReturns name expected actual =>
    "entry point " ++ names.quoted name ++ " must return " ++ expected.toText names
      ++ ", but returns " ++ actual.toText names

/-- Notes of an error. -/
def notes (names : NameTable) : TypeError → List String
  | functionAsValue name => ["call it as `" ++ names.name name ++ "(...)`"]
  | noSuchArgument _ _ similar =>
    similar.toList.map fun name => "did you mean `" ++ name ++ "`?"
  | entryUndefined _ expected => ["expected a function " ++ expected.toText names]
  | _ => []

/-- The issue that reports an error. -/
def toIssue (names : NameTable) (e : TypeError) (pos? : Option Position) : Issue :=
  ⟨.error, pos?, e.message names, e.notes names⟩

end TypeError
end ToneScript
