import ToneScript.Syntax.Tree
import ToneScript.Typing.Ty
/-! Signatures of functions, and the table of all functions of a program. -/
namespace ToneScript

/-- What a call needs to know of a function. -/
structure Signature where
  type : FunctionType
  /-- The defaults of the parameters, in order. -/
  defaults : List (Option Number)
  /-- Whether the body has no type. -/
  failed : Bool
deriving DecidableEq, Repr, Inhabited

namespace Signature

/-- The signature of a function whose result is not known yet. -/
def provisional (f : FunctionDef) : Signature :=
  { type := .ofNumbers (f.params.map Param.name) .indeterminate
    defaults := f.params.map Param.default?
    failed := false }

/-- The signature of a function that is there from the start. -/
def ofBuiltin (type : FunctionType) : Signature :=
  { type, defaults := type.args.map fun _ => none, failed := false }

/-- Number of parameters. -/
def arity (s : Signature) : Nat :=
  s.type.args.length

/-- The place of a parameter. -/
def indexOf? (s : Signature) (name : Ident) : Option Nat :=
  s.type.args.findIdx? (·.1 == name)

end Signature

/-- The block that holds a function and its name. -/
abbrev FunctionKey := BlockKey × Ident

/-- How far the signature of a function is known. -/
inductive Progress where
  | pending
  /-- The body is being checked. -/
  | active
  | resolved (signature : Signature)
deriving DecidableEq, Repr, Inhabited

/-- A function and how far its signature is known. A function that is there from the start has no
definition. -/
structure FunctionInfo where
  definition? : Option FunctionDef
  progress : Progress
deriving Repr, Inhabited

/-- All functions in ascending order of their keys. -/
abbrev FunctionTable := List (FunctionKey × FunctionInfo)

/-- The key of a function. -/
def FunctionDef.key (f : FunctionDef) : FunctionKey :=
  (f.block, f.name)

/-- Whether a key comes before another: first by block, with the outermost last, then by name. -/
def FunctionKey.before (a b : FunctionKey) : Bool :=
  a.1 < b.1 || (a.1 == b.1 && a.2 < b.2)

namespace FunctionTable

/-- Adds a function in its place, or replaces the one with its key. -/
def insert (key : FunctionKey) (info : FunctionInfo) : FunctionTable → FunctionTable
  | [] => [(key, info)]
  | entry :: entries =>
    if key == entry.1 then (key, info) :: entries
    else if key.before entry.1 then (key, info) :: entry :: entries
    else entry :: FunctionTable.insert key info entries

/-- The signature of a function, if it is known. -/
def signature? (t : FunctionTable) (key : FunctionKey) : Option Signature :=
  match t.lookup key with
  | some ⟨_, .resolved s⟩ => some s
  | _ => none

/-- Notes how far the signature of a function is known. -/
def setProgress (t : FunctionTable) (key : FunctionKey) (progress : Progress) : FunctionTable :=
  t.map fun entry => if entry.1 == key then (key, { entry.2 with progress }) else entry

end FunctionTable

mutual

/-- The functions defined in an expression, outside the guards of blocks. -/
def Expr.definitions : Expr → List FunctionDef
  | .block _ entries _ => BlockEntry.definitionsOfAll entries
  | .conditional c t e _ => c.definitions ++ t.definitions ++ e.definitions
  | .number .. | .boolean .. | .var .. | .prefixed .. | .binary .. | .call .. | .span .. => []

/-- The functions defined in an entry of a block, outside its guard. -/
def BlockEntry.definitions : BlockEntry → List FunctionDef
  | .operator _ value _ _ => value.definitions
  | .closure definition _ => definition.definitions

/-- The functions defined in the entries of a block. -/
def BlockEntry.definitionsOfAll : List BlockEntry → List FunctionDef
  | [] => []
  | e :: es => e.definitions ++ BlockEntry.definitionsOfAll es

/-- A function and those defined in its body. -/
def FunctionDef.definitions : FunctionDef → List FunctionDef
  | ⟨name, pos, params, argsKey, scope, body⟩ =>
    ⟨name, pos, params, argsKey, scope, body⟩ :: body.definitions

end

/-- The functions defined in an item. -/
def Item.definitions : Item → List FunctionDef
  | .function definition _ => definition.definitions
  | .assignment _ value _ => value.definitions

end ToneScript
