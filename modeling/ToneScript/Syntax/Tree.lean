import ToneScript.Postfix.Cell
/-! Syntax trees of programs. -/
namespace ToneScript

/-- Key of a block: the offset of the bracket that opens it. -/
abbrev BlockKey := UInt64

/-- Key of the outermost block, which no bracket opens. -/
def rootBlock : BlockKey := 0xffffffffffffffff

/-- A parameter of a function, perhaps with a default. -/
structure Param where
  name : Ident
  default? : Option Number
  pos : Position
deriving DecidableEq, Repr, Inhabited

mutual

/-- An expression. -/
inductive Expr where
  | number (value : Number) (pos : Position)
  | boolean (value : Bool) (pos : Position)
  | var (name : Ident) (pos : Position)
  | prefixed (op : Operator) (operand : Expr) (pos : Position)
  | binary (op : Operator) (left right : Expr) (pos : Position)
  /-- Entries that are gathered up into a number, starting from zero. -/
  | block (key : BlockKey) (entries : List BlockEntry) (pos : Position)
  | call (site : CallSite) (args : List Argument)
  | conditional (condition thenBranch elseBranch : Expr) (pos : Position)
  /-- An arithmetic expression with the sequence it was built from. -/
  | span (compiled : Compiled) (tree : Expr)

/-- An entry of a block. -/
inductive BlockEntry where
  /-- Combines a value into the result, if the guard is absent or true. -/
  | operator (op : Operator) (value : Expr) (guard : Option Expr) (pos : Position)
  /-- Defines a function for the entries that follow. -/
  | closure (definition : FunctionDef) (pos : Position)

/-- A function definition. -/
structure FunctionDef where
  name : Ident
  pos : Position
  params : List Param
  /-- Key of the block that holds the parameters. -/
  argsKey : BlockKey
  /-- The blocks around the definition, outermost first. -/
  scope : List BlockKey
  body : Expr

/-- An argument of a call. -/
inductive Argument where
  | shorthand (name : Ident) (pos : Position)
  | assign (name : Ident) (value : Expr) (pos : Position)
  | opAssign (name : Ident) (op : Operator) (value : Expr) (pos : Position)
  | positional (value : Expr) (pos : Position)

end

deriving instance Repr for Expr, BlockEntry, FunctionDef, Argument

instance : Inhabited Expr := ⟨.boolean false .start⟩

namespace Expr

/-- The position of an expression: that of its operator, keyword, bracket, name or literal. -/
def pos : Expr → Position
  | number _ p | boolean _ p | var _ p | prefixed _ _ p | binary _ _ _ p | block _ _ p
  | conditional _ _ _ p => p
  | call site _ => site.pos
  | span _ tree => tree.pos

/-- Whether an expression is a block. -/
def isBlock : Expr → Bool
  | block .. => true
  | _ => false

end Expr

namespace Argument

/-- The parameter that an argument names. -/
def name? : Argument → Option Ident
  | shorthand n _ | assign n _ _ | opAssign n _ _ _ => some n
  | positional _ _ => none

/-- The value that is written out in an argument. -/
def value? : Argument → Option Expr
  | shorthand _ _ => none
  | assign _ v _ | opAssign _ _ v _ | positional v _ => some v

/-- The position of an argument. -/
def pos : Argument → Position
  | shorthand _ p | assign _ _ p | opAssign _ _ _ p | positional _ p => p

end Argument

namespace FunctionDef

/-- The blocks that a body is in: those around the definition and that of the parameters. -/
def bodyScope (f : FunctionDef) : List BlockKey :=
  f.scope ++ [f.argsKey]

/-- The block that a function is defined in. -/
def block (f : FunctionDef) : BlockKey :=
  f.scope.getLastD rootBlock

end FunctionDef

/-- A definition at the outermost level. -/
inductive Item where
  | function (definition : FunctionDef) (pos : Position)
  | assignment (name : Ident) (value : Expr) (pos : Position)
deriving Repr

/-- The items of a program in order. -/
abbrev Program := List Item

mutual

/-- Drops the sequences that arithmetic expressions were built from and keeps their trees. -/
def Expr.strip : Expr → Expr
  | .number v p => .number v p
  | .boolean v p => .boolean v p
  | .var n p => .var n p
  | .prefixed op x p => .prefixed op x.strip p
  | .binary op l r p => .binary op l.strip r.strip p
  | .block key entries p => .block key (BlockEntry.stripAll entries) p
  | .call site args => .call site args
  | .conditional c t e p => .conditional c.strip t.strip e.strip p
  | .span _ tree => tree.strip

/-- Drops the sequences in an entry. -/
def BlockEntry.strip : BlockEntry → BlockEntry
  | .operator op value guard p => .operator op value.strip (Expr.stripOption guard) p
  | .closure definition p => .closure definition.strip p

/-- Drops the sequences in a list of entries. -/
def BlockEntry.stripAll : List BlockEntry → List BlockEntry
  | [] => []
  | e :: es => e.strip :: BlockEntry.stripAll es

/-- Drops the sequences in an expression that may be absent. -/
def Expr.stripOption : Option Expr → Option Expr
  | none => none
  | some e => some e.strip

/-- Drops the sequences in the body of a function. -/
def FunctionDef.strip : FunctionDef → FunctionDef
  | ⟨name, pos, params, argsKey, scope, body⟩ => ⟨name, pos, params, argsKey, scope, body.strip⟩

end

/-- Drops the sequences in an item. -/
def Item.strip : Item → Item
  | .function definition p => .function definition.strip p
  | .assignment name value p => .assignment name value.strip p

mutual

/-- The keys of the blocks in an expression, outside the arguments of calls. -/
def Expr.blockKeys : Expr → List BlockKey
  | .block key entries _ => key :: BlockEntry.blockKeysOfAll entries
  | .conditional c t e _ => c.blockKeys ++ t.blockKeys ++ e.blockKeys
  | .number .. | .boolean .. | .var .. | .prefixed .. | .binary .. | .call .. | .span .. => []

/-- The keys of the blocks in an entry. -/
def BlockEntry.blockKeys : BlockEntry → List BlockKey
  | .operator _ value guard _ => value.blockKeys ++ Expr.blockKeysOfOption guard
  | .closure definition _ => definition.blockKeys

/-- The keys of the blocks in a list of entries. -/
def BlockEntry.blockKeysOfAll : List BlockEntry → List BlockKey
  | [] => []
  | e :: es => e.blockKeys ++ BlockEntry.blockKeysOfAll es

/-- The keys of the blocks in an expression that may be absent. -/
def Expr.blockKeysOfOption : Option Expr → List BlockKey
  | none => []
  | some e => e.blockKeys

/-- The key of the parameters of a function and those of the blocks in its body. -/
def FunctionDef.blockKeys : FunctionDef → List BlockKey
  | ⟨_, _, _, argsKey, _, body⟩ => argsKey :: body.blockKeys

end

/-- The keys of the blocks in an item. -/
def Item.blockKeys : Item → List BlockKey
  | .function definition _ => definition.blockKeys
  | .assignment _ value _ => value.blockKeys

end ToneScript
