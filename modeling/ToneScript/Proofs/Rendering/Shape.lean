import ToneScript.Proofs.Arithmetic.Grammar

/-! Programs without places. A shape is what is left of a tree without positions, keys of blocks and the sequences of
arithmetic expressions. It can be written out as tokens, and names are looked up in it without a table. -/
namespace ToneScript

/-- A constant with its sign. -/
structure Literal where
  negative : Bool := false
  magnitude : Number

/-- The number that a constant with its sign stands for. -/
def Literal.value (l : Literal) : Number :=
  if l.negative then -l.magnitude else l.magnitude

/-- A parameter without its place. -/
structure ParamShape where
  name : Ident
  default? : Option Literal := none

mutual

/-- An expression without its place. -/
inductive Shape where
  | number (value : Number)
  | boolean (value : Bool)
  | var (name : Ident)
  | prefixed (op : Operator) (operand : Shape)
  | binary (op : Operator) (left right : Shape)
  | block (entries : List EntryShape)
  | call (callee : Ident) (style : CallStyle) (args : List ArgumentShape)
  | conditional (condition thenBranch elseBranch : Shape)

/-- An entry of a block without its place. -/
inductive EntryShape where
  | operator (op : Operator) (value : Shape) (guard : Option Shape)
  | closure (definition : FunctionShape)

/-- A function definition without its place. -/
structure FunctionShape where
  name : Ident
  params : List ParamShape
  body : Shape

/-- An argument of a call without its place. -/
inductive ArgumentShape where
  | shorthand (name : Ident)
  | assign (name : Ident) (value : Shape)
  | opAssign (name : Ident) (op : Operator) (value : Shape)
  | positional (value : Shape)

end

/-- A definition at the outermost level without its place. -/
inductive ItemShape where
  | function (definition : FunctionShape)
  | assignment (name : Ident) (value : Shape)

/-! ### The shape of a tree -/

/-- The shape of a parameter. -/
def Param.shape (p : Param) : ParamShape :=
  ⟨p.name, p.default?.map fun v => ⟨false, v⟩⟩

mutual

/-- The shape of an expression. -/
def Expr.shape : Expr → Shape
  | .number v _ => .number v
  | .boolean b _ => .boolean b
  | .var x _ => .var x
  | .prefixed op operand _ => .prefixed op operand.shape
  | .binary op left right _ => .binary op left.shape right.shape
  | .block _ entries _ => .block (BlockEntry.shapes entries)
  | .call site args => .call site.callee site.style (Argument.shapes args)
  | .conditional c t e _ => .conditional c.shape t.shape e.shape
  | .span _ tree => tree.shape

/-- The shape of an entry. -/
def BlockEntry.shape : BlockEntry → EntryShape
  | .operator op value guard _ => .operator op value.shape (Expr.optionShape guard)
  | .closure definition _ => .closure definition.shape

/-- The shapes of entries. -/
def BlockEntry.shapes : List BlockEntry → List EntryShape
  | [] => []
  | entry :: entries => entry.shape :: BlockEntry.shapes entries

/-- The shape of an expression that may be absent. -/
def Expr.optionShape : Option Expr → Option Shape
  | none => none
  | some e => some e.shape

/-- The shape of a function definition. -/
def FunctionDef.shape : FunctionDef → FunctionShape
  | ⟨name, _, params, _, _, body⟩ => ⟨name, params.map Param.shape, body.shape⟩

/-- The shape of an argument. -/
def Argument.shape : Argument → ArgumentShape
  | .shorthand x _ => .shorthand x
  | .assign x value _ => .assign x value.shape
  | .opAssign x op value _ => .opAssign x op value.shape
  | .positional value _ => .positional value.shape

/-- The shapes of arguments. -/
def Argument.shapes : List Argument → List ArgumentShape
  | [] => []
  | arg :: args => arg.shape :: Argument.shapes args

end

/-- The shape of an item. -/
def Item.shape : Item → ItemShape
  | .function definition _ => .function definition.shape
  | .assignment name value _ => .assignment name value.shape

/-! ### Names in a shape -/

/-- What a name is declared as. -/
structure Meaning where
  isFunction : Bool := false
  /-- The value of a built-in constant. -/
  value? : Option Value := none

/-- What the names of each block are declared as, the innermost block first. -/
abbrev Naming := List (Ident → Option Meaning)

namespace Naming

/-- What a name is declared as in the innermost block that declares it. -/
def find? (n : Naming) (x : Ident) : Option Meaning :=
  n.findSome? (· x)

/-- Whether a name is not declared in the innermost block yet. -/
def IsNew (n : Naming) (x : Ident) : Prop :=
  ∀ block ∈ n.head?, block x = none

/-- Declares a name in the innermost block. -/
def declare (x : Ident) (m : Meaning) : Naming → Naming
  | [] => []
  | block :: n => (fun y => if y = x then some m else block y) :: n

/-- Enters a block without declarations. -/
def enter (n : Naming) : Naming :=
  (fun _ => none) :: n

/-- Enters a block in which some names are declared as parameters. -/
def enterParams (n : Naming) (params : List ParamShape) : Naming :=
  (fun x => if x ∈ params.map ParamShape.name then some {} else none) :: n

end Naming

/-- What is declared after an entry. -/
def EntryShape.declares : EntryShape → Naming → Naming
  | .operator .., n => n
  | .closure f, n => n.declare f.name { isFunction := true }

/-- What is declared after an item. -/
def ItemShape.declares : ItemShape → Naming → Naming
  | .function f, n => n.declare f.name { isFunction := true }
  | .assignment x _, n => n.declare x {}

/-- Whether an argument gives a value to a parameter by name. -/
def ArgumentShape.isAssignment : ArgumentShape → Bool
  | .assign .. | .opAssign .. => true
  | .shorthand _ | .positional _ => false

/-- Whether an argument names a parameter. -/
def ArgumentShape.isNamed : ArgumentShape → Bool
  | .shorthand _ | .assign .. | .opAssign .. => true
  | .positional _ => false

/-- Whether a call of a style can have the given arguments. One of a named call is assigned. -/
def CallStyle.Admits : CallStyle → List ArgumentShape → Prop
  | .named, args => args.any ArgumentShape.isAssignment = true ∧ ∀ arg ∈ args, arg.isNamed = true
  | .ordered, args => ∀ arg ∈ args, arg.isNamed = false

/-- Whether an expression is a conditional. -/
def Shape.isConditional : Shape → Bool
  | .conditional .. => true
  | _ => false

/-- Whether an expression is a block. -/
def Shape.isBlock : Shape → Bool
  | .block _ => true
  | _ => false

section

variable (n : Naming)

mutual

/-- Whether a shape is that of an arithmetic expression whose names are declared. -/
def Shape.Formula : Shape → Prop
  | .number _ => True
  | .var x => (n.find? x).isSome = true
  | .prefixed op operand => op.isPrefix = true ∧ operand.Formula
  | .binary op left right => op.isPrefix = false ∧ left.Formula ∧ right.Formula
  | .call callee style args =>
    (n.find? callee).any Meaning.isFunction = true ∧ style.Admits args ∧ ArgumentShape.AllFormula args
  | .boolean _ | .block _ | .conditional .. => False

/-- Whether the value of an argument is an arithmetic expression whose names are declared. The value of a name alone
is that of the variable of this name. -/
def ArgumentShape.Formula : ArgumentShape → Prop
  | .shorthand x => (n.find? x).isSome = true
  | .assign _ value => value.Formula
  | .opAssign _ op value => op ≠ .neg ∧ value.Formula
  | .positional value => value.Formula

/-- Whether the values of arguments are arithmetic expressions whose names are declared. -/
def ArgumentShape.AllFormula : List ArgumentShape → Prop
  | [] => True
  | arg :: args => arg.Formula ∧ ArgumentShape.AllFormula args

end

end

mutual

/-- Whether the names in an expression are declared before they are used, each once in a block. The condition of a
conditional is no conditional. -/
def Shape.Valid (n : Naming) : Shape → Prop
  | .conditional condition thenBranch elseBranch =>
    condition.isConditional = false ∧ condition.Valid n ∧ thenBranch.Valid n ∧ elseBranch.Valid n
  | .block entries => EntryShape.AllValid n.enter entries
  | s => s.Formula n

/-- Whether the names in an entry are declared before they are used. -/
def EntryShape.Valid (n : Naming) : EntryShape → Prop
  | .operator op value guard => op ≠ .neg ∧ value.Valid n ∧ Shape.OptionValid n guard
  | .closure f => f.Valid n

/-- Whether the names in entries are declared before they are used. -/
def EntryShape.AllValid (n : Naming) : List EntryShape → Prop
  | [] => True
  | entry :: entries => entry.Valid n ∧ EntryShape.AllValid (entry.declares n) entries

/-- Whether the names in an expression that may be absent are declared before they are used. -/
def Shape.OptionValid (n : Naming) : Option Shape → Prop
  | none => True
  | some s => s.Valid n

/-- Whether a function is a new name, and the names in its body are declared before they are used. -/
def FunctionShape.Valid (n : Naming) : FunctionShape → Prop
  | ⟨name, params, body⟩ =>
    n.IsNew name ∧ (params.map ParamShape.name).Nodup ∧
      body.Valid ((n.declare name { isFunction := true }).enterParams params)

end

/-- Whether an item declares a new name, and the names in it are declared before they are used. -/
def ItemShape.Valid (n : Naming) : ItemShape → Prop
  | .function f => f.Valid n
  | .assignment x value => n.IsNew x ∧ value.Valid n

/-- Whether the items of a program declare new names, and names are declared before they are used. -/
def ItemShape.AllValid (n : Naming) : List ItemShape → Prop
  | [] => True
  | item :: items => item.Valid n ∧ ItemShape.AllValid (item.declares n) items

/-! ### Deciding validity -/

instance (n : Naming) (x : Ident) : Decidable (n.IsNew x) :=
  inferInstanceAs (Decidable (∀ block ∈ n.head?, block x = none))

instance : (style : CallStyle) → (args : List ArgumentShape) → Decidable (style.Admits args)
  | .named, args =>
    inferInstanceAs (Decidable (args.any ArgumentShape.isAssignment = true ∧ ∀ arg ∈ args, arg.isNamed = true))
  | .ordered, args => inferInstanceAs (Decidable (∀ arg ∈ args, arg.isNamed = false))

section

variable (n : Naming)

mutual

/-- Decides whether a shape is that of an arithmetic expression. -/
def Shape.decideFormula : (s : Shape) → Decidable (s.Formula n)
  | .number _ => .isTrue trivial
  | .var x => inferInstanceAs (Decidable ((n.find? x).isSome = true))
  | .prefixed op operand =>
    have := operand.decideFormula
    inferInstanceAs (Decidable (op.isPrefix = true ∧ operand.Formula n))
  | .binary op left right =>
    have := left.decideFormula
    have := right.decideFormula
    inferInstanceAs (Decidable (op.isPrefix = false ∧ left.Formula n ∧ right.Formula n))
  | .call callee style args =>
    have := ArgumentShape.decideAllFormula args
    inferInstanceAs (Decidable ((n.find? callee).any Meaning.isFunction = true ∧ style.Admits args ∧
      ArgumentShape.AllFormula n args))
  | .boolean _ | .block _ | .conditional .. => .isFalse id

/-- Decides whether the value of an argument is an arithmetic expression. -/
def ArgumentShape.decideFormula : (arg : ArgumentShape) → Decidable (arg.Formula n)
  | .shorthand x => inferInstanceAs (Decidable ((n.find? x).isSome = true))
  | .assign _ value => value.decideFormula
  | .opAssign _ op value =>
    have := value.decideFormula
    inferInstanceAs (Decidable (op ≠ .neg ∧ value.Formula n))
  | .positional value => value.decideFormula

/-- Decides whether the values of arguments are arithmetic expressions. -/
def ArgumentShape.decideAllFormula : (args : List ArgumentShape) → Decidable (ArgumentShape.AllFormula n args)
  | [] => .isTrue trivial
  | arg :: args =>
    have := arg.decideFormula
    have := ArgumentShape.decideAllFormula args
    inferInstanceAs (Decidable (arg.Formula n ∧ ArgumentShape.AllFormula n args))

end

end

mutual

/-- Decides whether an expression is valid. -/
def Shape.decideValid (n : Naming) : (s : Shape) → Decidable (s.Valid n)
  | .conditional condition thenBranch elseBranch =>
    have := condition.decideValid n
    have := thenBranch.decideValid n
    have := elseBranch.decideValid n
    inferInstanceAs (Decidable (condition.isConditional = false ∧ condition.Valid n ∧ thenBranch.Valid n ∧
      elseBranch.Valid n))
  | .block entries => EntryShape.decideAllValid n.enter entries
  | .number v => Shape.decideFormula n (.number v)
  | .boolean b => Shape.decideFormula n (.boolean b)
  | .var x => Shape.decideFormula n (.var x)
  | .prefixed op operand => Shape.decideFormula n (.prefixed op operand)
  | .binary op left right => Shape.decideFormula n (.binary op left right)
  | .call callee style args => Shape.decideFormula n (.call callee style args)

/-- Decides whether an entry is valid. -/
def EntryShape.decideValid (n : Naming) : (entry : EntryShape) → Decidable (entry.Valid n)
  | .operator op value guard =>
    have := value.decideValid n
    have := Shape.decideOptionValid n guard
    inferInstanceAs (Decidable (op ≠ .neg ∧ value.Valid n ∧ Shape.OptionValid n guard))
  | .closure f => f.decideValid n

/-- Decides whether entries are valid. -/
def EntryShape.decideAllValid (n : Naming) : (entries : List EntryShape) → Decidable (EntryShape.AllValid n entries)
  | [] => .isTrue trivial
  | entry :: entries =>
    have := entry.decideValid n
    have := EntryShape.decideAllValid (entry.declares n) entries
    inferInstanceAs (Decidable (entry.Valid n ∧ EntryShape.AllValid (entry.declares n) entries))

/-- Decides whether an expression that may be absent is valid. -/
def Shape.decideOptionValid (n : Naming) : (guard : Option Shape) → Decidable (Shape.OptionValid n guard)
  | none => .isTrue trivial
  | some s => s.decideValid n

/-- Decides whether a function is valid. -/
def FunctionShape.decideValid (n : Naming) : (f : FunctionShape) → Decidable (f.Valid n)
  | ⟨name, params, body⟩ =>
    have := body.decideValid ((n.declare name { isFunction := true }).enterParams params)
    inferInstanceAs (Decidable (n.IsNew name ∧ (params.map ParamShape.name).Nodup ∧
      body.Valid ((n.declare name { isFunction := true }).enterParams params)))

end

instance (n : Naming) : (item : ItemShape) → Decidable (item.Valid n)
  | .function f => f.decideValid n
  | .assignment x value =>
    have := value.decideValid n
    inferInstanceAs (Decidable (n.IsNew x ∧ value.Valid n))

instance instDecidableAllValid (n : Naming) : (items : List ItemShape) → Decidable (ItemShape.AllValid n items)
  | [] => .isTrue trivial
  | item :: items =>
    have := instDecidableAllValid (item.declares n) items
    inferInstanceAs (Decidable (item.Valid n ∧ ItemShape.AllValid (item.declares n) items))

/-! ### Constants in a shape -/

/-- The literal of a value. -/
def Shape.ofValue : Value → Shape
  | .number v => .number v
  | .boolean b => .boolean b

/-- A parameter with its default as a number. -/
def ParamShape.fold (p : ParamShape) : ParamShape :=
  ⟨p.name, p.default?.map fun l => ⟨false, l.value⟩⟩

mutual

/-- An expression with built-in constants in place of their names. -/
def Shape.fold (n : Naming) : Shape → Shape
  | .number v => .number v
  | .boolean b => .boolean b
  | .var x =>
    match (n.find? x).bind Meaning.value? with
    | some v => .ofValue v
    | none => .var x
  | .prefixed op operand => .prefixed op (operand.fold n)
  | .binary op left right => .binary op (left.fold n) (right.fold n)
  | .block entries => .block (EntryShape.foldAll n.enter entries)
  | .call callee style args => .call callee style (ArgumentShape.foldAll n args)
  | .conditional c t e => .conditional (c.fold n) (t.fold n) (e.fold n)

/-- An entry with built-in constants in place of their names. -/
def EntryShape.fold (n : Naming) : EntryShape → EntryShape
  | .operator op value guard => .operator op (value.fold n) (Shape.foldOption n guard)
  | .closure f => .closure (f.fold n)

/-- Entries with built-in constants in place of their names. -/
def EntryShape.foldAll (n : Naming) : List EntryShape → List EntryShape
  | [] => []
  | entry :: entries => entry.fold n :: EntryShape.foldAll (entry.declares n) entries

/-- An expression that may be absent, with built-in constants in place of their names. -/
def Shape.foldOption (n : Naming) : Option Shape → Option Shape
  | none => none
  | some s => some (s.fold n)

/-- A function with built-in constants in place of their names. -/
def FunctionShape.fold (n : Naming) : FunctionShape → FunctionShape
  | ⟨name, params, body⟩ =>
    ⟨name, params.map ParamShape.fold,
      body.fold ((n.declare name { isFunction := true }).enterParams params)⟩

/-- An argument with built-in constants in place of their names. -/
def ArgumentShape.fold (n : Naming) : ArgumentShape → ArgumentShape
  | .shorthand x => .shorthand x
  | .assign x value => .assign x (value.fold n)
  | .opAssign x op value => .opAssign x op (value.fold n)
  | .positional value => .positional (value.fold n)

/-- Arguments with built-in constants in place of their names. -/
def ArgumentShape.foldAll (n : Naming) : List ArgumentShape → List ArgumentShape
  | [] => []
  | arg :: args => arg.fold n :: ArgumentShape.foldAll n args

end

/-- An item with built-in constants in place of their names. -/
def ItemShape.fold (n : Naming) : ItemShape → ItemShape
  | .function f => .function (f.fold n)
  | .assignment x value => .assignment x (value.fold n)

/-- Items with built-in constants in place of their names. -/
def ItemShape.foldAll (n : Naming) : List ItemShape → List ItemShape
  | [] => []
  | item :: items => item.fold n :: ItemShape.foldAll (item.declares n) items

/-! ### Writing a shape out -/

/-- The operator that an operator is written with. -/
def Operator.written : Operator → Operator
  | .neg => .sub
  | op => op

/-- Tokens in parentheses, where these are needed. -/
def parenthesized (needed : Bool) (kinds : List Token.Kind) : List Token.Kind :=
  if needed then .symbol (.left .round) :: (kinds ++ [.symbol (.right .round)]) else kinds

/-- The tokens of a parameter. -/
def ParamShape.kinds : ParamShape → List Token.Kind
  | ⟨x, none⟩ => [.ident x]
  | ⟨x, some ⟨false, v⟩⟩ => [.ident x, .symbol .equals, .const v]
  | ⟨x, some ⟨true, v⟩⟩ => [.ident x, .symbol .equals, .operator .sub, .const v]

/-- The tokens of lists of tokens, with commas between them. -/
def separated : List (List Token.Kind) → List Token.Kind :=
  List.intercalate [.symbol .comma]

mutual

/-- The tokens of an expression that stands where an operator is expected to bind at least as tightly as a tier says.
It is put in parentheses if its own operator binds less tightly. -/
def Shape.kinds (tier : Nat) : Shape → List Token.Kind
  | .number v => [.const v]
  | .boolean _ => []
  | .var x => [.ident x]
  | .prefixed op operand =>
    parenthesized (topTier < tier) (.operator op.written :: operand.kinds topTier)
  | .binary op left right =>
    match op.tier? with
    | some n => parenthesized (n < tier) (left.kinds n ++ .operator op :: right.kinds (n + 1))
    | none =>
      parenthesized (topTier < tier) (left.kinds (topTier + 1) ++ .operator op :: right.kinds topTier)
  | .call callee _ args =>
    .ident callee :: .symbol (.left .round) ::
      (separated (ArgumentShape.kindsOfAll args) ++ [.symbol (.right .round)])
  | .conditional condition thenBranch elseBranch =>
    .symbol .kwIf :: (condition.kinds 0 ++ .symbol .colon ::
      (thenBranch.kinds 0 ++ .symbol .kwElse :: elseBranch.kinds 0))
  | .block entries =>
    .symbol (.left .curly) :: (EntryShape.kindsOfAll entries ++ [.symbol (.right .curly)])

/-- The tokens of an entry, with the semicolon after it. -/
def EntryShape.kinds : EntryShape → List Token.Kind
  | .operator op value guard =>
    .operator op.written :: (value.kinds 0 ++ (Shape.guardKinds guard ++ [.symbol .semicolon]))
  | .closure f => f.kinds ++ [.symbol .semicolon]

/-- The tokens of entries. -/
def EntryShape.kindsOfAll : List EntryShape → List Token.Kind
  | [] => []
  | entry :: entries => entry.kinds ++ EntryShape.kindsOfAll entries

/-- The tokens of a guard. -/
def Shape.guardKinds : Option Shape → List Token.Kind
  | none => []
  | some s => .symbol .questionMark :: s.kinds 0

/-- The tokens of a function definition. -/
def FunctionShape.kinds : FunctionShape → List Token.Kind
  | ⟨name, params, body⟩ =>
    .symbol (.left .square) :: .ident name ::
      (separated (params.map ParamShape.kinds) ++ .symbol (.right .square) :: body.kinds 0)

/-- The tokens of an argument. -/
def ArgumentShape.kinds : ArgumentShape → List Token.Kind
  | .shorthand x => [.ident x]
  | .assign x value => .ident x :: .symbol .equals :: value.kinds 0
  | .opAssign x op value => .ident x :: .operator op.written :: .symbol .equals :: value.kinds 0
  | .positional value => value.kinds 0

/-- The tokens of each of the arguments of a call. -/
def ArgumentShape.kindsOfAll : List ArgumentShape → List (List Token.Kind)
  | [] => []
  | arg :: args => arg.kinds :: ArgumentShape.kindsOfAll args

end

/-- The tokens of an item, with a semicolon after an assignment and after a function whose body is no block. -/
def ItemShape.kinds : ItemShape → List Token.Kind
  | .function f => f.kinds ++ if f.body.isBlock then [] else [.symbol .semicolon]
  | .assignment x value => .ident x :: .symbol .equals :: (value.kinds 0 ++ [.symbol .semicolon])

/-- The tokens of a program. -/
def ItemShape.kindsOfAll (items : List ItemShape) : List Token.Kind :=
  items.flatMap ItemShape.kinds

end ToneScript
