import ToneScript.Diagnostic.SyntaxError
import ToneScript.Syntax.Tree
/-!
Outlines: the shape of a program before its names are looked up.

An outline follows from the tokens alone. Where the tokens break a rule of the grammar it holds the error,
in the place where reading from left to right would meet it.
-/
namespace ToneScript

/-- The form of an argument of a call. -/
inductive ArgumentForm where
  | shorthand (name : Ident)
  | assign (name : Ident)
  | opAssign (name : Ident) (op : Operator)
  | positional
deriving DecidableEq, Repr

/-- What stands between the square brackets of a function definition. -/
structure FunctionHeader where
  name : Ident
  pos : Position
  params : List Param
  /-- The position of the bracket that opens the definition. -/
  opening : Position
deriving DecidableEq, Repr

mutual

/-- The outline of an expression. -/
inductive Outline where
  | conditional (condition thenBranch elseBranch : Outline) (pos : Position)
  /-- A block, with what is wrong with its end. -/
  | block (entries : List EntryOutline) (flaw? : Option SyntaxError) (pos : Position)
  | arithmetic (terms : List Term) (pos : Position)
  | flawed (e : SyntaxError)

/-- The outline of an entry of a block. -/
inductive EntryOutline where
  | operator (op : Operator) (value : Outline) (guard : Option Outline) (pos : Position)
  | closure (definition : FunctionOutline) (pos : Position)
  | flawed (e : SyntaxError)

/-- The outline of a function definition. -/
inductive FunctionOutline where
  | defined (header : FunctionHeader) (body : Outline)
  /-- A header that nothing follows. -/
  | bodiless (header : FunctionHeader) (e : SyntaxError)
  | flawed (e : SyntaxError)

/-- A term of an arithmetic expression. -/
inductive Term where
  | const (value : Number) (pos : Position)
  | operator (op : Operator) (pos : Position)
  | left (pos : Position)
  | right (pos : Position)
  | name (id : Ident) (pos : Position)
  | call (callee : Ident) (args : List ArgumentOutline) (pos : Position)
  | flawed (e : SyntaxError)

/-- The outline of an argument of a call. -/
inductive ArgumentOutline where
  | given (form : ArgumentForm) (terms : List Term) (valuePos pos : Position)
  /-- A comma with no argument before it. -/
  | missing (pos : Position)

end

deriving instance Repr for Outline, EntryOutline, FunctionOutline, Term, ArgumentOutline

instance : Inhabited Outline := ⟨.arithmetic [] .start⟩

/-- Whether an outline is a block. -/
def Outline.isBlock : Outline → Bool
  | block .. => true
  | _ => false

/-- Whether a function has a block for its body. -/
def FunctionOutline.hasBlock : FunctionOutline → Bool
  | defined _ body => body.isBlock
  | bodiless .. | flawed _ => false

/-- The outline of a definition at the outermost level. -/
inductive ItemOutline where
  /-- A function, with the bracket that follows an expression body in place of a semicolon. -/
  | function (definition : FunctionOutline) (unended? : Option Position) (pos : Position)
  /-- An assignment, with the offset of its end. -/
  | assignment (name : Ident) (value : Outline) (visibleFrom : UInt64) (pos : Position)
  | flawed (e : SyntaxError)
deriving Repr

end ToneScript
