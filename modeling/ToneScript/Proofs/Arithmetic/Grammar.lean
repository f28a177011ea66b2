import ToneScript.Outline.OfTokens
import ToneScript.Syntax.OfOutline

/-! The grammar of arithmetic expressions. A parse tree holds all that its tokens hold, so that the tokens can be
read off it, and says nothing of how an expression is read. -/
namespace ToneScript

/-- What a token shows of itself besides its kind. -/
structure Mark where
  pos : Position
  lexeme : String

/-- The token of a kind that stands at a mark. -/
def Mark.token (m : Mark) (kind : Token.Kind) : Token :=
  ⟨kind, m.pos, m.lexeme⟩

/-- An operator that stands before its operand. -/
inductive Sign where
  | minus | bang
deriving DecidableEq

namespace Sign

/-- The operator that a sign is written with. -/
def written : Sign → Operator
  | minus => .sub
  | bang => .not

/-- The operator that a sign stands for. -/
def operator : Sign → Operator
  | minus => .neg
  | bang => .not

end Sign

/-- The tier of an operator that stands between two operands and groups from the left, from the loosest to the
tightest. -/
def Operator.tier? : Operator → Option Nat
  | and | or | xor => some 0
  | equ | notEqu | approxEqu => some 1
  | less | greater | lessEqual | greaterEqual => some 2
  | add | sub => some 3
  | mul | div | mod => some 4
  | exp | neg | not => none

/-- The tier above all operators that group from the left. -/
def topTier : Nat := 5

mutual

/-- A parse tree of an arithmetic expression. -/
inductive Infix where
  | const (value : Number) (mark : Mark)
  | name (id : Ident) (mark : Mark)
  | call (callee : Ident) (mark opening : Mark) (args : InfixArguments) (closing : Mark)
  | group (opening : Mark) (inner : Infix) (closing : Mark)
  | prefixed (sign : Sign) (mark : Mark) (operand : Infix)
  | power (left : Infix) (mark : Mark) (right : Infix)
  | binary (op : Operator) (left : Infix) (mark : Mark) (right : Infix)

/-- A parse tree of an argument. An argument that is a name alone is `positional`. -/
inductive InfixArgument where
  | positional (value : Infix)
  | assign (id : Ident) (mark equals : Mark) (value : Infix)
  | opAssign (id : Ident) (mark : Mark) (op : Operator) (opMark equals : Mark) (value : Infix)

/-- Arguments with commas between them. A comma may follow the last one. -/
inductive InfixArguments where
  | none
  | last (arg : InfixArgument)
  | more (arg : InfixArgument) (comma : Mark) (rest : InfixArguments)

end

mutual

/-- The tokens of an expression. -/
def Infix.tokens : Infix → List Token
  | .const v m => [m.token (.const v)]
  | .name id m => [m.token (.ident id)]
  | .call callee m opening args closing =>
    m.token (.ident callee) :: opening.token (.symbol (.left .round)) ::
      (args.tokens ++ [closing.token (.symbol (.right .round))])
  | .group opening inner closing =>
    opening.token (.symbol (.left .round)) ::
      (inner.tokens ++ [closing.token (.symbol (.right .round))])
  | .prefixed sign m operand => m.token (.operator sign.written) :: operand.tokens
  | .power left m right => left.tokens ++ m.token (.operator .exp) :: right.tokens
  | .binary op left m right => left.tokens ++ m.token (.operator op) :: right.tokens

/-- The tokens of an argument. -/
def InfixArgument.tokens : InfixArgument → List Token
  | .positional value => value.tokens
  | .assign id m equals value =>
    m.token (.ident id) :: equals.token (.symbol .equals) :: value.tokens
  | .opAssign id m op opMark equals value =>
    m.token (.ident id) :: opMark.token (.operator op) :: equals.token (.symbol .equals) :: value.tokens

/-- The tokens of arguments. -/
def InfixArguments.tokens : InfixArguments → List Token
  | .none => []
  | .last arg => arg.tokens
  | .more arg comma rest => arg.tokens ++ comma.token (.symbol .comma) :: rest.tokens

end

/-- Whether an expression is a constant, a name, a call or in parentheses. -/
def Infix.IsAtom : Infix → Prop
  | .const .. | .name .. | .call .. | .group .. => True
  | .prefixed .. | .power .. | .binary .. => False

mutual

/-- Whether an expression is one of the grammar from a tier on. Operators of a tier group from the left, a power
from the right, and a sign stands before a sign, a power or an operand. -/
def Infix.Fits (tier : Nat) : Infix → Prop
  | .const .. => True
  | .name .. => True
  | .call _ _ _ args _ => args.Fit
  | .group _ inner _ => inner.Fits 0
  | .prefixed _ _ operand => operand.Fits topTier
  | .power left _ right => left.IsAtom ∧ left.Fits topTier ∧ right.Fits topTier
  | .binary op left _ right => ∃ n, op.tier? = some n ∧ tier ≤ n ∧ left.Fits n ∧ right.Fits (n + 1)

/-- Whether the value of an argument is an expression of the grammar. -/
def InfixArgument.Fits : InfixArgument → Prop
  | .positional value => value.Fits 0
  | .assign _ _ _ value => value.Fits 0
  | .opAssign _ _ _ _ _ value => value.Fits 0

/-- Whether the values of arguments are expressions of the grammar. -/
def InfixArguments.Fit : InfixArguments → Prop
  | .none => True
  | .last arg => arg.Fits
  | .more arg _ rest => arg.Fits ∧ rest.Fit

end

/-- The position of the first token of an expression. -/
def Infix.pos : Infix → Position
  | .const _ m | .name _ m | .call _ m _ _ _ | .group m _ _ | .prefixed _ m _ => m.pos
  | .power left _ _ | .binary _ left _ _ => left.pos

/-- The form of an argument. -/
def InfixArgument.form : InfixArgument → ArgumentForm
  | .positional (.name id _) => .shorthand id
  | .positional _ => .positional
  | .assign id _ _ _ => .assign id
  | .opAssign id _ op _ _ _ => .opAssign id op

/-- The value of an argument. -/
def InfixArgument.value : InfixArgument → Infix
  | .positional value | .assign _ _ _ value | .opAssign _ _ _ _ _ value => value

/-- The position of the first token of an argument. -/
def InfixArgument.pos : InfixArgument → Position
  | .positional value => value.pos
  | .assign _ m _ _ | .opAssign _ m _ _ _ _ => m.pos

mutual

/-- The terms of an expression. A minus sign that is not between two operands is a negation. -/
def Infix.terms : Infix → List Term
  | .const v m => [.const v m.pos]
  | .name id m => [.name id m.pos]
  | .call callee m _ args _ => [.call callee args.outlines m.pos]
  | .group opening inner closing => .left opening.pos :: (inner.terms ++ [.right closing.pos])
  | .prefixed sign m operand => .operator sign.operator m.pos :: operand.terms
  | .power left m right => left.terms ++ .operator .exp m.pos :: right.terms
  | .binary op left m right => left.terms ++ .operator op m.pos :: right.terms

/-- The outline of an argument. -/
def InfixArgument.outline : InfixArgument → ArgumentOutline
  | .positional value => .given (InfixArgument.positional value).form value.terms value.pos value.pos
  | .assign id m _ value => .given (.assign id) value.terms value.pos m.pos
  | .opAssign id m op _ _ value => .given (.opAssign id op) value.terms value.pos m.pos

/-- The outlines of arguments. -/
def InfixArguments.outlines : InfixArguments → List ArgumentOutline
  | .none => []
  | .last arg => [arg.outline]
  | .more arg _ rest => arg.outline :: rest.outlines

end

/-- The arguments by themselves. -/
def InfixArguments.toList : InfixArguments → List InfixArgument
  | none => []
  | last arg => [arg]
  | more arg _ rest => arg :: rest.toList

/-- Whether an argument gives a value to a parameter by name. -/
def InfixArgument.isAssignment : InfixArgument → Bool
  | .positional _ => false
  | .assign .. | .opAssign .. => true

/-- Whether an argument is a name alone or is given by name. -/
def InfixArgument.isNamed : InfixArgument → Bool
  | .positional (.name ..) => true
  | .positional _ => false
  | .assign .. | .opAssign .. => true

/-- Whether a call gives some of its arguments by name. -/
def InfixArguments.named (args : InfixArguments) : Bool :=
  args.toList.any InfixArgument.isAssignment

section

variable (c : Resolution.Context) (t : SymbolTable)

mutual

/-- Whether all names and calls of an expression can be resolved. Where an argument is given by name, all are, or
are names alone. -/
def Infix.Resolves : Infix → Prop
  | .const .. => True
  | .name id m => (t.lookupBefore? id m.pos.index).isSome
  | .call callee m _ args _ =>
    (c.anyCallee = true ∨ (t.callee? callee m.pos.index).isSome) ∧ args.Resolve ∧
      (args.named = true → ∀ arg ∈ args.toList, arg.isNamed = true)
  | .group _ inner _ => inner.Resolves
  | .prefixed _ _ operand => operand.Resolves
  | .power left _ right => left.Resolves ∧ right.Resolves
  | .binary _ left _ right => left.Resolves ∧ right.Resolves

/-- Whether the names and calls in an argument can be resolved. -/
def InfixArgument.Resolves : InfixArgument → Prop
  | .positional value => value.Resolves
  | .assign _ _ _ value => value.Resolves
  | .opAssign _ _ _ _ _ value => value.Resolves

/-- Whether the names and calls in arguments can be resolved. -/
def InfixArguments.Resolve : InfixArguments → Prop
  | .none => True
  | .last arg => arg.Resolves
  | .more arg _ rest => arg.Resolves ∧ rest.Resolve

end

/-- The value that stands for a name, where there is one. -/
def constantOf (id : Ident) (pos : Position) : Option Value :=
  (t.lookupBefore? id pos.index).bind fun (d, _) => Resolution.constant? c d id

/-- The cell of a name. -/
def nameCell (id : Ident) (pos : Position) : Cell :=
  match constantOf c t id pos with
  | some v => .value v pos
  | none => .slot id pos

/-- The tree of a name. -/
def nameTree (id : Ident) (pos : Position) : Expr :=
  match constantOf c t id pos with
  | some v => .ofValue v pos
  | none => .var id pos

mutual

/-- The postorder of an expression: operands before operators. A minus sign is a negation there unless it stands
between two operands. -/
def Infix.postorder : Infix → List Cell
  | .const v m => [.value (.number v) m.pos]
  | .name id m => [nameCell c t id m.pos]
  | .call callee m _ args _ =>
    [.call ⟨callee, if args.named then .named else .ordered, args.sites args.named, m.pos⟩]
  | .group _ inner _ => inner.postorder
  | .prefixed sign m operand => operand.postorder ++ [.operator sign.operator m.pos]
  | .power left m right => left.postorder ++ right.postorder ++ [.operator .exp m.pos]
  | .binary op left m right => left.postorder ++ right.postorder ++ [.operator op m.pos]

/-- An argument at the site of a call, which may give arguments by name. -/
def InfixArgument.site (named : Bool) : InfixArgument → SiteArgument
  | .positional (.name id m) =>
    if named then .shorthand id ⟨[nameCell c t id m.pos], m.pos⟩ m.pos
    else .positional ⟨[nameCell c t id m.pos], m.pos⟩ m.pos
  | .positional value => .positional ⟨value.postorder, value.pos⟩ value.pos
  | .assign id m _ value => .assign id ⟨value.postorder, value.pos⟩ m.pos
  | .opAssign id m op _ _ value => .opAssign id op ⟨value.postorder, value.pos⟩ m.pos

/-- The arguments at the site of a call. -/
def InfixArguments.sites (named : Bool) : InfixArguments → List SiteArgument
  | .none => []
  | .last arg => [arg.site named]
  | .more arg _ rest => arg.site named :: rest.sites named

end

/-- The cells of an expression in the order of the text. -/
def Infix.cells : Infix → List Cell
  | .const v m => [.value (.number v) m.pos]
  | .name id m => [nameCell c t id m.pos]
  | .call callee m _ args _ =>
    [.call ⟨callee, if args.named then .named else .ordered, args.sites c t args.named, m.pos⟩]
  | .group opening inner closing => .left opening.pos :: (inner.cells ++ [.right closing.pos])
  | .prefixed sign m operand => .operator sign.operator m.pos :: operand.cells
  | .power left m right => left.cells ++ .operator .exp m.pos :: right.cells
  | .binary op left m right => left.cells ++ .operator op m.pos :: right.cells

mutual

/-- The syntax tree of an expression. -/
def Infix.tree : Infix → Expr
  | .const v m => .number v m.pos
  | .name id m => nameTree c t id m.pos
  | .call callee m _ args _ =>
    .call ⟨callee, if args.named then .named else .ordered, args.sites c t args.named, m.pos⟩
      (args.trees args.named)
  | .group _ inner _ => inner.tree
  | .prefixed sign m operand => .prefixed sign.operator operand.tree m.pos
  | .power left m right => .binary .exp left.tree right.tree m.pos
  | .binary op left m right => .binary op left.tree right.tree m.pos

/-- The syntax tree of an argument of a call, which may give arguments by name. -/
def InfixArgument.tree (named : Bool) : InfixArgument → Argument
  | .positional (.name id m) =>
    if named then .shorthand id m.pos
    else .positional (.span ⟨[nameCell c t id m.pos], m.pos⟩ (nameTree c t id m.pos)) m.pos
  | .positional value => .positional (.span ⟨value.postorder c t, value.pos⟩ value.tree) value.pos
  | .assign id m _ value => .assign id (.span ⟨value.postorder c t, value.pos⟩ value.tree) m.pos
  | .opAssign id m op _ _ value =>
    .opAssign id op (.span ⟨value.postorder c t, value.pos⟩ value.tree) m.pos

/-- The syntax trees of the arguments of a call. -/
def InfixArguments.trees (named : Bool) : InfixArguments → List Argument
  | .none => []
  | .last arg => [arg.tree named]
  | .more arg _ rest => arg.tree named :: rest.trees named

end

end

end ToneScript
