import ToneScript.Compilation.EntryPoint
import ToneScript.Proofs.Scope.Growth
import ToneScript.Proofs.Typing.Growth

/-! What a check says about the parts of a program, with the signatures that it arrives at in the end.
While a function is being checked its own calls have no type yet, so that the rules leave out places where
the type of such a call is asked for. -/
namespace ToneScript

/-- What is known of a program once it is checked. -/
structure Elaboration where
  constants : List (Ident × Value)
  intrinsics : List IntrinsicEntry
  table : SymbolTable
  functions : FunctionTable
  program : Program

/-- What is known of the program of a compilation. -/
def Compilation.elaboration (c : Compilation) : Elaboration where
  constants := c.constants
  intrinsics := c.intrinsics
  table := c.table
  functions := c.typing?.elim [] Typing.functions
  program := c.program

namespace SiteArgument

/-- Whether an argument is combined with the default of its parameter. -/
def needsDefault : SiteArgument → Bool
  | opAssign .. => true
  | shorthand .. | assign .. | positional .. => false

/-- Which parameters have got their values after the rest of the arguments, the first of which is at place
`i`; nothing if one of them has no parameter, or one that has its value already, or no default that it
needs. -/
def bindAll? (params : List (Ident × Option Number)) (style : CallStyle) (bound : List Bool) (i : Nat) :
    List SiteArgument → Option (List Bool)
  | [] => some bound
  | arg :: args =>
    let place? : Option Nat :=
      match style, arg.name? with
      | .named, some name =>
        (params.findIdx? (·.1 == name)).filter fun place => !bound.getD place false
      | _, _ => some i
    place?.bind fun place =>
      if arg.needsDefault && ((params[place]?).bind Prod.snd).isNone then none
      else bindAll? params style (bound.set place true) (i + 1) args

end SiteArgument

/-- Whether every parameter has got a value or has a default. -/
def filled : List (Ident × Option Number) → List Bool → Bool
  | param :: params, bound :: bounds => (bound || param.2.isSome) && filled params bounds
  | _, _ => true

/-- Whether the arguments of a call can be bound to parameters. -/
def CallSite.fits (site : CallSite) (params : List (Ident × Option Number)) : Bool :=
  decide (site.style = .ordered → site.args.length ≤ params.length) &&
    (SiteArgument.bindAll? params site.style (params.map fun _ => false) 0 site.args).any (filled params)

namespace Elaboration

variable (w : Elaboration)

/-- The declaration that a call refers to. -/
def callee? (scope : List BlockKey) (site : CallSite) : Option Declaration :=
  (w.table.resolve scope site.callee site.pos).map Prod.fst

/-- The signature of a declared function. -/
def signature? (d : Declaration) : Option Signature :=
  w.functions.signature? (d.block, d.name)

/-- The type of a call. -/
def returns (scope : List BlockKey) (site : CallSite) : Ty :=
  ((w.callee? scope site).bind w.signature?).elim .indeterminate (·.type.returns)

/-- Whether a call stands in the body of the function that it calls, where the type of the function was not
known yet. -/
def isRecursive (scope : List BlockKey) (site : CallSite) : Bool :=
  (w.callee? scope site).any fun d => !d.builtin && scope.contains d.visibleFrom

end Elaboration

namespace Expr

variable (w : Elaboration) (scope : List BlockKey)

/-- Whether an expression had no type yet when it was checked: a recursive call, or a conditional both of
whose branches are such. -/
def isProvisional : Expr → Bool
  | .call site _ => w.isRecursive scope site
  | .conditional _ t e _ => t.isProvisional && e.isProvisional
  | .span _ tree => tree.isProvisional
  | .number .. | .boolean .. | .var .. | .prefixed .. | .binary .. | .block .. => false

/-- The type of an expression in a chain of blocks. -/
def ty : Expr → Ty
  | .number .. | .block .. => .number
  | .boolean .. => .boolean
  | .var name pos => ((w.table.resolve scope name pos).bind (·.1.ty?)).getD .indeterminate
  | .prefixed op _ _ => if op = .not then .boolean else .number
  | .binary op _ _ _ => if op.isArithmetic then .number else .boolean
  | .call site _ => w.returns scope site
  | .conditional _ t e _ => if t.isProvisional w scope then e.ty else t.ty
  | .span _ tree => tree.ty

end Expr

/-- The rules that an accepted program obeys. -/
def Rule.checked (w : Elaboration) : Rule where
  var p name pos := ∃ d crossed ty, w.table.resolve p name pos = some (d, crossed) ∧
    d.ty? = some ty ∧ ty.IsKind
  call p site args :=
    (∃ d crossed signature, w.table.resolve p site.callee site.pos = some (d, crossed) ∧
      d.isFunction = true ∧ w.signature? d = some signature ∧
      site.fits signature.parameters = true) ∧
    (∀ arg ∈ args, ∀ value, arg.value? = some value → value.isProvisional w p = false →
      value.ty w p = .number) ∧
    (∀ name pos, .shorthand name pos ∈ args → ∃ d crossed,
      w.table.resolve p name pos = some (d, crossed) ∧ d.ty? = some .number) ∧
    ∀ name op value pos, .opAssign name op value pos ∈ args → op.isArithmetic = true
  conditional p c t e :=
    (c.isProvisional w p = false → c.ty w p = .boolean) ∧
    (t.isProvisional w p = false → e.isProvisional w p = false →
      t.ty w p = e.ty w p)
  entry p op guard := op.isArithmetic = true ∧ ∀ g, guard = some g →
    g.isProvisional w p = false → g.ty w p = .boolean
  definition _ f := ∃ signature, w.functions.lookup f.key = some ⟨some f, .resolved signature⟩ ∧
    signature.parameters = f.parameters ∧ signature.arity = f.params.length ∧
    signature.type.returns.IsKind ∧
    f.body.isProvisional w f.inside = false ∧
    signature.type.returns = f.body.ty w f.inside
  assignment name value := ∃ d, w.table.find? rootBlock name = some d ∧
    d.ty? = some (value.ty w [rootBlock]) ∧ value.isProvisional w [rootBlock] = false

/-- What a check leaves out: that the types of recursive calls are those that are asked for where they stand
as a condition, a branch, a guard or an argument. -/
def Rule.settled (w : Elaboration) : Rule where
  call p _ args := ∀ arg ∈ args, ∀ value, arg.value? = some value →
    value.isProvisional w p = true → value.ty w p = .number
  conditional p c t e :=
    (c.isProvisional w p = true → c.ty w p = .boolean) ∧
    (t.isProvisional w p = true ∨ e.isProvisional w p = true →
      t.ty w p = e.ty w p)
  entry p _ guard := ∀ g, guard = some g →
    g.isProvisional w p = true → g.ty w p = .boolean

instance (w : Elaboration) : (Rule.settled w).Checkable where
  var _ _ _ := .isTrue trivial
  call p _ args := inferInstanceAs (Decidable (∀ arg ∈ args, ∀ value ∈ arg.value?,
    value.isProvisional w p = true → value.ty w p = .number))
  block _ _ := .isTrue trivial
  conditional p c t e := inferInstanceAs (Decidable ((c.isProvisional w p = true → c.ty w p = .boolean) ∧
    (t.isProvisional w p = true ∨ e.isProvisional w p = true → t.ty w p = e.ty w p)))
  entry p _ guard := inferInstanceAs (Decidable (∀ g ∈ guard, g.isProvisional w p = true → g.ty w p = .boolean))
  definition _ _ := .isTrue trivial
  assignment _ _ := .isTrue trivial

end ToneScript
