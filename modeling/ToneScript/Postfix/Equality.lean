import ToneScript.Postfix.Cell
/-!
Equality of expressions. Two expressions are equal when they have the same shape and their numbers are
equal as numbers, whatever their positions. A call is also equal to itself, even where a number in its
arguments is not.
-/
namespace ToneScript

/-- Whether two values are of one kind and equal; as numbers, so that NaN differs from itself. -/
def Value.alike : Value → Value → Bool
  | .number a, .number b => a == b
  | .boolean a, .boolean b => a == b
  | _, _ => false

mutual

/-- Whether two cells are the same in every bit and position. -/
def Cell.identical : Cell → Cell → Bool
  | .value v p, .value w q => decide (v = w) && decide (p = q)
  | .slot a p, .slot b q => a == b && decide (p = q)
  | .operator a p, .operator b q => decide (a = b) && decide (p = q)
  | .left p, .left q => decide (p = q)
  | .right p, .right q => decide (p = q)
  | .call a, .call b => a.identical b
  | _, _ => false

/-- Whether two calls are the same in every bit and position. -/
def CallSite.identical : CallSite → CallSite → Bool
  | ⟨f, s, xs, p⟩, ⟨g, t, ys, q⟩ =>
    f == g && decide (s = t) && decide (p = q) && SiteArgument.identicalAll xs ys

/-- Whether two arguments are the same in every bit and position. -/
def SiteArgument.identical : SiteArgument → SiteArgument → Bool
  | .shorthand n v p, .shorthand m w q => n == m && decide (p = q) && v.identical w
  | .assign n v p, .assign m w q => n == m && decide (p = q) && v.identical w
  | .opAssign n o v p, .opAssign m u w q =>
    n == m && decide (o = u) && decide (p = q) && v.identical w
  | .positional v p, .positional w q => decide (p = q) && v.identical w
  | _, _ => false

/-- Whether two lists of arguments are the same in every bit and position. -/
def SiteArgument.identicalAll : List SiteArgument → List SiteArgument → Bool
  | [], [] => true
  | x :: xs, y :: ys => x.identical y && SiteArgument.identicalAll xs ys
  | _, _ => false

/-- Whether two expressions are the same in every bit and position. -/
def Compiled.identical : Compiled → Compiled → Bool
  | ⟨xs, p⟩, ⟨ys, q⟩ => decide (p = q) && Cell.identicalAll xs ys

/-- Whether two lists of cells are the same in every bit and position. -/
def Cell.identicalAll : List Cell → List Cell → Bool
  | [], [] => true
  | x :: xs, y :: ys => x.identical y && Cell.identicalAll xs ys
  | _, _ => false

end

mutual

/-- Whether two cells are equal. -/
def Cell.equal : Cell → Cell → Bool
  | .value v _, .value w _ => v.alike w
  | .slot a _, .slot b _ => a == b
  | .operator a _, .operator b _ => decide (a = b)
  | .left _, .left _ => true
  | .right _, .right _ => true
  | .call a, .call b => a.identical b || a.equal b
  | _, _ => false

/-- Whether two calls have equal callees, styles and arguments. -/
def CallSite.equal : CallSite → CallSite → Bool
  | ⟨f, s, xs, _⟩, ⟨g, t, ys, _⟩ => f == g && decide (s = t) && SiteArgument.equalAll xs ys

/-- Whether two arguments have the same form, name and operator and equal values. -/
def SiteArgument.equal : SiteArgument → SiteArgument → Bool
  | .shorthand n v _, .shorthand m w _ => n == m && v.equal w
  | .assign n v _, .assign m w _ => n == m && v.equal w
  | .opAssign n o v _, .opAssign m u w _ => n == m && decide (o = u) && v.equal w
  | .positional v _, .positional w _ => v.equal w
  | _, _ => false

/-- Whether two lists of arguments are equal one by one. -/
def SiteArgument.equalAll : List SiteArgument → List SiteArgument → Bool
  | [], [] => true
  | x :: xs, y :: ys => x.equal y && SiteArgument.equalAll xs ys
  | _, _ => false

/-- Whether two expressions are equal. -/
def Compiled.equal : Compiled → Compiled → Bool
  | ⟨xs, _⟩, ⟨ys, _⟩ => Cell.equalAll xs ys

/-- Whether two lists of cells are equal one by one. -/
def Cell.equalAll : List Cell → List Cell → Bool
  | [], [] => true
  | x :: xs, y :: ys => x.equal y && Cell.equalAll xs ys
  | _, _ => false

end
end ToneScript
