import Mathlib.Algebra.Order.BigOperators.Group.List
import Mathlib.Algebra.Order.Group.Nat
import ToneScript.Proofs.Syntax.Derivation
import ToneScript.Proofs.Syntax.Postfix
import ToneScript.Proofs.Syntax.Resolution

/-! How much of a program stands at an offset. Whatever is counted, a part of a program has no more of it at an offset
than there are tokens, if each constructor adds to its parts at most one, at its own position. -/
namespace ToneScript

/-- One if a position is at an offset, and none otherwise. -/
def Position.countAt (o : UInt64) (pos : Position) : Nat :=
  if pos.index = o then 1 else 0

/-- How many tokens stand at an offset. -/
def Token.countAt (o : UInt64) (ts : List Token) : Nat :=
  (ts.map (·.pos.countAt o)).sum

section

variable (o : UInt64)

@[simp] theorem Token.countAt_nil : Token.countAt o [] = 0 :=
  rfl

@[simp] theorem Token.countAt_cons (t : Token) (ts : List Token) :
    Token.countAt o (t :: ts) = t.pos.countAt o + Token.countAt o ts :=
  rfl

@[simp] theorem Token.countAt_append (ts us : List Token) :
    Token.countAt o (ts ++ us) = Token.countAt o ts + Token.countAt o us := by
  simp [Token.countAt]

end

/-- Of tokens that stand in order, no two are at the same offset. -/
theorem Token.Ordered.countAt_le {lo hi : Nat} {ts : List Token} (h : Token.Ordered lo hi ts) (o : UInt64) :
    Token.countAt o ts ≤ 1 ∧ (o.toNat < lo → Token.countAt o ts = 0) := by
  induction ts generalizing lo with
  | nil => exact ⟨Nat.zero_le _, fun _ => rfl⟩
  | cons t ts ih =>
    obtain ⟨hlo, hlt, hrest⟩ := h
    obtain ⟨hle, hnone⟩ := ih hrest
    have hoffset : t.offset = t.pos.index.toNat := rfl
    rw [Token.countAt_cons, Position.countAt]
    split
    · rename_i heq
      subst heq
      have := hnone (by omega)
      omega
    · exact ⟨by omega, fun hbefore => by have := hnone (by omega); omega⟩

/-- The members of a list take no more from an offset than the tokens they are made of. -/
theorem Separated.countAt_le {α : Type} {Derived : List Token → α → Prop} {trailingComma : Bool} {ts : List Token}
    {as : List α} (h : Separated Derived trailingComma ts as) {n : Nat} (hlength : ts.length ≤ n) (o : UInt64)
    {weight : α → Nat} (hmember : ∀ us a, us.length ≤ n → Derived us a → weight a ≤ Token.countAt o us) :
    (as.map weight).sum ≤ Token.countAt o ts := by
  induction h with
  | nil => exact Nat.zero_le _
  | last member =>
    rw [List.map_singleton, List.sum_singleton]
    exact hmember _ _ hlength member
  | @more ts us comma a as member _ _ _ ih =>
    rw [List.length_append, List.length_cons] at hlength
    have hfirst := hmember ts a (by omega) member
    have hrest := ih (by omega)
    rw [List.map_cons, List.sum_cons, Token.countAt_append, Token.countAt_cons]
    omega

/-- How much is counted at an offset in the parts of a program, with the blocks around them, innermost first. -/
structure Weight (o : UInt64) where
  expr : List BlockKey → Expr → Nat
  argument : List BlockKey → Argument → Nat
  entries : List BlockKey → List BlockEntry → Nat
  function : FunctionDef → Nat
  ofValue (p : List BlockKey) (v : Value) (pos : Position) : expr p (.ofValue v pos) ≤ pos.countAt o
  var (p : List BlockKey) (name : Ident) (pos : Position) : expr p (.var name pos) ≤ pos.countAt o
  prefixed (p : List BlockKey) (op : Operator) (operand : Expr) (pos : Position) :
    expr p (.prefixed op operand pos) ≤ expr p operand + pos.countAt o
  binary (p : List BlockKey) (op : Operator) (left right : Expr) (pos : Position) :
    expr p (.binary op left right pos) ≤ expr p left + expr p right + pos.countAt o
  span (p : List BlockKey) (compiled : Compiled) (tree : Expr) : expr p (.span compiled tree) ≤ expr p tree
  call (p : List BlockKey) (site : CallSite) (args : List Argument) :
    expr p (.call site args) ≤ (args.map (argument p)).sum + site.pos.countAt o
  conditional (p : List BlockKey) (c t e : Expr) (pos : Position) :
    expr p (.conditional c t e pos) ≤ expr p c + expr p t + expr p e + pos.countAt o
  block (p : List BlockKey) (key : BlockKey) (items : List BlockEntry) (pos : Position) :
    expr p (.block key items pos) ≤ entries (key :: p) items + pos.countAt o
  shorthand (p : List BlockKey) (name : Ident) (pos : Position) : argument p (.shorthand name pos) ≤ pos.countAt o
  assign (p : List BlockKey) (name : Ident) (value : Expr) (pos : Position) :
    argument p (.assign name value pos) ≤ expr p value + pos.countAt o
  opAssign (p : List BlockKey) (name : Ident) (op : Operator) (value : Expr) (pos : Position) :
    argument p (.opAssign name op value pos) ≤ expr p value + pos.countAt o
  positional (p : List BlockKey) (value : Expr) (pos : Position) : argument p (.positional value pos) ≤ expr p value
  nil (p : List BlockKey) : entries p [] = 0
  operator (p : List BlockKey) (op : Operator) (value : Expr) (pos : Position) (items : List BlockEntry) :
    entries p (.operator op value none pos :: items) ≤ expr p value + pos.countAt o + entries p items
  guarded (p : List BlockKey) (op : Operator) (value guard : Expr) (pos : Position) (items : List BlockEntry) :
    entries p (.operator op value (some guard) pos :: items) ≤
      expr p value + expr p guard + pos.countAt o + entries p items
  closure (p : List BlockKey) (f : FunctionDef) (pos : Position) (items : List BlockEntry) :
    entries p (.closure f pos :: items) ≤ function f + pos.countAt o + entries p items
  body (f : FunctionDef) : function f ≤ expr f.inside f.body + f.pos.countAt o

namespace Weight

variable {o : UInt64} (w : Weight o) (p : List BlockKey)

/-- How much is counted in the tree of a sequence. -/
def compiled (e : Compiled) : Nat :=
  e.toExpr.toOption.elim 0 (w.expr p)

/-- How much is counted in the tree of an argument. -/
def siteArgument (arg : SiteArgument) : Nat :=
  arg.toArgument.toOption.elim 0 (w.argument p)

/-- How much a cell adds to a tree. -/
def cell : Cell → Nat
  | .value _ pos | .slot _ pos | .operator _ pos => pos.countAt o
  | .call site => site.toExpr.toOption.elim 0 (w.expr p)
  | .left _ | .right _ => 0

/-- How much is counted in an item. -/
def item : Item → Nat
  | .function f _ => w.function f
  | .assignment _ value _ => w.expr [rootBlock] value

variable {w p}

/-- A cell adds no more to the trees on a stack than what is counted for it. -/
theorem pushes_le {c : Cell} {stack mid : List Expr} (h : c.Pushes stack mid) :
    (mid.map (w.expr p)).sum ≤ (stack.map (w.expr p)).sum + w.cell p c := by
  cases h with
  | value v pos =>
    have := w.ofValue p v pos
    simp only [List.map_cons, List.sum_cons, Weight.cell]
    omega
  | slot name pos =>
    have := w.var p name pos
    simp only [List.map_cons, List.sum_cons, Weight.cell]
    omega
  | call htree =>
    simp only [List.map_cons, List.sum_cons, Weight.cell, htree, Except.toOption, Option.elim_some]
    omega
  | @prefixed op _ pos e stack =>
    have := w.prefixed p op e pos
    simp only [List.map_cons, List.sum_cons, Weight.cell]
    omega
  | @binary op _ pos l r stack =>
    have := w.binary p op l r pos
    simp only [List.map_cons, List.sum_cons, Weight.cell]
    omega

/-- Trees are made of what their cells add. -/
theorem toTrees_le {stack stack' : List Expr} {cells : List Cell} (h : Cell.toTrees stack cells = .ok stack') :
    (stack'.map (w.expr p)).sum ≤ (stack.map (w.expr p)).sum + (cells.map (w.cell p)).sum := by
  rw [Cell.toTrees_eq_ok_iff] at h
  induction h with
  | nil stack => exact Nat.le_refl _
  | cons first _ ih =>
    have hfirst := pushes_le (w := w) (p := p) first
    rw [List.map_cons, List.sum_cons]
    omega

theorem compiled_le (e : Compiled) : w.compiled p e ≤ (e.cells.map (w.cell p)).sum := by
  rw [Weight.compiled]
  cases h : e.toExpr with
  | error => exact Nat.zero_le _
  | ok tree =>
    obtain ⟨inner, rfl, htrees⟩ := Compiled.toExpr_eq_ok h
    have hsum := toTrees_le (w := w) (p := p) htrees
    rw [List.map_nil, List.sum_nil, Nat.zero_add, List.map_singleton, List.sum_singleton] at hsum
    exact (w.span p e inner).trans hsum

/-- Conversion to operand-first order moves cells and drops parentheses, which add nothing. -/
theorem sum_convert {cells result : List Cell} (h : Postfix.convert cells = .ok result) :
    (result.map (w.cell p)).sum = (cells.map (w.cell p)).sum := by
  rw [((Postfix.convert_perm h).map _).sum_eq]
  clear h
  induction cells with
  | nil => rfl
  | cons cell cells ih =>
    rw [List.filter_cons, List.map_cons, List.sum_cons, ← ih]
    cases cell with
    | left pos | right pos => exact (Nat.zero_add _).symm
    | value v pos | slot name pos | operator op pos | call site => rfl

/-- An argument given in order counts as its value. -/
theorem siteArgument_positional (value : Compiled) (pos : Position) :
    w.siteArgument p (.positional value pos) ≤ w.compiled p value := by
  rw [Weight.siteArgument, Weight.compiled, SiteArgument.toArgument]
  cases value.toExpr with
  | error => exact Nat.zero_le _
  | ok e => exact w.positional p e pos

theorem toArguments_le {args : List SiteArgument} {trees : List Argument}
    (h : SiteArgument.toArguments args = .ok trees) :
    (trees.map (w.argument p)).sum = (args.map (w.siteArgument p)).sum := by
  induction args generalizing trees with
  | nil =>
    cases h
    rfl
  | cons arg args ih =>
    obtain ⟨tree, trees', rfl, htree, htrees⟩ := toArguments_cons h
    rw [List.map_cons, List.map_cons, List.sum_cons, List.sum_cons, ih htrees, Weight.siteArgument, htree,
      Except.toOption, Option.elim_some]

/-- What is counted in a call is at its own position and in its arguments. -/
theorem call_le (site : CallSite) :
    w.cell p (.call site) ≤ (site.args.map (w.siteArgument p)).sum + site.pos.countAt o := by
  rw [Weight.cell]
  cases h : site.toExpr with
  | error => exact Nat.zero_le _
  | ok tree =>
    obtain ⟨trees, rfl, htrees⟩ := CallSite.toExpr_eq_ok h
    rw [← toArguments_le htrees]
    exact w.call p site trees

/-- The arguments of a call are those that are given, or their values in order. -/
theorem callSite_le {callee : String} {id : Ident} {args : List SiteArgument} {pos : Position} {site : CallSite}
    (h : Resolution.callSite callee id args pos = .ok site) :
    (site.args.map (w.siteArgument p)).sum ≤
      (args.map fun arg => max (w.siteArgument p arg) (w.compiled p arg.value)).sum := by
  unfold Resolution.callSite at h
  split at h
  · split at h <;> cases h
    exact List.sum_le_sum fun arg _ => Nat.le_max_left _ _
  · cases h
    rw [List.map_map]
    refine List.sum_le_sum fun arg _ => ?_
    exact (siteArgument_positional arg.value arg.pos).trans (Nat.le_max_right _ _)

theorem ofToken_le {t : Token} {cell : Cell} (h : Cell.OfToken t cell) : w.cell p cell ≤ t.pos.countAt o := by
  cases h with
  | const | slot | value | operator | negation => exact Nat.le_refl _
  | left | right => exact Nat.zero_le _

mutual

theorem cells_le {l : Leniency} {ts : List Token} {cells : List Cell} (h : Cell.AllDerived l ts cells) :
    (cells.map (w.cell p)).sum ≤ Token.countAt o ts := by
  cases h with
  | nil => exact Nat.zero_le _
  | eof _ rest =>
    have := cells_le rest
    rw [Token.countAt_cons]
    omega
  | token first _ rest =>
    have := ofToken_le (w := w) (p := p) first
    have := cells_le rest
    rw [List.map_cons, List.sum_cons, Token.countAt_cons]
    omega
  | @call name opening closing inner ts id callee args site cells _ _ args_derived _ hsite rest =>
    have hrest := cells_le rest
    have hcall := call_le (w := w) (p := p) site
    have hargs : (args.map fun arg => max (w.siteArgument p arg) (w.compiled p arg.value)).sum ≤
        Token.countAt o inner :=
      args_derived.countAt_le (Nat.le_refl _) o fun us arg _ member => siteArgument_le member
    have hgiven := (callSite_le (w := w) (p := p) hsite).trans hargs
    rw [(Resolution.callSite_ok hsite).2.1] at hcall
    simp only [List.map_cons, List.sum_cons, Token.countAt_cons, Token.countAt_append]
    omega
termination_by 3 * ts.length

theorem compiledDerived_le {l : Leniency} {ts : List Token} {e : Compiled} (h : Compiled.Derived l ts e) :
    w.compiled p e ≤ Token.countAt o ts := by
  cases h with
  | convert cells_derived hconvert =>
    refine (compiled_le _).trans ?_
    rw [sum_convert hconvert]
    exact cells_le cells_derived
termination_by 3 * ts.length + 1

theorem siteArgument_le {l : Leniency} {ts : List Token} {arg : SiteArgument} (h : SiteArgument.Derived l ts arg) :
    max (w.siteArgument p arg) (w.compiled p arg.value) ≤ Token.countAt o ts := by
  cases h with
  | @shorthand name id value _ value_derived =>
    exact Nat.max_le.2 ⟨w.shorthand p id name.pos, compiledDerived_le value_derived⟩
  | @assign name equals ts id value _ _ value_derived =>
    have hvalue : w.compiled p value ≤ Token.countAt o ts := compiledDerived_le value_derived
    have hself : w.siteArgument p (.assign id value name.pos) ≤ w.compiled p value + name.pos.countAt o := by
      rw [Weight.siteArgument, Weight.compiled, SiteArgument.toArgument]
      cases value.toExpr with
      | error => exact Nat.zero_le _
      | ok e => exact w.assign p id e name.pos
    simp only [Token.countAt_cons, SiteArgument.value]
    omega
  | @opAssign name operator equals ts id op value _ _ _ value_derived =>
    have hvalue : w.compiled p value ≤ Token.countAt o ts := compiledDerived_le value_derived
    have hself : w.siteArgument p (.opAssign id op value name.pos) ≤ w.compiled p value + name.pos.countAt o := by
      rw [Weight.siteArgument, Weight.compiled, SiteArgument.toArgument]
      cases value.toExpr with
      | error => exact Nat.zero_le _
      | ok e => exact w.opAssign p id op e name.pos
    simp only [Token.countAt_cons, SiteArgument.value]
    omega
  | @positional t ts value value_derived =>
    have hvalue := compiledDerived_le value_derived
    exact Nat.max_le.2 ⟨(siteArgument_positional value t.pos).trans hvalue, hvalue⟩
termination_by 3 * ts.length + 2

end

mutual

theorem expr_le {l : Leniency} {ts : List Token} {e : Expr} (h : Expr.Derived l ts e) (p : List BlockKey) :
    w.expr p e ≤ Token.countAt o ts := by
  cases h with
  | @conditional keyword colon other _ _ _ condition thenBranch elseBranch _ condition_derived _ then_derived _
      else_derived =>
    have := expr_le condition_derived p
    have := expr_le then_derived p
    have := expr_le else_derived p
    have := w.conditional p condition thenBranch elseBranch keyword.pos
    simp only [Token.countAt_cons, Token.countAt_append]
    omega
  | @block opening _ _ entries _ entries_derived _ =>
    have := entries_le entries_derived (opening.pos.index :: p)
    have := w.block p opening.pos.index entries opening.pos
    simp only [Token.countAt_cons, Token.countAt_append]
    omega
  | arithmetic compiled_derived htree =>
    have := compiledDerived_le (w := w) (p := p) compiled_derived
    rwa [Weight.compiled, htree] at this
termination_by 2 * ts.length

theorem entries_le {l : Leniency} {ts : List Token} {entries : List BlockEntry}
    (h : BlockEntry.AllDerived l ts entries) (p : List BlockKey) : w.entries p entries ≤ Token.countAt o ts := by
  cases h with
  | nil => exact Nat.le_of_eq (w.nil p)
  | semicolon _ rest =>
    have := entries_le rest p
    rw [Token.countAt_cons]
    omega
  | @closure opening _ _ _ f entries function_derived _ rest =>
    have := function_le function_derived
    have := entries_le rest p
    have := w.closure p f opening.pos entries
    simp only [Token.countAt_cons, Token.countAt_append]
    omega
  | @openClosure opening _ f _ function_derived =>
    have := function_le function_derived
    have := w.closure p f opening.pos []
    rw [w.nil p] at this
    rw [Token.countAt_cons]
    omega
  | @operator t _ _ _ op value entries _ value_derived _ rest =>
    have := expr_le value_derived p
    have := entries_le rest p
    have := w.operator p op value t.pos entries
    simp only [Token.countAt_cons, Token.countAt_append]
    omega
  | @guarded t _ _ _ _ _ op value guard entries _ value_derived _ guard_derived _ rest =>
    have := expr_le value_derived p
    have := expr_le guard_derived p
    have := entries_le rest p
    have := w.guarded p op value guard t.pos entries
    simp only [Token.countAt_cons, Token.countAt_append]
    omega
termination_by 2 * ts.length

/-- The bracket that opens a definition is that of the function itself, which is not counted in it. -/
theorem function_le {l : Leniency} {opening : Token} {ts : List Token} {f : FunctionDef}
    (h : FunctionDef.Derived l (opening :: ts) f) : w.function f ≤ Token.countAt o ts := by
  cases h with
  | @function _ name closing _ _ id params scope body _ _ _ _ body_derived =>
    have hbody := w.body ⟨id, name.pos, params, opening.pos.index, scope, body⟩
    have := expr_le body_derived (scope ++ [opening.pos.index]).reverse
    simp only [Token.countAt_cons, Token.countAt_append]
    simp only [FunctionDef.inside, FunctionDef.bodyScope] at hbody
    omega
termination_by 2 * ts.length + 1

end

/-- What is counted in a program is at its tokens. -/
theorem program_le {l : Leniency} {ts : List Token} {program : Program} (h : Item.AllDerived l ts program) :
    (program.map w.item).sum ≤ Token.countAt o ts := by
  induction h with
  | nil => exact Nat.zero_le _
  | semicolon _ _ ih =>
    rw [Token.countAt_cons]
    omega
  | function function_derived _ _ ih =>
    have := function_le (w := w) function_derived
    simp only [List.map_cons, List.sum_cons, Weight.item, Token.countAt_cons, Token.countAt_append] at *
    omega
  | assignment _ _ value_derived _ _ ih =>
    have := expr_le (w := w) value_derived [rootBlock]
    simp only [List.map_cons, List.sum_cons, Weight.item, Token.countAt_cons, Token.countAt_append] at *
    omega

end Weight
end ToneScript
