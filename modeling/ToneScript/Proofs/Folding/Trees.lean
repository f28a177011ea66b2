import ToneScript.Proofs.Syntax.Arguments
import ToneScript.Syntax.OfOutline

/-! Names that are replaced by their values, in sequences of cells and in the trees that are built from them. What the
conversion of an expression does with its cells, and whether it fails, does not depend on what is replaced. -/
namespace ToneScript

/-- What names are replaced by: a value or nothing, by the blocks around a name, innermost first, and its position. -/
abbrev Valuation := List BlockKey → Ident → Position → Option Value

section Cells

variable (values : Ident → Position → Option Value)

mutual

/-- A cell with the variables that have values replaced by them, also in the arguments of a call. -/
def Cell.fold : Cell → Cell
  | .value v pos => .value v pos
  | .slot id pos =>
    match values id pos with
    | some v => .value v pos
    | none => .slot id pos
  | .operator op pos => .operator op pos
  | .left pos => .left pos
  | .right pos => .right pos
  | .call site => .call site.fold

/-- Cells with the variables that have values replaced by them. -/
def Cell.foldAll : List Cell → List Cell
  | [] => []
  | cell :: cells => cell.fold :: Cell.foldAll cells

/-- A call with variables replaced in its arguments. -/
def CallSite.fold : CallSite → CallSite
  | ⟨callee, style, args, pos⟩ => ⟨callee, style, SiteArgument.foldAll args, pos⟩

/-- Arguments with variables replaced in their values. -/
def SiteArgument.foldAll : List SiteArgument → List SiteArgument
  | [] => []
  | arg :: args => arg.fold :: SiteArgument.foldAll args

/-- An argument with variables replaced in its value. -/
def SiteArgument.fold : SiteArgument → SiteArgument
  | .shorthand name value pos => .shorthand name value.fold pos
  | .assign name value pos => .assign name value.fold pos
  | .opAssign name op value pos => .opAssign name op value.fold pos
  | .positional value pos => .positional value.fold pos

/-- A sequence with variables replaced. -/
def Compiled.fold : Compiled → Compiled
  | ⟨cells, pos⟩ => ⟨Cell.foldAll cells, pos⟩

end

end Cells

section Trees

variable (values : Valuation)

mutual

/-- An expression with the variables that have values replaced by them, where it stands in given blocks. -/
def Expr.fold (p : List BlockKey) : Expr → Expr
  | .number v pos => .number v pos
  | .boolean v pos => .boolean v pos
  | .var name pos =>
    match values p name pos with
    | some v => .ofValue v pos
    | none => .var name pos
  | .prefixed op operand pos => .prefixed op (operand.fold p) pos
  | .binary op left right pos => .binary op (left.fold p) (right.fold p) pos
  | .block key entries pos => .block key (BlockEntry.foldAll (key :: p) entries) pos
  | .call site args => .call (site.fold (values p)) (Argument.foldAll p args)
  | .conditional c t e pos => .conditional (c.fold p) (t.fold p) (e.fold p) pos
  | .span compiled tree => .span (compiled.fold (values p)) (tree.fold p)

/-- An entry of a block with variables replaced. -/
def BlockEntry.fold (p : List BlockKey) : BlockEntry → BlockEntry
  | .operator op value guard pos => .operator op (value.fold p) (Expr.foldOption p guard) pos
  | .closure f pos => .closure f.fold pos

/-- Entries of a block with variables replaced. -/
def BlockEntry.foldAll (p : List BlockKey) : List BlockEntry → List BlockEntry
  | [] => []
  | item :: items => item.fold p :: BlockEntry.foldAll p items

/-- An expression that may be absent, with variables replaced. -/
def Expr.foldOption (p : List BlockKey) : Option Expr → Option Expr
  | none => none
  | some e => some (e.fold p)

/-- A function with variables replaced in its body. -/
def FunctionDef.fold : FunctionDef → FunctionDef
  | ⟨name, pos, params, argsKey, around, body⟩ =>
    ⟨name, pos, params, argsKey, around, body.fold (around ++ [argsKey]).reverse⟩

/-- An argument with variables replaced. A name alone stays as it is. -/
def Argument.fold (p : List BlockKey) : Argument → Argument
  | .shorthand name pos => .shorthand name pos
  | .assign name value pos => .assign name (value.fold p) pos
  | .opAssign name op value pos => .opAssign name op (value.fold p) pos
  | .positional value pos => .positional (value.fold p) pos

/-- Arguments with variables replaced. -/
def Argument.foldAll (p : List BlockKey) : List Argument → List Argument
  | [] => []
  | arg :: args => arg.fold p :: Argument.foldAll p args

end

/-- An item with variables replaced. -/
def Item.fold : Item → Item
  | .function f pos => .function (f.fold values) pos
  | .assignment name value pos => .assignment name (value.fold values [rootBlock]) pos

/-- A program with variables replaced. -/
def Program.fold (program : Program) : Program :=
  program.map (Item.fold values)

end Trees

section Parts

variable {values : Valuation} {p : List BlockKey}

@[simp] theorem Expr.pos_ofValue (v : Value) (pos : Position) : (Expr.ofValue v pos).pos = pos := by
  cases v <;> rfl

@[simp] theorem CallSite.pos_fold (values : Ident → Position → Option Value) (site : CallSite) :
    (site.fold values).pos = site.pos := by
  cases site
  rfl

@[simp] theorem CallSite.callee_fold (values : Ident → Position → Option Value) (site : CallSite) :
    (site.fold values).callee = site.callee := by
  cases site
  rfl

@[simp] theorem Argument.length_foldAll (args : List Argument) :
    (Argument.foldAll values p args).length = args.length := by
  induction args with
  | nil => rfl
  | cons arg args ih => rw [Argument.foldAll, List.length_cons, ih, List.length_cons]

@[simp] theorem Expr.pos_fold (e : Expr) : (e.fold values p).pos = e.pos := by
  cases e with
  | var name pos =>
    rw [Expr.fold]
    cases values p name pos with
    | some v => exact Expr.pos_ofValue v pos
    | none => rfl
  | span compiled tree =>
    rw [Expr.fold]
    exact Expr.pos_fold tree
  | call site args =>
    rw [Expr.fold]
    exact CallSite.pos_fold (values p) site
  | number | boolean | prefixed | binary | block | conditional => rfl

theorem FunctionDef.fold_eq (f : FunctionDef) :
    f.fold values = { f with body := f.body.fold values f.inside } := by
  cases f
  rfl

theorem Cell.foldAll_eq_map (values : Ident → Position → Option Value) (cells : List Cell) :
    Cell.foldAll values cells = cells.map (Cell.fold values) := by
  induction cells with
  | nil => rfl
  | cons cell cells ih => rw [Cell.foldAll, ih, List.map_cons]

theorem SiteArgument.foldAll_eq_map (values : Ident → Position → Option Value) (args : List SiteArgument) :
    SiteArgument.foldAll values args = args.map (SiteArgument.fold values) := by
  induction args with
  | nil => rfl
  | cons arg args ih => rw [SiteArgument.foldAll, ih, List.map_cons]

namespace SiteArgument

variable (values : Ident → Position → Option Value) (arg : SiteArgument)

@[simp] theorem name?_fold : (arg.fold values).name? = arg.name? := by
  cases arg <;> rfl

@[simp] theorem pos_fold : (arg.fold values).pos = arg.pos := by
  cases arg <;> rfl

@[simp] theorem value_fold : (arg.fold values).value = arg.value.fold values := by
  cases arg <;> rfl

@[simp] theorem isAssignment_fold : (arg.fold values).isAssignment = arg.isAssignment := by
  cases arg <;> rfl

end SiteArgument

end Parts

namespace Postfix

variable (values : Ident → Position → Option Value)

/-- A variable that is replaced stays an operand. -/
theorem fold_slot (id : Ident) (pos : Position) :
    (∃ v, Cell.fold values (.slot id pos) = .value v pos) ∨ Cell.fold values (.slot id pos) = .slot id pos := by
  rw [Cell.fold]
  cases values id pos with
  | some v => exact .inl ⟨v, rfl⟩
  | none => exact .inr rfl

theorem popYielding_fold (incoming : Operator) (output stack : List Cell) :
    popYielding incoming (output.map (Cell.fold values)) (stack.map (Cell.fold values)) =
      (popYielding incoming output stack).map (List.map (Cell.fold values)) (List.map (Cell.fold values)) := by
  induction stack generalizing output with
  | nil => rfl
  | cons cell stack ih =>
    cases cell with
    | operator op pos =>
      rw [List.map_cons, Cell.fold, popYielding, popYielding]
      split
      · exact ih (.operator op pos :: output)
      · rfl
    | slot id pos =>
      obtain ⟨v, heq⟩ | heq := fold_slot values id pos <;> rw [List.map_cons, heq] <;> simp [popYielding, heq]
    | value | left | right | call => rfl

theorem popToLeft?_fold (output stack : List Cell) :
    popToLeft? (output.map (Cell.fold values)) (stack.map (Cell.fold values)) =
      (popToLeft? output stack).map (Prod.map (List.map (Cell.fold values)) (List.map (Cell.fold values))) := by
  induction stack generalizing output with
  | nil => rfl
  | cons cell stack ih =>
    have hcell := ih (cell :: output)
    cases cell with
    | slot id pos =>
      rw [List.map_cons] at hcell ⊢
      obtain ⟨v, heq⟩ | heq := fold_slot values id pos <;> rw [heq] at hcell ⊢ <;> exact hcell
    | left => rfl
    | value | operator | right | call => exact hcell

theorem popAll_fold (output stack : List Cell) :
    popAll (output.map (Cell.fold values)) (stack.map (Cell.fold values)) =
      (popAll output stack).map (List.map (Cell.fold values)) := by
  induction stack generalizing output with
  | nil => simp [popAll, Except.map]
  | cons cell stack ih =>
    have hcell := ih (cell :: output)
    cases cell with
    | slot id pos =>
      rw [List.map_cons] at hcell ⊢
      obtain ⟨v, heq⟩ | heq := fold_slot values id pos <;> rw [heq] at hcell ⊢ <;> exact hcell
    | left => rfl
    | value | operator | right | call => exact hcell

theorem convertFrom_fold (output stack cells : List Cell) :
    convertFrom (output.map (Cell.fold values)) (stack.map (Cell.fold values)) (cells.map (Cell.fold values)) =
      (convertFrom output stack cells).map (List.map (Cell.fold values)) := by
  induction cells generalizing output stack with
  | nil => exact popAll_fold values output stack
  | cons cell rest ih =>
    have hcell := ih (cell :: output) stack
    cases cell with
    | slot id pos =>
      rw [List.map_cons] at hcell ⊢
      obtain ⟨v, heq⟩ | heq := fold_slot values id pos <;> rw [heq] at hcell ⊢ <;> exact hcell
    | value | call => exact hcell
    | left pos => exact ih output (.left pos :: stack)
    | operator op pos =>
      rw [List.map_cons, Cell.fold, convertFrom, convertFrom]
      simp only
      split
      · exact ih output (.operator op pos :: stack)
      · rw [popYielding_fold]
        exact ih _ (.operator op pos :: _)
    | right pos =>
      rw [List.map_cons, Cell.fold, convertFrom, convertFrom, popToLeft?_fold]
      cases popToLeft? output stack with
      | none => rfl
      | some popped => exact ih popped.1 popped.2

/-- An expression is converted whatever is replaced in it, and the same is replaced in what comes of it. -/
theorem convert_fold (cells : List Cell) :
    convert (Cell.foldAll values cells) = (convert cells).map (Cell.foldAll values) := by
  have hfold := funext (Cell.foldAll_eq_map values)
  rw [hfold]
  exact convertFrom_fold values [] [] cells

end Postfix

section Building

variable (values : Valuation) (p : List BlockKey)

@[simp] theorem Expr.fold_ofValue (v : Value) (pos : Position) :
    (Expr.ofValue v pos).fold values p = Expr.ofValue v pos := by
  cases v <;> rfl

theorem Expr.applyOperator_fold (op : Operator) (pos : Position) (stack : List Expr) :
    Expr.applyOperator op pos (stack.map (Expr.fold values p)) =
      (Expr.applyOperator op pos stack).map (List.map (Expr.fold values p)) := by
  unfold Expr.applyOperator
  split
  · rcases stack with _ | ⟨x, stack⟩ <;> rfl
  · rcases stack with _ | ⟨r, _ | ⟨l, stack⟩⟩ <;> rfl

theorem Expr.finish_fold (pos : Position) (stack : List Expr) :
    Expr.finish pos (stack.map (Expr.fold values p)) = (Expr.finish pos stack).map (Expr.fold values p) := by
  rcases stack with _ | ⟨e, _ | ⟨e', stack⟩⟩ <;> rfl

mutual

/-- The tree of a sequence has the same replaced in it. -/
theorem Compiled.toExpr_fold (e : Compiled) :
    (e.fold (values p)).toExpr = e.toExpr.map (Expr.fold values p) := by
  obtain ⟨cells, pos⟩ := e
  rw [Compiled.fold, Compiled.toExpr, Compiled.toExpr]
  have hcells := Cell.toTrees_fold [] cells
  rw [List.map_nil] at hcells
  rw [hcells]
  cases Cell.toTrees [] cells with
  | error e => rfl
  | ok stack =>
    show (Expr.finish pos (stack.map (Expr.fold values p)) >>= _) = _
    rw [Expr.finish_fold]
    show _ = Except.map _ (Expr.finish pos stack >>= _)
    cases Expr.finish pos stack <;> rfl

theorem Cell.toTrees_fold (stack : List Expr) (cells : List Cell) :
    Cell.toTrees (stack.map (Expr.fold values p)) (Cell.foldAll (values p) cells) =
      (Cell.toTrees stack cells).map (List.map (Expr.fold values p)) := by
  cases cells with
  | nil =>
    rw [Cell.foldAll, Cell.toTrees, Cell.toTrees]
    rfl
  | cons cell rest =>
    have hrest (stack' : List Expr) := Cell.toTrees_fold stack' rest
    cases cell with
    | value v pos =>
      have hvalue := hrest (.ofValue v pos :: stack)
      rw [List.map_cons, Expr.fold_ofValue] at hvalue
      rw [Cell.foldAll, Cell.fold, Cell.toTrees, Cell.toTrees, hvalue]
    | slot id pos =>
      have hslot := hrest (.var id pos :: stack)
      rw [List.map_cons, Expr.fold] at hslot
      rw [Cell.foldAll, Cell.fold, Cell.toTrees, ← hslot]
      cases values p id pos <;> rw [Cell.toTrees]
    | call site =>
      rw [Cell.foldAll, Cell.fold, Cell.toTrees, Cell.toTrees, CallSite.toExpr_fold site]
      cases site.toExpr with
      | error e => rfl
      | ok tree => exact hrest (tree :: stack)
    | operator op pos =>
      rw [Cell.foldAll, Cell.fold, Cell.toTrees, Cell.toTrees, Expr.applyOperator_fold]
      cases Expr.applyOperator op pos stack with
      | error e => rfl
      | ok stack' => exact hrest stack'
    | left pos | right pos =>
      rw [Cell.foldAll, Cell.fold, Cell.toTrees, Cell.toTrees]
      rfl

theorem CallSite.toExpr_fold (site : CallSite) :
    (site.fold (values p)).toExpr = site.toExpr.map (Expr.fold values p) := by
  obtain ⟨callee, style, args, pos⟩ := site
  rw [CallSite.fold, CallSite.toExpr, CallSite.toExpr, SiteArgument.toArguments_fold args]
  cases SiteArgument.toArguments args <;> rfl

theorem SiteArgument.toArguments_fold (args : List SiteArgument) :
    SiteArgument.toArguments (SiteArgument.foldAll (values p) args) =
      (SiteArgument.toArguments args).map (Argument.foldAll values p) := by
  cases args with
  | nil =>
    rw [SiteArgument.foldAll, SiteArgument.toArguments]
    rfl
  | cons arg args =>
    rw [SiteArgument.foldAll, SiteArgument.toArguments, SiteArgument.toArguments, SiteArgument.toArgument_fold arg,
      SiteArgument.toArguments_fold args]
    cases arg.toArgument with
    | error e => rfl
    | ok tree => cases SiteArgument.toArguments args <;> rfl

theorem SiteArgument.toArgument_fold (arg : SiteArgument) :
    (arg.fold (values p)).toArgument = arg.toArgument.map (Argument.fold values p) := by
  cases arg with
  | shorthand name value pos => rfl
  | assign name value pos | opAssign name op value pos | positional value pos =>
    rw [SiteArgument.fold, SiteArgument.toArgument, SiteArgument.toArgument, Compiled.toExpr_fold value]
    cases value.toExpr <;> rfl

end

/-- A call is put together whatever is replaced in its arguments. -/
theorem Resolution.callSite_fold (values : Ident → Position → Option Value) (callee : String) (id : Ident)
    (args : List SiteArgument) (pos : Position) :
    callSite callee id (SiteArgument.foldAll values args) pos =
      (callSite callee id args pos).map (CallSite.fold values) := by
  have hany : (args.map (SiteArgument.fold values)).any SiteArgument.isAssignment =
      args.any SiteArgument.isAssignment := by
    simp only [List.any_map, Function.comp_def, SiteArgument.isAssignment_fold]
  have hfind : (args.map (SiteArgument.fold values)).find? (·.name?.isNone) =
      (args.find? (·.name?.isNone)).map (SiteArgument.fold values) := by
    simp only [List.find?_map, Function.comp_def, SiteArgument.name?_fold]
  rw [SiteArgument.foldAll_eq_map]
  unfold callSite
  rw [hany, hfind]
  split
  · cases args.find? (·.name?.isNone) with
    | none => simp only [Option.map_none, Except.map, CallSite.fold, SiteArgument.foldAll_eq_map]
    | some arg => simp only [Option.map_some, SiteArgument.pos_fold, Except.map]
  · simp only [Except.map, CallSite.fold, SiteArgument.foldAll_eq_map, List.map_map, Function.comp_def,
      SiteArgument.pos_fold, SiteArgument.value_fold, SiteArgument.fold]

end Building

end ToneScript
