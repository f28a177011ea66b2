import ToneScript.Syntax.OfPostfix

/-! How a sequence becomes a tree: what one cell does to the trees on the stack, and what a whole sequence does. -/
namespace ToneScript

theorem bind_eq_ok {ε α β : Type} {x : Except ε α} {f : α → Except ε β} {b : β} :
    x >>= f = .ok b ↔ ∃ a, x = .ok a ∧ f a = .ok b := by
  cases x with
  | error e => exact ⟨nofun, fun ⟨_, h, _⟩ => nomatch h⟩
  | ok a => exact ⟨fun h => ⟨a, rfl, h⟩, fun ⟨_, h, hb⟩ => by cases h; exact hb⟩

/-- The tree of a call keeps its site. -/
theorem CallSite.toExpr_eq_ok {site : CallSite} {e : Expr} (h : site.toExpr = .ok e) :
    ∃ trees, e = .call site trees ∧ SiteArgument.toArguments site.args = .ok trees := by
  obtain ⟨callee, style, args, pos⟩ := site
  rw [CallSite.toExpr] at h
  obtain ⟨trees, htrees, h⟩ := bind_eq_ok.1 h
  cases h
  exact ⟨trees, rfl, htrees⟩

namespace Cell

/-- What a cell makes of the trees on a stack. -/
inductive Pushes : Cell → List Expr → List Expr → Prop where
  | value (v : Value) (pos : Position) (stack : List Expr) :
      Pushes (.value v pos) stack (.ofValue v pos :: stack)
  | slot (name : Ident) (pos : Position) (stack : List Expr) :
      Pushes (.slot name pos) stack (.var name pos :: stack)
  | call {site : CallSite} {args : List Argument} (tree : site.toExpr = .ok (.call site args))
      (stack : List Expr) : Pushes (.call site) stack (.call site args :: stack)
  | prefixed {op : Operator} (unary : op.isPrefix = true) (pos : Position) (e : Expr)
      (stack : List Expr) : Pushes (.operator op pos) (e :: stack) (.prefixed op e pos :: stack)
  | binary {op : Operator} (binary : op.isPrefix = false) (pos : Position) (l r : Expr)
      (stack : List Expr) : Pushes (.operator op pos) (r :: l :: stack) (.binary op l r pos :: stack)

/-- What a sequence makes of the trees on a stack. -/
inductive Builds : List Cell → List Expr → List Expr → Prop where
  | nil (stack : List Expr) : Builds [] stack stack
  | cons {cell : Cell} {rest : List Cell} {stack mid stack' : List Expr}
      (first : cell.Pushes stack mid) (others : Builds rest mid stack') :
      Builds (cell :: rest) stack stack'

variable {cell : Cell} {rest cells : List Cell} {stack mid stack' : List Expr}

theorem pushes_operator_iff {op : Operator} {pos : Position} :
    (Cell.operator op pos).Pushes stack mid ↔ Expr.applyOperator op pos stack = .ok mid := by
  constructor
  · intro h
    cases h with
    | prefixed hunary | binary hunary => simp [Expr.applyOperator, hunary]
  · intro h
    unfold Expr.applyOperator at h
    split at h <;> rename_i hunary <;> split at h <;> cases h
    · exact .prefixed hunary pos _ _
    · exact .binary (eq_false_of_ne_true hunary) pos _ _ _

theorem toTrees_cons_iff :
    toTrees stack (cell :: rest) = .ok stack' ↔ ∃ mid, cell.Pushes stack mid ∧ toTrees mid rest = .ok stack' := by
  cases cell with
  | value v pos =>
    rw [toTrees]
    exact ⟨fun h => ⟨_, .value v pos stack, h⟩, fun ⟨_, hpush, h⟩ => by cases hpush; exact h⟩
  | slot name pos =>
    rw [toTrees]
    exact ⟨fun h => ⟨_, .slot name pos stack, h⟩, fun ⟨_, hpush, h⟩ => by cases hpush; exact h⟩
  | call site =>
    rw [toTrees, bind_eq_ok]
    constructor
    · rintro ⟨tree, htree, h⟩
      obtain ⟨args, rfl, _⟩ := CallSite.toExpr_eq_ok htree
      exact ⟨_, .call htree stack, h⟩
    · rintro ⟨_, hpush, h⟩
      cases hpush with
      | call htree => exact ⟨_, htree, h⟩
  | operator op pos => simp only [toTrees, bind_eq_ok, pushes_operator_iff]
  | left pos | right pos =>
    rw [toTrees]
    exact ⟨nofun, fun ⟨_, hpush, _⟩ => nomatch hpush⟩

/-- Conversion to trees succeeds where the cells do, one after the other. -/
theorem toTrees_eq_ok_iff : toTrees stack cells = .ok stack' ↔ Builds cells stack stack' := by
  induction cells generalizing stack with
  | nil =>
    rw [toTrees]
    exact ⟨fun h => by cases h; exact .nil _, fun h => by cases h; rfl⟩
  | cons cell rest ih =>
    rw [toTrees_cons_iff]
    constructor
    · rintro ⟨mid, hpush, h⟩
      exact .cons hpush (ih.1 h)
    · rintro (_ | ⟨hpush, h⟩)
      exact ⟨_, hpush, ih.2 h⟩

end Cell

theorem Expr.finish_eq_ok {pos : Position} {stack : List Expr} {tree : Expr}
    (h : Expr.finish pos stack = .ok tree) : stack = [tree] := by
  unfold Expr.finish at h
  split at h <;> cases h
  rfl

/-- The tree of a sequence and how it is built. -/
theorem Compiled.toExpr_eq_ok {compiled : Compiled} {e : Expr} (h : compiled.toExpr = .ok e) :
    ∃ tree, e = .span compiled tree ∧ Cell.toTrees [] compiled.cells = .ok [tree] := by
  obtain ⟨cells, pos⟩ := compiled
  rw [Compiled.toExpr] at h
  obtain ⟨stack, hstack, h⟩ := bind_eq_ok.1 h
  obtain ⟨tree, htree, h⟩ := bind_eq_ok.1 h
  cases h
  exact ⟨tree, rfl, by rw [hstack, Expr.finish_eq_ok htree]⟩

end ToneScript
