import ToneScript.Proofs.Syntax.Trees

/-! Rules for the parts of a program. An expression obeys a rule if each of its parts does, in the place
where it stands. -/
namespace ToneScript

/-- The blocks around the body of a function, innermost first. -/
def FunctionDef.inside (f : FunctionDef) : List BlockKey :=
  f.bodyScope.reverse

/-- What is asked of the parts of a program, with the blocks around them, innermost first. -/
structure Rule where
  var : List BlockKey → Ident → Position → Prop := fun _ _ _ => True
  call : List BlockKey → CallSite → List Argument → Prop := fun _ _ _ => True
  block : List BlockKey → BlockKey → Prop := fun _ _ => True
  conditional : List BlockKey → Expr → Expr → Expr → Prop := fun _ _ _ _ => True
  /-- An operator that stands before an entry of a block, with the guard of the entry. -/
  entry : List BlockKey → Operator → Option Expr → Prop := fun _ _ _ => True
  definition : List BlockKey → FunctionDef → Prop := fun _ _ => True
  assignment : Ident → Expr → Prop := fun _ _ => True

mutual

/-- Whether an expression obeys a rule in a place. -/
def Expr.Obeys (R : Rule) (p : List BlockKey) : Expr → Prop
  | .number .. => True
  | .boolean .. => True
  | .var name pos => R.var p name pos
  | .prefixed _ operand _ => operand.Obeys R p
  | .binary _ left right _ => left.Obeys R p ∧ right.Obeys R p
  | .block key entries _ => R.block p key ∧ BlockEntry.AllObey R (key :: p) entries
  | .call site args => R.call p site args ∧ Argument.AllObey R p args
  | .conditional c t e _ => R.conditional p c t e ∧ c.Obeys R p ∧ t.Obeys R p ∧ e.Obeys R p
  | .span _ tree => tree.Obeys R p

/-- Whether an entry of a block obeys a rule. -/
def BlockEntry.Obeys (R : Rule) (p : List BlockKey) : BlockEntry → Prop
  | .operator op value guard _ =>
    R.entry p op guard ∧ value.Obeys R p ∧ Expr.OptionObeys R p guard
  | .closure f _ => f.Obeys R p

/-- Whether all entries obey a rule. -/
def BlockEntry.AllObey (R : Rule) (p : List BlockKey) : List BlockEntry → Prop
  | [] => True
  | item :: items => item.Obeys R p ∧ BlockEntry.AllObey R p items

/-- Whether an expression that may be absent obeys a rule. -/
def Expr.OptionObeys (R : Rule) (p : List BlockKey) : Option Expr → Prop
  | none => True
  | some e => e.Obeys R p

/-- Whether a function that is defined in a place obeys a rule. -/
def FunctionDef.Obeys (R : Rule) (p : List BlockKey) : FunctionDef → Prop
  | ⟨name, pos, params, argsKey, around, body⟩ =>
    R.definition p ⟨name, pos, params, argsKey, around, body⟩ ∧
      body.Obeys R (around ++ [argsKey]).reverse

/-- Whether an argument obeys a rule. -/
def Argument.Obeys (R : Rule) (p : List BlockKey) : Argument → Prop
  | .shorthand .. => True
  | .assign _ value _ => value.Obeys R p
  | .opAssign _ _ value _ => value.Obeys R p
  | .positional value _ => value.Obeys R p

/-- Whether all arguments obey a rule. -/
def Argument.AllObey (R : Rule) (p : List BlockKey) : List Argument → Prop
  | [] => True
  | arg :: args => arg.Obeys R p ∧ Argument.AllObey R p args

end

/-- Whether an item obeys a rule. -/
def Item.Obeys (R : Rule) : Item → Prop
  | .function f _ => f.Obeys R [rootBlock]
  | .assignment name value _ => R.assignment name value ∧ value.Obeys R [rootBlock]

/-- Whether a program obeys a rule. -/
def Program.Obeys (R : Rule) (program : Program) : Prop :=
  ∀ item ∈ program, item.Obeys R

theorem FunctionDef.obeys_iff {R : Rule} {p : List BlockKey} {f : FunctionDef} :
    f.Obeys R p ↔ R.definition p f ∧ f.body.Obeys R f.inside := by
  cases f
  exact Iff.rfl

theorem Argument.allObey_iff {R : Rule} {p : List BlockKey} {args : List Argument} :
    Argument.AllObey R p args ↔ ∀ arg ∈ args, arg.Obeys R p := by
  induction args with
  | nil => exact ⟨fun _ => nofun, fun _ => trivial⟩
  | cons arg args ih => rw [Argument.AllObey, ih, List.forall_mem_cons]

/-- The value that is written out in an argument obeys what the argument does. -/
theorem Argument.Obeys.value {R : Rule} {p : List BlockKey} {arg : Argument} (h : arg.Obeys R p)
    {value : Expr} (hvalue : arg.value? = some value) : value.Obeys R p := by
  cases arg <;> cases hvalue <;> exact h

/-- Wherever a function is defined, it has a property. -/
def Rule.defining (P : FunctionDef → Prop) : Rule where
  definition _ f := P f

section Defining

variable {P : FunctionDef → Prop}

mutual

/-- A property that all functions have is one of those that are defined in an expression. -/
theorem Expr.obeys_defining (hP : ∀ f, P f) (p : List BlockKey) (e : Expr) : e.Obeys (.defining P) p := by
  cases e with
  | number | boolean | var => trivial
  | prefixed op operand pos => exact Expr.obeys_defining hP p operand
  | binary op left right pos => exact ⟨Expr.obeys_defining hP p left, Expr.obeys_defining hP p right⟩
  | block key entries pos => exact ⟨trivial, BlockEntry.allObey_defining hP (key :: p) entries⟩
  | call site args => exact ⟨trivial, Argument.allObey_defining hP p args⟩
  | conditional c t e pos =>
    exact ⟨trivial, Expr.obeys_defining hP p c, Expr.obeys_defining hP p t, Expr.obeys_defining hP p e⟩
  | span compiled tree => exact Expr.obeys_defining hP p tree

theorem BlockEntry.obeys_defining (hP : ∀ f, P f) (p : List BlockKey) (item : BlockEntry) :
    item.Obeys (.defining P) p := by
  cases item with
  | operator op value guard pos =>
    exact ⟨trivial, Expr.obeys_defining hP p value, Expr.optionObeys_defining hP p guard⟩
  | closure f pos => exact FunctionDef.obeys_defining hP p f

theorem BlockEntry.allObey_defining (hP : ∀ f, P f) (p : List BlockKey) (items : List BlockEntry) :
    BlockEntry.AllObey (.defining P) p items := by
  cases items with
  | nil => trivial
  | cons item items => exact ⟨BlockEntry.obeys_defining hP p item, BlockEntry.allObey_defining hP p items⟩

theorem Expr.optionObeys_defining (hP : ∀ f, P f) (p : List BlockKey) (e : Option Expr) :
    Expr.OptionObeys (.defining P) p e := by
  cases e with
  | none => trivial
  | some e => exact Expr.obeys_defining hP p e

theorem FunctionDef.obeys_defining (hP : ∀ f, P f) (p : List BlockKey) (f : FunctionDef) :
    f.Obeys (.defining P) p := by
  obtain ⟨name, pos, params, argsKey, around, body⟩ := f
  exact ⟨hP _, Expr.obeys_defining hP _ body⟩

theorem Argument.obeys_defining (hP : ∀ f, P f) (p : List BlockKey) (arg : Argument) : arg.Obeys (.defining P) p := by
  cases arg with
  | shorthand => trivial
  | assign _ value _ | opAssign _ _ value _ | positional value _ => exact Expr.obeys_defining hP p value

theorem Argument.allObey_defining (hP : ∀ f, P f) (p : List BlockKey) (args : List Argument) :
    Argument.AllObey (.defining P) p args := by
  cases args with
  | nil => trivial
  | cons arg args => exact ⟨Argument.obeys_defining hP p arg, Argument.allObey_defining hP p args⟩

end

end Defining

/-- A rule that can be decided for every part of a program. -/
class Rule.Checkable (R : Rule) where
  var : ∀ p name pos, Decidable (R.var p name pos)
  call : ∀ p site args, Decidable (R.call p site args)
  block : ∀ p key, Decidable (R.block p key)
  conditional : ∀ p c t e, Decidable (R.conditional p c t e)
  entry : ∀ p op guard, Decidable (R.entry p op guard)
  definition : ∀ p f, Decidable (R.definition p f)
  assignment : ∀ name value, Decidable (R.assignment name value)

section Decide

variable (R : Rule) [R.Checkable]

mutual

/-- Decides whether an expression obeys a rule. -/
def Expr.decideObeys (p : List BlockKey) : (e : Expr) → Decidable (e.Obeys R p)
  | .number .. => .isTrue trivial
  | .boolean .. => .isTrue trivial
  | .var name pos => Rule.Checkable.var p name pos
  | .prefixed _ operand _ => operand.decideObeys p
  | .binary _ left right _ => @instDecidableAnd _ _ (left.decideObeys p) (right.decideObeys p)
  | .block key entries _ => @instDecidableAnd _ _ (Rule.Checkable.block p key)
      (BlockEntry.decideAllObey (key :: p) entries)
  | .call site args => @instDecidableAnd _ _ (Rule.Checkable.call p site args)
      (Argument.decideAllObey p args)
  | .conditional c t e _ => @instDecidableAnd _ _ (Rule.Checkable.conditional p c t e)
      (@instDecidableAnd _ _ (c.decideObeys p) (@instDecidableAnd _ _ (t.decideObeys p) (e.decideObeys p)))
  | .span _ tree => tree.decideObeys p

/-- Decides whether an entry obeys a rule. -/
def BlockEntry.decideObeys (p : List BlockKey) : (item : BlockEntry) → Decidable (item.Obeys R p)
  | .operator op value guard _ => @instDecidableAnd _ _ (Rule.Checkable.entry p op guard)
      (@instDecidableAnd _ _ (value.decideObeys p) (Expr.decideOptionObeys p guard))
  | .closure f _ => f.decideObeys p

/-- Decides whether all entries obey a rule. -/
def BlockEntry.decideAllObey (p : List BlockKey) :
    (items : List BlockEntry) → Decidable (BlockEntry.AllObey R p items)
  | [] => .isTrue trivial
  | item :: items => @instDecidableAnd _ _ (item.decideObeys p) (BlockEntry.decideAllObey p items)

/-- Decides whether an expression that may be absent obeys a rule. -/
def Expr.decideOptionObeys (p : List BlockKey) : (e : Option Expr) → Decidable (Expr.OptionObeys R p e)
  | none => .isTrue trivial
  | some e => e.decideObeys p

/-- Decides whether a function obeys a rule. -/
def FunctionDef.decideObeys (p : List BlockKey) : (f : FunctionDef) → Decidable (f.Obeys R p)
  | ⟨name, pos, params, argsKey, around, body⟩ => @instDecidableAnd _ _
      (Rule.Checkable.definition p ⟨name, pos, params, argsKey, around, body⟩)
      (body.decideObeys (around ++ [argsKey]).reverse)

/-- Decides whether an argument obeys a rule. -/
def Argument.decideObeys (p : List BlockKey) : (arg : Argument) → Decidable (arg.Obeys R p)
  | .shorthand .. => .isTrue trivial
  | .assign _ value _ => value.decideObeys p
  | .opAssign _ _ value _ => value.decideObeys p
  | .positional value _ => value.decideObeys p

/-- Decides whether all arguments obey a rule. -/
def Argument.decideAllObey (p : List BlockKey) : (args : List Argument) → Decidable (Argument.AllObey R p args)
  | [] => .isTrue trivial
  | arg :: args => @instDecidableAnd _ _ (arg.decideObeys p) (Argument.decideAllObey p args)

end

instance (item : Item) : Decidable (item.Obeys R) :=
  match item with
  | .function f _ => f.decideObeys R [rootBlock]
  | .assignment name value _ => @instDecidableAnd _ _ (Rule.Checkable.assignment name value)
      (value.decideObeys R [rootBlock])

instance (program : Program) : Decidable (program.Obeys R) :=
  inferInstanceAs (Decidable (∀ item ∈ program, item.Obeys R))

end Decide

section Trees

variable {R : Rule} {p : List BlockKey}

/-- Whether an operand of a sequence obeys a rule. -/
def Cell.Obeys (R : Rule) (p : List BlockKey) : Cell → Prop
  | .slot name pos => R.var p name pos
  | .call site => ∀ tree, site.toExpr = .ok tree → tree.Obeys R p
  | _ => True

theorem Expr.obeys_ofValue (v : Value) (pos : Position) : (Expr.ofValue v pos).Obeys R p := by
  cases v <;> trivial

/-- A cell whose operand obeys a rule makes trees that do of trees that do. -/
theorem Cell.Pushes.obeys {cell : Cell} {stack mid : List Expr} (h : cell.Pushes stack mid)
    (hcell : cell.Obeys R p) (hstack : ∀ e ∈ stack, e.Obeys R p) : ∀ e ∈ mid, e.Obeys R p := by
  cases h with
  | value v pos => exact List.forall_mem_cons.2 ⟨Expr.obeys_ofValue v pos, hstack⟩
  | slot name pos => exact List.forall_mem_cons.2 ⟨hcell, hstack⟩
  | call htree => exact List.forall_mem_cons.2 ⟨hcell _ htree, hstack⟩
  | prefixed =>
    obtain ⟨he, hrest⟩ := List.forall_mem_cons.1 hstack
    exact List.forall_mem_cons.2 ⟨he, hrest⟩
  | binary =>
    obtain ⟨hr, hl, hrest⟩ := (List.forall_mem_cons.1 hstack).imp_right List.forall_mem_cons.1
    exact List.forall_mem_cons.2 ⟨⟨hl, hr⟩, hrest⟩

/-- What a cell makes obeys a rule only if it makes it of trees that do. -/
theorem Cell.Pushes.obeys_of {cell : Cell} {stack mid : List Expr} (h : cell.Pushes stack mid)
    (hmid : ∀ e ∈ mid, e.Obeys R p) : ∀ e ∈ stack, e.Obeys R p := by
  cases h with
  | value | slot | call => exact (List.forall_mem_cons.1 hmid).2
  | prefixed =>
    obtain ⟨he, hrest⟩ := List.forall_mem_cons.1 hmid
    exact List.forall_mem_cons.2 ⟨he, hrest⟩
  | binary =>
    obtain ⟨⟨hl, hr⟩, hrest⟩ := List.forall_mem_cons.1 hmid
    exact List.forall_mem_cons.2 ⟨hr, List.forall_mem_cons.2 ⟨hl, hrest⟩⟩

/-- A sequence whose operands obey a rule makes trees that do. -/
theorem Cell.obeys_toTrees {stack stack' : List Expr} {cells : List Cell}
    (h : Cell.toTrees stack cells = .ok stack') (hstack : ∀ e ∈ stack, e.Obeys R p)
    (hcells : ∀ c ∈ cells, c.Obeys R p) : ∀ e ∈ stack', e.Obeys R p := by
  rw [Cell.toTrees_eq_ok_iff] at h
  induction h with
  | nil stack => exact hstack
  | cons first _ ih =>
    obtain ⟨hcell, hrest⟩ := List.forall_mem_cons.1 hcells
    exact ih (first.obeys hcell hstack) hrest

/-- Trees that obey a rule are made of trees that do. -/
theorem Cell.obeys_of_toTrees {stack stack' : List Expr} {cells : List Cell}
    (h : Cell.toTrees stack cells = .ok stack') (hstack : ∀ e ∈ stack', e.Obeys R p) :
    ∀ e ∈ stack, e.Obeys R p := by
  rw [Cell.toTrees_eq_ok_iff] at h
  induction h with
  | nil stack => exact hstack
  | cons first _ ih => exact first.obeys_of (ih hstack)

end Trees

end ToneScript
