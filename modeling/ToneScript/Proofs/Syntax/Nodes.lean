import ToneScript.Proofs.Scope.Placement

/-! The nodes of syntax trees: the parts of a program that a check gives types to. They are listed in the order in which
they get them, operands before operators and bodies before definitions. -/
namespace ToneScript

/-- A part of a program that has a type of its own: an expression, with the blocks around it, innermost first, or a
function that is defined in a block. -/
inductive Node where
  | expr (scope : List BlockKey) (e : Expr)
  | closure (f : FunctionDef) (pos : Position)

/-- The position of a node. -/
def Node.pos : Node → Position
  | expr _ e => e.pos
  | closure _ pos => pos

mutual

/-- The nodes of an expression in a chain of blocks. The sequence that a tree was built from is no node. -/
def Expr.nodes (p : List BlockKey) : Expr → List Node
  | .span _ tree => tree.nodes p
  | .number v pos => [.expr p (.number v pos)]
  | .boolean b pos => [.expr p (.boolean b pos)]
  | .var name pos => [.expr p (.var name pos)]
  | .prefixed op operand pos => operand.nodes p ++ [.expr p (.prefixed op operand pos)]
  | .binary op left right pos => left.nodes p ++ right.nodes p ++ [.expr p (.binary op left right pos)]
  | .block key entries pos => BlockEntry.nodesOfAll (key :: p) entries ++ [.expr p (.block key entries pos)]
  | .conditional c t e pos => c.nodes p ++ t.nodes p ++ e.nodes p ++ [.expr p (.conditional c t e pos)]
  | .call site args => Argument.nodesOfAll p args ++ [.expr p (.call site args)]

/-- The nodes of an entry of a block. -/
def BlockEntry.nodes (p : List BlockKey) : BlockEntry → List Node
  | .operator _ value guard _ => value.nodes p ++ Expr.nodesOfOption p guard
  | .closure f pos => f.nodes ++ [.closure f pos]

/-- The nodes of the entries of a block. -/
def BlockEntry.nodesOfAll (p : List BlockKey) : List BlockEntry → List Node
  | [] => []
  | item :: items => item.nodes p ++ BlockEntry.nodesOfAll p items

/-- The nodes of an expression that may be absent. -/
def Expr.nodesOfOption (p : List BlockKey) : Option Expr → List Node
  | none => []
  | some e => e.nodes p

/-- The nodes of the body of a function. -/
def FunctionDef.nodes : FunctionDef → List Node
  | ⟨_, _, _, argsKey, around, body⟩ => body.nodes (around ++ [argsKey]).reverse

/-- The nodes of an argument. A name alone is none. -/
def Argument.nodes (p : List BlockKey) : Argument → List Node
  | .shorthand .. => []
  | .assign _ value _ => value.nodes p
  | .opAssign _ _ value _ => value.nodes p
  | .positional value _ => value.nodes p

/-- The nodes of arguments. -/
def Argument.nodesOfAll (p : List BlockKey) : List Argument → List Node
  | [] => []
  | arg :: args => arg.nodes p ++ Argument.nodesOfAll p args

end

/-- The nodes of an item. -/
def Item.nodes : Item → List Node
  | .function f _ => f.nodes
  | .assignment _ value _ => value.nodes [rootBlock]

/-- The nodes of a program. -/
def Program.nodes (program : Program) : List Node :=
  program.flatMap Item.nodes

theorem FunctionDef.nodes_eq (f : FunctionDef) : f.nodes = f.body.nodes f.inside := by
  cases f
  rw [FunctionDef.nodes]
  rfl

mutual

theorem Expr.nodes_of_functions (p : List BlockKey) (e : Expr) : ∀ f ∈ e.functions, f.nodes ⊆ e.nodes p := by
  cases e with
  | block key entries pos =>
    rw [Expr.functions, Expr.nodes]
    exact fun f hf =>
      List.Subset.trans (BlockEntry.nodes_of_functionsOfAll (key :: p) entries f hf) (List.subset_append_left _ _)
  | conditional c t e pos =>
    have hc := Expr.nodes_of_functions p c
    have ht := Expr.nodes_of_functions p t
    have he := Expr.nodes_of_functions p e
    intro f hf n hn
    simp only [Expr.functions, Expr.nodes, List.mem_append] at hf ⊢
    rcases hf with (hf | hf) | hf
    · exact .inl (.inl (.inl (hc f hf hn)))
    · exact .inl (.inl (.inr (ht f hf hn)))
    · exact .inl (.inr (he f hf hn))
  | number | boolean | var | prefixed | binary | call | span => exact nofun

theorem BlockEntry.nodes_of_functions (p : List BlockKey) (item : BlockEntry) :
    ∀ f ∈ item.functions, f.nodes ⊆ item.nodes p := by
  cases item with
  | operator op value guard pos =>
    have hvalue := Expr.nodes_of_functions p value
    have hguard := Expr.nodes_of_functionsOfOption p guard
    intro f hf n hn
    simp only [BlockEntry.functions, BlockEntry.nodes, List.mem_append] at hf ⊢
    exact hf.imp (hvalue f · hn) (hguard f · hn)
  | closure g pos =>
    rw [BlockEntry.functions, BlockEntry.nodes]
    exact fun f hf => List.Subset.trans (FunctionDef.nodes_of_functions g f hf) (List.subset_append_left _ _)

theorem BlockEntry.nodes_of_functionsOfAll (p : List BlockKey) (items : List BlockEntry) :
    ∀ f ∈ BlockEntry.functionsOfAll items, f.nodes ⊆ BlockEntry.nodesOfAll p items := by
  cases items with
  | nil => exact nofun
  | cons item items =>
    have hitem := BlockEntry.nodes_of_functions p item
    have hitems := BlockEntry.nodes_of_functionsOfAll p items
    intro f hf n hn
    simp only [BlockEntry.functionsOfAll, BlockEntry.nodesOfAll, List.mem_append] at hf ⊢
    exact hf.imp (hitem f · hn) (hitems f · hn)

theorem Expr.nodes_of_functionsOfOption (p : List BlockKey) (e : Option Expr) :
    ∀ f ∈ Expr.functionsOfOption e, f.nodes ⊆ Expr.nodesOfOption p e := by
  cases e with
  | none => exact nofun
  | some e => exact Expr.nodes_of_functions p e

theorem FunctionDef.nodes_of_functions (g : FunctionDef) : ∀ f ∈ g.functions, f.nodes ⊆ g.nodes := by
  obtain ⟨name, pos, params, argsKey, around, body⟩ := g
  intro f hf
  rw [FunctionDef.functions] at hf
  rcases List.mem_cons.1 hf with rfl | hf
  · exact List.Subset.refl _
  · rw [FunctionDef.nodes]
    exact Expr.nodes_of_functions _ body f hf

end

theorem Program.nodes_of_functions (program : Program) : ∀ f ∈ program.functions, f.nodes ⊆ program.nodes := by
  intro f hf
  obtain ⟨item, hitem, hf⟩ := List.mem_flatMap.1 hf
  have hnodes : f.nodes ⊆ item.nodes := by
    cases item with
    | function g pos => exact FunctionDef.nodes_of_functions g f hf
    | assignment name value pos => exact Expr.nodes_of_functions _ value f hf
  exact List.Subset.trans hnodes fun n hn => List.mem_flatMap.2 ⟨item, hitem, hn⟩

end ToneScript
