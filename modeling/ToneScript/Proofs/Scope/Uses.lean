import ToneScript.Proofs.Scope.Growth
import ToneScript.Proofs.Syntax.Arguments

/-! The variables that are used in a function, where they stand, and what they refer to. -/
namespace ToneScript

/-- A use of a variable, with the blocks around it, innermost first. -/
structure Use where
  scope : List BlockKey
  name : Ident
  pos : Position

mutual

/-- The variables that are used in an expression, but not in the functions that are defined in it. -/
def Expr.uses (scope : List BlockKey) : Expr → List Use
  | .number .. => []
  | .boolean .. => []
  | .var name pos => [⟨scope, name, pos⟩]
  | .prefixed _ operand _ => operand.uses scope
  | .binary _ left right _ => left.uses scope ++ right.uses scope
  | .block key items _ => BlockEntry.usesOfAll (key :: scope) items
  | .call _ args => Argument.usesOfAll scope args
  | .conditional c t e _ => c.uses scope ++ (t.uses scope ++ e.uses scope)
  | .span _ tree => tree.uses scope

/-- The variables that are used in an entry of a block. -/
def BlockEntry.uses (scope : List BlockKey) : BlockEntry → List Use
  | .operator _ value guard _ => value.uses scope ++ Expr.usesOfOption scope guard
  | .closure .. => []

/-- The variables that are used in the entries of a block. -/
def BlockEntry.usesOfAll (scope : List BlockKey) : List BlockEntry → List Use
  | [] => []
  | item :: items => item.uses scope ++ BlockEntry.usesOfAll scope items

/-- The variables that are used in an expression that may be absent. -/
def Expr.usesOfOption (scope : List BlockKey) : Option Expr → List Use
  | none => []
  | some e => e.uses scope

/-- The variables that are used in an argument. An argument that is a name alone uses the variable of that name. -/
def Argument.uses (scope : List BlockKey) : Argument → List Use
  | .shorthand name pos => [⟨scope, name, pos⟩]
  | .assign _ value _ => value.uses scope
  | .opAssign _ _ value _ => value.uses scope
  | .positional value _ => value.uses scope

/-- The variables that are used in arguments. -/
def Argument.usesOfAll (scope : List BlockKey) : List Argument → List Use
  | [] => []
  | arg :: args => arg.uses scope ++ Argument.usesOfAll scope args

end

/-- The variables that are used in the body of a function, but not in the functions that are defined in it. -/
def FunctionDef.uses (f : FunctionDef) : List Use :=
  f.body.uses f.inside

/-- What a name refers to, apart from its type. -/
structure Target where
  block : BlockKey
  name : Ident
  isFunction : Bool
  /-- The number of blocks between the use and the declaration. -/
  crossed : Nat
deriving DecidableEq

namespace SymbolTable

/-- What a name at a position refers to in a chain of blocks, innermost first. -/
def target? (t : SymbolTable) (scope : List BlockKey) (name : Ident) (pos : Position) : Option Target :=
  (t.resolve scope name pos).map fun r => ⟨r.1.block, r.1.name, r.1.isFunction, r.2⟩

theorem target?_congr {t t' : SymbolTable} (h : ∀ key name, t'.find? key name = t.find? key name)
    (scope : List BlockKey) (name : Ident) (pos : Position) : t'.target? scope name pos = t.target? scope name pos := by
  unfold target? resolve
  congr 1
  induction scope with
  | nil => rfl
  | cons key scope ih => rw [findAlong?, findAlong?, h, ih]

theorem target?_enterBlock (t : SymbolTable) (key : BlockKey) (scope : List BlockKey) (name : Ident) (pos : Position) :
    (t.enterBlock key).target? scope name pos = t.target? scope name pos :=
  target?_congr (find?_enterBlock t key) scope name pos

theorem target?_enterScope (t : SymbolTable) (chain scope : List BlockKey) (name : Ident) (pos : Position) :
    (t.enterScope chain).target? scope name pos = t.target? scope name pos :=
  target?_congr (find?_enterScope t chain) scope name pos

/-- A table that comes later changes nothing but types. -/
theorem Later.target?_eq {t t' : SymbolTable} (h : Later UInt64.size t t') (scope : List BlockKey) (name : Ident)
    (pos : Position) : t'.target? scope name pos = t.target? scope name pos := by
  unfold target?
  rcases h.resolve_eq scope name pos.index.toNat_lt with ⟨hnone, hnone'⟩ | ⟨d, d', crossed, hd, hd', hbecomes⟩
  · rw [hnone, hnone']
  · rw [hd, hd', Option.map_some, Option.map_some, hbecomes.block_eq, hbecomes.name_eq, hbecomes.isFunction_eq]

/-- A name is found no further out than in a block that shows it. -/
theorem crossed_le {t : SymbolTable} {inner outer : List BlockKey} {key : BlockKey} {name : Ident} {pos : Position}
    {d d' : Declaration} {crossed : Nat} (h : t.resolve (inner ++ key :: outer) name pos = some (d, crossed))
    (hfind : t.find? key name = some d') (hvisible : d'.visibleAt pos.index = true) : crossed ≤ inner.length := by
  induction inner generalizing crossed with
  | nil =>
    rw [List.nil_append, resolve_cons_visible hfind hvisible] at h
    cases h
    exact Nat.le_refl 0
  | cons first inner ih =>
    rw [List.cons_append] at h
    rcases t.visible_or_hidden first name pos with ⟨e, he, hshown⟩ | hhidden
    · rw [resolve_cons_visible he hshown] at h
      cases h
      exact Nat.zero_le _
    · rw [resolve_cons_hidden hhidden] at h
      obtain ⟨⟨e, n⟩, hrest, heq⟩ := Option.map_eq_some_iff.1 h
      cases heq
      exact Nat.succ_le_succ (ih hrest)

end SymbolTable

/-- Whether a use of a variable in a function, with a number of blocks around the function, finds something in these
blocks that is not a function, but not in the outermost one. -/
def Use.isCaptured (t : SymbolTable) (around : Nat) (u : Use) : Bool :=
  (t.target? u.scope u.name u.pos).any fun target =>
    decide (u.scope.length - 1 - target.crossed < around) && target.block != rootBlock && !target.isFunction

section Within

variable {constants : List (Ident × Value)} {t : SymbolTable}

/-- Whether a use stands between two offsets, in blocks that are entered between them. -/
structure Use.Within (scope : List BlockKey) (lo hi : Nat) (u : Use) : Prop where
  between : u.pos.Between lo hi
  inside : ∃ inner, u.scope = inner ++ scope ∧ ∀ key ∈ inner, lo ≤ key.toNat

theorem Use.Within.widen {scope : List BlockKey} {lo lo' hi hi' : Nat} {u : Use} (h : u.Within scope lo' hi')
    (hlo : lo ≤ lo') (hhi : hi' ≤ hi) : u.Within scope lo hi := by
  obtain ⟨⟨hfirst, hlast⟩, inner, hscope, hinner⟩ := h
  constructor
  · exact ⟨Nat.le_trans hlo hfirst, Nat.lt_of_lt_of_le hlast hhi⟩
  · exact ⟨inner, hscope, fun key hkey => Nat.le_trans hlo (hinner key hkey)⟩

mutual

/-- The uses in an arithmetic expression stand where the expression does. -/
theorem Expr.uses_named {scope : List BlockKey} {lo hi : Nat} (e : Expr)
    (h : e.Obeys (.named constants t lo hi) scope) : ∀ u ∈ e.uses scope, u.Within scope lo hi := by
  cases e with
  | span compiled tree =>
    rw [Expr.uses]
    exact Expr.uses_named tree h
  | number | boolean => simp [Expr.uses]
  | var name pos =>
    rw [Expr.uses, List.forall_mem_singleton]
    exact ⟨h, [], rfl, nofun⟩
  | prefixed op operand pos =>
    rw [Expr.uses]
    exact Expr.uses_named operand h
  | binary op left right pos =>
    rw [Expr.uses, List.forall_mem_append]
    exact ⟨Expr.uses_named left h.1, Expr.uses_named right h.2⟩
  | block key items pos => exact h.1.elim
  | conditional c t e pos => exact h.1.elim
  | call site args =>
    obtain ⟨⟨_, hargs, _, hshorthand⟩, hall⟩ := h
    rw [Expr.uses]
    refine Argument.uses_named args hall fun name pos hmem => ?_
    obtain ⟨arg, harg, htree⟩ := mem_toArguments hargs hmem
    obtain ⟨value, rfl⟩ := toArgument_shorthand htree
    exact (hshorthand name value pos harg).1

theorem Argument.uses_named {scope : List BlockKey} {lo hi : Nat} (args : List Argument)
    (h : Argument.AllObey (.named constants t lo hi) scope args)
    (hshorthand : ∀ name pos, .shorthand name pos ∈ args → pos.Between lo hi) :
    ∀ u ∈ Argument.usesOfAll scope args, u.Within scope lo hi := by
  cases args with
  | nil => simp [Argument.usesOfAll]
  | cons arg args =>
    have hrest := Argument.uses_named args h.2 fun name pos hmem => hshorthand name pos (List.mem_cons_of_mem _ hmem)
    rw [Argument.usesOfAll, List.forall_mem_append]
    refine ⟨?_, hrest⟩
    cases arg with
    | shorthand name pos =>
      rw [Argument.uses, List.forall_mem_singleton]
      exact ⟨hshorthand name pos List.mem_cons_self, [], rfl, nofun⟩
    | assign _ value _ | opAssign _ _ value _ | positional value _ =>
      rw [Argument.uses]
      exact Expr.uses_named value h.1

end

mutual

/-- The uses in an expression stand where the expression does. -/
theorem Expr.Placed.uses {scope : List BlockKey} {lo hi : Nat} (e : Expr) (h : e.Placed constants t scope lo hi) :
    ∀ u ∈ e.uses scope, u.Within scope lo hi := by
  cases e with
  | conditional c e e' pos =>
    obtain ⟨m, n, hc, he, he'⟩ := h
    have hle₁ := (Expr.Placed.inOrder c hc).1
    have hle₂ := (Expr.Placed.inOrder e he).1
    have hle₃ := (Expr.Placed.inOrder e' he').1
    have hfirst := Expr.Placed.uses c hc
    have hsecond := Expr.Placed.uses e he
    have hthird := Expr.Placed.uses e' he'
    rw [Expr.uses, List.forall_mem_append, List.forall_mem_append]
    refine ⟨fun u hu => (hfirst u hu).widen (Nat.le_refl lo) ?_, fun u hu => (hsecond u hu).widen hle₁ hle₃,
      fun u hu => (hthird u hu).widen ?_ (Nat.le_refl hi)⟩
    · exact Nat.le_trans hle₂ hle₃
    · exact Nat.le_trans hle₁ hle₂
  | block key items pos =>
    obtain ⟨⟨hlo, _⟩, hitems⟩ := h
    have hall := BlockEntry.AllPlaced.uses items hitems
    rw [Expr.uses]
    intro u hu
    obtain ⟨hbetween, inner, hscope, hinner⟩ := (hall u hu).widen (Nat.le_succ_of_le hlo) (Nat.le_refl hi)
    refine ⟨hbetween, inner ++ [key], by simpa using hscope, ?_⟩
    rw [List.forall_mem_append, List.forall_mem_singleton]
    exact ⟨hinner, hlo⟩
  | span compiled tree =>
    rw [Expr.uses]
    exact Expr.uses_named tree h.2.2
  | number | boolean | var | prefixed | binary | call => cases h

theorem BlockEntry.AllPlaced.uses {scope : List BlockKey} {lo hi : Nat} (items : List BlockEntry)
    (h : BlockEntry.AllPlaced constants t scope lo hi items) :
    ∀ u ∈ BlockEntry.usesOfAll scope items, u.Within scope lo hi := by
  cases items with
  | nil => simp [BlockEntry.usesOfAll]
  | cons item items =>
    obtain ⟨m, hitem, hitems⟩ := h
    have hlo := (BlockEntry.Placed.inOrder item hitem).1
    have hhi := (BlockEntry.AllPlaced.inOrder items hitems).1
    have hfirst := BlockEntry.Placed.uses item hitem
    have hrest := BlockEntry.AllPlaced.uses items hitems
    rw [BlockEntry.usesOfAll, List.forall_mem_append]
    exact ⟨fun u hu => (hfirst u hu).widen (Nat.le_refl lo) hhi,
      fun u hu => (hrest u hu).widen hlo (Nat.le_refl hi)⟩

theorem BlockEntry.Placed.uses {scope : List BlockKey} {lo hi : Nat} (item : BlockEntry)
    (h : item.Placed constants t scope lo hi) : ∀ u ∈ item.uses scope, u.Within scope lo hi := by
  cases item with
  | operator op value guard pos =>
    obtain ⟨_, m, hvalue, hguard⟩ := h
    have hlo := (Expr.Placed.inOrder value hvalue).1
    have hhi := (Expr.OptionPlaced.inOrder guard hguard).1
    have hfirst := Expr.Placed.uses value hvalue
    have hrest := Expr.OptionPlaced.uses guard hguard
    rw [BlockEntry.uses, List.forall_mem_append]
    exact ⟨fun u hu => (hfirst u hu).widen (Nat.le_refl lo) hhi,
      fun u hu => (hrest u hu).widen hlo (Nat.le_refl hi)⟩
  | closure f pos => simp [BlockEntry.uses]

theorem Expr.OptionPlaced.uses {scope : List BlockKey} {lo hi : Nat} (e : Option Expr)
    (h : Expr.OptionPlaced constants t scope lo hi e) : ∀ u ∈ Expr.usesOfOption scope e, u.Within scope lo hi := by
  cases e with
  | none => simp [Expr.usesOfOption]
  | some e =>
    rw [Expr.usesOfOption]
    exact Expr.Placed.uses e h

end

theorem FunctionDef.Placed.inside_eq {scope : List BlockKey} {lo hi : Nat} {f : FunctionDef}
    (h : f.Placed constants t scope lo hi) : f.inside = f.argsKey :: scope := by
  have hscope : f.scope = scope.reverse := (FunctionDef.placed_iff.1 h).2.1
  rw [FunctionDef.inside, FunctionDef.bodyScope, hscope, List.reverse_append, List.reverse_reverse]
  rfl

theorem FunctionDef.Placed.body {scope : List BlockKey} {lo hi : Nat} {f : FunctionDef}
    (h : f.Placed constants t scope lo hi) : f.body.Placed constants t f.inside (f.argsKey.toNat + 1) hi := by
  rw [h.inside_eq]
  exact (FunctionDef.placed_iff.1 h).2.2.2.2.2.2

/-- The uses in a function stand after its parameters. -/
theorem FunctionDef.Placed.uses {scope : List BlockKey} {lo hi : Nat} {f : FunctionDef}
    (h : f.Placed constants t scope lo hi) :
    ∀ u ∈ f.uses, u.Within (f.argsKey :: scope) (f.argsKey.toNat + 1) hi := by
  rw [← h.inside_eq]
  exact Expr.Placed.uses f.body h.body

end Within

end ToneScript
