import ToneScript.Proofs.Scope.Growth
import ToneScript.Proofs.Syntax.Arguments
import ToneScript.Proofs.Syntax.Journal

/-! What opens blocks in a program: the brackets of blocks and those of functions, wherever they stand. They
follow each other in the text, so that no two of them have one key. -/
namespace ToneScript

/-- What opens a block: a block of entries, or the parameters of a function. -/
inductive Opening where
  | block (key : BlockKey)
  | function (f : FunctionDef)

/-- The key of the block that is opened. -/
def Opening.key : Opening → BlockKey
  | block key => key
  | function f => f.argsKey

mutual

/-- What opens blocks in an expression, in the order of the text. -/
def Expr.openings : Expr → List Opening
  | .number .. | .boolean .. | .var .. => []
  | .prefixed _ operand _ => operand.openings
  | .binary _ left right _ => left.openings ++ right.openings
  | .block key entries _ => .block key :: BlockEntry.openingsOfAll entries
  | .call _ args => Argument.openingsOfAll args
  | .conditional c t e _ => c.openings ++ t.openings ++ e.openings
  | .span _ tree => tree.openings

/-- What opens blocks in an entry of a block. -/
def BlockEntry.openings : BlockEntry → List Opening
  | .operator _ value guard _ => value.openings ++ Expr.openingsOfOption guard
  | .closure definition _ => definition.openings

/-- What opens blocks in the entries of a block. -/
def BlockEntry.openingsOfAll : List BlockEntry → List Opening
  | [] => []
  | item :: items => item.openings ++ BlockEntry.openingsOfAll items

/-- What opens blocks in an expression that may be absent. -/
def Expr.openingsOfOption : Option Expr → List Opening
  | none => []
  | some e => e.openings

/-- A function and what opens blocks in its body. -/
def FunctionDef.openings : FunctionDef → List Opening
  | ⟨name, pos, params, argsKey, scope, body⟩ =>
    .function ⟨name, pos, params, argsKey, scope, body⟩ :: body.openings

/-- What opens blocks in an argument of a call. -/
def Argument.openings : Argument → List Opening
  | .shorthand .. => []
  | .assign _ value _ => value.openings
  | .opAssign _ _ value _ => value.openings
  | .positional value _ => value.openings

/-- What opens blocks in the arguments of a call. -/
def Argument.openingsOfAll : List Argument → List Opening
  | [] => []
  | arg :: args => arg.openings ++ Argument.openingsOfAll args

end

/-- What opens blocks in an item. -/
def Item.openings : Item → List Opening
  | .function definition _ => definition.openings
  | .assignment _ value _ => value.openings

/-- What opens blocks in a program, in the order of the text. -/
def Program.openings (program : Program) : List Opening :=
  program.flatMap Item.openings

/-- Expressions that open no block. -/
def Rule.flat : Rule where
  block _ _ := False
  conditional _ _ _ _ := False

theorem Rule.loose_flat : Rule.flat.Loose where
  var _ _ _ := trivial
  call _ _ _ _ := trivial

mutual

theorem Expr.openings_of_flat {p : List BlockKey} (e : Expr) (h : e.Obeys .flat p) : e.openings = [] := by
  cases e with
  | number | boolean | var => rfl
  | prefixed op operand pos => exact Expr.openings_of_flat operand h
  | binary op left right pos =>
    rw [Expr.openings, Expr.openings_of_flat left h.1, Expr.openings_of_flat right h.2, List.append_nil]
  | block key entries pos => exact h.1.elim
  | call site args => exact Argument.openings_of_flat args h.2
  | conditional c t e pos => exact h.1.elim
  | span compiled tree => exact Expr.openings_of_flat tree h

theorem Argument.openings_of_flat {p : List BlockKey} (args : List Argument) (h : Argument.AllObey .flat p args) :
    Argument.openingsOfAll args = [] := by
  cases args with
  | nil => rfl
  | cons arg args =>
    rw [Argument.openingsOfAll, Argument.openings_of_flat args h.2, List.append_nil]
    cases arg with
    | shorthand => rfl
    | assign _ value _ | opAssign _ _ value _ | positional value _ => exact Expr.openings_of_flat value h.1

end

/-- An arithmetic expression opens no block. -/
theorem Compiled.openings_of_toExpr (e : Compiled) {tree : Expr} (h : e.toExpr = .ok tree) : tree.openings = [] :=
  Expr.openings_of_flat tree (Compiled.obeys_of_toExpr [] Rule.loose_flat e h)

mutual

theorem Expr.definitions_opening (e : Expr) : ∀ f ∈ e.definitions, Opening.function f ∈ e.openings := by
  cases e with
  | block key entries pos =>
    intro f hf
    exact List.mem_cons_of_mem _ (BlockEntry.definitionsOfAll_opening entries f hf)
  | conditional c t e pos =>
    rw [Expr.definitions, List.forall_mem_append, List.forall_mem_append]
    refine ⟨⟨fun f hf => ?_, fun f hf => ?_⟩, fun f hf => ?_⟩
    · exact List.mem_append_left _ (List.mem_append_left _ (Expr.definitions_opening c f hf))
    · exact List.mem_append_left _ (List.mem_append_right _ (Expr.definitions_opening t f hf))
    · exact List.mem_append_right _ (Expr.definitions_opening e f hf)
  | number | boolean | var | prefixed | binary | call | span =>
    rw [Expr.definitions]
    exact List.forall_mem_nil _

theorem BlockEntry.definitionsOfAll_opening (entries : List BlockEntry) :
    ∀ f ∈ BlockEntry.definitionsOfAll entries, Opening.function f ∈ BlockEntry.openingsOfAll entries := by
  cases entries with
  | nil => exact List.forall_mem_nil _
  | cons entry entries =>
    rw [BlockEntry.definitionsOfAll, List.forall_mem_append]
    refine ⟨fun f hf => ?_, fun f hf => ?_⟩
    · exact List.mem_append_left _ (BlockEntry.definitions_opening entry f hf)
    · exact List.mem_append_right _ (BlockEntry.definitionsOfAll_opening entries f hf)

theorem BlockEntry.definitions_opening (entry : BlockEntry) :
    ∀ f ∈ entry.definitions, Opening.function f ∈ entry.openings := by
  cases entry with
  | operator op value guard pos => exact fun f hf => List.mem_append_left _ (Expr.definitions_opening value f hf)
  | closure definition pos => exact FunctionDef.definitions_opening definition

theorem FunctionDef.definitions_opening (g : FunctionDef) : ∀ f ∈ g.definitions, Opening.function f ∈ g.openings := by
  obtain ⟨name, pos, params, argsKey, scope, body⟩ := g
  rw [FunctionDef.definitions, List.forall_mem_cons]
  exact ⟨List.mem_cons_self, fun f hf => List.mem_cons_of_mem _ (Expr.definitions_opening body f hf)⟩

end

namespace Opening

/-- What opens blocks between two offsets, in the order of the text, where the table has the functions in the
blocks around them. -/
structure Laid (lo hi : Nat) (openings : List Opening) (t : SymbolTable) : Prop where
  le : lo ≤ hi
  ordered : openings.Pairwise (·.key.toNat < ·.key.toNat)
  between : ∀ o ∈ openings, lo ≤ o.key.toNat ∧ o.key.toNat < hi
  declared : ∀ f, .function f ∈ openings → t.find? f.block f.name = some f.declaration

namespace Laid

variable {lo mid hi : Nat} {openings openings' : List Opening} {t : SymbolTable}

theorem nil (h : lo ≤ hi) : Laid lo hi [] t where
  le := h
  ordered := .nil
  between := nofun
  declared := nofun

theorem append (h : Laid lo mid openings t) (h' : Laid mid hi openings' t) : Laid lo hi (openings ++ openings') t where
  le := Nat.le_trans h.le h'.le
  ordered := List.pairwise_append.2 ⟨h.ordered, h'.ordered, fun o ho o' ho' =>
    Nat.lt_of_lt_of_le (h.between o ho).2 (h'.between o' ho').1⟩
  between := List.forall_mem_append.2
    ⟨fun o ho => ⟨(h.between o ho).1, Nat.lt_of_lt_of_le (h.between o ho).2 h'.le⟩,
      fun o ho => ⟨Nat.le_trans h.le (h'.between o ho).1, (h'.between o ho).2⟩⟩
  declared f hf := (List.mem_append.1 hf).elim (h.declared f) (h'.declared f)

theorem singleton {o : Opening} (hlo : lo ≤ o.key.toNat) (hhi : o.key.toNat < hi)
    (hdeclared : ∀ f, o = .function f → t.find? f.block f.name = some f.declaration) : Laid lo hi [o] t where
  le := Nat.le_trans hlo (Nat.le_of_lt hhi)
  ordered := List.pairwise_singleton _ _
  between := List.forall_mem_singleton.2 ⟨hlo, hhi⟩
  declared f hf := hdeclared f (List.mem_singleton.1 hf).symm

theorem cons {o : Opening} (hlo : lo ≤ o.key.toNat) (h : Laid (o.key.toNat + 1) hi openings t)
    (hdeclared : ∀ f, o = .function f → t.find? f.block f.name = some f.declaration) : Laid lo hi (o :: openings) t :=
  (singleton hlo (Nat.lt_succ_self _) hdeclared).append h

/-- No two openings have one key. -/
theorem nodup (h : Laid lo hi openings t) : (openings.map Opening.key).Nodup := by
  rw [List.Nodup, List.pairwise_map]
  exact h.ordered.imp fun hlt heq => Nat.ne_of_lt hlt (congrArg UInt64.toNat heq)

end Laid

end Opening

end ToneScript
