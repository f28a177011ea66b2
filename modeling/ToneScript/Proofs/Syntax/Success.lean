import ToneScript.Proofs.Arithmetic.Derivation
import ToneScript.Proofs.Syntax.Balance

/-! Steps that succeed. What a step needs to succeed is known from the symbol table it starts on, and so is the table it
leaves. -/
namespace ToneScript

namespace SymbolTable

/-- The table after what was entered last is left; the table itself where nothing was entered. -/
def left (t : SymbolTable) : SymbolTable :=
  t.leave.toOption.getD t

/-- The table with a function declared in the innermost block. -/
def declareFunction (t : SymbolTable) (h : FunctionHeader) : SymbolTable :=
  t.declare h.name h.pos h.opening.index (some (.function h.name)) false

/-- The table with parameters declared in the innermost block. -/
def declareParams (t : SymbolTable) (h : FunctionHeader) (params : List Param) : SymbolTable :=
  params.foldl (fun t p => t.declare p.name p.pos h.opening.index (some .number) false) t

/-- The table in which the body of a function is read: the function is declared around its body, and its parameters are
declared in a block of their own. -/
def enterFunction (t : SymbolTable) (h : FunctionHeader) : SymbolTable :=
  ((t.declareFunction h).enterBlock h.opening.index).declareParams h h.params

end SymbolTable

namespace Resolution

variable {α β : Type} {c : Context} {t t' t'' : SymbolTable}

/-- A block that is entered can be left. -/
theorem inBlock_run {key : BlockKey} {step : Step α} {s mid : State} {a : α}
    (h : step.run { s with table := s.table.enterBlock key } = (.ok a, mid))
    (hentered : mid.table.entered = (s.table.enterBlock key).entered) :
    ∃ table, mid.table.leave = .ok table ∧ (inBlock key step).run s = (.ok a, { mid with table }) := by
  have hleave : ∃ table, mid.table.leave = .ok table := by
    rw [SymbolTable.leave, hentered]
    exact ⟨_, rfl⟩
  obtain ⟨table, htable⟩ := hleave
  refine ⟨table, htable, ?_⟩
  rw [inBlock, ExceptT.run_mk, h]
  simp only [htable]

theorem checkNew_run {x : Ident} (pos : Position) {s : State} (h : s.table.find? s.table.currentBlock x = none) :
    (checkNew c x pos).run s = (.ok (), s) := by
  refine run_bind_eq rfl ?_
  simp only [h]
  rfl

theorem function_run {header : FunctionHeader} {body : Outline} {s s₁ s₂ : State} {e : Expr}
    (hdeclare : (declareFunction c header).run s = (.ok (), s₁))
    (hblock : (inBlock header.opening.index (do declareParams c header header.params; expr c body)).run s₁ =
      (.ok e, s₂)) :
    ∃ s', (function c (.defined header body)).run s =
        (.ok ⟨header.name, header.pos, header.params, header.opening.index, s.table.scope, e⟩, s') ∧
      s'.table = s₂.table := by
  rw [function]
  exact ⟨_, run_bind_eq rfl (run_bind_eq hdeclare (run_bind_eq hblock (run_bind_eq rfl rfl))), rfl⟩

namespace Gives

theorem checkNew {id : Ident} (pos : Position) (h : t.find? t.currentBlock id = none) :
    Gives (checkNew c id pos) t () :=
  fun s hs => ⟨s, checkNew_run pos (hs ▸ h), hs⟩

theorem warnIfShadowing (c : Context) (id : Ident) (pos : Position) : Gives (warnIfShadowing c id pos) t () := by
  refine get_bind fun s hs => ?_
  split
  · split
    · exact fun s hs => ⟨_, rfl, hs⟩
    · exact pure ()
  · exact pure ()

end Gives

/-- Steps that end well on a symbol table and leave another one. -/
def Succeeds (x : Step α) (t t' : SymbolTable) : Prop :=
  ∀ s : State, s.table = t → ∃ a s', x.run s = (.ok a, s') ∧ s'.table = t'

namespace Succeeds

theorem of_gives {x : Step α} {a : α} (h : Gives x t a) : Succeeds x t t :=
  fun s hs => ⟨a, h s hs⟩

theorem pure (a : α) (t : SymbolTable) : Succeeds (Pure.pure a) t t :=
  of_gives (.pure a)

theorem bind {x : Step α} {f : α → Step β} (hx : Succeeds x t t') (hf : ∀ a, Succeeds (f a) t' t'') :
    Succeeds (x >>= f) t t'' := by
  intro s hs
  obtain ⟨a, mid, hrun, hmid⟩ := hx s hs
  obtain ⟨b, s', hrest, hs'⟩ := hf a mid hmid
  exact ⟨b, s', run_bind_eq hrun hrest, hs'⟩

theorem modifyTable (f : SymbolTable → SymbolTable) (t : SymbolTable) : Succeeds (modifyTable f) t (f t) :=
  fun _ hs => ⟨(), _, rfl, congrArg f hs⟩

/-- A block that is entered is left again. -/
theorem inBlock {x : Step α} {key : BlockKey} (hlevel : Level x) (hx : Succeeds x (t.enterBlock key) t') :
    Succeeds (inBlock key x) t t'.left := by
  intro s hs
  obtain ⟨a, mid, hrun, hmid⟩ := hx { s with table := s.table.enterBlock key } (congrArg (·.enterBlock key) hs)
  have hentered := (hlevel { s with table := s.table.enterBlock key }).1
  rw [hrun] at hentered
  obtain ⟨table, hleave, hblock⟩ := inBlock_run hrun hentered
  refine ⟨a, { mid with table }, hblock, ?_⟩
  rw [← hmid, SymbolTable.left, hleave]
  rfl

theorem declareFunction {h : FunctionHeader} (hnew : t.find? t.currentBlock h.name = none) :
    Succeeds (declareFunction c h) t (t.declareFunction h) :=
  (of_gives (.checkNew h.pos hnew)).bind fun _ => (of_gives (.warnIfShadowing c h.name h.pos)).bind fun _ =>
    modifyTable _ t

theorem declareParams (h : FunctionHeader) (params : List Param) (t : SymbolTable) :
    Succeeds (declareParams c h params) t (t.declareParams h params) := by
  induction params generalizing t with
  | nil => exact pure () t
  | cons p params ih =>
    exact (of_gives (.warnIfShadowing c p.name p.pos)).bind fun _ => (modifyTable _ t).bind fun _ => ih _

/-- A function with a new name is read if its body is. -/
theorem function {h : FunctionHeader} {body : Outline} (hnew : t.find? t.currentBlock h.name = none)
    (hbody : Succeeds (expr c body) (t.enterFunction h) t') : Succeeds (function c (.defined h body)) t t'.left := by
  have hlevel : Level (do Resolution.declareParams c h h.params; expr c body) :=
    Level.law.bind (Level.law.declareParams c h h.params) fun _ => Level.law.expr c body
  intro s hs
  obtain ⟨⟨⟩, s₁, hdeclare, h₁⟩ := declareFunction hnew s hs
  obtain ⟨e, s₂, hblock, h₂⟩ := inBlock hlevel ((declareParams h h.params _).bind fun _ => hbody) s₁ h₁
  obtain ⟨s', hrun, hs'⟩ := function_run hdeclare hblock
  exact ⟨_, s', hrun, hs'.trans h₂⟩

end Succeeds

end Resolution

end ToneScript
