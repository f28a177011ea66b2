import ToneScript.Diagnostic.Journal
import ToneScript.Diagnostic.Suggestion
import ToneScript.Outline.Tree
import ToneScript.Postfix.Conversion
import ToneScript.Scope.SymbolTable
import ToneScript.Syntax.OfPostfix
/-!
From outlines to syntax trees: names are looked up, and definitions are declared, in the order of the text.
A name can be used only after its declaration.
-/
namespace ToneScript.Resolution

/-- What stays the same while names are looked up. -/
structure Context where
  names : NameTable
  /-- Values that stand for built-in names, where names are replaced by their values. -/
  constants? : Option (List (Ident × Value)) := none
  /-- Whether every name may be called. -/
  anyCallee : Bool := false
deriving Inhabited

/-- What changes while names are looked up. -/
structure State where
  table : SymbolTable
  journal : Journal
deriving Inhabited

/-- Why the reading of a definition stops. -/
inductive Stop where
  | refused (e : SyntaxError)
  | defect (d : Defect)
deriving DecidableEq, Repr

/-- Steps that change the state and may stop. The state stays as it was when they stopped. -/
abbrev Step := ExceptT Stop (StateM State)

/-- Stops with an error. -/
def refuse {α : Type} (e : SyntaxError) : Step α :=
  throw (.refused e)

/-- Stops if there is an error. -/
def accept {α : Type} : Except SyntaxError α → Step α
  | .ok a => pure a
  | .error e => refuse e

/-- Changes the symbol table. -/
def modifyTable (f : SymbolTable → SymbolTable) : Step Unit :=
  modify fun s => { s with table := f s.table }

/-- Reports an issue. -/
def report (i : Issue) : Step Unit :=
  modify fun s => { s with journal := s.journal.report i }

/-- Leaves a remark in the log. -/
def note (level : Log.Level) (module message : String) : Step Unit :=
  modify fun s => { s with journal := s.journal.note level module message }

/-- Does a step inside a block that is entered before it and left after it, however it ends. -/
def inBlock {α : Type} (key : BlockKey) (step : Step α) : Step α :=
  ExceptT.mk fun s =>
    let (result, s) := step.run { s with table := s.table.enterBlock key }
    match s.table.leave with
    | .ok table => (result, { s with table })
    | .error d => (.error (.defect d), s)

/-- How far a suggested name may be from one that is not found. Short names are close to almost
everything. -/
def suggestionLimit (name : String) : Nat :=
  if name.length ≤ 2 then 0 else if name.length ≤ 5 then 1 else 2

/-- The visible name nearest to one that is not found, the least in order of those equally near. -/
def suggest? (c : Context) (table : SymbolTable) (id : Ident) (index : UInt64) : Option String :=
  let name := c.names.name id
  let candidates := ((table.visibleNames index).map c.names.name).mergeSort fun a b => decide (a ≤ b)
  nearest? name candidates (suggestionLimit name + 1)

/-- The value of a built-in name that is replaced by its value. -/
def constant? (c : Context) (d : Declaration) (id : Ident) : Option Value :=
  if d.builtin then c.constants? >>= (·.lookup id) else none

/-- The cell of a name that is used as a variable. -/
def variableCell (c : Context) (id : Ident) (pos : Position) : Step Cell := do
  let table := (← get).table
  match table.lookupBefore? id pos.index with
  | none =>
    refuse (.located pos (.undefinedVariable (c.names.name id) (suggest? c table id pos.index)))
  | some (d, _) =>
    match constant? c d id with
    | some v => return .value v pos
    | none => return .slot id pos

/-- Makes sure that a name can be called. -/
def checkCallee (c : Context) (id : Ident) (pos : Position) : Step Unit := do
  let table := (← get).table
  if !c.anyCallee && (table.callee? id pos.index).isNone then
    refuse (.located pos (.undefinedFunction (c.names.name id) (suggest? c table id pos.index)))

/-- Converts the cells of an expression to operand-first order. -/
def compile (pos : Position) (cells : List Cell) : Step Compiled := do
  let cells ← accept (Postfix.convert cells)
  note .trace "expr" ("postfix: " ++ Cell.listText cells)
  return ⟨cells, pos⟩

/-- An argument of a form with its value. -/
def argumentOf (form : ArgumentForm) (value : Compiled) (pos : Position) : SiteArgument :=
  match form with
  | .shorthand name => .shorthand name value pos
  | .assign name => .assign name value pos
  | .opAssign name op => .opAssign name op value pos
  | .positional => .positional value pos

/-- A call with the given arguments. Where one is assigned by name, a name alone stands for the parameter
of that name and all others are refused; elsewhere it is a value like any other. -/
def callSite (callee : String) (id : Ident) (args : List SiteArgument) (pos : Position) :
    Except SyntaxError CallSite :=
  if args.any SiteArgument.isAssignment then
    match args.find? (·.name?.isNone) with
    | some arg => .error (.located arg.pos (.mixedArguments callee))
    | none => .ok ⟨id, .named, args, pos⟩
  else .ok ⟨id, .ordered, args.map fun arg => .positional arg.value arg.pos, pos⟩

/-- Makes sure that a name is not declared in the current block yet. -/
def checkNew (c : Context) (id : Ident) (pos : Position) : Step Unit := do
  let table := (← get).table
  match table.find? table.currentBlock id with
  | none => pure ()
  | some d =>
    if d.builtin then refuse (.located pos (.builtinRedefined (c.names.name id)))
    else refuse (.located pos (.alreadyDefined (c.names.name id) d.pos))

/-- Warns if a name is declared in an outer block of the source. -/
def warnIfShadowing (c : Context) (id : Ident) (pos : Position) : Step Unit := do
  match (← get).table.lookup? id with
  | some (d, crossed) =>
    if crossed ≠ 0 ∧ !d.builtin then
      report ⟨.warning, some pos,
        "declaration of `" ++ c.names.name id ++ "` shadows an outer declaration",
        ["outer declaration at " ++ d.pos.toText]⟩
  | none => pure ()

/-- Declares a function in the current block. -/
def declareFunction (c : Context) (h : FunctionHeader) : Step Unit := do
  checkNew c h.name h.pos
  warnIfShadowing c h.name h.pos
  modifyTable (·.declare h.name h.pos h.opening.index (some (.function h.name)) false)

/-- Declares parameters in the current block. -/
def declareParams (c : Context) (h : FunctionHeader) : List Param → Step Unit
  | [] => pure ()
  | p :: ps => do
    warnIfShadowing c p.name p.pos
    modifyTable (·.declare p.name p.pos h.opening.index (some .number) false)
    declareParams c h ps

mutual

/-- The tree of an expression. -/
def expr (c : Context) : Outline → Step Expr
  | .conditional condition thenBranch elseBranch pos => do
    let condition ← expr c condition
    let thenBranch ← expr c thenBranch
    let elseBranch ← expr c elseBranch
    return .conditional condition thenBranch elseBranch pos
  | .block items flaw? pos => do
    let trees ← inBlock pos.index (entries c items)
    match flaw? with
    | some e => refuse e
    | none => return .block pos.index trees pos
  | .arithmetic terms pos => do
    let compiled ← compile pos (← cells c terms)
    accept compiled.toExpr
  | .flawed e => refuse e

/-- The entries of a block. -/
def entries (c : Context) : List EntryOutline → Step (List BlockEntry)
  | [] => return []
  | item :: items => do
    let tree ← entry c item
    let trees ← entries c items
    return tree :: trees

/-- An entry of a block. -/
def entry (c : Context) : EntryOutline → Step BlockEntry
  | .operator op value none pos => do
    return .operator op (← expr c value) none pos
  | .operator op value (some guard) pos => do
    let value ← expr c value
    let guard ← expr c guard
    return .operator op value (some guard) pos
  | .closure definition pos => do
    return .closure (← function c definition) pos
  | .flawed e => refuse e

/-- A function definition, declared before its body is read. -/
def function (c : Context) : FunctionOutline → Step FunctionDef
  | .defined h body => do
    let scope := (← get).table.scope
    declareFunction c h
    let body ← inBlock h.opening.index do
      declareParams c h h.params
      expr c body
    note .trace "parser" ("defined function `" ++ c.names.name h.name ++ "` with "
      ++ toString h.params.length ++ " argument(s)")
    return ⟨h.name, h.pos, h.params, h.opening.index, scope, body⟩
  | .bodiless h e => do
    declareFunction c h
    refuse e
  | .flawed e => refuse e

/-- The cells of an expression in infix order. -/
def cells (c : Context) : List Term → Step (List Cell)
  | [] => return []
  | t :: ts => do
    let first ← cell c t
    let rest ← cells c ts
    return first :: rest

/-- The cell of a term. -/
def cell (c : Context) : Term → Step Cell
  | .const v pos => return .value (.number v) pos
  | .operator op pos => return .operator op pos
  | .left pos => return .left pos
  | .right pos => return .right pos
  | .name id pos => variableCell c id pos
  | .call id args pos => do
    checkCallee c id pos
    let args ← arguments c (c.names.name id) args
    return .call (← accept (callSite (c.names.name id) id args pos))
  | .flawed e => refuse e

/-- The arguments of a call. -/
def arguments (c : Context) (callee : String) : List ArgumentOutline → Step (List SiteArgument)
  | [] => return []
  | item :: items => do
    let arg ← argument c callee item
    let args ← arguments c callee items
    return arg :: args

/-- An argument of a call. -/
def argument (c : Context) (callee : String) : ArgumentOutline → Step SiteArgument
  | .given form terms valuePos pos => do
    let value ← compile valuePos (← cells c terms)
    return argumentOf form value pos
  | .missing pos => refuse (.located pos (.expectedArgument callee))

end

/-- An item, and the issue that reading it leaves. An assigned name is declared after its value. -/
def item (c : Context) : ItemOutline → Step Item
  | .function definition unended? pos => do
    let definition ← function c definition
    match unended? with
    | some next => report (.error next "expected `;` after function body, got `[`")
    | none => pure ()
    return .function definition pos
  | .assignment name value visibleFrom pos => do
    checkNew c name pos
    let value ← expr c value
    modifyTable (·.declare name pos visibleFrom none false)
    return .assignment name value pos
  | .flawed e => refuse e

/-- Does a step; reports its error, if it has one, and goes on. -/
def attempt {α : Type} (step : Step α) : Step (Option α) :=
  ExceptT.mk fun s =>
    match step.run s with
    | (.ok a, s) => (.ok (some a), s)
    | (.error (.refused e), s) => (.ok none, { s with journal := s.journal.report e.toIssue })
    | (.error (.defect d), s) => (.error (.defect d), s)

/-- The items that can be read. The errors of the others are reported. -/
def items (c : Context) : List ItemOutline → Step (List Item)
  | [] => return []
  | outline :: outlines => do
    let first ← attempt (item c outline)
    let rest ← items c outlines
    return first.toList ++ rest

/-- The items of a program that can be read. -/
def program (c : Context) (outlines : List ItemOutline) : Step Program := do
  let trees ← items c outlines
  note .debug "parser" ("parsed " ++ toString trees.length ++ " items")
  return trees

end ToneScript.Resolution
