import ToneScript.Activation.Evaluation
import ToneScript.Outline.OfTokens
import ToneScript.Syntax.OfOutline
import ToneScript.Token.Lexer
import ToneScript.Typing.Checker
/-!
The compilation of one source: lexing, parsing and checking, each done once and only after the one before it
went well.
-/
namespace ToneScript

/-- What a compilation has arrived at. -/
inductive Stage where
  | fresh
  | lexed (tokens : List Token) (endPos : Position)
  | parsed (program : Program)
  | checked (program : Program) (typing : Typing)
deriving Repr, Inhabited

/-- A function that is there from the start, with the names of its parameters. -/
structure IntrinsicEntry where
  name : Ident
  function : Intrinsic
  params : List Ident
deriving DecidableEq, Repr, Inhabited

/-- The state of a compilation. -/
structure Compilation where
  source : Source
  names : NameTable
  table : SymbolTable := {}
  journal : Journal := {}
  constants : List (Ident × Value) := []
  intrinsics : List IntrinsicEntry := []
  /-- Name and type of the function that runs the program. -/
  entry : Ident × FunctionType
  /-- Whether warnings keep later stages from running. -/
  strict : Bool := false
  stage : Stage := .fresh
  failed : Bool := false
deriving Repr, Inhabited

namespace Compilation

/-- A compilation that is about to start. It runs `main`, which takes the time and returns a number. -/
def ofSource (source : Source) : Compilation :=
  let (main, names) := ({} : NameTable).intern "main"
  let (time, names) := names.intern "time"
  { source, names, entry := (main, .ofNumbers [time] .number) }

/-- The items of the program, once it is parsed. -/
def program (c : Compilation) : Program :=
  match c.stage with
  | .parsed program | .checked program _ => program
  | .fresh | .lexed .. => []

/-- What is known of types, once the program is checked. -/
def typing? (c : Compilation) : Option Typing :=
  match c.stage with
  | .checked _ typing => some typing
  | _ => none

/-- Whether issues keep later stages from running. -/
def isBlocked (c : Compilation) : Bool :=
  c.journal.hasErrors || (c.strict && c.journal.hasWarnings)

/-- Steps of a compilation. A defect keeps the state as it was. -/
abbrev Step := ExceptT Defect (StateM Compilation)

/-- Leaves a remark in the log. -/
def note (level : Log.Level) (message : String) : Step Unit :=
  modify fun c => { c with journal := c.journal.note level "compiler" message }

/-- Interns a name. -/
def intern (name : String) : Step Ident :=
  modifyGet fun c =>
    let (id, names) := c.names.intern name
    (id, { c with names })

/-- Makes sure that the source was not lexed yet. -/
def requireFresh (what : String) : Step Unit := do
  match (← get).stage with
  | .fresh => pure ()
  | _ =>
    note .fatal (what ++ " called after the source was lexed")
    throw (.lateDefinition what)

/-- Declares a constant that is there from the start. -/
def defineConstant (name : String) (v : Value) : Step Unit := do
  let id ← intern name
  let ty : Ty :=
    match v with
    | .number _ => .number
    | .boolean _ => .boolean
  modify fun c =>
    { c with
      table := c.table.declare id .start 0 (some ty) true
      constants := c.constants.filter (·.1 != id) ++ [(id, v)] }

/-- Declares a function that is there from the start. -/
def defineFunction (f : Intrinsic) : Step Unit := do
  let id ← intern f.name
  let params ← f.paramNames.mapM intern
  modify fun c =>
    { c with
      table := c.table.declare id .start 0 (some (.function id)) true
      intrinsics := c.intrinsics ++ [⟨id, f, params⟩] }

/-- Declares the constants and functions that every program has. -/
def defineIntrinsics : Step Unit := do
  requireFresh "define_intrinsics"
  for (name, v) in intrinsicConstants do
    defineConstant name v
  for f in Intrinsic.all do
    defineFunction f
  let c ← get
  note .debug ("defined " ++ toString c.constants.length ++ " constants and "
    ++ toString c.intrinsics.length ++ " functions")

/-- Sets the function that runs the program. -/
def defineEntryPoint (name : String) (type : FunctionType) : Step Unit := do
  requireFresh "define_entrypoint"
  let id ← intern name
  modify fun c => { c with entry := (id, type) }

/-- Ends a stage: later ones may run unless issues keep them from it. -/
def finishStage (stage : Stage) : Step Unit :=
  modify fun c => { c with stage, failed := c.isBlocked }

/-- Whether nothing failed so far. -/
def succeeded : Step Bool :=
  return !(← get).failed

/-- Lexes the source, unless that is done. -/
def lex : Step Bool := do
  let c ← get
  match c.stage with
  | .fresh =>
    let result := Lexer.run c.source c.names c.journal
    set { c with names := result.names, journal := result.journal }
    finishStage (.lexed result.tokens result.endPos)
    note .info ("lexed " ++ c.source.name ++ ": " ++ toString result.allTokens.length ++ " tokens")
  | _ => pure ()
  succeeded

/-- Parses the tokens, unless that is done. -/
def parse : Step Bool := do
  if !(← lex) then return false
  let c ← get
  match c.stage with
  | .lexed tokens endPos =>
    let outlines := ItemOutline.listOfTokens c.names endPos tokens
    let context : Resolution.Context := { names := c.names, constants? := some c.constants }
    let (result, s) := (Resolution.program context outlines).run ⟨c.table, c.journal⟩
    set { c with table := s.table, journal := s.journal }
    match result with
    | .ok program =>
      finishStage (.parsed program)
      note .info ("parsed " ++ toString program.length ++ " items, "
        ++ toString s.journal.errorCount ++ " error(s)")
    | .error (.defect d) => throw d
    | .error (.refused _) => pure ()
  | _ => pure ()
  succeeded

/-- What is known of types before a check. -/
def builtinTyping (c : Compilation) : Typing :=
  c.intrinsics.foldl (fun t i => t.addBuiltin i.name (.ofNumbers i.params .number)) {}

/-- Checks the program and, if it has no errors, its entry point. -/
def checkProgram (c : Compilation) (program : Program) : Check.Step Unit := do
  Check.program c.names program
  if !(← get).journal.hasErrors then
    discard <| Check.entryPoint c.names c.entry.1 c.entry.2

/-- Checks the types of the program, unless that is done. -/
def typecheck : Step Bool := do
  if !(← parse) then return false
  let c ← get
  match c.stage with
  | .parsed program =>
    match (c.checkProgram program).run ⟨c.table, c.journal, c.builtinTyping, 0⟩ with
    | .error d => throw d
    | .ok ((), s) =>
      set { c with table := s.table, journal := s.journal }
      finishStage (.checked program s.typing)
      note .info ("type checked " ++ c.source.name ++ ": " ++ toString s.journal.errorCount
        ++ " error(s), " ++ toString s.journal.warningCount ++ " warning(s)")
  | _ => pure ()
  succeeded

end Compilation
end ToneScript
