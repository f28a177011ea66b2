import ToneScript.Compilation.Basic
/-! From a checked program to the function that runs it. -/
namespace ToneScript

/-- How deep calls may nest unless something else is said. -/
def defaultDepth : Nat := 1024

/-- The function that runs a program, called once for every point in time. -/
structure EntryPoint where
  name : String
  names : NameTable
  callable : Callable
  /-- The frame that holds everything defined at the outermost level. -/
  globals : Frame
deriving Repr, Inhabited

namespace EntryPoint

/-- Calls the function at a point in time. The time is its only argument. -/
def callValue (e : EntryPoint) (time : Number) : Except EvalError Value :=
  Activation.invoke e.names defaultDepth e.callable [e.globals] [.number time] .start

/-- Calls the function at a point in time. Truth values are returned as their numbers. -/
def call (e : EntryPoint) (time : Number) : Except EvalError Number :=
  (e.callValue time).map Value.toNumber

end EntryPoint

namespace Compilation

/-- The frame of the outermost level before any item is evaluated. -/
def initialGlobals (c : Compilation) : Frame :=
  { values := c.constants
    functions := c.intrinsics.map fun i => (i.name, .intrinsic i.function i.params) }

/-- Why the outermost level cannot be evaluated. -/
structure GlobalError where
  name : Ident
  pos : Position
  error : EvalError
deriving DecidableEq, Repr

/-- The issue that reports a global error. Where the evaluation has no position, it is at the name. -/
def GlobalError.toIssue (names : NameTable) (e : GlobalError) : Issue :=
  ⟨.error, some (e.error.pos?.getD e.pos),
    "could not evaluate `" ++ names.name e.name ++ "`: " ++ e.error.message, []⟩

/-- Evaluates items in order into a frame, with the remarks that this leaves in the log. -/
def evaluateItems (names : NameTable) (depth : Nat) (globals : Frame) :
    List Item → Except GlobalError Frame × List Log.Remark
  | [] => (.ok globals, [])
  | .function f _ :: items =>
    evaluateItems names depth (globals.setFunction f.name (.defined f)) items
  | .assignment name value pos :: items =>
    let result := Activation.expr (Activation.context names depth) [globals] value
    match result with
    | .error error => (.error ⟨name, pos, error⟩, Activation.remarks depth result)
    | .ok v =>
      let remark : Log.Remark :=
        ⟨.trace, "compiler", "global `" ++ names.name name ++ "` = " ++ v.toText⟩
      let (rest, remarks) := evaluateItems names depth (globals.setVariable name v) items
      (rest, remark :: remarks)

/-- Adds remarks to the log. -/
def noteAll (remarks : List Log.Remark) : Step Unit :=
  modify fun c =>
    { c with journal := remarks.foldl (fun j r => j.note r.level r.module r.message) c.journal }

/-- Reports an issue. -/
def report (i : Issue) : Step Unit :=
  modify fun c => { c with journal := c.journal.report i }

/-- Runs all stages, evaluates the outermost level and returns the entry point. Nothing is returned
when a stage fails; the issues then say why. -/
def compile : Step (Option EntryPoint) := do
  if !(← typecheck) then return none
  let c ← get
  let (result, remarks) := evaluateItems c.names defaultDepth c.initialGlobals c.program
  noteAll remarks
  match result with
  | .error e =>
    report (e.toIssue c.names)
    return none
  | .ok globals =>
    let name := c.names.name c.entry.1
    match globals.functions.lookup c.entry.1 with
    | none =>
      report ⟨.error, none, "entry point `" ++ name ++ "` is not defined", []⟩
      return none
    | some callable =>
      note .debug ("entry point `" ++ name ++ "` ready")
      return some { name, names := c.names, callable, globals }

end Compilation
end ToneScript
