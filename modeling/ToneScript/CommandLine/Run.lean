import ToneScript.CommandLine.Options
import ToneScript.Compilation.EntryPoint
/-! The program: compiles a file and prints samples of its entry point. -/
namespace ToneScript.CommandLine

/-- What the program needs of its surroundings. -/
structure Host (m : Type → Type) where
  /-- The content of a file, if it can be read. -/
  readFile : String → m (Option String)
  /-- Opens a log file to add to it; tells whether that went well. -/
  openLog : String → m Bool
  /-- Hands on what a log sink writes. -/
  log : Log.Output → m Unit
  /-- Writes to the standard output. -/
  out : String → m Unit
  /-- Writes to the standard error output. -/
  err : String → m Unit
  /-- The time in milliseconds. -/
  now : m Int
  /-- The environment variable for logging, empty when it is not set. -/
  logSetting : String
  /-- Whether the standard error output shows colors. -/
  colors : Bool

variable {m : Type → Type} [Monad m]

/-- Writes those remarks to the log that the logger accepts. -/
def emit (host : Host m) (logger : Log.Logger) (remarks : List Log.Remark) : m Unit := do
  let time ← host.now
  (logger.emit time remarks).forM host.log

/-- Sets up the logger that arguments ask for. -/
def startLog (host : Host m) (logger : Log.Logger) (args : List String) : m Log.Logger := do
  let config := Log.Config.ofArguments args host.logSetting
  if config.file = "" then return logger.configure config false
  let opened ← host.openLog config.file
  if !opened then host.err config.openFailure
  return logger.configure config opened

/-- The setup of a compilation that the options ask for. -/
def setUp (o : Options) : Compilation.Step Unit := do
  Compilation.defineIntrinsics
  if o.entry ≠ "main" then
    let time ← Compilation.intern "time"
    Compilation.defineEntryPoint o.entry (.ofNumbers [time] .number)

/-- Sets a compilation up and runs all its stages. -/
def compile (o : Options) (text : String) :
    Except Defect (Option EntryPoint) × Compilation :=
  ((setUp o *> Compilation.compile : Compilation.Step (Option EntryPoint)).run
    { Compilation.ofSource (.ofString o.path text) with strict := o.strict })

/-- What is printed when a sample cannot be computed. -/
def failureText (o : Options) (e : EvalError) : String :=
  "error: " ++ e.message ++ (e.pos?.elim "" fun p => " at " ++ o.path ++ ":" ++ p.toText) ++ "\n"

/-- Prints `count` samples, the first of which is number `i`. -/
def printSamples (host : Host m) (logger : Log.Logger) (o : Options) (entry : EntryPoint) (i : Nat) :
    (count : Nat) → m UInt32
  | 0 => return 0
  | count + 1 => do
    let time := i.toUInt64.toFloat32 / o.rate
    let result := entry.callValue time
    emit host logger (Activation.remarks defaultDepth result)
    match result with
    | .error e =>
      host.err (failureText o e)
      return 1
    | .ok sample =>
      host.out (Number.toText time ++ "\t" ++ sample.toNumber.toText ++ "\n")
      printSamples host logger o entry (i + 1) count

/-- Compiles a text, shows its issues and prints samples. -/
def compileAndPrint (host : Host m) (logger : Log.Logger) (o : Options) (text : String) :
    m UInt32 := do
  let (result, c) := compile o text
  emit host logger c.journal.remarks
  match result with
  | .error _ => return 1
  | .ok entry? =>
    host.err (Issue.renderAll c.journal.issues c.source (o.color && host.colors) o.format)
    match entry? with
    | none =>
      emit host logger [⟨.info, "cli",
        o.path ++ " failed with " ++ toString c.journal.issues.length ++ " issue(s)"⟩]
      return 1
    | some entry => printSamples host logger o entry 0 o.samples

/-- Runs the program and returns its exit code: zero for success, one if the file cannot be compiled or
evaluated, two if the command line is wrong or the file cannot be read. -/
def run (host : Host m) (logger : Log.Logger) (args : List String) : m UInt32 := do
  let logger ← startLog host logger args
  match Options.ofArguments args with
  | .error .help =>
    host.out usageText
    return 0
  | .error .version =>
    host.out versionText
    return 0
  | .error (.unknown arg) =>
    host.err ("error: unknown option " ++ arg ++ "\n")
    return 2
  | .error (.numeral .notANumber) =>
    host.err "error: expected a number in option value\n"
    return 2
  | .error (.numeral .outOfRange) =>
    host.err "error: option value out of range\n"
    return 2
  | .ok o =>
    if !o.isUsable then
      host.out usageText
      return 2
    match ← host.readFile o.path with
    | none =>
      host.err ("error: cannot open file: " ++ o.path ++ "\n")
      return 2
    | some text => compileAndPrint host logger o text

end ToneScript.CommandLine
