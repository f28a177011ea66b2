import ToneScript.Log.Logger
/-! Logging options of a command line. -/
namespace ToneScript.Log

/-- A logging option. -/
inductive Flag where
  | level (level : Level)
  | filter (spec : String)
  | file (path : String)
  | format (format : Format)
  | quiet
  | verbose (count : Nat)
deriving DecidableEq, Repr

/-- How often `v` stands in an argument of the form `-v`, `-vv` and so on; zero for any other. -/
def verboseCount (arg : String) : Nat :=
  match arg.toList with
  | '-' :: vs => if vs.all (· == 'v') then vs.length else 0
  | _ => 0

/-- Reads an argument as a logging option. -/
def Flag.ofArgument? (arg : String) : Option Flag :=
  if let some s := Text.after? "--log-level=" arg then some (.level (.ofName s))
  else if let some s := Text.after? "--log-filter=" arg then some (.filter s)
  else if let some s := Text.after? "--log-file=" arg then some (.file s)
  else if let some s := Text.after? "--log-format=" arg then
    some (.format (if s = "json" ∨ s = "JSON" then .json else .text))
  else if arg = "-q" ∨ arg = "--quiet" then some .quiet
  else if arg = "--verbose" then some (.verbose 1)
  else if 0 < verboseCount arg then some (.verbose (verboseCount arg))
  else none

/-- The logging options met so far. -/
structure Options where
  config : Config := { level := .warn }
  levelGiven : Bool := false
  filterGiven : Bool := false
  verbosity : Nat := 0
deriving DecidableEq, Repr, Inhabited

namespace Options

/-- Takes one option into account. Later ones win, except that the greatest verbosity counts. -/
def add (o : Options) : Flag → Options
  | .level level => { o with config := { o.config with level }, levelGiven := true }
  | .filter spec => { o with config := { o.config with filter := spec }, filterGiven := true }
  | .file path => { o with config := { o.config with file := path } }
  | .format format => { o with config := { o.config with format } }
  | .quiet => { o with config := { o.config with level := .error }, levelGiven := true }
  | .verbose count => { o with verbosity := max o.verbosity count }

/-- The level that a verbosity above zero asks for. -/
def verboseLevel : Nat → Level
  | 0 | 1 => .info
  | 2 => .debug
  | _ => .trace

/-- Lets an environment variable speak: a filter if it holds `=` or `,`, else a level unless empty. -/
def applyVariable (c : Config) (setting : String) : Config :=
  if setting.toList.any fun ch => ch == '=' || ch == ',' then { c with filter := setting }
  else if setting = "" then c
  else { c with level := .ofName setting }

/-- The configuration meant by the options. A given level wins over verbosity, and the environment
variable counts only when neither a level nor a filter was given. -/
def resolve (o : Options) (setting : String) : Config :=
  if !o.levelGiven && 0 < o.verbosity then { o.config with level := verboseLevel o.verbosity }
  else if o.levelGiven || o.filterGiven then o.config
  else applyVariable o.config setting

end Options

/-- The configuration of the logger that arguments and an environment variable ask for. Arguments that
are no logging options are passed over. -/
def Config.ofArguments (args : List String) (setting : String) : Config :=
  ((args.filterMap Flag.ofArgument?).foldl Options.add {}).resolve setting

end ToneScript.Log
