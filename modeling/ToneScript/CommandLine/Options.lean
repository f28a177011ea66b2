import ToneScript.Diagnostic.Render
import ToneScript.Log.Options
import ToneScript.Number.Numeral
/-! Options of the command line. -/
namespace ToneScript.CommandLine

/-- Version of the program. -/
def version : String := "0.3.0"

/-- The line that shows the version. -/
def versionText : String := "synth " ++ version ++ "\n"

/-- How the program is used. -/
def usageText : String :=
  "synth " ++ version ++ "\n\n"
    ++ "Usage: synth [options] <file>\n\n"
    ++ "Options:\n"
    ++ "  --samples=N          Number of samples to print (default 8)\n"
    ++ "  --rate=R             Sample rate in Hz (default 44100)\n"
    ++ "  --entry=NAME         Entry point to call (default main)\n"
    ++ "  --Werror             Treat warnings as errors\n"
    ++ "  --diagnostics=json   Emit diagnostics as JSON lines\n"
    ++ "  --no-color           Disable colored diagnostics\n"
    ++ "  --log-level=LEVEL    trace, debug, info, warn, error, off\n"
    ++ "  --log-filter=SPEC    Per-module levels, e.g. types=trace,*=warn\n"
    ++ "  --log-file=PATH      Also write log records to PATH\n"
    ++ "  -v, -vv, -vvv, -q    Raise or lower log verbosity\n"
    ++ "  --help, -h           Show this help\n"
    ++ "  --version, -V        Show version\n"

/-- What to run and how to show it. -/
structure Options where
  path : String := ""
  samples : Nat := 8
  rate : Number := 44100
  entry : String := "main"
  /-- Whether warnings count as errors. -/
  strict : Bool := false
  format : IssueFormat := .text
  color : Bool := true
deriving DecidableEq, Repr, Inhabited

/-- Why the command line is read no further. -/
inductive Halt where
  | help
  | version
  | unknown (arg : String)
  | numeral (e : Number.NumeralError)
deriving DecidableEq, Repr

/-- Whether an argument is left to the logging options. -/
def isLogFlag (arg : String) : Bool :=
  "--log-".toList.isPrefixOf arg.toList || arg == "-q" || arg == "--quiet" || arg == "--verbose"
    || "-v".toList.isPrefixOf arg.toList

/-- Takes one argument into account. -/
def Options.add (o : Options) (arg : String) : Except Halt Options :=
  if arg = "--help" ∨ arg = "-h" then .error .help
  else if arg = "--version" ∨ arg = "-V" then .error .version
  else if let some s := Text.after? "--samples=" arg then
    match Number.readCount s with
    | .ok samples => .ok { o with samples }
    | .error e => .error (.numeral e)
  else if let some s := Text.after? "--rate=" arg then
    match Number.read s with
    | .ok rate => .ok { o with rate }
    | .error e => .error (.numeral e)
  else if let some entry := Text.after? "--entry=" arg then .ok { o with entry }
  else if arg = "--Werror" then .ok { o with strict := true }
  else if arg = "--diagnostics=json" then .ok { o with format := .json }
  else if arg = "--no-color" then .ok { o with color := false }
  else if isLogFlag arg then .ok o
  else if arg.toList.head? = some '-' then .error (.unknown arg)
  else .ok { o with path := arg }

/-- Reads arguments in order, up to the first that ends it. -/
def Options.ofArguments (args : List String) : Except Halt Options :=
  args.foldlM Options.add {}

/-- Whether a file is named and the sample rate is positive and finite. -/
def Options.isUsable (o : Options) : Bool :=
  o.path != "" && o.rate.isFinite && 0 < o.rate

end ToneScript.CommandLine
