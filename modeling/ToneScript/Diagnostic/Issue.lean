import ToneScript.Text.Position
/-! Problems found in a source text. -/
namespace ToneScript

/-- How grave an issue is. -/
inductive Severity where
  | error | warning
deriving DecidableEq, Repr, Inhabited

/-- Name of a severity. -/
def Severity.name : Severity → String
  | error => "error"
  | warning => "warning"

/-- A problem, with its place if it has one and further notes. -/
structure Issue where
  severity : Severity
  pos? : Option Position
  message : String
  notes : List String := []
deriving DecidableEq, Repr, Inhabited

namespace Issue

/-- An error at a position. -/
def error (pos : Position) (message : String) : Issue :=
  ⟨.error, some pos, message, []⟩

/-- A warning at a position. -/
def warning (pos : Position) (message : String) : Issue :=
  ⟨.warning, some pos, message, []⟩

/-- The message after its place, if it has one. -/
def summary (i : Issue) : String :=
  match i.pos? with
  | some p => p.toText ++ " :: " ++ i.message
  | none => i.message

/-- The line that reporting an issue leaves in the log. -/
def logLine (i : Issue) : String :=
  i.severity.name ++ " at " ++ (i.pos?.elim "<none>" Position.toText) ++ ": " ++ i.message

end Issue
end ToneScript
