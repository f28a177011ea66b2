import ToneScript.Diagnostic.Issue
import ToneScript.Log.Record
import ToneScript.Text.Source
/-! The written forms of issues: text with a snippet of the source, and lines of JSON. -/
namespace ToneScript

/-- How issues are written. -/
inductive IssueFormat where
  | text | json
deriving DecidableEq, Repr, Inhabited

namespace Issue

/-- Colors of the text form. -/
inductive Paint where
  | reset | bold | red | yellow | blue | cyan
deriving DecidableEq, Repr

/-- The terminal code of a color. -/
def Paint.code : Paint → String
  | reset => "\x1b[0m"
  | bold => "\x1b[1m"
  | red => "\x1b[91m"
  | yellow => "\x1b[93m"
  | blue => "\x1b[94m"
  | cyan => "\x1b[96m"

/-- The terminal code of a color, or nothing without color. -/
def paint (color : Bool) (p : Paint) : String :=
  if color then p.code else ""

/-- Severity and message. -/
def header (i : Issue) (color : Bool) : String :=
  let hue : Paint := match i.severity with
    | .error => .red
    | .warning => .yellow
  paint color .bold ++ paint color hue ++ i.severity.name ++ paint color .reset ++ paint color .bold
    ++ ": " ++ i.message ++ paint color .reset ++ "\n"

/-- The name of the source, with the position. -/
def location (i : Issue) (source : Source) (color : Bool) : String :=
  paint color .blue ++ "  --> " ++ paint color .reset ++ source.name
    ++ (i.pos?.elim "" fun p => ":" ++ p.toText) ++ "\n"

/-- The line of a position with a caret under its column; nothing for an empty line. -/
def snippet (p : Position) (source : Source) (color : Bool) : String :=
  let line := source.line p.line.toNat
  if line = [] then "" else
  let number := toString p.line
  let width := max number.length 4
  let blank := Log.padLeft ' ' width ""
  paint color .blue ++ blank ++ " |" ++ paint color .reset ++ "\n"
    ++ paint color .blue ++ Log.padLeft ' ' width number ++ " | " ++ paint color .reset
    ++ String.ofList line ++ "\n"
    ++ paint color .blue ++ blank ++ " | " ++ paint color .reset
    ++ String.ofList (List.replicate (p.column.toNat - 1) ' ')
    ++ paint color .red ++ "^" ++ paint color .reset ++ "\n"

/-- One note. -/
def noteLine (color : Bool) (note : String) : String :=
  paint color .cyan ++ "  = note" ++ paint color .reset ++ ": " ++ note ++ "\n"

/-- The text form: header, location, snippet and notes. -/
def toText (i : Issue) (source : Source) (color : Bool) : String :=
  i.header color ++ i.location source color
    ++ (i.pos?.elim "" fun p => snippet p source color)
    ++ String.join (i.notes.map (noteLine color))

/-- A JSON string literal. -/
def quote (s : String) : String :=
  "\"" ++ Json.escape s ++ "\""

/-- The JSON form: one object on a line. -/
def toJson (i : Issue) (source : Source) : String :=
  "\x7b\"severity\":" ++ quote i.severity.name ++ ",\"message\":" ++ quote i.message
    ++ ",\"file\":" ++ quote source.name
    ++ ",\"line\":" ++ (i.pos?.elim "null" fun p => toString p.line)
    ++ ",\"column\":" ++ (i.pos?.elim "null" fun p => toString p.column)
    ++ ",\"notes\":[" ++ ",".intercalate (i.notes.map quote) ++ "]\x7d\n"

/-- An issue in the given format. Only the text form has colors. -/
def render (i : Issue) (source : Source) (color : Bool) : IssueFormat → String
  | .text => i.toText source color
  | .json => i.toJson source

/-- Several issues in order. -/
def renderAll (issues : List Issue) (source : Source) (color : Bool) (format : IssueFormat) : String :=
  String.join (issues.map (·.render source color format))

end Issue
end ToneScript
