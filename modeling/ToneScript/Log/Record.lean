import ToneScript.Log.Level
import ToneScript.Text.Json
/-! Log records and their two written forms. -/
namespace ToneScript.Log

/-- A message before it is stamped with a time. -/
structure Remark where
  level : Level
  module : String
  message : String
deriving DecidableEq, Repr, Inhabited

/-- A message with the time of its arrival in milliseconds. -/
structure Record extends Remark where
  time : Int
deriving DecidableEq, Repr, Inhabited

/-- How records are written. -/
inductive Format where
  | text | json
deriving DecidableEq, Repr, Inhabited

/-- Fills `s` up to `width` characters on the left. -/
def padLeft (fill : Char) (width : Nat) (s : String) : String :=
  String.ofList (List.replicate (width - s.length) fill) ++ s

/-- Fills `s` up to `width` characters with blanks on the right. -/
def padRight (width : Nat) (s : String) : String :=
  s ++ String.ofList (List.replicate (width - s.length) ' ')

/-- Time of day as `HH:MM:SS.mmm`. Seconds and milliseconds are both cut toward zero, so before the
epoch the millisecond field carries its sign. -/
def clock (time : Int) : String :=
  let second := ((time.tdiv 1000) % 86400).toNat
  let two (n : Nat) := padLeft '0' 2 (toString n)
  two (second / 3600) ++ ":" ++ two (second / 60 % 60) ++ ":" ++ two (second % 60) ++ "."
    ++ padLeft '0' 3 (toString (time.tmod 1000))

namespace Record

/-- One line of text: time, level in a column of five, module in brackets, message. -/
def toText (r : Record) : String :=
  clock r.time ++ " " ++ padRight 5 r.level.name ++ " [" ++ r.module ++ "] " ++ r.message ++ "\n"

/-- One JSON object on a line. Only the message is escaped, and only with short escapes. -/
def toJson (r : Record) : String :=
  "\x7b\"ts\":" ++ toString r.time ++ ",\"level\":\"" ++ r.level.name ++ "\",\"module\":\""
    ++ r.module ++ "\",\"msg\":\"" ++ Json.escapeShort r.message ++ "\"\x7d\n"

/-- One line in the given format. -/
def render (r : Record) : Format → String
  | .text => r.toText
  | .json => r.toJson

end Record
end ToneScript.Log
