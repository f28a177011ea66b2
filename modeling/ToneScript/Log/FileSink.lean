import ToneScript.Log.Record
/-! Log files that hold text back until it matters. -/
namespace ToneScript.Log

/-- Lays a text over `content` from an offset on. A gap before the text is filled with NULs. -/
def overlay (content : String) (offset : Nat) (text : String) : String :=
  let cs := content.toList
  if text = "" then content
  else
    String.ofList (cs.take offset ++ List.replicate (offset - cs.length) '\x00' ++ text.toList
      ++ cs.drop (offset + text.length))

/-- An open log file, with the text that has not reached it yet. -/
structure FileSink where
  path : String
  format : Format := .text
  /-- Where in the file the text goes; without an offset it always goes to the end. -/
  offset? : Option Nat := none
  pending : String := ""
deriving DecidableEq, Repr, Inhabited

namespace FileSink

/-- Less text than this is held back in all. -/
def capacity : Nat := 8191

/-- The length from which on a record is not held back. -/
def longRecord : Nat := 1024

/-- Takes a record in. -/
def add (s : FileSink) (r : Record) : FileSink :=
  { s with pending := s.pending ++ r.render s.format }

/-- Whether all text has to go once a record was taken in: for errors and what is graver, for a long
record, and when there is too much text. -/
def isDue (s : FileSink) (r : Record) : Bool :=
  Level.error ≤ r.level || longRecord ≤ (r.render s.format).length || capacity ≤ s.pending.length

/-- What the file holds after all text went there. -/
def written (s : FileSink) (content : String) : String :=
  match s.offset? with
  | none => content ++ s.pending
  | some n => overlay content n s.pending

/-- The log file after all text went there. -/
def emptied (s : FileSink) : FileSink :=
  { s with offset? := s.offset?.map (· + s.pending.length), pending := "" }

end FileSink
end ToneScript.Log
