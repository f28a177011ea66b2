import ToneScript.Text.Position
/-! Source texts and the table of their lines. -/
namespace ToneScript

/-- A named text. Each character stands for one byte. -/
structure Source where
  name : String := "<input>"
  text : List Char
deriving DecidableEq, Repr, Inhabited

namespace Source

/-- A source with the given name and content. -/
def ofString (name content : String) : Source :=
  ⟨name, content.toList⟩

/-- Offsets at which a new line starts within `cs`, which itself starts at offset `i`. A line feed
and a carriage return each end a line, and the two in a row end one. -/
def breaksFrom (i : Nat) : List Char → List Nat
  | [] => []
  | '\r' :: '\n' :: cs => (i + 2) :: breaksFrom (i + 2) cs
  | c :: cs => if c = '\n' ∨ c = '\r' then (i + 1) :: breaksFrom (i + 1) cs else breaksFrom (i + 1) cs

/-- Offsets of the first characters of all lines, in order. The first line always exists. -/
def lineStarts (s : Source) : List Nat :=
  0 :: breaksFrom 0 s.text

/-- Number of characters. -/
def length (s : Source) : Nat :=
  s.text.length

/-- The character at an offset; the null character past the end. -/
def charAt (s : Source) (offset : Nat) : Char :=
  s.text.getD offset '\x00'

/-- The characters from `first` up to `last`. An end before the start stands for the end of the text. -/
def slice (s : Source) (first last : Nat) : List Char :=
  if last < first then s.text.drop first else (s.text.drop first).take (last - first)

/-- The position of an offset, looked up in the table of lines. -/
def position (s : Source) (offset : Nat) : Position :=
  let before := s.lineStarts.takeWhile (· ≤ offset)
  let lineStart := before.getLastD 0
  { line := before.length.toUInt32
    column := (offset - lineStart).toUInt32 + 1
    index := offset.toUInt64
    lineIndex := lineStart.toUInt64 }

/-- Whether a character can end a line. -/
def isBreak (c : Char) : Bool :=
  c == '\n' || c == '\r'

/-- The characters of line `n`, counted from one, without trailing line breaks; nothing when there
is no such line. -/
def line (s : Source) (n : Nat) : List Char :=
  match n with
  | 0 => []
  | k + 1 =>
    match s.lineStarts[k]? with
    | none => []
    | some first =>
      let last := s.lineStarts.getD (k + 1) s.length
      (((s.text.drop first).take (last - first)).reverse.dropWhile isBreak).reverse

/-- Number of lines. -/
def lineCount (s : Source) : Nat :=
  s.lineStarts.length

end Source
end ToneScript
