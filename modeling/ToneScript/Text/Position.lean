/-! Positions in a source text. -/
namespace ToneScript

/-- A place in a source text: line and column count from one, offsets from zero. All four wrap. -/
structure Position where
  line : UInt32 := 1
  column : UInt32 := 1
  index : UInt64 := 0
  /-- Offset of the first character of the line. -/
  lineIndex : UInt64 := 0
deriving DecidableEq, Repr, Inhabited

namespace Position

/-- The first character of a text. -/
def start : Position := {}

/-- Moves right over `n` characters of the line. -/
def addChars (p : Position) (n : Nat) : Position :=
  { p with column := p.column + n.toUInt32, index := p.index + n.toUInt64 }

/-- Moves over the last character of a line break, to the start of the next line. -/
def addLine (p : Position) : Position :=
  { line := p.line + 1, column := 1, index := p.index + 1, lineIndex := p.index + 1 }

/-- Moves over the carriage return of a two-character line break, which no column shows. -/
def addReturn (p : Position) : Position :=
  { p with index := p.index + 1 }

/-- Written as `line:column`. -/
def toText (p : Position) : String :=
  toString p.line ++ ":" ++ toString p.column

@[simp] theorem addChars_zero (p : Position) : p.addChars 0 = p := by
  simp [addChars]

theorem addChars_add (p : Position) (m n : Nat) :
    p.addChars (m + n) = (p.addChars m).addChars n := by
  simp [addChars, UInt32.add_assoc, UInt64.add_assoc]

end Position
end ToneScript
