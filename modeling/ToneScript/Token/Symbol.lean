/-! Punctuation, brackets and keywords. -/
namespace ToneScript

/-- The three pairs of brackets. -/
inductive Bracket where
  | round | curly | square
deriving DecidableEq, Repr

/-- A symbol: punctuation, a bracket or a keyword. -/
inductive Symbol where
  | period | comma | equals | colon | semicolon | questionMark | backslash
  | kwIf | kwElse
  | left (b : Bracket)
  | right (b : Bracket)
deriving DecidableEq, Repr

namespace Symbol

/-- The text of a symbol in a source. -/
def text : Symbol → String
  | period => "."
  | comma => ","
  | equals => "="
  | colon => ":"
  | semicolon => ";"
  | questionMark => "?"
  | backslash => "\\"
  | kwIf => "if"
  | kwElse => "else"
  | left .round => "("
  | right .round => ")"
  | left .curly => "\x7b"
  | right .curly => "\x7d"
  | left .square => "["
  | right .square => "]"

/-- All symbols. -/
def all : List Symbol :=
  [period, comma, equals, colon, semicolon, questionMark, backslash, kwIf, kwElse, left .round,
    right .round, left .curly, right .curly, left .square, right .square]

/-- The symbol with this text. -/
def ofText? (s : String) : Option Symbol :=
  all.find? (·.text == s)

/-- The pair that a bracket belongs to. -/
def bracket? : Symbol → Option Bracket
  | left b | right b => some b
  | _ => none

/-- Whether a symbol opens a pair of brackets. -/
def isLeft : Symbol → Bool
  | left _ => true
  | _ => false

/-- Whether a symbol closes a pair of brackets. -/
def isRight : Symbol → Bool
  | right _ => true
  | _ => false

/-- The symbol that closes what `open` opens; a round bracket for all that opens nothing. -/
def closing : Symbol → Symbol
  | left b => right b
  | _ => right .round

end Symbol
end ToneScript
