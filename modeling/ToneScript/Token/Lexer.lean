import ToneScript.Diagnostic.Journal
import ToneScript.Number.Numeral
import ToneScript.Text.Source
import ToneScript.Token.Basic
/-!
Cutting a source text into pieces, and pieces into tokens.

A piece is the longest match of the first pattern that matches. Every character belongs to exactly one
piece, so the pieces of a text put together are the text again.
-/
namespace ToneScript

/-- What a piece of source text is. -/
inductive Piece.Kind where
  | comment | blanks | lineBreak
  | operator (op : Operator)
  | symbol (s : Symbol)
  /-- An identifier or a keyword. -/
  | word
  | number
  /-- A character that begins no other piece. -/
  | unknown
deriving DecidableEq, Repr

/-- A stretch of source text. -/
structure Piece where
  kind : Piece.Kind
  text : List Char
deriving DecidableEq, Repr

namespace Lexer

/-- Characters that a name can start with. -/
def isWordStart (c : Char) : Bool :=
  ('a' ≤ c && c ≤ 'z') || ('A' ≤ c && c ≤ 'Z') || c == '_' || c == '~' || c == '\x27'

/-- The ten decimal digits. -/
def isDigit (c : Char) : Bool :=
  '0' ≤ c && c ≤ '9'

/-- Characters that a name can go on with. -/
def isWordRest (c : Char) : Bool :=
  isWordStart c || isDigit c

/-- Blanks within a line. -/
def isBlank (c : Char) : Bool :=
  c == ' ' || c == '\t'

/-- Length of the fraction at the front of `cs`: a point and the digits after it, if any. -/
def fractionLength : List Char → Nat
  | '.' :: cs => 1 + (cs.takeWhile isDigit).length
  | _ => 0

/-- Length of the exponent at the front of `cs`: a letter `e`, a sign or none, and at least one digit. -/
def exponentLength : List Char → Nat
  | e :: cs =>
    if e == 'e' || e == 'E' then
      let signed : Nat :=
        match cs with
        | s :: _ => if s == '+' || s == '-' then 1 else 0
        | [] => 0
      match (cs.drop signed).takeWhile isDigit with
      | [] => 0
      | ds => 1 + signed + ds.length
    else 0
  | [] => 0

/-- Length of the number at the front of `cs`: digits, then perhaps a fraction and an exponent. -/
def numberLength (cs : List Char) : Nat :=
  let whole := (cs.takeWhile isDigit).length
  let fraction := fractionLength (cs.drop whole)
  whole + fraction + exponentLength (cs.drop (whole + fraction))

/-- The operator of two characters at the front of a text. -/
def operatorPair? : List Char → Option Operator
  | c :: d :: _ => Operator.ofText? (String.ofList [c, d])
  | _ => none

/-- The piece at the front of `c :: cs`: its kind and how many characters of `cs` it takes besides
`c`. Patterns are tried in order: comment, blanks, line break, operator of two characters, symbol,
word, operator of one character, number. -/
def pieceAt (c : Char) (cs : List Char) : Piece.Kind × Nat :=
  if c == '/' && cs.head? == some '/' then (.comment, (cs.takeWhile (!Source.isBreak ·)).length)
  else if isBlank c then (.blanks, (cs.takeWhile isBlank).length)
  else if c == '\r' && cs.head? == some '\n' then (.lineBreak, 1)
  else if Source.isBreak c then (.lineBreak, 0)
  else if let some op := operatorPair? (c :: cs) then (.operator op, 1)
  else if let some s := Symbol.ofText? (String.ofList [c]) then (.symbol s, 0)
  else if isWordStart c then (.word, (cs.takeWhile isWordRest).length)
  else if let some op := Operator.ofText? (String.ofList [c]) then (.operator op, 0)
  else if isDigit c then (.number, numberLength (c :: cs) - 1)
  else (.unknown, 0)

/-- The pieces of a text in order. -/
def pieces : List Char → List Piece
  | [] => []
  | c :: cs =>
    let (kind, n) := pieceAt c cs
    ⟨kind, c :: cs.take n⟩ :: pieces (cs.drop n)
termination_by cs => cs.length
decreasing_by simp only [List.length_drop, List.length_cons]; omega

/-- The position after a piece. -/
def advance (p : Position) (piece : Piece) : Position :=
  match piece.kind, piece.text with
  | .lineBreak, [_, _] => p.addReturn.addLine
  | .lineBreak, _ => p.addLine
  | _, text => p.addChars text.length

/-- What a word stands for: a keyword or a name. -/
def wordKind (names : NameTable) (text : String) : Token.Kind × NameTable :=
  if text = "if" then (.symbol .kwIf, names)
  else if text = "else" then (.symbol .kwElse, names)
  else
    let (id, names) := names.intern text
    (.ident id, names)

/-- What a piece stands for, if it is a token. -/
def tokenKind? (names : NameTable) (piece : Piece) : Option Token.Kind × NameTable :=
  match piece.kind with
  | .operator op => (some (.operator op), names)
  | .symbol s => (some (.symbol s), names)
  | .number => (some (.const (Number.ofConstant piece.text)), names)
  | .word =>
    let (kind, names) := wordKind names (String.ofList piece.text)
    (some kind, names)
  | .comment | .blanks | .lineBreak | .unknown => (none, names)

/-- The outcome of lexing: tokens without the end of the source, its position, and the names. -/
structure Result where
  tokens : List Token
  endPos : Position
  names : NameTable
  journal : Journal
deriving Repr, Inhabited

/-- The tokens of a list of pieces that starts at `p`. Each unknown character is reported. -/
def tokensFrom (p : Position) (names : NameTable) (journal : Journal) : List Piece → Result
  | [] => ⟨[], p, names, journal⟩
  | piece :: rest =>
    let (kind?, names) := tokenKind? names piece
    let journal :=
      if piece.kind = .unknown then journal.report (.error p "unrecognized token") else journal
    let result := tokensFrom (advance p piece) names journal rest
    match kind? with
    | some kind => { result with tokens := ⟨kind, p, String.ofList piece.text⟩ :: result.tokens }
    | none => result

/-- The end of the source as a token. -/
def Result.eof (r : Result) : Token :=
  ⟨.eof, r.endPos, ""⟩

/-- All tokens, the last of which is the end of the source. -/
def Result.allTokens (r : Result) : List Token :=
  r.tokens ++ [r.eof]

/-- Lexes a source, adding to the given names and journal. -/
def run (source : Source) (names : NameTable) (journal : Journal) : Result :=
  let result := tokensFrom .start names journal (pieces source.text)
  let errors := result.journal.errorCount - journal.errorCount
  { result with
    journal := result.journal.note .debug "lexer"
      ("lexed " ++ toString result.tokens.length ++ " tokens from " ++ source.name ++ " ("
        ++ toString errors ++ " errors)") }

end Lexer
end ToneScript
