import ToneScript.Number.Rounding
import ToneScript.Text.NameTable
import ToneScript.Text.Position
import ToneScript.Token.Operator
import ToneScript.Token.Symbol
/-! Tokens of a source text. -/
namespace ToneScript

/-- What a token stands for. -/
inductive Token.Kind where
  | ident (id : Ident)
  | const (value : Number)
  | operator (op : Operator)
  | symbol (s : Symbol)
  /-- The end of the source. -/
  | eof
deriving DecidableEq, Repr, Inhabited

/-- A token with its place and its text in the source. -/
structure Token where
  kind : Token.Kind
  pos : Position
  lexeme : String
deriving DecidableEq, Repr, Inhabited

namespace Token

/-- Name of the kind of a token. -/
def Kind.name : Kind → String
  | ident _ => "identifier"
  | const _ => "constant"
  | operator _ => "operator"
  | symbol _ => "symbol"
  | eof => "end of file"

/-- Whether this is the end of the source. -/
def isEof (t : Token) : Bool :=
  t.kind == .eof

/-- Whether this is the given symbol. -/
def isSymbol (t : Token) (s : Symbol) : Bool :=
  t.kind == .symbol s

/-- Whether this is a bracket that opens. -/
def isLeft (t : Token) : Bool :=
  match t.kind with
  | .symbol s => s.isLeft
  | _ => false

/-- Whether this is a bracket that closes. -/
def isRight (t : Token) : Bool :=
  match t.kind with
  | .symbol s => s.isRight
  | _ => false

/-- The text shown for a token. -/
def describe (t : Token) : String :=
  if t.isEof then "EOF" else t.lexeme

end Token
end ToneScript
