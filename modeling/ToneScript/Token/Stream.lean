import ToneScript.Token.Span
/-! A cursor within a span of a list of tokens. -/
namespace ToneScript

/-- A span of tokens with a cursor. Indices count from the start of the whole list. -/
structure TokenStream where
  tokens : List Token
  first : Nat
  last : Nat
  cursor : Nat
  /-- Where the source ends. -/
  endPos : Position
deriving DecidableEq, Repr, Inhabited

namespace TokenStream

/-- A stream over all tokens. A last token that is the end of the source is left out and gives the end
position; otherwise that is the end of the last token. -/
def ofTokens (tokens : List Token) : TokenStream :=
  match tokens.getLast? with
  | none => ⟨tokens, 0, 0, 0, .start⟩
  | some t =>
    if t.isEof then ⟨tokens, 0, tokens.length - 1, 0, t.pos⟩
    else ⟨tokens, 0, tokens.length, 0, t.pos.addChars t.lexeme.length⟩

/-- The token `n` places after the cursor. Indices wrap as words of 64 bits. -/
def peek? (s : TokenStream) (n : Nat) : Option Token :=
  let i := (s.cursor + n) % UInt64.size
  if i < s.last then s.tokens[i]? else none

/-- The token at an index of the span. -/
def at? (s : TokenStream) (i : Nat) : Option Token :=
  if s.first ≤ i ∧ i < s.last then s.tokens[i]? else none

/-- Whether the cursor is at the end of the span. -/
def isEmpty (s : TokenStream) : Bool :=
  s.last ≤ s.cursor

/-- Number of tokens from the cursor on. -/
def remaining (s : TokenStream) : Nat :=
  s.last - s.cursor

/-- Takes the token at the cursor. -/
def next (s : TokenStream) : Option Token × TokenStream :=
  if s.isEmpty then (none, s) else (s.tokens[s.cursor]?, { s with cursor := s.cursor + 1 })

/-- An index moved into the range from `low` to `high`. -/
def clamp (low high i : Nat) : Nat :=
  if i < low then low else if high < i then high else i

/-- Moves the cursor to an index, or to the nearest one in the span. -/
def skipTo (s : TokenStream) (i : Nat) : TokenStream :=
  { s with cursor := clamp s.first s.last i }

/-- The stream over the part of the span between two indices. -/
def slice (s : TokenStream) (first last : Nat) : TokenStream :=
  let low := clamp s.first s.last first
  { s with first := low, last := clamp low s.last last, cursor := low }

/-- The stream over what is left of the span. -/
def rest (s : TokenStream) : TokenStream :=
  s.slice s.cursor s.last

/-- The position of the next token, or of the end of the source. -/
def currentPos (s : TokenStream) : Position :=
  (s.peek? 0).elim s.endPos Token.pos

/-- The index of the bracket that closes the one at an index. -/
def findMatching? (s : TokenStream) (i : Nat) : Option Nat :=
  (Span.matching? ((s.tokens.take s.last).drop i)).map (· + i)

/-- The index of the first symbol `sym` from an index on that is outside all brackets opened there. -/
def findSymbol? (s : TokenStream) (sym : Symbol) (i : Nat) : Option Nat :=
  let low := max i s.first
  (Span.find? sym ((s.tokens.take s.last).drop low)).map (· + low)

/-- The tokens from the cursor on. -/
def toList (s : TokenStream) : List Token :=
  (s.tokens.take s.last).drop s.cursor

end TokenStream
end ToneScript
