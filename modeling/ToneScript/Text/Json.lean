/-! Characters inside JSON strings. -/
namespace ToneScript.Json

/-- One hexadecimal digit, in lower case. -/
def hexDigit (n : Nat) : Char :=
  Nat.digitChar (n % 16)

/-- The short escape of the characters that have one: quote, backslash, line feed, carriage return
and tab. -/
def shortEscape? : Char → Option (List Char)
  | '"' => some ['\\', '"']
  | '\\' => some ['\\', '\\']
  | '\n' => some ['\\', 'n']
  | '\r' => some ['\\', 'r']
  | '\t' => some ['\\', 't']
  | _ => none

/-- Escapes a character for a string literal. Every control character is escaped. -/
def escapeChar (c : Char) : List Char :=
  match shortEscape? c with
  | some e => e
  | none =>
    if c.toNat < 0x20 then ['\\', 'u', '0', '0', hexDigit (c.toNat / 16), hexDigit c.toNat] else [c]

/-- Escapes a text for a string literal. -/
def escape (s : String) : String :=
  String.ofList (s.toList.flatMap escapeChar)

/-- Escapes a character that has a short escape and keeps all others. -/
def escapeCharShort (c : Char) : List Char :=
  (shortEscape? c).getD [c]

/-- Escapes a text with the short escapes only. -/
def escapeShort (s : String) : String :=
  String.ofList (s.toList.flatMap escapeCharShort)

end ToneScript.Json
