import ToneScript.Number.Rounding
/-! Reading numerals as singles. -/
namespace ToneScript.Number

/-- A non-negative number as a quotient. The denominator is positive. -/
structure Magnitude where
  num : Nat
  den : Nat
deriving DecidableEq, Repr

/-- `m` times `base` to the power `e`, with `e` cut to `bound` in size. With a `bound` well above the
number of digits of `m`, a number that is cut lies past all singles, before and after. -/
def Magnitude.ofPower (base m : Nat) (e : Int) (bound : Nat) : Magnitude :=
  if m = 0 then ⟨0, 1⟩
  else if 0 ≤ e then ⟨m * Nat.pow base (min e.toNat bound), 1⟩
  else ⟨m, Nat.pow base (min (-e).toNat bound)⟩

/-- The value of a digit in a base up to sixteen. -/
def digit? (base : Nat) (c : Char) : Option Nat :=
  let v :=
    if '0' ≤ c ∧ c ≤ '9' then c.toNat - 48
    else if 'a' ≤ c ∧ c ≤ 'f' then c.toNat - 87
    else if 'A' ≤ c ∧ c ≤ 'F' then c.toNat - 55
    else base
  if v < base then some v else none

/-- The digits at the front of a text and what follows them. -/
def spanDigits (base : Nat) : List Char → List Nat × List Char
  | [] => ([], [])
  | c :: cs =>
    match digit? base c with
    | none => ([], c :: cs)
    | some v => let (vs, rest) := spanDigits base cs; (v :: vs, rest)

/-- The number that digits stand for. -/
def ofDigits (base : Nat) (vs : List Nat) : Nat :=
  vs.foldl (fun n v => n * base + v) 0

/-- The decimal exponent at the front of a text after its marker, which is a letter in either case;
zero if no digits follow. -/
def readExponent (marker : Char) : List Char → Int
  | c :: cs =>
    if c.toLower = marker then
      match cs with
      | '-' :: ds => -(ofDigits 10 (spanDigits 10 ds).1 : Int)
      | '+' :: ds => (ofDigits 10 (spanDigits 10 ds).1 : Int)
      | ds => (ofDigits 10 (spanDigits 10 ds).1 : Int)
    else 0
  | [] => 0

/-- The digits before and after the point at the front of a text, and what follows. -/
def readDigits (base : Nat) (cs : List Char) : List Nat × List Nat × List Char :=
  let (whole, rest) := spanDigits base cs
  match rest with
  | '.' :: rest' =>
    let (fraction, rest'') := spanDigits base rest'
    (whole, fraction, rest'')
  | _ => (whole, [], rest)

/-- The decimal numeral at the front of a text; nothing if there is no digit. -/
def readDecimal? (cs : List Char) : Option Magnitude :=
  let (whole, fraction, rest) := readDigits 10 cs
  let digits := whole ++ fraction
  if digits = [] then none
  else some (.ofPower 10 (ofDigits 10 digits) (readExponent 'e' rest - fraction.length)
    (digits.length + 60))

/-- The numeral with sixteen digits, and an exponent of two, at the front of a text after its `0x`. -/
def readHexadecimal? (cs : List Char) : Option Magnitude :=
  let (whole, fraction, rest) := readDigits 16 cs
  let digits := whole ++ fraction
  if digits = [] then none
  else some (.ofPower 2 (ofDigits 16 digits) (readExponent 'p' rest - 4 * fraction.length)
    (4 * digits.length + 200))

/-- The single nearest to a decimal constant such as `440`, `0.5` or `1e-3`. -/
def ofConstant (cs : List Char) : Number :=
  match readDecimal? cs with
  | some m => nearest false m.num m.den
  | none => 0

/-- Whether a numeral is too small to be read without loss. Half a unit in the last significant place
does not count as a loss where it is all that is lost; in base ten, only from two to the power -127 on. -/
def Magnitude.isTooSmall (base : Nat) (m : Magnitude) : Bool :=
  underflows m.num m.den &&
    !(endsAtHalfPlace m.num m.den && (base == 16 || m.den ≤ m.num * Nat.pow 2 127))

/-- Why a text cannot be read as a number. -/
inductive NumeralError where
  | notANumber | outOfRange
deriving DecidableEq, Repr

/-- Blanks that may stand before a number. -/
def isBlank (c : Char) : Bool :=
  c == ' ' || (9 ≤ c.toNat && c.toNat ≤ 13)

/-- Whether a text begins with a word, in any case. -/
def startsWithWord (word : String) (cs : List Char) : Bool :=
  word.toList.isPrefixOf (cs.map Char.toLower)

/-- Reads the longest number at the front of a text: blanks, a sign, then `inf`, `nan`, a numeral with
sixteen digits after `0x`, or a decimal numeral. Whatever follows is ignored. -/
def read (text : String) : Except NumeralError Number :=
  let (negative, cs) : Bool × List Char :=
    match text.toList.dropWhile isBlank with
    | '-' :: cs => (true, cs)
    | '+' :: cs => (false, cs)
    | cs => (false, cs)
  let decimal? := (readDecimal? cs).map (10, ·)
  let numeral? : Option (Nat × Magnitude) :=
    match cs with
    | '0' :: x :: cs' =>
      if x.toLower = 'x' then ((readHexadecimal? cs').map (16, ·)).or decimal? else decimal?
    | _ => decimal?
  if startsWithWord "inf" cs then .ok (nearest negative (Nat.pow 2 200) 1)
  else if startsWithWord "nan" cs then .ok (0 / 0)
  else
    match numeral? with
    | none => .error .notANumber
    | some (base, m) =>
      if overflows m.num m.den || m.isTooSmall base then .error .outOfRange
      else .ok (nearest negative m.num m.den)

/-- Reads the digits at the front of a text as a count below two to the power 64. Whatever follows is
ignored. -/
def readCount (text : String) : Except NumeralError Nat :=
  match (spanDigits 10 text.toList).1 with
  | [] => .error .notANumber
  | vs => let n := ofDigits 10 vs; if n < UInt64.size then .ok n else .error .outOfRange

end ToneScript.Number
