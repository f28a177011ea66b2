import ToneScript.Number.Rounding
/-! Writing singles with six significant digits. -/
namespace ToneScript.Number

/-- Significant digits written. -/
def precision : Nat := 6

/-- `n / d` in units of ten to the power `e`, as a quotient. -/
def scaleTen (n d : Nat) (e : Int) : Nat × Nat :=
  if 0 ≤ e then (n, d * Nat.pow 10 e.toNat) else (n * Nat.pow 10 (-e).toNat, d)

/-- The decimal exponent of the leading digit of `n / d`, searched downward from `guess` for at most
`steps` steps. -/
def leadingExponent (n d : Nat) : Nat → Int → Int
  | 0, guess => guess
  | steps + 1, guess =>
    let (n', d') := scaleTen n d guess
    if n' < d' then leadingExponent n d steps (guess - 1) else guess

/-- A decimal exponent at or at most three above that of the leading digit of `n / d`. -/
def exponentGuess (n d : Nat) : Int :=
  ((n.log2 : Int) - d.log2 + 1) * 30103 / 100000 + 1

/-- `n / d` rounded to the written precision: an integer of that many digits and the exponent of its
leading digit. -/
def significand (n d : Nat) : Nat × Int :=
  let e := leadingExponent n d 4 (exponentGuess n d)
  let (n', d') := scaleTen n d (e - (precision - 1 : Nat))
  let q := divRoundEven n' d'
  if q = Nat.pow 10 precision then (Nat.pow 10 (precision - 1), e + 1) else (q, e)

/-- A digit string without the zeros at its end. -/
def trimZeros (ds : List Char) : List Char :=
  (ds.reverse.dropWhile (· == '0')).reverse

/-- Whole and fractional digits with a point between them, if there is a fraction. -/
def withPoint (whole fraction : List Char) : List Char :=
  if fraction = [] then whole else whole ++ '.' :: fraction

/-- An exponent with its sign and at least two digits. -/
def exponentText (e : Int) : List Char :=
  let ds := Nat.toDigits 10 e.natAbs
  (if e < 0 then '-' else '+') :: (if ds.length < 2 then '0' :: ds else ds)

/-- Text of a positive number: positional for leading exponents from minus four up to the precision,
with an exponent elsewhere. Zeros at the end of a fraction are left out. -/
def textOfQuotient (n d : Nat) : List Char :=
  let (q, e) := significand n d
  let ds := Nat.toDigits 10 q
  if e < -4 ∨ (precision : Int) ≤ e then
    withPoint (ds.take 1) (trimZeros (ds.drop 1)) ++ 'e' :: exponentText e
  else if e < 0 then
    withPoint ['0'] (trimZeros (List.replicate (-e - 1).toNat '0' ++ ds))
  else
    withPoint (ds.take (e.toNat + 1)) (trimZeros (ds.drop (e.toNat + 1)))

/-- Text of a number. -/
def toText (x : Number) : String :=
  let bits := x.toBits.toNat
  let exponent := bits / Nat.pow 2 23 % 256
  let fraction := bits % Nat.pow 2 23
  let sign : List Char := if bits < Nat.pow 2 31 then [] else ['-']
  if exponent = 255 then
    if fraction = 0 then String.ofList (sign ++ ['i', 'n', 'f']) else "nan"
  else if exponent = 0 ∧ fraction = 0 then String.ofList (sign ++ ['0'])
  else
    let m := if exponent = 0 then fraction else fraction + Nat.pow 2 23
    let (n, d) := scale m 1 (149 - (max exponent 1 - 1 : Nat))
    String.ofList (sign ++ textOfQuotient n d)

end ToneScript.Number
