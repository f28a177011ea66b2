/-! Rounding of exact quotients to single precision. -/
namespace ToneScript

/-- Numbers of the language: IEEE single precision. -/
abbrev Number := Float32

namespace Number

/-- The integer nearest to `n / d`, the even one of two that are equally near. -/
def divRoundEven (n d : Nat) : Nat :=
  let q := n / d
  let r := n % d
  if d < 2 * r ∨ (2 * r = d ∧ q % 2 = 1) then q + 1 else q

/-- `n / d` in units of two to the power `e`, as a quotient. -/
def scale (n d : Nat) (e : Int) : Nat × Nat :=
  if 0 ≤ e then (n, d * Nat.pow 2 e.toNat) else (n * Nat.pow 2 (-e).toNat, d)

/-- Exponent of the last place of single precision near `n / d`, for positive `n` and `d`. -/
def lastPlace (n d : Nat) : Int :=
  let guess : Int := (n.log2 : Int) - d.log2 - 23
  let (n', d') := scale n d guess
  max (-149) (if n' < d' * Nat.pow 2 23 then guess - 1 else guess)

/-- Bits of the non-negative single nearest to `n / d`, ties to even, infinity past the largest. -/
def nearestBits (n d : Nat) : Nat :=
  if n = 0 then 0 else
  let e := lastPlace n d
  let (n', d') := scale n d e
  min 0x7f800000 ((e + 149).toNat * Nat.pow 2 23 + divRoundEven n' d')

/-- The single nearest to `n / d`, with the given sign. -/
def nearest (negative : Bool) (n d : Nat) : Number :=
  Float32.ofBits ((if negative then 0x80000000 else 0) + nearestBits n d).toUInt32

/-- Whether `n / d` lies past the largest finite single, after rounding. -/
def overflows (n d : Nat) : Bool :=
  nearestBits n d == 0x7f800000

/-- Whether `n / d` falls below the normal singles, when rounded to their precision with no bound on
the exponent, and is no single itself. -/
def underflows (n d : Nat) : Bool :=
  n != 0 && n * Nat.pow 2 151 < d * (Nat.pow 2 25 - 1) && n * Nat.pow 2 149 % d != 0

/-- Whether `n / d` is a multiple of the least single and half a unit in the last of its own twenty-four
significant places. -/
def endsAtHalfPlace (n d : Nat) : Bool :=
  let units := n * Nat.pow 2 149
  d ≤ units && units % d * Nat.pow 2 24 == d * Nat.pow 2 (units / d).log2

end Number
end ToneScript
