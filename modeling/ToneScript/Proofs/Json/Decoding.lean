import Mathlib.Algebra.Field.Rat
import Mathlib.Data.List.TakeWhile
import ToneScript.Number.Numeral
import ToneScript.Text.Json

/-! JSON texts and what they stand for. Each reader takes what it reads from the front of a text and hands on the rest; it
gives nothing where the grammar does not allow what stands there. All of them move forward, so that none goes on forever. -/
namespace ToneScript.Json

/-- A JSON value. The members of an object keep their order, and numbers are exact. -/
inductive Value where
  | null
  | bool (b : Bool)
  | number (q : ℚ)
  | string (s : String)
  | array (items : List Value)
  | object (members : List (String × Value))

/-- The value of the first member of an object that has this name. -/
def Value.member? (name : String) : Value → Option Value
  | object members => members.lookup name
  | _ => none

/-- Whether a character may stand between the parts of a text. -/
def isBlank (c : Char) : Bool :=
  c == ' ' || c == '\t' || c == '\n' || c == '\r'

def skipBlanks (cs : List Char) : List Char :=
  cs.dropWhile isBlank

theorem length_skipBlanks_le (cs : List Char) : (skipBlanks cs).length ≤ cs.length :=
  List.length_dropWhile_le isBlank cs

/-! Numbers. -/

/-- One digit or more. -/
def digits? (cs : List Char) : Option (List Char × List Char) :=
  let ds := cs.takeWhile Char.isDigit
  if ds = [] then none else some (ds, cs.drop ds.length)

/-- The digits before the point. A zero stands alone. -/
def whole? (cs : List Char) : Option (List Char × List Char) := do
  let (ds, cs) ← digits? cs
  if ds.head? = some '0' ∧ ds ≠ ['0'] then none else some (ds, cs)

/-- The digits after the point, if there is one. -/
def fraction? : List Char → Option (List Char × List Char)
  | '.' :: cs => digits? cs
  | cs => some ([], cs)

/-- The exponent, or zero if there is none. -/
def exponent? : List Char → Option (Int × List Char)
  | c :: cs =>
    if c = 'e' ∨ c = 'E' then
      match cs with
      | '-' :: cs => (digits? cs).map fun (ds, cs) => (-(Nat.ofDigitChars 10 ds 0 : Int), cs)
      | '+' :: cs => (digits? cs).map fun (ds, cs) => ((Nat.ofDigitChars 10 ds 0 : Int), cs)
      | cs => (digits? cs).map fun (ds, cs) => ((Nat.ofDigitChars 10 ds 0 : Int), cs)
    else some (0, c :: cs)
  | [] => some (0, [])

/-- A number without a sign. -/
def magnitude? (cs : List Char) : Option (ℚ × List Char) := do
  let (whole, cs) ← whole? cs
  let (fraction, cs) ← fraction? cs
  let (exponent, cs) ← exponent? cs
  some (Nat.ofDigitChars 10 (whole ++ fraction) 0 * 10 ^ (exponent - fraction.length), cs)

def number? : List Char → Option (ℚ × List Char)
  | '-' :: cs => (magnitude? cs).map fun (q, cs) => (-q, cs)
  | cs => magnitude? cs

/-! Strings. -/

/-- The number that four hexadecimal digits stand for. -/
def codeUnit? : List Char → Option (Nat × List Char)
  | a :: b :: c :: d :: cs => do
    let digits ← [a, b, c, d].mapM (Number.digit? 16)
    some (Number.ofDigits 16 digits, cs)
  | _ => none

/-- The character that follows `\u`. Above the first 65536 a character has two such escapes, the halves of a pair; no half
stands alone. -/
def unicode? (cs : List Char) : Option (Char × List Char) := do
  let (high, cs) ← codeUnit? cs
  if 0xD800 ≤ high ∧ high < 0xDC00 then
    match cs with
    | '\\' :: 'u' :: cs => do
      let (low, cs) ← codeUnit? cs
      if 0xDC00 ≤ low ∧ low < 0xE000 then
        some (Char.ofNat (0x10000 + (high - 0xD800) * 0x400 + (low - 0xDC00)), cs)
      else none
    | _ => none
  else if 0xDC00 ≤ high ∧ high < 0xE000 then none
  else some (Char.ofNat high, cs)

/-- The character that an escape stands for, after its backslash. -/
def unescape? : List Char → Option (Char × List Char)
  | '"' :: cs => some ('"', cs)
  | '\\' :: cs => some ('\\', cs)
  | '/' :: cs => some ('/', cs)
  | 'b' :: cs => some ('\x08', cs)
  | 'f' :: cs => some ('\x0c', cs)
  | 'n' :: cs => some ('\n', cs)
  | 'r' :: cs => some ('\r', cs)
  | 't' :: cs => some ('\t', cs)
  | 'u' :: cs => unicode? cs
  | _ => none

theorem codeUnit?_eq_some {cs rest : List Char} {n : Nat} (h : codeUnit? cs = some (n, rest)) :
    ∃ ds, cs = ds ++ rest ∧ '"' ∉ ds := by
  unfold codeUnit? at h
  split at h
  · rename_i a b c d cs
    simp only [Option.bind_eq_bind, Option.bind_eq_some_iff, Option.some.injEq, Prod.mk.injEq] at h
    obtain ⟨digits, hdigits, -, rfl⟩ := h
    refine ⟨[a, b, c, d], rfl, fun hquote => ?_⟩
    have hnone : Number.digit? 16 '"' = none := by decide
    simp only [List.mem_cons, List.not_mem_nil, or_false] at hquote
    rcases hquote with rfl | rfl | rfl | rfl <;> simp [hnone] at hdigits
  · cases h

theorem unicode?_eq_some {c : Char} {cs rest : List Char} (h : unicode? cs = some (c, rest)) :
    ∃ ds, cs = ds ++ rest ∧ '"' ∉ ds := by
  simp only [unicode?, Option.bind_eq_bind, Option.bind_eq_some_iff] at h
  obtain ⟨⟨high, cs'⟩, hhigh, h⟩ := h
  obtain ⟨ds, rfl, hds⟩ := codeUnit?_eq_some hhigh
  dsimp only at h
  split at h
  · split at h
    · rename_i cs''
      obtain ⟨⟨low, rest'⟩, hlow, hpair⟩ := Option.bind_eq_some_iff.1 h
      obtain ⟨ds', rfl, hds'⟩ := codeUnit?_eq_some hlow
      dsimp only at hpair
      split at hpair
      · obtain ⟨-, rfl⟩ := Prod.mk.inj (Option.some.inj hpair)
        exact ⟨ds ++ '\\' :: 'u' :: ds', by simp, by simp [hds, hds']⟩
      · cases hpair
    · cases h
  · split at h
    · cases h
    · cases h
      exact ⟨ds, rfl, hds⟩

/-- An escape takes a character and then no quote. -/
theorem unescape?_eq_some {c : Char} {cs rest : List Char} (h : unescape? cs = some (c, rest)) :
    ∃ d ds, cs = d :: (ds ++ rest) ∧ '"' ∉ ds := by
  unfold unescape? at h
  split at h
  case h_9 d =>
    obtain ⟨ds, rfl, hds⟩ := unicode?_eq_some h
    exact ⟨'u', ds, rfl, hds⟩
  case h_10 => cases h
  all_goals
    cases h
    exact ⟨_, [], rfl, List.not_mem_nil⟩

theorem length_unescape?_lt {c : Char} {cs rest : List Char} (h : unescape? cs = some (c, rest)) :
    rest.length < cs.length := by
  obtain ⟨d, ds, rfl, -⟩ := unescape?_eq_some h
  simp only [List.length_cons, List.length_append]
  omega

/-- The characters of a string, up to its closing quote. No control character stands there for itself. -/
def string? (cs : List Char) : Option (List Char × List Char) :=
  match cs with
  | [] => none
  | '"' :: cs => some ([], cs)
  | '\\' :: cs =>
    match _hescape : unescape? cs with
    | none => none
    | some (c, rest) => (string? rest).map fun (s, rest) => (c :: s, rest)
  | c :: cs => if c.toNat < 0x20 then none else (string? cs).map fun (s, rest) => (c :: s, rest)
termination_by cs.length
decreasing_by
  · have hshorter := length_unescape?_lt _hescape
    rw [List.length_cons]
    omega
  · exact Nat.lt_succ_self _

theorem length_string?_lt {s cs rest : List Char} (h : string? cs = some (s, rest)) : rest.length < cs.length := by
  fun_induction string? cs generalizing s with
  | case1 => cases h
  | case2 cs =>
    cases h
    exact Nat.lt_succ_self _
  | case3 => cases h
  | case4 cs c after hescape ih =>
    obtain ⟨⟨s', rest'⟩, hread, hr⟩ := Option.map_eq_some_iff.1 h
    cases hr
    have hescaped := length_unescape?_lt hescape
    have hshorter := ih hread
    rw [List.length_cons]
    omega
  | case5 => cases h
  | case6 c cs _ _ _ ih =>
    obtain ⟨⟨s', rest'⟩, hread, hr⟩ := Option.map_eq_some_iff.1 h
    cases hr
    exact Nat.lt_succ_of_lt (ih hread)

/-! Values. -/

/-- A value with a name of its own. -/
def named? (name : List Char) (v : Value) (cs : List Char) : Option (Value × List Char) :=
  if name.isPrefixOf cs then some (v, cs.drop name.length) else none

mutual

def value? (cs : List Char) : Option (Value × List Char) :=
  match cs with
  | 'n' :: rest => named? ['u', 'l', 'l'] .null rest
  | 't' :: rest => named? ['r', 'u', 'e'] (.bool true) rest
  | 'f' :: rest => named? ['a', 'l', 's', 'e'] (.bool false) rest
  | '"' :: rest => (string? rest).map fun (s, rest) => (.string (String.ofList s), rest)
  | '[' :: rest =>
    match skipBlanks rest with
    | ']' :: rest => some (.array [], rest)
    | _ => (items? (skipBlanks rest)).map fun (vs, rest) => (.array vs, rest)
  | '\x7b' :: rest =>
    match skipBlanks rest with
    | '\x7d' :: rest => some (.object [], rest)
    | _ => (members? (skipBlanks rest)).map fun (ms, rest) => (.object ms, rest)
  | _ => (number? cs).map fun (q, rest) => (.number q, rest)
termination_by 3 * cs.length
decreasing_by
  all_goals
    have hskip := length_skipBlanks_le rest
    rw [List.length_cons]
    omega

/-- The items of an array from the first on. -/
def items? (cs : List Char) : Option (List Value × List Char) :=
  match value? cs with
  | none => none
  -- No value is followed by more than there was before it; without this the reading would not be known to end.
  | some (v, rest) => if rest.length ≤ cs.length then itemsAfter? v rest else none
termination_by 3 * cs.length + 1

/-- An item and those that come after it, up to the bracket that closes their array. -/
def itemsAfter? (v : Value) (cs : List Char) : Option (List Value × List Char) :=
  match _hcomma : skipBlanks cs with
  | ']' :: rest => some ([v], rest)
  | ',' :: rest => (items? (skipBlanks rest)).map fun (vs, rest) => (v :: vs, rest)
  | _ => none
termination_by 3 * cs.length
decreasing_by
  have hskip := length_skipBlanks_le cs
  have hskip' := length_skipBlanks_le rest
  rw [_hcomma, List.length_cons] at hskip
  omega

/-- The members of an object from the first on. -/
def members? (cs : List Char) : Option (List (String × Value) × List Char) :=
  match member? cs with
  | none => none
  | some (m, rest) => if rest.length ≤ cs.length then membersAfter? m rest else none
termination_by 3 * cs.length + 2

/-- A member of an object. -/
def member? (cs : List Char) : Option ((String × Value) × List Char) :=
  match cs with
  | '"' :: text =>
    match _hname : string? text with
    | none => none
    | some (name, after) =>
      match _hcolon : skipBlanks after with
      | ':' :: rest => (value? (skipBlanks rest)).map fun (v, rest) => ((String.ofList name, v), rest)
      | _ => none
  | _ => none
termination_by 3 * cs.length + 1
decreasing_by
  have hname := length_string?_lt _hname
  have hskip := length_skipBlanks_le after
  have hskip' := length_skipBlanks_le rest
  rw [_hcolon, List.length_cons] at hskip
  rw [List.length_cons]
  omega

/-- A member and those that come after it, up to the bracket that closes their object. -/
def membersAfter? (m : String × Value) (cs : List Char) : Option (List (String × Value) × List Char) :=
  match _hcomma : skipBlanks cs with
  | '\x7d' :: rest => some ([m], rest)
  | ',' :: rest => (members? (skipBlanks rest)).map fun (ms, rest) => (m :: ms, rest)
  | _ => none
termination_by 3 * cs.length
decreasing_by
  have hskip := length_skipBlanks_le cs
  have hskip' := length_skipBlanks_le rest
  rw [_hcomma, List.length_cons] at hskip
  omega

end

/-- The value that a whole text stands for. -/
def decode (text : List Char) : Option Value := do
  let (v, cs) ← value? (skipBlanks text)
  if skipBlanks cs = [] then some v else none

example : decode " [1, -2.50e1 ,\"\\u0041\\ud83d\\ude00/\"]".toList =
    some (.array [.number 1, .number (-25), .string "A😀/"]) := by cbv

end ToneScript.Json
