import ToneScript.Token.Basic
/-! Scans over a list of tokens that respect brackets. -/
namespace ToneScript.Span

/-- The index of the token that closes the innermost of `depth + 1` open pairs of brackets, counting
only brackets of that kind. -/
def closingIndex? (b : Bracket) : Nat → List Token → Option Nat
  | _, [] => none
  | depth, t :: ts =>
    if t.isSymbol (.left b) then (closingIndex? b (depth + 1) ts).map (· + 1)
    else if t.isSymbol (.right b) then
      match depth with
      | 0 => some 0
      | depth + 1 => (closingIndex? b depth ts).map (· + 1)
    else (closingIndex? b depth ts).map (· + 1)

/-- The index of the bracket that closes the first token; nothing if that opens none or the list ends
first. -/
def matching? : List Token → Option Nat
  | [] => none
  | t :: ts =>
    match t.kind with
    | .symbol (.left b) => (closingIndex? b 0 ts).map (· + 1)
    | _ => none

/-- The bracket depth after a token. A bracket that closes nothing is passed over. -/
def depthAfter (depth : Nat) (t : Token) : Nat :=
  if t.isLeft then depth + 1 else if t.isRight then depth - 1 else depth

/-- The index of the first token outside all brackets that satisfies `p`, from a given depth on. -/
def findFrom? (p : Token → Bool) : Nat → List Token → Option Nat
  | _, [] => none
  | depth, t :: ts =>
    if depth == 0 && p t then some 0 else (findFrom? p (depthAfter depth t) ts).map (· + 1)

/-- The index of the first symbol `s` outside all brackets. -/
def find? (s : Symbol) (ts : List Token) : Option Nat :=
  findFrom? (·.isSymbol s) 0 ts

theorem closingIndex?_lt {b : Bracket} {depth : Nat} {ts : List Token} {i : Nat}
    (h : closingIndex? b depth ts = some i) : i < ts.length := by
  induction ts generalizing depth i with
  | nil => simp [closingIndex?] at h
  | cons t ts ih =>
    have step {d : Nat} (h : (closingIndex? b d ts).map (· + 1) = some i) :
        i < (t :: ts).length := by
      obtain ⟨j, hj, rfl⟩ := Option.map_eq_some_iff.1 h
      simpa using ih hj
    unfold closingIndex? at h
    split at h
    · exact step h
    · split at h
      · split at h
        · cases h
          simp
        · exact step h
      · exact step h

theorem matching?_lt {ts : List Token} {i : Nat} (h : matching? ts = some i) : i < ts.length := by
  cases ts with
  | nil => simp [matching?] at h
  | cons t ts =>
    rw [matching?] at h
    split at h
    · obtain ⟨j, hj, rfl⟩ := Option.map_eq_some_iff.1 h
      simpa using closingIndex?_lt hj
    · cases h

theorem findFrom?_lt {p : Token → Bool} {depth : Nat} {ts : List Token} {i : Nat}
    (h : findFrom? p depth ts = some i) : i < ts.length := by
  induction ts generalizing depth i with
  | nil => simp [findFrom?] at h
  | cons t ts ih =>
    rw [findFrom?] at h
    split at h
    · cases h
      simp
    · obtain ⟨j, hj, rfl⟩ := Option.map_eq_some_iff.1 h
      simpa using ih hj

end ToneScript.Span
