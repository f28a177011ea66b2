import ToneScript.Outline.Tree
import ToneScript.Token.Span
/-!
Outlines of token lists.

Every part is cut out of its surroundings first, by scans that respect brackets, and then outlined on its
own span. The span of a part is shorter than that of the whole, or is outlined by a simpler rule.
-/
namespace ToneScript

/-- The default at the front of a list of tokens and the number of tokens it takes: an equals sign, a
minus sign or none, and a constant. -/
def readDefault (endPos : Position) : List Token → Except SyntaxError (Option Number × Nat)
  | t :: ts =>
    if t.isSymbol .equals then
      let negative := ts.head?.any fun s => decide (s.kind = .operator .sub)
      let ts := if negative then ts.drop 1 else ts
      match ts with
      | [] => .error (.located endPos (.expectedConstant .eof))
      | c :: _ =>
        match c.kind with
        | .const v => .ok (some (if negative then -v else v), if negative then 3 else 2)
        | _ => .error (.located c.pos (.expectedConstant (.ofToken c)))
    else .ok (none, 0)
  | [] => .ok (none, 0)

/-- The parameters at the front of a list of tokens, up to a closing square bracket, and the number of
tokens they take. `seen` holds the parameters before them. -/
def readParams (names : NameTable) (endPos : Position) (seen : List Param) (ts : List Token) :
    Except SyntaxError (List Param × Nat) :=
  match ts with
  | [] => .error (.located endPos (.expectedParameterEnd .eof))
  | t :: ts =>
    if t.isSymbol (.right .square) then .ok (seen, 1)
    else
      match t.kind with
      | .ident id =>
        match seen.find? (·.name == id) with
        | some other => .error (.located t.pos (.parameterTwice (names.name id) other.pos))
        | none =>
          match readDefault endPos ts with
          | .error e => .error e
          | .ok (default?, n) =>
            let seen := seen ++ [⟨id, default?, t.pos⟩]
            match h : ts.drop n with
            | [] => .error (.located endPos (.expectedParameterEnd .eof))
            | u :: us =>
              if u.isSymbol .comma then
                (readParams names endPos seen us).map fun (params, k) => (params, k + n + 2)
              else if u.isSymbol (.right .square) then .ok (seen, n + 2)
              else .error (.located u.pos (.expectedParameterEnd (.ofToken u)))
      | _ => .error (.located t.pos (.expectedParameterName (.ofToken t)))
termination_by ts.length
decreasing_by
  have := congrArg List.length h
  simp only [List.length_drop, List.length_cons] at this ⊢
  omega

/-- The header that follows an opening square bracket, and the number of tokens it takes. -/
def readHeader (names : NameTable) (endPos : Position) (opening : Position) :
    List Token → Except SyntaxError (FunctionHeader × Nat)
  | [] => .error (.located endPos (.expectedFunctionName .eof))
  | t :: ts =>
    match t.kind with
    | .ident id =>
      (readParams names endPos [] ts).map fun (params, n) => (⟨id, t.pos, params, opening⟩, n + 1)
    | _ => .error (.located t.pos (.expectedFunctionName (.ofToken t)))

/-- The form of the argument at the front of a list of tokens, and the number of tokens before its
value. -/
def readForm : List Token → ArgumentForm × Nat
  | [] => (.positional, 0)
  | t :: ts =>
    match t.kind with
    | .ident id =>
      match ts with
      | [] => (.shorthand id, 0)
      | u :: us =>
        if u.isSymbol .equals then (.assign id, 2)
        else
          match u.kind with
          | .operator op =>
            if us.head?.any (·.isSymbol .equals) then (.opAssign id op, 3) else (.positional, 0)
          | _ => (.positional, 0)
    | _ => (.positional, 0)

/-- The position of the first token, or of the end of the source. -/
def headPos (endPos : Position) (ts : List Token) : Position :=
  ts.head?.elim endPos Token.pos

/-- The index of the `else` that belongs to a conditional, given how many conditionals within it are
still without theirs. Brackets are passed over whole. -/
def findElse? (nesting : Nat) (ts : List Token) : Option Nat :=
  match ts with
  | [] => none
  | t :: ts =>
    if t.isLeft then
      match Span.matching? (t :: ts) with
      | none => none
      | some close => (findElse? nesting (ts.drop close)).map (· + close + 1)
    else if t.isSymbol .kwIf then (findElse? (nesting + 1) ts).map (· + 1)
    else if t.isSymbol .kwElse then
      match nesting with
      | 0 => some 0
      | nesting + 1 => (findElse? nesting ts).map (· + 1)
    else (findElse? nesting ts).map (· + 1)
termination_by ts.length
decreasing_by all_goals simp only [List.length_drop, List.length_cons]; omega

/-- Where the parts of an entry of a block lie after its operator. -/
structure EntryExtent where
  question? : Option Nat
  semicolon : Nat

/-- The extent of an entry, from the tokens after its operator. A question mark counts only before the
semicolon. -/
def EntryExtent.of (endPos : Position) (ts : List Token) : Except SyntaxError EntryExtent :=
  let question? := Span.find? .questionMark ts
  match Span.find? .semicolon ts with
  | none =>
    .error (.located endPos (if question?.isSome then .guardNotEnded else .entryNotEnded))
  | some semicolon => .ok ⟨question?.filter (· ≤ semicolon), semicolon⟩

mutual

/-- The outline of the expression that a list of tokens makes up. -/
def Outline.ofTokens (names : NameTable) (endPos : Position) (ts : List Token) : Outline :=
  match ts with
  | [] => .arithmetic [.flawed ⟨.emptyExpression, none⟩] endPos
  | t :: rest =>
    if t.isSymbol .kwIf then
      match Span.find? .colon rest with
      | none => .flawed (.located endPos .expectedColon)
      | some colon =>
        match findElse? 0 (rest.drop (colon + 1)) with
        | none => .flawed (.located endPos .expectedElse)
        | some n =>
          .conditional
            (Outline.ofTokens names endPos (rest.take colon))
            (Outline.ofTokens names endPos ((rest.drop (colon + 1)).take n))
            (Outline.ofTokens names endPos (rest.drop (colon + 1 + n + 1)))
            t.pos
    else if t.isSymbol (.left .curly) then
      match Span.matching? (t :: rest) with
      | none =>
        .block (EntryOutline.listOfTokens names endPos rest)
          (some (.located endPos (.expectedEntry .eof))) t.pos
      | some close =>
        .block (EntryOutline.listOfTokens names endPos (rest.take (close - 1)))
          ((rest.drop close).head?.map fun extra =>
            .located extra.pos (.expectedBlockEnd (.ofToken extra)))
          t.pos
    else .arithmetic (Term.listOfTokens names endPos false (t :: rest)) t.pos
termination_by 3 * ts.length + 2
decreasing_by
  all_goals
    simp only [List.length_take, List.length_drop, List.length_cons]
    omega

/-- The outlines of the entries that a list of tokens makes up, up to the first error. -/
def EntryOutline.listOfTokens (names : NameTable) (endPos : Position) (ts : List Token) :
    List EntryOutline :=
  match ts with
  | [] => []
  | t :: rest =>
    match t.kind with
    | .symbol .semicolon => EntryOutline.listOfTokens names endPos rest
    | .symbol (.left .square) =>
      let stop := (Span.find? .semicolon (t :: rest)).getD (rest.length + 1)
      .closure (FunctionOutline.ofTokens names endPos ((t :: rest).take stop)) t.pos
        :: EntryOutline.listOfTokens names endPos (rest.drop stop)
    | .operator op =>
      match EntryExtent.of endPos rest with
      | .error e => [.flawed e]
      | .ok extent =>
        let value := Outline.ofTokens names endPos
          (rest.take (extent.question?.getD extent.semicolon))
        let guard :=
          match extent.question? with
          | none => none
          | some question => some (Outline.ofTokens names endPos
              ((rest.drop (question + 1)).take (extent.semicolon - (question + 1))))
        .operator op value guard t.pos
          :: EntryOutline.listOfTokens names endPos (rest.drop (extent.semicolon + 1))
    | _ => [.flawed (.located t.pos (.expectedEntry (.ofToken t)))]
termination_by 3 * ts.length + 1
decreasing_by
  all_goals
    simp only [List.length_take, List.length_drop, List.length_cons]
    omega

/-- The outline of the function definition that a list of tokens makes up. -/
def FunctionOutline.ofTokens (names : NameTable) (endPos : Position) (ts : List Token) :
    FunctionOutline :=
  match ts with
  | [] => .flawed (.located endPos (.expectedDefinition .eof))
  | t :: rest =>
    if t.isSymbol (.left .square) then
      match readHeader names endPos t.pos rest with
      | .error e => .flawed e
      | .ok (header, n) =>
        if rest.drop n = [] then .bodiless header (.located endPos .expectedBody)
        else .defined header (Outline.ofTokens names endPos (rest.drop n))
    else .flawed (.located t.pos (.expectedDefinition (.ofToken t)))
termination_by 3 * ts.length
decreasing_by
  simp only [List.length_drop, List.length_cons]
  omega

/-- The terms that a list of tokens makes up, up to the first error. A minus sign is a negation unless
it follows an operand. -/
def Term.listOfTokens (names : NameTable) (endPos : Position) (afterOperand : Bool)
    (ts : List Token) : List Term :=
  match ts with
  | [] => []
  | t :: rest =>
    match t.kind with
    | .const v => .const v t.pos :: Term.listOfTokens names endPos true rest
    | .operator op =>
      .operator (if op = .sub ∧ !afterOperand then .neg else op) t.pos
        :: Term.listOfTokens names endPos false rest
    | .ident id =>
      if rest.head?.any (·.isSymbol (.left .round)) then
        match Span.matching? rest with
        | none => [.flawed (.located t.pos .unterminatedCall)]
        | some close =>
          .call id (ArgumentOutline.listOfTokens names endPos ((rest.take close).drop 1)) t.pos
            :: Term.listOfTokens names endPos true (rest.drop (close + 1))
      else .name id t.pos :: Term.listOfTokens names endPos true rest
    | .symbol (.left .round) => .left t.pos :: Term.listOfTokens names endPos false rest
    | .symbol (.right .round) => .right t.pos :: Term.listOfTokens names endPos true rest
    | .symbol _ => [.flawed (.located t.pos (.unexpectedSymbol t.describe))]
    | .eof => Term.listOfTokens names endPos afterOperand rest
termination_by 3 * ts.length + 1
decreasing_by
  all_goals
    simp only [List.length_take, List.length_drop, List.length_cons]
    omega

/-- The outlines of the arguments that a list of tokens makes up, up to the first error. A comma may
follow the last one. -/
def ArgumentOutline.listOfTokens (names : NameTable) (endPos : Position) (ts : List Token) :
    List ArgumentOutline :=
  match ts with
  | [] => []
  | t :: rest =>
    let stop := (Span.find? .comma (t :: rest)).getD (rest.length + 1)
    if stop = 0 then [.missing t.pos]
    else
      let tokens := (t :: rest).take stop
      let form := readForm tokens
      let value := tokens.drop form.2
      let terms :=
        if value = [] then [.flawed ⟨.emptyExpression, none⟩]
        else Term.listOfTokens names endPos false value
      .given form.1 terms (headPos endPos value) t.pos
        :: ArgumentOutline.listOfTokens names endPos (rest.drop stop)
termination_by 3 * ts.length + 2
decreasing_by
  all_goals
    simp only [List.length_take, List.length_drop, List.length_cons]
    omega

end

/-- Whether a symbol ends the expression that is the body of a function: a semicolon, or the bracket of
the next definition. -/
def endsBody (t : Token) : Bool :=
  t.isSymbol .semicolon || t.isSymbol (.left .square)

/-- How many of the tokens `rest` belong to the function definition that `t` opens: those up to the end
of its block, or of its expression. -/
def functionLength (t : Token) (rest : List Token) : Nat :=
  match Span.matching? (t :: rest) with
  | none => rest.length
  | some close =>
    let body := rest.drop close
    if body.head?.any (·.isSymbol (.left .curly)) then
      match Span.matching? body with
      | none => rest.length
      | some last => close + last + 1
    else close + (Span.findFrom? endsBody 0 body).getD body.length

/-- The outlines of the definitions that the tokens of a source make up. Each is cut out before it is
outlined, so that an error in one leaves the others alone; only an assignment without an end takes all
that follows. -/
def ItemOutline.listOfTokens (names : NameTable) (endPos : Position) (ts : List Token) :
    List ItemOutline :=
  match ts with
  | [] => []
  | t :: rest =>
    if t.isSymbol .semicolon then ItemOutline.listOfTokens names endPos rest
    else if t.isSymbol (.left .square) then
      let n := functionLength t rest
      let definition := FunctionOutline.ofTokens names endPos (t :: rest.take n)
      let after := rest.drop n
      let unended? :=
        if definition.hasBlock then none
        else (after.head?.filter (·.isSymbol (.left .square))).map Token.pos
      let skip := if after.head?.any (·.isSymbol .semicolon) then n + 1 else n
      .function definition unended? t.pos :: ItemOutline.listOfTokens names endPos (rest.drop skip)
    else
      let semicolon? := Span.find? .semicolon (t :: rest)
      match t.kind, rest.head?.any (·.isSymbol .equals) with
      | .ident id, true =>
        match semicolon? with
        | none => [.flawed (.located endPos .assignmentNotEnded)]
        | some stop =>
          let tokens := (t :: rest).take stop
          let last := tokens.getLastD t
          .assignment id (Outline.ofTokens names endPos (tokens.drop 2))
              (last.pos.index + last.lexeme.length.toUInt64) t.pos
            :: ItemOutline.listOfTokens names endPos (rest.drop stop)
      | _, _ =>
        .flawed (.located t.pos (.expectedItem (.ofToken t)))
          :: ItemOutline.listOfTokens names endPos (rest.drop (semicolon?.getD rest.length))
termination_by ts.length
decreasing_by all_goals simp only [List.length_drop, List.length_cons]; omega

end ToneScript
