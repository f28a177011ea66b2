import ToneScript.Proofs.Arithmetic.Grammar
import ToneScript.Proofs.Text.Brackets

/-! How the tokens of an expression are read. Its brackets match and its commas are all in brackets, so that
what stands after it is found where it ends. -/
namespace ToneScript

@[simp] theorem Mark.kind_token (m : Mark) (kind : Token.Kind) : (m.token kind).kind = kind := rfl
@[simp] theorem Mark.pos_token (m : Mark) (kind : Token.Kind) : (m.token kind).pos = m.pos := rfl

namespace Token

/-- What a token shows of itself besides its kind. -/
def mark (t : Token) : Mark :=
  ⟨t.pos, t.lexeme⟩

theorem token_mark {t : Token} {k : Token.Kind} (h : t.kind = k) : t.mark.token k = t := by
  rw [← h]
  rfl

end Token

section Brackets

open ToneScript.Span

mutual

/-- The brackets of an expression match. -/
theorem Infix.balanced_tokens (e : Infix) : Balanced e.tokens := by
  cases e with
  | const v m | name id m => exact .plain rfl rfl .nil
  | call callee m opening args closing =>
    exact .plain rfl rfl (.pair rfl rfl (InfixArguments.balanced_tokens args) .nil)
  | group opening inner closing => exact .pair rfl rfl (Infix.balanced_tokens inner) .nil
  | prefixed sign m operand => exact .plain rfl rfl (Infix.balanced_tokens operand)
  | power left m right | binary op left m right =>
    exact (Infix.balanced_tokens left).append (.plain rfl rfl (Infix.balanced_tokens right))

theorem InfixArgument.balanced_tokens (arg : InfixArgument) : Balanced arg.tokens := by
  cases arg with
  | positional value => exact Infix.balanced_tokens value
  | assign id m equals value => exact .plain rfl rfl (.plain rfl rfl (Infix.balanced_tokens value))
  | opAssign id m op opMark equals value =>
    exact .plain rfl rfl (.plain rfl rfl (.plain rfl rfl (Infix.balanced_tokens value)))

theorem InfixArguments.balanced_tokens (args : InfixArguments) : Balanced args.tokens := by
  cases args with
  | none => exact .nil
  | last arg => exact InfixArgument.balanced_tokens arg
  | more arg comma rest =>
    exact (InfixArgument.balanced_tokens arg).append (.plain rfl rfl (InfixArguments.balanced_tokens rest))

end

/-- No comma of an expression is outside brackets. -/
theorem Infix.find?_comma (e : Infix) (rest : List Token) :
    find? .comma (e.tokens ++ rest) = (find? .comma rest).map (· + e.tokens.length) := by
  cases e with
  | const v m | name id m => exact findFrom?_plain rfl rfl rfl rest
  | call callee m opening args closing =>
    rw [tokens, List.cons_append, List.cons_append, List.append_assoc, find?, findFrom?_plain rfl rfl rfl,
      List.singleton_append, findFrom?_pair rfl rfl args.balanced_tokens rfl, Option.map_map]
    congr 1
    funext i
    simp
    omega
  | group opening inner closing =>
    rw [tokens, List.cons_append, List.append_assoc, find?, List.singleton_append,
      findFrom?_pair rfl rfl inner.balanced_tokens rfl]
    congr 1
    funext i
    simp
  | prefixed sign m operand =>
    have hoperand := find?_comma operand rest
    rw [find?] at hoperand
    rw [tokens, List.cons_append, find?, findFrom?_plain (by cases sign <;> rfl) rfl rfl, hoperand,
      Option.map_map]
    rfl
  | power left m right | binary op left m right =>
    have hright := find?_comma right rest
    rw [find?] at hright
    rw [tokens, List.append_assoc, find?_comma left, List.cons_append, find?,
      findFrom?_plain rfl rfl rfl, hright, Option.map_map, Option.map_map, find?]
    congr 1
    funext i
    simp
    omega

theorem InfixArgument.find?_comma (arg : InfixArgument) (rest : List Token) :
    find? .comma (arg.tokens ++ rest) = (find? .comma rest).map (· + arg.tokens.length) := by
  cases arg with
  | positional value => exact value.find?_comma rest
  | assign id m equals value =>
    have hvalue := value.find?_comma rest
    rw [find?] at hvalue
    rw [tokens, List.cons_append, List.cons_append, find?, findFrom?_plain rfl rfl rfl,
      findFrom?_plain rfl rfl rfl, hvalue, Option.map_map, Option.map_map]
    rfl
  | opAssign id m op opMark equals value =>
    have hvalue := value.find?_comma rest
    rw [find?] at hvalue
    rw [tokens, List.cons_append, List.cons_append, List.cons_append, find?, findFrom?_plain rfl rfl rfl,
      findFrom?_plain rfl rfl rfl, findFrom?_plain rfl rfl rfl, hvalue, Option.map_map, Option.map_map,
      Option.map_map]
    rfl

end Brackets

/-- An expression opens with a constant, a name, a sign or a parenthesis, at its position. -/
theorem Infix.tokens_eq_cons (e : Infix) :
    ∃ t ts, e.tokens = t :: ts ∧ t.pos = e.pos ∧ t.isSymbol .equals = false ∧
      t.isSymbol .kwIf = false ∧ t.isSymbol (.left .curly) = false := by
  cases e with
  | const v m | name id m | call callee m opening args closing | group opening inner closing
  | prefixed sign m operand => exact ⟨_, _, rfl, rfl, rfl, rfl, rfl⟩
  | power left m right | binary op left m right =>
    obtain ⟨t, ts, heq, hpos, hnot⟩ := tokens_eq_cons left
    exact ⟨t, _, by rw [tokens, heq, List.cons_append], hpos, hnot⟩

theorem InfixArgument.tokens_eq_cons (arg : InfixArgument) : ∃ t ts, arg.tokens = t :: ts ∧ t.pos = arg.pos := by
  cases arg with
  | positional value =>
    obtain ⟨t, ts, heq, hpos, _⟩ := value.tokens_eq_cons
    exact ⟨t, ts, heq, hpos⟩
  | assign id m equals value | opAssign id m op opMark equals value => exact ⟨_, _, rfl, rfl⟩

/-- Tokens with which an expression can go on: an operator, and something that is no equals sign. -/
def Continues : List Token → Prop
  | [] => True
  | t :: ts => (∃ op, t.kind = .operator op) ∧ ts.head?.any (·.isSymbol .equals) = false

/-- An expression with more than a name in it is not given by name. -/
theorem Infix.readForm_append (e : Infix) (rest : List Token) (hrest : Continues rest)
    (hmore : rest = [] → ∀ id m, e ≠ .name id m) : readForm (e.tokens ++ rest) = (.positional, 0) := by
  cases e with
  | const v m | group opening inner closing | prefixed sign m operand => rfl
  | call callee m opening args closing => rfl
  | name id m =>
    cases rest with
    | nil => exact absurd rfl (hmore rfl id m)
    | cons t ts =>
      obtain ⟨⟨op, hop⟩, hequals⟩ := hrest
      have hnot : t.isSymbol .equals = false := by rw [Token.isSymbol, hop]; rfl
      simp [tokens, readForm, hop, hnot, hequals]
  | power left m right | binary op left m right =>
    obtain ⟨t, ts, heq, _, hequals, _⟩ := right.tokens_eq_cons
    rw [tokens, List.append_assoc]
    refine readForm_append left _ ⟨⟨_, rfl⟩, ?_⟩ fun h => by cases h
    rw [heq]
    exact hequals

/-- The form of an argument, and its value after that. -/
theorem InfixArgument.readForm_tokens (arg : InfixArgument) :
    (readForm arg.tokens).1 = arg.form ∧ arg.tokens.drop (readForm arg.tokens).2 = arg.value.tokens := by
  cases arg with
  | assign id m equals value => exact ⟨rfl, rfl⟩
  | opAssign id m op opMark equals value =>
    exact ⟨rfl, rfl⟩
  | positional value =>
    have hform := value.readForm_append [] trivial
    rw [List.append_nil] at hform
    cases value with
    | name id m => exact ⟨rfl, rfl⟩
    | const | call | group | prefixed | power | binary =>
      rw [InfixArgument.tokens, hform fun _ _ _ h => by cases h]
      exact ⟨rfl, rfl⟩

section Terms

variable (names : NameTable) (endPos : Position)

mutual

/-- The terms of an expression are read from its tokens, up to what follows it. -/
theorem Infix.listOfTokens_tokens (e : Infix) (rest : List Token)
    (hrest : rest.head?.any (·.isSymbol (.left .round)) = false) :
    Term.listOfTokens names endPos false (e.tokens ++ rest) =
      e.terms ++ Term.listOfTokens names endPos true rest := by
  cases e with
  | const v m =>
    rw [Infix.tokens, Infix.terms, List.singleton_append, Term.listOfTokens]
    rfl
  | name id m =>
    rw [Infix.tokens, Infix.terms, List.singleton_append, Term.listOfTokens]
    simp [hrest]
  | call callee m opening args closing =>
    have hmatching := Span.matching?_pair (opening.token (.symbol (.left .round)))
      (closing.token (.symbol (.right .round))) rfl rfl args.balanced_tokens rest
    have hargs := InfixArguments.listOfTokens_tokens args
    rw [Infix.tokens, Infix.terms, List.cons_append, List.cons_append, List.append_assoc,
      List.singleton_append, Term.listOfTokens]
    have hopen : (opening.token (.symbol (.left .round))).isSymbol (.left .round) = true := rfl
    simp only [Mark.kind_token, List.head?_cons, Option.any_some, hopen, if_true, hmatching]
    simp [hargs]
  | group opening inner closing =>
    have hinner := Infix.listOfTokens_tokens inner
      (closing.token (.symbol (.right .round)) :: rest) rfl
    rw [Infix.tokens, Infix.terms, List.cons_append, List.append_assoc, List.singleton_append,
      Term.listOfTokens]
    simp only [Mark.kind_token, Mark.pos_token, hinner]
    rw [Term.listOfTokens]
    simp
  | prefixed sign m operand =>
    rw [Infix.tokens, Infix.terms, List.cons_append, Term.listOfTokens]
    simp only [Mark.kind_token, Mark.pos_token, Infix.listOfTokens_tokens operand rest hrest]
    cases sign <;> rfl
  | power left m right | binary op left m right =>
    rw [Infix.tokens, Infix.terms, List.append_assoc, List.cons_append,
      Infix.listOfTokens_tokens left _ rfl, Term.listOfTokens]
    simp [Infix.listOfTokens_tokens right rest hrest]

/-- The outlines of arguments are read from their tokens. -/
theorem InfixArguments.listOfTokens_tokens (args : InfixArguments) :
    ArgumentOutline.listOfTokens names endPos args.tokens = args.outlines := by
  cases args with
  | none =>
    rw [InfixArguments.tokens, InfixArguments.outlines, ArgumentOutline.listOfTokens]
  | last arg =>
    have houtline := InfixArgument.listOfTokens_tokens arg [] (.inl rfl)
    rw [List.append_nil] at houtline
    rw [InfixArguments.tokens, InfixArguments.outlines, houtline, List.drop_nil,
      ArgumentOutline.listOfTokens]
  | more arg comma rest =>
    rw [InfixArguments.tokens, InfixArguments.outlines,
      InfixArgument.listOfTokens_tokens arg _ (.inr ⟨_, _, rfl, rfl⟩), List.drop_one, List.tail_cons,
      InfixArguments.listOfTokens_tokens rest]

/-- The outline of an argument is read from its tokens, up to a comma or the end. -/
theorem InfixArgument.listOfTokens_tokens (arg : InfixArgument) (rest : List Token)
    (hrest : rest = [] ∨ ∃ comma rest', rest = comma :: rest' ∧ comma.kind = .symbol .comma) :
    ArgumentOutline.listOfTokens names endPos (arg.tokens ++ rest) =
      arg.outline :: ArgumentOutline.listOfTokens names endPos (rest.drop 1) := by
  obtain ⟨t, ts, htokens, hpos⟩ := arg.tokens_eq_cons
  have hstop : (Span.find? .comma (t :: (ts ++ rest))).getD ((ts ++ rest).length + 1) = ts.length + 1 := by
    have hcomma := arg.find?_comma rest
    rw [htokens, List.cons_append] at hcomma
    rw [hcomma]
    rcases hrest with rfl | ⟨comma, rest', rfl, hkind⟩
    · simp [Span.find?, Span.findFrom?]
    · simp [Span.find?, Span.findFrom?, Token.isSymbol, hkind]
  have htake : (t :: (ts ++ rest)).take (ts.length + 1) = arg.tokens := by
    rw [htokens]
    simp
  have hdrop : (ts ++ rest).drop (ts.length + 1) = rest.drop 1 := by
    rw [List.drop_append]
    simp
  obtain ⟨hform, hvalue⟩ := arg.readForm_tokens
  obtain ⟨u, us, hcons, hupos, _⟩ := arg.value.tokens_eq_cons
  have hterms := InfixArgument.listOfTokens_value arg
  rw [htokens, List.cons_append, ArgumentOutline.listOfTokens]
  simp only [hstop, htake, hdrop, hform, hvalue, hterms]
  rw [if_neg (Nat.succ_ne_zero _), if_neg (by rw [hcons]; exact nofun), hpos, headPos, hcons]
  cases arg <;> simp_all [InfixArgument.outline, InfixArgument.value, InfixArgument.form, InfixArgument.pos]

/-- The terms of the value of an argument. -/
theorem InfixArgument.listOfTokens_value (arg : InfixArgument) :
    Term.listOfTokens names endPos false arg.value.tokens = arg.value.terms := by
  have hempty : Term.listOfTokens names endPos true [] = [] := by rw [Term.listOfTokens]
  cases arg with
  | positional value | assign id m equals value | opAssign id m op opMark equals value =>
    have hvalue := Infix.listOfTokens_tokens value [] rfl
    rw [List.append_nil, hempty, List.append_nil] at hvalue
    exact hvalue

end

/-- The outline of an expression is read from its tokens. -/
theorem Infix.ofTokens_tokens (e : Infix) :
    Outline.ofTokens names endPos e.tokens = .arithmetic e.terms e.pos := by
  obtain ⟨t, ts, htokens, hpos, _, hif, hcurly⟩ := e.tokens_eq_cons
  have hterms := e.listOfTokens_tokens names endPos [] rfl
  rw [List.append_nil, Term.listOfTokens, List.append_nil] at hterms
  rw [htokens, Outline.ofTokens]
  simp only [hif, hcurly, Bool.false_eq_true, if_false]
  rw [← htokens, hterms, hpos]

end Terms

end ToneScript
