import ToneScript.Proofs.Phrase.Grammar
import ToneScript.Proofs.Rendering.Layout

/-! Where the parts of an expression end. Brackets match in every expression, what ends an entry is in brackets there,
and an `else` that belongs to a conditional within an expression is passed over. The colon of a conditional is not: the
first colon outside brackets is taken for that of the outermost conditional. -/
namespace ToneScript

section Brackets

theorem Token.isBracket_eq_false {t : Token} (hleft : t.isLeft = false) (hright : t.isRight = false) :
    t.kind.isBracket = false := by
  obtain ⟨kind, pos, lexeme⟩ := t
  cases kind with
  | symbol s =>
    cases s with
    | left b => cases hleft
    | right b => cases hright
    | _ => rfl
  | ident | const | operator | eof => rfl

/-- Whatever stands between brackets may be in brackets. -/
theorem Nested.of_balanced {ts : List Token} (h : Span.Balanced ts) : Nested [] (ts.map Token.kind) := by
  induction h with
  | nil => exact .nil
  | plain hleft hright _ ih => exact .plain (Token.isBracket_eq_false hleft hright) (fun _ hs => absurd hs List.not_mem_nil) ih
  | pair hopening hclosing _ _ ihinner ih =>
    simp only [List.map_cons, List.map_append, hopening, hclosing]
    exact .pair List.not_mem_nil ihinner ih

mutual

/-- The tokens of an arithmetic expression are no symbols, but for brackets and what is in them. -/
theorem Infix.nested_tokens (e : Infix) {avoid : List Symbol} (hround : .left .round ∉ avoid) :
    Nested avoid (e.tokens.map Token.kind) := by
  cases e with
  | const v m | name id m => exact .word .nil rfl
  | call callee m opening args closing =>
    simp only [Infix.tokens, List.map_cons, List.map_append, List.map_nil, Mark.kind_token]
    exact .word ((InfixArguments.nested_tokens args).enclosed hround) rfl
  | group opening inner closing =>
    simp only [Infix.tokens, List.map_cons, List.map_append, List.map_nil, Mark.kind_token]
    exact (Infix.nested_tokens inner List.not_mem_nil).enclosed hround
  | prefixed sign m operand => exact .word (Infix.nested_tokens operand hround) rfl
  | power left m right | binary op left m right =>
    simp only [Infix.tokens, List.map_cons, List.map_append, Mark.kind_token]
    exact (Infix.nested_tokens left hround).append (.word (Infix.nested_tokens right hround) rfl)

theorem InfixArgument.nested_tokens (arg : InfixArgument) : Nested [] (arg.tokens.map Token.kind) := by
  cases arg with
  | positional value => exact Infix.nested_tokens value List.not_mem_nil
  | assign id m equals value =>
    exact .word (.symbol (Infix.nested_tokens value List.not_mem_nil) rfl List.not_mem_nil) rfl
  | opAssign id m op opMark equals value =>
    exact .word (.word (.symbol (Infix.nested_tokens value List.not_mem_nil) rfl List.not_mem_nil) rfl) rfl

theorem InfixArguments.nested_tokens (args : InfixArguments) : Nested [] (args.tokens.map Token.kind) := by
  cases args with
  | none => exact .nil
  | last arg => exact InfixArgument.nested_tokens arg
  | more arg comma rest =>
    simp only [InfixArguments.tokens, List.map_cons, List.map_append, Mark.kind_token]
    exact (InfixArgument.nested_tokens arg).append (.symbol (InfixArguments.nested_tokens rest) rfl List.not_mem_nil)

end

/-- What ends an entry is in brackets within a function. -/
theorem PhraseEntry.nested_closure (opening : Mark) (name : Ident) (m closing : Mark) {paramTokens : List Token}
    {params : List Param} (hparams : Separated Param.Derived true paramTokens params) {body : Phrase}
    (hbody : Nested expressionEnds (body.tokens.map Token.kind)) :
    Nested [.semicolon] ((closure opening name m paramTokens params closing body).tokens.map Token.kind) := by
  have hheader : Nested [] (.ident name :: paramTokens.map Token.kind) :=
    .word (.of_balanced (hparams.balanced fun _ _ => Param.Derived.balanced)) rfl
  simp only [PhraseEntry.tokens, List.map_cons, List.map_append, Mark.kind_token]
  exact .pair (by decide) hheader (hbody.mono (by simp [expressionEnds]))

mutual

/-- What ends an expression is in brackets within it. -/
theorem Phrase.nested_tokens (p : Phrase) (h : p.Fits) : Nested expressionEnds (p.tokens.map Token.kind) := by
  cases p with
  | arithmetic e => exact e.nested_tokens (by decide)
  | block opening entries closing =>
    simp only [Phrase.tokens, List.map_cons, List.map_append, List.map_nil, Mark.kind_token]
    exact (PhraseEntries.nested_tokens entries h).enclosed (by decide)
  | conditional keyword condition colon thenBranch other elseBranch =>
    simp only [Phrase.tokens, List.map_cons, List.map_append, Mark.kind_token]
    refine .symbol (.append (Phrase.nested_tokens condition h.1) ?_) rfl (by decide)
    refine .symbol (.append (Phrase.nested_tokens thenBranch h.2.1) ?_) rfl (by decide)
    exact .symbol (Phrase.nested_tokens elseBranch h.2.2) rfl (by decide)

theorem PhraseEntries.nested_tokens (entries : PhraseEntries) (h : entries.Fit) :
    Nested [] (entries.tokens.map Token.kind) := by
  cases entries with
  | none => exact .nil
  | semicolon m rest => exact .symbol (PhraseEntries.nested_tokens rest h) rfl List.not_mem_nil
  | more entry semicolon rest =>
    simp only [PhraseEntries.tokens, List.map_cons, List.map_append, Mark.kind_token]
    exact (PhraseEntry.nested_tokens entry h.1).append
      (.symbol (PhraseEntries.nested_tokens rest h.2) rfl List.not_mem_nil)

theorem PhraseEntry.nested_tokens (entry : PhraseEntry) (h : entry.Fits) :
    Nested [] (entry.tokens.map Token.kind) := by
  cases entry with
  | operator op m value => exact .word ((Phrase.nested_tokens value h).mono (List.nil_subset _)) rfl
  | guarded op m value question guard =>
    simp only [PhraseEntry.tokens, List.map_cons, List.map_append, Mark.kind_token]
    have hguard := (Phrase.nested_tokens guard h.2).mono (List.nil_subset _)
    exact .word (((Phrase.nested_tokens value h.1).mono (List.nil_subset _)).append
      (.symbol hguard rfl List.not_mem_nil)) rfl
  | closure opening name m paramTokens params closing body =>
    have hclosure := PhraseEntry.nested_closure opening name m closing h.1 (Phrase.nested_tokens body h.2)
    exact hclosure.mono (List.nil_subset _)

end

/-- An expression that is no conditional has nothing of one outside brackets. -/
theorem Phrase.nested_plain {p : Phrase} (h : p.Fits) (hplain : p.isConditional = false) :
    Nested conditionalMarks (p.tokens.map Token.kind) := by
  cases p with
  | arithmetic e => exact e.nested_tokens (by decide)
  | block opening entries closing =>
    simp only [Phrase.tokens, List.map_cons, List.map_append, List.map_nil, Mark.kind_token]
    exact (PhraseEntries.nested_tokens entries h).enclosed (by decide)
  | conditional => cases hplain

end Brackets

section Scans

/-- The search for an `else` passes over an expression. -/
theorem Phrase.findElse?_append (p : Phrase) (h : p.Fits) (nesting : Nat) (rest : List Token) :
    findElse? nesting (p.tokens ++ rest) = (findElse? nesting rest).map (· + p.tokens.length) := by
  cases p with
  | arithmetic e => exact (Phrase.nested_plain h rfl).findElse?_append (by decide) (by decide) nesting rest
  | block opening entries closing =>
    exact (Phrase.nested_plain h rfl).findElse?_append (by decide) (by decide) nesting rest
  | conditional keyword condition colon thenBranch other elseBranch =>
    have hmark (ts : List Token) : findElse? (nesting + 1) (colon.token (.symbol .colon) :: ts) =
        (findElse? (nesting + 1) ts).map (· + 1) :=
      findElse?_plain rfl rfl rfl _ _
    simp only [Phrase.tokens, List.cons_append, List.append_assoc]
    rw [findElse?_if rfl, Phrase.findElse?_append condition h.1, hmark, Phrase.findElse?_append thenBranch h.2.1,
      findElse?_else rfl, Phrase.findElse?_append elseBranch h.2.2]
    simp only [Option.map_map, List.length_cons, List.length_append]
    congr 1
    funext i
    simp
    omega

/-- A first branch ends at the `else` that follows it. -/
theorem Phrase.findElse?_tokens {p : Phrase} (h : p.Fits) {other : Token} (hother : other.kind = .symbol .kwElse)
    (rest : List Token) : findElse? 0 (p.tokens ++ other :: rest) = some p.tokens.length := by
  rw [p.findElse?_append h, findElse?_else_zero hother]
  simp

/-- The first colon of a conditional outside brackets is that of the conditional which begins with the last of the
keywords at its front. -/
theorem Phrase.exists_front (p : Phrase) (h : p.Fits) (hconditional : p.isConditional = true) :
    ∃ keyword front colon thenBranch other rest,
      p.tokens = Mark.token keyword (.symbol .kwIf) :: (front ++ Mark.token colon (.symbol .colon) ::
        (Phrase.tokens thenBranch ++ Mark.token other (.symbol .kwElse) :: rest)) ∧
      thenBranch.Fits ∧ Nested [.colon] (front.map Token.kind) := by
  cases p with
  | arithmetic e => cases hconditional
  | block opening entries closing => cases hconditional
  | conditional keyword condition colon thenBranch other elseBranch =>
    by_cases hcondition : condition.isConditional = true
    · obtain ⟨keyword', front, colon', thenBranch', other', rest, htokens, hthen, hfront⟩ :=
        Phrase.exists_front condition h.1 hcondition
      refine ⟨keyword, keyword'.token (.symbol .kwIf) :: front, colon', thenBranch', other', rest ++
        colon.token (.symbol .colon) :: (thenBranch.tokens ++ other.token (.symbol .kwElse) :: elseBranch.tokens),
        ?_, hthen, hfront.symbol rfl (by decide)⟩
      rw [Phrase.tokens, htokens]
      simp only [List.cons_append, List.append_assoc]
    · have hfront := Phrase.nested_plain h.1 (Bool.not_eq_true _ ▸ hcondition)
      exact ⟨keyword, condition.tokens, colon, thenBranch, other, elseBranch.tokens, rfl, h.2.1,
        hfront.mono (by simp [conditionalMarks])⟩

end Scans

section Outlines

variable (names : NameTable) (endPos : Position) {keyword colon other : Mark} {condition thenBranch elseBranch : Phrase}

/-- A conditional whose condition is none is cut into its parts. -/
theorem Phrase.ofTokens_conditional (h : (Phrase.conditional keyword condition colon thenBranch other elseBranch).Fits)
    (hplain : condition.isConditional = false) :
    Outline.ofTokens names endPos (Phrase.conditional keyword condition colon thenBranch other elseBranch).tokens =
      .conditional (Outline.ofTokens names endPos condition.tokens) (Outline.ofTokens names endPos thenBranch.tokens)
        (Outline.ofTokens names endPos elseBranch.tokens) keyword.pos :=
  Outline.ofTokens_if names endPos rfl ((Phrase.nested_plain h.1 hplain).mono (by simp [conditionalMarks])) rfl
    (Phrase.findElse?_tokens h.2.1 rfl _)

/-- A keyword after which there is no colon outside brackets. -/
theorem Outline.ofTokens_if_flawed {kwIf : Token} {ts : List Token} (hif : kwIf.kind = .symbol .kwIf)
    (hts : Nested [.colon] (ts.map Token.kind)) :
    Outline.ofTokens names endPos (kwIf :: ts) = .flawed (.located endPos .expectedColon) := by
  have hkeyword : kwIf.isSymbol .kwIf = true := by rw [Token.isSymbol, hif, beq_self_eq_true]
  have hfind : Span.find? .colon ts = none := by
    have happend := hts.find?_append (List.mem_singleton_self .colon) []
    rwa [List.append_nil] at happend
  rw [Outline.ofTokens]
  simp only [hkeyword, if_true, hfind]

/-- A conditional whose condition is itself a conditional is cut at the colon of the latter, so that the keyword of the
latter has no colon. -/
theorem Phrase.exists_ofTokens_conditional
    (h : (Phrase.conditional keyword condition colon thenBranch other elseBranch).Fits)
    (hconditional : condition.isConditional = true) :
    ∃ first second pos,
      Outline.ofTokens names endPos (Phrase.conditional keyword condition colon thenBranch other elseBranch).tokens =
        .conditional (.flawed (.located endPos .expectedColon)) first second pos := by
  obtain ⟨keyword', front, colon', thenBranch', other', rest, htokens, hthen, hfront⟩ :=
    Phrase.exists_front condition h.1 hconditional
  refine ⟨Outline.ofTokens names endPos thenBranch'.tokens, Outline.ofTokens names endPos (rest ++
    colon.token (.symbol .colon) :: (thenBranch.tokens ++ other.token (.symbol .kwElse) :: elseBranch.tokens)),
    keyword.pos, ?_⟩
  have hnested : Nested [.colon] ((keyword'.token (.symbol .kwIf) :: front).map Token.kind) :=
    hfront.symbol rfl (by decide)
  have hbranch := Phrase.findElse?_tokens hthen (Mark.kind_token other' _) (rest ++
    colon.token (.symbol .colon) :: (thenBranch.tokens ++ other.token (.symbol .kwElse) :: elseBranch.tokens))
  have hcut := Outline.ofTokens_if names endPos (Mark.kind_token keyword _) hnested (Mark.kind_token colon' _) hbranch
  rw [Outline.ofTokens_if_flawed names endPos (Mark.kind_token keyword' _) hfront] at hcut
  rw [Phrase.tokens, htokens]
  simpa only [List.cons_append, List.append_assoc, Mark.pos_token] using hcut

end Outlines

end ToneScript
