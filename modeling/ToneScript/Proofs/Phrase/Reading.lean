import ToneScript.Proofs.Phrase.Extent
import ToneScript.Token.Lexer

/-! How expressions are read. A conditional whose condition is none is read part by part, and where all names are in
scope the reading of an expression succeeds, if no condition in it is itself a conditional. A conditional whose condition
is one is refused. -/
namespace ToneScript

open Resolution

section Reading

variable (c : Context) (endPos : Position)

theorem Phrase.tokens_ne_nil (p : Phrase) : p.tokens ≠ [] := by
  cases p with
  | arithmetic e =>
    obtain ⟨t, ts, htokens, -⟩ := e.tokens_eq_cons
    exact fun h => List.cons_ne_nil t ts (htokens.symm.trans h)
  | block | conditional => exact List.cons_ne_nil _ _

mutual

/-- An expression whose names are in scope is read. -/
theorem Phrase.succeeds (p : Phrase) (hfits : p.Fits) (hsplits : p.Splits) {t : SymbolTable} (h : p.Resolves c t) :
    Succeeds (expr c (Outline.ofTokens c.names endPos p.tokens)) t (p.after t) := by
  cases p with
  | arithmetic e =>
    rw [Phrase.tokens, e.ofTokens_tokens]
    exact .of_gives (e.gives_expr c t hfits h)
  | block opening entries closing =>
    rw [Phrase.tokens, Outline.ofTokens_block c.names endPos rfl rfl (entries.nested_tokens hfits).balanced, expr]
    have hentries := PhraseEntries.succeeds entries hfits hsplits h
    exact (Succeeds.inBlock (Level.law.entries c _) hentries).bind fun _ => .pure _ _
  | conditional keyword condition colon thenBranch other elseBranch =>
    obtain ⟨hplain, hcondition, hthen, helse⟩ := hsplits
    rw [Phrase.ofTokens_conditional c.names endPos hfits hplain, expr]
    refine (Phrase.succeeds condition hfits.1 hcondition h.1).bind fun _ => ?_
    refine (Phrase.succeeds thenBranch hfits.2.1 hthen h.2.1).bind fun _ => ?_
    exact (Phrase.succeeds elseBranch hfits.2.2 helse h.2.2).bind fun _ => .pure _ _

theorem PhraseEntries.succeeds (es : PhraseEntries) (hfit : es.Fit) (hsplit : es.Split) {t : SymbolTable}
    (h : es.Resolve c t) :
    Succeeds (entries c (EntryOutline.listOfTokens c.names endPos es.tokens)) t (es.after t) := by
  cases es with
  | none =>
    rw [PhraseEntries.tokens, EntryOutline.listOfTokens, entries]
    exact .pure _ _
  | semicolon m rest =>
    rw [PhraseEntries.tokens, EntryOutline.listOfTokens]
    exact PhraseEntries.succeeds rest hfit hsplit h
  | more entry semicolon rest =>
    obtain ⟨item, houtline, hentry⟩ := PhraseEntry.succeeds entry hfit.1 hsplit.1 h.1
    rw [PhraseEntries.tokens, houtline rfl, entries]
    refine hentry.bind fun _ => ?_
    exact (PhraseEntries.succeeds rest hfit.2 hsplit.2 h.2).bind fun _ => .pure _ _

/-- An entry ends at its semicolon, and is read if its names are in scope. -/
theorem PhraseEntry.succeeds (e : PhraseEntry) (hfits : e.Fits) (hsplits : e.Splits) {t : SymbolTable}
    (h : e.Resolves c t) :
    ∃ item, (∀ {semicolon : Token} {rest : List Token}, semicolon.kind = .symbol .semicolon →
        EntryOutline.listOfTokens c.names endPos (e.tokens ++ semicolon :: rest) =
          item :: EntryOutline.listOfTokens c.names endPos rest) ∧
      Succeeds (entry c item) t (e.after t) := by
  cases e with
  | operator op m value =>
    refine ⟨.operator op (Outline.ofTokens c.names endPos value.tokens) none m.pos, fun hsemicolon => ?_, ?_⟩
    · exact EntryOutline.listOfTokens_plain c.names endPos rfl (value.nested_tokens hfits) hsemicolon
    · rw [entry]
      exact (Phrase.succeeds value hfits hsplits h).bind fun _ => .pure _ _
  | guarded op m value question guard =>
    refine ⟨.operator op (Outline.ofTokens c.names endPos value.tokens)
      (some (Outline.ofTokens c.names endPos guard.tokens)) m.pos, fun hsemicolon => ?_, ?_⟩
    · rw [PhraseEntry.tokens, List.cons_append, List.append_assoc, List.cons_append]
      exact EntryOutline.listOfTokens_guarded c.names endPos rfl (value.nested_tokens hfits.1)
        (guard.nested_tokens hfits.2) rfl hsemicolon
    · rw [entry]
      refine (Phrase.succeeds value hfits.1 hsplits.1 h.1).bind fun _ => ?_
      exact (Phrase.succeeds guard hfits.2 hsplits.2 h.2).bind fun _ => .pure _ _
  | closure opening name m paramTokens params closing body =>
    obtain ⟨hparams, hbody⟩ := hfits
    obtain ⟨hnew, hnodup, hresolves⟩ := h
    have hseen : (([] ++ params).map Param.name).Nodup := hnodup
    have hread := hparams.readParams_eq c.names endPos body.tokens hseen
      (Mark.kind_token closing (.symbol (.right .square)))
    have hdefined := FunctionOutline.ofTokens_defined c.names endPos (Mark.kind_token opening (.symbol (.left .square)))
      (Mark.kind_token m (.ident name)) hread body.tokens_ne_nil
    refine ⟨.closure (.defined ⟨name, m.pos, params, opening.pos⟩ (Outline.ofTokens c.names endPos body.tokens))
      opening.pos, fun {_ rest} hsemicolon => ?_, ?_⟩
    · have hnested := PhraseEntry.nested_closure opening name m closing hparams (body.nested_tokens hbody)
      have houtline := EntryOutline.listOfTokens_square c.names endPos rest rfl hnested hsemicolon
      rw [hdefined] at houtline
      exact houtline
    · rw [entry]
      exact (Succeeds.function hnew (Phrase.succeeds body hbody hsplits hresolves)).bind fun _ => .pure _ _

end

/-- How a conditional is read. Where its condition is no conditional, its parts are read one after the other, each as it
is read by itself; where its condition is one, it is refused for want of a colon, whatever its names are. If no condition
in it, at any depth, is a conditional, and its names are in scope, its reading succeeds, and the tree consists of the
trees of its parts. -/
theorem Phrase.expr_conditional (keyword : Mark) (condition : Phrase) (colon : Mark) (thenBranch : Phrase) (other : Mark)
    (elseBranch : Phrase) (hfits : (Phrase.conditional keyword condition colon thenBranch other elseBranch).Fits) :
    let whole := Phrase.conditional keyword condition colon thenBranch other elseBranch
    let read (p : Phrase) := expr c (Outline.ofTokens c.names endPos p.tokens)
    (condition.isConditional = false → read whole = do
      let first ← read condition
      let second ← read thenBranch
      let third ← read elseBranch
      return .conditional first second third keyword.pos) ∧
    (condition.isConditional = true → ∀ s : State,
      (read whole).run s = (.error (.refused (.located endPos .expectedColon)), s)) ∧
    (whole.Splits → ∀ s : State, whole.Resolves c s.table →
      ∃ first second third s₁ s₂ s₃, (read condition).run s = (.ok first, s₁) ∧
        (read thenBranch).run s₁ = (.ok second, s₂) ∧ (read elseBranch).run s₂ = (.ok third, s₃) ∧
        (read whole).run s = (.ok (.conditional first second third keyword.pos), s₃)) := by
  intro whole read
  have hparts : condition.isConditional = false → read whole = do
      let first ← read condition
      let second ← read thenBranch
      let third ← read elseBranch
      return .conditional first second third keyword.pos := by
    intro hplain
    have houtline := Phrase.ofTokens_conditional c.names endPos hfits hplain
    exact (congrArg (expr c) houtline).trans (expr.eq_1 c _ _ _ _)
  refine ⟨hparts, fun hconditional s => ?_, fun hsplits s hresolves => ?_⟩
  · obtain ⟨first, second, pos, houtline⟩ := Phrase.exists_ofTokens_conditional c.names endPos hfits hconditional
    have hrefused : read whole = expr c (.conditional (.flawed (.located endPos .expectedColon)) first second pos) :=
      congrArg (expr c) houtline
    rw [hrefused, expr, expr]
    rfl
  · obtain ⟨hplain, hcondition, hthen, helse⟩ := hsplits
    obtain ⟨hcondition', hthen', helse'⟩ := hresolves
    obtain ⟨first, s₁, hfirst, h₁⟩ := condition.succeeds c endPos hfits.1 hcondition hcondition' s rfl
    obtain ⟨second, s₂, hsecond, h₂⟩ := thenBranch.succeeds c endPos hfits.2.1 hthen hthen' s₁ h₁
    obtain ⟨third, s₃, hthird, -⟩ := elseBranch.succeeds c endPos hfits.2.2 helse helse' s₂ h₂
    refine ⟨first, second, third, s₁, s₂, s₃, hfirst, hsecond, hthird, ?_⟩
    rw [hparts hplain]
    exact run_bind_eq hfirst (run_bind_eq hsecond (run_bind_eq hthird rfl))

end Reading

namespace Phrase

/-- A conditional with a block, a function and a guard in its condition, and conditionals in both of its branches. -/
def branching : Source :=
  .ofString "branching"
    "if \x7b [k y = -2] y * x; + k(x) ? x; \x7d : if x : x else 1 else if 1 : x else \x7b * x; \x7d"

/-- The tokens of `branching`. -/
def branchingTokens : List Token :=
  (Lexer.run branching {} {}).tokens

/-- What a token of `branching` shows of itself besides its kind. -/
def branchingMark (i : Nat) : Mark :=
  (branchingTokens.getD i default).mark

/-- The condition of `branching`. -/
def branchingCondition : Phrase :=
  let m := branchingMark
  .block (m 1)
    (.more (.closure (m 2) 0 (m 3) [(m 4).token (.ident 1), (m 5).token (.symbol .equals),
          (m 6).token (.operator .sub), (m 7).token (.const (Number.ofConstant ['2']))]
        [⟨1, some (-Number.ofConstant ['2']), (m 4).pos⟩] (m 8)
        (.arithmetic (.binary .mul (.name 1 (m 9)) (m 10) (.name 2 (m 11))))) (m 12)
      (.more (.guarded .add (m 13) (.arithmetic (.call 0 (m 14) (m 15) (.last (.positional (.name 2 (m 16)))) (m 17)))
        (m 18) (.arithmetic (.name 2 (m 19)))) (m 20) .none))
    (m 21)

/-- The first branch of `branching`. -/
def branchingThen : Phrase :=
  let m := branchingMark
  .conditional (m 23) (.arithmetic (.name 2 (m 24))) (m 25) (.arithmetic (.name 2 (m 26))) (m 27)
    (.arithmetic (.const (Number.ofConstant ['1']) (m 28)))

/-- The second branch of `branching`. -/
def branchingElse : Phrase :=
  let m := branchingMark
  .conditional (m 30) (.arithmetic (.const (Number.ofConstant ['1']) (m 31))) (m 32) (.arithmetic (.name 2 (m 33)))
    (m 34) (.block (m 35) (.more (.operator .mul (m 36) (.arithmetic (.name 2 (m 37)))) (m 38) .none) (m 39))

theorem expr_conditional_branching :
    let c : Context := { names := (Lexer.run branching {} {}).names }
    let s : State := ⟨.declare {} 2 .start 0 (some .number) false, {}⟩
    let whole := Phrase.conditional (branchingMark 0) branchingCondition (branchingMark 22) branchingThen
      (branchingMark 29) branchingElse
    whole.tokens = branchingTokens ∧ whole.Fits ∧ whole.Splits ∧ whole.Resolves c s.table ∧
      ∃ first second third s', (expr c (Outline.ofTokens c.names .start branchingTokens)).run s =
        (.ok (.conditional first second third (branchingMark 0).pos), s') := by
  intro c s whole
  have htokens : whole.tokens = branchingTokens := by decide +kernel
  have hfits : whole.Fits := by
    have hproduct :
        (Infix.binary .mul (.name 1 (branchingMark 9)) (branchingMark 10) (.name 2 (branchingMark 11))).Fits 0 :=
      ⟨4, rfl, Nat.zero_le _, trivial, trivial⟩
    have hcondition : branchingCondition.Fits :=
      ⟨⟨.last (.negative rfl rfl rfl rfl), hproduct⟩, ⟨trivial, trivial⟩, trivial⟩
    exact ⟨hcondition, ⟨trivial, trivial, trivial⟩, trivial, trivial, trivial, trivial⟩
  have hsplits : whole.Splits := by
    have hcondition : branchingCondition.Splits := ⟨trivial, ⟨trivial, trivial⟩, trivial⟩
    exact ⟨rfl, hcondition, ⟨rfl, trivial, trivial, trivial⟩, rfl, trivial, trivial, trivial, trivial⟩
  have hresolves : whole.Resolves c s.table := by
    simp only [whole, branchingCondition, branchingThen, branchingElse, Resolves, PhraseEntries.Resolve,
      PhraseEntry.Resolves, Infix.Resolves, InfixArguments.Resolve, InfixArgument.Resolves]
    decide +kernel
  obtain ⟨-, -, hread⟩ := expr_conditional c .start (branchingMark 0) branchingCondition (branchingMark 22)
    branchingThen (branchingMark 29) branchingElse hfits
  obtain ⟨first, second, third, _, _, s', -, -, -, hrun⟩ := hread hsplits s hresolves
  refine ⟨htokens, hfits, hsplits, hresolves, first, second, third, s', ?_⟩
  rw [← htokens]
  exact hrun

/-- The conditional `if if 1 : 2 else 3 : 4 else 5`. -/
def stacked : Phrase :=
  let m : Mark := ⟨.start, ""⟩
  let number (v : Number) : Phrase := .arithmetic (.const v m)
  .conditional m (.conditional m (number 1) m (number 2) m (number 3)) m (number 4) m (number 5)

/-- A conditional of the grammar that is not read, though each of its parts is. -/
theorem exists_conditional_not_read :
    ∃ (keyword colon other : Mark) (condition thenBranch elseBranch : Phrase) (c : Context) (s : State),
      stacked = .conditional keyword condition colon thenBranch other elseBranch ∧ stacked.Fits ∧
      stacked.Resolves c s.table ∧
      (∀ p ∈ [condition, thenBranch, elseBranch], ∃ e s',
        (expr c (Outline.ofTokens c.names .start p.tokens)).run s = (.ok e, s')) ∧
      ∀ e s', (expr c (Outline.ofTokens c.names .start stacked.tokens)).run s ≠ (.ok e, s') := by
  have hfits : stacked.Fits := ⟨⟨trivial, trivial, trivial⟩, trivial, trivial⟩
  have hresolves : stacked.Resolves {names := {}} {} := ⟨⟨trivial, trivial, trivial⟩, trivial, trivial⟩
  refine ⟨_, _, _, _, _, _, {names := {}}, ⟨{}, {}⟩, rfl, hfits, hresolves, ?_, fun e s' h => ?_⟩
  · intro p hp
    have hsplits : p.Splits ∧ p.Fits ∧ p.Resolves {names := {}} {} := by
      simp only [List.mem_cons, List.not_mem_nil, or_false] at hp
      rcases hp with rfl | rfl | rfl
      · exact ⟨⟨rfl, trivial, trivial, trivial⟩, hfits.1, hresolves.1⟩
      · exact ⟨trivial, hfits.2.1, hresolves.2.1⟩
      · exact ⟨trivial, hfits.2.2, hresolves.2.2⟩
    obtain ⟨e, s', hrun, -⟩ := p.succeeds {names := {}} .start hsplits.2.1 hsplits.1 hsplits.2.2 ⟨{}, {}⟩ rfl
    exact ⟨e, s', hrun⟩
  · obtain ⟨first, second, pos, houtline⟩ := exists_ofTokens_conditional {} .start hfits rfl
    rw [stacked, houtline, expr, expr] at h
    cases h

end Phrase

end ToneScript
