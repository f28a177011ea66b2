import Mathlib.Data.List.Forall2
import ToneScript.Proofs.Outline.Cuts
import ToneScript.Proofs.Rendering.Nesting

/-! Spans of items. Tokens that are put together from spans of balanced brackets are cut into exactly these spans,
whatever is wrong with what stands inside the brackets. -/
namespace ToneScript

/-- A token that is the given symbol. -/
structure SymbolToken (s : Symbol) where
  token : Token
  kind : token.kind = .symbol s

/-- A pair of brackets with balanced tokens inside. -/
structure Enclosed (b : Bracket) where
  opening : SymbolToken (.left b)
  inner : List Token
  closing : SymbolToken (.right b)
  balanced : Span.Balanced inner

/-- The body of a definition that is not in braces: balanced tokens without a symbol that would end it outside
brackets. -/
structure ExpressionBody where
  tokens : List Token
  notCurly : tokens.head?.any (·.isSymbol (.left .curly)) = false
  nested : Nested [.semicolon, .left .square] (tokens.map Token.kind)

/-- The name and the value of an assignment: balanced tokens without a semicolon outside brackets. -/
structure Assigned where
  name : Token
  id : Ident
  equals : SymbolToken .equals
  value : List Token
  kind : name.kind = .ident id
  nested : Nested [.semicolon] (value.map Token.kind)

/-- The tokens of one item of a source. Nothing is asked of what stands inside brackets but that these match. -/
inductive ItemSpan where
  /-- A definition whose body is in braces. A semicolon may follow. -/
  | block (header : Enclosed .square) (body : Enclosed .curly) (semicolon? : Option (SymbolToken .semicolon))
  | expression (header : Enclosed .square) (body : ExpressionBody) (semicolon : SymbolToken .semicolon)
  | assignment (assigned : Assigned) (semicolon : SymbolToken .semicolon)
  /-- A semicolon that belongs to no item. -/
  | stray (semicolon : SymbolToken .semicolon)

namespace SymbolToken

variable {s : Symbol} (t : SymbolToken s)

@[simp] theorem isSymbol_self : t.token.isSymbol s = true := by
  rw [Token.isSymbol, t.kind, beq_self_eq_true]

theorem isSymbol_other {s' : Symbol} (h : s ≠ s') : t.token.isSymbol s' = false := by
  simpa [Token.isSymbol, t.kind] using h

end SymbolToken

namespace Enclosed

variable {b : Bracket} (e : Enclosed b)

def tokens : List Token :=
  e.opening.token :: (e.inner ++ [e.closing.token])

theorem matching?_append (rest : List Token) : Span.matching? (e.tokens ++ rest) = some (e.inner.length + 1) := by
  have hpair := Span.matching?_pair e.opening.token e.closing.token e.opening.kind e.closing.kind e.balanced rest
  simpa [tokens] using hpair

theorem length_tokens : e.tokens.length = e.inner.length + 2 := by
  simp [tokens]

end Enclosed

namespace ItemSpan

/-- The tokens that an item is read from, which are all but the semicolon after it. -/
def own : ItemSpan → List Token
  | block header body _ => header.tokens ++ body.tokens
  | expression header body _ => header.tokens ++ body.tokens
  | assignment assigned _ => assigned.name :: assigned.equals.token :: assigned.value
  | stray _ => []

/-- The semicolon of a span. -/
def semicolon? : ItemSpan → Option (SymbolToken .semicolon)
  | block _ _ semicolon? => semicolon?
  | expression _ _ semicolon | assignment _ semicolon | stray semicolon => some semicolon

/-- All tokens of a span. -/
def tokens (span : ItemSpan) : List Token :=
  span.own ++ (span.semicolon?.map SymbolToken.token).toList

variable (names : NameTable) (endPos : Position)

/-- What the tokens of an item are by themselves. -/
def outline? (span : ItemSpan) : Option ItemOutline :=
  match span with
  | block header .. | expression header .. =>
    some (.function (FunctionOutline.ofTokens names endPos span.own) none header.opening.token.pos)
  | assignment assigned _ =>
    let last := span.own.getLastD assigned.name
    some (.assignment assigned.id (Outline.ofTokens names endPos assigned.value)
      (last.pos.index + last.lexeme.length.toUInt64) assigned.name.pos)
  | stray _ => none

end ItemSpan

/-- Two outlines that read the same: whether a semicolon is missing is not asked after a definition that cannot be
read. -/
inductive ItemOutline.Same : ItemOutline → ItemOutline → Prop where
  | refl (o : ItemOutline) : Same o o
  | flawed (e : SyntaxError) (unended? : Option Position) (pos : Position) :
      Same (.function (.flawed e) unended? pos) (.function (.flawed e) none pos)

section

variable (names : NameTable) (endPos : Position) (header : Enclosed .square) (rest : List Token)

/-- A header that can be read ends at the bracket that closes the first. -/
theorem readHeader_balanced {h : FunctionHeader} {n : Nat}
    (hread : readHeader names endPos header.opening.token.pos (header.inner ++ header.closing.token :: rest) =
      .ok (h, n)) :
    n = header.inner.length + 1 := by
  obtain ⟨name, paramTokens, closing, rest', heq, rfl, hname, _, _, hclosing, hparams⟩ :=
    readHeader_derived names endPos hread
  have hinner : Span.Balanced (name :: paramTokens) :=
    .plain (by rw [Token.isLeft, hname]) (by rw [Token.isRight, hname])
      (hparams.balanced fun _ _ => Param.Derived.balanced)
  have hmatch := Span.matching?_pair header.opening.token header.closing.token header.opening.kind
    header.closing.kind header.balanced rest
  rw [heq, ← List.cons_append, Span.matching?_pair _ _ header.opening.kind hclosing hinner] at hmatch
  simpa using hmatch

/-- A definition whose body is in braces is flawed from the start, or has a block. -/
theorem FunctionOutline.ofTokens_block (body : Enclosed .curly) :
    (∃ e, ofTokens names endPos (header.tokens ++ body.tokens) = .flawed e) ∨
      (ofTokens names endPos (header.tokens ++ body.tokens)).hasBlock = true := by
  have hsplit : header.tokens ++ body.tokens =
      header.opening.token :: (header.inner ++ header.closing.token :: body.tokens) := by
    simp [Enclosed.tokens]
  rw [hsplit, ofTokens, if_pos header.opening.isSymbol_self]
  cases hread : readHeader names endPos header.opening.token.pos
      (header.inner ++ header.closing.token :: body.tokens) with
  | error e => exact .inl ⟨e, rfl⟩
  | ok result =>
    obtain ⟨h, n⟩ := result
    have hdrop : (header.inner ++ header.closing.token :: body.tokens).drop n = body.tokens := by
      rw [readHeader_balanced names endPos header body.tokens hread, List.drop_append]
      simp
    have hne : body.tokens ≠ [] := List.cons_ne_nil _ _
    have hcurly : body.tokens.head?.any (·.isSymbol (.left .curly)) = true := body.opening.isSymbol_self
    simp only [hdrop, hne, if_false]
    exact .inr (Outline.isBlock_ofTokens names endPos hcurly)

/-- What the search for the end of a definition sees after its header. -/
theorem Enclosed.drop_closing : (header.inner ++ header.closing.token :: rest).drop (header.inner.length + 1) = rest := by
  rw [List.drop_append]
  simp

/-- How many tokens a definition takes whose body is in braces. -/
theorem functionLength_block (body : Enclosed .curly) :
    functionLength header.opening.token (header.inner ++ header.closing.token :: (body.tokens ++ rest)) + 1 =
      (header.tokens ++ body.tokens).length := by
  have hcurly : (body.tokens ++ rest).head?.any (·.isSymbol (.left .curly)) = true := body.opening.isSymbol_self
  rw [functionLength, Span.matching?_pair _ _ header.opening.kind header.closing.kind header.balanced]
  simp only [header.drop_closing, hcurly, if_true, body.matching?_append]
  rw [List.length_append, header.length_tokens, body.length_tokens]
  omega

/-- How many tokens a definition takes whose body ends with a semicolon. -/
theorem functionLength_expression (body : ExpressionBody) (semicolon : SymbolToken .semicolon) :
    functionLength header.opening.token
        (header.inner ++ header.closing.token :: (body.tokens ++ semicolon.token :: rest)) + 1 =
      (header.tokens ++ body.tokens).length := by
  have hnot : (body.tokens ++ semicolon.token :: rest).head?.any (·.isSymbol (.left .curly)) = false := by
    obtain ⟨ts, hcurly, hnested⟩ := body
    cases ts with
    | nil => exact semicolon.isSymbol_other (by decide)
    | cons t ts => exact hcurly
  have hfind : Span.findFrom? endsBody 0 (body.tokens ++ semicolon.token :: rest) = some body.tokens.length := by
    have hmarks : ∀ t, endsBody t = true → ∃ s ∈ [Symbol.semicolon, .left .square], t.kind = .symbol s := fun t ht => by
      simpa [endsBody, Token.isSymbol] using ht
    rw [body.nested.findFrom?_append hmarks, Span.findFrom?, endsBody, semicolon.isSymbol_self]
    simp
  rw [functionLength, Span.matching?_pair _ _ header.opening.kind header.closing.kind header.balanced]
  simp only [header.drop_closing, hnot, hfind, Bool.false_eq_true, if_false, Option.getD_some]
  rw [List.length_append, header.length_tokens]
  omega

end

namespace ItemOutline

variable (names : NameTable) (endPos : Position) (rest : List Token)

theorem listOfTokens_semicolon_cons (semicolon : SymbolToken .semicolon) :
    listOfTokens names endPos (semicolon.token :: rest) = listOfTokens names endPos rest := by
  rw [listOfTokens, if_pos semicolon.isSymbol_self]

/-- Whether the semicolon after an item is skipped with it makes no difference. -/
theorem listOfTokens_drop (ts : List Token) :
    listOfTokens names endPos
        ((ts ++ rest).drop (if rest.head?.any (·.isSymbol .semicolon) then ts.length + 1 else ts.length)) =
      listOfTokens names endPos rest := by
  cases rest with
  | nil => simp
  | cons t rest =>
    cases ht : t.isSymbol .semicolon with
    | false => simp [ht]
    | true =>
      have hafter : (ts ++ t :: rest).drop (ts.length + 1) = rest := by
        rw [List.drop_append]
        simp
      rw [listOfTokens_semicolon_cons names endPos rest ⟨t, of_decide_eq_true ht⟩, List.head?_cons, Option.any_some,
        ht, if_pos rfl, hafter]

/-- A definition whose length is found right is cut out of the tokens. -/
theorem listOfTokens_definition (header : Enclosed .square) (body : List Token)
    (hlength : functionLength header.opening.token (header.inner ++ header.closing.token :: (body ++ rest)) + 1 =
      (header.tokens ++ body).length)
    (hended : (∃ e, FunctionOutline.ofTokens names endPos (header.tokens ++ body) = .flawed e) ∨
      (FunctionOutline.ofTokens names endPos (header.tokens ++ body)).hasBlock = true ∨
      rest.head?.any (·.isSymbol (.left .square)) = false) :
    ∃ o, Same o (.function (FunctionOutline.ofTokens names endPos (header.tokens ++ body)) none
        header.opening.token.pos) ∧
      listOfTokens names endPos (header.tokens ++ body ++ rest) = o :: listOfTokens names endPos rest := by
  obtain ⟨ts, hts⟩ : ∃ ts, header.tokens ++ body = header.opening.token :: ts := ⟨_, rfl⟩
  have hlength : functionLength header.opening.token (ts ++ rest) = ts.length := by
    have hsplit : header.inner ++ header.closing.token :: (body ++ rest) = ts ++ rest := by
      have heq := congrArg (· ++ rest) hts
      simpa [Enclosed.tokens] using heq
    rw [hsplit, hts, List.length_cons] at hlength
    exact Nat.succ_inj.1 hlength
  have hnot : header.opening.token.isSymbol .semicolon = false := header.opening.isSymbol_other (by decide)
  rw [hts] at hended ⊢
  rw [List.cons_append, listOfTokens]
  simp only [hnot, Bool.false_eq_true, if_false, header.opening.isSymbol_self, if_true, hlength, List.take_left,
    List.drop_left, listOfTokens_drop names endPos rest ts]
  refine ⟨_, ?_, rfl⟩
  rcases hended with ⟨e, hflawed⟩ | hblock | hnext
  · rw [hflawed]
    exact .flawed e _ _
  · rw [if_pos hblock]
    exact .refl _
  · have hnone : rest.head?.filter (·.isSymbol (.left .square)) = none := by
      cases rest with
      | nil => rfl
      | cons t rest => exact Option.filter_eq_none_iff.2 fun u hu => by cases hu; simpa using hnext
    rw [hnone, Option.map_none, ite_self]
    exact .refl _

/-- An assignment is cut out of the tokens up to its semicolon. -/
theorem listOfTokens_assigned (assigned : Assigned) (semicolon : SymbolToken .semicolon) :
    listOfTokens names endPos ((ItemSpan.assignment assigned semicolon).own ++ semicolon.token :: rest) =
      ((ItemSpan.assignment assigned semicolon).outline? names endPos).toList ++ listOfTokens names endPos rest := by
  obtain ⟨name, id, equals, value, hname, hvalue⟩ := assigned
  have hnested : Nested [.semicolon] ((name :: equals.token :: value).map Token.kind) := by
    rw [List.map_cons, List.map_cons, hname, equals.kind]
    exact .word (.symbol hvalue rfl (by decide)) rfl
  have hfind : Span.find? .semicolon (name :: equals.token :: (value ++ semicolon.token :: rest)) =
      some (value.length + 2) := by
    have happend := hnested.find?_append (s := .semicolon) (by decide) (semicolon.token :: rest)
    rw [Span.find?_self semicolon.kind] at happend
    simpa using happend
  have hnot : name.isSymbol .semicolon = false ∧ name.isSymbol (.left .square) = false := by
    simp [Token.isSymbol, hname]
  have hdrop : (equals.token :: (value ++ semicolon.token :: rest)).drop (value.length + 2) = rest := by
    rw [List.drop_succ_cons, List.drop_append]
    simp
  rw [ItemSpan.own, List.cons_append, List.cons_append, listOfTokens]
  simp only [hnot, Bool.false_eq_true, if_false, hfind, hname, List.head?_cons, Option.any_some, equals.isSymbol_self,
    hdrop, List.take_succ_cons, List.take_left, List.drop_succ_cons, List.drop_zero]
  rfl

/-- A span in front of other tokens is read as if it were alone. -/
theorem listOfTokens_span (span : ItemSpan) :
    ∃ outlines, List.Forall₂ Same outlines (span.outline? names endPos).toList ∧
      listOfTokens names endPos (span.tokens ++ rest) = outlines ++ listOfTokens names endPos rest := by
  cases span with
  | block header body semicolon? =>
    have hskip : listOfTokens names endPos ((semicolon?.map SymbolToken.token).toList ++ rest) =
        listOfTokens names endPos rest := by
      cases semicolon? with
      | none => rfl
      | some semicolon => exact listOfTokens_semicolon_cons names endPos rest semicolon
    have hended := FunctionOutline.ofTokens_block names endPos header body
    obtain ⟨o, hsame, hcut⟩ := listOfTokens_definition names endPos _ header body.tokens
      (functionLength_block header _ body) (hended.imp_right .inl)
    rw [hskip, List.append_assoc] at hcut
    refine ⟨[o], .cons hsame .nil, ?_⟩
    rw [ItemSpan.tokens, List.append_assoc, ItemSpan.own, List.append_assoc]
    exact hcut
  | expression header body semicolon =>
    obtain ⟨o, hsame, hcut⟩ := listOfTokens_definition names endPos (semicolon.token :: rest) header body.tokens
      (functionLength_expression header rest body semicolon)
      (.inr (.inr (semicolon.isSymbol_other (by decide))))
    rw [listOfTokens_semicolon_cons] at hcut
    refine ⟨[o], .cons hsame .nil, ?_⟩
    rw [ItemSpan.tokens, List.append_assoc]
    exact hcut
  | assignment assigned semicolon =>
    refine ⟨_, List.forall₂_same.2 fun o _ => .refl o, ?_⟩
    rw [← listOfTokens_assigned, ItemSpan.tokens, List.append_assoc]
    rfl
  | stray semicolon =>
    exact ⟨[], .nil, listOfTokens_semicolon_cons names endPos rest semicolon⟩

/-- Items that are put one after another are cut apart where they were put together. -/
theorem listOfTokens_spans (spans : List ItemSpan) :
    List.Forall₂ Same (listOfTokens names endPos (spans.flatMap ItemSpan.tokens))
      (spans.flatMap fun span => (span.outline? names endPos).toList) := by
  induction spans with
  | nil =>
    rw [List.flatMap_nil, listOfTokens]
    exact .nil
  | cons span spans ih =>
    obtain ⟨outlines, hsame, hcut⟩ := listOfTokens_span names endPos (spans.flatMap ItemSpan.tokens) span
    rw [List.flatMap_cons, List.flatMap_cons, hcut]
    exact List.rel_append hsame ih

end ItemOutline
end ToneScript
