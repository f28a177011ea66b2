import ToneScript.Proofs.Rendering.Shape
import ToneScript.Proofs.Text.Brackets

/-! Brackets and separators of a written program. The scans that cut a program into its parts pass over each part
whole, since the symbols that they stop at are in brackets there. -/
namespace ToneScript

/-- The symbol of a kind. -/
def Token.Kind.symbol? : Token.Kind → Option Symbol
  | .symbol s => some s
  | _ => none

/-- Whether a kind is that of a bracket. -/
def Token.Kind.isBracket (kind : Token.Kind) : Bool :=
  (kind.symbol?.bind Symbol.bracket?).isSome

theorem Token.Kind.isBracket_symbol {s : Symbol} (h : s.bracket? = none) : (symbol s).isBracket = false := by
  rw [isBracket, symbol?, Option.bind_some, h]
  rfl

theorem Token.isLeft_isRight {t : Token} (h : t.kind.isBracket = false) :
    t.isLeft = false ∧ t.isRight = false := by
  obtain ⟨kind, pos, lexeme⟩ := t
  cases kind with
  | symbol s => cases s <;> first | exact ⟨rfl, rfl⟩ | cases h
  | ident | const | operator | eof => exact ⟨rfl, rfl⟩

/-! ### Searches -/

theorem Span.find?_self {t : Token} {s : Symbol} (h : t.kind = .symbol s) (ts : List Token) :
    find? s (t :: ts) = some 0 := by
  have ht : t.isSymbol s = true := by rw [Token.isSymbol, h, beq_self_eq_true]
  rw [find?, findFrom?, ht]
  rfl

theorem Span.find?_other {t : Token} {s s' : Symbol} (h : t.kind = .symbol s') (hbracket : s'.bracket? = none)
    (hs : s' ≠ s) (ts : List Token) : find? s (t :: ts) = (find? s ts).map (· + 1) := by
  obtain ⟨hleft, hright⟩ := Token.isLeft_isRight (h ▸ Token.Kind.isBracket_symbol hbracket)
  exact findFrom?_plain (by simp [Token.isSymbol, h, hs]) hleft hright ts

theorem findElse?_plain {t : Token} (hleft : t.isLeft = false) (hif : t.isSymbol .kwIf = false)
    (helse : t.isSymbol .kwElse = false) (nesting : Nat) (ts : List Token) :
    findElse? nesting (t :: ts) = (findElse? nesting ts).map (· + 1) := by
  rw [findElse?.eq_def]
  simp only [hleft, hif, helse, Bool.false_eq_true, if_false]

theorem findElse?_if {t : Token} (h : t.kind = .symbol .kwIf) (nesting : Nat) (ts : List Token) :
    findElse? nesting (t :: ts) = (findElse? (nesting + 1) ts).map (· + 1) := by
  obtain ⟨_, pos, lexeme⟩ := t
  cases h
  rw [findElse?.eq_def]
  rfl

theorem findElse?_else_zero {t : Token} (h : t.kind = .symbol .kwElse) (ts : List Token) :
    findElse? 0 (t :: ts) = some 0 := by
  obtain ⟨_, pos, lexeme⟩ := t
  cases h
  rw [findElse?.eq_def]
  rfl

theorem findElse?_else {t : Token} (h : t.kind = .symbol .kwElse) (nesting : Nat) (ts : List Token) :
    findElse? (nesting + 1) (t :: ts) = (findElse? nesting ts).map (· + 1) := by
  obtain ⟨_, pos, lexeme⟩ := t
  cases h
  rw [findElse?.eq_def]
  rfl

theorem findElse?_pair {b : Bracket} {opening closing : Token} {inner : List Token}
    (hopening : opening.kind = .symbol (.left b)) (hclosing : closing.kind = .symbol (.right b))
    (h : Span.Balanced inner) (nesting : Nat) (ts : List Token) :
    findElse? nesting (opening :: (inner ++ closing :: ts)) =
      (findElse? nesting ts).map (· + (inner.length + 2)) := by
  have hleft : opening.isLeft = true := by
    rw [Token.isLeft, hopening]
    rfl
  have hdrop : (inner ++ closing :: ts).drop (inner.length + 1) = ts := by
    rw [List.drop_append]
    simp
  rw [findElse?.eq_def]
  simp only [hleft, if_true, Span.matching?_pair opening closing hopening hclosing h, hdrop]
  rfl

/-! ### Kinds in brackets -/

/-- Lists of kinds whose brackets match, where some symbols are in brackets only. -/
inductive Nested : List Symbol → List Token.Kind → Prop where
  | nil {avoid : List Symbol} : Nested avoid []
  | plain {avoid : List Symbol} {kind : Token.Kind} {kinds : List Token.Kind}
      (hbracket : kind.isBracket = false)
      (hkind : ∀ s ∈ avoid, kind ≠ .symbol s) (rest : Nested avoid kinds) : Nested avoid (kind :: kinds)
  | pair {avoid : List Symbol} {b : Bracket} {inner kinds : List Token.Kind} (hleft : .left b ∉ avoid)
      (inside : Nested [] inner) (rest : Nested avoid kinds) :
      Nested avoid (.symbol (.left b) :: (inner ++ .symbol (.right b) :: kinds))

namespace Nested

variable {avoid avoid' : List Symbol} {kinds kinds' : List Token.Kind}

theorem append (h : Nested avoid kinds) (h' : Nested avoid kinds') : Nested avoid (kinds ++ kinds') := by
  induction h with
  | nil => exact h'
  | plain hbracket hkind _ ih => exact .plain hbracket hkind (ih h')
  | pair hleft hinside _ _ ih =>
    rw [List.cons_append, List.append_assoc]
    exact .pair hleft hinside (ih h')

theorem mono (h : Nested avoid kinds) (hsubset : avoid' ⊆ avoid) : Nested avoid' kinds := by
  induction h with
  | nil => exact .nil
  | plain hbracket hkind _ ih => exact .plain hbracket (fun s hs => hkind s (hsubset hs)) (ih hsubset)
  | pair hleft hinside _ _ ih => exact .pair (fun hmem => hleft (hsubset hmem)) hinside (ih hsubset)

/-- Something that is no symbol may stand anywhere. -/
theorem word {kind : Token.Kind} (h : Nested avoid kinds) (hkind : kind.symbol? = none) :
    Nested avoid (kind :: kinds) := by
  cases kind with
  | symbol s => cases hkind
  | ident | const | operator | eof => exact .plain rfl (fun _ _ heq => by cases heq) h

theorem symbol {s : Symbol} (h : Nested avoid kinds) (hbracket : s.bracket? = none) (hs : s ∉ avoid) :
    Nested avoid (.symbol s :: kinds) := by
  refine .plain (Token.Kind.isBracket_symbol hbracket) (fun s' hs' heq => ?_) h
  cases heq
  exact hs hs'

/-- A pair of brackets by itself. -/
theorem enclosed {b : Bracket} (h : Nested [] kinds) (hleft : .left b ∉ avoid) :
    Nested avoid (.symbol (.left b) :: (kinds ++ [.symbol (.right b)])) :=
  .pair hleft h .nil

theorem parenthesized (h : Nested avoid kinds) (needed : Bool) (hleft : .left .round ∉ avoid) :
    Nested avoid (parenthesized needed kinds) := by
  cases needed with
  | true => exact (h.mono (List.nil_subset _)).enclosed hleft
  | false => exact h

theorem separated {lists : List (List Token.Kind)} (h : ∀ kinds ∈ lists, Nested [] kinds) :
    Nested [] (separated lists) := by
  induction lists with
  | nil => exact .nil
  | cons kinds lists ih =>
    obtain ⟨hfirst, hrest⟩ := List.forall_mem_cons.1 h
    cases lists with
    | nil => simpa [ToneScript.separated] using hfirst
    | cons kinds' lists =>
      rw [ToneScript.separated, List.intercalate_cons_cons, List.append_assoc]
      exact hfirst.append (.symbol (ih hrest) rfl List.not_mem_nil)

/-! ### Scans -/

variable {ts : List Token}

theorem balanced (h : Nested avoid (ts.map Token.kind)) : Span.Balanced ts := by
  generalize hkinds : ts.map Token.kind = kinds at h
  induction h generalizing ts with
  | nil =>
    rw [List.map_eq_nil_iff.1 hkinds]
    exact .nil
  | plain hbracket _ _ ih =>
    obtain ⟨t, ts, rfl, rfl, hts⟩ := List.map_eq_cons_iff.1 hkinds
    obtain ⟨hleft, hright⟩ := Token.isLeft_isRight hbracket
    exact .plain hleft hright (ih hts)
  | pair _ _ _ ihinner ih =>
    obtain ⟨opening, us, rfl, hopening, hus⟩ := List.map_eq_cons_iff.1 hkinds
    obtain ⟨inner, vs, rfl, hinner, hvs⟩ := List.map_eq_append_iff.1 hus
    obtain ⟨closing, ts, rfl, hclosing, hts⟩ := List.map_eq_cons_iff.1 hvs
    exact .pair hopening hclosing (ihinner hinner) (ih hts)

/-- A search passes over tokens among which it finds nothing outside brackets. -/
theorem findFrom?_append {p : Token → Bool} (hp : ∀ t, p t = true → ∃ s ∈ avoid, t.kind = .symbol s)
    (h : Nested avoid (ts.map Token.kind)) (rest : List Token) :
    Span.findFrom? p 0 (ts ++ rest) = (Span.findFrom? p 0 rest).map (· + ts.length) := by
  generalize hkinds : ts.map Token.kind = kinds at h
  induction h generalizing ts with
  | nil =>
    rw [List.map_eq_nil_iff.1 hkinds]
    simp
  | plain hbracket hkind _ ih =>
    obtain ⟨t, ts, rfl, rfl, hts⟩ := List.map_eq_cons_iff.1 hkinds
    obtain ⟨hleft, hright⟩ := Token.isLeft_isRight hbracket
    have hnot : p t = false := by
      rw [← Bool.not_eq_true]
      intro ht
      obtain ⟨s, hs, hst⟩ := hp t ht
      exact hkind s hs hst
    rw [List.cons_append, Span.findFrom?_plain hnot hleft hright, ih hp hts, Option.map_map]
    rfl
  | @pair _ b _ _ havoid hinside _ _ ih =>
    obtain ⟨opening, us, rfl, hopening, hus⟩ := List.map_eq_cons_iff.1 hkinds
    obtain ⟨inner, vs, rfl, hinner, hvs⟩ := List.map_eq_append_iff.1 hus
    obtain ⟨closing, ts, rfl, hclosing, hts⟩ := List.map_eq_cons_iff.1 hvs
    have hnot : p opening = false := by
      rw [← Bool.not_eq_true]
      intro ht
      obtain ⟨s, hs, hst⟩ := hp opening ht
      rw [hopening] at hst
      cases hst
      exact havoid hs
    rw [List.cons_append, List.append_assoc, List.cons_append,
      Span.findFrom?_pair hopening hclosing (balanced (hinner ▸ hinside)) hnot, ih hp hts, Option.map_map]
    congr 1
    funext i
    simp
    omega

theorem find?_append {s : Symbol} (hs : s ∈ avoid) (h : Nested avoid (ts.map Token.kind)) (rest : List Token) :
    Span.find? s (ts ++ rest) = (Span.find? s rest).map (· + ts.length) :=
  h.findFrom?_append (fun _ ht => ⟨s, hs, of_decide_eq_true ht⟩) rest

/-- The search for an `else` passes over tokens among which there are no keywords outside brackets. -/
theorem findElse?_append (hif : .kwIf ∈ avoid) (helse : .kwElse ∈ avoid) (h : Nested avoid (ts.map Token.kind))
    (nesting : Nat) (rest : List Token) :
    findElse? nesting (ts ++ rest) = (findElse? nesting rest).map (· + ts.length) := by
  generalize hkinds : ts.map Token.kind = kinds at h
  induction h generalizing ts with
  | nil =>
    rw [List.map_eq_nil_iff.1 hkinds]
    simp
  | plain hbracket hkind _ ih =>
    obtain ⟨t, ts, rfl, rfl, hts⟩ := List.map_eq_cons_iff.1 hkinds
    obtain ⟨hleft, _⟩ := Token.isLeft_isRight hbracket
    have hnotIf : t.isSymbol .kwIf = false := by simpa [Token.isSymbol] using hkind _ hif
    have hnotElse : t.isSymbol .kwElse = false := by simpa [Token.isSymbol] using hkind _ helse
    rw [List.cons_append, findElse?_plain hleft hnotIf hnotElse, ih hif helse hts, Option.map_map]
    rfl
  | @pair _ b _ _ _ hinside _ _ ih =>
    obtain ⟨opening, us, rfl, hopening, hus⟩ := List.map_eq_cons_iff.1 hkinds
    obtain ⟨inner, vs, rfl, hinner, hvs⟩ := List.map_eq_append_iff.1 hus
    obtain ⟨closing, ts, rfl, hclosing, hts⟩ := List.map_eq_cons_iff.1 hvs
    rw [List.cons_append, List.append_assoc, List.cons_append,
      findElse?_pair hopening hclosing (balanced (hinner ▸ hinside)), ih hif helse hts, Option.map_map]
    congr 1
    funext i
    simp
    omega

end Nested

/-! ### Parts of a program -/

/-- The symbols that end an expression. -/
def expressionEnds : List Symbol :=
  [.semicolon, .questionMark, .left .square]

/-- The symbols that only a conditional has outside brackets. -/
def conditionalMarks : List Symbol :=
  [.colon, .kwIf, .kwElse]

theorem ParamShape.nested_kinds (p : ParamShape) : Nested [] p.kinds := by
  obtain ⟨x, _ | ⟨_ | _, v⟩⟩ := p
  · exact .word .nil rfl
  · exact .word (.symbol (.word .nil rfl) rfl List.not_mem_nil) rfl
  · exact .word (.symbol (.word (.word .nil rfl) rfl) rfl List.not_mem_nil) rfl

theorem ParamShape.nested_header (name : Ident) (params : List ParamShape) :
    Nested [] (.ident name :: separated (params.map ParamShape.kinds)) := by
  refine .word (.separated fun kinds hkinds => ?_) rfl
  obtain ⟨p, _, rfl⟩ := List.mem_map.1 hkinds
  exact p.nested_kinds

mutual

/-- What ends an expression is in brackets within it. -/
theorem Shape.nested_kinds (s : Shape) (tier : Nat) : Nested expressionEnds (s.kinds tier) := by
  cases s with
  | number v | var x => exact .word .nil rfl
  | boolean b => exact .nil
  | prefixed op operand =>
    rw [Shape.kinds]
    exact .parenthesized (.word (Shape.nested_kinds operand _) rfl) _ (by decide)
  | binary op left right =>
    rw [Shape.kinds]
    split <;>
      exact .parenthesized ((Shape.nested_kinds left _).append (.word (Shape.nested_kinds right _) rfl)) _
        (by decide)
  | call callee style args =>
    exact .word (.enclosed (.separated (ArgumentShape.nested_kindsOfAll args)) (by decide)) rfl
  | conditional condition thenBranch elseBranch =>
    rw [Shape.kinds]
    refine .symbol (.append (Shape.nested_kinds condition 0) ?_) rfl (by decide)
    refine .symbol (.append (Shape.nested_kinds thenBranch 0) ?_) rfl (by decide)
    exact .symbol (Shape.nested_kinds elseBranch 0) rfl (by decide)
  | block entries => exact .enclosed (EntryShape.nested_kindsOfAll entries) (by decide)

theorem EntryShape.nested_kindsOfAll (entries : List EntryShape) :
    Nested [] (EntryShape.kindsOfAll entries) := by
  cases entries with
  | nil => exact .nil
  | cons entry entries =>
    exact (EntryShape.nested_kinds entry).append (EntryShape.nested_kindsOfAll entries)

theorem EntryShape.nested_kinds (entry : EntryShape) : Nested [] entry.kinds := by
  have hsemicolon : Nested [] [.symbol .semicolon] := .symbol .nil rfl List.not_mem_nil
  cases entry with
  | operator op value guard =>
    exact .word (((Shape.nested_kinds value 0).mono (List.nil_subset _)).append
      ((Shape.nested_guardKinds guard).append hsemicolon)) rfl
  | closure f => exact ((FunctionShape.nested_kinds f).mono (List.nil_subset _)).append hsemicolon

theorem Shape.nested_guardKinds (guard : Option Shape) : Nested [] (Shape.guardKinds guard) := by
  cases guard with
  | none => exact .nil
  | some s => exact .symbol ((Shape.nested_kinds s 0).mono (List.nil_subset _)) rfl List.not_mem_nil

/-- What ends an assignment or an entry is in brackets within a function. -/
theorem FunctionShape.nested_kinds (f : FunctionShape) : Nested [.semicolon] f.kinds := by
  obtain ⟨name, params, body⟩ := f
  rw [FunctionShape.kinds, ← List.cons_append]
  exact .pair (by decide) (ParamShape.nested_header name params)
    ((Shape.nested_kinds body 0).mono (by simp [expressionEnds]))

theorem ArgumentShape.nested_kindsOfAll (args : List ArgumentShape) :
    ∀ kinds ∈ ArgumentShape.kindsOfAll args, Nested [] kinds := by
  cases args with
  | nil => exact List.forall_mem_nil _
  | cons arg args =>
    exact List.forall_mem_cons.2 ⟨ArgumentShape.nested_kinds arg, ArgumentShape.nested_kindsOfAll args⟩

theorem ArgumentShape.nested_kinds (arg : ArgumentShape) : Nested [] arg.kinds := by
  cases arg with
  | shorthand x => exact .word .nil rfl
  | assign x value =>
    exact .word (.symbol ((Shape.nested_kinds value 0).mono (List.nil_subset _)) rfl List.not_mem_nil) rfl
  | opAssign x op value =>
    exact .word (.word (.symbol ((Shape.nested_kinds value 0).mono (List.nil_subset _)) rfl List.not_mem_nil)
      rfl) rfl
  | positional value => exact (Shape.nested_kinds value 0).mono (List.nil_subset _)

end

section

variable {n : Naming}

/-- An arithmetic expression has nothing of a conditional outside brackets. -/
theorem Shape.nested_formula (s : Shape) (h : s.Formula n) (tier : Nat) : Nested conditionalMarks (s.kinds tier) := by
  cases s with
  | number v | var x => exact .word .nil rfl
  | prefixed op operand =>
    rw [Shape.kinds]
    exact .parenthesized (.word (Shape.nested_formula operand h.2 _) rfl) _ (by decide)
  | binary op left right =>
    rw [Shape.kinds]
    split <;>
      exact .parenthesized
        ((Shape.nested_formula left h.2.1 _).append (.word (Shape.nested_formula right h.2.2 _) rfl)) _ (by decide)
  | call callee style args =>
    exact .word (.enclosed (.separated (ArgumentShape.nested_kindsOfAll args)) (by decide)) rfl
  | boolean | block | conditional => exact h.elim

/-- An expression that is no conditional has nothing of one outside brackets. -/
theorem Shape.nested_plain (s : Shape) (h : s.Valid n) (hplain : s.isConditional = false) :
    Nested conditionalMarks (s.kinds 0) := by
  cases s with
  | conditional => cases hplain
  | block entries => exact .enclosed (EntryShape.nested_kindsOfAll entries) (by decide)
  | number | boolean | var | prefixed | binary | call => exact Shape.nested_formula _ h 0

/-- The parts of a written conditional. -/
theorem Shape.eq_conditional {condition thenBranch elseBranch : Shape} {tier : Nat} {ts : List Token}
    (h : ts.map Token.kind = (Shape.conditional condition thenBranch elseBranch).kinds tier) :
    ∃ kwIf cs colon us kwElse es, ts = kwIf :: (cs ++ colon :: (us ++ kwElse :: es)) ∧
      kwIf.kind = .symbol .kwIf ∧ cs.map Token.kind = condition.kinds 0 ∧ colon.kind = .symbol .colon ∧
      us.map Token.kind = thenBranch.kinds 0 ∧ kwElse.kind = .symbol .kwElse ∧
      es.map Token.kind = elseBranch.kinds 0 := by
  obtain ⟨kwIf, _, rfl, hif, h⟩ := List.map_eq_cons_iff.1 h
  obtain ⟨cs, _, rfl, hcs, h⟩ := List.map_eq_append_iff.1 h
  obtain ⟨colon, _, rfl, hcolon, h⟩ := List.map_eq_cons_iff.1 h
  obtain ⟨us, _, rfl, hus, h⟩ := List.map_eq_append_iff.1 h
  obtain ⟨kwElse, es, rfl, helse, hes⟩ := List.map_eq_cons_iff.1 h
  exact ⟨kwIf, cs, colon, us, kwElse, es, rfl, hif, hcs, hcolon, hus, helse, hes⟩

/-- The search for an `else` passes over an expression. -/
theorem Shape.findElse?_append (s : Shape) (h : s.Valid n) {ts : List Token} (hts : ts.map Token.kind = s.kinds 0)
    (nesting : Nat) (rest : List Token) :
    findElse? nesting (ts ++ rest) = (findElse? nesting rest).map (· + ts.length) := by
  cases s with
  | conditional condition thenBranch elseBranch =>
    obtain ⟨hplain, hcondition, hthen, helse⟩ := h
    obtain ⟨kwIf, cs, colon, us, kwElse, es, rfl, hif, hcs, hcolon, hus, hkwElse, hes⟩ :=
      Shape.eq_conditional hts
    have hnested := hcs ▸ Shape.nested_plain condition hcondition hplain
    have hmark : findElse? (nesting + 1) (colon :: (us ++ kwElse :: es ++ rest)) =
        (findElse? (nesting + 1) (us ++ kwElse :: es ++ rest)).map (· + 1) := by
      refine findElse?_plain ?_ ?_ ?_ _ _ <;> simp [Token.isLeft, Token.isSymbol, hcolon, Symbol.isLeft]
    rw [List.cons_append, findElse?_if hif, List.append_assoc,
      hnested.findElse?_append (by decide) (by decide), List.cons_append, hmark, List.append_assoc,
      Shape.findElse?_append thenBranch hthen hus, List.cons_append, findElse?_else hkwElse,
      Shape.findElse?_append elseBranch helse hes]
    simp only [Option.map_map]
    congr 1
    funext i
    simp
    omega
  | block | number | boolean | var | prefixed | binary | call =>
    have hnested := Shape.nested_plain _ h rfl
    rw [← hts] at hnested
    exact hnested.findElse?_append (by decide) (by decide) nesting rest

end
end ToneScript
