import ToneScript.Proofs.Outline.Cuts
import ToneScript.Proofs.Rendering.Formula
import ToneScript.Proofs.Rendering.Nesting

/-! The outline of a written program. Every scan stops where its part of the program ends. -/
namespace ToneScript

variable (names : NameTable) (endPos : Position)

section Expressions

variable {n : Naming}

/-- Tokens of a valid expression start with one that tells which kind of expression it is. -/
theorem Shape.tokens_eq_cons {s : Shape} (h : s.Valid n) {ts : List Token} (hts : ts.map Token.kind = s.kinds 0) :
    ∃ t us, ts = t :: us ∧ t.isSymbol (.left .curly) = s.isBlock := by
  cases s with
  | block entries =>
    obtain ⟨t, us, rfl, ht, _⟩ := List.map_eq_cons_iff.1 hts
    exact ⟨t, us, rfl, by rw [Token.isSymbol, ht]; rfl⟩
  | conditional condition thenBranch elseBranch =>
    obtain ⟨t, us, rfl, ht, _⟩ := List.map_eq_cons_iff.1 hts
    exact ⟨t, us, rfl, by rw [Token.isSymbol, ht]; rfl⟩
  | number | boolean | var | prefixed | binary | call =>
    obtain ⟨e, rfl, -, -, -⟩ := Shape.written _ h hts
    obtain ⟨t, us, heq, -, -, -, hcurly⟩ := e.tokens_eq_cons
    exact ⟨t, us, heq, hcurly⟩

/-- A conditional is cut at the first colon outside brackets, and then at the `else` that the first branch leaves. -/
theorem Outline.ofTokens_if {kwIf colon kwElse : Token} {cs us es : List Token} (hif : kwIf.kind = .symbol .kwIf)
    (hcs : Nested [.colon] (cs.map Token.kind)) (hcolon : colon.kind = .symbol .colon)
    (hbranch : findElse? 0 (us ++ kwElse :: es) = some us.length) :
    Outline.ofTokens names endPos (kwIf :: (cs ++ colon :: (us ++ kwElse :: es))) =
      .conditional (Outline.ofTokens names endPos cs) (Outline.ofTokens names endPos us)
        (Outline.ofTokens names endPos es) kwIf.pos := by
  have hkeyword : kwIf.isSymbol .kwIf = true := by rw [Token.isSymbol, hif, beq_self_eq_true]
  have hfind : Span.find? .colon (cs ++ colon :: (us ++ kwElse :: es)) = some cs.length := by
    rw [hcs.find?_append (by decide), Span.find?_self hcolon]
    simp
  have hrest : (cs ++ colon :: (us ++ kwElse :: es)).drop (cs.length + 1) = us ++ kwElse :: es := by
    rw [List.drop_append]
    simp
  have hlast : (cs ++ colon :: (us ++ kwElse :: es)).drop (cs.length + 1 + us.length + 1) = es := by
    rw [Nat.add_assoc (cs.length + 1), ← List.drop_drop, hrest, List.drop_append]
    simp
  rw [Outline.ofTokens]
  simp only [hkeyword, if_true, hfind, hrest, hbranch, hlast, List.take_left]

/-- The condition of a conditional ends at its colon, and the first branch at its `else`. -/
theorem Outline.ofTokens_conditional {condition thenBranch elseBranch : Shape}
    (h : (Shape.conditional condition thenBranch elseBranch).Valid n) {kwIf colon kwElse : Token}
    {cs us es : List Token} (hif : kwIf.kind = .symbol .kwIf) (hcs : cs.map Token.kind = condition.kinds 0)
    (hcolon : colon.kind = .symbol .colon) (hus : us.map Token.kind = thenBranch.kinds 0)
    (helse : kwElse.kind = .symbol .kwElse) :
    Outline.ofTokens names endPos (kwIf :: (cs ++ colon :: (us ++ kwElse :: es))) =
      .conditional (Outline.ofTokens names endPos cs) (Outline.ofTokens names endPos us)
        (Outline.ofTokens names endPos es) kwIf.pos := by
  obtain ⟨hplain, hcondition, hthen, _⟩ := h
  have hnested := hcs ▸ Shape.nested_plain condition hcondition hplain
  have hbranch : findElse? 0 (us ++ kwElse :: es) = some us.length := by
    rw [Shape.findElse?_append thenBranch hthen hus, findElse?_else_zero helse]
    simp
  exact Outline.ofTokens_if names endPos hif (hnested.mono (by simp [conditionalMarks])) hcolon hbranch

/-- A block ends at the bracket that closes it. -/
theorem Outline.ofTokens_block {opening closing : Token} {inner : List Token}
    (hopening : opening.kind = .symbol (.left .curly)) (hclosing : closing.kind = .symbol (.right .curly))
    (h : Span.Balanced inner) :
    Outline.ofTokens names endPos (opening :: (inner ++ [closing])) =
      .block (EntryOutline.listOfTokens names endPos inner) none opening.pos := by
  have hkeyword : opening.isSymbol .kwIf = false := by simp [Token.isSymbol, hopening]
  have hcurly : opening.isSymbol (.left .curly) = true := by rw [Token.isSymbol, hopening, beq_self_eq_true]
  rw [Outline.ofTokens]
  simp only [hkeyword, hcurly, Bool.false_eq_true, if_false, if_true,
    Span.matching?_pair opening closing hopening hclosing h []]
  simp

end Expressions

section Entries

variable {t semicolon : Token} {op : Operator} {vs gs rest : List Token}

/-- The question mark of a later entry is none of this one. -/
theorem EntryExtent.of_plain (hvs : Nested expressionEnds (vs.map Token.kind))
    (hsemicolon : semicolon.kind = .symbol .semicolon) :
    EntryExtent.of endPos (vs ++ semicolon :: rest) = .ok ⟨none, vs.length⟩ := by
  have hsemicolon? : Span.find? .semicolon (vs ++ semicolon :: rest) = some vs.length := by
    rw [hvs.find?_append (by decide), Span.find?_self hsemicolon]
    simp
  have hquestion? : (Span.find? .questionMark (vs ++ semicolon :: rest)).filter (· ≤ vs.length) = none := by
    rw [hvs.find?_append (by decide), Span.find?_other hsemicolon rfl (by decide), Option.map_map,
      Option.filter_eq_none_iff]
    intro i hi
    obtain ⟨j, _, rfl⟩ := Option.map_eq_some_iff.1 hi
    simp
  rw [EntryExtent.of]
  simp only [hsemicolon?, hquestion?]

theorem EntryExtent.of_guarded {question : Token} (hvs : Nested expressionEnds (vs.map Token.kind))
    (hgs : Nested expressionEnds (gs.map Token.kind)) (hquestion : question.kind = .symbol .questionMark)
    (hsemicolon : semicolon.kind = .symbol .semicolon) :
    EntryExtent.of endPos (vs ++ question :: (gs ++ semicolon :: rest)) =
      .ok ⟨some vs.length, vs.length + 1 + gs.length⟩ := by
  have hsemicolon? : Span.find? .semicolon (vs ++ question :: (gs ++ semicolon :: rest)) =
      some (vs.length + 1 + gs.length) := by
    rw [hvs.find?_append (by decide), Span.find?_other hquestion rfl (by decide), hgs.find?_append (by decide),
      Span.find?_self hsemicolon]
    simp
    omega
  have hquestion? : Span.find? .questionMark (vs ++ question :: (gs ++ semicolon :: rest)) = some vs.length := by
    rw [hvs.find?_append (by decide), Span.find?_self hquestion]
    simp
  rw [EntryExtent.of]
  simp only [hsemicolon?, hquestion?]
  simp [Nat.add_assoc]

/-- An entry without a guard ends at its semicolon. -/
theorem EntryOutline.listOfTokens_plain (ht : t.kind = .operator op)
    (hvs : Nested expressionEnds (vs.map Token.kind)) (hsemicolon : semicolon.kind = .symbol .semicolon) :
    EntryOutline.listOfTokens names endPos (t :: (vs ++ semicolon :: rest)) =
      .operator op (Outline.ofTokens names endPos vs) none t.pos :: EntryOutline.listOfTokens names endPos rest := by
  have hdrop : (vs ++ semicolon :: rest).drop (vs.length + 1) = rest := by
    rw [List.drop_append]
    simp
  rw [EntryOutline.listOfTokens]
  simp only [ht, EntryExtent.of_plain endPos hvs hsemicolon, Option.getD_none, List.take_left, hdrop]

/-- The value of an entry ends at the question mark, and the guard at the semicolon. -/
theorem EntryOutline.listOfTokens_guarded {question : Token} (ht : t.kind = .operator op)
    (hvs : Nested expressionEnds (vs.map Token.kind)) (hgs : Nested expressionEnds (gs.map Token.kind))
    (hquestion : question.kind = .symbol .questionMark) (hsemicolon : semicolon.kind = .symbol .semicolon) :
    EntryOutline.listOfTokens names endPos (t :: (vs ++ question :: (gs ++ semicolon :: rest))) =
      .operator op (Outline.ofTokens names endPos vs) (some (Outline.ofTokens names endPos gs)) t.pos ::
        EntryOutline.listOfTokens names endPos rest := by
  have hguard : (vs ++ question :: (gs ++ semicolon :: rest)).drop (vs.length + 1) = gs ++ semicolon :: rest := by
    rw [List.drop_append]
    simp
  have hdrop : (vs ++ question :: (gs ++ semicolon :: rest)).drop (vs.length + 1 + gs.length + 1) = rest := by
    rw [Nat.add_assoc (vs.length + 1), ← List.drop_drop, hguard, List.drop_append]
    simp
  rw [EntryOutline.listOfTokens]
  simp only [ht, EntryExtent.of_guarded endPos hvs hgs hquestion hsemicolon, Option.getD_some, List.take_left, hguard,
    hdrop, Nat.add_sub_cancel_left]

variable (rest) in
/-- What a square bracket opens in a block ends at its semicolon. -/
theorem EntryOutline.listOfTokens_square {opening : Token} {us : List Token}
    (hopening : opening.kind = .symbol (.left .square)) (h : Nested [.semicolon] ((opening :: us).map Token.kind))
    (hsemicolon : semicolon.kind = .symbol .semicolon) :
    EntryOutline.listOfTokens names endPos (opening :: (us ++ semicolon :: rest)) =
      .closure (FunctionOutline.ofTokens names endPos (opening :: us)) opening.pos ::
        EntryOutline.listOfTokens names endPos rest := by
  have hfind : Span.find? .semicolon (opening :: (us ++ semicolon :: rest)) = some (us.length + 1) := by
    rw [← List.cons_append, h.find?_append (by decide), Span.find?_self hsemicolon]
    simp
  have hdrop : (us ++ semicolon :: rest).drop (us.length + 1) = rest := by
    rw [List.drop_append]
    simp
  rw [EntryOutline.listOfTokens]
  simp only [hopening, hfind, Option.getD_some, List.take_succ_cons, List.take_left, hdrop]

variable (rest) in
/-- A function in a block ends at its semicolon. -/
theorem EntryOutline.listOfTokens_closure {f : FunctionShape} {fs : List Token} (hfs : fs.map Token.kind = f.kinds)
    (hsemicolon : semicolon.kind = .symbol .semicolon) :
    ∃ pos, EntryOutline.listOfTokens names endPos (fs ++ semicolon :: rest) =
      .closure (FunctionOutline.ofTokens names endPos fs) pos :: EntryOutline.listOfTokens names endPos rest := by
  have hnested := hfs ▸ f.nested_kinds
  obtain ⟨name, params, body⟩ := f
  obtain ⟨opening, us, rfl, hopening, -⟩ := List.map_eq_cons_iff.1 hfs
  exact ⟨opening.pos, EntryOutline.listOfTokens_square names endPos rest hopening hnested hsemicolon⟩

end Entries

section Functions

variable {closing : Token}

/-- A written parameter is one of the grammar, with its default as a number. -/
theorem ParamShape.derived (p : ParamShape) {ts : List Token} (hts : ts.map Token.kind = p.kinds) :
    ∃ q, Param.Derived ts q ∧ q.shape = p.fold := by
  obtain ⟨x, default?⟩ := p
  cases default? with
  | none =>
    obtain ⟨name, rfl, hname⟩ := List.map_eq_singleton_iff.1 hts
    exact ⟨_, .required hname, rfl⟩
  | some l =>
    obtain ⟨negative, v⟩ := l
    cases negative with
    | false =>
      obtain ⟨name, _, rfl, hname, hrest⟩ := List.map_eq_cons_iff.1 hts
      obtain ⟨equals, _, rfl, hequals, hrest'⟩ := List.map_eq_cons_iff.1 hrest
      obtain ⟨constant, rfl, hconstant⟩ := List.map_eq_singleton_iff.1 hrest'
      exact ⟨_, .default hname hequals hconstant, rfl⟩
    | true =>
      obtain ⟨name, _, rfl, hname, hrest⟩ := List.map_eq_cons_iff.1 hts
      obtain ⟨equals, _, rfl, hequals, hrest'⟩ := List.map_eq_cons_iff.1 hrest
      obtain ⟨minus, _, rfl, hminus, hrest''⟩ := List.map_eq_cons_iff.1 hrest'
      obtain ⟨constant, rfl, hconstant⟩ := List.map_eq_singleton_iff.1 hrest''
      exact ⟨_, .negative hname hequals hminus hconstant, rfl⟩

/-- Written parameters are those of the grammar. -/
theorem ParamShape.separated_derived (params : List ParamShape) {ts : List Token}
    (hts : ts.map Token.kind = separated (params.map ParamShape.kinds)) :
    ∃ read, Separated Param.Derived true ts read ∧ read.map Param.shape = params.map ParamShape.fold := by
  induction params generalizing ts with
  | nil =>
    rw [List.map_eq_nil_iff.1 hts]
    exact ⟨[], .nil, rfl⟩
  | cons p params ih =>
    cases params with
    | nil =>
      rw [List.map_singleton, separated, List.intercalate_singleton] at hts
      obtain ⟨q, hq, hshape⟩ := p.derived hts
      exact ⟨[q], .last hq, congrArg (fun s => [s]) hshape⟩
    | cons p' params =>
      rw [List.map_cons, List.map_cons, separated, List.intercalate_cons_cons, List.append_assoc] at hts
      obtain ⟨us, _, rfl, hus, hrest⟩ := List.map_eq_append_iff.1 hts
      obtain ⟨comma, vs, rfl, hcomma, hvs⟩ := List.map_eq_cons_iff.1 hrest
      obtain ⟨q, hq, hshape⟩ := p.derived hus
      obtain ⟨read, hread, hshapes⟩ := ih hvs
      exact ⟨q :: read, .more hq hcomma hread fun _ => rfl, congrArg₂ List.cons hshape hshapes⟩

/-- The names of parameters show in their shapes. -/
theorem ParamShape.names_read {read : List Param} {params : List ParamShape}
    (h : read.map Param.shape = params.map ParamShape.fold) :
    read.map Param.name = params.map ParamShape.name := by
  have hnames := congrArg (List.map ParamShape.name) h
  rwa [List.map_map, List.map_map] at hnames

/-- The parts of a written function. -/
theorem FunctionShape.eq_tokens {name : Ident} {params : List ParamShape} {body : Shape} {fs : List Token}
    (h : fs.map Token.kind = (FunctionShape.mk name params body).kinds) :
    ∃ opening t ps closing bs, fs = opening :: t :: (ps ++ closing :: bs) ∧
      opening.kind = .symbol (.left .square) ∧ t.kind = .ident name ∧
      ps.map Token.kind = separated (params.map ParamShape.kinds) ∧ closing.kind = .symbol (.right .square) ∧
      Span.Balanced (t :: ps) ∧ bs.map Token.kind = body.kinds 0 := by
  obtain ⟨opening, _, rfl, hopening, hrest⟩ := List.map_eq_cons_iff.1 h
  obtain ⟨t, _, rfl, ht, hrest'⟩ := List.map_eq_cons_iff.1 hrest
  obtain ⟨ps, _, rfl, hps, hrest''⟩ := List.map_eq_append_iff.1 hrest'
  obtain ⟨closing, bs, rfl, hclosing, hbs⟩ := List.map_eq_cons_iff.1 hrest''
  have hheader : Nested [] ((t :: ps).map Token.kind) := by
    rw [List.map_cons, ht, hps]
    exact ParamShape.nested_header name params
  exact ⟨opening, t, ps, closing, bs, rfl, hopening, ht, hps, hclosing, hheader.balanced, hbs⟩

/-- The outline of a function definition whose parameters are read. -/
theorem FunctionOutline.ofTokens_defined {opening t : Token} {name : Ident} {ps bs : List Token} {params : List Param}
    (hopening : opening.kind = .symbol (.left .square)) (ht : t.kind = .ident name)
    (hread : readParams names endPos [] (ps ++ closing :: bs) = .ok (params, ps.length + 1)) (hbs : bs ≠ []) :
    FunctionOutline.ofTokens names endPos (opening :: t :: (ps ++ closing :: bs)) =
      .defined ⟨name, t.pos, params, opening.pos⟩ (Outline.ofTokens names endPos bs) := by
  have hsquare : opening.isSymbol (.left .square) = true := by rw [Token.isSymbol, hopening, beq_self_eq_true]
  have hheader : readHeader names endPos opening.pos (t :: (ps ++ closing :: bs)) =
      .ok (⟨name, t.pos, params, opening.pos⟩, ps.length + 2) := by
    rw [readHeader, ht]
    simp only [hread]
    rfl
  have hdrop : (t :: (ps ++ closing :: bs)).drop (ps.length + 2) = bs := by
    rw [List.drop_succ_cons, List.drop_append]
    simp
  rw [FunctionOutline.ofTokens]
  simp only [hsquare, if_true, hheader, hdrop, hbs, if_false]

/-- A function definition is read back with the defaults of its parameters as numbers. -/
theorem FunctionOutline.ofTokens_kinds {n : Naming} {name : Ident} {params : List ParamShape} {body : Shape}
    (h : (FunctionShape.mk name params body).Valid n) {fs : List Token}
    (hfs : fs.map Token.kind = (FunctionShape.mk name params body).kinds) :
    ∃ header bs, FunctionOutline.ofTokens names endPos fs = .defined header (Outline.ofTokens names endPos bs) ∧
      header.name = name ∧ header.params.map Param.shape = params.map ParamShape.fold ∧
      bs.map Token.kind = body.kinds 0 := by
  obtain ⟨_, hnodup, hbody⟩ := h
  obtain ⟨opening, t, ps, closing, bs, rfl, hopening, ht, hps, hclosing, -, hbs⟩ := FunctionShape.eq_tokens hfs
  obtain ⟨read, hderived, hshape⟩ := ParamShape.separated_derived params hps
  have hnodup' : (([] ++ read).map Param.name).Nodup := by
    rw [List.nil_append, ParamShape.names_read hshape]
    exact hnodup
  have hread := hderived.readParams_eq names endPos bs hnodup' hclosing
  obtain ⟨u, us, rfl, -⟩ := Shape.tokens_eq_cons hbody hbs
  have houtline := FunctionOutline.ofTokens_defined names endPos hopening ht hread (List.cons_ne_nil u us)
  exact ⟨⟨name, t.pos, read, opening.pos⟩, u :: us, houtline, rfl, hshape, hbs⟩

end Functions

section Items

variable {n : Naming} {fs rest : List Token}

/-- The parts of a written block. -/
theorem Shape.eq_block {entries : List EntryShape} {tier : Nat} {ts : List Token}
    (h : ts.map Token.kind = (Shape.block entries).kinds tier) :
    ∃ opening inner closing, ts = opening :: (inner ++ [closing]) ∧ opening.kind = .symbol (.left .curly) ∧
      closing.kind = .symbol (.right .curly) ∧ inner.map Token.kind = EntryShape.kindsOfAll entries ∧
      Span.Balanced inner := by
  obtain ⟨opening, _, rfl, hopening, hrest⟩ := List.map_eq_cons_iff.1 h
  obtain ⟨inner, _, rfl, hinner, hlast⟩ := List.map_eq_append_iff.1 hrest
  obtain ⟨closing, rfl, hclosing⟩ := List.map_eq_singleton_iff.1 hlast
  exact ⟨opening, inner, closing, rfl, hopening, hclosing, hinner,
    (hinner ▸ EntryShape.nested_kindsOfAll entries).balanced⟩

theorem mem_expressionEnds {t : Token} (h : endsBody t = true) : ∃ s ∈ expressionEnds, t.kind = .symbol s := by
  rcases Bool.or_eq_true _ _ ▸ h with ht | ht
  · exact ⟨.semicolon, by decide, of_decide_eq_true ht⟩
  · exact ⟨.left .square, by decide, of_decide_eq_true ht⟩

/-- A block is outlined as one. -/
theorem Shape.isBlock_ofTokens {s : Shape} (h : s.isBlock = true) {ts : List Token}
    (hts : ts.map Token.kind = s.kinds 0) : (Outline.ofTokens names endPos ts).isBlock = true := by
  cases s with
  | block entries =>
    obtain ⟨opening, inner, closing, rfl, hopening, hclosing, -, hinner⟩ := Shape.eq_block hts
    rw [Outline.ofTokens_block names endPos hopening hclosing hinner]
    rfl
  | number | boolean | var | prefixed | binary | call | conditional => cases h

/-- A function at the outermost level ends with its block, or else at a semicolon. -/
theorem functionLength_kinds {f : FunctionShape} (h : f.Valid n) {opening : Token} {us : List Token}
    (hfs : (opening :: us).map Token.kind = f.kinds)
    (hend : f.body.isBlock = false → ∃ semicolon ss, rest = semicolon :: ss ∧ semicolon.kind = .symbol .semicolon) :
    functionLength opening (us ++ rest) = us.length := by
  obtain ⟨name, params, body⟩ := f
  obtain ⟨_, t, ps, closing, bs, heq, hopening, ht, hps, hclosing, hheader, hbs⟩ := FunctionShape.eq_tokens hfs
  cases heq
  have hmatching : Span.matching? (opening :: (t :: (ps ++ closing :: bs) ++ rest)) = some (ps.length + 2) := by
    have hpair := Span.matching?_pair opening closing hopening hclosing hheader (bs ++ rest)
    simpa using hpair
  have hdrop : (t :: (ps ++ closing :: bs) ++ rest).drop (ps.length + 2) = bs ++ rest := by
    rw [List.cons_append, List.drop_succ_cons, List.append_assoc, List.drop_append]
    simp
  obtain ⟨u, vs, hcons, hcurly⟩ := Shape.tokens_eq_cons h.2.2 hbs
  have hhead : (bs ++ rest).head?.any (·.isSymbol (.left .curly)) = body.isBlock := by
    rw [hcons]
    exact hcurly
  rw [functionLength]
  simp only [hmatching, hdrop, hhead]
  cases body with
  | block entries =>
    obtain ⟨opening', inner, closing', rfl, hopening', hclosing', -, hinner⟩ := Shape.eq_block hbs
    have hlast := Span.matching?_pair opening' closing' hopening' hclosing' hinner rest
    rw [List.cons_append, List.append_assoc, List.singleton_append]
    simp only [Shape.isBlock, if_true, hlast]
    simp
    omega
  | number | boolean | var | prefixed | binary | call | conditional =>
    obtain ⟨semicolon, ss, rfl, hsemicolon⟩ := hend rfl
    have hfind : Span.findFrom? endsBody 0 (bs ++ semicolon :: ss) = some bs.length := by
      have hnested := hbs ▸ Shape.nested_kinds _ 0
      have hends : endsBody semicolon = true := by simp [endsBody, Token.isSymbol, hsemicolon]
      rw [hnested.findFrom?_append fun t => mem_expressionEnds, Span.findFrom?, hends]
      simp
    simp only [Shape.isBlock, Bool.false_eq_true, if_false, hfind]
    simp
    omega

theorem ItemOutline.listOfTokens_semicolon {semicolon : Token} (h : semicolon.kind = .symbol .semicolon)
    (ts : List Token) :
    ItemOutline.listOfTokens names endPos (semicolon :: ts) = ItemOutline.listOfTokens names endPos ts := by
  have ht : semicolon.isSymbol .semicolon = true := by rw [Token.isSymbol, h, beq_self_eq_true]
  rw [ItemOutline.listOfTokens]
  simp only [ht, if_true]

/-- A function at the outermost level ends where the next item starts, with or without a semicolon between them. -/
theorem ItemOutline.listOfTokens_function {f : FunctionShape} (h : f.Valid n) (hfs : fs.map Token.kind = f.kinds)
    (hend : f.body.isBlock = false → ∃ semicolon ss, rest = semicolon :: ss ∧ semicolon.kind = .symbol .semicolon) :
    ∃ pos, ItemOutline.listOfTokens names endPos (fs ++ rest) =
      .function (FunctionOutline.ofTokens names endPos fs) none pos :: ItemOutline.listOfTokens names endPos rest := by
  obtain ⟨name, params, body⟩ := f
  obtain ⟨header, bs, hfunction, -, -, hbs⟩ := FunctionOutline.ofTokens_kinds names endPos h hfs
  obtain ⟨opening, us, rfl, hopening, -⟩ := List.map_eq_cons_iff.1 hfs
  have hlength := functionLength_kinds h hfs hend
  have hsemicolon : opening.isSymbol .semicolon = false := by simp [Token.isSymbol, hopening]
  have hsquare : opening.isSymbol (.left .square) = true := by rw [Token.isSymbol, hopening, beq_self_eq_true]
  have hunended : (if (FunctionOutline.ofTokens names endPos (opening :: us)).hasBlock = true then none
      else (rest.head?.filter (·.isSymbol (.left .square))).map Token.pos) = none := by
    cases hblock : body.isBlock with
    | true =>
      rw [hfunction, FunctionOutline.hasBlock, Shape.isBlock_ofTokens names endPos hblock hbs, if_pos rfl]
    | false =>
      obtain ⟨semicolon, ss, rfl, hkind⟩ := hend hblock
      have hnot : semicolon.isSymbol (.left .square) = false := by simp [Token.isSymbol, hkind]
      simp [Option.filter, hnot]
  have hskip : ItemOutline.listOfTokens names endPos
      ((us ++ rest).drop (if rest.head?.any (·.isSymbol .semicolon) = true then us.length + 1 else us.length)) =
        ItemOutline.listOfTokens names endPos rest := by
    cases rest with
    | nil => simp
    | cons t ts =>
      by_cases ht : t.isSymbol .semicolon = true
      · rw [List.head?_cons, Option.any_some, if_pos ht, listOfTokens_semicolon names endPos (of_decide_eq_true ht),
          ← List.drop_drop, List.drop_left, List.drop_one, List.tail_cons]
      · rw [List.head?_cons, Option.any_some, if_neg ht, List.drop_left]
  refine ⟨opening.pos, ?_⟩
  rw [List.cons_append, ItemOutline.listOfTokens]
  simp only [hsemicolon, hsquare, Bool.false_eq_true, if_false, if_true, hlength, List.take_left, List.drop_left,
    hunended, hskip]

variable (rest) in
/-- An assignment ends at its semicolon. -/
theorem ItemOutline.listOfTokens_assignment {name equals semicolon : Token} {x : Ident} {vs : List Token}
    (hname : name.kind = .ident x) (hequals : equals.kind = .symbol .equals)
    (hvs : Nested expressionEnds (vs.map Token.kind)) (hsemicolon : semicolon.kind = .symbol .semicolon) :
    ∃ visibleFrom, ItemOutline.listOfTokens names endPos (name :: equals :: (vs ++ semicolon :: rest)) =
      .assignment x (Outline.ofTokens names endPos vs) visibleFrom name.pos ::
        ItemOutline.listOfTokens names endPos rest := by
  have hfind : Span.find? .semicolon (name :: equals :: (vs ++ semicolon :: rest)) = some (vs.length + 2) := by
    have hnested : Nested expressionEnds ((name :: equals :: vs).map Token.kind) := by
      rw [List.map_cons, List.map_cons, hname, hequals]
      exact .word (.symbol hvs rfl (by decide)) rfl
    have happend := hnested.find?_append (s := .semicolon) (by decide) (semicolon :: rest)
    rw [Span.find?_self hsemicolon] at happend
    simpa using happend
  have hnot : name.isSymbol .semicolon = false ∧ name.isSymbol (.left .square) = false := by
    simp [Token.isSymbol, hname]
  have hassigned : equals.isSymbol .equals = true := by rw [Token.isSymbol, hequals, beq_self_eq_true]
  have hdrop : (equals :: (vs ++ semicolon :: rest)).drop (vs.length + 2) = rest := by
    rw [List.drop_succ_cons, List.drop_append]
    simp
  rw [ItemOutline.listOfTokens]
  simp only [hnot, Bool.false_eq_true, if_false, hfind, hname, List.head?_cons, Option.any_some, hassigned, hdrop,
    List.take_succ_cons, List.take_left, List.drop_succ_cons, List.drop_zero]
  exact ⟨_, rfl⟩

end Items

end ToneScript
