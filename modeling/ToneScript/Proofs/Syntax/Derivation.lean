import ToneScript.Proofs.Arithmetic.Juxtaposition
import ToneScript.Proofs.Outline.Cuts

/-! What is read without errors is in the grammar, apart from two lapses at the ends of lists. The cuts that an outline
is made with give the lists of tokens; that nothing is refused shows that a separator stands at every cut. -/
namespace ToneScript

open Resolution (State run_bind_ok cells_cons_ok cells_flawed cell_call_ok arguments_cons_ok argument_given_ok)

variable {c : Resolution.Context} (names : NameTable) (endPos : Position)

/-! ### Arithmetic expressions and calls -/

theorem Cell.ofToken_name {t : Token} {id : Ident} (hkind : t.kind = .ident id) {s s' : State} {x : Cell}
    (h : (Resolution.cell c (.name id t.pos)).run s = (.ok x, s')) : Cell.OfToken t x := by
  rw [Resolution.cell] at h
  obtain ⟨_, _, _, _, ⟨_, _, rfl⟩ | ⟨_, rfl⟩⟩ := Resolution.variableCell_ok h
  · exact .value hkind
  · exact .slot hkind

/-- The sequence that the cells of an expression are compiled to. -/
theorem Compiled.derived_of_cells {l : Leniency} {ts : List Token} {cells sequence : List Cell} (hne : ts ≠ [])
    (hcells : Cell.AllDerived l ts cells) (hconvert : Postfix.convert cells = .ok sequence) :
    Compiled.Derived l ts ⟨sequence, headPos endPos ts⟩ := by
  cases ts with
  | nil => exact absurd rfl hne
  | cons t ts => exact .convert hcells hconvert

-- A call holds arguments and an argument holds cells, each of them cut out of what holds it. The cells of an argument may
-- be all of its tokens, so that at the same number of tokens arguments count for more than cells.
mutual

/-- The cells of accepted terms are those of the grammar, with the arguments of every call. -/
theorem Cell.allDerived_listOfTokens (afterOperand : Bool) (ts : List Token) {s s' : State} {cells : List Cell}
    (h : (Resolution.cells c (Term.listOfTokens names endPos afterOperand ts)).run s = (.ok cells, s')) :
    Cell.AllDerived .full ts cells := by
  cases ts with
  | nil =>
    rw [Term.listOfTokens] at h
    cases h
    exact .nil
  | cons t rest =>
    have hterms := h
    rw [Term.listOfTokens] at h
    split at h
    · rename_i v hkind
      obtain ⟨x, xs, mid, rfl, hfirst, hrest⟩ := cells_cons_ok h
      cases hfirst
      exact .token (.const hkind) (by simp [hkind]) (Cell.allDerived_listOfTokens true rest hrest)
    · rename_i op hkind
      obtain ⟨x, xs, mid, rfl, hfirst, hrest⟩ := cells_cons_ok h
      cases hfirst
      refine .token ?_ (by simp [hkind]) (Cell.allDerived_listOfTokens false rest hrest)
      split
      · rename_i hsign
        rw [hsign.1] at hkind
        exact .negation hkind
      · exact .operator hkind
    · rename_i id hkind
      by_cases hopen : rest.head?.any (·.isSymbol (.left .round)) = true
      · cases rest with
        | nil => cases hopen
        | cons opening rest =>
          have hopening : opening.kind = .symbol (.left .round) := of_decide_eq_true hopen
          obtain ⟨inner, closing, after, args, site, xs, mid, rfl, hclosing, rfl, hargs, hsite, hrest⟩ :=
            Resolution.cells_call_ok names endPos hkind hopening hterms
          exact .call hkind hopening (SiteArgument.separated_listOfTokens inner hargs) hclosing hsite
            (Cell.allDerived_listOfTokens true after hrest)
      · rw [if_neg hopen] at h
        obtain ⟨x, xs, mid, rfl, hfirst, hrest⟩ := cells_cons_ok h
        exact .token (Cell.ofToken_name hkind hfirst) (fun _ _ => Bool.not_eq_true _ ▸ hopen)
          (Cell.allDerived_listOfTokens true rest hrest)
    · rename_i hkind
      obtain ⟨x, xs, mid, rfl, hfirst, hrest⟩ := cells_cons_ok h
      cases hfirst
      exact .token (.left hkind) (by simp [hkind]) (Cell.allDerived_listOfTokens false rest hrest)
    · rename_i hkind
      obtain ⟨x, xs, mid, rfl, hfirst, hrest⟩ := cells_cons_ok h
      cases hfirst
      exact .token (.right hkind) (by simp [hkind]) (Cell.allDerived_listOfTokens true rest hrest)
    · exact (cells_flawed h).elim
    · rename_i hkind
      exact .eof hkind (Cell.allDerived_listOfTokens afterOperand rest h)
termination_by 2 * ts.length

/-- Accepted arguments have commas between them; one may follow the last. -/
theorem SiteArgument.separated_listOfTokens (ts : List Token) {callee : String} {s s' : State}
    {args : List SiteArgument}
    (h : (Resolution.arguments c callee (ArgumentOutline.listOfTokens names endPos ts)).run s = (.ok args, s')) :
    Separated (SiteArgument.Derived .full) true ts args := by
  cases ts with
  | nil =>
    rw [ArgumentOutline.listOfTokens] at h
    cases h
    exact .nil
  | cons t rest =>
    obtain ⟨first, us, cells, sequence, args, mid, mid', hle, hsplit, hne, hcells, hconvert, rfl, hrest⟩ :=
      Resolution.arguments_first_ok names endPos h
    have hfirst : SiteArgument.Derived .full (t :: first) (Resolution.argumentOf (readForm (t :: first)).1
        ⟨sequence, headPos endPos ((t :: first).drop (readForm (t :: first)).2)⟩ t.pos) :=
      SiteArgument.derived_of_form rfl
        (Compiled.derived_of_cells endPos hne (Cell.allDerived_listOfTokens false _ hcells) hconvert)
    rcases hsplit with ⟨rfl, rfl⟩ | ⟨comma, hcomma, rfl⟩
    · rw [ArgumentOutline.listOfTokens] at hrest
      cases hrest
      exact .last hfirst
    · exact .more hfirst hcomma (SiteArgument.separated_listOfTokens us hrest) fun _ => rfl
termination_by 2 * ts.length + 1
decreasing_by
  all_goals
    subst_vars
    simp only [List.length_drop, List.length_cons, List.length_append]
    omega

end

/-! ### Expressions, blocks and definitions -/

namespace Resolution

/-- A definition that is read starts with a header, and a body follows it. -/
theorem definition_ok {opening : Token} {rest : List Token} {s s' : State} {f : FunctionDef}
    (h : (function c (FunctionOutline.ofTokens names endPos (opening :: rest))).run s = (.ok f, s')) :
    opening.kind = .symbol (.left .square) ∧ ∃ header n,
      readHeader names endPos opening.pos rest = .ok (header, n) ∧
      FunctionOutline.ofTokens names endPos (opening :: rest) =
        .defined header (Outline.ofTokens names endPos (rest.drop n)) := by
  rw [FunctionOutline.ofTokens] at h ⊢
  split at h
  · rename_i hopening
    rw [if_pos hopening]
    cases hread : readHeader names endPos opening.pos rest with
    | error e =>
      rw [hread, function] at h
      cases h
    | ok result =>
      obtain ⟨header, n⟩ := result
      rw [hread] at h
      simp only at h ⊢
      split at h
      · exact (function_bodiless h).elim
      · rename_i hbody
        exact ⟨of_decide_eq_true hopening, header, n, rfl, if_neg hbody⟩
  · rw [function] at h
    cases h

end Resolution

-- What is cut out of the tokens of an expression or of a definition leaves at least one of them out; only a closure may be
-- all of the tokens of the entries of a block.
mutual

/-- The tokens of an accepted expression are derived. -/
theorem Expr.derived_ofTokens (ts : List Token) {s s' : State} {e : Expr}
    (h : (Resolution.expr c (Outline.ofTokens names endPos ts)).run s = (.ok e, s')) : Expr.Derived .full ts e := by
  cases ts with
  | nil =>
    rw [Outline.ofTokens] at h
    obtain ⟨_, _, _, hcells, _⟩ := Resolution.expr_arithmetic_ok h
    exact (cells_flawed hcells).elim
  | cons t rest =>
    rw [Outline.ofTokens] at h
    split at h
    · -- a conditional
      rename_i hif
      split at h
      · rw [Resolution.expr] at h
        cases h
      rename_i colon hcolon
      split at h
      · rw [Resolution.expr] at h
        cases h
      rename_i n helse
      obtain ⟨condition, thenBranch, elseBranch, s₁, s₂, rfl, hcondition, hthen, hother⟩ :=
        Resolution.expr_conditional_ok h
      obtain ⟨u, hcolonAt, hu⟩ := Span.getElem?_of_find? hcolon
      obtain ⟨v, helseAt, hv⟩ := getElem?_of_findElse? helse
      have hrest := Span.eq_append_of_getElem? hcolonAt
      have hbranches := Span.eq_append_of_getElem? helseAt
      rw [List.drop_drop, ← Nat.add_assoc] at hbranches
      rw [hbranches] at hrest
      rw [hrest]
      exact .conditional (of_decide_eq_true hif) (Expr.derived_ofTokens _ hcondition) hu
        (Expr.derived_ofTokens _ hthen) hv (Expr.derived_ofTokens _ hother)
    · split at h
      · -- a block
        rename_i hcurly
        have hopening : t.kind = .symbol (.left .curly) := of_decide_eq_true hcurly
        split at h
        · obtain ⟨_, _, _, _, hflaw, _⟩ := Resolution.expr_block_ok h
          cases hflaw
        · rename_i close hclose
          obtain ⟨inner, closing, after, hrest, hclosing, hinner, hafter⟩ :=
            Span.eq_pair_of_matching? hopening hclose
          rw [List.drop_take, List.drop_one, List.tail_cons] at hinner
          rw [List.drop_succ_cons] at hafter
          obtain ⟨entries, mid, table, rfl, hflaw, hentries, _⟩ := Resolution.expr_block_ok h
          rw [hafter] at hflaw
          cases after with
          | cons extra after => cases hflaw
          | nil =>
            have hderived := BlockEntry.allDerived_listOfTokens _ hentries
            rw [hinner] at hderived
            rw [hrest]
            exact .block hopening hderived hclosing
      · -- an arithmetic expression
        obtain ⟨cells, mid, sequence, hcells, hconvert, hexpr, _⟩ := Resolution.expr_arithmetic_ok h
        exact .arithmetic (.convert (Cell.allDerived_listOfTokens names endPos false _ hcells) hconvert) hexpr
termination_by 3 * ts.length + 2
decreasing_by
  all_goals
    subst_vars
    simp only [List.length_take, List.length_drop, List.length_cons]
    omega

/-- The tokens of the accepted entries of a block are derived. -/
theorem BlockEntry.allDerived_listOfTokens (ts : List Token) {s s' : State} {entries : List BlockEntry}
    (h : (Resolution.entries c (EntryOutline.listOfTokens names endPos ts)).run s = (.ok entries, s')) :
    BlockEntry.AllDerived .full ts entries := by
  cases ts with
  | nil =>
    rw [EntryOutline.listOfTokens] at h
    cases h
    exact .nil
  | cons t rest =>
    rw [EntryOutline.listOfTokens] at h
    split at h
    · rename_i hsemicolon
      exact .semicolon hsemicolon (BlockEntry.allDerived_listOfTokens rest h)
    · -- a closure
      rename_i hopening
      generalize hstop : (Span.find? .semicolon (t :: rest)).getD (rest.length + 1) = stop at h
      obtain ⟨tree, trees, mid, rfl, hfirst, hrest⟩ := Resolution.entries_cons_ok h
      obtain ⟨f, rfl, hfunction⟩ := Resolution.entry_closure_ok hfirst
      have hderived := FunctionDef.derived_ofTokens _ hfunction
      have hentries := BlockEntry.allDerived_listOfTokens _ hrest
      have hsplit := Span.eq_append_separator hstop
      cases stop with
      | zero =>
        rcases hsplit with ⟨hnil, _⟩ | ⟨semicolon, hsemicolon, heq⟩
        · cases hnil
        · cases heq
          rw [hsemicolon] at hopening
          cases hopening
      | succ n =>
        rw [List.take_succ_cons] at hsplit hderived
        rcases hsplit with ⟨hall, hnone⟩ | ⟨semicolon, hsemicolon, heq⟩
        · rw [hnone, EntryOutline.listOfTokens] at hrest
          cases hrest
          rw [hall]
          exact .openClosure rfl hderived
        · rw [heq]
          exact .closure hderived hsemicolon hentries
    · -- an operator and its value
      rename_i op hoperator
      split at h
      · obtain ⟨_, _, _, _, hfirst, _⟩ := Resolution.entries_cons_ok h
        rw [Resolution.entry] at hfirst
        cases hfirst
      rename_i extent hextent
      obtain ⟨semicolon, hsemicolon, hplain, hguarded⟩ := EntryExtent.eq_append endPos hextent
      obtain ⟨tree, trees, mid, rfl, hfirst, hrest⟩ := Resolution.entries_cons_ok h
      cases hquestion : extent.question? with
      | none =>
        rw [hquestion] at hfirst
        obtain ⟨value, rfl, hvalue⟩ := Resolution.entry_operator_ok hfirst
        rw [hplain hquestion]
        exact .operator hoperator (Expr.derived_ofTokens _ hvalue) hsemicolon
          (BlockEntry.allDerived_listOfTokens _ hrest)
      | some q =>
        rw [hquestion] at hfirst
        obtain ⟨value, guard, mid', rfl, hvalue, hguard⟩ := Resolution.entry_guarded_ok hfirst
        obtain ⟨question, hmark, hsplit⟩ := hguarded q hquestion
        rw [hsplit]
        exact .guarded hoperator (Expr.derived_ofTokens _ hvalue) hmark (Expr.derived_ofTokens _ hguard) hsemicolon
          (BlockEntry.allDerived_listOfTokens _ hrest)
    · obtain ⟨_, _, _, _, hfirst, _⟩ := Resolution.entries_cons_ok h
      rw [Resolution.entry] at hfirst
      cases hfirst
termination_by 3 * ts.length + 1
decreasing_by
  all_goals
    subst_vars
    simp only [List.length_take, List.length_drop, List.length_cons]
    omega

/-- The tokens of an accepted function definition are derived. -/
theorem FunctionDef.derived_ofTokens (ts : List Token) {s s' : State} {f : FunctionDef}
    (h : (Resolution.function c (FunctionOutline.ofTokens names endPos ts)).run s = (.ok f, s')) :
    FunctionDef.Derived .full ts f := by
  cases ts with
  | nil =>
    rw [FunctionOutline.ofTokens, Resolution.function] at h
    cases h
  | cons opening rest =>
    obtain ⟨hopening, header, n, hread, houtline⟩ := Resolution.definition_ok names endPos h
    rw [houtline] at h
    obtain ⟨body, _, _, _, rfl, _, _, hbody, _⟩ := Resolution.function_ok h
    have hderived := Expr.derived_ofTokens _ hbody
    obtain ⟨name, paramTokens, closing, bodyTokens, hrest, hn, hname, hpos, hopen, hclosing, hparams⟩ :=
      readHeader_derived names endPos hread
    have hdrop : rest.drop n = bodyTokens := by
      rw [hrest, hn, List.drop_succ_cons, List.drop_append]
      simp
    rw [hdrop] at hderived
    rw [hrest, hpos, hopen]
    exact .function hopening hname hparams hclosing hderived
termination_by 3 * ts.length
decreasing_by
  subst_vars
  simp only [List.length_drop, List.length_cons]
  omega

end

/-! ### Items -/

/-- A definition whose body is no block is cut out up to a token that ends its body. -/
theorem FunctionDef.ends {opening : Token} {rest : List Token} {s s' : State} {f : FunctionDef}
    (h : (Resolution.function c (FunctionOutline.ofTokens names endPos
      (opening :: rest.take (functionLength opening rest)))).run s = (.ok f, s')) (hbody : f.body.isBlock = false) :
    (FunctionOutline.ofTokens names endPos (opening :: rest.take (functionLength opening rest))).hasBlock = false ∧
      (rest.drop (functionLength opening rest)).head?.all endsBody = true := by
  obtain ⟨hopening, header, n, hread, houtline⟩ := Resolution.definition_ok names endPos h
  rw [houtline] at h ⊢
  obtain ⟨body, _, _, _, rfl, _, _, hexpr, _⟩ := Resolution.function_ok h
  have hplain : (Outline.ofTokens names endPos ((rest.take (functionLength opening rest)).drop n)).isBlock = false := by
    by_contra hblock
    rw [Bool.not_eq_false] at hblock
    have hblock' := Resolution.isBlock_of_expr_ok hexpr hblock
    rw [hbody] at hblock'
    cases hblock'
  refine ⟨hplain, ?_⟩
  rcases functionLength_ends names endPos hopening hread with hcurly | hends
  · rw [Outline.isBlock_ofTokens names endPos hcurly] at hplain
    cases hplain
  · exact hends

/-- The items of a source that is read without a further error are derived. -/
theorem Item.allDerived_listOfTokens (ts : List Token) {s s' : State} {items : List Item}
    (h : (Resolution.items c (ItemOutline.listOfTokens names endPos ts)).run s = (.ok items, s'))
    (herrors : s'.journal.errorCount ≤ s.journal.errorCount) : Item.AllDerived .full ts items := by
  fun_induction ItemOutline.listOfTokens names endPos ts generalizing s items with
  | case1 =>
    cases h
    exact .nil
  | case2 t rest hsemicolon ih => exact .semicolon (of_decide_eq_true hsemicolon) (ih h herrors)
  | case3 t rest _ _ n definition after unended? =>
    rename_i skip ih
    obtain ⟨tree, trees, mid, rfl, _, hitem, hitems, hfirst, hlast⟩ := Resolution.items_cons_ok h herrors
    have hunended := Resolution.item_function_ended hitem (Nat.le_of_eq hfirst)
    obtain ⟨f, mid', rfl, hfunction, _⟩ := Resolution.item_function_ok hitem
    have hderived := FunctionDef.derived_ofTokens names endPos _ hfunction
    have hafter := Item.AllDerived.after_definition (ih hitems (Nat.le_of_eq hlast.symm))
    have hends (hbody : f.body.isBlock = false) : ∀ u ∈ (rest.drop n).head?, u.kind = .symbol .semicolon := by
      intro u hu
      obtain ⟨hplain, hends⟩ := FunctionDef.ends names endPos hfunction hbody
      -- The bracket of another definition would have been reported.
      have hother : u.isSymbol (.left .square) = false := by
        have hplain' : ¬definition.hasBlock = true := by
          rw [hplain]
          exact Bool.false_ne_true
        unfold unended? at hunended
        rw [dif_neg hplain', Option.map_eq_none_iff, Option.mem_def.1 hu] at hunended
        simpa using hunended
      rw [Option.mem_def.1 hu, Option.all_some, endsBody, hother, Bool.or_false] at hends
      exact of_decide_eq_true hends
    rw [← List.take_append_drop n rest]
    exact .function hderived hends hafter
  | case4 t rest _ _ semicolon? id hequals hname =>
    obtain ⟨_, _, _, rfl, _, hitem, _⟩ := Resolution.items_cons_ok h herrors
    cases hitem
  | case5 t rest _ _ semicolon? id hequals hname stop hstop tokens =>
    rename_i ih
    obtain ⟨tree, trees, mid, rfl, _, hitem, hitems, hfirst, hlast⟩ := Resolution.items_cons_ok h herrors
    obtain ⟨e, beyond, rfl, _, hexpr, _⟩ := Resolution.item_assignment_ok hitem
    obtain ⟨equals, semicolon, hequals, hsemicolon, hrest⟩ := eq_append_assignment hname hequals hstop
    rw [hrest]
    exact .assignment hname hequals (Expr.derived_ofTokens names endPos _ hexpr) hsemicolon
      (ih hitems (Nat.le_of_eq hlast.symm))
  | case6 t rest _ _ semicolon? =>
    obtain ⟨_, _, _, rfl, _, hitem, _⟩ := Resolution.items_cons_ok h herrors
    cases hitem

/-- The items of a source that is read without a further error are those of the grammar, where a comma may follow the
last parameter and the last argument, and the last closure of a block may be without its semicolon. -/
theorem Item.allDerived_of_program {ts : List Token} {s s' : State} {items : List Item}
    (h : (Resolution.program c (ItemOutline.listOfTokens names endPos ts)).run s = (.ok items, s'))
    (herrors : s'.journal.errorCount = s.journal.errorCount) : Item.AllDerived .full ts items := by
  obtain ⟨trees, mid, hitems, h⟩ := run_bind_ok h
  obtain ⟨⟨⟩, last, hnote, h⟩ := run_bind_ok h
  cases h
  cases hnote
  rw [Journal.errorCount_note] at herrors
  exact Item.allDerived_listOfTokens names endPos ts hitems (Nat.le_of_eq herrors)

/-- A source with a comma after the last parameter and after the last argument, and without a semicolon after the last
closure of a block. -/
def lapsedSource : Source :=
  .ofString "lapsed" "[f a,] \x7b + a; [g x] x \x7d y = f(1,);"

/-- What `lapsedSource` is lexed to. -/
def lapsed : Lexer.Result :=
  Lexer.run lapsedSource {} {}

/-- The parameters and the body of the function in `lapsedSource`. -/
theorem Item.AllDerived.parts_of_lapsed {l : Leniency} {items : List Item}
    (h : Item.AllDerived l lapsed.tokens items) :
    ∃ params bodyTokens us body, Separated Param.Derived l.trailingComma ((lapsed.tokens.drop 2).take 2) params ∧
      bodyTokens ++ us = lapsed.tokens.drop 5 ∧ Expr.Derived l bodyTokens body := by
  have hkind : lapsed.tokens.head?.map Token.kind = some (.symbol (.left .square)) := by decide +kernel
  have hmatch : Span.matching? lapsed.tokens = some 4 := by decide +kernel
  generalize lapsed.tokens = ts at h hkind hmatch ⊢
  cases h with
  | nil => cases hkind
  | semicolon hsemicolon | assignment hsemicolon =>
    rw [List.head?_cons, Option.map_some, hsemicolon] at hkind
    cases hkind
  | @function opening ts us f items function_derived _ _ =>
    cases function_derived with
    | @function _ name closing paramTokens bodyTokens id params scope body hopening hname params_derived hclosing
        body_derived =>
      have hbalanced : Span.Balanced (name :: paramTokens) :=
        .plain (by rw [Token.isLeft, hname]) (by rw [Token.isRight, hname])
          (params_derived.balanced fun _ _ => Param.Derived.balanced)
      rw [List.cons_append, List.append_assoc, List.cons_append] at hmatch ⊢
      rw [← List.cons_append, Span.matching?_pair opening closing hopening hclosing hbalanced] at hmatch
      have hlength : paramTokens.length = 2 := by simpa using hmatch
      refine ⟨params, bodyTokens, us, body, ?_, ?_, body_derived⟩
      · rw [List.drop_succ_cons, List.drop_succ_cons, List.drop_zero, List.take_left' hlength]
        exact params_derived
      · simp [List.drop_append, hlength]

/-- Both allowances are needed for `lapsedSource`. -/
theorem Item.AllDerived.eq_full_of_lapsed {l : Leniency} {items : List Item}
    (h : Item.AllDerived l lapsed.tokens items) : l = .full := by
  obtain ⟨params, bodyTokens, us, body, hparams, htokens, hbody⟩ := h.parts_of_lapsed
  have hcomma : l.trailingComma = true := by
    refine hparams.trailingComma (fun _ _ h => h.getLast?_ne_comma) ?_
    decide +kernel
  have hopen : l.openClosure = true := by
    obtain ⟨hlt, hopening⟩ : ∃ hlt : 5 < lapsed.tokens.length, lapsed.tokens[5].kind = .symbol (.left .curly) := by
      decide +kernel
    obtain ⟨inner, closing, entries, hinner, hclosing, hentries⟩ :=
      hbody.of_left_curly hopening (htokens.trans (List.drop_eq_getElem_cons hlt))
    have honly : ∀ i < (lapsed.tokens.drop 6).length,
        (lapsed.tokens.drop 6)[i]?.any (·.isSymbol (.right .curly)) = true → i = 8 := by
      decide +kernel
    have hclosing' : closing.isSymbol (.right .curly) = true := by rw [Token.isSymbol, hclosing, beq_self_eq_true]
    have hlast : ∃ t ∈ ((lapsed.tokens.drop 6).take 8).getLast?, t.kind ≠ .symbol .semicolon := by decide +kernel
    obtain ⟨t, ht, hne⟩ := hlast
    rw [← Span.eq_take_of_append hinner hclosing' honly] at ht
    exact hentries.openClosure_of_getLast? ht hne
  obtain ⟨trailingComma, openClosure⟩ := l
  cases hcomma
  cases hopen
  rfl

theorem Item.allDerived_of_program_lapsed :
    ∃ items s', (Resolution.program { names := lapsed.names }
        (ItemOutline.listOfTokens lapsed.names lapsed.endPos lapsed.tokens)).run ⟨{}, {}⟩ = (.ok items, s') ∧
      s'.journal.errorCount = 0 ∧ Item.AllDerived .full lapsed.tokens items ∧
      ∀ l, Item.AllDerived l lapsed.tokens items → l = .full := by
  have hfacts : ((Resolution.program { names := lapsed.names }
        (ItemOutline.listOfTokens lapsed.names lapsed.endPos lapsed.tokens)).run ⟨{}, {}⟩).1.toOption.isSome = true ∧
      ((Resolution.program { names := lapsed.names }
        (ItemOutline.listOfTokens lapsed.names lapsed.endPos lapsed.tokens)).run
          ⟨{}, {}⟩).2.journal.errorCount = 0 := by
    decide +kernel
  obtain ⟨hok, herrors⟩ := hfacts
  generalize hrun : (Resolution.program { names := lapsed.names }
    (ItemOutline.listOfTokens lapsed.names lapsed.endPos lapsed.tokens)).run ⟨{}, {}⟩ = r at hok herrors
  obtain ⟨result, s'⟩ := r
  cases result with
  | error e => cases hok
  | ok items =>
    exact ⟨items, s', rfl, herrors, allDerived_of_program lapsed.names lapsed.endPos hrun herrors,
      fun _ => AllDerived.eq_full_of_lapsed⟩

end ToneScript
