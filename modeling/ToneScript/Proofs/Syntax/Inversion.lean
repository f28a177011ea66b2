import ToneScript.Outline.OfTokens
import ToneScript.Proofs.Syntax.Journal
import ToneScript.Proofs.Text.Brackets

/-! What reading did where it went well, by the shape of what was read: the steps that were taken, one after another, and
what came of them. -/
namespace ToneScript.Resolution

variable {c : Context} {s s' : State}

/-! ### Names -/

theorem note_ok {level : Log.Level} {module message : String} {u : Unit}
    (h : (note level module message).run s = (.ok u, s')) : s'.table = s.table := by
  cases h
  rfl

theorem compile_ok {pos : Position} {cells : List Cell} {compiled : Compiled}
    (h : (compile pos cells).run s = (.ok compiled, s')) :
    ∃ sequence, compiled = ⟨sequence, pos⟩ ∧ Postfix.convert cells = .ok sequence ∧ s'.table = s.table := by
  obtain ⟨sequence, s₁, haccept, h⟩ := run_bind_ok h
  obtain ⟨hconvert, hsame⟩ := accept_ok haccept
  obtain ⟨⟨⟩, s₂, hnote, h⟩ := run_bind_ok h
  cases h
  exact ⟨sequence, rfl, hconvert, by rw [note_ok hnote, hsame]⟩

/-- The cell of a name: the value of a built-in one that is replaced, and else a slot. -/
theorem variableCell_ok {id : Ident} {pos : Position} {cell : Cell}
    (h : (variableCell c id pos).run s = (.ok cell, s')) :
    s' = s ∧ ∃ d crossed, s.table.lookupBefore? id pos.index = some (d, crossed) ∧
      ((∃ v, constant? c d id = some v ∧ cell = .value v pos) ∨ constant? c d id = none ∧ cell = .slot id pos) := by
  unfold variableCell at h
  obtain ⟨_, _, hget, h⟩ := run_bind_ok h
  cases hget
  simp only at h
  split at h
  · cases h
  · rename_i d crossed hlookup
    split at h
    · rename_i v hvalue
      cases h
      exact ⟨rfl, d, crossed, hlookup, .inl ⟨v, hvalue, rfl⟩⟩
    · rename_i hvalue
      cases h
      exact ⟨rfl, d, crossed, hlookup, .inr ⟨hvalue, rfl⟩⟩

theorem checkCallee_ok {id : Ident} {pos : Position} {u : Unit}
    (h : (checkCallee c id pos).run s = (.ok u, s')) :
    s' = s ∧ (c.anyCallee = false → ∃ d, s.table.callee? id pos.index = some d) := by
  unfold checkCallee at h
  obtain ⟨_, _, hget, h⟩ := run_bind_ok h
  cases hget
  simp only at h
  split at h
  · cases h
  · rename_i hfound
    cases h
    refine ⟨rfl, fun hcallee => ?_⟩
    rw [hcallee] at hfound
    exact Option.ne_none_iff_exists'.1 (by simpa using hfound)

theorem checkNew_ok {id : Ident} {pos : Position} {u : Unit} (h : (checkNew c id pos).run s = (.ok u, s')) :
    s' = s ∧ s.table.find? s.table.currentBlock id = none := by
  unfold checkNew at h
  obtain ⟨_, _, hget, h⟩ := run_bind_ok h
  cases hget
  simp only at h
  split at h
  · rename_i hnone
    cases h
    exact ⟨rfl, hnone⟩
  · split at h <;> cases h

/-! ### Arithmetic expressions and calls -/

theorem cells_cons_ok {term : Term} {terms : List Term} {result : List Cell}
    (h : (cells c (term :: terms)).run s = (.ok result, s')) :
    ∃ x xs mid, result = x :: xs ∧ (cell c term).run s = (.ok x, mid) ∧ (cells c terms).run mid = (.ok xs, s') := by
  rw [cells] at h
  obtain ⟨x, mid, hfirst, h⟩ := run_bind_ok h
  obtain ⟨xs, s₂, hrest, h⟩ := run_bind_ok h
  cases h
  exact ⟨x, xs, mid, rfl, hfirst, hrest⟩

/-- Terms with a flawed one in front are not read. -/
theorem cells_flawed {e : SyntaxError} {terms : List Term} {result : List Cell}
    (h : (cells c (.flawed e :: terms)).run s = (.ok result, s')) : False := by
  obtain ⟨_, _, _, _, hfirst, _⟩ := cells_cons_ok h
  rw [cell] at hfirst
  cases hfirst

theorem cells_name_ok {id : Ident} {pos : Position} {result : List Cell}
    (h : (cells c [.name id pos]).run s = (.ok result, s')) :
    ∃ cell, result = [cell] ∧ (variableCell c id pos).run s = (.ok cell, s') := by
  obtain ⟨x, xs, mid, rfl, hfirst, hrest⟩ := cells_cons_ok h
  rw [cell] at hfirst
  cases hrest
  exact ⟨x, rfl, hfirst⟩

theorem cell_call_ok {id : Ident} {args : List ArgumentOutline} {pos : Position} {x : Cell}
    (h : (cell c (.call id args pos)).run s = (.ok x, s')) :
    ∃ args' site, x = .call site ∧ (checkCallee c id pos).run s = (.ok (), s) ∧
      (arguments c (c.names.name id) args).run s = (.ok args', s') ∧
      callSite (c.names.name id) id args' pos = .ok site := by
  rw [cell] at h
  obtain ⟨⟨⟩, mid, hcallee, h⟩ := run_bind_ok h
  obtain ⟨args', s₁, hargs, h⟩ := run_bind_ok h
  obtain ⟨site, s₂, hsite, h⟩ := run_bind_ok h
  have hsame := (checkCallee_ok hcallee).1
  obtain ⟨hcall, hsame'⟩ := accept_ok hsite
  cases h
  rw [hsame] at hcallee hargs
  rw [← hsame'] at hargs
  exact ⟨args', site, rfl, hcallee, hargs, hcall⟩

theorem arguments_cons_ok {callee : String} {item : ArgumentOutline} {items : List ArgumentOutline}
    {result : List SiteArgument} (h : (arguments c callee (item :: items)).run s = (.ok result, s')) :
    ∃ arg args mid, result = arg :: args ∧ (argument c callee item).run s = (.ok arg, mid) ∧
      (arguments c callee items).run mid = (.ok args, s') := by
  rw [arguments] at h
  obtain ⟨arg, mid, hfirst, h⟩ := run_bind_ok h
  obtain ⟨args, s₂, hrest, h⟩ := run_bind_ok h
  cases h
  exact ⟨arg, args, mid, rfl, hfirst, hrest⟩

theorem argument_given_ok {callee : String} {form : ArgumentForm} {terms : List Term} {valuePos pos : Position}
    {arg : SiteArgument} (h : (argument c callee (.given form terms valuePos pos)).run s = (.ok arg, s')) :
    ∃ xs mid sequence, arg = argumentOf form ⟨sequence, valuePos⟩ pos ∧ (cells c terms).run s = (.ok xs, mid) ∧
      Postfix.convert xs = .ok sequence ∧ s'.table = mid.table := by
  rw [argument] at h
  obtain ⟨xs, mid, hcells, h⟩ := run_bind_ok h
  obtain ⟨value, s₁, hcompile, h⟩ := run_bind_ok h
  cases h
  obtain ⟨sequence, rfl, hconvert, htable⟩ := compile_ok hcompile
  exact ⟨xs, mid, sequence, rfl, hcells, hconvert, htable⟩

theorem value_argumentOf (form : ArgumentForm) (value : Compiled) (pos : Position) :
    (argumentOf form value pos).value = value := by
  cases form <;> rfl

section Tokens

variable (names : NameTable) (endPos : Position)

/-- Terms that start with a call: its arguments stand in parentheses, and the rest comes after them. -/
theorem cells_call_ok {t opening : Token} {rest : List Token} {afterOperand : Bool} {id : Ident} {result : List Cell}
    (hkind : t.kind = .ident id) (hopening : opening.kind = .symbol (.left .round))
    (h : (cells c (Term.listOfTokens names endPos afterOperand (t :: opening :: rest))).run s = (.ok result, s')) :
    ∃ inner closing after args site xs mid, rest = inner ++ closing :: after ∧
      closing.kind = .symbol (.right .round) ∧ result = .call site :: xs ∧
      (arguments c (c.names.name id) (ArgumentOutline.listOfTokens names endPos inner)).run s = (.ok args, mid) ∧
      callSite (c.names.name id) id args t.pos = .ok site ∧
      (cells c (Term.listOfTokens names endPos true after)).run mid = (.ok xs, s') := by
  have hopen : ((opening :: rest).head?.any (·.isSymbol (.left .round))) = true := by
    rw [List.head?_cons, Option.any_some, Token.isSymbol, hopening, beq_self_eq_true]
  rw [Term.listOfTokens, hkind] at h
  simp only [if_pos hopen] at h
  split at h
  · exact (cells_flawed h).elim
  · rename_i close hclose
    obtain ⟨inner, closing, after, rfl, hclosing, hinner, hafter⟩ := Span.eq_pair_of_matching? hopening hclose
    rw [hinner, hafter] at h
    obtain ⟨x, xs, mid, rfl, hfirst, hrest⟩ := cells_cons_ok h
    obtain ⟨args, site, rfl, _, hargs, hsite⟩ := cell_call_ok hfirst
    exact ⟨inner, closing, after, args, site, xs, mid, rfl, hclosing, rfl, hargs, hsite, hrest⟩

/-- The first of some arguments ends before a comma, unless nothing comes after it. Its value is not empty. -/
theorem arguments_first_ok {callee : String} {t : Token} {rest : List Token} {result : List SiteArgument}
    (h : (arguments c callee (ArgumentOutline.listOfTokens names endPos (t :: rest))).run s = (.ok result, s')) :
    ∃ ts us cells sequence args mid mid', ts.length ≤ rest.length ∧
      (rest = ts ∧ us = [] ∨ ∃ comma : Token, comma.kind = .symbol .comma ∧ rest = ts ++ comma :: us) ∧
      (t :: ts).drop (readForm (t :: ts)).2 ≠ [] ∧
      (Resolution.cells c (Term.listOfTokens names endPos false ((t :: ts).drop (readForm (t :: ts)).2))).run s =
        (.ok cells, mid) ∧
      Postfix.convert cells = .ok sequence ∧
      result = argumentOf (readForm (t :: ts)).1
        ⟨sequence, headPos endPos ((t :: ts).drop (readForm (t :: ts)).2)⟩ t.pos :: args ∧
      (arguments c callee (ArgumentOutline.listOfTokens names endPos us)).run mid' = (.ok args, s') := by
  rw [ArgumentOutline.listOfTokens] at h
  generalize hstop : (Span.find? .comma (t :: rest)).getD (rest.length + 1) = stop at h
  cases stop with
  | zero =>
    obtain ⟨_, _, _, _, hfirst, _⟩ := arguments_cons_ok h
    rw [argument] at hfirst
    cases hfirst
  | succ n =>
    simp only at h
    rw [if_neg n.succ_ne_zero, List.take_succ_cons] at h
    obtain ⟨arg, args, mid', rfl, harg, hrest⟩ := arguments_cons_ok h
    obtain ⟨cells, mid, sequence, rfl, hcells, hconvert, _⟩ := argument_given_ok harg
    have hsplit := Span.eq_append_separator hstop
    simp only [List.take_succ_cons, List.cons_append, List.cons.injEq, true_and] at hsplit
    have hne : (t :: rest.take n).drop (readForm (t :: rest.take n)).2 ≠ [] := by
      intro hnil
      rw [if_pos hnil] at hcells
      exact cells_flawed hcells
    rw [if_neg hne] at hcells
    exact ⟨_, _, cells, sequence, args, mid, mid', List.length_take_le' _ _, hsplit, hne, hcells, hconvert, rfl, hrest⟩

end Tokens

/-! ### Expressions, blocks and definitions -/

theorem expr_conditional_ok {condition thenBranch elseBranch : Outline} {pos : Position} {e : Expr}
    (h : (expr c (.conditional condition thenBranch elseBranch pos)).run s = (.ok e, s')) :
    ∃ e₁ e₂ e₃ s₁ s₂, e = .conditional e₁ e₂ e₃ pos ∧ (expr c condition).run s = (.ok e₁, s₁) ∧
      (expr c thenBranch).run s₁ = (.ok e₂, s₂) ∧ (expr c elseBranch).run s₂ = (.ok e₃, s') := by
  rw [expr] at h
  obtain ⟨e₁, s₁, h₁, h⟩ := run_bind_ok h
  obtain ⟨e₂, s₂, h₂, h⟩ := run_bind_ok h
  obtain ⟨e₃, s₃, h₃, h⟩ := run_bind_ok h
  cases h
  exact ⟨e₁, e₂, e₃, s₁, s₂, rfl, h₁, h₂, h₃⟩

theorem expr_block_ok {items : List EntryOutline} {flaw? : Option SyntaxError} {pos : Position} {e : Expr}
    (h : (expr c (.block items flaw? pos)).run s = (.ok e, s')) :
    ∃ trees mid table, e = .block pos.index trees pos ∧ flaw? = none ∧
      (entries c items).run { s with table := s.table.enterBlock pos.index } = (.ok trees, mid) ∧
      mid.table.leave = .ok table ∧ s' = { mid with table } := by
  rw [expr] at h
  obtain ⟨trees, s₁, hblock, h⟩ := run_bind_ok h
  obtain ⟨mid, table, hentries, hleave, rfl⟩ := inBlock_ok hblock
  cases flaw? with
  | none =>
    cases h
    exact ⟨trees, mid, table, rfl, rfl, hentries, hleave, rfl⟩
  | some flaw => cases h

theorem expr_arithmetic_ok {terms : List Term} {pos : Position} {e : Expr}
    (h : (expr c (.arithmetic terms pos)).run s = (.ok e, s')) :
    ∃ xs mid sequence, (cells c terms).run s = (.ok xs, mid) ∧ Postfix.convert xs = .ok sequence ∧
      (Compiled.mk sequence pos).toExpr = .ok e ∧ s'.table = mid.table := by
  rw [expr] at h
  obtain ⟨xs, mid, hcells, h⟩ := run_bind_ok h
  obtain ⟨compiled, s₁, hcompile, h⟩ := run_bind_ok h
  obtain ⟨sequence, rfl, hconvert, htable⟩ := compile_ok hcompile
  obtain ⟨hexpr, rfl⟩ := accept_ok h
  exact ⟨xs, mid, sequence, hcells, hconvert, hexpr, htable⟩

theorem entries_cons_ok {item : EntryOutline} {items : List EntryOutline} {result : List BlockEntry}
    (h : (entries c (item :: items)).run s = (.ok result, s')) :
    ∃ tree trees mid, result = tree :: trees ∧ (entry c item).run s = (.ok tree, mid) ∧
      (entries c items).run mid = (.ok trees, s') := by
  rw [entries] at h
  obtain ⟨tree, mid, hfirst, h⟩ := run_bind_ok h
  obtain ⟨trees, s₂, hrest, h⟩ := run_bind_ok h
  cases h
  exact ⟨tree, trees, mid, rfl, hfirst, hrest⟩

theorem entry_operator_ok {op : Operator} {value : Outline} {pos : Position} {tree : BlockEntry}
    (h : (entry c (.operator op value none pos)).run s = (.ok tree, s')) :
    ∃ e, tree = .operator op e none pos ∧ (expr c value).run s = (.ok e, s') := by
  rw [entry] at h
  obtain ⟨e, s₁, hvalue, h⟩ := run_bind_ok h
  cases h
  exact ⟨e, rfl, hvalue⟩

theorem entry_guarded_ok {op : Operator} {value guard : Outline} {pos : Position} {tree : BlockEntry}
    (h : (entry c (.operator op value (some guard) pos)).run s = (.ok tree, s')) :
    ∃ e g mid, tree = .operator op e (some g) pos ∧ (expr c value).run s = (.ok e, mid) ∧
      (expr c guard).run mid = (.ok g, s') := by
  rw [entry] at h
  obtain ⟨e, mid, hvalue, h⟩ := run_bind_ok h
  obtain ⟨g, s₂, hguard, h⟩ := run_bind_ok h
  cases h
  exact ⟨e, g, mid, rfl, hvalue, hguard⟩

theorem entry_closure_ok {definition : FunctionOutline} {pos : Position} {tree : BlockEntry}
    (h : (entry c (.closure definition pos)).run s = (.ok tree, s')) :
    ∃ f, tree = .closure f pos ∧ (function c definition).run s = (.ok f, s') := by
  rw [entry] at h
  obtain ⟨f, s₁, hfunction, h⟩ := run_bind_ok h
  cases h
  exact ⟨f, rfl, hfunction⟩

/-- A definition that is read has the header of its outline. It is declared around its body, and its parameters in the
block of the body. -/
theorem function_ok {header : FunctionHeader} {body : Outline} {f : FunctionDef}
    (h : (function c (.defined header body)).run s = (.ok f, s')) :
    ∃ tree s₁ s₂ mid,
      f = ⟨header.name, header.pos, header.params, header.opening.index, s.table.scope, tree⟩ ∧
      (declareFunction c header).run s = (.ok (), s₁) ∧
      (declareParams c header header.params).run
        { s₁ with table := s₁.table.enterBlock header.opening.index } = (.ok (), s₂) ∧
      (expr c body).run s₂ = (.ok tree, mid) ∧ mid.table.leave = .ok s'.table := by
  rw [function] at h
  obtain ⟨_, _, hget, h⟩ := run_bind_ok h
  cases hget
  obtain ⟨⟨⟩, s₁, hdeclare, h⟩ := run_bind_ok h
  obtain ⟨tree, s₃, hblock, h⟩ := run_bind_ok h
  obtain ⟨⟨⟩, s₄, hnote, h⟩ := run_bind_ok h
  cases h
  obtain ⟨mid, table, hinner, hleave, rfl⟩ := inBlock_ok hblock
  obtain ⟨⟨⟩, s₂, hparams, hexpr⟩ := run_bind_ok hinner
  exact ⟨tree, s₁, s₂, mid, rfl, hdeclare, hparams, hexpr, by rw [note_ok hnote]; exact hleave⟩

/-- A definition without a body is not read. -/
theorem function_bodiless {header : FunctionHeader} {e : SyntaxError} {f : FunctionDef}
    (h : (function c (.bodiless header e)).run s = (.ok f, s')) : False := by
  rw [function] at h
  obtain ⟨⟨⟩, s₁, _, h⟩ := run_bind_ok h
  cases h

/-! ### Items -/

theorem item_function_ok {definition : FunctionOutline} {unended? : Option Position} {pos : Position} {tree : Item}
    (h : (item c (.function definition unended? pos)).run s = (.ok tree, s')) :
    ∃ f mid, tree = .function f pos ∧ (function c definition).run s = (.ok f, mid) ∧ s'.table = mid.table := by
  rw [item] at h
  obtain ⟨f, mid, hfunction, h⟩ := run_bind_ok h
  cases unended? with
  | none | some next =>
    cases h
    exact ⟨f, _, rfl, hfunction, rfl⟩

/-- Where a definition leaves no further error behind, what follows it is not the bracket of another one that should
have been parted from it. -/
theorem item_function_ended {definition : FunctionOutline} {unended? : Option Position} {pos : Position} {tree : Item}
    (h : (item c (.function definition unended? pos)).run s = (.ok tree, s'))
    (herrors : s'.journal.errorCount ≤ s.journal.errorCount) : unended? = none := by
  rw [item] at h
  obtain ⟨f, mid, hfunction, h⟩ := run_bind_ok h
  have hquiet := Quiet.law.function c definition s
  rw [hfunction] at hquiet
  cases unended? with
  | none => rfl
  | some next =>
    cases h
    have hreported := Journal.errorCount_report_error mid.journal
      (i := .error next "expected `;` after function body, got `[`") rfl
    simp only at hquiet herrors
    omega

/-- The value of an assignment is read before its name is declared, which is a new one. -/
theorem item_assignment_ok {name : Ident} {value : Outline} {visibleFrom : UInt64} {pos : Position} {tree : Item}
    (h : (item c (.assignment name value visibleFrom pos)).run s = (.ok tree, s')) :
    ∃ e mid, tree = .assignment name e pos ∧ (checkNew c name pos).run s = (.ok (), s) ∧
      (expr c value).run s = (.ok e, mid) ∧ s'.table = mid.table.declare name pos visibleFrom none false := by
  rw [item] at h
  obtain ⟨⟨⟩, s₁, hnew, h⟩ := run_bind_ok h
  obtain ⟨e, mid, hvalue, h⟩ := run_bind_ok h
  obtain ⟨⟨⟩, s₂, hdeclare, h⟩ := run_bind_ok h
  have hsame := (checkNew_ok hnew).1
  cases hdeclare
  cases h
  rw [hsame] at hnew hvalue
  exact ⟨e, mid, rfl, hnew, hvalue, rfl⟩

/-- The tree of a block is one. -/
theorem isBlock_of_expr_ok {o : Outline} {e : Expr} (h : (expr c o).run s = (.ok e, s'))
    (hblock : o.isBlock = true) : e.isBlock = true := by
  cases o with
  | block entries flaw? pos =>
    obtain ⟨trees, mid, table, rfl, _⟩ := expr_block_ok h
    rfl
  | conditional | arithmetic | flawed => cases hblock

end ToneScript.Resolution
