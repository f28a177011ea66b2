import ToneScript.Proofs.Compilation.Accepted
import ToneScript.Proofs.Syntax.Isolation

/-! The stages of a compilation, one by one: what each of them takes from the one before it, and how it ends. -/
namespace ToneScript

/-- Whether there is a program at a stage. -/
def Stage.HasProgram : Stage → Prop
  | parsed _ | checked .. => True
  | fresh | lexed .. => False

namespace Compilation

/-- Parses the tokens as `parse` does, with given values for the names of constants or with none. -/
def parseWith (constants? : Compilation → Option (List (Ident × Value))) : Step Bool := do
  if !(← lex) then return false
  let c ← get
  match c.stage with
  | .lexed tokens endPos =>
    let outlines := ItemOutline.listOfTokens c.names endPos tokens
    let context : Resolution.Context := { names := c.names, constants? := constants? c }
    let (result, s) := (Resolution.program context outlines).run ⟨c.table, c.journal⟩
    set { c with table := s.table, journal := s.journal }
    match result with
    | .ok program =>
      finishStage (.parsed program)
      note .info ("parsed " ++ toString program.length ++ " items, "
        ++ toString s.journal.errorCount ++ " error(s)")
    | .error (.defect d) => throw d
    | .error (.refused _) => pure ()
  | _ => pure ()
  succeeded

/-- A compilation parses with the values of its constants at hand. -/
theorem parse_eq_parseWith : parse = parseWith fun c => some c.constants := rfl

theorem isBlocked_congr {c c₀ : Compilation} (hstrict : c.strict = c₀.strict)
    (hissues : c.journal.issues = c₀.journal.issues) : c.isBlocked = c₀.isBlocked := by
  rw [isBlocked, isBlocked, Journal.hasErrors, Journal.hasErrors, Journal.hasWarnings, Journal.hasWarnings,
    Journal.errorCount, Journal.errorCount, Journal.warningCount, Journal.warningCount, Journal.count, Journal.count,
    Journal.count, Journal.count, hstrict, hissues]

/-- Two compilations that were set up in the same way. -/
structure SetAlike (c c₀ : Compilation) : Prop where
  names : c.names = c₀.names
  constants : c.constants = c₀.constants
  intrinsics : c.intrinsics = c₀.intrinsics
  entry : c.entry = c₀.entry
  strict : c.strict = c₀.strict

theorem SetAlike.symm {c c₀ : Compilation} (h : c.SetAlike c₀) : c₀.SetAlike c :=
  ⟨h.names.symm, h.constants.symm, h.intrinsics.symm, h.entry.symm, h.strict.symm⟩

theorem SetAlike.trans {c c₁ c₂ : Compilation} (h : c.SetAlike c₁) (h' : c₁.SetAlike c₂) : c.SetAlike c₂ :=
  ⟨h.names.trans h'.names, h.constants.trans h'.constants, h.intrinsics.trans h'.intrinsics,
    h.entry.trans h'.entry, h.strict.trans h'.strict⟩

/-- A compilation that has come out of a stage, with a table and issues, and may go on unless these keep it from it. -/
structure Ended (c c' : Compilation) (table : SymbolTable) (issues : List Issue) (stage : Stage) : Prop where
  same : c' = { c with table, stage, journal := c'.journal, failed := c'.failed }
  issues : c'.journal.issues = issues
  failed : c'.failed = c'.isBlocked

section Ended

variable {c c' : Compilation} {table : SymbolTable} {issues : List Issue} {stage : Stage}

theorem Ended.setAlike (h : Ended c c' table issues stage) : c'.SetAlike c := by
  rw [h.same]
  exact ⟨rfl, rfl, rfl, rfl, rfl⟩

theorem Ended.table_eq (h : Ended c c' table issues stage) : c'.table = table := by
  rw [h.same]

theorem Ended.stage_eq (h : Ended c c' table issues stage) : c'.stage = stage := by
  rw [h.same]

end Ended

section Stages

variable {α β : Type} {c c' lexed : Compilation}

theorem run_get_bind (f : Compilation → Step β) (c : Compilation) : (get >>= f).run c = (f c).run c := rfl

theorem run_set_bind (f : PUnit → Step β) (c c' : Compilation) : (set c' >>= f).run c = (f ⟨⟩).run c' := rfl

/-- What lexing leaves of a compilation. It may go on unless issues keep it from it. -/
theorem lex_run (hfresh : c.stage = .fresh) :
    ∃ lexed tokens endPos, lex.run c = (.ok (!lexed.failed), lexed) ∧ lexed.stage = .lexed tokens endPos ∧
      lexed.table = c.table ∧ lexed.strict = c.strict ∧ lexed.failed = lexed.isBlocked := by
  rw [lex, run_get_bind, hfresh]
  refine ⟨_, _, _, rfl, rfl, rfl, rfl, ?_⟩
  exact isBlocked_congr rfl (Journal.issues_note _ _ _ _).symm

theorem lex_done (h : c.stage ≠ .fresh) : lex.run c = (.ok (!c.failed), c) := by
  obtain ⟨_, _, _, _, _, _, _, _, stage, _⟩ := c
  cases stage with
  | fresh => exact absurd rfl h
  | lexed | parsed | checked => rfl

theorem parseWith_run (constants? : Compilation → Option (List (Ident × Value))) (hlex : lex.run c = (.ok true, lexed))
    {tokens : List Token} {endPos : Position} (hstage : lexed.stage = .lexed tokens endPos) {program : Program}
    {s : Resolution.State}
    (hitems : (Resolution.items { names := lexed.names, constants? := constants? lexed }
      (ItemOutline.listOfTokens lexed.names endPos tokens)).run ⟨lexed.table, lexed.journal⟩ = (.ok program, s)) :
    ∃ parsed, (parseWith constants?).run c = (.ok (!parsed.failed), parsed) ∧
      Ended lexed parsed s.table s.journal.issues (.parsed program) := by
  let journal := s.journal.note .debug "parser" ("parsed " ++ toString program.length ++ " items")
  have hprogram : (Resolution.program { names := lexed.names, constants? := constants? lexed }
      (ItemOutline.listOfTokens lexed.names endPos tokens)).run ⟨lexed.table, lexed.journal⟩ =
      (.ok program, { s with journal }) := by
    rw [Resolution.program, run_bind, hitems]
    rfl
  rw [parseWith, run_bind, hlex]
  dsimp only
  rw [if_neg (by decide), run_get_bind, hstage]
  dsimp only
  rw [hprogram]
  dsimp only
  rw [run_set_bind]
  refine ⟨_, rfl, rfl, ?_, ?_⟩
  · exact (Journal.issues_note _ _ _ _).trans (Journal.issues_note _ _ _ _)
  · exact isBlocked_congr rfl (Journal.issues_note _ _ _ _).symm

/-- What is parsed, or cannot be, is not parsed again. -/
theorem parse_done (hstage : c.stage ≠ .fresh) (hdone : c.failed = false → c.stage.HasProgram) :
    parse.run c = (.ok (!c.failed), c) := by
  rw [parse, run_bind, lex_done hstage]
  dsimp only
  cases hfailed : c.failed with
  | true => rfl
  | false =>
    have hprogram := hdone hfailed
    rw [if_neg (by decide), run_get_bind]
    cases hread : c.stage with
    | fresh | lexed =>
      rw [hread] at hprogram
      cases hprogram
    | parsed | checked =>
      show succeeded.run c = _
      rw [← hfailed]
      rfl

/-- Tokens are always parsed to the end. -/
theorem parse_run (hlex : lex.run c = (.ok true, lexed)) {tokens : List Token} {endPos : Position}
    (hstage : lexed.stage = .lexed tokens endPos) :
    ∃ program s parsed, (Resolution.items { names := lexed.names, constants? := some lexed.constants }
        (ItemOutline.listOfTokens lexed.names endPos tokens)).run ⟨lexed.table, lexed.journal⟩ = (.ok program, s) ∧
      parse.run c = (.ok (!parsed.failed), parsed) ∧
      Ended lexed parsed s.table s.journal.issues (.parsed program) := by
  obtain ⟨program, s, hitems⟩ := Resolution.exists_items { names := lexed.names, constants? := some lexed.constants }
    (ItemOutline.listOfTokens lexed.names endPos tokens) ⟨lexed.table, lexed.journal⟩
  obtain ⟨parsed, hparse, hended⟩ := parseWith_run (fun c => some c.constants) hlex hstage hitems
  exact ⟨program, s, parsed, hitems, parse_eq_parseWith ▸ hparse, hended⟩

theorem parse_refused (h : lex.run c = (.ok false, c')) : parse.run c = (.ok false, c') := by
  rw [parse, run_bind, h]
  rfl

theorem parse_congr (h : lex.run c = lex.run c') : parse.run c = parse.run c' := by
  rw [parse, run_bind, run_bind, h]

theorem typecheck_congr (h : parse.run c = parse.run c') : typecheck.run c = typecheck.run c' := by
  rw [typecheck, run_bind, run_bind, h]

theorem compile_congr (h : typecheck.run c = typecheck.run c') : compile.run c = compile.run c' := by
  rw [compile, run_bind, run_bind, h]

theorem typecheck_refused (h : parse.run c = (.ok false, c')) : typecheck.run c = (.ok false, c') := by
  rw [typecheck, run_bind, h]
  rfl

section Check

variable {parsed : Compilation} {program : Program} (hparse : parse.run c = (.ok true, parsed))
  (hstage : parsed.stage = .parsed program)

include hparse hstage

theorem typecheck_defect {d : Defect}
    (hcheck : (parsed.checkProgram program).run ⟨parsed.table, parsed.journal, parsed.builtinTyping, 0⟩ = .error d) :
    typecheck.run c = (.error d, parsed) := by
  rw [typecheck, run_bind, hparse]
  dsimp only
  rw [if_neg (by decide), run_get_bind, hstage]
  dsimp only
  rw [hcheck]
  rfl

theorem typecheck_run {s : Check.State}
    (hcheck : (parsed.checkProgram program).run ⟨parsed.table, parsed.journal, parsed.builtinTyping, 0⟩ = .ok ((), s)) :
    ∃ checked, typecheck.run c = (.ok (!checked.failed), checked) ∧
      Ended parsed checked s.table s.journal.issues (.checked program s.typing) := by
  rw [typecheck, run_bind, hparse]
  dsimp only
  rw [if_neg (by decide), run_get_bind, hstage]
  dsimp only
  rw [hcheck]
  dsimp only
  rw [run_set_bind]
  refine ⟨_, rfl, rfl, ?_, ?_⟩
  · exact Journal.issues_note _ _ _ _
  · exact isBlocked_congr rfl (Journal.issues_note _ _ _ _).symm

end Check

end Stages

section Compile

variable {c c' : Compilation}

theorem issues_noteAll (remarks : List Log.Remark) (c : Compilation) :
    ∃ journal, (noteAll remarks).run c = (.ok (), { c with journal }) ∧ journal.issues = c.journal.issues := by
  refine ⟨_, rfl, ?_⟩
  generalize c.journal = j
  induction remarks generalizing j with
  | nil => rfl
  | cons r remarks ih => exact (ih _).trans (Journal.issues_note _ _ _ _)

theorem compile_refused (h : typecheck.run c = (.ok false, c')) : compile.run c = (.ok none, c') := by
  rw [compile, run_bind, h]
  rfl

theorem compile_defect {d : Defect} (h : typecheck.run c = (.error d, c')) : compile.run c = (.error d, c') := by
  rw [compile, run_bind, h]

/-- What the outermost level of a checked program comes to: the function that runs the program, or the issue that says
why there is none. -/
def evaluated (c : Compilation) : Except Issue EntryPoint :=
  match (evaluateItems c.names defaultDepth c.initialGlobals c.program).1 with
  | .error e => .error (e.toIssue c.names)
  | .ok globals =>
    match globals.functions.lookup c.entry.1 with
    | none => .error ⟨.error, none, "entry point `" ++ c.names.name c.entry.1 ++ "` is not defined", []⟩
    | some callable => .ok { name := c.names.name c.entry.1, names := c.names, callable, globals }

/-- The issue that an evaluation reports, if there is no function that runs the program. -/
def evaluationIssues (c : Compilation) : List Issue :=
  match c.evaluated with
  | .error i => [i]
  | .ok _ => []

theorem severity_of_evaluated {i : Issue} (h : c.evaluated = .error i) : i.severity = .error := by
  unfold evaluated at h
  split at h
  · cases h
    rfl
  · split at h <;> cases h
    rfl

/-- Once a program is accepted, compiling evaluates its outermost level and reports what goes wrong there. -/
theorem compile_accepted (h : typecheck.run c = (.ok true, c')) :
    ∃ journal, compile.run c = (.ok c'.evaluated.toOption, { c' with journal }) ∧
      journal.issues = c'.journal.issues ++ c'.evaluationIssues := by
  rw [compile, run_bind, h]
  dsimp only
  rw [if_neg (by decide), run_get_bind, evaluationIssues, evaluated]
  rcases evaluateItems c'.names defaultDepth c'.initialGlobals c'.program with ⟨e | globals, remarks⟩
  · obtain ⟨journal, hnote, hissues⟩ := issues_noteAll remarks c'
    dsimp only
    rw [run_bind, hnote]
    refine ⟨_, rfl, ?_⟩
    rw [Journal.issues_report, hissues]
  · obtain ⟨journal, hnote, hissues⟩ := issues_noteAll remarks c'
    dsimp only
    rw [run_bind, hnote]
    dsimp only
    cases globals.functions.lookup c'.entry.1 with
    | none =>
      refine ⟨_, rfl, ?_⟩
      rw [Journal.issues_report, hissues]
    | some callable =>
      refine ⟨_, rfl, ?_⟩
      rw [Journal.issues_note, hissues, List.append_nil]

/-- What is compiled was accepted before, and evaluated. -/
theorem evaluated_of_compile {e : EntryPoint} (h : compile.run c = (.ok (some e), c')) :
    ∃ checked, typecheck.run c = (.ok true, checked) ∧ checked.evaluated = .ok e := by
  rcases htypecheck : typecheck.run c with ⟨d | _ | _, checked⟩
  · cases h.symm.trans (compile_defect htypecheck)
  · cases h.symm.trans (compile_refused htypecheck)
  · obtain ⟨_, hcompile, _⟩ := compile_accepted htypecheck
    obtain ⟨heq, _⟩ := Prod.mk.inj (h.symm.trans hcompile)
    refine ⟨checked, rfl, ?_⟩
    cases hevaluated : checked.evaluated with
    | error i =>
      rw [hevaluated] at heq
      cases heq
    | ok e' =>
      rw [hevaluated] at heq
      cases heq
      rfl

/-- A program that is evaluated has come to the end of its outermost level, and has its entry point there. -/
theorem evaluated_ok {e : EntryPoint} (h : c.evaluated = .ok e) :
    (evaluateItems c.names defaultDepth c.initialGlobals c.program).1 = .ok e.globals ∧
      e.globals.functions.lookup c.entry.1 = some e.callable ∧ e.names = c.names := by
  unfold evaluated at h
  split at h
  · cases h
  · rename_i globals hglobals
    split at h
    · cases h
    · rename_i callable hlookup
      cases h
      exact ⟨hglobals, hlookup, rfl⟩

/-- A program that cannot be evaluated fails at its outermost level, or has no entry point there. -/
theorem evaluated_error {i : Issue} (h : c.evaluated = .error i) :
    (∃ e, (evaluateItems c.names defaultDepth c.initialGlobals c.program).1 = .error e) ∨
      ∃ globals, (evaluateItems c.names defaultDepth c.initialGlobals c.program).1 = .ok globals ∧
        globals.functions.lookup c.entry.1 = none := by
  unfold evaluated at h
  split at h
  · rename_i e hglobals
    exact .inl ⟨e, hglobals⟩
  · rename_i globals hglobals
    split at h
    · rename_i hlookup
      exact .inr ⟨globals, hglobals, hlookup⟩
    · cases h

end Compile

end Compilation
end ToneScript
