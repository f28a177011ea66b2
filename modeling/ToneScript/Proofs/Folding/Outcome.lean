import ToneScript.Proofs.Compilation.Stages
import ToneScript.Proofs.Folding.Checked
import ToneScript.Proofs.Folding.Evaluated
import ToneScript.Proofs.Run.Program

/-! Compilations that replace names of constants by their values while they parse, beside ones that leave them to be
looked up. Both report the same issues, accept the same programs with the same signatures, and give entry points that
return the same. -/
namespace ToneScript

theorem Program.assigned_fold (values : Valuation) (program : Program) :
    (Program.fold values program).assigned = program.assigned := by
  have hitem (item : Item) : (item.fold values).assigned? = item.assigned? := by cases item <;> rfl
  simp only [Program.assigned, Program.fold, List.filterMap_map, Function.comp_def, hitem]

/-- Where built-in constants are declared with their types, so are the names that stand for them. -/
theorem SymbolTable.Native.bears {t : SymbolTable} {constants : List (Ident × Value)} {intrinsics : List IntrinsicEntry}
    (h : t.Native constants intrinsics) (hproper : ∀ key name d, t.find? key name = some d → d.Proper key) :
    t.Bears (t.constantAt? constants) := by
  intro p name pos v hv
  obtain ⟨_, d, crossed, hresolve, hbuiltin, hv⟩ := constantAt?_eq_some.1 hv
  obtain ⟨key, _, hfind, _⟩ := resolve_some hresolve
  have hkey := (hproper key name d hfind).builtin hbuiltin
  obtain ⟨d', hfind', _, hty⟩ := h.constant name v hv
  subst hkey
  cases hfind.symm.trans hfind'
  exact ⟨d, crossed, hresolve, hbuiltin, (hproper rootBlock name d hfind).block, hty⟩

theorem Journal.hasErrors_congr {j j' : Journal} (h : j.issues = j'.issues) : j.hasErrors = j'.hasErrors := by
  rw [hasErrors, hasErrors, errorCount_congr h]

/-- What there is to see of an entry point: its name, the variables of the outermost level and what it returns. -/
def EntryPoint.behaviour (e : EntryPoint) : String × List (Ident × Value) × (Number → Except EvalError Number) :=
  (e.name, e.globals.values, e.call)

theorem EntryPoint.behaviour_fold {values : Valuation} {e : EntryPoint}
    (hcall : ∀ args,
      Activation.invoke e.names defaultDepth (e.callable.fold values) [e.globals.fold values] args .start =
        Activation.invoke e.names defaultDepth e.callable [e.globals] args .start) :
    EntryPoint.behaviour { e with callable := e.callable.fold values, globals := e.globals.fold values } =
      e.behaviour := by
  have hsame : EntryPoint.call { e with callable := e.callable.fold values, globals := e.globals.fold values } =
      e.call := funext fun time => congrArg (Except.map Value.toNumber) (hcall [.number time])
  rw [behaviour, hsame]
  rfl

namespace Compilation

/-- Parses the tokens and leaves the names of constants to be looked up. -/
def parseUnfolded : Step Bool :=
  parseWith fun _ => none

/-- Two compilations that show the same: the issues, the declarations, the signatures of functions, and whether
something failed. -/
structure Agrees (c c₀ : Compilation) : Prop where
  issues : c.journal.issues = c₀.journal.issues
  table : c.table = c₀.table
  signature : ∀ key, (c.typing?.bind fun typing => typing.signature? key) =
    c₀.typing?.bind fun typing => typing.signature? key
  failed : c.failed = c₀.failed

section Ended

variable {c c' c₀ c₀' : Compilation} {table table₀ : SymbolTable} {issues issues₀ : List Issue} {stage stage₀ : Stage}

/-- Where a stage ends with the same issues and declarations, both may go on or neither. -/
theorem Ended.agree (h : Ended c c' table issues stage) (h₀ : Ended c₀ c₀' table₀ issues₀ stage₀)
    (halike : c.SetAlike c₀) (htable : table = table₀) (hissues : issues = issues₀)
    (hsignature : ∀ key, (c'.typing?.bind fun typing => typing.signature? key) =
      c₀'.typing?.bind fun typing => typing.signature? key) : c'.SetAlike c₀' ∧ c'.Agrees c₀' := by
  have halike' : c'.SetAlike c₀' := h.setAlike.trans (halike.trans h₀.setAlike.symm)
  have hissues' : c'.journal.issues = c₀'.journal.issues := h.issues.trans (hissues.trans h₀.issues.symm)
  refine ⟨halike', hissues', ?_, hsignature, ?_⟩
  · rw [h.table_eq, h₀.table_eq, htable]
  · rw [h.failed, h₀.failed, isBlocked_congr halike'.strict hissues']

end Ended

section Run

variable {c c₀ checked checked₀ : Compilation} {values : Valuation}

/-- Where the outermost level is evaluated alike and the entry point is called alike, so are the entry points. -/
theorem compile_agrees {result : Except GlobalError Frame} {remarks : List Log.Remark}
    (hcheck : typecheck.run c = (.ok true, checked)) (hcheck₀ : typecheck.run c₀ = (.ok true, checked₀))
    (halike : checked.SetAlike checked₀) (hagrees : checked.Agrees checked₀)
    (hitems : evaluateItems checked.names defaultDepth checked.initialGlobals checked.program =
      (result.map (Frame.fold values), remarks))
    (hitems₀ : evaluateItems checked₀.names defaultDepth checked₀.initialGlobals checked₀.program = (result, remarks))
    (hcalls : ∀ globals callable args, result = .ok globals →
      globals.functions.lookup checked₀.entry.1 = some callable →
      Activation.invoke checked₀.names defaultDepth (callable.fold values) [globals.fold values] args .start =
        Activation.invoke checked₀.names defaultDepth callable [globals] args .start) :
    (compile.run c).1.map (Option.map EntryPoint.behaviour) =
        (compile.run c₀).1.map (Option.map EntryPoint.behaviour) ∧
      (compile.run c).2.Agrees (compile.run c₀).2 := by
  obtain ⟨journal, hnote, hissues⟩ := issues_noteAll remarks checked
  obtain ⟨journal₀, hnote₀, hissues₀⟩ := issues_noteAll remarks checked₀
  have hjournal : journal.issues = journal₀.issues := hissues.trans (hagrees.issues.trans hissues₀.symm)
  rw [compile, run_bind, run_bind, hcheck, hcheck₀]
  dsimp only
  rw [if_neg (by decide), run_get_bind, run_get_bind, hitems, hitems₀, halike.names, halike.entry]
  dsimp only
  rw [run_bind, run_bind, hnote, hnote₀]
  dsimp only
  cases result with
  | error e =>
    refine ⟨rfl, { hagrees with issues := ?_ }⟩
    show (journal.report _).issues = (journal₀.report _).issues
    rw [Journal.issues_report, Journal.issues_report, hjournal]
  | ok globals =>
    dsimp only [Except.map]
    rw [Frame.lookup_fold]
    cases hlookup : globals.functions.lookup checked₀.entry.1 with
    | none =>
      refine ⟨rfl, { hagrees with issues := ?_ }⟩
      show (journal.report _).issues = (journal₀.report _).issues
      rw [Journal.issues_report, Journal.issues_report, hjournal]
    | some callable =>
      refine ⟨?_, { hagrees with issues := ?_ }⟩
      · exact congrArg (fun b => Except.ok (some b))
          (EntryPoint.behaviour_fold (e := ⟨checked₀.names.name checked₀.entry.1, checked₀.names, callable, globals⟩)
            fun args => hcalls globals callable args rfl hlookup)
      · show (journal.note _ _ _).issues = (journal₀.note _ _ _).issues
        rw [Journal.issues_note, Journal.issues_note, hjournal]

/-- The frame of the outermost level binds the constants before any item is evaluated. -/
theorem initialGlobals_binds (c : Compilation) (t : SymbolTable) :
    Chain.Binds c.constants t [rootBlock] [c.initialGlobals] := by
  refine .outermost (fun _ _ _ _ => rfl) fun name f hf => ?_
  obtain ⟨i, hi, heq⟩ := List.mem_map.1 (mem_of_lookup hf)
  cases heq

theorem initialGlobals_fold (c : Compilation) : c.initialGlobals.fold values = c.initialGlobals := by
  rw [initialGlobals, Frame.fold, List.map_map]
  rfl

end Run

section Program

variable {folded plain : Compilation} {program : Program} {size : Nat}

/-- A program that has been read in both ways, from where the check starts. -/
structure Reads (folded plain : Compilation) (program : Program) (size : Nat) : Prop where
  alike : folded.SetAlike plain
  agrees : folded.Agrees plain
  stage : folded.stage = .parsed (Program.fold (plain.table.constantAt? plain.constants) program)
  stage₀ : plain.stage = .parsed program
  failed : plain.failed = false
  reading : plain.table.Reading [rootBlock] size
  native : plain.table.Native plain.constants plain.intrinsics
  placed : Item.AllPlaced plain.constants plain.table 0 size
    (Program.fold (plain.table.constantAt? plain.constants) program)

theorem Reads.atRoot (h : Reads folded plain program size) :
    Check.Parallel.AtRoot (plain.table.constantAt? plain.constants) program.assigned plain.table where
  framed := Check.framed_of_reading h.reading
  frame := h.reading.frame
  bears := h.native.bears h.reading.tidy.proper
  source := by
    intro name hname d hd
    rw [← Program.assigned_fold (plain.table.constantAt? plain.constants)] at hname
    obtain ⟨d', hd', hsource, _⟩ := h.placed.assigned.2 name hname
    cases hd.symm.trans hd'
    exact hsource

theorem builtinTyping_fold (values : Valuation) (c : Compilation) :
    c.builtinTyping.functions.fold values = c.builtinTyping.functions := by
  rw [functions_builtinTyping]
  suffices h : ∀ t : FunctionTable, t.fold values = t →
      (c.intrinsics.foldl (fun (t : FunctionTable) i =>
        t.insert (rootBlock, i.name) ⟨none, .resolved (.ofBuiltin (.ofNumbers i.params .number))⟩) t).fold values =
      c.intrinsics.foldl (fun (t : FunctionTable) i =>
        t.insert (rootBlock, i.name) ⟨none, .resolved (.ofBuiltin (.ofNumbers i.params .number))⟩) t from h [] rfl
  induction c.intrinsics with
  | nil => exact fun t ht => ht
  | cons i intrinsics ih =>
    intro t ht
    refine ih _ ?_
    rw [← FunctionTable.insert_fold, ht]
    rfl

theorem checkProgram_parallel (c : Compilation) (values : Valuation) (program : Program) :
    Check.Parallel values (Check.Parallel.AtRoot values program.assigned)
      (c.checkProgram (Program.fold values program)) (c.checkProgram program) := by
  refine .bind (.program c.names program) fun _ => .inspect fun s s₀ halike _ => ?_
  rw [Journal.hasErrors_congr halike.issues]
  exact .branch (.discard (.entryPoint c.names c.entry.1 c.entry.2)) (.pure _)

theorem SetAlike.checkProgram (h : folded.SetAlike plain) (program : Program) :
    folded.checkProgram program = plain.checkProgram program := by
  rw [Compilation.checkProgram, Compilation.checkProgram, h.names, h.entry]

/-- Both programs are checked alike. -/
theorem Reads.check (h : Reads folded plain program size) :
    Check.Ends (plain.table.constantAt? plain.constants)
      (Check.Parallel.AtRoot (plain.table.constantAt? plain.constants) program.assigned)
      ((folded.checkProgram (Program.fold (plain.table.constantAt? plain.constants) program)).run
        ⟨folded.table, folded.journal, folded.builtinTyping, 0⟩)
      ((plain.checkProgram program).run ⟨plain.table, plain.journal, plain.builtinTyping, 0⟩) := by
  have hbuiltin : folded.builtinTyping = plain.builtinTyping := by
    rw [builtinTyping, builtinTyping, h.alike.intrinsics]
  rw [h.alike.checkProgram, h.agrees.table, hbuiltin]
  refine checkProgram_parallel plain _ program _ _ ⟨rfl, h.agrees.issues, rfl, ?_, rfl, rfl⟩ h.atRoot
  exact (builtinTyping_fold _ plain).symm

/-- Both programs, once they are accepted, are evaluated to the same and give entry points that do the same. -/
theorem Reads.run (h : Reads folded plain program size) {checked checked₀ : Compilation}
    (htypes : typecheck.run folded = (.ok true, checked)) (htypes₀ : typecheck.run plain = (.ok true, checked₀))
    (halike : checked.SetAlike checked₀) (hagrees : checked.Agrees checked₀)
    (hconstants : checked₀.constants = plain.constants)
    (hprogram : checked.program = Program.fold (plain.table.constantAt? plain.constants) program)
    (hprogram₀ : checked₀.program = program) :
    (compile.run folded).1.map (Option.map EntryPoint.behaviour) =
        (compile.run plain).1.map (Option.map EntryPoint.behaviour) ∧
      (compile.run folded).2.Agrees (compile.run plain).2 := by
  have hglobals : checked.initialGlobals = checked₀.initialGlobals := by
    rw [initialGlobals, initialGlobals, halike.constants, halike.intrinsics]
  have hbinds : Chain.Binds plain.constants plain.table [rootBlock] [checked₀.initialGlobals] := by
    rw [← hconstants]
    exact initialGlobals_binds _ _
  obtain ⟨hitems, hbinds'⟩ := evaluateItems_fold checked₀.names defaultDepth program hbinds h.placed
  rw [initialGlobals_fold] at hitems
  rcases hrun : evaluateItems checked₀.names defaultDepth checked₀.initialGlobals program with ⟨result, remarks⟩
  rw [hrun] at hitems hbinds'
  rw [← hprogram, ← hglobals, ← halike.names] at hitems
  rw [← hprogram₀] at hrun
  refine compile_agrees htypes htypes₀ halike hagrees hitems hrun fun globals callable args hok hlookup => ?_
  have hhome := hbinds' globals hok
  exact Activation.context_folds checked₀.names defaultDepth callable _ _ args .start hhome
    fun f heq => hhome.houses checked₀.entry.1 f (heq ▸ hlookup)

/-- Both programs have the same outcome. -/
theorem Reads.agree (h : Reads folded plain program size) :
    (typecheck.run folded).1 = (typecheck.run plain).1 ∧ (typecheck.run folded).2.Agrees (typecheck.run plain).2 ∧
      (compile.run folded).1.map (Option.map EntryPoint.behaviour) =
        (compile.run plain).1.map (Option.map EntryPoint.behaviour) ∧
      (compile.run folded).2.Agrees (compile.run plain).2 := by
  have hparse := parse_done (c := folded) (by simp [h.stage]) fun _ => h.stage ▸ trivial
  have hparse₀ := parse_done (c := plain) (by simp [h.stage₀]) fun _ => h.stage₀ ▸ trivial
  rw [h.agrees.failed, h.failed] at hparse
  rw [h.failed] at hparse₀
  have hends := h.check
  generalize hcheck : (folded.checkProgram _).run _ = r at hends
  generalize hcheck₀ : (plain.checkProgram program).run _ = r₀ at hends
  cases hends with
  | error d =>
    have htypes := typecheck_defect hparse h.stage hcheck
    have htypes₀ := typecheck_defect hparse₀ h.stage₀ hcheck₀
    rw [htypes, htypes₀, compile_defect htypes, compile_defect htypes₀]
    exact ⟨rfl, h.agrees, rfl, h.agrees⟩
  | @ok _ s s₀ hstate _ =>
    obtain ⟨checked, htypes, hended⟩ := typecheck_run hparse h.stage hcheck
    obtain ⟨checked₀, htypes₀, hended₀⟩ := typecheck_run hparse₀ h.stage₀ hcheck₀
    have hsignature (key : FunctionKey) : (checked.typing?.bind fun typing => typing.signature? key) =
        checked₀.typing?.bind fun typing => typing.signature? key := by
      rw [typing?, typing?, hended.stage_eq, hended₀.stage_eq]
      show s.typing.functions.signature? key = s₀.typing.functions.signature? key
      rw [hstate.functions, FunctionTable.signature?_fold]
    obtain ⟨halike, hagrees⟩ := hended.agree hended₀ h.alike hstate.table hstate.issues hsignature
    rw [htypes, htypes₀, hagrees.failed]
    refine ⟨rfl, hagrees, ?_⟩
    cases hfailed : checked₀.failed with
    | true =>
      rw [hagrees.failed, hfailed] at htypes
      rw [hfailed] at htypes₀
      rw [compile_refused htypes, compile_refused htypes₀]
      exact ⟨rfl, hagrees⟩
    | false =>
      rw [hagrees.failed, hfailed] at htypes
      rw [hfailed] at htypes₀
      refine h.run htypes htypes₀ halike hagrees hended₀.setAlike.constants ?_ ?_
      · rw [Compilation.program, hended.stage_eq]
      · rw [Compilation.program, hended₀.stage_eq]

/-- The tokens of a source are parsed in both ways to the same issues and declarations, and where these are no errors,
to programs that differ in the names of constants. -/
theorem parse_tokens {c lexed : Compilation} (hlex : lex.run c = (.ok true, lexed)) {tokens : List Token}
    {endPos : Position} (hstage : lexed.stage = .lexed tokens endPos)
    (hwithin : ItemOutline.AllWithin 0 size (ItemOutline.listOfTokens lexed.names endPos tokens))
    (hsize : size < UInt64.size) (hreading : lexed.table.Reading [rootBlock] 0)
    (hnative : lexed.table.Native lexed.constants lexed.intrinsics) :
    ∃ folded plain, parse.run c = (.ok (!plain.failed), folded) ∧ parseUnfolded.run c = (.ok (!plain.failed), plain) ∧
      folded.Agrees plain ∧ folded.stage ≠ .fresh ∧ plain.stage ≠ .fresh ∧
      (plain.failed = false → ∃ program, Reads folded plain program size) := by
  let context : Resolution.Context := { names := lexed.names, constants? := some lexed.constants }
  let outlines := ItemOutline.listOfTokens lexed.names endPos tokens
  obtain ⟨trees, s, hitems⟩ := Resolution.exists_items context outlines ⟨lexed.table, lexed.journal⟩
  obtain ⟨trees₀, s₀, hitems₀⟩ := Resolution.exists_items context.unfolded outlines ⟨lexed.table, lexed.journal⟩
  -- The states are alike whether or not there were errors; how the trees are related is known only without any.
  have hstate : s.Alike s₀ := (Resolution.Alike.items outlines hwithin).state ⟨rfl, rfl⟩ hitems hitems₀
  obtain ⟨folded, hparse, hended⟩ := parseWith_run (fun c => some c.constants) hlex hstage hitems
  obtain ⟨plain, hparse₀, hended₀⟩ := parseWith_run (fun _ => none) hlex hstage hitems₀
  have hsignature (key : FunctionKey) : (folded.typing?.bind fun typing => typing.signature? key) =
      plain.typing?.bind fun typing => typing.signature? key := by
    rw [typing?, typing?, hended.stage_eq, hended₀.stage_eq]
  obtain ⟨halike, hagrees⟩ := hended.agree hended₀ ⟨rfl, rfl, rfl, rfl, rfl⟩ hstate.table hstate.issues hsignature
  rw [hagrees.failed] at hparse
  refine ⟨folded, plain, hparse, hparse₀, hagrees, by simp [hended.stage_eq], by simp [hended₀.stage_eq],
    fun hplain => ⟨trees₀, ?_⟩⟩
  have herrors₀ : s₀.journal.errorCount = 0 := by
    rw [← Journal.errorCount_congr hended₀.issues]
    exact errorCount_of_isBlocked (hended₀.failed.symm.trans hplain)
  have herrors : s.journal.errorCount = 0 := (Journal.errorCount_congr hstate.issues).trans herrors₀
  obtain ⟨hext, hplaced⟩ := Resolution.items_placed rfl hsize hwithin hreading hitems herrors
  have hfolds := Resolution.items_folds rfl hsize hwithin hreading ⟨rfl, rfl⟩ hitems hitems₀ herrors s.table
    (.refl _ _)
  have htable₀ : plain.table = s.table := hended₀.table_eq.trans hstate.table.symm
  have hconstants₀ := hended₀.setAlike.constants
  constructor
  case alike => exact halike
  case agrees => exact hagrees
  case stage => rw [htable₀, hconstants₀, hended.stage_eq, hfolds]
  case stage₀ => exact hended₀.stage_eq
  case failed => exact hplain
  case reading =>
    rw [htable₀]
    exact hreading.step hext
  case native =>
    rw [htable₀, hconstants₀, hended₀.setAlike.intrinsics]
    exact hnative.later hext.later
  case placed =>
    rw [htable₀, hconstants₀, ← hfolds]
    exact hplaced s.table (.refl _ _)

/-- A source is parsed in both ways to the same, also where it is not parsed because it cannot be cut into tokens. -/
theorem parse_reads {c : Compilation} (hfresh : c.stage = .fresh) (hstarts : c.Starts)
    (hsize : c.source.text.length < UInt64.size) :
    ∃ folded plain, parse.run c = (.ok (!plain.failed), folded) ∧ parseUnfolded.run c = (.ok (!plain.failed), plain) ∧
      folded.Agrees plain ∧ folded.stage ≠ .fresh ∧ plain.stage ≠ .fresh ∧
      (plain.failed = false → ∃ program, Reads folded plain program c.source.text.length) := by
  obtain ⟨lexed, _, _, hlex, _⟩ := lex_run hfresh
  obtain ⟨htable, hconstants, hintrinsics, _, endPos, hstage⟩ := lex_ok hfresh hlex
  cases hfailed : lexed.failed with
  | true =>
    have hparse (constants? : Compilation → Option (List (Ident × Value))) :
        (parseWith constants?).run c = (.ok (!lexed.failed), lexed) := by
      rw [parseWith, run_bind, hlex, hfailed]
      rfl
    refine ⟨lexed, lexed, hparse _, hparse _, ⟨rfl, rfl, fun _ => rfl, rfl⟩, ?_, ?_, ?_⟩
    · simp [hstage]
    · simp [hstage]
    · simp [hfailed]
  | false =>
    rw [hfailed] at hlex
    have hwithin := ItemOutline.allWithin_listOfTokens lexed.names endPos hsize _
      (Lexer.ordered_run c.source c.names c.journal hsize)
    refine parse_tokens hlex hstage hwithin hsize ?_ ?_
    · rw [htable]
      exact hstarts.reading
    · rw [htable, hconstants, hintrinsics]
      exact hstarts.native

end Program

/-- Whether names of constants are replaced by their values while a source is parsed or left to be looked up: the same
issues are reported, the same programs are accepted, with the same signatures, and the outermost level and the entry
point come to the same. -/
theorem compile_unfolded (source : Source) (intrinsics : Bool) (main? : Option (String × FunctionType)) (strict : Bool)
    (hsize : source.text.length < UInt64.size) :
    ∃ accepted folded plain,
      parse.run (prepared source intrinsics main? strict) = (.ok accepted, folded) ∧
      parseUnfolded.run (prepared source intrinsics main? strict) = (.ok accepted, plain) ∧
      folded.Agrees plain ∧
      (typecheck.run (prepared source intrinsics main? strict)).1 = (typecheck.run plain).1 ∧
      (typecheck.run (prepared source intrinsics main? strict)).2.Agrees (typecheck.run plain).2 ∧
      (compile.run (prepared source intrinsics main? strict)).1.map (Option.map EntryPoint.behaviour) =
        (compile.run plain).1.map (Option.map EntryPoint.behaviour) ∧
      (compile.run (prepared source intrinsics main? strict)).2.Agrees (compile.run plain).2 := by
  obtain ⟨hsource, hfresh⟩ := prepared_fresh source intrinsics main? strict
  obtain ⟨folded, plain, hparse, hparse₀, hagrees, hstage, hstage₀, hreads⟩ :=
    parse_reads hfresh (prepared_starts source intrinsics main? strict) (by rw [hsource]; exact hsize)
  refine ⟨_, folded, plain, hparse, hparse₀, hagrees, ?_⟩
  cases hfailed : plain.failed with
  | true =>
    rw [hfailed] at hparse
    have hagain := parse_done hstage₀ (by simp [hfailed])
    rw [hfailed] at hagain
    have htypes := typecheck_refused hparse
    have htypes₀ := typecheck_refused hagain
    rw [htypes, htypes₀, compile_refused htypes, compile_refused htypes₀]
    exact ⟨rfl, hagrees, rfl, hagrees⟩
  | false =>
    obtain ⟨program, h⟩ := hreads hfailed
    have hagain := parse_done hstage fun _ => h.stage ▸ trivial
    rw [hagrees.failed] at hagain
    have htypes := typecheck_congr (hparse.trans hagain.symm)
    rw [htypes, compile_congr htypes]
    exact h.agree

/-- Parameters that have the names of constants, and these constants in a shorthand argument, a guard and a closure. -/
def shadowedSource : Source :=
  .ofString "shadowed" ("turn = tau / 2; [ring pi, width] pi * width; [main t] \x7b [own true] true + pi; + own(t); " ++
    "+ ring(pi, width = t) ? t < turn; * if true : ring(tau, 2) else pi; \x7d")

theorem compile_unfolded_shadowedSource :
    ∃ plain e e₀, parseUnfolded.run (prepared shadowedSource true none false) = (.ok true, plain) ∧
      (compile.run (prepared shadowedSource true none false)).1 = .ok (some e) ∧
      (compile.run plain).1 = .ok (some e₀) ∧ e.globals.values = e₀.globals.values ∧
      ∀ time, e.call time = e₀.call time := by
  have hparsed : (parse.run (prepared shadowedSource true none false)).1 = .ok true := by decide +kernel
  obtain ⟨e, c', hcompile⟩ := exists_compile (c := prepared shadowedSource true none false) (by decide +kernel)
  obtain ⟨accepted, folded, plain, hparse, hplain, _, _, _, hsame, _⟩ :=
    compile_unfolded shadowedSource true none false (by decide +kernel)
  rw [hparse] at hparsed
  cases hparsed
  rw [hcompile] at hsame ⊢
  rcases hresult : (compile.run plain).1 with d | _ | e₀
  · rw [hresult] at hsame
    cases hsame
  · rw [hresult] at hsame
    cases hsame
  · rw [hresult] at hsame
    have hbehaviour : e.behaviour = e₀.behaviour := Option.some.inj (Except.ok.inj hsame)
    obtain ⟨_, hbehaviour⟩ := Prod.mk.inj hbehaviour
    obtain ⟨hvalues, hcall⟩ := Prod.mk.inj hbehaviour
    exact ⟨plain, e, e₀, hplain, rfl, hresult, hvalues, fun time => congrFun hcall time⟩

end Compilation
end ToneScript
