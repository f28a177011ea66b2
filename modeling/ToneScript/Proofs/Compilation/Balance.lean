import ToneScript.Proofs.Compilation.Phases
import ToneScript.Proofs.Reference.Agreement
import ToneScript.Proofs.Scope.Frames
import ToneScript.Proofs.Syntax.Definitions
import ToneScript.Proofs.Syntax.Derivation

/-! Blocks that are entered are left again, on every path through the reading and the check of a program, and no request
to a compilation ends in a defect. -/
namespace ToneScript

namespace Compilation

variable {c parsed : Compilation}

theorem ready_checkStart {c : Compilation} (hframed : c.table.Framed) : c.checkStart.Ready :=
  Check.State.ready_of_builtinsOnly hframed (builtinsOnly_builtinTyping c)

/-- The check of a program and of its entry point, in two parts, the second of which is left out after an error. -/
theorem exists_checkProgram (c : Compilation) {program : Program} {s : Check.State} (hs : s.Ready)
    (hcollects : program.Collects) :
    ∃ mid s', (Check.program c.names program).run s = .ok ((), mid) ∧
      (c.checkProgram program).run s = .ok ((), s') ∧ s.table.SameBlocks mid.table ∧
      s.journal.GainsErrors mid.journal ∧ mid.journal.GainsErrors s'.journal ∧
      (mid.journal.hasErrors = true → s' = mid) := by
  obtain ⟨mid, hprogram, hblocks, hjournal, known, hmid, hclosed⟩ := Check.exists_program c.names hs hcollects
  obtain ⟨_, last, hentry, hg⟩ := Check.entryPoint_completes c.names hclosed c.entry.1 c.entry.2 mid hmid
  rw [checkProgram, Check.run_bind_eq hprogram,
    Check.run_bind_eq (show (get : Check.Step Check.State).run mid = .ok (mid, mid) from rfl)]
  cases herrors : mid.journal.hasErrors with
  | true => exact ⟨mid, mid, hprogram, rfl, hblocks, hjournal, .refl _, fun _ => rfl⟩
  | false => exact ⟨mid, last, hprogram, Check.discard_run hentry, hblocks, hjournal, hg.journal, by simp [herrors]⟩

/-- What a check starts from: a program of which all functions are collected, and a table with a current block. -/
theorem exists_program_of_parse (hfresh : c.stage = .fresh) (hframed : c.table.Framed)
    (hparse : parse.run c = (.ok true, parsed)) (hguards : parsed.program.Obeys .unguarded) :
    ∃ program, parsed.stage = .parsed program ∧ parsed.table.Framed ∧ program.Collects := by
  obtain ⟨lexed, tokens, endPos, hlex, hstage, htable, _, _⟩ := lex_run hfresh
  cases hfailed : lexed.failed with
  | true =>
    rw [hfailed] at hlex
    cases (parse_refused hlex).symm.trans hparse
  | false =>
    rw [hfailed] at hlex
    obtain ⟨program, s, parsed', hitems, hparse', hended⟩ := parse_run hlex hstage
    obtain ⟨haccepted, rfl⟩ := Prod.mk.inj (hparse.symm.trans hparse')
    have hblocks : lexed.table.SameBlocks s.table := by
      have hkept := Resolution.Balanced.law.items { names := lexed.names, constants? := some lexed.constants }
        (ItemOutline.listOfTokens lexed.names endPos tokens) ⟨lexed.table, lexed.journal⟩
        (by rw [htable]; exact hframed)
      rw [hitems] at hkept
      exact hkept
    have hclean : s.journal.errorCount ≤ lexed.journal.errorCount := by
      have hopen : parsed.failed = false := by simpa using (Except.ok.inj haccepted).symm
      rw [← Journal.errorCount_congr hended.issues, errorCount_of_isBlocked (hended.failed.symm.trans hopen)]
      exact Nat.zero_le _
    have hderived := Item.allDerived_listOfTokens lexed.names endPos tokens hitems hclean
    have hprogram : parsed.program = program := by rw [Compilation.program, hended.stage_eq]
    refine ⟨program, hended.stage_eq, ?_, hderived.collects (hprogram ▸ hguards)⟩
    rw [hended.table_eq]
    exact hblocks.framed (by rw [htable]; exact hframed)

/-- Whether a source defines no function in a guard, if it is read without an error. -/
def Unguarded (c : Compilation) : Prop :=
  ∀ parsed, parse.run c = (.ok true, parsed) → parsed.program.Obeys .unguarded

/-- A request to check ends in no defect. -/
theorem exists_typecheck (hfresh : c.stage = .fresh) (hframed : c.table.Framed) (hguards : c.Unguarded) :
    ∃ accepted checked, typecheck.run c = (.ok accepted, checked) := by
  obtain ⟨parsed, hparse, _, _⟩ := exists_parsed c
  cases hfailed : parsed.failed with
  | true =>
    rw [hfailed] at hparse
    exact ⟨false, parsed, typecheck_refused hparse⟩
  | false =>
    rw [hfailed] at hparse
    obtain ⟨program, hstage, hframed', hcollects⟩ :=
      exists_program_of_parse hfresh hframed hparse (hguards parsed hparse)
    obtain ⟨_, s, _, hcheck, _⟩ := exists_checkProgram parsed (ready_checkStart hframed') hcollects
    obtain ⟨checked, htypecheck, _⟩ := typecheck_run hparse hstage hcheck
    exact ⟨_, checked, htypecheck⟩

/-- No request ends in a defect, whatever was asked for before. -/
theorem run_serveAll (hfresh : c.stage = .fresh) (hframed : c.table.Framed) (hguards : c.Unguarded)
    (before : List Request) (r : Request) : (r.run (serveAll before c)).1 = .ok () := by
  obtain ⟨accepted, checked, htypecheck⟩ := exists_typecheck hfresh hframed hguards
  obtain ⟨answer, _, hanswer, hrests⟩ := exists_rests c
  cases htypecheck.symm.trans hanswer
  have hagain := typecheck_serveAll htypecheck hrests before
  exact run_of_typecheck (Prod.ext hagain rfl) r

theorem prepared_framed (source : Source) (intrinsics : Bool) (main? : Option (String × FunctionType))
    (strict : Bool) : (prepared source intrinsics main? strict).table.Framed :=
  Check.framed_of_reading (prepared_starts source intrinsics main? strict).reading

/-- Definitions, expressions and whole programs are read with the active blocks as they were in the end, wherever the
reading stops, from every table with a block in its current frame. So is every program checked that is read without an
error and defines no function in a guard, by a check that knows built-in functions only or has been used for such
programs before; and then no request to a compilation, in whatever order, ends in a defect. -/
theorem blocks_kept :
    (∀ (c : Resolution.Context) (endPos : Position) (ts : List Token),
      let program := Resolution.program c (ItemOutline.listOfTokens c.names endPos ts)
      let function := Resolution.function c (FunctionOutline.ofTokens c.names endPos ts)
      let expr := Resolution.expr c (Outline.ofTokens c.names endPos ts)
      (Resolution.Balanced program ∧ Resolution.Balanced function ∧ Resolution.Balanced expr) ∧
      (Resolution.Level program ∧ Resolution.Level function ∧ Resolution.Level expr) ∧
      ∀ s items s', program.run s = (.ok items, s') → s'.journal.errorCount = s.journal.errorCount →
        Program.Obeys .unguarded items → ∀ (names : NameTable) (start : Check.State), start.Ready →
          ∃ last, (Check.program names items).run start = .ok ((), last) ∧ start.table.SameBlocks last.table ∧
            last.Ready) ∧
    (∀ start : Check.State, start.table.Framed → start.typing.BuiltinsOnly → start.Ready) ∧
    ∀ source intrinsics main? strict, (prepared source intrinsics main? strict).Unguarded →
      ∀ before r, (Request.run r (serveAll before (prepared source intrinsics main? strict))).1 = .ok () := by
  refine ⟨fun c endPos ts => ⟨⟨?_, ?_, ?_⟩, ⟨?_, ?_, ?_⟩, ?_⟩, fun _ => Check.State.ready_of_builtinsOnly, ?_⟩
  · exact Resolution.Balanced.law.program c _
  · exact Resolution.Balanced.law.function c _
  · exact Resolution.Balanced.law.expr c _
  · exact Resolution.Level.law.program c _
  · exact Resolution.Level.law.function c _
  · exact Resolution.Level.law.expr c _
  · intro s items s' hrun herrors hguards names start hready
    obtain ⟨mid, hitems, _, hissues⟩ := Resolution.program_ok hrun
    have hclean : mid.journal.errorCount ≤ s.journal.errorCount := by
      rw [← herrors, Journal.errorCount_congr hissues]
    have hcollects := (Item.allDerived_listOfTokens c.names endPos ts hitems hclean).collects hguards
    obtain ⟨last, hprogram, hblocks, _, hlast⟩ := Check.exists_program names hready hcollects
    exact ⟨last, hprogram, hblocks, hlast⟩
  · intro source intrinsics main? strict hguards before r
    exact run_serveAll (prepared_fresh source intrinsics main? strict).2
      (prepared_framed source intrinsics main? strict) hguards before r

/-- A function without parameters. -/
def constantFunction : Lexer.Result :=
  Lexer.run (.ofString "constant" "[f] 1") {} {}

/-- A frame that was entered without a block is over when a block in it is left. -/
theorem not_forall_sameBlocks :
    ¬ ∀ (c : Resolution.Context) (endPos : Position) (ts : List Token) (s : Resolution.State),
      s.table.SameBlocks ((Resolution.function c (FunctionOutline.ofTokens c.names endPos ts)).run s).2.table := by
  intro h
  have hframes := (h { names := constantFunction.names } constantFunction.endPos constantFunction.tokens
    ⟨({} : SymbolTable).enterScope [], {}⟩).frames
  revert hframes
  decide +kernel

/-- A function within a function that uses a name that is not defined. -/
def brokenFunction : Lexer.Result :=
  Lexer.run (.ofString "broken" "[f x] \x7b [g y] \x7b + y; + nowhere; \x7d; + g(x); \x7d") {} {}

/-- Functions within functions. -/
def layeredSource : Source :=
  .ofString "layered" "[f x] \x7b [g y] \x7b [h z] z + y; + h(x); \x7d; + g(x); \x7d [main t] f(t)"

/-- What `layeredSource` is lexed to. -/
def layered : Lexer.Result :=
  Lexer.run layeredSource {} {}

theorem blocks_kept_layeredSource :
    let t := SymbolTable.performAll {} [.enterBlock 10, .enterScope [rootBlock, 30] (List.cons_ne_nil _ _)]
    let broken := (Resolution.function { names := brokenFunction.names }
      (FunctionOutline.ofTokens brokenFunction.names brokenFunction.endPos brokenFunction.tokens)).run ⟨t, {}⟩
    (broken.1.isOk = false ∧ t.SameBlocks broken.2.table) ∧
    (∃ items s' last, (Resolution.program { names := layered.names }
        (ItemOutline.listOfTokens layered.names layered.endPos layered.tokens)).run ⟨{}, {}⟩ = (.ok items, s') ∧
      (Check.program layered.names items).run ⟨t, {}, {}, 0⟩ = .ok ((), last) ∧ t.SameBlocks last.table) ∧
    ∀ before r, (Request.run r (serveAll before (prepared layeredSource true none false))).1 = .ok () := by
  intro t broken
  have hframed : t.Framed := (SymbolTable.represents_fresh.performAll _).framed
  have hrefused : broken.1.isOk = false := by decide +kernel
  obtain ⟨hread, hready, hrequests⟩ := blocks_kept
  refine ⟨⟨hrefused, ?_⟩, ?_, ?_⟩
  · obtain ⟨⟨_, hfunction, _⟩, _⟩ := hread { names := brokenFunction.names } brokenFunction.endPos brokenFunction.tokens
    exact hfunction ⟨t, {}⟩ hframed
  · obtain ⟨_, _, hcheck⟩ := hread { names := layered.names } layered.endPos layered.tokens
    have hfacts : ((Resolution.program { names := layered.names }
          (ItemOutline.listOfTokens layered.names layered.endPos layered.tokens)).run ⟨{}, {}⟩).1.toOption.any
            (fun items => decide (Program.Obeys .unguarded items)) = true ∧
        ((Resolution.program { names := layered.names }
          (ItemOutline.listOfTokens layered.names layered.endPos layered.tokens)).run ⟨{}, {}⟩).2.journal.errorCount =
            ({} : Journal).errorCount := by
      decide +kernel
    obtain ⟨hguards, herrors⟩ := hfacts
    generalize hrun : (Resolution.program { names := layered.names }
      (ItemOutline.listOfTokens layered.names layered.endPos layered.tokens)).run ⟨{}, {}⟩ = r at hguards herrors
    obtain ⟨result, s'⟩ := r
    cases result with
    | error e => cases hguards
    | ok items =>
      obtain ⟨last, hlast, hblocks, _⟩ := hcheck ⟨{}, {}⟩ items s' hrun herrors (of_decide_eq_true hguards) layered.names
        ⟨t, {}, {}, 0⟩ (hready _ hframed fun _ _ hlookup => by cases hlookup)
      exact ⟨items, s', last, rfl, hlast, hblocks⟩
  · refine hrequests layeredSource true none false fun parsed hparse => ?_
    have hguards : (parse.run (prepared layeredSource true none false)).2.program.Obeys .unguarded := by decide +kernel
    rwa [hparse] at hguards

end Compilation
end ToneScript
