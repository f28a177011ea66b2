import ToneScript.Proofs.Compilation.Accepted
import ToneScript.Proofs.Reference.Checked

/-! A program is read and checked with the same meaning of names. -/
namespace ToneScript

namespace Check

variable {names : NameTable} {T : SymbolTable} {lookups : List Lookup} {known : List FunctionDef}
  {scope : List BlockKey} (hsettled : ∀ v ∈ lookups, v.SettledIn T)
  (hbodies : ∀ f ∈ known, f.body.Obeys (.lookedUp lookups known) f.inside)
include hsettled hbodies

theorem resolveOnce_works (key : FunctionKey) :
    Works names T lookups known scope (keyLookups names key) (resolveOnce names key) fun _ => True := by
  intro s hs _
  unfold resolveOnce keyLookups
  rw [run_bind_eq (show (get : Step State).run s = .ok (s, s) from rfl)]
  rcases hlookup : s.typing.functions.lookup key with _ | ⟨_ | f, _ | _ | signature⟩
  case some.some.pending =>
    obtain ⟨hlooked, signature, s', hrun, hg, hreports⟩ := resolve_works hsettled hbodies key f s hs hlookup
    exact ⟨hlooked, (), s', discard_run hrun, hg, hreports, trivial⟩
  all_goals exact ⟨nofun, (), s, rfl, .refl s, .refl names s, trivial⟩

theorem resolveAll_works (keys : List FunctionKey) :
    Works names T lookups known scope (keysLookups names keys) (resolveAll names keys) fun _ => True := by
  induction keys with
  | nil => exact .pure trivial
  | cons key keys ih => exact .bind (resolveOnce_works hsettled hbodies key) fun _ _ => ih

theorem item_works {s : State} (hs : s.Collected T known) (hframe : s.table.frame = [rootBlock]) {i : Item}
    (hobeys : i.Obeys (.lookedUp lookups known)) :
    Repeated lookups (itemLookups names i s) ∧ ∃ s', (item names i).run s = .ok ((), s') ∧
      s.Reports names s' ∧ s'.table.frame = [rootBlock] := by
  cases i with
  | function f pos =>
    obtain ⟨hlooked, _, s', hrun, hg, hreports, _⟩ := resolveOnce_works hsettled hbodies f.key s hs hframe
    exact ⟨hlooked, s', hrun, hreports, hg.table ▸ hframe⟩
  | assignment name value pos =>
    obtain ⟨hlooked, ty, s₁, hrun, hg, hreports, _⟩ :=
      Works.expr hsettled (resolve_works hsettled hbodies) none value hobeys.2 s hs hframe
    refine ⟨hlooked, ?_⟩
    rw [item, run_bind_eq hrun]
    split
    · refine ⟨_, rfl, hreports, ?_⟩
      show (s₁.table.setTypeIn rootBlock name ty).frame = [rootBlock]
      rw [SymbolTable.frame_setTypeIn, hg.table, hframe]
    · exact ⟨s₁, rfl, hreports, hg.table ▸ hframe⟩

theorem items_work {s : State} (hs : s.Collected T known) (hframe : s.table.frame = [rootBlock])
    {is : List Item} (hplain : s.typing.functions.Plain) (hawaits : s.Awaits is)
    (hobeys : Program.Obeys (.lookedUp lookups known) is) :
    Repeated lookups (itemsLookups names is s) ∧ ∃ s', (items names is).run s = .ok ((), s') ∧
      s.Reports names s' ∧ s'.Collected T known ∧ s'.table.frame = [rootBlock] := by
  induction is generalizing s with
  | nil => exact ⟨nofun, s, rfl, .refl names s, hs, hframe⟩
  | cons i is ih =>
    obtain ⟨hitem, hitems⟩ := List.forall_mem_cons.1 hobeys
    obtain ⟨hlooked, s₁, hrun, hreports, hframe₁⟩ := item_works hsettled hbodies hs hframe hitem
    obtain ⟨hevolves, hawaits₁⟩ := item_evolves hs.framed hplain hawaits hrun
    obtain ⟨hlooked', s₂, hrun', hreports', hs₂, hframe₂⟩ :=
      ih (hs.evolve hevolves) hframe₁ (hevolves.functions.plain hplain) hawaits₁ hitems
    rw [itemsLookups, following_eq hrun, items, run_bind_eq hrun]
    exact ⟨List.forall_mem_append.2 ⟨hlooked, hlooked'⟩, s₂, hrun', hreports.trans hreports', hs₂, hframe₂⟩

/-- The check of a program of which all functions have been collected. -/
theorem program_works {s start : State} {program : Program} (hstart : start = { s with
      typing := (program.flatMap Item.definitions).foldl Typing.addDefinition s.typing })
    (hs : start.Collected T known) (hframe : start.table.frame = [rootBlock])
    (hplain : start.typing.functions.Plain) (hawaits : start.Awaits program)
    (hobeys : program.Obeys (.lookedUp lookups known)) :
    Repeated lookups (programLookups names program s) ∧
      ∃ s', (Check.program names program).run s = .ok ((), s') ∧ s.Reports names s' ∧
        s'.Collected T known ∧ s'.table.frame = [rootBlock] := by
  have hcollect : (modifyTyping fun t =>
      (program.flatMap Item.definitions).foldl Typing.addDefinition t).run s = .ok ((), start) := by
    rw [hstart]
    rfl
  obtain ⟨hlooked, mid, hitems, hreports, hmid, hframe'⟩ :
      Repeated lookups (itemsLookups names program start) ∧ ∃ mid, (items names program).run start = .ok ((), mid) ∧
        start.Reports names mid ∧ mid.Collected T known ∧ mid.table.frame = [rootBlock] :=
    items_work hsettled hbodies hs hframe hplain hawaits hobeys
  have hall : Works names T lookups known [rootBlock] _ (resolveAll names (mid.typing.functions.map Prod.fst)) _ :=
    resolveAll_works hsettled hbodies _
  obtain ⟨hlooked', _, s', hkeys, hg, hreports', _⟩ := hall mid hmid hframe'
  rw [programLookups, following_eq hcollect, following_eq hitems]
  refine ⟨List.forall_mem_append.2 ⟨hlooked, hlooked'⟩, ?_⟩
  unfold Check.program
  rw [run_bind_eq hcollect, run_bind_eq hitems,
    run_bind_eq (show (get : Step State).run mid = .ok (mid, mid) from rfl), run_bind_eq hkeys]
  refine ⟨_, rfl, fun i hi => ?_, hmid.grow ⟨hg.table, ?_, hg.poisoned, hg.functions⟩, hg.table ▸ hframe'⟩
  · rw [Journal.issues_note] at hi
    have hall := hreports.trans hreports' i hi
    rwa [hstart] at hall
  · exact hg.journal.trans (.note _ _ _ _)

theorem entryPoint_works (name : Ident) (expected : FunctionType) :
    Works names T lookups known scope (entryPointLookups names name) (entryPoint names name expected)
      fun _ => True := by
  intro s hs hframe
  have hreport (pos? : Option Position) {e : TypeError} (he : e.isUndefined = false) :
      Works names T lookups known scope (fun _ => []) (do reportAt names pos? e; return false : Step Bool)
        fun _ => True :=
    .last (.reportAt pos? he) fun _ _ => .pure trivial
  unfold entryPoint entryPointLookups
  rw [run_bind_eq (show (get : Step State).run s = .ok (s, s) from rfl)]
  cases hfind : s.table.find? rootBlock name with
  | none => exact hreport none rfl s hs hframe
  | some d =>
    simp only
    by_cases hbuiltin : d.builtin = true
    · rw [if_pos hbuiltin, if_pos (.inl hbuiltin)]
      exact hreport none rfl s hs hframe
    by_cases hfunction : d.isFunction = true
    · rw [if_neg hbuiltin, if_neg (by simp [hbuiltin, hfunction]), if_neg (by simp [hfunction])]
      refine Works.last (Works.signatureOf? (resolve_works hsettled hbodies) d) (fun signature? _ => ?_) s hs hframe
      cases signature? with
      | none => exact .pure trivial
      | some signature => exact .reported _ rfl (.reported _ rfl (.pure trivial))
    · rw [if_neg hbuiltin, if_pos (by simp [hfunction]), if_pos (by simp [hfunction])]
      exact hreport (some d.pos) rfl s hs hframe

end Check

namespace Compilation

/-- The lookups while a source is read. -/
def parseLookups (c : Compilation) : List Lookup :=
  match lex.run c with
  | (.ok true, lexed) =>
    match lexed.stage with
    | .lexed tokens endPos =>
      Resolution.itemsLookups { names := lexed.names, constants? := some lexed.constants }
        (ItemOutline.listOfTokens lexed.names endPos tokens) ⟨lexed.table, lexed.journal⟩
    | _ => []
  | _ => []

/-- What a program is checked with after it has been read. -/
def checkStart (c : Compilation) : Check.State :=
  ⟨c.table, c.journal, c.builtinTyping, 0⟩

/-- The lookups while a program is checked that has been read. -/
def checkLookups (c : Compilation) : List Lookup :=
  Check.programLookups c.names c.program c.checkStart ++
    Check.following (Check.program c.names c.program) (fun _ s =>
      if s.journal.hasErrors then [] else Check.entryPointLookups c.names c.entry.1 s) c.checkStart

theorem builtinsOnly_builtinTyping (c : Compilation) : c.builtinTyping.BuiltinsOnly := by
  intro key info hlookup
  obtain ⟨definition?, progress⟩ := info
  cases definition? with
  | none => rfl
  | some f =>
    obtain ⟨_, _, hmem⟩ := (untouched c []).pending key f progress hlookup
    cases hmem

/-- The check of the items of a program that has been read. -/
theorem checkItems_works {c : Compilation} {lookups : List Lookup} {size : Nat} {constants : List (Ident × Value)}
    (hsettled : ∀ v ∈ lookups, v.SettledIn c.table)
    (hobeys : c.program.Obeys (.lookedUp lookups (c.program.flatMap Item.definitions)))
    (hreading : c.table.Reading [rootBlock] size) (hplaced : Item.AllPlaced constants c.table 0 size c.program) :
    Check.Repeated lookups (Check.programLookups c.names c.program c.checkStart) ∧
      ∃ s, (Check.program c.names c.program).run c.checkStart = .ok ((), s) ∧ c.checkStart.Reports c.names s ∧
        s.Collected c.table (c.program.flatMap Item.definitions) ∧ s.table.frame = [rootBlock] := by
  have hbodies (f : FunctionDef) (hf : f ∈ c.program.flatMap Item.definitions) :=
    Program.bodies_obey hobeys f (Program.definitions_subset _ hf)
  let start : Check.State := { c.checkStart with
    typing := (c.program.flatMap Item.definitions).foldl Typing.addDefinition c.builtinTyping }
  have hawaits : start.Awaits c.program := Check.awaits_of_reading hreading hplaced
  have hgathers : start.Gathers (c.program.flatMap Item.definitions ++ []) :=
    (Check.gathers_nil (Check.framed_of_reading hreading) (builtinsOnly_builtinTyping c)).addDefinitions _
  rw [List.append_nil] at hgathers
  have hcollected : start.Collected c.table (c.program.flatMap Item.definitions) :=
    ⟨hgathers, .refl _ _⟩
  have hplain := (untouched c (c.program.flatMap Item.definitions)).plain
  exact Check.program_works hsettled hbodies (show start = _ from rfl) hcollected hreading.frame hplain hawaits hobeys

/-- The check of a program that has been read. -/
theorem checkProgram_works {c : Compilation} {lookups : List Lookup} {size : Nat} {constants : List (Ident × Value)}
    (hsettled : ∀ v ∈ lookups, v.SettledIn c.table)
    (hobeys : c.program.Obeys (.lookedUp lookups (c.program.flatMap Item.definitions)))
    (hreading : c.table.Reading [rootBlock] size) (hplaced : Item.AllPlaced constants c.table 0 size c.program) :
    Check.Repeated lookups c.checkLookups ∧
      ∃ s, (c.checkProgram c.program).run c.checkStart = .ok ((), s) ∧ c.checkStart.Reports c.names s := by
  have hbodies (f : FunctionDef) (hf : f ∈ c.program.flatMap Item.definitions) :=
    Program.bodies_obey hobeys f (Program.definitions_subset _ hf)
  obtain ⟨hlooked, s, hprogram, hreports, hs, hframe⟩ := checkItems_works hsettled hobeys hreading hplaced
  have hworks : Check.Works c.names c.table lookups (c.program.flatMap Item.definitions) [rootBlock] _
      (Check.entryPoint c.names c.entry.1 c.entry.2) _ := Check.entryPoint_works hsettled hbodies _ _
  obtain ⟨hlooked', _, s', hentry, _, hreports', _⟩ := hworks s hs hframe
  rw [checkLookups, Check.following_eq hprogram]
  unfold checkProgram
  rw [Check.run_bind_eq hprogram, Check.run_bind_eq (show (get : Check.Step Check.State).run s = .ok (s, s) from rfl)]
  by_cases herrors : s.journal.hasErrors = true
  · simp only [herrors]
    exact ⟨List.forall_mem_append.2 ⟨hlooked, nofun⟩, s, rfl, hreports⟩
  · simp only [herrors]
    exact ⟨List.forall_mem_append.2 ⟨hlooked, hlooked'⟩, s', Check.discard_run hentry, hreports.trans hreports'⟩

/-- The names of a program that is read without an error, and where it has come to stand. -/
theorem parse_lookups {c c' : Compilation} {accepted : Bool} {program : Program} (hfresh : c.stage = .fresh)
    (hstarts : c.Starts) (hsize : c.source.text.length < UInt64.size) (h : parse.run c = (.ok accepted, c'))
    (hstage : c'.stage = .parsed program) (hclean : c'.journal.errorCount = 0) :
    (∀ v ∈ c.parseLookups, v.SettledIn c'.table) ∧
      (∀ known, program.functions ⊆ known → program.Obeys (.lookedUp c.parseLookups known)) ∧
      c'.table.Reading [rootBlock] c.source.text.length ∧
      Item.AllPlaced c.constants c'.table 0 c.source.text.length program := by
  obtain ⟨lexed, tokens, endPos, program', journal, hlex, hlexed, hread, hstage', hconstants', _, _, hjournal, _⟩ :=
    parse_parts h hfresh (.inr ⟨program, hstage⟩)
  cases hstage.symm.trans hstage'
  obtain ⟨htable, hconstants, _, _, endPos', hlexed'⟩ := lex_ok hfresh hlex
  cases hlexed.symm.trans hlexed'
  have herrors : journal.errorCount = 0 := hjournal.symm.trans hclean
  have hwithin := ItemOutline.allWithin_listOfTokens lexed.names endPos hsize _
    (Lexer.ordered_run c.source c.names c.journal hsize)
  have hreading : lexed.table.Reading [rootBlock] 0 := htable ▸ hstarts.reading
  obtain ⟨hsettled, hobeys⟩ := Resolution.items_lookups rfl rfl hsize hwithin hreading hread herrors
  obtain ⟨hreading', _, hplaced⟩ := parse_placed hfresh hstarts hsize h hstage hclean
  have hlookups : c.parseLookups = Resolution.itemsLookups
      { names := lexed.names, constants? := some lexed.constants }
      (ItemOutline.listOfTokens lexed.names endPos (Lexer.run c.source c.names c.journal).tokens)
      ⟨lexed.table, lexed.journal⟩ := by
    unfold parseLookups
    rw [hlex]
    simp only [hlexed]
  rw [hlookups]
  refine ⟨hsettled c'.table (.refl _ _), fun known => hobeys _ known (List.Subset.refl _),
    hreading', ?_⟩
  rw [← hconstants, ← hconstants']
  exact hplaced c'.table (.refl _ _)

/-- Names mean the same where a source is read and where it is checked, if it is read without an error and no
function is defined in a guard. Every name that is looked up while the source is read has the same declaration
in the finished table. Every variable, every name alone that is an argument and every function that is called
has been looked up in the place where it stands. Whatever is looked up during the check, wherever a function is
called from, has been looked up before and the same is found; no name is reported as undefined. -/
theorem lookups_agree {source : Source} {intrinsics : Bool} {main? : Option (String × FunctionType)}
    {strict accepted : Bool} {c : Compilation} {program : Program}
    (hsize : source.text.length < UInt64.size)
    (hparse : parse.run (prepared source intrinsics main? strict) = (.ok accepted, c))
    (hstage : c.stage = .parsed program) (hclean : c.journal.hasErrors = false)
    (hguards : program.Obeys .unguarded) :
    (∀ v ∈ (prepared source intrinsics main? strict).parseLookups, v.SettledIn c.table) ∧
      program.Obeys (.lookedUp (prepared source intrinsics main? strict).parseLookups
        (program.flatMap Item.definitions)) ∧
      (∀ u ∈ c.checkLookups, ∃ v ∈ (prepared source intrinsics main? strict).parseLookups, u.Alike v) ∧
      ∃ checked c', typecheck.run (prepared source intrinsics main? strict) = (.ok checked, c') ∧
        ∀ i ∈ c'.journal.issues, i ∈ c.journal.issues ∨
          ∃ e pos?, TypeError.isUndefined e = false ∧ i = e.toIssue c.names pos? := by
  obtain ⟨hsource, hfresh⟩ := prepared_fresh source intrinsics main? strict
  have hstarts := prepared_starts source intrinsics main? strict
  have herrors : c.journal.errorCount = 0 := by simpa [Journal.hasErrors] using hclean
  generalize hc₀ : prepared source intrinsics main? strict = c₀ at hparse hsource hfresh hstarts ⊢
  obtain ⟨hsettled, hlooked, hreading, hplaced⟩ :=
    parse_lookups hfresh hstarts (hsource ▸ hsize) hparse hstage herrors
  have hobeys := hlooked _ (Program.functions_subset hguards)
  have hprogram : c.program = program := by rw [Compilation.program, hstage]
  obtain ⟨hrepeated, s, hcheck, hreports⟩ := checkProgram_works hsettled (by rw [hprogram]; exact hobeys) hreading
    (by rw [hprogram]; exact hplaced)
  rw [hprogram] at hcheck
  refine ⟨hsettled, hobeys, hrepeated, ?_⟩
  unfold typecheck
  rw [run_bind, hparse]
  cases accepted with
  | false => exact ⟨false, c, rfl, fun i hi => .inl hi⟩
  | true =>
    have hget (f : Compilation → Step Bool) : ((get : Step Compilation) >>= f).run c = (f c).run c := rfl
    simp only [Bool.not_true, Bool.false_eq_true, if_false, hget, hstage]
    have hrun : (c.checkProgram program).run ⟨c.table, c.journal, c.builtinTyping, 0⟩ = .ok ((), s) := hcheck
    simp only [hrun]
    refine ⟨_, _, rfl, fun i hi => ?_⟩
    rw [Journal.issues_note] at hi
    exact hreports i hi

/-- A function that is called in a block before the block has a function of that name. -/
def coveredSource : Source :=
  .ofString "covered" "[f x, y] x + y; [main t] \x7b [g y] f(x = t, y); + g(2); [f z] z; + f(t); \x7d"

/-- The compilation of `coveredSource` once it was read. -/
def covered : Compilation :=
  (parse.run (prepared coveredSource true none false)).2

theorem lookups_agree_coveredSource :
    (∀ v ∈ (prepared coveredSource true none false).parseLookups, v.SettledIn covered.table) ∧
      (∀ u ∈ covered.checkLookups, ∃ v ∈ (prepared coveredSource true none false).parseLookups, u.Alike v) ∧
      (prepared coveredSource true none false).parseLookups.length = 9 ∧ covered.checkLookups.length = 9 := by
  have hfacts : (parse.run (prepared coveredSource true none false)).1 = .ok true ∧
      covered.stage.ctorIdx = 2 ∧
      covered.journal.hasErrors = false ∧ covered.program.Obeys .unguarded ∧
      (prepared coveredSource true none false).parseLookups.length = 9 ∧ covered.checkLookups.length = 9 := by
    decide +kernel
  obtain ⟨hok, hstage, hclean, hguards, hread, hchecked⟩ := hfacts
  have hparse : parse.run (prepared coveredSource true none false) = (.ok true, covered) := by
    unfold covered
    generalize parse.run (prepared coveredSource true none false) = r at hok ⊢
    exact Prod.ext hok rfl
  cases hprogram : covered.stage with
  | parsed program =>
    have hsame : covered.program = program := by rw [Compilation.program, hprogram]
    obtain ⟨hsettled, _, hrepeated, _⟩ := lookups_agree (by decide) hparse hprogram hclean (hsame ▸ hguards)
    exact ⟨hsettled, hrepeated, hread, hchecked⟩
  | fresh | lexed | checked => simp [hprogram, Stage.ctorIdx] at hstage

end Compilation
end ToneScript
