import ToneScript.Proofs.Compilation.Balance

/-! Issues that keep a compilation from going on. A phase after such an issue reports nothing, and a host gets a function
that runs the program exactly if there is none. -/
namespace ToneScript

/-- Whether an issue keeps a compilation from going on: an error does, and so does a warning where warnings count as
errors. -/
def Issue.Gates (strict : Bool) (i : Issue) : Prop :=
  i.severity = .error ∨ strict = true ∧ i.severity = .warning

instance (strict : Bool) (i : Issue) : Decidable (i.Gates strict) :=
  inferInstanceAs (Decidable (_ ∨ _))

namespace Compilation

variable {c c' : Compilation}

theorem isBlocked_iff (c : Compilation) : c.isBlocked = true ↔ ∃ i ∈ c.journal.issues, i.Gates c.strict := by
  have hcount (s : Severity) : 0 < c.journal.count s ↔ ∃ i ∈ c.journal.issues, i.severity = s := by
    rw [Journal.count, List.countP_pos_iff]
    simp only [beq_iff_eq]
  rw [isBlocked, Bool.or_eq_true, Bool.and_eq_true, Journal.hasErrors, Journal.hasWarnings, decide_eq_true_iff,
    decide_eq_true_iff, Journal.errorCount, Journal.warningCount, hcount, hcount]
  constructor
  · rintro (⟨i, hi, herror⟩ | ⟨hstrict, i, hi, hwarning⟩)
    · exact ⟨i, hi, .inl herror⟩
    · exact ⟨i, hi, .inr ⟨hstrict, hwarning⟩⟩
  · rintro ⟨i, hi, herror | ⟨hstrict, hwarning⟩⟩
    · exact .inl ⟨i, hi, herror⟩
    · exact .inr ⟨hstrict, i, hi, hwarning⟩

/-- One compilation comes of another in a phase that adds some issues, and none where issues keep it from going on. -/
structure Adds (c c' : Compilation) (added : List Issue) : Prop where
  issues : c'.journal.issues = c.journal.issues ++ added
  strict : c'.strict = c.strict
  gated : c.isBlocked = true → added = []

theorem Adds.none (c : Compilation) : c.Adds c [] :=
  ⟨(List.append_nil _).symm, rfl, fun _ => rfl⟩

/-- A compilation may go on where a check found no error and could be begun. -/
theorem Adds.hasErrors {added : List Issue} (h : Adds c c' added) (hopen : c.isBlocked = false)
    (herrors : ∀ i ∈ added, i.severity = .error) (hblocked : c'.isBlocked = true) : c'.journal.hasErrors = true := by
  obtain ⟨i, hi, hgates⟩ := (isBlocked_iff c').1 hblocked
  rw [h.issues, List.mem_append] at hi
  rcases hi with hi | hi
  · exact absurd ((isBlocked_iff c).2 ⟨i, hi, h.strict ▸ hgates⟩) (by simp [hopen])
  · rw [Journal.hasErrors, decide_eq_true_iff, Journal.errorCount, Journal.count, List.countP_pos_iff]
    refine ⟨i, ?_, by simp [herrors i hi]⟩
    rw [h.issues]
    exact List.mem_append_right _ hi

/-- One compilation comes of another in phases that add issues one after another. -/
inductive AddsAll : Compilation → List (List Issue) → Compilation → Prop
  | nil (c : Compilation) : AddsAll c [] c
  | cons {c c' c'' : Compilation} {added : List Issue} {rest : List (List Issue)} (h : Adds c c' added)
      (hrest : AddsAll c' rest c'') : AddsAll c (added :: rest) c''

namespace AddsAll

variable {phases : List (List Issue)}

theorem strict (h : AddsAll c phases c') : c'.strict = c.strict := by
  induction h with
  | nil => rfl
  | cons h _ ih => exact ih.trans h.strict

/-- Nothing is added where issues keep a compilation from going on. -/
theorem idle (h : AddsAll c phases c') (hblocked : c.isBlocked = true) : ∀ later ∈ phases, later = [] := by
  induction h with
  | nil => exact List.forall_mem_nil _
  | cons h _ ih =>
    have hnone := h.gated hblocked
    refine List.forall_mem_cons.2 ⟨hnone, ih ?_⟩
    rw [isBlocked_congr h.strict (by rw [h.issues, hnone, List.append_nil]), hblocked]

/-- Nothing is added after an issue that keeps a compilation from going on. -/
theorem pairwise (h : AddsAll c phases c') :
    phases.Pairwise fun earlier later => (∃ i ∈ earlier, i.Gates c.strict) → later = [] := by
  induction h with
  | nil => exact .nil
  | @cons c c' _ added rest h hrest ih =>
    rw [← h.strict]
    refine .cons ?_ ih
    rintro later hlater ⟨i, hi, hgates⟩
    refine hrest.idle ((isBlocked_iff c').2 ⟨i, ?_, hgates⟩) later hlater
    rw [h.issues]
    exact List.mem_append_right _ hi

end AddsAll

/-- The issues of a compilation, phase by phase. -/
structure Report where
  lexing : List Issue
  parsing : List Issue
  checking : List Issue
  /-- Those of the check of the entry point. -/
  entering : List Issue
  evaluating : List Issue

/-- The phases in their order. -/
def Report.phases (r : Report) : List (List Issue) :=
  [r.lexing, r.parsing, r.checking, r.entering, r.evaluating]

/-- Whether a report tells what a compilation reports in each of its phases. -/
structure Reports (c : Compilation) (r : Report) : Prop where
  lex : (Request.lex.serve c).journal.issues = (r.phases.take 1).flatten
  parse : (Request.parse.serve c).journal.issues = (r.phases.take 2).flatten
  program : ∀ parsed, Compilation.parse.run c = (.ok true, parsed) → ∃ s,
    (Check.program parsed.names parsed.program).run parsed.checkStart = .ok ((), s) ∧
      s.journal.issues = (r.phases.take 3).flatten
  typecheck : (Request.typecheck.serve c).journal.issues = (r.phases.take 4).flatten
  compile : (Request.compile.serve c).journal.issues = r.phases.flatten

theorem exists_parse_adds {lexed : Compilation} {tokens : List Token} {endPos : Position}
    (hlex : lex.run c = (.ok (!lexed.failed), lexed)) (hstage : lexed.stage = .lexed tokens endPos)
    (hfailed : lexed.failed = lexed.isBlocked) :
    ∃ parsed parsing, parse.run c = (.ok (!parsed.failed), parsed) ∧ parsed.failed = parsed.isBlocked ∧
      lexed.Adds parsed parsing := by
  cases hopen : lexed.failed with
  | true =>
    rw [hopen] at hlex
    exact ⟨lexed, [], by rw [hopen]; exact parse_refused hlex, hfailed, .none lexed⟩
  | false =>
    rw [hopen] at hlex
    obtain ⟨program, s, parsed, hitems, hparse, hended⟩ := parse_run hlex hstage
    obtain ⟨parsing, hissues⟩ : lexed.journal.issues <+: s.journal.issues := by
      have hgrows := Resolution.Grows.law.items { names := lexed.names, constants? := some lexed.constants }
        (ItemOutline.listOfTokens lexed.names endPos tokens) ⟨lexed.table, lexed.journal⟩
      rw [hitems] at hgrows
      exact hgrows
    refine ⟨parsed, parsing, hparse, hended.failed, ?_, hended.setAlike.strict, fun hblocked => ?_⟩
    · rw [hended.issues, hissues]
    · cases (hfailed.trans hblocked).symm.trans hopen

/-- The check of a program adds its issues, and then the check of the entry point does. Both add errors only. -/
theorem exists_typecheck_adds {parsed : Compilation} (hfresh : c.stage = .fresh) (hframed : c.table.Framed)
    (hguards : c.Unguarded) (hparse : parse.run c = (.ok (!parsed.failed), parsed))
    (hfailed : parsed.failed = parsed.isBlocked) :
    ∃ mid checked checking entering, typecheck.run c = (.ok (!checked.failed), checked) ∧
      checked.failed = checked.isBlocked ∧ parsed.Adds mid checking ∧ mid.Adds checked entering ∧
      (parsed.failed = false → ∃ s, (Check.program parsed.names parsed.program).run parsed.checkStart = .ok ((), s) ∧
        s.journal = mid.journal) := by
  cases hopen : parsed.failed with
  | true =>
    rw [hopen] at hparse
    refine ⟨parsed, parsed, [], [], by rw [hopen]; exact typecheck_refused hparse, hfailed, .none parsed, .none parsed,
      fun hfalse => ?_⟩
    cases hfalse
  | false =>
    rw [hopen] at hparse
    obtain ⟨program, hstage, hframed', hcollects⟩ := exists_program_of_parse hfresh hframed hparse (hguards parsed hparse)
    obtain ⟨mid, s, hprogram, hcheck, _, ⟨checking, hchecking, herrors⟩, ⟨entering, hentering, _⟩, hlast⟩ :=
      exists_checkProgram parsed (ready_checkStart hframed') hcollects
    obtain ⟨checked, htypecheck, hended⟩ := typecheck_run hparse hstage hcheck
    have hadds : parsed.Adds { parsed with journal := mid.journal } checking :=
      ⟨hchecking, rfl, fun hblocked => by cases (hfailed.trans hblocked).symm.trans hopen⟩
    have hunblocked : parsed.isBlocked = false := hfailed.symm.trans hopen
    refine ⟨{ parsed with journal := mid.journal }, checked, checking, entering, htypecheck, hended.failed, hadds,
      ⟨?_, hended.setAlike.strict, fun hblocked => ?_⟩, fun _ => ⟨mid, ?_, rfl⟩⟩
    · rw [hended.issues, hentering]
    -- What keeps the entry point from being checked can only be an error, since the check adds no warnings.
    · rw [hlast (hadds.hasErrors hunblocked herrors hblocked)] at hentering
      simpa using hentering
    · rwa [Compilation.program, hstage]

theorem exists_compile_adds {checked : Compilation} (htypecheck : typecheck.run c = (.ok (!checked.failed), checked))
    (hfailed : checked.failed = checked.isBlocked) :
    ∃ evaluating, checked.Adds (Request.compile.serve c) evaluating ∧ ∃ result, outcome c = .ok result ∧
      ((∃ e, result = .ok e) ↔ (Request.compile.serve c).isBlocked = false) ∧
      ∀ issues, result = .error issues → issues = (Request.compile.serve c).journal.issues := by
  have houtcome := outcome_of_typecheck htypecheck
  cases hopen : checked.failed with
  | true =>
    rw [hopen] at htypecheck houtcome
    have hserve : Request.compile.serve c = checked := congrArg Prod.snd (compile_refused htypecheck)
    rw [hserve]
    refine ⟨[], .none checked, .error checked.journal.issues, houtcome, ⟨?_, fun hfree => ?_⟩, ?_⟩
    · rintro ⟨e, he⟩
      cases he
    · cases (hfailed.trans hfree).symm.trans hopen
    · rintro issues ⟨⟩
      rfl
  | false =>
    rw [hopen] at htypecheck houtcome
    obtain ⟨journal, hcompile, hissues⟩ := compile_accepted htypecheck
    have hserve : Request.compile.serve c = { checked with journal } := congrArg Prod.snd hcompile
    rw [hserve]
    refine ⟨checked.evaluationIssues, ⟨hissues, rfl, fun hblocked => by cases (hfailed.trans hblocked).symm.trans hopen⟩,
      _, houtcome, ?_⟩
    dsimp only
    cases hevaluated : checked.evaluated with
    | error i =>
      rw [evaluationIssues, hevaluated] at hissues
      refine ⟨⟨?_, fun hfree => ?_⟩, ?_⟩
      · rintro ⟨e, he⟩
        cases he
      · have hblocked : isBlocked { checked with journal } = true :=
          (isBlocked_iff _).2 ⟨i, by rw [hissues]; simp, .inl (severity_of_evaluated hevaluated)⟩
        cases hblocked.symm.trans hfree
      · rintro issues ⟨⟩
        rw [hissues, evaluationIssues, hevaluated]
    | ok e =>
      rw [evaluationIssues, hevaluated, List.append_nil] at hissues
      have hsame : isBlocked { checked with journal } = checked.isBlocked := isBlocked_congr rfl hissues
      have hfree : isBlocked { checked with journal } = false := hsame.trans (hfailed.symm.trans hopen)
      refine ⟨⟨fun _ => hfree, fun _ => ⟨e, rfl⟩⟩, fun issues herror => ?_⟩
      cases herror

/-- A host that asks to compile for the first time gets a function that runs the program exactly if nothing is reported
that keeps a compilation from going on, and all issues otherwise. Once a phase has reported such an issue, no later phase
reports anything. -/
theorem outcome_gated (source : Source) (intrinsics : Bool) (main? : Option (String × FunctionType)) (strict : Bool)
    (hguards : (prepared source intrinsics main? strict).Unguarded) :
    let c := prepared source intrinsics main? strict
    (∃ r, c.Reports r ∧ r.phases.Pairwise fun earlier later => (∃ i ∈ earlier, i.Gates strict) → later = []) ∧
      ∀ before, .compile ∉ before →
        let issues := (Request.compile.serve (serveAll before c)).journal.issues
        ∃ result, outcome (serveAll before c) = .ok result ∧
          ((∃ e, result = .ok e) ↔ ∀ i ∈ issues, ¬ i.Gates strict) ∧
          ∀ returned, result = .error returned → returned = issues ∧ ∃ i ∈ issues, i.Gates strict := by
  intro c
  have hfresh : c.stage = .fresh := (prepared_fresh source intrinsics main? strict).2
  have hframed : c.table.Framed := prepared_framed source intrinsics main? strict
  obtain ⟨lexed, tokens, endPos, hlex, hstage, _, hstrict, hfailed⟩ := lex_run hfresh
  obtain ⟨parsed, parsing, hparse, hfailed', hparsing⟩ := exists_parse_adds hlex hstage hfailed
  obtain ⟨mid, checked, checking, entering, htypecheck, hfailed'', hchecking, hentering, hprogram⟩ :=
    exists_typecheck_adds hfresh hframed hguards hparse hfailed'
  obtain ⟨evaluating, hevaluating, result, houtcome, hiff, hissues⟩ := exists_compile_adds htypecheck hfailed''
  have hall : AddsAll lexed [parsing, checking, entering, evaluating] (Request.compile.serve c) :=
    .cons hparsing (.cons hchecking (.cons hentering (.cons hevaluating (.nil _))))
  have hstrict : lexed.strict = strict := hstrict.trans (prepared_strict source intrinsics main? strict)
  have hgates := isBlocked_iff (Request.compile.serve c)
  rw [hall.strict, hstrict] at hgates
  refine ⟨⟨⟨lexed.journal.issues, parsing, checking, entering, evaluating⟩, ⟨?_, ?_, ?_, ?_, ?_⟩, ?_⟩,
    fun before hbefore => ?_⟩
  · rw [show Request.lex.serve c = lexed from congrArg Prod.snd hlex]
    simp [Report.phases]
  · rw [show Request.parse.serve c = parsed from congrArg Prod.snd hparse, hparsing.issues]
    simp [Report.phases]
  · intro parsed' hparse'
    obtain ⟨haccepted, rfl⟩ := Prod.mk.inj (hparse'.symm.trans hparse)
    obtain ⟨s, hcheck, hjournal⟩ := hprogram (by simpa using (Except.ok.inj haccepted).symm)
    refine ⟨s, hcheck, ?_⟩
    rw [hjournal, hchecking.issues, hparsing.issues]
    simp [Report.phases]
  · rw [show Request.typecheck.serve c = checked from congrArg Prod.snd htypecheck, hentering.issues, hchecking.issues,
      hparsing.issues]
    simp [Report.phases]
  · rw [hevaluating.issues, hentering.issues, hchecking.issues, hparsing.issues]
    simp [Report.phases]
  · rw [← hstrict]
    refine .cons ?_ hall.pairwise
    rintro later hlater hgating
    exact hall.idle ((isBlocked_iff lexed).2 hgating) later hlater
  · have hsame : Request.compile.Same (serveAll before c) c := same_compile_serveAll hbefore c
    rw [outcome_congr hsame, hsame.serve]
    refine ⟨result, houtcome, hiff.trans ?_, fun returned hresult => ⟨hissues returned hresult, ?_⟩⟩
    · rw [← Bool.not_eq_true, hgates]
      simp only [not_exists, not_and]
    · rw [← hgates, ← Bool.not_eq_false]
      intro hfree
      obtain ⟨e, he⟩ := hiff.2 hfree
      cases hresult.symm.trans he

/-- A function within a function that has the name of one outside. -/
def shadowingSource : Source :=
  .ofString "shadowing" "[f x] x; [main t] \x7b [f x] 0 - x; + f(t); \x7d"

theorem outcome_gated_shadowingSource :
    (∃ e, outcome (serveAll [.lex] (prepared shadowingSource true none false)) = .ok (.ok e)) ∧
      ∃ i, i.severity = .warning ∧
        outcome (serveAll [.lex] (prepared shadowingSource true none true)) = .ok (.error [i]) := by
  have hguards (strict : Bool) : (prepared shadowingSource true none strict).Unguarded := by
    intro parsed hparse
    have hguards : (parse.run (prepared shadowingSource true none strict)).2.program.Obeys .unguarded := by
      cases strict <;> decide +kernel
    rwa [hparse] at hguards
  constructor
  · obtain ⟨_, hfirst⟩ := outcome_gated shadowingSource true none false (hguards false)
    obtain ⟨result, houtcome, hiff, _⟩ := hfirst [.lex] (by decide)
    obtain ⟨e, rfl⟩ := hiff.2 (by decide +kernel)
    exact ⟨e, houtcome⟩
  · obtain ⟨_, hfirst⟩ := outcome_gated shadowingSource true none true (hguards true)
    obtain ⟨result, houtcome, hiff, hissues⟩ := hfirst [.lex] (by decide)
    have hwarning : (Request.compile.serve (serveAll [.lex] (prepared shadowingSource true none true))).journal.issues.map
        Issue.severity = [.warning] := by
      decide +kernel
    obtain ⟨i, hi, hseverity⟩ := List.map_eq_singleton_iff.1 hwarning
    cases result with
    | ok e =>
      have hfree := hiff.1 ⟨e, rfl⟩ i (by rw [hi]; exact List.mem_singleton_self i)
      exact absurd (.inr ⟨rfl, hseverity⟩) hfree
    | error issues =>
      obtain ⟨hlist, _⟩ := hissues issues rfl
      exact ⟨i, hseverity, by rw [houtcome, hlist, hi]⟩

end Compilation
end ToneScript
