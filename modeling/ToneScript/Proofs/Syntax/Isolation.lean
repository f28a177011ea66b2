import ToneScript.Proofs.Outline.Spans
import ToneScript.Proofs.Syntax.Balance

/-! Items are read apart from one another. Each one is read once and from its own tokens; where it cannot be read, its
error is reported and the next one is read. -/
namespace ToneScript.Resolution

variable {α β : Type}

/-- Items that read the same leave the same behind. -/
theorem item_same (c : Context) {o o' : ItemOutline} (h : o.Same o') : item c o = item c o' := by
  cases h with
  | refl => rfl
  | flawed e unended? pos => rfl

/-- Items read one after another, each from what its own tokens are by themselves: what comes of each of them, and the
state in the end. An item that can be read reports no error, and each of the others just the one it stops with. -/
inductive ReadApart (c : Context) (endPos : Position) :
    State → List ItemSpan → List (Except SyntaxError Item) → State → Prop where
  | nil (s : State) : ReadApart c endPos s [] [] s
  | stray {semicolon : SymbolToken .semicolon} {spans : List ItemSpan} {results : List (Except SyntaxError Item)}
      {s s' : State} (rest : ReadApart c endPos s spans results s') :
      ReadApart c endPos s (.stray semicolon :: spans) results s'
  | read {span : ItemSpan} {o : ItemOutline} {tree : Item} {spans : List ItemSpan}
      {results : List (Except SyntaxError Item)} {s mid s' : State} (outline : span.outline? c.names endPos = some o)
      (run : (item c o).run s = (.ok tree, mid)) (quiet : mid.journal.errorCount = s.journal.errorCount)
      (rest : ReadApart c endPos mid spans results s') :
      ReadApart c endPos s (span :: spans) (.ok tree :: results) s'
  | refused {span : ItemSpan} {o : ItemOutline} {e : SyntaxError} {spans : List ItemSpan}
      {results : List (Except SyntaxError Item)} {s mid s' : State} (outline : span.outline? c.names endPos = some o)
      (run : (item c o).run s = (.error (.refused e), mid)) (quiet : mid.journal.errorCount = s.journal.errorCount)
      (rest : ReadApart c endPos { mid with journal := mid.journal.report e.toIssue } spans results s') :
      ReadApart c endPos s (span :: spans) (.error e :: results) s'

/-- One error is reported for each item that cannot be read. -/
theorem ReadApart.errorCount {c : Context} {endPos : Position} {s s' : State} {spans : List ItemSpan}
    {results : List (Except SyntaxError Item)} (h : ReadApart c endPos s spans results s') :
    s'.journal.errorCount = s.journal.errorCount + results.countP (!·.isOk) := by
  induction h with
  | nil => rfl
  | stray _ ih => exact ih
  | read _ _ hquiet _ ih =>
    rw [ih, hquiet]
    rfl
  | @refused _ _ _ _ results _ _ _ _ _ hquiet _ ih =>
    rw [ih, Journal.errorCount_report_error _ rfl, hquiet, List.countP_cons]
    simp [Except.isOk, Except.toBool]
    omega

/-- What is read by itself has no semicolon missing after it. -/
theorem ended_of_outline? {names : NameTable} {endPos : Position} {span : ItemSpan} {o : ItemOutline}
    (h : span.outline? names endPos = some o) : ∀ definition next pos, o ≠ .function definition (some next) pos := by
  cases span <;> cases h <;> nofun

/-- The items of spans are read apart. -/
theorem items_apart (c : Context) (endPos : Position) (spans : List ItemSpan) (outlines : List ItemOutline)
    (houtlines : List.Forall₂ ItemOutline.Same outlines
      (spans.flatMap fun span => (span.outline? c.names endPos).toList)) (s : State) :
    ∃ results s', ReadApart c endPos s spans results s' ∧
      (items c outlines).run s = (.ok (results.filterMap Except.toOption), s') := by
  induction spans generalizing outlines s with
  | nil =>
    cases houtlines
    exact ⟨[], s, .nil s, rfl⟩
  | cons span spans ih =>
    cases houtline : span.outline? c.names endPos with
    | none =>
      cases span with
      | stray semicolon =>
        obtain ⟨results, s', hread, hrun⟩ := ih outlines houtlines s
        exact ⟨results, s', .stray hread, hrun⟩
      | block | expression | assignment => cases houtline
    | some own =>
      rw [List.flatMap_cons, houtline] at houtlines
      cases houtlines with
      | @cons o _ rest _ hsame hrest =>
        have hended := ended_of_outline? houtline
        have hquiet := Quiet.law.item c hended s
        have hdefect := (Level.law.item c own s).2
        rw [items, item_same c hsame]
        rcases hrun : (item c own).run s with ⟨(e | d) | tree, mid⟩
        · have hattempt : (attempt (item c own)).run s =
              (.ok none, { mid with journal := mid.journal.report e.toIssue }) := by
            simp only [attempt, ExceptT.run_mk, hrun]
          obtain ⟨results, s', hread, hitems⟩ := ih rest hrest { mid with journal := mid.journal.report e.toIssue }
          refine ⟨.error e :: results, s', .refused houtline hrun (by rw [hrun] at hquiet; exact hquiet) hread, ?_⟩
          rw [run_bind, hattempt]
          simp only
          rw [run_bind, hitems]
          rfl
        · rw [hrun] at hdefect
          exact absurd rfl (hdefect d)
        · have hattempt : (attempt (item c own)).run s = (.ok (some tree), mid) := by
            simp only [attempt, ExceptT.run_mk, hrun]
          obtain ⟨results, s', hread, hitems⟩ := ih rest hrest mid
          refine ⟨.ok tree :: results, s', .read houtline hrun (by rw [hrun] at hquiet; exact hquiet) hread, ?_⟩
          rw [run_bind, hattempt]
          simp only
          rw [run_bind, hitems]
          rfl

/-- Whatever errors other items have, each item of a source is read once and from its own tokens. The program holds the
items that can be read, in order, and one error is reported for each of the others. -/
theorem program_apart (c : Context) (endPos : Position) (spans : List ItemSpan) (s : State) :
    ∃ results s' journal, ReadApart c endPos s spans results s' ∧
      (program c (ItemOutline.listOfTokens c.names endPos (spans.flatMap ItemSpan.tokens))).run s =
        (.ok (results.filterMap Except.toOption), ⟨s'.table, journal⟩) ∧
      journal.issues = s'.journal.issues ∧
      journal.errorCount = s.journal.errorCount + results.countP (!·.isOk) := by
  obtain ⟨results, s', hread, hrun⟩ :=
    items_apart c endPos spans _ (ItemOutline.listOfTokens_spans c.names endPos spans) s
  let trees := results.filterMap Except.toOption
  refine ⟨results, s', s'.journal.note .debug "parser" ("parsed " ++ toString trees.length ++ " items"), hread, ?_,
    ?_, ?_⟩
  · rw [program, run_bind, hrun]
    rfl
  · exact Journal.issues_note _ _ _ _
  · rw [Journal.errorCount_note, hread.errorCount]

end ToneScript.Resolution
