import ToneScript.Proofs.Compilation.Stages

/-! Requests to a compilation, in any order and with repetitions. Each stage is done once, however often it is asked for.
The evaluation of the outermost level is no stage: each request to compile does it again. -/
namespace ToneScript

namespace Compilation

/-- What a host may ask of a compilation. -/
inductive Request where
  | lex
  | parse
  | typecheck
  | compile
deriving DecidableEq, Repr

namespace Request

/-- How far a request takes a compilation. -/
def rank : Request → Nat
  | lex => 0
  | parse => 1
  | typecheck => 2
  | compile => 3

/-- What comes of a request: whether it ends in a defect, and the compilation after it. -/
def run : Request → Compilation → Except Defect Unit × Compilation
  | lex, c => (Compilation.lex.run c).map (Except.map fun _ => ()) id
  | parse, c => (Compilation.parse.run c).map (Except.map fun _ => ()) id
  | typecheck, c => (Compilation.typecheck.run c).map (Except.map fun _ => ()) id
  | compile, c => (Compilation.compile.run c).map (Except.map fun _ => ()) id

/-- A compilation after a request. -/
def serve (r : Request) (c : Compilation) : Compilation :=
  (r.run c).2

end Request

/-- A compilation after requests, one after another. -/
def serveAll (requests : List Request) (c : Compilation) : Compilation :=
  requests.foldl (fun c r => r.serve c) c

/-- What a host gets when it asks a compilation to compile: the function that runs the program, or else all issues. -/
def outcome (c : Compilation) : Except Defect (Except (List Issue) EntryPoint) :=
  match compile.run c with
  | (.error d, _) => .error d
  | (.ok none, c') => .ok (.error c'.journal.issues)
  | (.ok (some e), _) => .ok (.ok e)

variable {c c' : Compilation} {answer : Except Defect Bool}

theorem exists_lexed (c : Compilation) :
    ∃ lexed, lex.run c = (.ok (!lexed.failed), lexed) ∧ lexed.stage ≠ .fresh := by
  by_cases hfresh : c.stage = .fresh
  · obtain ⟨lexed, tokens, endPos, hlex, hstage, _⟩ := lex_run hfresh
    exact ⟨lexed, hlex, by simp [hstage]⟩
  · exact ⟨c, lex_done hfresh, hfresh⟩

theorem exists_parsed (c : Compilation) :
    ∃ parsed, parse.run c = (.ok (!parsed.failed), parsed) ∧ parsed.stage ≠ .fresh ∧
      (parsed.failed = false → parsed.stage.HasProgram) := by
  obtain ⟨lexed, hlex, hbegun⟩ := exists_lexed c
  cases hfailed : lexed.failed with
  | true =>
    rw [hfailed] at hlex
    exact ⟨lexed, by rw [hfailed]; exact parse_refused hlex, hbegun, by simp [hfailed]⟩
  | false =>
    cases hstage : lexed.stage with
    | fresh => exact absurd hstage hbegun
    | lexed tokens endPos =>
      rw [hfailed] at hlex
      obtain ⟨program, s, parsed, _, hparse, hended⟩ := parse_run hlex hstage
      exact ⟨parsed, hparse, by simp [hended.stage_eq], fun _ => hended.stage_eq ▸ trivial⟩
    | parsed | checked =>
      have hprogram : lexed.stage.HasProgram := hstage ▸ trivial
      rw [parse_congr (hlex.trans (lex_done hbegun).symm)]
      exact ⟨lexed, parse_done hbegun fun _ => hprogram, hbegun, fun _ => hprogram⟩

/-- A program that is checked is not checked again. -/
theorem typecheck_done {program : Program} {typing : Typing} (h : c.stage = .checked program typing) :
    typecheck.run c = (.ok (!c.failed), c) := by
  have hparse := parse_done (c := c) (by simp [h]) fun _ => h ▸ trivial
  cases hfailed : c.failed with
  | true =>
    rw [hfailed] at hparse
    exact typecheck_refused hparse
  | false =>
    rw [typecheck, run_bind, hparse, hfailed]
    dsimp only
    rw [if_neg (by decide), run_get_bind, h]
    show succeeded.run c = _
    rw [← hfailed]
    rfl

/-- A compilation in which every stage is done that can be, with the answer to a request to check. -/
structure Rests (c : Compilation) (answer : Except Defect Bool) : Prop where
  lex : lex.run c = (.ok (!c.failed), c)
  parse : parse.run c = (.ok (!c.failed), c)
  typecheck : typecheck.run c = (answer, c)
  checked : answer = .ok true → ∃ program typing, c.stage = .checked program typing

theorem rests_of_checked {program : Program} {typing : Typing} (h : c.stage = .checked program typing) :
    c.Rests (.ok (!c.failed)) where
  lex := lex_done (by simp [h])
  parse := parse_done (by simp [h]) fun _ => h ▸ trivial
  typecheck := typecheck_done h
  checked _ := ⟨program, typing, h⟩

/-- After a check a compilation rests. -/
theorem exists_rests (c : Compilation) : ∃ answer c', typecheck.run c = (answer, c') ∧ c'.Rests answer := by
  obtain ⟨parsed, hparse, hbegun, hprogram⟩ := exists_parsed c
  have hdone := parse_done hbegun hprogram
  have hsame : typecheck.run c = typecheck.run parsed := typecheck_congr (hparse.trans hdone.symm)
  rw [hsame]
  cases hfailed : parsed.failed with
  | true =>
    have hrefused := typecheck_refused (hfailed ▸ hdone)
    exact ⟨.ok false, parsed, hrefused, lex_done hbegun, hdone, hrefused, nofun⟩
  | false =>
    have haccepted : Compilation.parse.run parsed = (.ok true, parsed) := by rw [hdone, hfailed]; rfl
    cases hstage : parsed.stage with
    | fresh => exact absurd hstage hbegun
    | lexed tokens endPos => exact absurd (hprogram hfailed) (by simp [hstage, Stage.HasProgram])
    | parsed program =>
      rcases hcheck : (parsed.checkProgram program).run ⟨parsed.table, parsed.journal, parsed.builtinTyping, 0⟩ with
        d | ⟨⟨⟩, s⟩
      · have hdefect := typecheck_defect haccepted hstage hcheck
        exact ⟨.error d, parsed, hdefect, lex_done hbegun, hdone, hdefect, nofun⟩
      · obtain ⟨checked, hchecked, hended⟩ := typecheck_run haccepted hstage hcheck
        exact ⟨_, checked, hchecked, rests_of_checked hended.stage_eq⟩
    | checked program typing => exact ⟨_, parsed, typecheck_done hstage, rests_of_checked hstage⟩

/-- What a request to compile reports beyond the issues of the stages, after a check with the given answer. -/
def lateIssues (answer : Except Defect Bool) (c : Compilation) : List Issue :=
  match answer with
  | .ok true => c.evaluationIssues
  | .ok false | .error _ => []

theorem length_lateIssues (answer : Except Defect Bool) (c : Compilation) : (lateIssues answer c).length ≤ 1 := by
  rcases answer with d | _ | _
  · exact Nat.zero_le 1
  · exact Nat.zero_le 1
  · rw [lateIssues, evaluationIssues]
    cases c.evaluated
    · exact Nat.le_refl 1
    · exact Nat.zero_le 1

/-- What a host gets when it asks to compile after a check with the given answer. -/
def outcomeAfter (answer : Except Defect Bool) (c : Compilation) : Except Defect (Except (List Issue) EntryPoint) :=
  answer.map fun accepted =>
    if accepted then c.evaluated.mapError fun _ => c.journal.issues ++ c.evaluationIssues else .error c.journal.issues

theorem lateIssues_of_outcome {e : EntryPoint} (h : outcomeAfter answer c = .ok (.ok e)) : lateIssues answer c = [] := by
  rcases answer with d | _ | _
  · rfl
  · rfl
  · rw [lateIssues, evaluationIssues]
    rw [outcomeAfter] at h
    cases hevaluated : c.evaluated with
    | error i =>
      rw [hevaluated] at h
      cases h
    | ok e => rfl

theorem outcome_of_typecheck (h : typecheck.run c = (answer, c')) : outcome c = outcomeAfter answer c' := by
  rcases answer with d | _ | _
  · rw [outcome, compile_defect h]
    rfl
  · rw [outcome, compile_refused h]
    rfl
  · obtain ⟨journal, hcompile, hissues⟩ := compile_accepted h
    rw [outcome, hcompile]
    show _ = Except.ok (c'.evaluated.mapError _)
    cases c'.evaluated with
    | error i => exact congrArg (fun issues => Except.ok (Except.error issues)) hissues
    | ok e => rfl

/-- A request to compile leaves all but the journal as it is after a check. -/
theorem compile_rests (h : typecheck.run c = (answer, c')) (hrests : c'.Rests answer) :
    ∃ journal, Request.compile.serve c = { c' with journal } ∧ { c' with journal }.Rests answer ∧
      journal.issues = c'.journal.issues ++ lateIssues answer c' := by
  rcases answer with d | _ | _
  · refine ⟨c'.journal, ?_, hrests, (List.append_nil _).symm⟩
    exact congrArg Prod.snd (compile_defect h)
  · refine ⟨c'.journal, ?_, hrests, (List.append_nil _).symm⟩
    exact congrArg Prod.snd (compile_refused h)
  · obtain ⟨journal, hcompile, hissues⟩ := compile_accepted h
    obtain ⟨program, typing, hstage⟩ := hrests.checked rfl
    refine ⟨journal, congrArg Prod.snd hcompile, ?_, hissues⟩
    have hagain := rests_of_checked (c := { c' with journal }) hstage
    have hanswer : Except.ok true = Except.ok (!c'.failed) :=
      congrArg Prod.fst (hrests.typecheck.symm.trans (typecheck_done hstage))
    rwa [hanswer]

/-- Once a compilation rests, requests report nothing but the issue of the evaluation, as often as they compile. -/
theorem Rests.serveAll (h : c.Rests answer) (requests : List Request) :
    ∃ journal, serveAll requests c = { c with journal } ∧ { c with journal }.Rests answer ∧
      journal.issues =
        c.journal.issues ++ (List.replicate (requests.count .compile) (lateIssues answer c)).flatten := by
  induction requests generalizing c with
  | nil => exact ⟨c.journal, rfl, h, (List.append_nil _).symm⟩
  | cons r requests ih =>
    have hidle (hr : r.serve c = c) (hne : r ≠ .compile) : ∃ journal, Compilation.serveAll (r :: requests) c =
        { c with journal } ∧ { c with journal }.Rests answer ∧ journal.issues = c.journal.issues ++
          (List.replicate ((r :: requests).count .compile) (lateIssues answer c)).flatten := by
      rw [Compilation.serveAll, List.foldl_cons, hr, List.count_cons_of_ne hne]
      exact ih h
    cases r with
    | lex => exact hidle (congrArg Prod.snd h.lex) (by decide)
    | parse => exact hidle (congrArg Prod.snd h.parse) (by decide)
    | typecheck => exact hidle (congrArg Prod.snd h.typecheck) (by decide)
    | compile =>
      obtain ⟨journal, hserve, hrests, hissues⟩ := compile_rests h.typecheck h
      obtain ⟨journal', hall, hrests', hissues'⟩ := ih hrests
      refine ⟨journal', ?_, hrests', ?_⟩
      · rw [Compilation.serveAll, List.foldl_cons, hserve]
        exact hall
      · rw [List.count_cons_self, List.replicate_succ, List.flatten_cons, ← List.append_assoc, ← hissues]
        exact hissues'

/-- Whether a request does the same with two compilations. -/
def Request.Same (c c' : Compilation) : Request → Prop
  | lex => Compilation.lex.run c = Compilation.lex.run c'
  | parse => Compilation.parse.run c = Compilation.parse.run c'
  | typecheck => Compilation.typecheck.run c = Compilation.typecheck.run c'
  | compile => Compilation.compile.run c = Compilation.compile.run c'

namespace Request

variable {r r' : Request}

theorem Same.mono (h : r.Same c c') (hle : r.rank ≤ r'.rank) : r'.Same c c' := by
  have hparse (h : lex.Same c c') : parse.Same c c' := parse_congr h
  have htypecheck (h : parse.Same c c') : typecheck.Same c c' := typecheck_congr h
  have hcompile (h : typecheck.Same c c') : compile.Same c c' := compile_congr h
  cases r <;> cases r' <;>
    first
    | exact h
    | exact hparse h
    | exact htypecheck h
    | exact hcompile h
    | exact htypecheck (hparse h)
    | exact hcompile (htypecheck h)
    | exact hcompile (htypecheck (hparse h))
    | exact absurd hle (by decide)

theorem Same.trans {c'' : Compilation} (h : r.Same c c') (h' : r.Same c' c'') : r.Same c c'' := by
  cases r <;> exact Eq.trans h h'

theorem Same.run (h : r.Same c c') : r.run c = r.run c' := by
  cases r <;> exact congrArg (Prod.map (Except.map fun _ => ()) id) h

theorem Same.serve (h : r.Same c c') : r.serve c = r.serve c' :=
  congrArg Prod.snd h.run

/-- A stage that is asked for twice is done once. -/
theorem same_again (hr : r ≠ compile) (c : Compilation) : r.Same (r.serve c) c := by
  cases r with
  | lex =>
    obtain ⟨lexed, hlex, hbegun⟩ := exists_lexed c
    have hserve : lex.serve c = lexed := congrArg Prod.snd hlex
    rw [hserve]
    exact (lex_done hbegun).trans hlex.symm
  | parse =>
    obtain ⟨parsed, hparse, hbegun, hprogram⟩ := exists_parsed c
    have hserve : parse.serve c = parsed := congrArg Prod.snd hparse
    rw [hserve]
    exact (parse_done hbegun hprogram).trans hparse.symm
  | typecheck =>
    obtain ⟨answer, c', htypecheck, hrests⟩ := exists_rests c
    have hserve : typecheck.serve c = c' := congrArg Prod.snd htypecheck
    rw [hserve]
    exact hrests.typecheck.trans htypecheck.symm
  | compile => exact absurd rfl hr

/-- Stages that were done before a request make no difference to it. -/
theorem same_serveAll {requests : List Request} (h : ∀ r' ∈ requests, r'.rank ≤ r.rank ∧ r' ≠ compile)
    (c : Compilation) : r.Same (serveAll requests c) c := by
  induction requests generalizing c with
  | nil => cases r <;> rfl
  | cons r' requests ih =>
    obtain ⟨⟨hle, hne⟩, hrest⟩ := List.forall_mem_cons.1 h
    exact (ih hrest (r'.serve c)).trans ((same_again hne c).mono hle)

/-- A stage that a request has passed is not done again. -/
theorem serve_idle (hr : r ≠ compile) (hle : r.rank ≤ r'.rank) (c : Compilation) :
    r.serve (r'.serve c) = r'.serve c := by
  have hrests {answer : Except Defect Bool} {c : Compilation} (h : c.Rests answer) : r.serve c = c := by
    cases r with
    | lex => exact congrArg Prod.snd h.lex
    | parse => exact congrArg Prod.snd h.parse
    | typecheck => exact congrArg Prod.snd h.typecheck
    | compile => exact absurd rfl hr
  obtain ⟨answer, checked, htypecheck, hchecked⟩ := exists_rests c
  cases r' with
  | lex =>
    obtain rfl : r = lex := by cases r <;> first | rfl | exact absurd hle (by decide)
    exact (same_again hr c).serve
  | parse =>
    by_cases hparse : r = parse
    · subst hparse
      exact (same_again hr c).serve
    · obtain rfl : r = lex := by cases r <;> first | rfl | exact absurd rfl hparse | exact absurd hle (by decide)
      obtain ⟨parsed, hparse, hbegun, _⟩ := exists_parsed c
      have hserve : parse.serve c = parsed := congrArg Prod.snd hparse
      rw [hserve]
      exact congrArg Prod.snd (lex_done hbegun)
  | typecheck =>
    have hserve : typecheck.serve c = checked := congrArg Prod.snd htypecheck
    rw [hserve]
    exact hrests hchecked
  | compile =>
    obtain ⟨journal, hserve, hcompiled, _⟩ := compile_rests htypecheck hchecked
    rw [hserve]
    exact hrests hcompiled

theorem serveAll_idle {requests : List Request} (h : ∀ r ∈ requests, r.rank ≤ r'.rank ∧ r ≠ compile)
    (c : Compilation) : serveAll requests (r'.serve c) = r'.serve c := by
  induction requests with
  | nil => rfl
  | cons r requests ih =>
    obtain ⟨⟨hle, hne⟩, hrest⟩ := List.forall_mem_cons.1 h
    rw [serveAll, List.foldl_cons, serve_idle hne hle]
    exact ih hrest

end Request

theorem serveAll_append (before after : List Request) (c : Compilation) :
    serveAll (before ++ after) c = serveAll after (serveAll before c) :=
  List.foldl_append

/-- What stages come before the first request to compile makes no difference to it. -/
theorem same_compile_serveAll {before : List Request} (hbefore : .compile ∉ before) (c : Compilation) :
    Request.compile.Same (serveAll before c) c := by
  refine Request.same_serveAll (fun r hr => ⟨?_, fun heq => hbefore (heq ▸ hr)⟩) c
  cases r <;> decide

/-- What stages come before a request to compile makes no difference, and what comes after it adds to the journal only. -/
theorem serveAll_compile (h : typecheck.run c = (answer, c')) (hrests : c'.Rests answer) {before : List Request}
    (hbefore : .compile ∉ before) (after : List Request) :
    ∃ journal, serveAll (before ++ .compile :: after) c = { c' with journal } ∧ { c' with journal }.Rests answer ∧
      journal.issues =
        c'.journal.issues ++ (List.replicate (after.count .compile + 1) (lateIssues answer c')).flatten := by
  have hstages := same_compile_serveAll hbefore c
  obtain ⟨first, hserve, hrests', hissues⟩ := compile_rests h hrests
  obtain ⟨journal, hall, hlast, hissues'⟩ := hrests'.serveAll after
  refine ⟨journal, ?_, hlast, ?_⟩
  · rw [serveAll_append, serveAll, List.foldl_cons, hstages.serve, hserve]
    exact hall
  · rw [List.replicate_succ, List.flatten_cons, ← List.append_assoc, ← hissues]
    exact hissues'

/-- A request to check is answered alike whatever was asked for before. -/
theorem typecheck_serveAll (h : typecheck.run c = (answer, c')) (hrests : c'.Rests answer) (before : List Request) :
    (typecheck.run (serveAll before c)).1 = answer := by
  by_cases hcompile : .compile ∈ before
  · obtain ⟨first, after, rfl, hfirst⟩ := List.eq_append_cons_of_mem hcompile
    obtain ⟨last, hserve, hlast, _⟩ := serveAll_compile h hrests hfirst after
    rw [hserve, hlast.typecheck]
  · have hsame : Request.typecheck.Same (serveAll before c) c := by
      refine Request.same_serveAll (fun r hr => ?_) c
      cases r with
      | compile => exact absurd hr hcompile
      | lex | parse | typecheck => exact ⟨by decide, by decide⟩
    rw [show typecheck.run (serveAll before c) = typecheck.run c from hsame, h]

/-- No request ends in a defect where one to check does not. -/
theorem run_of_typecheck {accepted : Bool} (h : typecheck.run c = (.ok accepted, c')) (r : Request) :
    (r.run c).1 = .ok () := by
  cases r with
  | lex =>
    obtain ⟨lexed, hlex, _⟩ := exists_lexed c
    rw [Request.run, hlex]
    rfl
  | parse =>
    obtain ⟨parsed, hparse, _⟩ := exists_parsed c
    rw [Request.run, hparse]
    rfl
  | typecheck =>
    rw [Request.run, h]
    rfl
  | compile =>
    rw [Request.run]
    cases accepted with
    | false =>
      rw [compile_refused h]
      rfl
    | true =>
      obtain ⟨journal, hcompile, _⟩ := compile_accepted h
      rw [hcompile]
      rfl

/-- What a host gets after issues of earlier requests to compile. -/
theorem outcomeAfter_journal (answer : Except Defect Bool) (c : Compilation) {journal : Journal} {n : Nat}
    (h : journal.issues = c.journal.issues ++ (List.replicate n (lateIssues answer c)).flatten) :
    outcomeAfter answer { c with journal } = (outcomeAfter answer c).map fun result =>
      result.mapError (· ++ (List.replicate n (lateIssues answer c)).flatten) := by
  rcases answer with d | _ | _
  · rfl
  · exact congrArg (fun issues => Except.ok (Except.error issues)) h
  · have hlate : lateIssues (.ok true) c = c.evaluationIssues := rfl
    have hlist : journal.issues ++ c.evaluationIssues = c.journal.issues ++ c.evaluationIssues ++
        (List.replicate n c.evaluationIssues).flatten := by
      rw [h, hlate, List.append_assoc, List.append_assoc, ← List.flatten_cons, ← List.replicate_succ,
        List.replicate_succ', List.flatten_concat]
    show Except.ok (c.evaluated.mapError fun _ => journal.issues ++ c.evaluationIssues) =
      Except.ok ((c.evaluated.mapError fun _ => c.journal.issues ++ c.evaluationIssues).mapError
        (· ++ (List.replicate n c.evaluationIssues).flatten))
    rw [hlist]
    cases c.evaluated <;> rfl

theorem outcome_congr (h : Request.compile.Same c c') : outcome c = outcome c' := by
  rw [outcome, outcome, show compile.run c = compile.run c' from h]

/-- The issues after requests of which the one that takes the compilation furthest is a stage. -/
theorem serveAll_stages {requests : List Request} {furthest : Request} (hmem : furthest ∈ requests)
    (hne : furthest ≠ .compile) (hmax : ∀ r ∈ requests, r.rank ≤ furthest.rank) (c : Compilation) :
    serveAll requests c = furthest.serve c ∧ .compile ∉ requests := by
  have hstages (r : Request) (hr : r ∈ requests) : r.rank ≤ furthest.rank ∧ r ≠ .compile := by
    refine ⟨hmax r hr, ?_⟩
    rintro rfl
    have hle := hmax _ hr
    cases furthest <;> first | exact hne rfl | exact absurd hle (by decide)
  obtain ⟨before, after, rfl, _⟩ := List.eq_append_cons_of_mem hmem
  refine ⟨?_, fun hcompile => (hstages _ hcompile).2 rfl⟩
  have hsame := Request.same_serveAll (fun r hr => hstages r (List.mem_append_left _ hr)) c
  rw [serveAll_append, serveAll, List.foldl_cons, hsame.serve]
  exact Request.serveAll_idle (fun r hr => hstages r (List.mem_append_right _ (List.mem_cons_of_mem _ hr))) c

/-- Each stage is done once, in whatever order and however often it is asked for, and the evaluation of the outermost
level is done for every request to compile. So the issues after some requests are those after the one that takes the
compilation furthest, and each further request to compile repeats the issue of the evaluation, if it has one. A host
that asks to compile gets the same as when that is all it asks for, but for these repetitions. -/
theorem serveAll_repeats (c : Compilation) :
    ∃ own : List Issue, own.length ≤ 1 ∧ (∀ e, outcome c = .ok (.ok e) → own = []) ∧
      (Request.compile.serve c).journal.issues = (Request.typecheck.serve c).journal.issues ++ own ∧
      (∀ requests furthest, furthest ∈ requests → (∀ r ∈ requests, r.rank ≤ furthest.rank) →
        (serveAll requests c).journal.issues = (furthest.serve c).journal.issues ++
          (List.replicate (requests.count .compile - 1) own).flatten) ∧
      ∀ before, outcome (serveAll before c) = (outcome c).map fun result =>
        result.mapError (· ++ (List.replicate (before.count .compile) own).flatten) := by
  obtain ⟨answer, c', htypecheck, hrests⟩ := exists_rests c
  have hchecked : Request.typecheck.serve c = c' := congrArg Prod.snd htypecheck
  obtain ⟨journal, hcompiled, _, hissues⟩ := compile_rests htypecheck hrests
  -- The requests before and after the first one to compile.
  have hsplit {requests : List Request} (h : .compile ∈ requests) : ∃ before after,
      requests = before ++ .compile :: after ∧ .compile ∉ before ∧
        requests.count .compile = after.count .compile + 1 := by
    obtain ⟨before, after, rfl, hbefore⟩ := List.eq_append_cons_of_mem h
    refine ⟨before, after, rfl, hbefore, ?_⟩
    rw [List.count_append, List.count_eq_zero_of_not_mem hbefore, List.count_cons_self, Nat.zero_add]
  refine ⟨lateIssues answer c', length_lateIssues answer c', fun e he => ?_, ?_, ?_, ?_⟩
  · exact lateIssues_of_outcome ((outcome_of_typecheck htypecheck).symm.trans he)
  · rw [hchecked, hcompiled, hissues]
  · intro requests furthest hmem hmax
    by_cases hcompile : furthest = .compile
    · subst hcompile
      obtain ⟨before, after, rfl, hbefore, hcount⟩ := hsplit hmem
      obtain ⟨last, hserve, _, hlast⟩ := serveAll_compile htypecheck hrests hbefore after
      rw [hserve, hcompiled, hcount, Nat.add_sub_cancel, hissues, List.append_assoc, ← List.flatten_cons,
        ← List.replicate_succ]
      exact hlast
    · obtain ⟨hserve, hnone⟩ := serveAll_stages hmem hcompile hmax c
      rw [hserve, List.count_eq_zero_of_not_mem hnone, Nat.zero_sub, List.replicate_zero, List.flatten_nil,
        List.append_nil]
  · intro before
    by_cases hcompile : .compile ∈ before
    · obtain ⟨first, after, rfl, hfirst, hcount⟩ := hsplit hcompile
      obtain ⟨last, hserve, hrests', hlast⟩ := serveAll_compile htypecheck hrests hfirst after
      rw [hserve, outcome_of_typecheck hrests'.typecheck, outcome_of_typecheck htypecheck, hcount]
      exact outcomeAfter_journal answer c' hlast
    · have hsame := same_compile_serveAll hcompile c
      rw [outcome_congr hsame, List.count_eq_zero_of_not_mem hcompile]
      rcases outcome c with d | issues | e
      · rfl
      · exact congrArg (fun issues => Except.ok (Except.error issues)) (List.append_nil issues).symm
      · rfl

/-- A variable whose value calls a function that finds, after its first call, another function than it was read with. -/
def unevaluableSource : Source :=
  .ofString "unevaluable" "[f x] 1; y = \x7b [h x] f(x); + h(1); [f x, y] 2; + h(1); \x7d; [main t] y"

theorem serveAll_repeats_unevaluableSource :
    let c := prepared unevaluableSource true none false
    let issues := (Request.compile.serve c).journal.issues
    (∃ i, issues = (Request.typecheck.serve c).journal.issues ++ [i]) ∧
      ∃ i, (serveAll [.typecheck, .compile, .lex, .compile, .parse] c).journal.issues = issues ++ [i] := by
  intro c issues
  have hcount : issues.length = (Request.typecheck.serve c).journal.issues.length + 1 := by decide +kernel
  obtain ⟨own, _, _, hcompile, hissues, _⟩ := serveAll_repeats c
  have hown : own.length = 1 := by
    have hlength : issues.length = _ := congrArg List.length hcompile
    rw [List.length_append] at hlength
    omega
  obtain ⟨i, rfl⟩ := List.length_eq_one_iff.1 hown
  exact ⟨⟨i, hcompile⟩, i, hissues [.typecheck, .compile, .lex, .compile, .parse] .compile (by decide) (by decide)⟩

end Compilation
end ToneScript
