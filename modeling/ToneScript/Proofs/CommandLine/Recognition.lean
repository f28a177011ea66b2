import Mathlib.Data.List.Infix
import ToneScript.CommandLine.Desk

/-! Which arguments are options. A command line is read twice, once for the log and once for the program, and each reader
leaves to the other what it takes for the other's. The main statement says on which arguments they differ, and what
becomes of those that are no options. -/
namespace ToneScript

/-! Options of the log. -/

theorem Text.isSome_after?_iff {lead s : String} : (after? lead s).isSome = true ↔ lead.toList <+: s.toList := by
  rw [← List.isPrefixOf_iff_prefix]
  unfold after?
  split <;> simp_all

namespace Log

/-- The options that stand alone. -/
def switches : List String :=
  ["-q", "--quiet", "--verbose"]

/-- The starts of the options that hold a value. -/
def settings : List String :=
  ["--log-level=", "--log-filter=", "--log-file=", "--log-format="]

/-- Whether an argument is one of the logging options that are documented. -/
def IsOption (arg : String) : Prop :=
  (∃ lead ∈ settings, lead.toList <+: arg.toList) ∨ arg ∈ switches ∨
    ∃ n, arg.toList = '-' :: List.replicate (n + 1) 'v'

theorem verboseCount_pos_iff {arg : String} :
    0 < verboseCount arg ↔ ∃ n, arg.toList = '-' :: List.replicate (n + 1) 'v' := by
  unfold verboseCount
  constructor
  · intro h
    split at h
    · rename_i vs htext
      split at h
      · rename_i hall
        have hvs : vs = List.replicate vs.length 'v' := by
          rw [List.eq_replicate_iff]
          simpa using hall
        refine ⟨vs.length - 1, ?_⟩
        rw [htext, Nat.sub_add_cancel h, ← hvs]
      · cases h
    · cases h
  · rintro ⟨n, htext⟩
    simp [htext]

/-- The log takes exactly the options that are documented. -/
theorem isSome_ofArgument?_iff {arg : String} : (Flag.ofArgument? arg).isSome = true ↔ IsOption arg := by
  have hread : (Flag.ofArgument? arg).isSome = true ↔
      (Text.after? "--log-level=" arg).isSome = true ∨ (Text.after? "--log-filter=" arg).isSome = true ∨
      (Text.after? "--log-file=" arg).isSome = true ∨ (Text.after? "--log-format=" arg).isSome = true ∨
      (arg = "-q" ∨ arg = "--quiet") ∨ arg = "--verbose" ∨ 0 < verboseCount arg := by
    unfold Flag.ofArgument?
    cases Text.after? "--log-level=" arg <;> cases Text.after? "--log-filter=" arg <;>
      cases Text.after? "--log-file=" arg <;> cases Text.after? "--log-format=" arg <;>
      simp only [Option.isSome_some, Option.isSome_none, true_or, or_true, Bool.false_eq_true, false_or]
    by_cases hquiet : arg = "-q" ∨ arg = "--quiet"
    · simp [hquiet]
    by_cases hverbose : arg = "--verbose"
    · simp [hverbose]
    by_cases hcount : 0 < verboseCount arg <;> simp [hquiet, hverbose, hcount]
  rw [hread]
  simp [IsOption, settings, switches, Text.isSome_after?_iff, verboseCount_pos_iff, or_assoc]

instance (arg : String) : Decidable (IsOption arg) :=
  decidable_of_iff _ isSome_ofArgument?_iff

end Log

namespace CommandLine

/-! Options of the program. -/

/-- The options that ask for a text instead of a run. -/
def requests : List String :=
  ["--help", "-h", "--version", "-V"]

/-- The options that stand alone and do not end the reading. -/
def switches : List String :=
  ["--Werror", "--diagnostics=json", "--no-color"]

/-- The starts of the options that hold a value. -/
def settings : List String :=
  ["--samples=", "--rate=", "--entry="]

/-- Whether an argument is one of the program's own options. -/
def IsOption (arg : String) : Prop :=
  arg ∈ requests ++ switches ∨ ∃ lead ∈ settings, lead.toList <+: arg.toList

instance (arg : String) : Decidable (IsOption arg) :=
  inferInstanceAs (Decidable (_ ∨ _))

/-- Whether an argument starts like a logging option and is none. -/
def IsStray (arg : String) : Prop :=
  (∃ start ∈ ["--log-", "-v"], start.toList <+: arg.toList) ∧ ¬Log.IsOption arg

instance (arg : String) : Decidable (IsStray arg) :=
  inferInstanceAs (Decidable (_ ∧ _))

theorem isLogFlag_iff_start {arg : String} : isLogFlag arg = true ↔
    arg ∈ Log.switches ∨ ∃ start ∈ ["--log-", "-v"], start.toList <+: arg.toList := by
  simp only [isLogFlag, Log.switches, Bool.or_eq_true, List.isPrefixOf_iff_prefix, beq_iff_eq, List.mem_cons, List.not_mem_nil,
    or_false, or_and_right, exists_or, exists_eq_left]
  tauto

theorem isLogFlag_iff {arg : String} : isLogFlag arg = true ↔ Log.IsOption arg ∨ IsStray arg := by
  rw [isLogFlag_iff_start]
  constructor
  · rintro (hname | hstart)
    · exact .inl (.inr (.inl hname))
    · by_cases hoption : Log.IsOption arg
      · exact .inl hoption
      · exact .inr ⟨hstart, hoption⟩
  · rintro ((⟨lead, hlead, htext⟩ | hname | ⟨n, htext⟩) | ⟨hstart, -⟩)
    · have hshort : ∀ lead ∈ Log.settings, "--log-".toList <+: lead.toList := by decide
      exact .inr ⟨"--log-", by decide, (hshort lead hlead).trans htext⟩
    · exact .inl hname
    · exact .inr ⟨"-v", by decide, List.replicate n 'v', htext.symm⟩
    · exact .inr hstart

/-- The log's reader and the program's agree on an argument unless it is stray. -/
theorem isLogFlag_eq_iff {arg : String} : isLogFlag arg = (Log.Flag.ofArgument? arg).isSome ↔ ¬IsStray arg := by
  rw [Bool.eq_iff_iff, isLogFlag_iff, Log.isSome_ofArgument?_iff]
  constructor
  · intro hsame hstray
    exact hstray.2 (hsame.1 (.inr hstray))
  · intro hstray
    exact ⟨fun h => h.resolve_right hstray, .inl⟩

/-- No option of the program is left to the log. -/
theorem not_isOption_of_isLogFlag {arg : String} (h : isLogFlag arg = true) : ¬IsOption arg := by
  rintro (hname | ⟨lead, hlead, htext⟩)
  · have hnames : ∀ name ∈ requests ++ switches, isLogFlag name = false := by decide
    exact absurd h (Bool.eq_false_iff.1 (hnames arg hname))
  · rcases isLogFlag_iff_start.1 h with hname | ⟨start, hstart, htext'⟩
    · have hnames : ∀ name ∈ Log.switches, ∀ lead ∈ settings, ¬lead.toList <+: name.toList := by decide
      exact hnames arg hname lead hlead htext
    · have hstarts : ∀ start ∈ ["--log-", "-v"], ∀ lead ∈ settings,
          ¬(start.toList <+: lead.toList ∨ lead.toList <+: start.toList) := by decide
      exact hstarts start hstart lead hlead (List.prefix_or_prefix_of_prefix htext' htext)

/-- What is done with an argument that is no option of the program. -/
theorem add_of_not_isOption {arg : String} (h : ¬IsOption arg) (o : Options) : o.add arg =
    if isLogFlag arg = true then .ok o
    else if arg.toList.head? = some '-' then .error (.unknown arg) else .ok { o with path := arg } := by
  have hlead : ∀ lead ∈ settings, Text.after? lead arg = none := by
    intro lead hlead
    rw [← Option.not_isSome_iff_eq_none, Text.isSome_after?_iff]
    exact fun htext => h (.inr ⟨lead, hlead, htext⟩)
  have hname : arg ∉ requests ++ switches := fun hname => h (.inl hname)
  simp only [requests, switches, List.cons_append, List.nil_append, List.mem_cons, List.not_mem_nil, or_false,
    not_or] at hname
  obtain ⟨hhelp, hshortHelp, hversion, hshortVersion, hstrict, hjson, hcolor⟩ := hname
  simp only [Options.add, hhelp, hshortHelp, hversion, hshortVersion, hstrict, hjson, hcolor, hlead "--samples=" (by decide),
    hlead "--rate=" (by decide), hlead "--entry=" (by decide), or_self, if_false]

/-! Whole command lines. -/

variable {before after : List String} {arg : String}

theorem ofArguments_append_cons : Options.ofArguments (before ++ arg :: after) =
    Options.ofArguments before >>= fun o => o.add arg >>= fun o => after.foldlM Options.add o := by
  simp [Options.ofArguments, List.foldlM_append, List.foldlM_cons]

/-- What is left to the log is passed over. -/
theorem ofArguments_of_isLogFlag (h : isLogFlag arg = true) :
    Options.ofArguments (before ++ arg :: after) = Options.ofArguments (before ++ after) := by
  have hadd (o : Options) : o.add arg = .ok o := by
    rw [add_of_not_isOption (not_isOption_of_isLogFlag h), if_pos h]
  rw [ofArguments_append_cons]
  simp only [hadd, Options.ofArguments, List.foldlM_append]
  rfl

theorem config_of_not_isOption (h : ¬Log.IsOption arg) (setting : String) :
    Log.Config.ofArguments (before ++ arg :: after) setting = Log.Config.ofArguments (before ++ after) setting := by
  have hnone : Log.Flag.ofArgument? arg = none := by
    rwa [← Option.not_isSome_iff_eq_none, Log.isSome_ofArgument?_iff]
  simp only [Log.Config.ofArguments, List.filterMap_append, List.filterMap_cons, hnone]

/-- Whether reading has ended because of a mistake, and not at the user's wish. -/
def Halt.IsMistake : Halt → Prop
  | .help | .version => False
  | .unknown _ | .numeral _ => True

theorem isMistake_of_add {o : Options} {e : Halt} (h : o.add arg = .error e) (hname : arg ∉ requests) : e.IsMistake := by
  simp only [requests, List.mem_cons, List.not_mem_nil, or_false, not_or] at hname
  obtain ⟨hhelp, hshortHelp, hversion, hshortVersion⟩ := hname
  simp only [Options.add, hhelp, hshortHelp, hversion, hshortVersion, or_self, if_false] at h
  repeat' split at h
  all_goals cases h
  all_goals trivial

theorem isMistake_of_foldlM {args : List String} {o : Options} {e : Halt} (h : args.foldlM Options.add o = .error e)
    (hnames : ∀ a ∈ args, a ∉ requests) : e.IsMistake := by
  induction args generalizing o with
  | nil => cases h
  | cons a args ih =>
    rw [List.foldlM_cons] at h
    cases hadd : o.add a with
    | error e' =>
      rw [hadd] at h
      cases h
      exact isMistake_of_add hadd (hnames a List.mem_cons_self)
    | ok o' =>
      rw [hadd] at h
      exact ih h fun b hb => hnames b (List.mem_cons_of_mem a hb)

/-- An unknown option ends the reading unless it has ended before. -/
theorem exists_mistake_of_unknown (hadd : ∀ o : Options, o.add arg = .error (.unknown arg))
    (hnames : ∀ a ∈ before, a ∉ requests) (after : List String) :
    ∃ e : Halt, Options.ofArguments (before ++ arg :: after) = .error e ∧ e.IsMistake := by
  rw [ofArguments_append_cons]
  cases hbefore : Options.ofArguments before with
  | error e => exact ⟨e, rfl, isMistake_of_foldlM hbefore hnames⟩
  | ok o => exact ⟨.unknown arg, by simp only [bind, Except.bind, hadd], trivial⟩

section Run

variable {m : Type → Type} [Monad m] (host : Host m) (logger : Log.Logger)

/-- After a mistake the program says what is wrong and returns 2. -/
theorem run_of_mistake {args : List String} {e : Halt} (h : Options.ofArguments args = .error e) (he : e.IsMistake) :
    ∃ text, run host logger args = (do
      let _ ← startLog host logger args
      host.err text
      return 2) := by
  unfold run
  rw [h]
  cases e with
  | help => exact he.elim
  | version => exact he.elim
  | unknown a => exact ⟨_, rfl⟩
  | numeral e =>
    cases e with
    | notANumber => exact ⟨_, rfl⟩
    | outOfRange => exact ⟨_, rfl⟩

/-- The program does what it does without an argument if both readers pass over it. -/
theorem run_of_isStray (h : IsStray arg) :
    run host logger (before ++ arg :: after) = run host logger (before ++ after) := by
  have hlog : startLog host logger (before ++ arg :: after) = startLog host logger (before ++ after) := by
    unfold startLog
    rw [config_of_not_isOption h.2]
  unfold run
  rw [hlog, ofArguments_of_isLogFlag (isLogFlag_iff.2 (.inr h))]

/-- The two readers of a command line agree on which arguments are logging options, except that the program passes over
arguments that only start like one. These change nothing at all. Any other argument with a dash in front that is no option
makes the program return 2, if nobody asked for help or the version before. -/
theorem isLogFlag_eq_and_run (before after : List String) (arg : String) :
    (isLogFlag arg = (Log.Flag.ofArgument? arg).isSome ↔ ¬IsStray arg) ∧
    (IsStray arg → run host logger (before ++ arg :: after) = run host logger (before ++ after)) ∧
    (arg.toList.head? = some '-' → ¬IsOption arg → ¬Log.IsOption arg → ¬IsStray arg →
      (∀ a ∈ before, a ∉ requests) →
      ∃ text, run host logger (before ++ arg :: after) = (do
        let _ ← startLog host logger (before ++ arg :: after)
        host.err text
        return 2)) := by
  refine ⟨isLogFlag_eq_iff, run_of_isStray host logger, ?_⟩
  intro hdash hoption hlog hstray hnames
  have hflag : ¬isLogFlag arg = true := by
    rw [isLogFlag_iff]
    exact not_or.2 ⟨hlog, hstray⟩
  have hadd (o : Options) : o.add arg = .error (.unknown arg) := by
    rw [add_of_not_isOption hoption, if_neg hflag, if_pos hdash]
  obtain ⟨e, he, hmistake⟩ := exists_mistake_of_unknown hadd hnames after
  exact run_of_mistake host logger he hmistake

end Run

theorem isLogFlag_eq_and_run_misspelt :
    isLogFlag "-vx" ≠ (Log.Flag.ofArgument? "-vx").isSome ∧
    runAt {} "" {} ["-vx", "tone"] = runAt {} "" {} ["tone"] ∧
    (runAt {} "" {} ["--samples=1", "-x", "tone"]).1 = 2 := by
  have hstray : IsStray "-vx" := by decide
  obtain ⟨hreaders, hskipped, -⟩ := isLogFlag_eq_and_run (Desk.host "") {} [] ["tone"] "-vx"
  obtain ⟨-, -, hrefused⟩ := isLogFlag_eq_and_run (Desk.host "") {} ["--samples=1"] ["tone"] "-x"
  obtain ⟨text, hrun⟩ := hrefused (by decide) (by decide) (by decide) (by decide) (by decide)
  refine ⟨fun hsame => hreaders.1 hsame hstray, ?_, ?_⟩
  · exact congrArg (fun program => program.run {}) (hskipped hstray)
  · exact congrArg (fun program => (program.run {}).1) hrun

end CommandLine
end ToneScript
