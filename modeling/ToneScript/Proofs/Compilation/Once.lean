import ToneScript.Proofs.Compilation.Annotated
import ToneScript.Proofs.Compilation.Stages
import ToneScript.Proofs.Text.Names
import ToneScript.Proofs.Typing.Turns

/-! Each body is checked once. A program that is read without an error is checked to the end, and its functions are
turned to in the order of the text, each of them once and before anything is known of its signature. -/
namespace ToneScript

/-- Functions that are added capture nothing yet. -/
theorem Typing.captures_addDefinitions (t : Typing) (definitions : List FunctionDef) :
    (definitions.foldl Typing.addDefinition t).captures = t.captures :=
  Typing.foldl_kept Typing.captures Typing.addDefinition (fun _ _ => rfl) definitions t

theorem Typing.capturesOf_addDefinitions {t : Typing} (h : t.captures = []) (definitions : List FunctionDef)
    (key : FunctionKey) : (definitions.foldl Typing.addDefinition t).capturesOf key = [] := by
  rw [Typing.capturesOf, Typing.captures_addDefinitions, h]
  rfl

namespace FunctionDef

/-- Functions that stand in order are different ones. -/
theorem InOrder.nodup {lo hi : Nat} {fs : List FunctionDef} (h : InOrder lo hi fs) : fs.Nodup := by
  refine h.2.1.imp fun hlt heq => ?_
  rw [heq] at hlt
  exact Nat.lt_irrefl _ hlt

end FunctionDef

namespace Check

variable {names : NameTable} {program : Program} {size : Nat} {s start mid s' : State}
  {constants : List (Ident × Value)} {intrinsics : List IntrinsicEntry}

/-- A program is laid out in the table that it was read into. -/
theorem laidOut_of_reading (functions : FunctionTable) (hsize : size < UInt64.size)
    (hreading : s.table.Reading [rootBlock] size) (hplaced : Item.AllPlaced constants s.table 0 size program) :
    Elaboration.LaidOut ⟨constants, intrinsics, s.table, functions, program⟩ size where
  size_lt := hsize
  placed := hplaced
  bound key name d hd hsource := by
    rcases hreading.tidy.bound key name d hd with ⟨hbuiltin, _⟩ | ⟨_, hbound, _⟩
    · rw [hsource] at hbuiltin
      cases hbuiltin
    · exact hbound
  proper := hreading.tidy.proper

/-- All functions of a program are due when its check begins. -/
theorem due_start (hstart : start = { s with
      typing := (program.flatMap Item.definitions).foldl Typing.addDefinition s.typing })
    (hsize : size < UInt64.size) (hreading : s.table.Reading [rootBlock] size)
    (hplaced : Item.AllPlaced constants s.table 0 size program) (hguards : program.Obeys .unguarded)
    (hfunctions : start.typing.functions.Untouched intrinsics (program.flatMap Item.definitions))
    (hcaptures : ∀ key, start.typing.capturesOf key = [])
    (hparams : ∀ f ∈ program.functions, ((f.params.map Param.name).map names.name).Nodup)
    (hintrinsics : ∀ i ∈ intrinsics, (i.params.map names.name).Nodup) :
    start.Due names s.table none [rootBlock] program.functions := by
  have hlaid : Elaboration.LaidOut ⟨constants, intrinsics, s.table, [], program⟩ size :=
    laidOut_of_reading [] hsize hreading hplaced
  have hcollected := Program.functions_subset hguards
  have htable : start.table = s.table := by rw [hstart]
  constructor
  case later => exact htable ▸ .refl _ _
  case frame => exact htable ▸ hreading.frame
  case framed => exact htable ▸ framed_of_reading hreading
  case pending =>
    intro key f
    constructor
    · intro hlookup
      obtain ⟨_, hkey, hf⟩ := hfunctions.pending key f _ hlookup
      exact ⟨Program.definitions_subset _ hf, hkey⟩
    · rintro ⟨hf, rfl⟩
      obtain ⟨g, hg, hkey, hlookup⟩ := hfunctions.definition f (hcollected hf)
      cases hlaid.eq_of_key_eq (Program.definitions_subset _ hg) hf hkey
      exact hlookup
  case distinct => exact hplaced.inOrder.nodup.map_on fun f hf g hg hkey => hlaid.eq_of_key_eq hf hg hkey
  case declared => exact fun f hf => hlaid.find? hf
  case outside => exact fun _ _ => nofun
  case uncaptured => exact fun f _ => hcaptures f.key
  case spelled =>
    rintro key ⟨definition?, progress⟩ hlookup
    cases definition? with
    | none =>
      obtain ⟨i, hi, _, rfl⟩ := hfunctions.builtin key progress hlookup
      refine ⟨nofun, ?_⟩
      rintro _ ⟨⟩
      exact Signature.spelled_of_type (hintrinsics i hi) rfl
    | some f =>
      obtain ⟨rfl, _, hf⟩ := hfunctions.pending key f progress hlookup
      refine ⟨?_, nofun⟩
      rintro _ ⟨⟩
      exact hparams f (Program.definitions_subset _ hf)

/-- Where no signature is missing any more, no function is turned to. -/
theorem keysEvents_idle (hpending : ∀ key f, s.typing.functions.lookup key ≠ some ⟨some f, .pending⟩)
    (hactive : ∀ key f, s.typing.functions.lookup key ≠ some ⟨some f, .active⟩) (keys : List FunctionKey) :
    keysEvents names keys s = [] := by
  induction keys with
  | nil => rfl
  | cons key keys ih =>
    have hrun : (resolveOnce names key).run s = .ok ((), s) := by
      unfold resolveOnce
      rw [run_bind_eq (show (get : Step State).run s = .ok (s, s) from rfl)]
      rcases hlookup : s.typing.functions.lookup key with _ | ⟨_ | f, _ | _ | signature⟩
      case some.some.pending => exact absurd hlookup (hpending key f)
      all_goals rfl
    rw [keysEvents, eventsAfter, hrun]
    rcases hlookup : s.typing.functions.lookup key with _ | ⟨_ | f, _ | _ | signature⟩
    case some.some.pending => exact absurd hlookup (hpending key f)
    case some.some.active => exact absurd hlookup (hactive key f)
    all_goals exact ih

/-- The functions of a program are turned to in the order of the text. -/
theorem program_once {u : Unit} (h : (Check.program names program).run s = .ok (u, s'))
    (hstart : start = { s with
      typing := (program.flatMap Item.definitions).foldl Typing.addDefinition s.typing })
    (hreading : s.table.Reading [rootBlock] size) (hplaced : Item.AllPlaced constants s.table 0 size program)
    (hfunctions : start.typing.functions.Untouched intrinsics (program.flatMap Item.definitions))
    (hdue : start.Due names s.table none [rootBlock] program.functions) :
    start.Passes none program.functions program.places (programEvents names program s) s' := by
  subst hstart
  obtain ⟨_, mid, rfl, hitems, hevolves, _, _, hidle⟩ := program_parts h (framed_of_reading hreading) hfunctions.plain
    (awaits_of_reading hreading hplaced)
  obtain ⟨hmid, hpasses⟩ := items_once hreading.tidy.proper hplaced hdue hfunctions.plain
    (awaits_of_reading hreading hplaced) hitems
  have hpending (key : FunctionKey) (f : FunctionDef) :
      mid.typing.functions.lookup key ≠ some ⟨some f, .pending⟩ := by
    intro hlookup
    cases ((hmid.pending key f).1 hlookup).1
  have hactive (key : FunctionKey) (f : FunctionDef) :
      mid.typing.functions.lookup key ≠ some ⟨some f, .active⟩ := by
    intro hlookup
    cases (hfunctions.pending key f _ (hevolves.functions.of_active hlookup)).1
  have hevents : programEvents names program s = itemsEvents names program
      { s with typing := (program.flatMap Item.definitions).foldl Typing.addDefinition s.typing } := by
    have hcollect (rest : Unit → State → List Event) :
        eventsAfter (modifyTyping fun t => (program.flatMap Item.definitions).foldl Typing.addDefinition t) rest s =
          rest () { s with typing := (program.flatMap Item.definitions).foldl Typing.addDefinition s.typing } := rfl
    rw [programEvents, hcollect, eventsAfter, hitems]
    simp only [keysEvents_idle hpending hactive, List.append_nil]
  obtain ⟨htyping, hissues⟩ := hidle hpending
  rw [hevents]
  exact ⟨hpasses.entered, hpasses.checked, hpasses.finished, htyping ▸ hpasses.captured, htyping ▸ hpasses.kept,
    hissues ▸ hpasses.reported⟩

end Check

namespace Compilation

/-- Whether the names of a compilation are distinct, and those of the parameters of each function that is there from the
start. -/
def Named (c : Compilation) : Prop :=
  c.names.names.Nodup ∧ ∀ i ∈ c.intrinsics, i.params.Nodup ∧ c.names.HoldsAll i.params
deriving Decidable

theorem Named.grow {c c' : Compilation} (h : c.Named) (hnames : c.names.Grows c'.names)
    (hintrinsics : c'.intrinsics = c.intrinsics) : c'.Named := by
  refine ⟨hnames.distinct h.1, fun i hi => ?_⟩
  rw [hintrinsics] at hi
  exact ⟨(h.2 i hi).1, hnames.holdsAll (h.2 i hi).2⟩

theorem Named.intrinsics {c : Compilation} (h : c.Named) : ∀ i ∈ c.intrinsics, (i.params.map c.names.name).Nodup :=
  fun i hi => NameTable.nodup_names h.1 (h.2 i hi).1 (h.2 i hi).2

theorem prepared_named (source : Source) (intrinsics : Bool) (main? : Option (String × FunctionType)) (strict : Bool) :
    (prepared source intrinsics main? strict).Named := by
  suffices hnamed : (prepared default intrinsics main? false).Named by
    rw [prepared_onSource]
    exact hnamed
  have hmain {c : Compilation} (h : c.Named) (name : String) (type : FunctionType) :
      Named { c with names := (c.names.intern name).2, entry := ((c.names.intern name).1, type) } :=
    h.grow (c.names.grows_intern name) rfl
  cases intrinsics with
  | false =>
    have hbare : (ofSource default).Named := by decide +kernel
    cases main? with
    | none => exact hbare
    | some main => exact hmain hbare main.1 main.2
  | true =>
    have hnative : native.Named := by decide +kernel
    rw [prepared_defined]
    cases main? with
    | none => exact hnative
    | some main => exact hmain hnative main.1 main.2

theorem captures_builtinTyping (c : Compilation) : c.builtinTyping.captures = [] := by
  have hadd (t : Typing) (i : IntrinsicEntry) :
      (t.addBuiltin i.name (.ofNumbers i.params .number)).captures = t.captures := rfl
  exact Typing.foldl_kept Typing.captures _ hadd c.intrinsics {}

theorem lex_names {c : Compilation} (hfresh : c.stage = .fresh) :
    (lex.run c).2.names = (Lexer.run c.source c.names c.journal).names ∧ (lex.run c).2.intrinsics = c.intrinsics := by
  rw [lex, run_get_bind, hfresh]
  exact ⟨rfl, rfl⟩

/-- What a compilation knows by name once its source is read. -/
theorem parse_names {c c' : Compilation} {accepted : Bool} {program : Program} (hfresh : c.stage = .fresh)
    (h : parse.run c = (.ok accepted, c')) (hstage : c'.stage = .parsed program) :
    c'.names = (Lexer.run c.source c.names c.journal).names ∧ c'.intrinsics = c.intrinsics := by
  obtain ⟨lexed, tokens, endPos, _, _, hlex, hlexed, _⟩ := parse_parts h hfresh (.inr ⟨program, hstage⟩)
  obtain ⟨_, _, parsed, _, hparse, hended⟩ := parse_run hlex hlexed
  have hsame : c' = parsed := congrArg Prod.snd (h.symm.trans hparse)
  obtain ⟨hnames, hintrinsics⟩ := lex_names hfresh
  rw [hlex] at hnames hintrinsics
  rw [hsame]
  exact ⟨hended.setAlike.names.trans hnames, hended.setAlike.intrinsics.trans hintrinsics⟩

/-- The names of the parameters of a function are different where the functions are made up of tokens. -/
theorem nodup_params {source : Source} {names : NameTable} {journal : Journal} (hdistinct : names.names.Nodup)
    {constants : List (Ident × Value)} {table : SymbolTable} {size : Nat} {program : Program}
    (hderived : Item.AllDerived .full (Lexer.run source names journal).tokens program)
    (hplaced : Item.AllPlaced constants table 0 size program) :
    ∀ f ∈ program.functions, ((f.params.map Param.name).map (Lexer.run source names journal).names.name).Nodup := by
  intro f hf
  obtain ⟨hgrows, hnames⟩ := Lexer.run_grows source names journal
  obtain ⟨us, hus, hfunction⟩ := hderived.functions f hf
  obtain ⟨scope, lo, hi, _, _, _, hwithin⟩ := hplaced.placedWithin f hf
  have hparams : (f.params.map Param.name).Nodup := (FunctionDef.placed_iff.1 hwithin).2.2.1
  refine NameTable.nodup_names (hgrows.distinct hdistinct) hparams fun id hid => ?_
  obtain ⟨p, hp, rfl⟩ := List.mem_map.1 hid
  obtain ⟨t, ht, hkind⟩ := hfunction.params_mem p hp
  exact hnames t (hus ht) p.name hkind

/-- Each body is checked once. A program that is read without an error, with no function defined in a guard, is checked
to the end, and no body is left unchecked. Whatever its functions call, each of them is turned to once, where it is
defined and before anything is known of its signature, so that none is turned to while its body is being checked; and
each body is checked once. No issue is reported twice. What a function captures has been captured by the time its body
has been checked, and nothing has before that. -/
theorem check_once {source : Source} {intrinsics : Bool} {main? : Option (String × FunctionType)}
    {strict accepted : Bool} {c : Compilation} {program : Program}
    (hsize : source.text.length < UInt64.size)
    (hparse : parse.run (prepared source intrinsics main? strict) = (.ok accepted, c))
    (hstage : c.stage = .parsed program) (hclean : c.journal.hasErrors = false)
    (hguards : program.Obeys .unguarded) :
    ∃ s events, (Check.program c.names program).run c.checkStart = .ok ((), s) ∧
      events = Check.programEvents c.names program c.checkStart ∧
      (∀ key, .abandoned key ∉ events) ∧
      events.filterMap Check.Event.entered? = program.functions.map (fun f => (f.key, .pending)) ∧
      events.filterMap Check.Event.checked? = program.functions.map FunctionDef.key ∧
      (program.functions.map FunctionDef.key).Nodup ∧
      (∃ reported, s.journal.issues = c.journal.issues ++ reported ∧ reported.Nodup) ∧
      (∀ key before after, .checked key before after ∈ events →
        before.capturesOf key = [] ∧ after.capturesOf key = s.typing.capturesOf key) ∧
      ∀ key, key ∉ program.functions.map FunctionDef.key → s.typing.capturesOf key = [] := by
  obtain ⟨hsource, hfresh⟩ := prepared_fresh source intrinsics main? strict
  have hstarts := prepared_starts source intrinsics main? strict
  have hnamed := prepared_named source intrinsics main? strict
  have herrors : c.journal.errorCount = 0 := by simpa [Journal.hasErrors] using hclean
  rw [← hsource] at hsize
  generalize prepared source intrinsics main? strict = c₀ at *
  obtain ⟨hsettled, hlooked, hreading, hplaced⟩ := parse_lookups hfresh hstarts hsize hparse hstage herrors
  have hderived := parse_derived hfresh hparse hstage herrors
  obtain ⟨hnames, hintrinsics⟩ := parse_names hfresh hparse hstage
  have hparams := nodup_params hnamed.1 hderived hplaced
  rw [← hnames] at hparams
  have hbuiltin : c.Named := hnamed.grow (hnames ▸ (Lexer.run_grows _ _ _).1) hintrinsics
  have hprogram : c.program = program := by rw [Compilation.program, hstage]
  subst hprogram
  have hobeys := hlooked _ (Program.functions_subset hguards)
  obtain ⟨_, s, hrun, _⟩ := checkItems_works hsettled hobeys hreading hplaced
  have hnone := Typing.capturesOf_addDefinitions (captures_builtinTyping c) (c.program.flatMap Item.definitions)
  have hdue := Check.due_start (s := c.checkStart) rfl hsize hreading hplaced hguards (untouched c _) hnone hparams
    hbuiltin.intrinsics
  have hpasses := Check.program_once hrun rfl hreading hplaced (untouched c _) hdue
  have hplaces : c.program.places.Nodup :=
    hderived.nodup_places (Lexer.ordered_run c₀.source c₀.names c₀.journal hsize)
  obtain ⟨reported, hreported, hconfined⟩ := hpasses.reported
  refine ⟨s, _, hrun, rfl, hpasses.finished, hpasses.entered, hpasses.checked, hdue.distinct,
    ⟨reported, hreported, hconfined.1 hplaces⟩, hpasses.captured, fun key hkey => ?_⟩
  exact (hpasses.kept key hkey fun frame hframe => absurd hframe (Option.not_mem_none frame)).trans (hnone key)

/-- Functions within each other that call those around them and each other, with a parameter that gets no value in two
calls. -/
def mutualSource : Source :=
  .ofString "mutual" "[main t] \x7b [g x, z] \x7b [h y] main(y) + g(t); + h(x); \x7d; + g(t); + (t < 1) + 1; \x7d"

theorem check_once_mutualSource :
    ∃ c s events, parse.run (prepared mutualSource false none false) = (.ok true, c) ∧
      (Check.program c.names c.program).run c.checkStart = .ok ((), s) ∧
      events = Check.programEvents c.names c.program c.checkStart ∧
      c.program.functions.length = 3 ∧ s.journal.issues.length = 3 ∧ s.typing.captures.length = 1 ∧
      events.filterMap Check.Event.entered? = c.program.functions.map (fun f => (f.key, .pending)) ∧
      events.filterMap Check.Event.checked? = c.program.functions.map FunctionDef.key ∧
      ∃ reported, s.journal.issues = c.journal.issues ++ reported ∧ reported.Nodup := by
  have hfacts : ∃ r, parse.run (prepared mutualSource false none false) = r ∧ r.1 = .ok true ∧
      r.2.stage.ctorIdx = 2 ∧ r.2.journal.hasErrors = false ∧ r.2.program.Obeys .unguarded ∧
      r.2.program.functions.length = 3 ∧
      ((Check.program r.2.names r.2.program).run r.2.checkStart).toOption.any
        (fun checked => checked.2.journal.issues.length == 3 && checked.2.typing.captures.length == 1) = true :=
    ⟨_, rfl, by decide +kernel⟩
  obtain ⟨⟨_, c⟩, hparse, rfl, hstage, hclean, hguards, hthree, hcounts⟩ := hfacts
  cases hprogram : c.stage with
  | parsed program =>
    have hsame : c.program = program := by rw [Compilation.program, hprogram]
    rw [← hsame] at hprogram
    obtain ⟨s, events, hrun, hevents, _, hentered, hchecked, _, hreported, _⟩ :=
      check_once (by decide +kernel) hparse hprogram hclean hguards
    rw [hrun] at hcounts
    simp only [Except.toOption, Option.any_some, Bool.and_eq_true, beq_iff_eq] at hcounts
    exact ⟨c, s, events, hparse, hrun, hevents, hthree, hcounts.1, hcounts.2, hentered, hchecked, hreported⟩
  | fresh | lexed | checked => simp [hprogram, Stage.ctorIdx] at hstage

end Compilation
end ToneScript
