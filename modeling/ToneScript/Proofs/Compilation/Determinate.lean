import ToneScript.Proofs.Reference.Agreement

/-! Types that stay unknown. If a check reports no error, every function of the program has a signature with a type that
is known, and so has every name that is assigned. -/
namespace ToneScript

namespace FunctionInfo

/-- The signature of a function, for which nothing is taken to be known of the result if it has not been found. -/
def signatureOrProvisional (info : FunctionInfo) : Signature :=
  match info.progress, info.definition? with
  | .resolved signature, _ => signature
  | .pending, some f | .active, some f => .provisional f
  | .pending, none | .active, none => default

end FunctionInfo

namespace FunctionTable

/-- A table of functions in which the signatures that have not been found are provisional. -/
def completed (t : FunctionTable) : FunctionTable :=
  t.map fun entry => (entry.1, { entry.2 with progress := .resolved entry.2.signatureOrProvisional })

theorem lookup_completed (t : FunctionTable) (key : FunctionKey) :
    t.completed.lookup key =
      (t.lookup key).map fun info => { info with progress := .resolved info.signatureOrProvisional } := by
  induction t with
  | nil => rfl
  | cons entry t ih =>
    have hcons : FunctionTable.completed (entry :: t) =
        (entry.1, { entry.2 with progress := .resolved entry.2.signatureOrProvisional }) :: FunctionTable.completed t := rfl
    rw [hcons, List.lookup_cons, List.lookup_cons]
    split
    · rfl
    · exact ih

/-- Signatures that have not been found can turn out to be the provisional ones. -/
theorem Untouched.settles_completed {t t' : FunctionTable} {intrinsics : List IntrinsicEntry}
    {definitions : List FunctionDef} (h : t.Untouched intrinsics definitions) (hg : t.Grows t') :
    t'.Settles t'.completed := by
  intro key info hlookup
  refine ⟨info.signatureOrProvisional, by rw [lookup_completed, hlookup]; rfl, ?_⟩
  rcases h.progress hg hlookup with ⟨f, rfl⟩ | ⟨signature, hresolved, hparams⟩
  · refine ⟨nofun, ?_⟩
    rintro _ ⟨⟩
    exact Signature.parameters_provisional f
  · have hsame : info.signatureOrProvisional = signature := by
      obtain ⟨definition?, progress⟩ := info
      cases hresolved
      rfl
    rw [hsame, hresolved]
    exact ⟨by rintro _ ⟨⟩; rfl, hparams⟩

end FunctionTable

namespace Check

variable {names : NameTable} {program : Program} {size : Nat} {s s' : State} {intrinsics : List IntrinsicEntry}
  {constants : List (Ident × Value)}

/-- A signature that a completed table has for a function that returns a value was found. -/
theorem State.Learned.found {w : Elaboration} (h : s.Learned w) {f : FunctionDef} {signature : Signature}
    (hlookup : s.typing.functions.completed.lookup f.key = some ⟨some f, .resolved signature⟩)
    (hkind : signature.type.returns.IsKind) :
    s.typing.functions.lookup f.key = some ⟨some f, .resolved signature⟩ ∧ signature.failed = false := by
  rw [FunctionTable.lookup_completed] at hlookup
  obtain ⟨⟨definition?, progress⟩, hinfo, heq⟩ := Option.map_eq_some_iff.1 hlookup
  have hprovisional : ¬(Signature.provisional f).type.returns.IsKind := by
    rintro (h | h) <;> cases h
  cases progress with
  | resolved found =>
    cases heq
    exact ⟨hinfo, (h.known f.key f found hinfo).usable.failed⟩
  | pending | active =>
    cases heq
    exact absurd hkind hprovisional

/-- When the items have been checked without an error, all signatures are known, and the types of all names that are
assigned. -/
theorem items_determinate {start mid : State} (hstart : start = { s with
      typing := (program.flatMap Item.definitions).foldl Typing.addDefinition s.typing })
    (hitems : (items names program).run start = .ok ((), mid)) (hevolves : start.Evolves mid)
    (hclean : mid.journal.errorCount = 0) (hsize : size < UInt64.size)
    (hreading : s.table.Reading [rootBlock] size) (hpoisoned : s.poisoned = 0)
    (hnative : s.table.Native constants intrinsics)
    (hfunctions : ((program.flatMap Item.definitions).foldl Typing.addDefinition
      s.typing).functions.Untouched intrinsics (program.flatMap Item.definitions))
    (hplaced : ∀ T, SymbolTable.Later size s.table T → Item.AllPlaced constants T 0 size program) :
    (∀ f ∈ program.functions, ∃ signature, mid.typing.functions.lookup f.key = some ⟨some f, .resolved signature⟩ ∧
      signature.type.returns.IsKind ∧ signature.failed = false) ∧
    ∀ name value pos, .assignment name value pos ∈ program →
      ∃ d ty, mid.table.find? rootBlock name = some d ∧ d.ty? = some ty ∧ ty.IsKind := by
  -- What the items are known to be does not depend on signatures that are found after them.
  let w : Elaboration := ⟨constants, intrinsics, mid.table, mid.typing.functions.completed, program⟩
  have hgrows : FunctionTable.Grows start.typing.functions mid.typing.functions := hevolves.functions
  rw [hstart] at hgrows
  obtain ⟨hlaid, _, _, hlearned, hobeys, _⟩ := items_learned (w := w) hstart hitems hevolves hclean hsize hreading
    hpoisoned hnative hfunctions hplaced rfl rfl (hfunctions.settles_completed hgrows) (List.length_map _).symm
  constructor
  · intro f hf
    obtain ⟨q, hf⟩ := Program.functions_obey hobeys f hf
    obtain ⟨signature, hlookup, _, _, hkind, _⟩ := (FunctionDef.obeys_iff.1 hf).1
    obtain ⟨hfound, hfailed⟩ := hlearned.found hlookup hkind
    exact ⟨signature, hfound, hkind, hfailed⟩
  · intro name value pos hmem
    obtain ⟨⟨d, hd, hty, -⟩, -⟩ := hobeys _ hmem
    refine ⟨d, _, hd, hty, ?_⟩
    obtain ⟨d', hd', _, hvariable, _⟩ := hlaid.placed.assigned.2 name
      (List.mem_filterMap.2 ⟨_, hmem, rfl⟩)
    cases hd.symm.trans hd'
    rcases (hlaid.proper rootBlock name d hd).typed _ hty with heq | hkind
    · rw [Declaration.isFunction, hty, heq] at hvariable
      cases hvariable
    · exact hkind

/-- Once the items of a program have been checked without an error, no function is left to check. -/
theorem program_settled {u : Unit} (h : (Check.program names program).run s = .ok (u, s'))
    (hclean : s'.journal.errorCount = 0) (hsize : size < UInt64.size)
    (hreading : s.table.Reading [rootBlock] size) (hpoisoned : s.poisoned = 0)
    (hnative : s.table.Native constants intrinsics)
    (hfunctions : ((program.flatMap Item.definitions).foldl Typing.addDefinition
      s.typing).functions.Untouched intrinsics (program.flatMap Item.definitions))
    (hplaced : ∀ T, SymbolTable.Later size s.table T → Item.AllPlaced constants T 0 size program) :
    ∃ start mid, start = { s with typing := (program.flatMap Item.definitions).foldl Typing.addDefinition s.typing } ∧
      (items names program).run start = .ok ((), mid) ∧ start.Evolves mid ∧ mid.Grows s' ∧
      mid.journal.errorCount = 0 ∧ s'.typing = mid.typing ∧
      (∀ key f, mid.typing.functions.lookup key ≠ some ⟨some f, .pending⟩) ∧
      ∀ f ∈ program.functions, ∃ signature, mid.typing.functions.lookup f.key = some ⟨some f, .resolved signature⟩ := by
  obtain ⟨start, mid, hstart, hitems, hevolves, hg, _, hidle⟩ := program_parts h (framed_of_reading hreading)
    hfunctions.plain (awaits_of_reading hreading (hplaced s.table (.refl _ _)))
  have hclean' : mid.journal.errorCount = 0 := Nat.le_zero.1 (hclean ▸ hg.errors)
  have hgrows : FunctionTable.Grows start.typing.functions mid.typing.functions := hevolves.functions
  obtain ⟨hfound, _⟩ := items_determinate hstart hitems hevolves hclean' hsize hreading hpoisoned hnative
    hfunctions hplaced
  have hdone (key : FunctionKey) (f : FunctionDef) : mid.typing.functions.lookup key ≠ some ⟨some f, .pending⟩ := by
    intro hlookup
    obtain ⟨progress, hold⟩ := hgrows.origin hlookup
    rw [hstart] at hold
    obtain ⟨_, rfl, hf⟩ := hfunctions.pending _ _ _ hold
    obtain ⟨signature, hresolved, _⟩ := hfound f (Program.definitions_subset _ hf)
    cases hresolved.symm.trans hlookup
  refine ⟨start, mid, hstart, hitems, hevolves, hg, hclean', (hidle hdone).1, hdone, fun f hf => ?_⟩
  obtain ⟨signature, hresolved, _⟩ := hfound f hf
  exact ⟨signature, hresolved⟩

/-- A check without an error finds all signatures, and the types of all names that are assigned. -/
theorem program_determinate {u : Unit} (h : (Check.program names program).run s = .ok (u, s'))
    (hclean : s'.journal.errorCount = 0) (hsize : size < UInt64.size)
    (hreading : s.table.Reading [rootBlock] size) (hpoisoned : s.poisoned = 0)
    (hnative : s.table.Native constants intrinsics)
    (hfunctions : ((program.flatMap Item.definitions).foldl Typing.addDefinition
      s.typing).functions.Untouched intrinsics (program.flatMap Item.definitions))
    (hplaced : ∀ T, SymbolTable.Later size s.table T → Item.AllPlaced constants T 0 size program) :
    (∀ f ∈ program.functions, ∃ signature, s'.typing.functions.lookup f.key = some ⟨some f, .resolved signature⟩ ∧
      signature.type.returns.IsKind ∧ signature.failed = false) ∧
    ∀ name value pos, .assignment name value pos ∈ program →
      ∃ d ty, s'.table.find? rootBlock name = some d ∧ d.ty? = some ty ∧ ty.IsKind := by
  obtain ⟨start, mid, hstart, hitems, hevolves, hg, -⟩ := program_parts h (framed_of_reading hreading) hfunctions.plain
    (awaits_of_reading hreading (hplaced s.table (.refl _ _)))
  have hclean' : mid.journal.errorCount = 0 := Nat.le_zero.1 (hclean ▸ hg.errors)
  obtain ⟨hfound, hassigned⟩ := items_determinate hstart hitems hevolves hclean' hsize hreading hpoisoned hnative
    hfunctions hplaced
  constructor
  · intro f hf
    obtain ⟨signature, hlookup, hrest⟩ := hfound f hf
    exact ⟨signature, hg.functions.resolved hlookup, hrest⟩
  · rw [hg.table]
    exact hassigned

end Check

namespace Compilation

/-- No type stays unknown in silence. A program that is read without an error, with no function defined in a guard, can
be checked; if the check reports no error, then every function of the program, however deep it is defined, has a
signature that has not failed and whose result is known, and every name that is assigned has a type that is known. -/
theorem check_determinate {source : Source} {intrinsics : Bool} {main? : Option (String × FunctionType)}
    {strict accepted : Bool} {c : Compilation} {program : Program}
    (hsize : source.text.length < UInt64.size)
    (hparse : parse.run (prepared source intrinsics main? strict) = (.ok accepted, c))
    (hstage : c.stage = .parsed program) (hclean : c.journal.hasErrors = false)
    (hguards : program.Obeys .unguarded) :
    ∃ s, (Check.program c.names program).run c.checkStart = .ok ((), s) ∧
      (s.journal.hasErrors = false →
        (∀ f ∈ program.functions, ∃ signature,
          s.typing.functions.lookup f.key = some ⟨some f, .resolved signature⟩ ∧
          signature.type.returns.isDeterminate = true ∧ signature.failed = false) ∧
        ∀ name value pos, .assignment name value pos ∈ program → ∃ d ty,
          s.table.find? rootBlock name = some d ∧ d.ty? = some ty ∧ ty.isDeterminate = true) := by
  obtain ⟨hsource, hfresh⟩ := prepared_fresh source intrinsics main? strict
  have hstarts := prepared_starts source intrinsics main? strict
  have herrors : c.journal.errorCount = 0 := by simpa [Journal.hasErrors] using hclean
  rw [← hsource] at hsize
  obtain ⟨hreading, hnative, hplaced⟩ := parse_placed hfresh hstarts hsize hparse hstage herrors
  obtain ⟨hsettled, hlooked, _, _⟩ := parse_lookups hfresh hstarts hsize hparse hstage herrors
  have hprogram : c.program = program := by rw [Compilation.program, hstage]
  subst hprogram
  have hobeys := hlooked _ (Program.functions_subset hguards)
  obtain ⟨_, s, hrun, _⟩ := checkItems_works hsettled hobeys hreading (hplaced c.table (.refl _ _))
  refine ⟨s, hrun, fun hnone => ?_⟩
  have hclean' : s.journal.errorCount = 0 := by simpa [Journal.hasErrors] using hnone
  obtain ⟨hfunctions, hassigned⟩ := Check.program_determinate hrun hclean' hsize hreading rfl hnative
    (untouched c _) hplaced
  have hdeterminate {ty : Ty} (hkind : ty.IsKind) : ty.isDeterminate = true := by
    rcases hkind with rfl | rfl <;> rfl
  constructor
  · intro f hf
    obtain ⟨signature, hlookup, hkind, hfailed⟩ := hfunctions f hf
    exact ⟨signature, hlookup, hdeterminate hkind, hfailed⟩
  · intro name value pos hmem
    obtain ⟨d, ty, hd, hty, hkind⟩ := hassigned name value pos hmem
    exact ⟨d, ty, hd, hty, hdeterminate hkind⟩

/-- A function that calls itself, a name that is assigned a value of it, and a function within another one. -/
def assignedSource : Source :=
  .ofString "assigned" "[f n] if n < 1 : 1 else n * f(n - 1); g = f(3); [main t] \x7b [c y] y + g; + c(t); \x7d"

/-- The compilation of `assignedSource` once it was read. -/
def assigned : Compilation :=
  (parse.run (prepared assignedSource true none false)).2

theorem check_determinate_assignedSource :
    ∃ s, (Check.program assigned.names assigned.program).run assigned.checkStart = .ok ((), s) ∧
      s.journal.hasErrors = false ∧ assigned.program.functions.length = 3 ∧ assigned.program.assigned.length = 1 ∧
      (∀ f ∈ assigned.program.functions, ∃ signature,
        s.typing.functions.lookup f.key = some ⟨some f, .resolved signature⟩ ∧
        signature.type.returns.isDeterminate = true ∧ signature.failed = false) ∧
      ∀ name value pos, .assignment name value pos ∈ assigned.program → ∃ d ty,
        s.table.find? rootBlock name = some d ∧ d.ty? = some ty ∧ ty.isDeterminate = true := by
  have hfacts : (parse.run (prepared assignedSource true none false)).1 = .ok true ∧
      assigned.stage.ctorIdx = 2 ∧ assigned.journal.hasErrors = false ∧ assigned.program.Obeys .unguarded ∧
      assigned.program.functions.length = 3 ∧ assigned.program.assigned.length = 1 ∧
      ((Check.program assigned.names assigned.program).run assigned.checkStart).toOption.any
        (fun r => r.2.journal.hasErrors) = false := by
    decide +kernel
  obtain ⟨hok, hstage, hclean, hguards, hthree, hone, hnone⟩ := hfacts
  have hparse : parse.run (prepared assignedSource true none false) = (.ok true, assigned) := by
    unfold assigned
    generalize parse.run (prepared assignedSource true none false) = r at hok ⊢
    exact Prod.ext hok rfl
  cases hprogram : assigned.stage with
  | parsed program =>
    have hsame : assigned.program = program := by rw [Compilation.program, hprogram]
    rw [← hsame] at hprogram
    obtain ⟨s, hrun, hdeterminate⟩ := check_determinate (by decide) hparse hprogram hclean hguards
    have hnone' : s.journal.hasErrors = false := by
      rw [hrun] at hnone
      exact hnone
    exact ⟨s, hrun, hnone', hthree, hone, hdeterminate hnone'⟩
  | fresh | lexed | checked => simp [hprogram, Stage.ctorIdx] at hstage

end Compilation
end ToneScript
