import Mathlib.Data.List.Nodup
import ToneScript.Proofs.Compilation.Native
import ToneScript.Proofs.Syntax.Resolution
import ToneScript.Proofs.Typing.Program

/-! What is known of a program that was accepted: it is laid out as its table says, it obeys the rules of types,
and its entry point is there. -/
namespace ToneScript

/-- A table of functions before any of them is checked: those of the program and, where these have not taken
their place, those that are there from the start. -/
structure FunctionTable.Untouched (t : FunctionTable) (intrinsics : List IntrinsicEntry)
    (definitions : List FunctionDef) : Prop where
  builtin : ∀ key progress, t.lookup key = some ⟨none, progress⟩ →
    ∃ i ∈ intrinsics, key = (rootBlock, i.name) ∧
      progress = .resolved (.ofBuiltin (.ofNumbers i.params .number))
  pending : ∀ key f progress, t.lookup key = some ⟨some f, progress⟩ →
    progress = .pending ∧ f.key = key ∧ f ∈ definitions
  definition : ∀ f ∈ definitions, ∃ g ∈ definitions, g.key = f.key ∧
    t.lookup f.key = some ⟨some g, .pending⟩
  intrinsic : ∀ i ∈ intrinsics, ∃ info, t.lookup (rootBlock, i.name) = some info

theorem FunctionTable.Untouched.plain {t : FunctionTable} {intrinsics : List IntrinsicEntry}
    {definitions : List FunctionDef} (h : t.Untouched intrinsics definitions) : t.Plain := by
  intro key definition? signature hlookup
  cases definition? with
  | none =>
    obtain ⟨i, _, _, heq⟩ := h.builtin _ _ hlookup
    cases heq
    rfl
  | some f =>
    obtain ⟨heq, _⟩ := h.pending _ _ _ hlookup
    cases heq

/-- What may have become of a function: it waits for its signature, or it has one with its parameters. -/
theorem FunctionTable.Untouched.progress {t t' : FunctionTable} {intrinsics : List IntrinsicEntry}
    {definitions : List FunctionDef} (h : t.Untouched intrinsics definitions) (hg : t.Grows t') {key : FunctionKey}
    {info : FunctionInfo} (hlookup : t'.lookup key = some info) :
    (∃ f, info = ⟨some f, .pending⟩) ∨ ∃ signature, info.progress = .resolved signature ∧
      ∀ f, info.definition? = some f → signature.parameters = f.parameters := by
  obtain ⟨definition?, progress⟩ := info
  obtain ⟨old, hold⟩ := hg.origin hlookup
  obtain ⟨info, hinfo, _, hprogress⟩ := hg.present _ _ hold
  rw [hlookup] at hinfo
  cases hinfo
  cases definition? with
  | none =>
    obtain ⟨i, _, _, rfl⟩ := h.builtin _ _ hold
    rcases hprogress with heq | ⟨hpending, _⟩
    · exact .inr ⟨_, heq, nofun⟩
    · cases hpending
  | some f =>
    obtain ⟨rfl, _⟩ := h.pending _ _ _ hold
    rcases hprogress with heq | ⟨_, signature, heq, hparams⟩
    · cases heq
      exact .inl ⟨f, rfl⟩
    · exact .inr ⟨signature, heq, hparams⟩

/-- Where no signature is looked for any more, all of them are known. -/
theorem FunctionTable.Untouched.settles {t t' t'' : FunctionTable} {intrinsics : List IntrinsicEntry}
    {definitions : List FunctionDef} (h : t.Untouched intrinsics definitions) (hg : t.Grows t')
    (hdone : ∀ key f, t'.lookup key ≠ some ⟨some f, .pending⟩) (hg' : t'.Grows t'') : t'.Settles t'' := by
  rintro key ⟨definition?, progress⟩ hlookup
  rcases h.progress hg hlookup with ⟨f, heq⟩ | ⟨signature, heq, hparams⟩
  · cases heq
    exact absurd hlookup (hdone key f)
  · cases heq
    exact ⟨signature, hg'.resolved hlookup, by rintro _ ⟨⟩; rfl, hparams⟩

/-- Whether every function that is there from the start has its signature. -/
def Elaboration.KnowsIntrinsics (w : Elaboration) : Prop :=
  ∀ i ∈ w.intrinsics, w.functions.lookup (rootBlock, i.name) =
    some ⟨none, .resolved (.ofBuiltin (.ofNumbers i.params .number))⟩

namespace Compilation

variable {c : Compilation}

theorem functions_builtinTyping (c : Compilation) :
    c.builtinTyping.functions = c.intrinsics.foldl (fun (t : FunctionTable) i =>
      t.insert (rootBlock, i.name) ⟨none, .resolved (.ofBuiltin (.ofNumbers i.params .number))⟩) [] := by
  have hfold (intrinsics : List IntrinsicEntry) (typing : Typing) :
      (intrinsics.foldl (fun t i => t.addBuiltin i.name (.ofNumbers i.params .number)) typing).functions =
        intrinsics.foldl (fun (t : FunctionTable) i => t.insert (rootBlock, i.name)
          ⟨none, .resolved (.ofBuiltin (.ofNumbers i.params .number))⟩) typing.functions := by
    induction intrinsics generalizing typing with
    | nil => rfl
    | cons i intrinsics ih => exact ih _
  exact hfold c.intrinsics {}

theorem untouched (c : Compilation) (definitions : List FunctionDef) :
    (definitions.foldl Typing.addDefinition c.builtinTyping).functions.Untouched c.intrinsics
      definitions := by
  rw [Typing.functions_addDefinitions, functions_builtinTyping]
  have hold (key : FunctionKey) := FunctionTable.lookup_foldl_insert
    (fun i : IntrinsicEntry => (rootBlock, i.name))
    (fun i => ⟨none, .resolved (.ofBuiltin (.ofNumbers i.params .number))⟩) c.intrinsics [] key
  generalize c.intrinsics.foldl (fun t i => FunctionTable.insert (rootBlock, i.name)
    ⟨none, .resolved (.ofBuiltin (.ofNumbers i.params .number))⟩ t) [] = old at hold ⊢
  have hnew (key : FunctionKey) := FunctionTable.lookup_foldl_insert FunctionDef.key
    (fun f => ⟨some f, .pending⟩) definitions old key
  constructor
  case builtin =>
    intro key progress hlookup
    rcases hnew key with ⟨f, _, _, hfound⟩ | ⟨_, hfound⟩
    · rw [hfound] at hlookup
      cases hlookup
    · rw [hfound] at hlookup
      rcases hold key with ⟨i, hi, hkey, hfound'⟩ | ⟨_, hfound'⟩
      · rw [hfound'] at hlookup
        cases hlookup
        exact ⟨i, hi, hkey.symm, rfl⟩
      · rw [hfound'] at hlookup
        cases hlookup
  case pending =>
    intro key f progress hlookup
    rcases hnew key with ⟨g, hg, hkey, hfound⟩ | ⟨_, hfound⟩
    · rw [hfound] at hlookup
      cases hlookup
      exact ⟨rfl, hkey, hg⟩
    · rw [hfound] at hlookup
      rcases hold key with ⟨i, _, _, hfound'⟩ | ⟨_, hfound'⟩
      · rw [hfound'] at hlookup
        cases hlookup
      · rw [hfound'] at hlookup
        cases hlookup
  case definition =>
    intro f hf
    rcases hnew f.key with ⟨g, hg, hkey, hfound⟩ | ⟨hnone, _⟩
    · exact ⟨g, hg, hkey, hfound⟩
    · exact absurd rfl (hnone f hf)
  case intrinsic =>
    intro i hi
    rcases hnew (rootBlock, i.name) with ⟨g, _, _, hfound⟩ | ⟨_, hfound⟩
    · exact ⟨_, hfound⟩
    · rcases hold (rootBlock, i.name) with ⟨j, _, _, hfound'⟩ | ⟨hnone, _⟩
      · exact ⟨_, hfound.trans hfound'⟩
      · exact absurd rfl (hnone i hi)

end Compilation

namespace Check

variable {names : NameTable} {program : Program} {w : Elaboration} {size : Nat} {s s' : State}
  {intrinsics : List IntrinsicEntry}

theorem framed_of_reading {t : SymbolTable} {lo : Nat} (h : t.Reading [rootBlock] lo) : t.Framed := by
  rw [SymbolTable.Framed, SymbolTable.frameBase, h.frames, h.active]
  exact Nat.zero_lt_one

/-- The names that a program assigns have no types yet when it has been read. -/
theorem awaits_of_reading {constants : List (Ident × Value)} (hreading : s.table.Reading [rootBlock] size)
    (hplaced : Item.AllPlaced constants s.table 0 size program) : s.Awaits program := by
  obtain ⟨hnodup, hassigned⟩ := hplaced.assigned
  refine ⟨hnodup, fun name hname => ?_⟩
  obtain ⟨d, hd, hsource, hvariable, _⟩ := hassigned name hname
  exact ⟨d, hd, hreading.tidy.assigned name d hd hsource hvariable⟩

/-- Where no signature is looked for any more, nothing is learned. -/
theorem resolveAll_idle {keys : List FunctionKey} {u : Unit} (h : (resolveAll names keys).run s = .ok (u, s'))
    (hdone : ∀ key f, s.typing.functions.lookup key ≠ some ⟨some f, .pending⟩) : s' = s := by
  induction keys generalizing s with
  | nil =>
    cases h
    rfl
  | cons key keys ih =>
    rw [resolveAll] at h
    obtain ⟨⟨⟩, mid, hfirst, hrest⟩ := run_bind_ok h
    unfold resolveOnce at hfirst
    obtain ⟨s₀, s₁, hget, h₁⟩ := run_bind_ok hfirst
    cases hget
    split at h₁
    · rename_i f hpending
      exact absurd hpending (hdone key f)
    · cases h₁
      exact ih hrest hdone

/-- The parts that a check of a program has: the functions are collected, the items are checked, and in the
end all functions have their signatures. If these are all known once the items are checked, no more is learned. -/
theorem program_parts {u : Unit} (h : (Check.program names program).run s = .ok (u, s'))
    (hframed : s.table.Framed)
    (hfunctions : ((program.flatMap Item.definitions).foldl Typing.addDefinition s.typing).functions.Plain)
    (hawaits : s.Awaits program) :
    ∃ start mid, start = { s with
        typing := (program.flatMap Item.definitions).foldl Typing.addDefinition s.typing } ∧
      (items names program).run start = .ok ((), mid) ∧ start.Evolves mid ∧ mid.Grows s' ∧
      (∀ key f, s'.typing.functions.lookup key ≠ some ⟨some f, .pending⟩) ∧
      ((∀ key f, mid.typing.functions.lookup key ≠ some ⟨some f, .pending⟩) →
        s'.typing = mid.typing ∧ s'.journal.issues = mid.journal.issues) := by
  unfold Check.program at h
  obtain ⟨⟨⟩, s₁, hcollect, h₁⟩ := run_bind_ok h
  cases hcollect
  obtain ⟨⟨⟩, mid, hitems, h₂⟩ := run_bind_ok h₁
  obtain ⟨s₂, s₃, hget, h₃⟩ := run_bind_ok h₂
  cases hget
  obtain ⟨⟨⟩, s₄, hresolve, h₄⟩ := run_bind_ok h₃
  obtain ⟨s₅, s₆, hget, h₅⟩ := run_bind_ok h₄
  cases hget
  have hevolves := items_evolve (s := { s with
    typing := (program.flatMap Item.definitions).foldl Typing.addDefinition s.typing })
    hframed hfunctions ⟨hawaits.nodup, hawaits.untyped⟩ hitems
  have hf := hevolves.framed hframed
  have hg := Grows.resolveAll _ _ _ _ hf hresolve
  have hnote := Grows.note _ _ _ _ _ (hg.framed hf) h₅
  cases h₅
  refine ⟨_, mid, rfl, hitems, hevolves, hg.trans hnote, fun key f hlookup => ?_, fun hdone => ?_⟩
  swap
  · rw [resolveAll_idle hresolve hdone]
    exact ⟨rfl, Journal.issues_note _ _ _ _⟩
  obtain ⟨progress, hmid⟩ := hg.functions.origin hlookup
  exact resolveAll_done hresolve hf (List.mem_map_of_mem (mem_of_lookup hmid)) hlookup

/-- The state in which the items of a program are checked. -/
theorem at_start (hlaid : w.LaidOut size) (hnative : w.table.Native w.constants w.intrinsics)
    (hreading : s.table.Reading [rootBlock] size) (hpoisoned : s.poisoned = 0)
    (hfunctions : s.typing.functions.Untouched w.intrinsics (w.program.flatMap Item.definitions)) :
    s.At w [rootBlock] 0 := by
  constructor
  case toLearned =>
    refine ⟨hpoisoned, fun key f signature hlookup => ?_⟩
    obtain ⟨hprogress, _⟩ := hfunctions.pending _ _ _ hlookup
    cases hprogress
  case frame => exact hreading.frame
  case keys => simp
  case framed => exact framed_of_reading hreading
  case proper => exact hreading.tidy.proper
  case collected => exact fun key f progress hlookup => (hfunctions.pending _ _ _ hlookup).2
  case intrinsic =>
    intro key progress hlookup
    obtain ⟨i, hi, rfl, _⟩ := hfunctions.builtin _ _ hlookup
    obtain ⟨d, hd, hbuiltin, _⟩ := hnative.intrinsic i hi
    exact ⟨d, hd, hbuiltin⟩
  case builtin =>
    intro name d hd hbuiltin hfunction
    obtain ⟨i, hi, rfl⟩ := hnative.function name d hd hbuiltin hfunction
    obtain ⟨⟨definition?, progress⟩, hlookup⟩ := hfunctions.intrinsic i hi
    cases definition? with
    | none =>
      obtain ⟨j, _, _, rfl⟩ := hfunctions.builtin _ _ hlookup
      exact ⟨_, hlookup, ⟨by simp [Signature.ofBuiltin], rfl⟩, .inl rfl⟩
    | some f =>
      obtain ⟨_, hkey, hf⟩ := hfunctions.pending _ _ _ hlookup
      obtain ⟨hblock, hname⟩ := Prod.mk.inj hkey
      have hfind := hlaid.find? (Program.definitions_subset _ hf)
      rw [hblock, hname, hd] at hfind
      cases hfind
      cases hbuiltin
  case ready => exact fun _ _ _ _ _ _ _ hlt => absurd hlt (Nat.not_lt_zero _)
  case before =>
    intro key f hlookup
    obtain ⟨hprogress, _⟩ := hfunctions.pending _ _ _ hlookup
    cases hprogress
  case typed => exact fun _ _ _ _ hlt => absurd hlt (Nat.not_lt_zero _)

/-- What has been learned when the items of a program have been checked without an error, whatever the functions
that still have no signature turn out to be. -/
theorem items_learned {start mid : State} (hstart : start = { s with
      typing := (program.flatMap Item.definitions).foldl Typing.addDefinition s.typing })
    (hitems : (items names program).run start = .ok ((), mid)) (hevolves : start.Evolves mid)
    (hclean : mid.journal.errorCount = 0) (hsize : size < UInt64.size)
    (hreading : s.table.Reading [rootBlock] size) (hpoisoned : s.poisoned = 0)
    (hnative : s.table.Native w.constants w.intrinsics)
    (hfunctions : ((program.flatMap Item.definitions).foldl Typing.addDefinition
      s.typing).functions.Untouched w.intrinsics (program.flatMap Item.definitions))
    (hplaced : ∀ T, SymbolTable.Later size s.table T → Item.AllPlaced w.constants T 0 size program)
    (hprogram : w.program = program) (htable : w.table = mid.table)
    (hsettles : mid.typing.functions.Settles w.functions)
    (hcount : mid.typing.functions.length = w.functions.length) :
    w.LaidOut size ∧ w.table.Native w.constants w.intrinsics ∧ start.At w [rootBlock] 0 ∧ mid.Learned w ∧
      w.program.Obeys (.checked w) ∧ start.Marks w w.program.nodes mid := by
  have hplain := hfunctions.plain
  have hawaits := awaits_of_reading hreading (hplaced s.table (.refl _ _))
  have hlater (hi : Nat) : SymbolTable.Later hi s.table w.table := by
    have hall := hevolves.table hi
    rw [hstart] at hall
    rw [htable]
    exact hall
  subst hprogram
  have hlaid : w.LaidOut size := by
    have horigin {key : BlockKey} {name : Ident} {d : Declaration} (hd : w.table.find? key name = some d) :
        ∃ d₀, s.table.find? key name = some d₀ ∧ d₀.Becomes d :=
      (hlater UInt64.size).find?_of_lt hd (.inr d.visibleFrom.toNat_lt)
    refine ⟨hsize, hplaced w.table (hlater size), fun key name d hd hsource => ?_, fun key name d hd => ?_⟩
    · obtain ⟨d₀, hd₀, hbecomes⟩ := horigin hd
      rw [hbecomes.visibleFrom_eq]
      rcases hreading.tidy.bound key name d₀ hd₀ with ⟨hbuiltin, _⟩ | ⟨_, hbound, _⟩
      · rw [← hbecomes.builtin_eq, hsource] at hbuiltin
        cases hbuiltin
      · exact hbound
    · obtain ⟨d₀, hd₀, hbecomes⟩ := horigin hd
      exact (hreading.tidy.proper key name d₀ hd₀).becomes hbecomes
  have hnative' := hnative.later (hlater 0)
  have hto : mid.LeadsTo w := by
    refine ⟨fun hi => ?_, hsettles, hcount, hclean⟩
    rw [htable]
    exact .refl hi mid.table
  have hat : start.At w [rootBlock] 0 := by
    rw [hstart]
    exact at_start hlaid hnative' hreading hpoisoned hfunctions
  have hcollected (f : FunctionDef) (pos : Position) (hmem : Item.function f pos ∈ w.program) :
      ∃ progress, start.typing.functions.lookup f.key = some ⟨some f, progress⟩ := by
    have hf : f ∈ w.program.flatMap Item.definitions := by
      refine List.mem_flatMap.2 ⟨_, hmem, ?_⟩
      cases f
      exact List.mem_cons_self
    obtain ⟨g, hg, hkey, hlookup⟩ := hfunctions.definition f hf
    cases hlaid.eq_of_key_eq (Program.definitions_subset _ hg) (Program.definitions_subset _ hf) hkey
    rw [hstart]
    exact ⟨_, hlookup⟩
  obtain ⟨hlearned, hobeys, hmarks⟩ := items_ok hlaid hlaid.placed (List.Subset.refl _) hcollected
    (by rw [hstart]; exact hplain) (by rw [hstart]; exact ⟨hawaits.nodup, hawaits.untyped⟩) hat hitems hto
  exact ⟨hlaid, hnative', hat, hlearned, hobeys, hmarks⟩

/-- A program that is checked without an error obeys the rules. -/
theorem program_ok {u : Unit} (h : (Check.program names program).run s = .ok (u, s'))
    (hclean : s'.journal.errorCount = 0) (hsize : size < UInt64.size)
    (hreading : s.table.Reading [rootBlock] size) (hpoisoned : s.poisoned = 0)
    (hnative : s.table.Native w.constants w.intrinsics)
    (hfunctions : ((program.flatMap Item.definitions).foldl Typing.addDefinition
      s.typing).functions.Untouched w.intrinsics (program.flatMap Item.definitions))
    (hplaced : ∀ T, SymbolTable.Later size s.table T → Item.AllPlaced w.constants T 0 size program)
    (hprogram : w.program = program)
    (hdistinct : (w.intrinsics.map IntrinsicEntry.name).Nodup)
    (hend : s'.table.Framed → w.table = s'.table ∧
      FunctionTable.Grows s'.typing.functions w.functions) :
    w.LaidOut size ∧ w.table.Native w.constants w.intrinsics ∧ w.KnowsIntrinsics ∧
      w.program.Obeys (.checked w) ∧ s'.table.Framed ∧
      ∀ key f, s'.typing.functions.lookup key ≠ some ⟨some f, .pending⟩ := by
  have hframed := framed_of_reading hreading
  obtain ⟨start, mid, hstart, hitems, hevolves, hg, hdone, _⟩ :=
    program_parts h hframed hfunctions.plain (awaits_of_reading hreading (hplaced s.table (.refl _ _)))
  have hevolves' := hevolves.trans hg.evolves
  have hframed' : s'.table.Framed := hevolves'.framed (by rw [hstart]; exact hframed)
  obtain ⟨htable, hgrows⟩ := hend hframed'
  have hclean' : mid.journal.errorCount = 0 := Nat.le_zero.1 (hclean ▸ hg.errors)
  have hsettles : mid.typing.functions.Settles w.functions := by
    have hgrows' : FunctionTable.Grows start.typing.functions s'.typing.functions := hevolves'.functions
    rw [hstart] at hgrows'
    exact hg.functions.settles (hfunctions.settles hgrows' hdone hgrows)
  have hcount : mid.typing.functions.length = w.functions.length := (hgrows.length.trans hg.functions.length).symm
  obtain ⟨hlaid, hnative', hat, _, hobeys, _⟩ := items_learned hstart hitems hevolves hclean' hsize hreading hpoisoned
    hnative hfunctions hplaced hprogram (htable.trans hg.table) hsettles hcount
  refine ⟨hlaid, hnative', fun i hi => ?_, hobeys, hframed', hdone⟩
  obtain ⟨d, hd, hbuiltin, hfunction⟩ := hnative'.intrinsic i hi
  obtain ⟨signature, hlookup, _⟩ := hat.builtin _ d hd hbuiltin hfunction
  have hlast := hgrows.resolved (hevolves'.functions.resolved hlookup)
  rw [hstart] at hlookup
  obtain ⟨j, hj, hkey, heq⟩ := hfunctions.builtin _ _ hlookup
  cases heq
  cases List.inj_on_of_nodup_map hdistinct hi hj (Prod.mk.inj hkey).2
  exact hlast

theorem Grows.entryPoint (name : Ident) (expected : FunctionType) :
    Grows (entryPoint names name expected) :=
  (exprLaw names resolve_grows).entryPoint name expected

/-- An entry point has its signature already when it is looked at after a check. -/
theorem entryPoint_typing {name : Ident} {expected : FunctionType} {fits : Bool}
    (h : (entryPoint names name expected).run s = .ok (fits, s'))
    (hdone : ∀ key f, s.typing.functions.lookup key ≠ some ⟨some f, .pending⟩) : s'.typing = s.typing := by
  unfold Check.entryPoint at h
  obtain ⟨s₀, s₁, hget, h₁⟩ := run_bind_ok h
  cases hget
  split at h₁
  · cases h₁
    rfl
  split at h₁
  · cases h₁
    rfl
  split at h₁
  · cases h₁
    rfl
  obtain ⟨signature?, s₂, hsignature, h₂⟩ := run_bind_ok h₁
  unfold signatureOf? at hsignature
  obtain ⟨s₃, s₄, hget, hsignature⟩ := run_bind_ok hsignature
  cases hget
  have hsame : s₂ = s := by
    split at hsignature
    case h_5 f hpending => exact absurd hpending (hdone _ f)
    all_goals
      cases hsignature
      rfl
  subst hsame
  split at h₂
  · cases h₂
    rfl
  · simp only at h₂
    split at h₂ <;> split at h₂ <;> (cases h₂; rfl)

/-- An entry point that is accepted is a function of the program with the right number of parameters and the
right result. -/
theorem entryPoint_ok {name : Ident} {expected : FunctionType} {fits : Bool} (hframed : s.table.Framed)
    (h : (entryPoint names name expected).run s = .ok (fits, s')) (hclean : s'.journal.errorCount = 0) :
    ∃ d, s.table.find? rootBlock name = some d ∧ d.builtin = false ∧ d.isFunction = true ∧
      ∀ f signature, s.typing.functions.lookup (d.block, d.name) = some ⟨some f, .resolved signature⟩ →
        signature.arity = expected.args.length ∧
          (signature.type.returns.isDeterminate = true → signature.type.returns = expected.returns) := by
  unfold Check.entryPoint at h
  obtain ⟨s₀, s₁, hget, h₁⟩ := run_bind_ok h
  cases hget
  split at h₁
  · obtain ⟨⟨⟩, s₂, hreport, h₂⟩ := run_bind_ok h₁
    cases h₂
    exact absurd hclean (reportAt_dirty hreport)
  rename_i d hd
  split at h₁
  · obtain ⟨⟨⟩, s₂, hreport, h₂⟩ := run_bind_ok h₁
    cases h₂
    exact absurd hclean (reportAt_dirty hreport)
  rename_i hsource
  split at h₁
  · obtain ⟨⟨⟩, s₂, hreport, h₂⟩ := run_bind_ok h₁
    cases h₂
    exact absurd hclean (reportAt_dirty hreport)
  rename_i hfunction
  refine ⟨d, hd, by simpa using hsource, by simpa using hfunction, fun f signature hlookup => ?_⟩
  obtain ⟨signature?, s₂, hsignature, h₂⟩ := run_bind_ok h₁
  unfold signatureOf? at hsignature
  obtain ⟨s₃, s₄, hget, hsignature⟩ := run_bind_ok hsignature
  cases hget
  rw [hlookup] at hsignature
  cases hsignature
  obtain ⟨harity, h₃⟩ := reported_ok (Grows.law.reported names _ _ (Grows.pure _)) hframed h₂ hclean
  obtain ⟨hreturns, _⟩ := reported_ok (Grows.pure _) hframed h₃ hclean
  refine ⟨by simpa using harity, fun hdet => ?_⟩
  simpa [hdet] using hreturns

end Check

/-- What is known of an accepted program. -/
structure Elaboration.Accepted (w : Elaboration) (size : Nat) (entry : Ident × FunctionType) : Prop where
  laid : w.LaidOut size
  native : w.table.Native w.constants w.intrinsics
  constants : (w.constants.map Prod.fst).Nodup
  intrinsics : (w.intrinsics.map IntrinsicEntry.name).Nodup
  knows : w.KnowsIntrinsics
  obeys : w.program.Obeys (.checked w)
  entry : ∃ f pos signature, .function f pos ∈ w.program ∧ f.name = entry.1 ∧
    w.functions.lookup f.key = some ⟨some f, .resolved signature⟩ ∧
    f.params.length = entry.2.args.length ∧ signature.type.returns = entry.2.returns

namespace Compilation

variable {α β : Type}

theorem run_bind_ok {x : Step α} {f : α → Step β} {c c' : Compilation} {b : β}
    (h : (x >>= f).run c = (.ok b, c')) :
    ∃ a mid, x.run c = (.ok a, mid) ∧ (f a).run mid = (.ok b, c') := by
  rw [run_bind] at h
  split at h
  · exact ⟨_, _, by assumption, h⟩
  · cases h

theorem succeeded_ok {c c' : Compilation} {accepted : Bool} (h : succeeded.run c = (.ok accepted, c')) :
    c' = c ∧ c.failed = !accepted := by
  have hrun : succeeded.run c = (.ok (!c.failed), c) := rfl
  obtain ⟨hresult, hsame⟩ := Prod.mk.inj (hrun.symm.trans h)
  refine ⟨hsame.symm, ?_⟩
  rw [← Except.ok.inj hresult, Bool.not_not]

theorem errorCount_of_isBlocked {c : Compilation} (h : c.isBlocked = false) :
    c.journal.errorCount = 0 := by
  rw [isBlocked, Bool.or_eq_false_iff] at h
  simpa [Journal.hasErrors] using h.1

theorem lex_ok {c c' : Compilation} {accepted : Bool} (hfresh : c.stage = .fresh)
    (h : lex.run c = (.ok accepted, c')) :
    c'.table = c.table ∧ c'.constants = c.constants ∧ c'.intrinsics = c.intrinsics ∧ c'.entry = c.entry ∧
      ∃ endPos, c'.stage = .lexed (Lexer.run c.source c.names c.journal).tokens endPos := by
  unfold lex at h
  obtain ⟨c₀, c₁, hget, h₁⟩ := run_bind_ok h
  cases hget
  rw [hfresh] at h₁
  obtain ⟨⟨⟩, c₂, hset, h₂⟩ := run_bind_ok h₁
  cases hset
  obtain ⟨⟨⟩, c₃, hfinish, h₃⟩ := run_bind_ok h₂
  cases hfinish
  obtain ⟨⟨⟩, c₄, hnote, h₄⟩ := run_bind_ok h₃
  cases hnote
  obtain ⟨rfl, _⟩ := succeeded_ok h₄
  exact ⟨rfl, rfl, rfl, rfl, _, rfl⟩

/-- What reading a source does, in parts, if the lexer has let it through. -/
theorem parse_parts {c c' : Compilation} {accepted : Bool} (h : parse.run c = (.ok accepted, c'))
    (hfresh : c.stage = .fresh) (hparsed : accepted = true ∨ ∃ program, c'.stage = .parsed program) :
    ∃ lexed tokens endPos program journal,
      lex.run c = (.ok true, lexed) ∧ lexed.stage = .lexed tokens endPos ∧
      (Resolution.items { names := lexed.names, constants? := some lexed.constants }
        (ItemOutline.listOfTokens lexed.names endPos tokens)).run ⟨lexed.table, lexed.journal⟩ =
          (.ok program, ⟨c'.table, journal⟩) ∧
      c'.stage = .parsed program ∧ c'.constants = lexed.constants ∧ c'.intrinsics = lexed.intrinsics ∧
      c'.entry = lexed.entry ∧ c'.journal.errorCount = journal.errorCount ∧
      (accepted = true → journal.errorCount = 0) := by
  unfold parse at h
  obtain ⟨passed, lexed, hlex, h₁⟩ := run_bind_ok h
  obtain ⟨_, _, _, _, endPos, hstage⟩ := lex_ok hfresh hlex
  cases passed with
  | false =>
    cases h₁
    rcases hparsed with hparsed | ⟨program, hparsed⟩
    · cases hparsed
    · cases hstage.symm.trans hparsed
  | true =>
    obtain ⟨c₂, c₃, hget, h₂⟩ := run_bind_ok h₁
    cases hget
    rw [hstage] at h₂
    simp only at h₂
    rcases hread : (Resolution.program { names := lexed.names, constants? := some lexed.constants }
      (ItemOutline.listOfTokens lexed.names endPos (Lexer.run c.source c.names c.journal).tokens)).run
        ⟨lexed.table, lexed.journal⟩ with ⟨result, s⟩
    rw [hread] at h₂
    obtain ⟨⟨⟩, c₄, hset, h₃⟩ := run_bind_ok h₂
    cases hset
    unfold Resolution.program at hread
    rw [run_bind] at hread
    rcases hitems : (Resolution.items { names := lexed.names, constants? := some lexed.constants }
      (ItemOutline.listOfTokens lexed.names endPos (Lexer.run c.source c.names c.journal).tokens)).run
        ⟨lexed.table, lexed.journal⟩ with ⟨e | program, mid⟩
    · rw [hitems] at hread
      cases hread
      cases e with
      | refused e => exact absurd hitems Resolution.items_ne_refused
      | defect d => cases h₃
    · rw [hitems] at hread
      cases hread
      obtain ⟨⟨⟩, c₅, hfinish, h₄⟩ := run_bind_ok h₃
      cases hfinish
      obtain ⟨⟨⟩, c₆, hnote, h₅⟩ := run_bind_ok h₄
      cases hnote
      obtain ⟨rfl, hfailed⟩ := succeeded_ok h₅
      refine ⟨lexed, _, endPos, program, mid.journal, hlex, hstage, hitems, rfl, rfl, rfl, rfl, ?_, ?_⟩
      · rw [Journal.errorCount_note, Journal.errorCount_note]
      · rintro rfl
        have hclean := errorCount_of_isBlocked hfailed
        rwa [Journal.errorCount_note] at hclean

theorem parse_ok {c c' : Compilation} (hfresh : c.stage = .fresh) (h : parse.run c = (.ok true, c')) :
    c'.constants = c.constants ∧ c'.intrinsics = c.intrinsics ∧ c'.entry = c.entry ∧
      ∃ program, c'.stage = .parsed program ∧ c'.journal.errorCount = 0 := by
  obtain ⟨lexed, tokens, endPos, program, journal, hlex, _, _, hstage', hconstants', hintrinsics', hentry', herrors,
    hclean⟩ := parse_parts h hfresh (.inl rfl)
  obtain ⟨_, hconstants, hintrinsics, hentry, _⟩ := lex_ok hfresh hlex
  exact ⟨hconstants'.trans hconstants, hintrinsics'.trans hintrinsics, hentry'.trans hentry, program, hstage',
    herrors.trans (hclean rfl)⟩

/-- A program that is read without an error stands in its text, and what was there from the start still is. -/
theorem parse_placed {c c' : Compilation} {accepted : Bool} {program : Program} (hfresh : c.stage = .fresh)
    (hstarts : c.Starts) (hsize : c.source.text.length < UInt64.size) (h : parse.run c = (.ok accepted, c'))
    (hstage : c'.stage = .parsed program) (hclean : c'.journal.errorCount = 0) :
    c'.table.Reading [rootBlock] c.source.text.length ∧ c'.table.Native c'.constants c'.intrinsics ∧
      ∀ T, SymbolTable.Later c.source.text.length c'.table T →
        Item.AllPlaced c'.constants T 0 c.source.text.length program := by
  obtain ⟨lexed, tokens, endPos, program', journal, hlex, hlexed, hread, hstage', hconstants', hintrinsics', _,
    hjournal, _⟩ := parse_parts h hfresh (.inr ⟨program, hstage⟩)
  cases hstage.symm.trans hstage'
  obtain ⟨htable, hconstants, hintrinsics, _, endPos', hlexed'⟩ := lex_ok hfresh hlex
  cases hlexed.symm.trans hlexed'
  have hwithin := ItemOutline.allWithin_listOfTokens lexed.names endPos hsize _
    (Lexer.ordered_run c.source c.names c.journal hsize)
  rw [htable, hconstants] at hread
  obtain ⟨hext, hplaced⟩ :=
    Resolution.items_placed rfl hsize hwithin hstarts.reading hread (hjournal.symm.trans hclean)
  rw [hconstants'.trans hconstants, hintrinsics'.trans hintrinsics]
  exact ⟨hstarts.reading.step hext, hstarts.native.later hext.later, hplaced⟩

/-- A check of types that succeeds, in parts. -/
theorem typecheck_parts {c c' : Compilation} (hfresh : c.stage = .fresh)
    (h : typecheck.run c = (.ok true, c')) :
    ∃ parsed program s, parse.run c = (.ok true, parsed) ∧ parsed.stage = .parsed program ∧
      (parsed.checkProgram program).run ⟨parsed.table, parsed.journal, parsed.builtinTyping, 0⟩ =
        .ok ((), s) ∧ s.journal.errorCount = 0 ∧ c'.table = s.table ∧
      c'.stage = .checked program s.typing ∧ c'.constants = parsed.constants ∧
      c'.intrinsics = parsed.intrinsics ∧ c'.entry = parsed.entry := by
  unfold typecheck at h
  obtain ⟨parsed?, c₁, hparse, h₁⟩ := run_bind_ok h
  cases parsed? with
  | false => cases h₁
  | true =>
    obtain ⟨_, _, _, program, hstage, _⟩ := parse_ok hfresh hparse
    obtain ⟨c₂, c₃, hget, h₂⟩ := run_bind_ok h₁
    cases hget
    rw [hstage] at h₂
    simp only at h₂
    cases hcheck : (c₁.checkProgram program).run ⟨c₁.table, c₁.journal, c₁.builtinTyping, 0⟩ with
    | error d =>
      rw [hcheck] at h₂
      cases h₂
    | ok r =>
      obtain ⟨⟨⟩, s⟩ := r
      rw [hcheck] at h₂
      obtain ⟨⟨⟩, c₄, hset, h₃⟩ := run_bind_ok h₂
      cases hset
      obtain ⟨⟨⟩, c₅, hfinish, h₄⟩ := run_bind_ok h₃
      cases hfinish
      obtain ⟨⟨⟩, c₆, hnote, h₅⟩ := run_bind_ok h₄
      cases hnote
      obtain ⟨rfl, hfailed⟩ := succeeded_ok h₅
      exact ⟨c₁, program, s, hparse, hstage, hcheck, errorCount_of_isBlocked hfailed, rfl, rfl, rfl, rfl, rfl⟩

/-- An accepted program is laid out in its text, obeys the rules of types and has its entry point. -/
theorem accepted {c c' : Compilation} (hfresh : c.stage = .fresh) (hstarts : c.Starts)
    (hsize : c.source.text.length < UInt64.size) (h : typecheck.run c = (.ok true, c')) :
    c'.elaboration.Accepted c.source.text.length c.entry ∧ c'.entry = c.entry := by
  obtain ⟨parsed, program, s, hparse, hstage, hcheck, hclean, htable, hstage', hconstants', hintrinsics',
    hentry'⟩ := typecheck_parts hfresh h
  obtain ⟨hconstants, hintrinsics, hentry, program', hstage'', herrors⟩ := parse_ok hfresh hparse
  cases hstage.symm.trans hstage''
  refine ⟨?_, hentry'.trans hentry⟩
  obtain ⟨hreading, hnative, hplaced⟩ := parse_placed hfresh hstarts hsize hparse hstage herrors
  unfold checkProgram at hcheck
  obtain ⟨⟨⟩, s₁, hprogram, h₁⟩ := Check.run_bind_ok hcheck
  obtain ⟨s₂, s₃, hget, h₂⟩ := Check.run_bind_ok h₁
  cases hget
  split at h₂
  · rename_i herror
    have hclean₁ : s₁.journal.errorCount = 0 := by simpa [Journal.hasErrors] using herror
    obtain ⟨fits, hrun⟩ := Check.discard_ok h₂
    have hw : c'.elaboration =
        ⟨c'.constants, c'.intrinsics, c'.table, s.typing.functions, program⟩ := by
      simp [elaboration, Compilation.program, typing?, hstage']
    have hg (hframed : s₁.table.Framed) := Check.Grows.entryPoint _ _ _ _ _ hframed hrun
    have hdistinct : (c'.elaboration.constants.map Prod.fst).Nodup := by
      rw [hw, hconstants', hconstants]
      exact hstarts.constants
    have hdistinct' : (c'.elaboration.intrinsics.map IntrinsicEntry.name).Nodup := by
      rw [hw, hintrinsics', hintrinsics]
      exact hstarts.intrinsics
    obtain ⟨hlaid, hnative, hknows, hobeys, hframed, hdone⟩ := Check.program_ok (w := c'.elaboration) hprogram
      hclean₁ hsize hreading rfl
      (by rw [hw, hconstants', hintrinsics']; exact hnative)
      (by rw [hw, hintrinsics']; exact untouched parsed _)
      (by rw [hw, hconstants']; exact hplaced) (by rw [hw]) hdistinct'
      (by rw [hw]; exact fun hframed => ⟨htable.trans (hg hframed).table, (hg hframed).functions⟩)
    have hg := hg hframed
    refine ⟨hlaid, hnative, hdistinct, hdistinct', hknows, hobeys, ?_⟩
    obtain ⟨d, hd, hsource, hfunction, hfits⟩ := Check.entryPoint_ok hframed hrun hclean
    have hd' : c'.elaboration.table.find? rootBlock parsed.entry.1 = some d := by
      rw [hw]
      rw [← hg.table, ← htable] at hd
      exact hd
    obtain ⟨f, pos, hmem, rfl⟩ | ⟨hvariable, _⟩ := hlaid.placed.declared hd' hsource (Nat.zero_le _)
      (hlaid.bound _ _ d hd' hsource)
    · obtain ⟨⟨signature, hlookup, hparams, harity, hkind, _⟩, _⟩ :=
        FunctionDef.obeys_iff.1 (hobeys _ hmem)
      refine ⟨f, pos, signature, hmem, ?_, hlookup, ?_⟩
      · rw [← hentry]
        exact SymbolTable.find?_name hd'
      -- The signature was known when the entry point was looked at.
      have hlookup₁ : s₁.typing.functions.lookup f.key = some ⟨some f, .resolved signature⟩ := by
        rw [hw] at hlookup
        obtain ⟨progress, hold⟩ := hg.functions.origin hlookup
        obtain ⟨info, hinfo, _, hprogress⟩ := hg.functions.present _ _ hold
        rw [hlookup] at hinfo
        cases hinfo
        rcases hprogress with heq | ⟨heq, _⟩
        · cases heq
          exact hold
        · cases heq
          exact absurd hold (hdone _ _)
      obtain ⟨hargs, hreturns⟩ := hfits f signature hlookup₁
      rw [hentry] at hargs hreturns
      have hdet : signature.type.returns.isDeterminate = true := by
        rcases hkind with heq | heq <;> rw [heq] <;> rfl
      exact ⟨harity.symm.trans hargs, hreturns hdet⟩
    · rw [hfunction] at hvariable
      cases hvariable
  · cases h₂
    rename_i herror
    simp [Journal.hasErrors, hclean] at herror

end Compilation
end ToneScript
