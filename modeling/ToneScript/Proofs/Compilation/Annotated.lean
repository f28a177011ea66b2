import ToneScript.Proofs.Compilation.Determinate
import ToneScript.Proofs.Run.Program
import ToneScript.Proofs.Syntax.Offsets

/-! The types that the nodes of an accepted program have once it is checked. They are recorded once, when a node is gone
through, and a call in the body of the function that it calls is gone through before the type of the function is known:
it stays without a type, and so does a conditional both of whose branches are such. All other nodes have their types. -/
namespace ToneScript

/-- What is known otherwise stays as it is where only functions are added. -/
theorem Typing.foldl_kept {α β : Type} (known : Typing → β) (add : Typing → α → Typing)
    (hadd : ∀ t a, known (add t a) = known t) (as : List α) (t : Typing) : known (as.foldl add t) = known t := by
  induction as generalizing t with
  | nil => rfl
  | cons a as ih => exact (ih (add t a)).trans (hadd t a)

namespace Check

variable {names : NameTable} {program : Program} {w : Elaboration} {size : Nat} {s s' : State}

/-- A check of a program without an error records the types of its nodes and no others. -/
theorem program_annotates {u : Unit} (h : (Check.program names program).run s = .ok (u, s'))
    (hclean : s'.journal.errorCount = 0) (hsize : size < UInt64.size)
    (hreading : s.table.Reading [rootBlock] size) (hpoisoned : s.poisoned = 0) (htypes : s.typing.types = [])
    (hnative : s.table.Native w.constants w.intrinsics)
    (hfunctions : ((program.flatMap Item.definitions).foldl Typing.addDefinition
      s.typing).functions.Untouched w.intrinsics (program.flatMap Item.definitions))
    (hplaced : ∀ T, SymbolTable.Later size s.table T → Item.AllPlaced w.constants T 0 size program)
    (hprogram : w.program = program) (htable : s'.table.Framed → w.table = s'.table)
    (hlast : w.functions = s'.typing.functions) :
    (∀ n ∈ program.nodes, s'.Annotates w n) ∧
      ∀ entry ∈ s'.typing.types, ∃ n ∈ program.nodes, n.record w = entry := by
  have hframed := framed_of_reading hreading
  obtain ⟨start, mid, hstart, hitems, hevolves, hg, hclean', htyping, hdone, _⟩ :=
    program_settled h hclean hsize hreading hpoisoned hnative hfunctions hplaced
  have hgrows : FunctionTable.Grows start.typing.functions mid.typing.functions := hevolves.functions
  rw [htyping] at hlast
  have hframed' : s'.table.Framed := by
    rw [hg.table]
    exact hevolves.framed (by rw [hstart]; exact hframed)
  rw [hstart] at hgrows
  obtain ⟨_, _, _, _, _, hmarks⟩ := items_learned hstart hitems hevolves hclean' hsize hreading hpoisoned hnative
    hfunctions hplaced hprogram ((htable hframed').trans hg.table)
    (by rw [hlast]; exact hfunctions.settles hgrows hdone (.refl _)) (by rw [hlast])
  have hrecorded : start.Recorded w := by
    intro key f signature hlookup
    rw [hstart] at hlookup
    cases (hfunctions.pending _ _ _ hlookup).1
  have hnone : start.typing.types = [] := by
    rw [hstart]
    exact (Typing.foldl_kept Typing.types Typing.addDefinition (fun _ _ => rfl) _ _).trans htypes
  rw [hprogram] at hmarks
  constructor
  · intro n hn
    rw [State.Annotates, htyping]
    exact hmarks.marked hrecorded n hn
  · intro entry hentry
    rw [htyping] at hentry
    rcases hmarks.added entry hentry with hold | ⟨n, hn | ⟨f, hf, hn⟩, heq⟩
    · rw [hnone] at hold
      cases hold
    · exact ⟨n, hn, heq⟩
    · rw [hprogram] at hf
      exact ⟨n, Program.nodes_of_functions program f hf hn, heq⟩

end Check

/-- What is recorded of nodes that are told apart by their offsets is found at these. -/
theorem Node.lookup_record {w : Elaboration} {ns : List Node} {types : List (UInt64 × Ty)}
    (hnodup : (ns.map (·.pos.index)).Nodup) (hall : ∀ entry ∈ types, ∃ n ∈ ns, n.record w = entry) {n : Node}
    (hn : n ∈ ns) (hmem : n.record w ∈ types) : types.lookup n.pos.index = some (n.annotation w) := by
  cases hlookup : types.lookup n.pos.index with
  | none =>
    have hne := List.lookup_eq_none_iff.1 hlookup _ hmem
    simp [Node.record] at hne
  | some ty =>
    obtain ⟨m, hm, hrecord⟩ := hall _ (mem_of_lookup hlookup)
    obtain ⟨hoffset, htype⟩ := Prod.mk.inj hrecord
    cases List.inj_on_of_nodup_map hnodup hm hn hoffset
    rw [htype]

namespace Compilation

/-- A program that is read without an error is made up of the tokens of its source. -/
theorem parse_derived {c c' : Compilation} {accepted : Bool} {program : Program} (hfresh : c.stage = .fresh)
    (h : parse.run c = (.ok accepted, c')) (hstage : c'.stage = .parsed program) (hclean : c'.journal.errorCount = 0) :
    Item.AllDerived .full (Lexer.run c.source c.names c.journal).tokens program := by
  obtain ⟨lexed, tokens, endPos, program', journal, hlex, hlexed, hread, hstage', _, _, _, hjournal, _⟩ :=
    parse_parts h hfresh (.inr ⟨program, hstage⟩)
  cases hstage.symm.trans hstage'
  obtain ⟨_, _, _, _, endPos', hlexed'⟩ := lex_ok hfresh hlex
  cases hlexed.symm.trans hlexed'
  refine Item.allDerived_listOfTokens lexed.names endPos _ hread ?_
  show journal.errorCount ≤ _
  omega

/-- The nodes of a program that is read without an error are told apart by their offsets. -/
theorem parse_nodup {c c' : Compilation} {accepted : Bool} {program : Program} (hfresh : c.stage = .fresh)
    (hsize : c.source.text.length < UInt64.size) (h : parse.run c = (.ok accepted, c'))
    (hstage : c'.stage = .parsed program) (hclean : c'.journal.errorCount = 0) :
    (program.nodes.map (·.pos.index)).Nodup := by
  have hderived := parse_derived hfresh h hstage hclean
  exact hderived.nodup_offsets (Lexer.ordered_run c.source c.names c.journal hsize)

variable {source : Source} {intrinsics : Bool} {main? : Option (String × FunctionType)} {strict : Bool}
  {c : Compilation}

/-- An accepted program was read without an error, and it was checked without one. What its check has found is not
changed where the entry point is looked at. -/
theorem typecheck_program (hsize : source.text.length < UInt64.size)
    (h : typecheck.run (prepared source intrinsics main? strict) = (.ok true, c)) :
    ∃ parsed program s, parse.run (prepared source intrinsics main? strict) = (.ok true, parsed) ∧
      parsed.stage = .parsed program ∧ parsed.journal.errorCount = 0 ∧
      parsed.table.Reading [rootBlock] source.text.length ∧ parsed.table.Native parsed.constants parsed.intrinsics ∧
      (∀ T, SymbolTable.Later source.text.length parsed.table T →
        Item.AllPlaced parsed.constants T 0 source.text.length program) ∧
      (Check.program parsed.names program).run parsed.checkStart = .ok ((), s) ∧ s.journal.errorCount = 0 ∧
      c.stage = .checked program s.typing ∧ c.table = s.table ∧ c.constants = parsed.constants ∧
      c.intrinsics = parsed.intrinsics := by
  obtain ⟨hsource, hfresh⟩ := prepared_fresh source intrinsics main? strict
  have hstarts := prepared_starts source intrinsics main? strict
  generalize prepared source intrinsics main? strict = c₀ at *
  subst hsource
  obtain ⟨parsed, program, s, hparse, hstage, hcheck, hclean, htable, hstage', hconstants, hintrinsics, _⟩ :=
    typecheck_parts hfresh h
  obtain ⟨_, _, _, _, hstage'', herrors⟩ := parse_ok hfresh hparse
  cases hstage.symm.trans hstage''
  obtain ⟨hreading, hnative, hplaced⟩ := parse_placed hfresh hstarts hsize hparse hstage herrors
  unfold checkProgram at hcheck
  obtain ⟨⟨⟩, s₁, hrun, h₁⟩ := Check.run_bind_ok hcheck
  obtain ⟨s₂, s₃, hget, h₂⟩ := Check.run_bind_ok h₁
  cases hget
  split at h₂
  · rename_i herror
    have hclean₁ : s₁.journal.errorCount = 0 := by simpa [Journal.hasErrors] using herror
    obtain ⟨fits, hentry⟩ := Check.discard_ok h₂
    have hframed := Check.framed_of_reading hreading
    obtain ⟨start, mid, hstart, _, hevolves, hg, hdone, _⟩ := Check.program_parts hrun hframed
      (untouched parsed _).plain (Check.awaits_of_reading hreading (hplaced parsed.table (.refl _ _)))
    have hframed₁ : s₁.table.Framed := by
      rw [hg.table]
      exact hevolves.framed (by rw [hstart]; exact hframed)
    have htable₁ : s.table = s₁.table := (Check.Grows.entryPoint _ _ _ _ _ hframed₁ hentry).table
    rw [Check.entryPoint_typing hentry hdone] at hstage'
    exact ⟨parsed, program, s₁, hparse, hstage, herrors, hreading, hnative, hplaced, hrun, hclean₁, hstage',
      htable.trans htable₁, hconstants, hintrinsics⟩
  · rename_i herror
    cases h₂
    simp [Journal.hasErrors, hclean] at herror

/-- Every node of an accepted program has a type, and this is known, and the type of the node by the signatures of the
functions, unless the node is a call in the body of the function that it calls or a conditional both of whose branches
are such. -/
theorem typecheck_annotates (hsize : source.text.length < UInt64.size)
    (h : typecheck.run (prepared source intrinsics main? strict) = (.ok true, c)) :
    ∃ typing, c.typing? = some typing ∧ ∀ n ∈ c.program.nodes,
      typing.types.lookup n.pos.index = some (n.annotation c.elaboration) ∧
      ((n.annotation c.elaboration).isDeterminate = true ↔ n.isProvisional c.elaboration = false) := by
  obtain ⟨parsed, program, s, hparse, hstage, herrors, hreading, hnative, hplaced, hrun, hclean, hstage', htable,
    hconstants, hintrinsics⟩ := typecheck_program hsize h
  obtain ⟨hsource, hfresh⟩ := prepared_fresh source intrinsics main? strict
  have hnodup := parse_nodup hfresh (by rwa [hsource]) hparse hstage herrors
  have hw : c.elaboration = ⟨c.constants, c.intrinsics, c.table, s.typing.functions, program⟩ := by
    simp [elaboration, Compilation.program, typing?, hstage']
  have hprogram : c.program = program := by rw [Compilation.program, hstage']
  have hnone : parsed.builtinTyping.types = [] := Typing.foldl_kept Typing.types
    (fun t (i : IntrinsicEntry) => t.addBuiltin i.name (.ofNumbers i.params .number)) (fun _ _ => rfl)
    parsed.intrinsics {}
  obtain ⟨hannotated, hall⟩ := Check.program_annotates (w := c.elaboration) hrun hclean hsize hreading rfl hnone
    (by rw [hw, hconstants, hintrinsics]; exact hnative) (by rw [hw, hintrinsics]; exact untouched parsed _)
    (by rw [hw, hconstants]; exact hplaced) (by rw [hw]) (by rw [hw]; exact fun _ => htable) (by rw [hw])
  refine ⟨s.typing, by rw [typing?, hstage'], fun n hn => ?_⟩
  rw [hprogram] at hn
  obtain ⟨hmem, hdet⟩ := hannotated n hn
  refine ⟨Node.lookup_record hnodup hall hn hmem, ?_⟩
  rw [hdet, Bool.not_eq_true']

/-- A function with recursive calls in both branches of a conditional, and a closure that calls the function around
it. -/
def nestedSource : Source :=
  .ofString "nested"
    "[f n] if n < 1 : 1 else if n < 2 : f(n - 1) else f(n - 2); [main t] \x7b [g x] 0 * main(x); + g(t) ? f(t) > 0; \x7d"

theorem typecheck_annotates_nestedSource :
    ∃ c typing, typecheck.run (prepared nestedSource true none false) = (.ok true, c) ∧ c.typing? = some typing ∧
      c.program.nodes.length = 29 ∧ c.program.nodes.countP (·.isProvisional c.elaboration) = 4 ∧
      ∀ n ∈ c.program.nodes, typing.types.lookup n.pos.index = some (n.annotation c.elaboration) ∧
        ((n.annotation c.elaboration).isDeterminate = true ↔ n.isProvisional c.elaboration = false) := by
  have hcheck := typecheck_afterCheck nestedSource none (by decide +kernel)
  have hcounts : (afterCheck nestedSource none).program.nodes.length = 29 ∧
      (afterCheck nestedSource none).program.nodes.countP (·.isProvisional (afterCheck nestedSource none).elaboration) =
        4 := by
    decide +kernel
  obtain ⟨typing, htyping, hnodes⟩ := typecheck_annotates (by decide) hcheck
  exact ⟨_, typing, hcheck, htyping, hcounts.1, hcounts.2, hnodes⟩

/-- A function that ends with a call of itself. -/
def countdownSource : Source :=
  .ofString "countdown" "[f n] if n < 1 : 1 else f(n - 1); [main t] f(t);"

/-- Whether a node is an expression that is recorded without a type. -/
def isIndeterminate (typing : Typing) : Node → Bool
  | .expr _ e => decide (typing.typeOf? e = some .indeterminate)
  | .closure .. => false

/-- An accepted program with an expression whose type stays unknown. -/
theorem exists_indeterminate :
    ∃ c typing scope e, typecheck.run (prepared countdownSource true none false) = (.ok true, c) ∧
      c.typing? = some typing ∧ .expr scope e ∈ c.program.nodes ∧ typing.typeOf? e = some .indeterminate := by
  have hcheck := typecheck_afterCheck countdownSource none (by decide +kernel)
  have hfound : (afterCheck countdownSource none).typing?.any (fun typing =>
      (afterCheck countdownSource none).program.nodes.any (isIndeterminate typing)) = true := by
    decide +kernel
  obtain ⟨typing, htyping, hany⟩ := (Option.any_eq_true _ _).1 hfound
  obtain ⟨n, hn, htype⟩ := List.any_eq_true.1 hany
  cases n with
  | expr scope e => exact ⟨_, typing, scope, e, hcheck, htyping, hn, of_decide_eq_true htype⟩
  | closure => cases htype

end Compilation
end ToneScript
