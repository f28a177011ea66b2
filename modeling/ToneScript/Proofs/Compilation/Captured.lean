import Mathlib.Data.List.Nodup
import ToneScript.Proofs.Compilation.Once
import ToneScript.Proofs.Scope.Enclosing
import ToneScript.Proofs.Typing.Capturing

/-! What the functions of an accepted program capture. These are the parameters of the functions around them that their
bodies use, and nothing else. -/
namespace ToneScript

namespace Typing

variable {t : Typing} {key : FunctionKey}

theorem mem_capturesOf {name : Ident} : name ∈ t.capturesOf key ↔ (key, name) ∈ t.captures := by
  unfold capturesOf
  rw [List.mem_filterMap]
  constructor
  · rintro ⟨⟨key', name'⟩, hmem, hsome⟩
    split at hsome
    · rename_i heq
      cases hsome
      rwa [← beq_iff_eq.1 heq]
    · cases hsome
  · intro hmem
    exact ⟨(key, name), hmem, if_pos (beq_self_eq_true key)⟩

theorem nodup_capturesOf (h : t.captures.Nodup) (key : FunctionKey) : (t.capturesOf key).Nodup := by
  refine h.filterMap fun entry entry' name hentry hentry' => ?_
  have hkey {other : FunctionKey × Ident}
      (hother : name ∈ (if other.1 == key then some other.2 else none)) : other = (key, name) := by
    split at hother
    · rename_i heq
      rw [Option.mem_some] at hother
      exact Prod.ext (beq_iff_eq.1 heq) hother
    · cases hother
  rw [hkey hentry, hkey hentry']

end Typing

theorem SymbolTable.mem_capturedBy {t : SymbolTable} {f : FunctionDef} {c : FunctionKey × Ident} :
    c ∈ t.capturedBy f ↔ c.1 = f.key ∧ ∃ u ∈ f.uses, u.name = c.2 ∧ u.isCaptured t f.scope.length = true := by
  obtain ⟨key, name⟩ := c
  unfold capturedBy captured
  rw [Option.elim_some, List.mem_map]
  constructor
  · rintro ⟨u, hu, heq⟩
    obtain ⟨hmem, hcaptured⟩ := List.mem_filter.1 hu
    cases heq
    exact ⟨rfl, u, hmem, rfl, hcaptured⟩
  · rintro ⟨rfl, u, hu, rfl, hcaptured⟩
    exact ⟨u, List.mem_filter.2 ⟨hu, hcaptured⟩, rfl⟩

namespace Check

variable {names : NameTable} {program : Program} {size : Nat} {s s' : State} {intrinsics : List IntrinsicEntry}
  {constants : List (Ident × Value)}

/-- The state in which the items of a program are checked, as against what comes of the check. -/
theorem consistent_start {w : Elaboration} {start mid : State} {definitions : List FunctionDef}
    (hfunctions : start.typing.functions.Untouched intrinsics definitions)
    (hdefinitions : definitions ⊆ w.program.functions) (hframed : start.table.Framed) (hevolves : start.Evolves mid)
    (htable : w.table = mid.table) (hcompleted : w.functions = mid.typing.functions.completed) :
    start.Consistent w := by
  have hgrows : FunctionTable.Grows start.typing.functions mid.typing.functions := hevolves.functions
  constructor
  case framed => exact hframed
  case agrees =>
    intro scope name pos
    rw [htable]
    exact ((hevolves.table UInt64.size).target?_eq scope name pos).symm
  case known =>
    intro key f progress hlookup
    obtain ⟨_, hkey, hf⟩ := hfunctions.pending key f progress hlookup
    exact ⟨hkey, hdefinitions hf⟩
  case callable =>
    intro key signature hsignature
    rw [hcompleted, FunctionTable.signature?, FunctionTable.lookup_completed] at hsignature
    cases hlookup : start.typing.functions.lookup key with
    | none =>
      rw [hgrows.absent key hlookup] at hsignature
      cases hsignature
    | some info =>
      refine ⟨info, rfl, fun hbuiltin => ?_⟩
      obtain ⟨definition?, progress⟩ := info
      cases hbuiltin
      obtain ⟨i, _, _, hresolved⟩ := hfunctions.builtin key progress hlookup
      exact ⟨_, hresolved⟩

/-- A check of a program without an error notes what its functions use of the functions around them, each variable
once. -/
theorem program_captures {u : Unit} (h : (Check.program names program).run s = .ok (u, s'))
    (hclean : s'.journal.errorCount = 0) (hsize : size < UInt64.size)
    (hreading : s.table.Reading [rootBlock] size) (hpoisoned : s.poisoned = 0) (hcaptures : s.typing.captures = [])
    (hnative : s.table.Native constants intrinsics)
    (hfunctions : ((program.flatMap Item.definitions).foldl Typing.addDefinition
      s.typing).functions.Untouched intrinsics (program.flatMap Item.definitions))
    (hplaced : ∀ T, SymbolTable.Later size s.table T → Item.AllPlaced constants T 0 size program) :
    s'.typing.captures.Nodup ∧
      ∀ c, c ∈ s'.typing.captures ↔ ∃ f ∈ program.functions, c ∈ s'.table.capturedBy f := by
  obtain ⟨start, mid, hstart, hitems, hevolves, hg, hclean', htyping, _, hfound⟩ :=
    program_settled h hclean hsize hreading hpoisoned hnative hfunctions hplaced
  have hgrows : FunctionTable.Grows start.typing.functions mid.typing.functions := hevolves.functions
  have hnone : start.typing.captures = [] := by
    rw [hstart]
    exact (Typing.captures_addDefinitions _ _).trans hcaptures
  have huntouched : start.typing.functions.Untouched intrinsics (program.flatMap Item.definitions) := by
    rw [hstart]
    exact hfunctions
  have hframed : start.table.Framed := by
    rw [hstart]
    exact framed_of_reading hreading
  have hawaits : start.Awaits program := by
    rw [hstart]
    exact awaits_of_reading hreading (hplaced s.table (.refl _ _))
  -- Names are looked up in the table that comes of the check.
  let w : Elaboration := ⟨constants, intrinsics, mid.table, mid.typing.functions.completed, program⟩
  obtain ⟨hlaid, _, hat, _, hobeys, _⟩ := items_learned (w := w) hstart hitems hevolves hclean' hsize hreading
    hpoisoned hnative hfunctions hplaced rfl rfl (huntouched.settles_completed hgrows) (List.length_map _).symm
  have hconsistent : start.Consistent w :=
    consistent_start huntouched (Program.definitions_subset program) hframed hevolves rfl rfl
  have hbodies (f : FunctionDef) (hf : f ∈ w.program.functions) : f.body.Obeys (.checked w) f.inside ∧
      ∃ lo hi, f.body.Placed w.constants w.table f.inside lo hi := by
    obtain ⟨_, _, _, _, _, _, hfplaced⟩ := hlaid.placed.placedWithin f hf
    exact ⟨Program.bodies_obey hobeys f hf, _, _, hfplaced.body⟩
  have htakes : start.Takes w [] mid :=
    items_take hbodies hlaid.placed hobeys hconsistent hat.frame huntouched.plain hawaits hitems hclean'
  have hcomplete : mid.Complete w := by
    refine htakes.complete fun key f signature hlookup => ?_
    cases (huntouched.pending key f _ hlookup).1
  rw [htyping, hg.table]
  refine ⟨htakes.nodup (by rw [hnone]; exact List.nodup_nil), fun c => ⟨fun hc => ?_, ?_⟩⟩
  · rcases htakes.added c hc with hold | hown | hc
    · rw [hnone] at hold
      cases hold
    · cases hown
    · exact hc
  · rintro ⟨f, hf, hc⟩
    obtain ⟨signature, hlookup⟩ := hfound f hf
    exact hcomplete f.key f signature hlookup hc

end Check

namespace Compilation

variable {source : Source} {intrinsics : Bool} {main? : Option (String × FunctionType)} {strict : Bool}
  {c : Compilation}

/-- What is noted of the functions of an accepted program. -/
theorem typecheck_captures (hsize : source.text.length < UInt64.size)
    (h : typecheck.run (prepared source intrinsics main? strict) = (.ok true, c)) :
    ∃ typing, c.typing? = some typing ∧ typing.captures.Nodup ∧
      ∀ f ∈ c.program.functions, ∀ x, x ∈ typing.capturesOf f.key ↔
        ∃ u ∈ f.uses, u.name = x ∧ u.isCaptured c.table f.scope.length = true := by
  have hlaid := (accepted_prepared hsize h).laid
  obtain ⟨parsed, program, s, _, _, _, hreading, hnative, hplaced, hrun, hclean, hstage, htable, _⟩ :=
    typecheck_program hsize h
  obtain ⟨hnodup, hall⟩ := Check.program_captures hrun hclean hsize hreading rfl (captures_builtinTyping parsed) hnative
    (untouched parsed _) hplaced
  have hprogram : c.program = program := by rw [Compilation.program, hstage]
  rw [← hprogram, ← htable] at hall
  refine ⟨s.typing, by rw [typing?, hstage], hnodup, fun f hf x => ?_⟩
  rw [Typing.mem_capturesOf, hall]
  constructor
  · rintro ⟨g, hg, hx⟩
    obtain ⟨hkey, hx⟩ := SymbolTable.mem_capturedBy.1 hx
    cases hlaid.eq_of_key_eq hf hg hkey
    exact hx
  · intro hx
    exact ⟨f, hf, SymbolTable.mem_capturedBy.2 ⟨rfl, hx⟩⟩

/-- Captures are exact. Each function of an accepted program captures the names, each of them once, that are used in its
body and refer there to a parameter of a function around it. It captures none of its own parameters, and no name that
refers to nothing but what is declared in the outermost block, built-in things and functions. -/
theorem typecheck_captures_exact (hsize : source.text.length < UInt64.size)
    (h : typecheck.run (prepared source intrinsics main? strict) = (.ok true, c)) :
    ∃ typing, c.typing? = some typing ∧ ∀ f ∈ c.program.functions,
      (typing.capturesOf f.key).Nodup ∧
      (∀ x, x ∈ typing.capturesOf f.key ↔ ∃ u ∈ f.uses, u.name = x ∧ u.IsOuter c.table c.program f) ∧
      (∀ p ∈ f.params, p.name ∉ typing.capturesOf f.key) ∧
      ∀ x, (∀ u ∈ f.uses, u.name = x → ∀ d crossed, c.table.resolve u.scope u.name u.pos = some (d, crossed) →
        d.block = rootBlock ∨ d.builtin = true ∨ d.isFunction = true) → x ∉ typing.capturesOf f.key := by
  have hlaid := (accepted_prepared hsize h).laid
  have hplaced : Item.AllPlaced c.constants c.table 0 source.text.length c.program := hlaid.placed
  have hproper : ∀ key name d, c.table.find? key name = some d → d.Proper key := hlaid.proper
  obtain ⟨typing, htyping, hnodup, hall⟩ := typecheck_captures hsize h
  refine ⟨typing, htyping, fun f hf => ?_⟩
  have hexact (x : Ident) :
      x ∈ typing.capturesOf f.key ↔ ∃ u ∈ f.uses, u.name = x ∧ u.IsOuter c.table c.program f := by
    rw [hall f hf x]
    refine exists_congr fun u => and_congr_right fun hu => and_congr_right fun _ => ?_
    exact Use.isCaptured_iff hplaced hproper hf hu
  refine ⟨Typing.nodup_capturesOf hnodup f.key, hexact, fun p hp hmem => ?_, fun x hother hmem => ?_⟩
  · obtain ⟨u, hu, hname, houter⟩ := (hexact p.name).1 hmem
    exact houter.name_ne hplaced hproper hf hu hp hname
  · obtain ⟨u, hu, hname, houter⟩ := (hexact x).1 hmem
    obtain ⟨d, crossed, hresolve, hroot, hsource, hvariable⟩ := houter.inner hplaced
    rcases hother u hu hname d crossed hresolve with heq | hbuiltin | hfunction
    · exact hroot heq
    · rw [hsource] at hbuiltin
      cases hbuiltin
    · rw [hvariable] at hfunction
      cases hfunction

/-- A function in two others, which uses parameters of both, one of them in two places and as a named argument. -/
def shorthandSource : Source :=
  .ofString "shorthand"
    "[main t] \x7b [h t, y] t * y; [g x] \x7b [k z] h(t, y = x) * z * t; + k(x); + h(t = x, y = 2); \x7d; + g(1); \x7d"

theorem typecheck_captures_exact_shorthandSource :
    ∃ c typing, typecheck.run (prepared shorthandSource true none false) = (.ok true, c) ∧ c.typing? = some typing ∧
      c.program.functions.map (fun f => (f.uses.length, (typing.capturesOf f.key).map c.names.name)) =
        [(0, []), (2, []), (2, []), (4, ["t", "x"])] ∧
      ∀ f ∈ c.program.functions, (typing.capturesOf f.key).Nodup ∧
        ∀ x, x ∈ typing.capturesOf f.key ↔ ∃ u ∈ f.uses, u.name = x ∧ u.IsOuter c.table c.program f := by
  have hcheck := typecheck_afterCheck shorthandSource none (by decide +kernel)
  have hlists : (afterCheck shorthandSource none).typing?.any (fun typing =>
      (afterCheck shorthandSource none).program.functions.map (fun f =>
        (f.uses.length, (typing.capturesOf f.key).map (afterCheck shorthandSource none).names.name)) ==
          [(0, []), (2, []), (2, []), (4, ["t", "x"])]) = true := by
    decide +kernel
  obtain ⟨typing, htyping, hall⟩ := typecheck_captures_exact (by decide) hcheck
  rw [htyping, Option.any_some, beq_iff_eq] at hlists
  exact ⟨_, typing, hcheck, htyping, hlists, fun f hf => ⟨(hall f hf).1, (hall f hf).2.1⟩⟩

end Compilation
end ToneScript
