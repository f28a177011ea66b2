import ToneScript.Proofs.Scope.Uses
import ToneScript.Proofs.Typing.Program

/-! The variables of outer functions that a check notes down. A check without an error that goes through a body notes
the variables that are used there and found outside of it, each once, and does the same for every function that it
resolves on the way. -/
namespace ToneScript

/-- The frame in which the body of a function is checked. -/
def FunctionDef.frame (f : FunctionDef) : Check.Frame :=
  ⟨f.key, f.scope.length⟩

namespace SymbolTable

variable (t : SymbolTable)

/-- What is noted of the uses of variables in a frame. -/
def captured (frame? : Option Check.Frame) (us : List Use) : List (FunctionKey × Ident) :=
  frame?.elim [] fun frame =>
    (us.filter (·.isCaptured t frame.ownBase)).map fun u => (frame.key, u.name)

/-- What is noted of the uses of variables in a function. -/
def capturedBy (f : FunctionDef) : List (FunctionKey × Ident) :=
  t.captured (some f.frame) f.uses

@[simp] theorem captured_none (us : List Use) : t.captured none us = [] := rfl

@[simp] theorem captured_nil (frame? : Option Check.Frame) : t.captured frame? [] = [] := by
  cases frame? <;> rfl

theorem captured_append (frame? : Option Check.Frame) (us vs : List Use) :
    t.captured frame? (us ++ vs) = t.captured frame? us ++ t.captured frame? vs := by
  cases frame? with
  | none => rfl
  | some frame => simp [captured]

end SymbolTable

namespace Check

variable {α β : Type} {names : NameTable} {w : Elaboration} {s s' s'' : State}

/-- A state in the check of a program that is known in the end: names are found where they are in the end, and the
functions are those of the program and built-in ones. -/
structure State.Consistent (w : Elaboration) (s : State) : Prop where
  framed : s.table.Framed
  agrees : ∀ scope name pos, s.table.target? scope name pos = w.table.target? scope name pos
  known : ∀ key f progress, s.typing.functions.lookup key = some ⟨some f, progress⟩ →
    f.key = key ∧ f ∈ w.program.functions
  callable : ∀ key signature, w.functions.signature? key = some signature →
    ∃ info, s.typing.functions.lookup key = some info ∧
      (info.definition? = none → ∃ signature, info.progress = .resolved signature)

namespace State.Consistent

theorem evolve (h : s.Consistent w) (he : s.Evolves s') : s'.Consistent w where
  framed := he.framed h.framed
  agrees scope name pos := ((he.table UInt64.size).target?_eq scope name pos).trans (h.agrees scope name pos)
  known key f progress hlookup := by
    obtain ⟨old, hold⟩ := he.functions.origin hlookup
    exact h.known key f old hold
  callable key signature hsignature := by
    obtain ⟨info, hinfo, hbuiltin⟩ := h.callable key signature hsignature
    obtain ⟨info', hinfo', hdef, hprogress⟩ := he.functions.present key info hinfo
    refine ⟨info', hinfo', fun hnone => ?_⟩
    obtain ⟨found, hfound⟩ := hbuiltin (hdef ▸ hnone)
    rcases hprogress with heq | ⟨hpending, _⟩
    · exact ⟨found, heq.trans hfound⟩
    · rw [hfound] at hpending
      cases hpending

theorem grow (h : s.Consistent w) (hg : s.Grows s') : s'.Consistent w :=
  h.evolve hg.evolves

theorem enterBlock (h : s.Consistent w) (key : BlockKey) :
    State.Consistent w { s with table := s.table.enterBlock key } where
  framed := h.framed.enterBlock key
  agrees scope name pos := (SymbolTable.target?_enterBlock ..).trans (h.agrees scope name pos)
  known := h.known
  callable := h.callable

theorem enterBody (h : s.Consistent w) (key : FunctionKey) (f : FunctionDef)
    (hpending : s.typing.functions.lookup key = some ⟨some f, .pending⟩) :
    State.Consistent w { s with
      table := s.table.enterScope f.bodyScope
      typing := { s.typing with functions := s.typing.functions.setProgress key .active } } where
  framed := SymbolTable.framed_enterScope _ (bodyScope_ne_nil f)
  agrees scope name pos := (SymbolTable.target?_enterScope ..).trans (h.agrees scope name pos)
  known key' g progress hlookup := by
    rcases FunctionTable.of_setProgress hlookup with ⟨_, _, old, hold⟩ | ⟨_, hold⟩
    · exact h.known key' g old hold
    · exact h.known key' g progress hold
  callable key' signature hsignature := by
    obtain ⟨info, hinfo, hbuiltin⟩ := h.callable key' signature hsignature
    show ∃ info, (s.typing.functions.setProgress key .active).lookup key' = some info ∧ _
    rw [FunctionTable.lookup_setProgress]
    split
    · rename_i heq
      subst heq
      rw [hpending]
      exact ⟨_, rfl, nofun⟩
    · exact ⟨info, hinfo, hbuiltin⟩

end State.Consistent

theorem capture_ok {key : FunctionKey} {name : Ident} {u : Unit} (h : (capture key name).run s = .ok (u, s')) :
    ((key, name) ∈ s.typing.captures ∧ s' = s) ∨ ((key, name) ∉ s.typing.captures ∧
      s' = { s with typing := { s.typing with captures := s.typing.captures ++ [(key, name)] } }) := by
  have hrun : s' = { s with typing := if (key, name) ∈ s.typing.captures then s.typing
      else { s.typing with captures := s.typing.captures ++ [(key, name)] } } := by
    cases h
    rfl
  rw [hrun]
  by_cases hold : (key, name) ∈ s.typing.captures
  · exact .inl ⟨hold, by rw [if_pos hold]⟩
  · exact .inr ⟨hold, by rw [if_neg hold]⟩

/-- Whether everything is noted of the functions whose signatures are known. -/
def State.Complete (w : Elaboration) (s : State) : Prop :=
  ∀ key f signature, s.typing.functions.lookup key = some ⟨some f, .resolved signature⟩ →
    w.table.capturedBy f ⊆ s.typing.captures

/-- What is noted between two states: some variables, and what functions of the program use. -/
structure State.Takes (w : Elaboration) (cs : List (FunctionKey × Ident)) (s s' : State) : Prop where
  kept : s.typing.captures ⊆ s'.typing.captures
  nodup : s.typing.captures.Nodup → s'.typing.captures.Nodup
  added : ∀ c ∈ s'.typing.captures,
    c ∈ s.typing.captures ∨ c ∈ cs ∨ ∃ f ∈ w.program.functions, c ∈ w.table.capturedBy f
  taken : cs ⊆ s'.typing.captures
  complete : s.Complete w → s'.Complete w

namespace State.Takes

variable {cs ds : List (FunctionKey × Ident)}

theorem of_same (hfunctions : s'.typing.functions = s.typing.functions)
    (hcaptures : s'.typing.captures = s.typing.captures) : s.Takes w [] s' where
  kept := by rw [hcaptures]; exact List.Subset.refl _
  nodup := by rw [hcaptures]; exact id
  added c hc := .inl (hcaptures ▸ hc)
  taken := List.nil_subset _
  complete h key f signature hlookup := by
    rw [hfunctions] at hlookup
    rw [hcaptures]
    exact h key f signature hlookup

theorem refl (s : State) : s.Takes w [] s :=
  of_same rfl rfl

theorem trans (h : s.Takes w cs s') (h' : s'.Takes w ds s'') : s.Takes w (cs ++ ds) s'' where
  kept := List.Subset.trans h.kept h'.kept
  nodup := h'.nodup ∘ h.nodup
  added c hc := by
    rcases h'.added c hc with hold | hnew | hother
    · exact (h.added c hold).imp_right fun hc => hc.imp_left (List.mem_append_left ds)
    · exact .inr (.inl (List.mem_append_right cs hnew))
    · exact .inr (.inr hother)
  taken := List.append_subset.2 ⟨List.Subset.trans h.taken h'.kept, h'.taken⟩
  complete := h'.complete ∘ h.complete

/-- A variable is noted unless it has been noted before. -/
theorem capture {key : FunctionKey} {name : Ident} {u : Unit} (h : (Check.capture key name).run s = .ok (u, s')) :
    s.Takes w [(key, name)] s' := by
  rcases capture_ok h with ⟨hold, rfl⟩ | ⟨hnew, rfl⟩
  · have hsame : s'.Takes w [] s' := refl s'
    exact ⟨hsame.kept, hsame.nodup, fun c hc => .inl hc, List.cons_subset.2 ⟨hold, List.nil_subset _⟩, hsame.complete⟩
  · have hkept : s.typing.captures ⊆ s.typing.captures ++ [(key, name)] := List.subset_append_left _ _
    constructor
    case kept => exact hkept
    case nodup =>
      intro hnodup
      have hapart : ∀ c ∈ s.typing.captures, ∀ c' ∈ [(key, name)], c ≠ c' := by
        intro c hc c' hc' heq
        rw [heq, List.mem_singleton.1 hc'] at hc
        exact hnew hc
      exact List.nodup_append.2 ⟨hnodup, List.pairwise_singleton _ _, hapart⟩
    case added =>
      intro c hc
      exact (List.mem_append.1 hc).imp_right .inl
    case taken => exact List.subset_append_right _ _
    case complete =>
      intro hcomplete key' f signature hlookup
      exact List.Subset.trans (hcomplete key' f signature hlookup) hkept

/-- When the body of a function has been gone through, its signature gets known. -/
theorem resolve {f : FunctionDef} (hf : f ∈ w.program.functions) {key : FunctionKey} {progress : Progress}
    {signature : Signature} {table : SymbolTable} {mid : State}
    (h : State.Takes w (w.table.capturedBy f) { s with
      table, typing := { s.typing with functions := s.typing.functions.setProgress key .active } } mid)
    (hlookup : mid.typing.functions.lookup key = some ⟨some f, progress⟩)
    (hfunctions : s'.typing.functions = mid.typing.functions.setProgress key (.resolved signature))
    (hcaptures : s'.typing.captures = mid.typing.captures) : s.Takes w [] s' where
  kept := by
    rw [hcaptures]
    exact h.kept
  nodup := by
    rw [hcaptures]
    exact h.nodup
  added c hc := by
    rw [hcaptures] at hc
    rcases h.added c hc with hold | hnew | hother
    · exact .inl hold
    · exact .inr (.inr ⟨f, hf, hnew⟩)
    · exact .inr (.inr hother)
  taken := List.nil_subset _
  complete hcomplete := by
    have hstart : State.Complete w { s with
        table, typing := { s.typing with functions := s.typing.functions.setProgress key .active } } := by
      intro key' g signature' hkey'
      rcases FunctionTable.of_setProgress hkey' with ⟨_, hprogress, _⟩ | ⟨_, hold⟩
      · cases hprogress
      · exact hcomplete key' g signature' hold
    intro key' g signature' hkey'
    rw [hfunctions] at hkey'
    rw [hcaptures]
    rcases FunctionTable.of_setProgress hkey' with ⟨rfl, _, old, hold⟩ | ⟨_, hold⟩
    · cases hlookup.symm.trans hold
      exact h.taken
    · exact h.complete hstart key' g signature' hold

end State.Takes

end Check
end ToneScript
