import ToneScript.Proofs.Typing.Checked
import ToneScript.Proofs.Typing.Passes
import ToneScript.Proofs.Typing.Places

/-! Which functions are still to be checked. They wait in the order of the text, and what is checked before one of them
cannot see it. -/
namespace ToneScript

/-- Whether issues come up at given places only, and none of them twice unless a place does. -/
def Issue.Confined (places : List Place) (issues : List Issue) : Prop :=
  (places.Nodup → issues.Nodup) ∧ ∀ i ∈ issues, ∃ place ∈ places, i.place? = some place

namespace Issue.Confined

variable {places places' : List Place} {issues issues' : List Issue}

theorem nil (places : List Place) : Confined places [] :=
  ⟨fun _ => .nil, List.forall_mem_nil _⟩

theorem append (h : Confined places issues) (h' : Confined places' issues') :
    Confined (places ++ places') (issues ++ issues') := by
  obtain ⟨hnodup, hplaces⟩ := h
  obtain ⟨hnodup', hplaces'⟩ := h'
  constructor
  · intro hall
    obtain ⟨hfirst, hsecond, hapart⟩ := List.nodup_append.1 hall
    refine List.nodup_append.2 ⟨hnodup hfirst, hnodup' hsecond, fun i hi j hj heq => ?_⟩
    obtain ⟨place, hplace, hi⟩ := hplaces i hi
    obtain ⟨place', hplace', hj⟩ := hplaces' j hj
    rw [heq, hj] at hi
    exact hapart place hplace place' hplace' (Option.some.inj hi).symm
  · intro i hi
    rcases List.mem_append.1 hi with hi | hi
    · obtain ⟨place, hplace, heq⟩ := hplaces i hi
      exact ⟨place, List.mem_append_left _ hplace, heq⟩
    · obtain ⟨place, hplace, heq⟩ := hplaces' i hi
      exact ⟨place, List.mem_append_right _ hplace, heq⟩

theorem widen (h : Confined places issues) (hsub : places.Sublist places') : Confined places' issues := by
  refine ⟨fun hnodup => h.1 (hnodup.sublist hsub), fun i hi => ?_⟩
  obtain ⟨place, hplace, heq⟩ := h.2 i hi
  exact ⟨place, hsub.subset hplace, heq⟩

/-- Distinct errors at one position, where the words they begin with are listed. -/
theorem of_sublist {names : NameTable} {pos : Position} {words : List String} {errors : List TypeError}
    (hsub : issues.Sublist (errors.map fun e => e.toIssue names (some pos)))
    (hmessages : (errors.map (TypeError.message names)).Nodup) (hwords : ∀ e ∈ errors, e.word ∈ words) :
    Confined (pos.places words) issues := by
  have hnodup : (errors.map fun e => e.toIssue names (some pos)).Nodup := by
    refine List.Nodup.of_map Issue.message ?_
    rw [List.map_map]
    exact hmessages
  refine ⟨fun _ => hnodup.sublist hsub, fun i hi => ?_⟩
  obtain ⟨e, he, rfl⟩ := List.mem_map.1 (hsub.subset hi)
  exact ⟨(pos.index, e.word), List.mem_map.2 ⟨e.word, hwords e he, rfl⟩, e.place?_toIssue names pos⟩

theorem single {names : NameTable} {e : TypeError} (pos : Position) {words : List String} (hword : e.word ∈ words) :
    Confined (pos.places words) [e.toIssue names (some pos)] := by
  have hsub : [e.toIssue names (some pos)].Sublist ([e].map fun e => e.toIssue names (some pos)) := .refl _
  exact of_sublist hsub (List.nodup_singleton _) (List.forall_mem_singleton.2 hword)

end Issue.Confined

/-- Whether a declaration is not that of a function that opens at an offset or after it. -/
def Declaration.Earlier (T : SymbolTable) (hi : Nat) (d : Declaration) : Prop :=
  ∀ f : FunctionDef, T.find? f.block f.name = some f.declaration → hi ≤ f.argsKey.toNat → f.key ≠ (d.block, d.name)

/-- Whether the parameters in a signature have different names. -/
def Signature.Spelled (names : NameTable) (signature : Signature) : Prop :=
  (signature.type.args.map fun p => names.name p.1).Nodup

/-- Whether the parameters of a function have different names. -/
structure FunctionInfo.Spelled (names : NameTable) (info : FunctionInfo) : Prop where
  definition : ∀ f, info.definition? = some f → ((f.params.map Param.name).map names.name).Nodup
  signature : ∀ signature, info.progress = .resolved signature → signature.Spelled names

theorem Signature.spelled_of_type {names : NameTable} {params : List Ident} (h : (params.map names.name).Nodup)
    {signature : Signature} {returns : Ty} (htype : signature.type = .ofNumbers params returns) :
    signature.Spelled names := by
  have hargs : signature.type.args.map (fun p => names.name p.1) = params.map names.name := by
    rw [htype, FunctionType.ofNumbers, List.map_map]
    rfl
  rw [Signature.Spelled, hargs]
  exact h

namespace Check

/-- What a step leaves alone that turns to no function: the blocks, what is known of functions, and the captures of
functions other than the one whose body is being checked. -/
structure State.Near (frame? : Option Frame) (s s' : State) : Prop where
  table : s'.table = s.table
  functions : s'.typing.functions = s.typing.functions
  kept : ∀ key, (∀ frame ∈ frame?, frame.key ≠ key) → s'.typing.capturesOf key = s.typing.capturesOf key

theorem State.Near.refl (frame? : Option Frame) (s : State) : s.Near frame? s :=
  ⟨rfl, rfl, fun _ _ => rfl⟩

/-- What a part of a check has done: it has turned to certain functions, each for the first time and once, and has gone
through their bodies. What a function captures was found while its body was checked. -/
structure State.Passes (frame? : Option Frame) (fs : List FunctionDef) (places : List Place) (events : List Event)
    (s s' : State) : Prop where
  entered : events.filterMap Event.entered? = fs.map fun f => (f.key, .pending)
  checked : events.filterMap Event.checked? = fs.map FunctionDef.key
  finished : ∀ key, .abandoned key ∉ events
  captured : ∀ key before after, .checked key before after ∈ events →
    before.capturesOf key = [] ∧ after.capturesOf key = s'.typing.capturesOf key
  kept : ∀ key, key ∉ fs.map FunctionDef.key → (∀ frame ∈ frame?, frame.key ≠ key) →
    s'.typing.capturesOf key = s.typing.capturesOf key
  reported : ∃ issues, s'.journal.issues = s.journal.issues ++ issues ∧ Issue.Confined places issues

/-- A state in which certain functions are still to be checked, in a chain of blocks. -/
structure State.Due (names : NameTable) (T : SymbolTable) (frame? : Option Frame) (scope : List BlockKey)
    (due : List FunctionDef) (s : State) : Prop where
  later : T.Later UInt64.size s.table
  frame : s.table.frame = scope
  framed : s.table.Framed
  pending : ∀ key f, s.typing.functions.lookup key = some ⟨some f, .pending⟩ ↔ f ∈ due ∧ f.key = key
  distinct : (due.map FunctionDef.key).Nodup
  declared : ∀ f ∈ due, T.find? f.block f.name = some f.declaration
  /-- The function whose body is being checked is not checked again. -/
  outside : ∀ f ∈ due, ∀ frame ∈ frame?, frame.key ≠ f.key
  uncaptured : ∀ f ∈ due, s.typing.capturesOf f.key = []
  spelled : ∀ key info, s.typing.functions.lookup key = some info → info.Spelled names

variable {names : NameTable} {T : SymbolTable} {frame? : Option Frame} {scope : List BlockKey}
  {due fs gs rest : List FunctionDef} {places places' : List Place} {events events' : List Event} {s s' s'' : State}

namespace State.Due

theorem near (h : s.Due names T frame? scope due) (hs : s.Near frame? s') : s'.Due names T frame? scope due where
  later := hs.table ▸ h.later
  frame := hs.table ▸ h.frame
  framed := hs.table ▸ h.framed
  pending := hs.functions ▸ h.pending
  distinct := h.distinct
  declared := h.declared
  outside := h.outside
  uncaptured f hf := (hs.kept f.key (h.outside f hf)).trans (h.uncaptured f hf)
  spelled := hs.functions ▸ h.spelled

/-- What a name before an offset refers to is not a function that opens after the offset. -/
theorem earlier (h : s.Due names T frame? scope due) (hproper : ∀ key name d, T.find? key name = some d → d.Proper key)
    {hi : Nat} {name : Ident} {pos : Position} (hpos : pos.index.toNat < hi) {d : Declaration} {crossed : Nat}
    (hfound : s.table.resolve scope name pos = some (d, crossed)) : d.Earlier T hi := by
  obtain ⟨key, _, hfind, hvisible⟩ := SymbolTable.resolve_some hfound
  obtain ⟨d₀, hfind₀, hbecomes⟩ := h.later.find?_of_lt hfind (.inr d.visibleFrom.toNat_lt)
  have hblock : d.block = key := by rw [hbecomes.block_eq, (hproper key name d₀ hfind₀).block]
  have hname : d.name = name := SymbolTable.find?_name hfind
  intro f hdeclared hopens hkey
  obtain ⟨hfblock, hfname⟩ := Prod.mk.inj hkey
  rw [hfblock, hfname, hblock, hname] at hdeclared
  cases hfind₀.symm.trans hdeclared
  rw [hbecomes.eq_of_typed (by simp [FunctionDef.declaration])] at hvisible
  have hle : f.argsKey.toNat ≤ pos.index.toNat := by
    simpa [Declaration.visibleAt, FunctionDef.declaration, UInt64.le_iff_toNat_le] using hvisible
  omega

/-- What is not a function that opens later is not waiting. -/
theorem not_pending (h : s.Due names T frame? scope due) {hi : Nat} (hdue : ∀ f ∈ due, hi ≤ f.argsKey.toNat)
    {d : Declaration} (hd : d.Earlier T hi) (f : FunctionDef) :
    s.typing.functions.lookup (d.block, d.name) ≠ some ⟨some f, .pending⟩ := by
  intro hlookup
  obtain ⟨hmem, hkey⟩ := (h.pending _ f).1 hlookup
  exact hd f (h.declared f hmem) (hdue f hmem) hkey

end State.Due

namespace State.Passes

/-- A step that turns to no function. -/
theorem near (h : s.Near frame? s') {issues : List Issue} (hissues : s'.journal.issues = s.journal.issues ++ issues)
    (hconfined : Issue.Confined places issues) : s.Passes frame? [] places [] s' where
  entered := rfl
  checked := rfl
  finished := nofun
  captured := nofun
  kept key _ hkey := h.kept key hkey
  reported := ⟨issues, hissues, hconfined⟩

theorem mem_of_checked (h : s.Passes frame? fs places events s') {key : FunctionKey} {before after : Typing}
    (hmem : .checked key before after ∈ events) : key ∈ fs.map FunctionDef.key := by
  rw [← h.checked]
  exact List.mem_filterMap.2 ⟨_, hmem, rfl⟩

/-- One part of a check after another one. -/
theorem trans (h : s.Passes frame? fs places events s') (h' : s'.Passes frame? gs places' events' s'')
    (hs : s.Due names T frame? scope (fs ++ gs ++ rest)) :
    s.Passes frame? (fs ++ gs) (places ++ places') (events ++ events') s'' where
  entered := by rw [List.filterMap_append, h.entered, h'.entered, List.map_append]
  checked := by rw [List.filterMap_append, h.checked, h'.checked, List.map_append]
  finished key hmem := (List.mem_append.1 hmem).elim (h.finished key) (h'.finished key)
  captured key before after hmem := by
    rcases List.mem_append.1 hmem with hmem | hmem
    · obtain ⟨hbefore, hafter⟩ := h.captured key before after hmem
      -- The second part leaves the captures of a function alone that was checked in the first one.
      have hkey := h.mem_of_checked hmem
      have hdistinct := hs.distinct
      rw [List.map_append, List.map_append, List.append_assoc] at hdistinct
      have hapart : key ∉ gs.map FunctionDef.key := fun hin =>
        (List.nodup_append.1 hdistinct).2.2 key hkey key (List.mem_append_left _ hin) rfl
      obtain ⟨f, hf, rfl⟩ := List.mem_map.1 hkey
      have hkept := h'.kept f.key hapart
        (hs.outside f (List.mem_append_left _ (List.mem_append_left _ hf)))
      exact ⟨hbefore, hafter.trans hkept.symm⟩
    · exact h'.captured key before after hmem
  kept key hkey hframe := by
    rw [List.map_append, List.mem_append, not_or] at hkey
    exact (h'.kept key hkey.2 hframe).trans (h.kept key hkey.1 hframe)
  reported := by
    obtain ⟨issues, hissues, hconfined⟩ := h.reported
    obtain ⟨issues', hissues', hconfined'⟩ := h'.reported
    exact ⟨issues ++ issues', by rw [hissues', hissues, List.append_assoc], hconfined.append hconfined'⟩

theorem widen (h : s.Passes frame? fs places events s') (hsub : places.Sublist places') :
    s.Passes frame? fs places' events s' := by
  obtain ⟨issues, hissues, hconfined⟩ := h.reported
  exact { h with reported := ⟨issues, hissues, hconfined.widen hsub⟩ }

end State.Passes

end Check
end ToneScript
