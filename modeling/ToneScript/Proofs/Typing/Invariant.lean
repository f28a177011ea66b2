import ToneScript.Proofs.Typing.Rules

/-! What holds at every point of a check, in the order of the text. When a part of the program is reached, the
functions that it can see have their signatures already, but for those whose bodies it stands in. -/
namespace ToneScript

/-- A signature that calls can be checked against. -/
structure Signature.Usable (s : Signature) : Prop where
  defaults : s.defaults.length = s.type.args.length
  failed : s.failed = false

theorem Signature.usable_provisional (f : FunctionDef) : (Signature.provisional f).Usable where
  defaults := by simp [Signature.provisional, FunctionType.ofNumbers]
  failed := rfl

/-- A function that has been checked, and its signature. -/
structure Elaboration.Known (w : Elaboration) (f : FunctionDef) (signature : Signature) : Prop where
  usable : signature.Usable
  parameters : signature.parameters = f.parameters
  kind : signature.type.returns.IsKind
  settled : f.body.isProvisional w f.inside = false
  returns : signature.type.returns = f.body.ty w f.inside
  obeys : f.body.Obeys (.checked w) f.inside

theorem Elaboration.Known.arity {w : Elaboration} {f : FunctionDef} {signature : Signature}
    (h : w.Known f signature) : signature.arity = f.params.length := by
  have hlength := congrArg List.length h.parameters
  rw [Signature.parameters, List.length_zip, h.usable.defaults, List.length_map, Nat.min_self,
    FunctionDef.parameters, List.length_map] at hlength
  exact hlength

/-- A table of functions on the way to one in which all signatures are known. -/
def FunctionTable.Settles (t t' : FunctionTable) : Prop :=
  ∀ key info, t.lookup key = some info → ∃ signature,
    t'.lookup key = some ⟨info.definition?, .resolved signature⟩ ∧
      (∀ signature', info.progress = .resolved signature' → signature' = signature) ∧
      ∀ f, info.definition? = some f → signature.parameters = f.parameters

theorem FunctionTable.Grows.settles {t t' t'' : FunctionTable} (h : t.Grows t') (h' : t'.Settles t'') :
    t.Settles t'' := by
  intro key info hinfo
  obtain ⟨info', hinfo', hdef, hprogress⟩ := h.present key info hinfo
  obtain ⟨signature, hsignature, hresolved, hparams⟩ := h' key info' hinfo'
  rw [hdef] at hsignature hparams
  refine ⟨signature, hsignature, fun signature' hsignature' => ?_, hparams⟩
  rcases hprogress with heq | ⟨hpending, _⟩
  · exact hresolved signature' (heq.trans hsignature')
  · rw [hpending] at hsignature'
    cases hsignature'

namespace Check

/-- A state on the way to what is known in the end, without an error. -/
structure State.LeadsTo (w : Elaboration) (s : State) : Prop where
  table : ∀ hi, s.table.Later hi w.table
  functions : s.typing.functions.Settles w.functions
  count : s.typing.functions.length = w.functions.length
  clean : s.journal.errorCount = 0

theorem State.LeadsTo.of_grows {w : Elaboration} {s s' : State} (h : s'.LeadsTo w) (hg : s.Grows s') :
    s.LeadsTo w where
  table := by
    rw [← hg.table]
    exact h.table
  functions := hg.functions.settles h.functions
  count := hg.functions.length.symm.trans h.count
  clean := Nat.le_zero.1 (h.clean ▸ hg.errors)

/-- What has been learned so far: nothing has failed, and all known signatures are right. -/
structure State.Learned (w : Elaboration) (s : State) : Prop where
  unpoisoned : s.poisoned = 0
  known : ∀ key f signature, s.typing.functions.lookup key = some ⟨some f, .resolved signature⟩ →
    w.Known f signature

/-- A state in which the text is checked from an offset on, in a chain of blocks. -/
structure State.At (w : Elaboration) (scope : List BlockKey) (lo : Nat) (s : State) : Prop extends
    State.Learned w s where
  frame : s.table.frame = scope
  keys : ∀ key ∈ scope, key = rootBlock ∨ key.toNat < lo
  framed : s.table.Framed
  proper : ∀ key name d, s.table.find? key name = some d → d.Proper key
  collected : ∀ key f progress, s.typing.functions.lookup key = some ⟨some f, progress⟩ →
    f.key = key ∧ f ∈ w.program.flatMap Item.definitions
  intrinsic : ∀ key progress, s.typing.functions.lookup key = some ⟨none, progress⟩ →
    ∃ d, w.table.find? key.1 key.2 = some d ∧ d.builtin = true
  builtin : ∀ name d, w.table.find? rootBlock name = some d → d.builtin = true → d.isFunction = true →
    ∃ signature, s.typing.functions.lookup (rootBlock, name) = some ⟨none, .resolved signature⟩ ∧
      signature.Usable ∧ signature.type.returns.IsKind
  /-- A function that is seen has its signature, or is being checked if its body is around. -/
  ready : ∀ key ∈ scope, ∀ name d, w.table.find? key name = some d → d.isFunction = true →
    d.builtin = false → d.visibleFrom.toNat < lo →
    (d.visibleFrom ∈ scope ∧ ∃ f, s.typing.functions.lookup (key, name) = some ⟨some f, .active⟩) ∨
      (d.visibleFrom ∉ scope ∧ ∃ f signature,
        s.typing.functions.lookup (key, name) = some ⟨some f, .resolved signature⟩)
  before : ∀ key f, s.typing.functions.lookup key = some ⟨some f, .active⟩ → f.argsKey.toNat < lo
  typed : ∀ name d, s.table.find? rootBlock name = some d → d.builtin = false →
    d.visibleFrom.toNat < lo → d.ty? ≠ none

/-- Two states that know the same. -/
structure State.Same (s s' : State) : Prop where
  table : s'.table = s.table
  functions : s'.typing.functions = s.typing.functions
  poisoned : s'.poisoned = s.poisoned

theorem State.Same.refl (s : State) : s.Same s :=
  ⟨rfl, rfl, rfl⟩

theorem State.Same.trans {s s' s'' : State} (h : s.Same s') (h' : s'.Same s'') : s.Same s'' :=
  ⟨h'.table.trans h.table, h'.functions.trans h.functions, h'.poisoned.trans h.poisoned⟩

/-- Two states that know the same and have recorded the same types. -/
structure State.Calm (s s' : State) : Prop extends State.Same s s' where
  types : s'.typing.types = s.typing.types

theorem State.Calm.refl (s : State) : s.Calm s :=
  ⟨.refl s, rfl⟩

namespace State.At

variable {w : Elaboration} {scope : List BlockKey} {lo hi : Nat} {s s' : State}

theorem same (h : s.At w scope lo) (hs : s.Same s') : s'.At w scope lo := by
  obtain ⟨htable, hfunctions, hpoisoned⟩ := hs
  constructor
  case toLearned =>
    refine ⟨hpoisoned.trans h.unpoisoned, ?_⟩
    rw [hfunctions]
    exact h.known
  case keys => exact h.keys
  all_goals simp only [htable, hfunctions]
  · exact h.frame
  · exact h.framed
  · exact h.proper
  · exact h.collected
  · exact h.intrinsic
  · exact h.builtin
  · exact h.ready
  · exact h.before
  · exact h.typed

/-- From one offset to the next, where what is declared in between is ready. -/
theorem grow (h : s.At w scope lo) (hg : s.Grows s') (hlearned : s'.Learned w) (hle : lo ≤ hi)
    (hready : ∀ key ∈ scope, ∀ name d, w.table.find? key name = some d → d.isFunction = true →
      d.builtin = false → lo ≤ d.visibleFrom.toNat → d.visibleFrom.toNat < hi →
      d.visibleFrom ∉ scope ∧ ∃ f signature,
        s'.typing.functions.lookup (key, name) = some ⟨some f, .resolved signature⟩)
    (htyped : ∀ name d, s.table.find? rootBlock name = some d → d.builtin = false →
      lo ≤ d.visibleFrom.toNat → d.visibleFrom.toNat < hi → d.ty? ≠ none) : s'.At w scope hi where
  toLearned := hlearned
  frame := by rw [hg.table, h.frame]
  keys key hkey := (h.keys key hkey).imp_right fun hlt => Nat.lt_of_lt_of_le hlt hle
  framed := hg.framed h.framed
  proper := by rw [hg.table]; exact h.proper
  collected key f progress hkey := by
    obtain ⟨progress', hold⟩ := hg.functions.origin hkey
    exact h.collected key f progress' hold
  intrinsic key progress hkey := by
    obtain ⟨progress', hold⟩ := hg.functions.origin hkey
    exact h.intrinsic key progress' hold
  builtin name d hd hbuiltin hfunction := by
    obtain ⟨signature, hkey, husable⟩ := h.builtin name d hd hbuiltin hfunction
    exact ⟨signature, hg.functions.resolved hkey, husable⟩
  ready key hkey name d hd hfunction hsource hlt := by
    by_cases hold : d.visibleFrom.toNat < lo
    · rcases h.ready key hkey name d hd hfunction hsource hold with ⟨hmem, f, hf⟩ | ⟨hmem, f, sig, hf⟩
      · exact .inl ⟨hmem, f, hg.functions.active hf⟩
      · exact .inr ⟨hmem, f, sig, hg.functions.resolved hf⟩
    · exact .inr (hready key hkey name d hd hfunction hsource (Nat.not_lt.1 hold) hlt)
  before key f hkey := Nat.lt_of_lt_of_le (h.before key f (hg.functions.of_active hkey)) hle
  typed name d hd hsource hlt := by
    rw [hg.table] at hd
    by_cases hold : d.visibleFrom.toNat < lo
    · exact h.typed name d hd hsource hold
    · exact htyped name d hd hsource (Nat.not_lt.1 hold) hlt

/-- From one offset to the next, where nothing is declared in between. -/
theorem advance (h : s.At w scope lo) (hg : s.Grows s') (hlearned : s'.Learned w)
    (hto : s.LeadsTo w) (hclear : w.table.Clear scope lo hi) (hroot : rootBlock ∈ scope)
    (hle : lo ≤ hi) : s'.At w scope hi := by
  refine h.grow hg hlearned hle ?_ ?_
  · intro key hkey name d hd _ hsource hlo hhi
    rcases hclear key hkey name d hd hsource with hlt | hle'
    · omega
    · omega
  · intro name d hd hsource hlo hhi
    obtain ⟨d', hd', hbecomes⟩ := (hto.table hi).kept rootBlock name d hd
    rcases hclear rootBlock hroot name d' hd' (by rw [hbecomes.builtin_eq, hsource]) with hlt | hle'
    · rw [hbecomes.visibleFrom_eq] at hlt
      omega
    · rw [hbecomes.visibleFrom_eq] at hle'
      omega

/-- A name that is resolved has its type and is declared before the part of the text that uses it. -/
theorem resolve (h : s.At w scope lo) (hto : s.LeadsTo w) (hclear : w.table.Clear scope lo hi)
    {name : Ident} {pos : Position} (hpos : pos.Between lo hi) {d : Declaration} {crossed : Nat}
    (hresolve : s.table.resolve scope name pos = some (d, crossed)) :
    w.table.resolve scope name pos = some (d, crossed) ∧ d.ty? ≠ none ∧
      ∃ key ∈ scope, w.table.find? key name = some d ∧ d.Proper key ∧
        (d.builtin = true ∨ d.visibleFrom.toNat < lo) := by
  rcases (hto.table hi).resolve_eq scope name hpos.2 with ⟨hnone, _⟩ | ⟨d₀, d', n, hd₀, hd', hbecomes⟩
  · simp [hresolve] at hnone
  rw [hresolve] at hd₀
  cases hd₀
  obtain ⟨key, hkey, hfind, hvisible⟩ := SymbolTable.resolve_some hresolve
  obtain ⟨key', hkey', hfind', _⟩ := SymbolTable.resolve_some hd'
  rw [hkey] at hkey'
  cases hkey'
  have hmem : key ∈ scope := List.mem_of_getElem? hkey
  have hproper := h.proper key name d hfind
  have hseen : d.builtin = true ∨ d.visibleFrom.toNat < lo := by
    cases hbuiltin : d.builtin with
    | true => exact .inl rfl
    | false =>
      right
      rw [Declaration.visibleAt, hbuiltin, Bool.false_or, decide_eq_true_eq,
        UInt64.le_iff_toNat_le] at hvisible
      have hlt := hpos.2
      rcases hclear key hmem name d' hfind' (by rw [hbecomes.builtin_eq, hbuiltin]) with hlt' | hle'
      · rwa [hbecomes.visibleFrom_eq] at hlt'
      · rw [hbecomes.visibleFrom_eq] at hle'
        omega
  have htyped : d.ty? ≠ none := by
    intro hnone
    obtain ⟨hroot, hsource⟩ := hproper.untyped hnone
    subst hroot
    rcases hseen with hbuiltin | hlt
    · simp [hsource] at hbuiltin
    · exact h.typed name d hfind hsource hlt hnone
  have heq := hbecomes.eq_of_typed htyped
  rw [heq] at hd' hfind'
  exact ⟨hd', htyped, key, hmem, hfind', hproper, hseen⟩

/-- The signature that a call is checked against: that of the end, or one without a result where the call is
recursive. -/
theorem signature (h : s.At w scope lo) (hto : s.LeadsTo w) {resolve : Resolver} {key : BlockKey}
    {name : Ident} {d : Declaration} (hkey : key ∈ scope) (hfind : w.table.find? key name = some d)
    (hproper : d.Proper key) (hfunction : d.isFunction = true)
    (hseen : d.builtin = true ∨ d.visibleFrom.toNat < lo) {signature? : Option Signature}
    (hrun : (signatureOf? resolve d).run s = .ok (signature?, s')) :
    s' = s ∧ ∃ signature final, signature? = some signature ∧ signature.Usable ∧
      w.signature? d = some final ∧ signature.parameters = final.parameters ∧
      (if !d.builtin && scope.contains d.visibleFrom then signature.type.returns = .indeterminate
        else signature = final ∧ final.type.returns.IsKind) := by
  have hname := SymbolTable.find?_name hfind
  unfold signatureOf? at hrun
  obtain ⟨s₀, s₁, hget, hrun⟩ := run_bind_ok hrun
  cases hget
  rw [hproper.block, hname] at hrun
  have hfinal {definition? : Option FunctionDef} {progress : Progress}
      (hlookup : s.typing.functions.lookup (key, name) = some ⟨definition?, progress⟩) :
      ∃ final, w.signature? d = some final ∧
        (∀ signature', progress = .resolved signature' → signature' = final) ∧
        ∀ f, definition? = some f → final.parameters = f.parameters := by
    obtain ⟨final, hw, hresolved, hparams⟩ := hto.functions _ _ hlookup
    refine ⟨final, ?_, hresolved, hparams⟩
    rw [Elaboration.signature?, FunctionTable.signature?, hproper.block, hname, hw]
  by_cases hbuiltin : d.builtin = true
  · have hroot := hproper.builtin hbuiltin
    subst hroot
    obtain ⟨signature, hlookup, husable, hkind⟩ := h.builtin name d hfind hbuiltin hfunction
    obtain ⟨final, hw, hresolved, _⟩ := hfinal hlookup
    cases hresolved signature rfl
    rw [hlookup] at hrun
    cases hrun
    refine ⟨rfl, signature, signature, rfl, husable, hw, rfl, ?_⟩
    simp [hbuiltin, hkind]
  · have hsource : d.builtin = false := by simpa using hbuiltin
    have hlt : d.visibleFrom.toNat < lo := hseen.resolve_left hbuiltin
    rcases h.ready key hkey name d hfind hfunction hsource hlt with
      ⟨hmem, f, hlookup⟩ | ⟨hmem, f, signature, hlookup⟩
    · obtain ⟨final, hw, _, hparams⟩ := hfinal hlookup
      rw [hlookup] at hrun
      cases hrun
      refine ⟨rfl, .provisional f, final, rfl, Signature.usable_provisional f, hw, ?_, ?_⟩
      · rw [Signature.parameters_provisional, hparams f rfl]
      · rw [if_pos]
        · rfl
        · simp [hsource, hmem]
    · obtain ⟨final, hw, hresolved, _⟩ := hfinal hlookup
      cases hresolved signature rfl
      rw [hlookup] at hrun
      cases hrun
      have hknown := h.known _ f signature hlookup
      refine ⟨rfl, signature, signature, rfl, hknown.usable, hw, rfl, ?_⟩
      rw [if_neg]
      · exact ⟨rfl, hknown.kind⟩
      · simp [hsource, hmem]

end State.At
end Check
end ToneScript
