import ToneScript.Proofs.Scope.Blocks
import ToneScript.Proofs.Syntax.Journal
import ToneScript.Proofs.Typing.Law

/-! Growth of what a check knows. A check leaves the blocks as it found them, takes back no error and no
signature, and finds signatures only for functions that had none and were not being checked. -/
namespace ToneScript

/-- The names and defaults of the parameters of a function. -/
def FunctionDef.parameters (f : FunctionDef) : List (Ident × Option Number) :=
  f.params.map fun p => (p.name, p.default?)

/-- The names and defaults of the parameters in a signature. -/
def Signature.parameters (s : Signature) : List (Ident × Option Number) :=
  (s.type.args.map Prod.fst).zip s.defaults

theorem Signature.parameters_provisional (f : FunctionDef) :
    (Signature.provisional f).parameters = f.parameters := by
  simp only [Signature.parameters, Signature.provisional, FunctionType.ofNumbers, List.map_map,
    FunctionDef.parameters]
  rw [List.zip_map']
  rfl

namespace FunctionTable

theorem lookup_setProgress (t : FunctionTable) (key key' : FunctionKey) (progress : Progress) :
    (t.setProgress key progress).lookup key' =
      if key = key' then (t.lookup key').map ({ · with progress }) else t.lookup key' := by
  induction t with
  | nil => simp [setProgress]
  | cons entry t ih =>
    obtain ⟨key₀, info⟩ := entry
    have hcons : FunctionTable.setProgress ((key₀, info) :: t) key progress =
        (if key₀ == key then (key, { info with progress }) else (key₀, info)) ::
          FunctionTable.setProgress t key progress := rfl
    rw [hcons]
    by_cases hkey : key₀ = key
    · subst hkey
      by_cases hkey' : key₀ = key'
      · subst hkey'
        simp
      · have hbeq : (key' == key₀) = false := beq_false_of_ne (Ne.symm hkey')
        simpa [List.lookup_cons, hbeq, hkey'] using ih
    · have hbeq : (key₀ == key) = false := beq_false_of_ne hkey
      simp only [hbeq, Bool.false_eq_true, if_false, List.lookup_cons]
      by_cases hkey' : key' = key₀
      · subst hkey'
        simp [Ne.symm hkey]
      · have hbeq' : (key' == key₀) = false := beq_false_of_ne hkey'
        simpa [hbeq'] using ih

theorem length_setProgress (t : FunctionTable) (key : FunctionKey) (progress : Progress) :
    (t.setProgress key progress).length = t.length := by
  simp [setProgress]

/-- What is noted for one function leaves the others as they were. -/
theorem of_setProgress {t : FunctionTable} {key key' : FunctionKey} {progress progress' : Progress}
    {definition? : Option FunctionDef}
    (h : (t.setProgress key progress).lookup key' = some ⟨definition?, progress'⟩) :
    (key = key' ∧ progress' = progress ∧ ∃ old, t.lookup key' = some ⟨definition?, old⟩) ∨
      key ≠ key' ∧ t.lookup key' = some ⟨definition?, progress'⟩ := by
  rw [lookup_setProgress] at h
  split at h
  · rename_i hkey
    obtain ⟨⟨definition, old⟩, hold, heq⟩ := Option.map_eq_some_iff.1 h
    cases heq
    exact .inl ⟨hkey, rfl, old, hold⟩
  · rename_i hkey
    exact .inr ⟨hkey, h⟩

theorem lookup_setProgress_self {t : FunctionTable} {key : FunctionKey} {definition? : Option FunctionDef}
    {progress : Progress} (h : t.lookup key = some ⟨definition?, progress⟩) (progress' : Progress) :
    (t.setProgress key progress').lookup key = some ⟨definition?, progress'⟩ := by
  rw [lookup_setProgress, if_pos rfl, h]
  rfl

theorem lookup_setProgress_of_ne {t : FunctionTable} {key key' : FunctionKey} (progress : Progress)
    {info info' : FunctionInfo} (hkey : t.lookup key = some info) (hkey' : t.lookup key' = some info')
    (hne : info' ≠ info) : (t.setProgress key progress).lookup key' = some info' := by
  rw [lookup_setProgress, if_neg, hkey']
  rintro rfl
  rw [hkey] at hkey'
  exact hne (Option.some.inj hkey').symm

/-- What may become of a function: a signature is found if there was none. It has the parameters of the
definition. -/
def Advances (info info' : FunctionInfo) : Prop :=
  info'.definition? = info.definition? ∧ (info'.progress = info.progress ∨
    info.progress = .pending ∧ ∃ signature, info'.progress = .resolved signature ∧
      ∀ f, info.definition? = some f → signature.parameters = f.parameters)

theorem Advances.refl (info : FunctionInfo) : Advances info info :=
  ⟨rfl, .inl rfl⟩

theorem Advances.trans {info info' info'' : FunctionInfo} (h : Advances info info')
    (h' : Advances info' info'') : Advances info info'' := by
  obtain ⟨hdef, hprogress⟩ := h
  obtain ⟨hdef', hprogress'⟩ := h'
  refine ⟨hdef'.trans hdef, ?_⟩
  rcases hprogress with heq | ⟨hpending, signature, hresolved, hparams⟩
  · rw [← heq, ← hdef]
    exact hprogress'
  · rcases hprogress' with heq' | ⟨hpending', _⟩
    · exact .inr ⟨hpending, signature, heq'.trans hresolved, hparams⟩
    · rw [hresolved] at hpending'
      cases hpending'

/-- No function is known to return a function. -/
def Plain (t : FunctionTable) : Prop :=
  ∀ key definition? signature, t.lookup key = some ⟨definition?, .resolved signature⟩ →
    signature.type.returns.isFunction = false

theorem Plain.setProgress {t : FunctionTable} (h : t.Plain) (key : FunctionKey)
    {progress : Progress}
    (hprogress : ∀ signature, progress = .resolved signature →
      signature.type.returns.isFunction = false) : (t.setProgress key progress).Plain := by
  intro key' definition? signature hkey'
  rcases of_setProgress hkey' with ⟨_, heq, _⟩ | ⟨_, hold⟩
  · exact hprogress signature heq.symm
  · exact h key' definition? signature hold

/-- One table of functions grows into another. -/
structure Grows (t t' : FunctionTable) : Prop where
  length : t'.length = t.length
  plain : t.Plain → t'.Plain
  absent : ∀ key, t.lookup key = none → t'.lookup key = none
  present : ∀ key info, t.lookup key = some info →
    ∃ info', t'.lookup key = some info' ∧ Advances info info'

namespace Grows

variable {t t' t'' : FunctionTable}

theorem refl (t : FunctionTable) : Grows t t :=
  ⟨rfl, id, fun _ h => h, fun _ info h => ⟨info, h, .refl info⟩⟩

theorem trans (h : Grows t t') (h' : Grows t' t'') : Grows t t'' where
  length := h'.length.trans h.length
  plain := h'.plain ∘ h.plain
  absent key hkey := h'.absent key (h.absent key hkey)
  present key info hinfo := by
    obtain ⟨info', hinfo', hadv⟩ := h.present key info hinfo
    obtain ⟨info'', hinfo'', hadv'⟩ := h'.present key info' hinfo'
    exact ⟨info'', hinfo'', hadv.trans hadv'⟩

/-- What is known of a function stays, once it is known to be more than pending. -/
theorem kept (h : Grows t t') {key : FunctionKey} {info : FunctionInfo} (hkey : t.lookup key = some info)
    (hprogress : info.progress ≠ .pending) : t'.lookup key = some info := by
  obtain ⟨info', hinfo', hdefinition, hadvance⟩ := h.present key info hkey
  rcases hadvance with heq | ⟨hpending, _⟩
  · rw [hinfo']
    cases info
    cases info'
    cases hdefinition
    cases heq
    rfl
  · exact absurd hpending hprogress

/-- A signature is never taken back. -/
theorem resolved (h : Grows t t') {key : FunctionKey} {definition? : Option FunctionDef}
    {signature : Signature} (hkey : t.lookup key = some ⟨definition?, .resolved signature⟩) :
    t'.lookup key = some ⟨definition?, .resolved signature⟩ :=
  h.kept hkey nofun

/-- A function that is being checked stays so. -/
theorem active (h : Grows t t') {key : FunctionKey} {definition? : Option FunctionDef}
    (hkey : t.lookup key = some ⟨definition?, .active⟩) :
    t'.lookup key = some ⟨definition?, .active⟩ :=
  h.kept hkey nofun

/-- No function is new. -/
theorem origin (h : Grows t t') {key : FunctionKey} {definition? : Option FunctionDef}
    {progress : Progress} (hkey : t'.lookup key = some ⟨definition?, progress⟩) :
    ∃ progress', t.lookup key = some ⟨definition?, progress'⟩ := by
  cases hold : t.lookup key with
  | none => simp [h.absent key hold] at hkey
  | some info =>
    obtain ⟨info', hinfo', hdef, _⟩ := h.present key info hold
    rw [hkey] at hinfo'
    cases hinfo'
    obtain ⟨definition, progress'⟩ := info
    cases hdef
    exact ⟨progress', rfl⟩

/-- No function begins to be checked. -/
theorem of_active (h : Grows t t') {key : FunctionKey} {definition? : Option FunctionDef}
    (hkey : t'.lookup key = some ⟨definition?, .active⟩) :
    t.lookup key = some ⟨definition?, .active⟩ := by
  cases hold : t.lookup key with
  | none => simp [h.absent key hold] at hkey
  | some info =>
    obtain ⟨info', hinfo', hdef, hprogress⟩ := h.present key info hold
    rw [hkey] at hinfo'
    cases hinfo'
    rcases hprogress with heq | ⟨_, signature, hresolved, _⟩
    · obtain ⟨definition', progress'⟩ := info
      cases hdef
      cases heq
      rfl
    · cases hresolved

end Grows
end FunctionTable

namespace Check

variable {α β : Type}

/-- One state of a check grows into another. -/
structure State.Grows (s s' : State) : Prop where
  table : s'.table = s.table
  journal : s.journal.GainsErrors s'.journal
  poisoned : s.poisoned ≤ s'.poisoned
  functions : FunctionTable.Grows s.typing.functions s'.typing.functions

theorem State.Grows.errors {s s' : State} (h : s.Grows s') : s.journal.errorCount ≤ s'.journal.errorCount :=
  h.journal.errorCount_le

theorem State.Grows.framed {s s' : State} (h : s.Grows s') (hframed : s.table.Framed) : s'.table.Framed :=
  h.table ▸ hframed

theorem State.Grows.refl (s : State) : s.Grows s :=
  ⟨rfl, .refl _, Nat.le_refl _, .refl _⟩

theorem State.Grows.trans {s s' s'' : State} (h : s.Grows s') (h' : s'.Grows s'') : s.Grows s'' :=
  ⟨h'.table.trans h.table, h.journal.trans h'.journal, Nat.le_trans h.poisoned h'.poisoned,
    h.functions.trans h'.functions⟩

/-- A step that only lets the state grow. -/
def Grows (x : Step α) : Prop :=
  ∀ s a s', s.table.Framed → x.run s = .ok (a, s') → s.Grows s'

/-- A resolver that only lets the state grow, asked for a function that has no signature. -/
def Resolver.Grows (resolve : Resolver) : Prop :=
  ∀ key f s signature s', s.typing.functions.lookup key = some ⟨some f, .pending⟩ →
    (resolve key f).run s = .ok (signature, s') → s.Grows s'

namespace Grows

theorem pure (a : α) : Grows (pure a : Step α) := by
  intro s a s' _ h
  cases h
  exact .refl s

theorem get : Grows (get : Step State) := by
  intro s a s' _ h
  cases h
  exact .refl s

theorem bind {x : Step α} {f : α → Step β} (hx : Grows x) (hf : ∀ a, Grows (f a)) :
    Grows (x >>= f) := by
  intro s b s' hs h
  obtain ⟨a, s₁, h₁, h₂⟩ := run_bind_ok h
  have hfirst := hx s a s₁ hs h₁
  exact hfirst.trans (hf a s₁ b s' (hfirst.framed hs) h₂)

theorem reportAt (names : NameTable) (pos? : Option Position) (e : TypeError) :
    Grows (reportAt names pos? e) := by
  intro s a s' _ h
  cases h
  exact ⟨rfl, .report _ rfl, Nat.le_refl _, .refl _⟩

theorem note (level : Log.Level) (message : String) : Grows (note level message) := by
  intro s a s' _ h
  cases h
  exact ⟨rfl, .note _ _ _ _, Nat.le_refl _, .refl _⟩

theorem poison : Grows poison := by
  intro s a s' _ h
  cases h
  exact ⟨rfl, .refl _, Nat.le_succ _, .refl _⟩

theorem setType (pos : Position) (ty : Ty) : Grows (setType pos ty) := by
  intro s a s' _ h
  cases h
  exact ⟨rfl, .refl _, Nat.le_refl _, .refl _⟩

theorem capture (key : FunctionKey) (name : Ident) : Grows (capture key name) := by
  intro s a s' _ h
  cases h
  refine ⟨rfl, .refl _, Nat.le_refl _, ?_⟩
  show FunctionTable.Grows _ (Typing.functions (if _ then _ else _))
  split <;> exact .refl _

theorem enterBlock {x : Step α} (key : BlockKey) (hx : Grows x) :
    Grows (inScope (·.enterBlock key) x) := by
  intro s a s' hs h
  obtain ⟨mid, table, hstep, hleave, rfl⟩ := inScope_ok h
  have hinner := hx _ a mid (hs.enterBlock key) hstep
  rw [hinner.table, SymbolTable.leave_enterBlock_self hs] at hleave
  exact ⟨(Except.ok.inj hleave).symm, hinner.journal, hinner.poisoned, hinner.functions⟩

/-- Each check only lets the state grow, since each of its steps does. -/
def law : Law where
  holds := Grows
  pure := pure
  get := get
  bind := bind
  reportAt := reportAt
  poison := poison
  setType := setType
  capture := capture

theorem lookup? (frame? : Option Frame) (name : Ident) (pos : Position) : Grows (lookup? frame? name pos) :=
  law.lookup? frame? name pos

section

variable (names : NameTable)

theorem expect (role : Role) (expected actual : Ty) (pos : Position) :
    Grows (expect names role expected actual pos) :=
  law.expect names role expected actual pos

theorem variableType (frame? : Option Frame) (name : Ident) (pos : Position) :
    Grows (variableType names frame? name pos) :=
  law.variableType names frame? name pos

theorem binaryType (op : Operator) (pos : Position) (left right : Ty) (leftPos rightPos : Position) :
    Grows (binaryType names op pos left right leftPos rightPos) :=
  law.binaryType names op pos left right leftPos rightPos

theorem checkMissing (callee : Ident) (pos : Position) (params : List (Ident × Ty))
    (defaults : List (Option Number)) (bound : List Bool) :
    Grows (checkMissing names callee pos params defaults bound) :=
  law.checkMissing names callee pos params defaults bound

theorem checkForm (frame? : Option Frame) (callee : Ident) (signature : Signature) (name : Ident)
    (i : Nat) (arg : Argument) : Grows (checkForm names frame? callee signature name i arg) :=
  law.checkForm names frame? callee signature name i arg

theorem checkNamed (frame? : Option Frame) (callee : Ident) (signature : Signature)
    (bound : List Bool) (name : Ident) (arg : Argument) :
    Grows (checkNamed names frame? callee signature bound name arg) :=
  law.checkNamed names frame? callee signature bound name arg

theorem signatureOf? {resolve : Resolver} (hresolve : resolve.Grows) (d : Declaration) :
    Grows (signatureOf? resolve d) := by
  intro s a s' hs h
  unfold Check.signatureOf? at h
  obtain ⟨s₀, s₁, hget, h₁⟩ := run_bind_ok h
  cases hget
  split at h₁
  · exact pure _ _ _ _ hs h₁
  · exact pure _ _ _ _ hs h₁
  · exact pure _ _ _ _ hs h₁
  · exact pure _ _ _ _ hs h₁
  · rename_i f hpending
    split at h₁
    · exact pure _ _ _ _ hs h₁
    · obtain ⟨signature, s₂, h₂, h₃⟩ := run_bind_ok h₁
      cases h₃
      exact hresolve _ f s signature s' hpending h₂

/-- The definition of a function in a block. -/
theorem closure {resolve : Resolver} (hresolve : resolve.Grows) (frame? : Option Frame) (f : FunctionDef)
    (pos : Position) : Grows (Check.entry names resolve frame? (.closure f pos)) := by
  intro s a s' hs h
  unfold Check.entry at h
  obtain ⟨s₀, s₁, hget, h₁⟩ := run_bind_ok h
  cases hget
  split at h₁
  · cases h₁
  · rename_i known hpending
    obtain ⟨⟨⟩, s₂, hdiscard, h₂⟩ := run_bind_ok h₁
    obtain ⟨signature, hresolved⟩ := discard_ok hdiscard
    have hgrows := hresolve f.key known s signature s₂ hpending hresolved
    exact hgrows.trans (setType _ _ _ _ _ (hgrows.framed hs) h₂)
  · exact setType _ _ _ _ _ hs h₁

/-- The check of expressions only lets the state grow, whatever functions are defined in them. -/
def exprLaw {resolve : Resolver} (hresolve : resolve.Grows) : ExprLaw names resolve fun _ => True where
  toLaw := law
  enterBlock := enterBlock
  signatureOf? := signatureOf? hresolve
  closure frame? f pos _ := closure names hresolve frame? f pos

variable {resolve : Resolver} (hresolve : resolve.Grows) (frame? : Option Frame)
include hresolve

theorem calleeSignature? (callee : Ident) (pos : Position) :
    Grows (calleeSignature? names resolve frame? callee pos) :=
  (exprLaw names hresolve).calleeSignature? frame? callee pos

theorem expr (e : Expr) : Grows (expr names resolve frame? e) :=
  (exprLaw names hresolve).expr frame? e (e.obeys_defining (fun _ => trivial) [])

theorem entries (items : List BlockEntry) : Grows (entries names resolve frame? items) :=
  (exprLaw names hresolve).entries frame? items (BlockEntry.allObey_defining (fun _ => trivial) [] items)

theorem entry (item : BlockEntry) : Grows (entry names resolve frame? item) :=
  (exprLaw names hresolve).entry frame? item (item.obeys_defining (fun _ => trivial) [])

theorem orderedArguments (callee : Ident) (i : Nat) (args : List Argument) :
    Grows (orderedArguments names resolve frame? callee i args) :=
  (exprLaw names hresolve).orderedArguments frame? callee i args
    (Argument.allObey_defining (fun _ => trivial) [] args)

theorem namedArguments (callee : Ident) (signature : Signature) (bound : List Bool) (args : List Argument) :
    Grows (namedArguments names resolve frame? callee signature bound args) :=
  (exprLaw names hresolve).namedArguments frame? callee signature bound args
    (Argument.allObey_defining (fun _ => trivial) [] args)

end

end Grows

variable {names : NameTable}

/-- What a check of the body of a function does, in parts. -/
theorem resolveWithin_ok {nesting : Nat} {key : FunctionKey} {f : FunctionDef} {s s' : State}
    {signature : Signature} (h : (resolveWithin names (nesting + 1) key f).run s = .ok (signature, s')) :
    ∃ ty mid,
      (expr names (resolveWithin names nesting) (some ⟨key, f.scope.length⟩) f.body).run
        { s with
          table := s.table.enterScope f.bodyScope
          typing := { s.typing with functions := s.typing.functions.setProgress key .active } } =
        .ok (ty, mid) ∧
      signature = { type := .ofNumbers (f.params.map Param.name) ty
                    defaults := f.params.map Param.default?
                    failed := !ty.isDeterminate } ∧
      mid.table.leave = .ok s'.table ∧
      s'.typing.functions = mid.typing.functions.setProgress key (.resolved signature) ∧
      s'.typing.types = mid.typing.types ∧ s'.poisoned = mid.poisoned ∧ mid.journal.GainsErrors s'.journal ∧
      (ty.isDeterminate = false → mid.journal.errorCount = s.journal.errorCount →
        mid.poisoned = s.poisoned → 0 < s'.journal.errorCount) ∧
      s'.typing.captures = mid.typing.captures ∧
      (s'.journal.issues = mid.journal.issues ∨
        s'.journal.issues = mid.journal.issues ++ [(TypeError.undetermined f.name).toIssue names (some f.pos)]) := by
  rw [resolveWithin] at h
  obtain ⟨before, s₁, hbefore, h₁⟩ := run_bind_ok h
  cases hbefore
  obtain ⟨⟨⟩, s₂, hactive, h₂⟩ := run_bind_ok h₁
  cases hactive
  obtain ⟨ty, s₃, hbody, h₃⟩ := run_bind_ok h₂
  obtain ⟨mid, table, hexpr, hleave, rfl⟩ := inScope_ok hbody
  obtain ⟨after, s₄, hafter, h₄⟩ := run_bind_ok h₃
  cases hafter
  refine ⟨ty, mid, hexpr, ?_⟩
  simp only at h₄
  split at h₄
  · obtain ⟨⟨⟩, s₅, hreport, h₅⟩ := run_bind_ok h₄
    cases hreport
    obtain ⟨⟨⟩, s₆, hresolved, h₆⟩ := run_bind_ok h₅
    cases hresolved
    obtain ⟨⟨⟩, s₇, hnote, h₇⟩ := run_bind_ok h₆
    cases hnote
    cases h₇
    refine ⟨rfl, hleave, rfl, rfl, rfl, ?_, fun _ _ _ => ?_, rfl, .inr ?_⟩
    · exact (Journal.GainsErrors.report _ rfl).trans (.note _ _ _ _)
    · rw [Journal.errorCount_note, Journal.errorCount_report_error _ rfl]
      exact Nat.succ_pos _
    · rw [Journal.issues_note, Journal.issues_report]
  · rename_i hdetermined
    obtain ⟨⟨⟩, s₆, hresolved, h₆⟩ := run_bind_ok h₄
    cases hresolved
    obtain ⟨⟨⟩, s₇, hnote, h₇⟩ := run_bind_ok h₆
    cases hnote
    cases h₇
    refine ⟨rfl, hleave, rfl, rfl, rfl, .note _ _ _ _, ?_, rfl, .inl (Journal.issues_note _ _ _ _)⟩
    intro hty herrors hpoisoned
    exact absurd ⟨by simp [hty], herrors, hpoisoned⟩ hdetermined

theorem bodyScope_ne_nil (f : FunctionDef) : f.bodyScope ≠ [] := by
  simp [FunctionDef.bodyScope]

/-- A step whose result has a property, where no function is known to return a function. -/
def Yields (x : Step α) (P : α → Prop) : Prop :=
  ∀ s a s', s.table.Framed → s.typing.functions.Plain → x.run s = .ok (a, s') → P a

/-- A resolver that never finds a function that returns a function. -/
def Resolver.Plain (resolve : Resolver) : Prop :=
  ∀ key f s signature s', s.typing.functions.lookup key = some ⟨some f, .pending⟩ →
    s.typing.functions.Plain → (resolve key f).run s = .ok (signature, s') →
    signature.type.returns.isFunction = false

namespace Yields

variable {P : α → Prop} {Q : β → Prop}

theorem pure {a : α} (h : P a) : Yields (pure a : Step α) P := by
  intro s a' s' _ _ hrun
  cases hrun
  exact h

theorem bind {x : Step α} {f : α → Step β} (hx : Grows x) (hP : Yields x P)
    (hf : ∀ a, P a → Yields (f a) Q) : Yields (x >>= f) Q := by
  intro s b s' hframed hplain h
  obtain ⟨a, mid, h₁, h₂⟩ := run_bind_ok h
  have hg := hx s a mid hframed h₁
  exact hf a (hP s a mid hframed hplain h₁) mid b s' (hg.framed hframed)
    (hg.functions.plain hplain) h₂

theorem after {x : Step α} {f : α → Step β} (hx : Grows x) (hf : ∀ a, Yields (f a) Q) :
    Yields (x >>= f) Q :=
  bind hx (P := fun _ => True) (fun _ _ _ _ _ _ => trivial) fun a _ => hf a

/-- A step that is done only in some cases, before another one. -/
theorem guarded {p : Prop} [Decidable p] {x : Step Unit} {y : Step α} (hx : Grows x) (hy : Yields y P) :
    Yields (if p then (do x; y) else y) P := by
  split
  · exact after hx fun _ => hy
  · exact hy

section

variable (names : NameTable)

theorem variableType (frame? : Option Frame) (name : Ident) (pos : Position) :
    Yields (variableType names frame? name pos) (·.isFunction = false) := by
  unfold Check.variableType
  refine after (Grows.lookup? _ _ _) fun d? => ?_
  split
  · exact after (Grows.reportAt _ _ _) fun _ => pure rfl
  · split
    · exact after Grows.poison fun _ => pure rfl
    · exact after (Grows.reportAt _ _ _) fun _ => pure rfl
    · rename_i ty hnot hty
      refine pure ?_
      cases ty with
      | function name => exact (hnot name rfl).elim
      | number | boolean | indeterminate => rfl

theorem binaryType (op : Operator) (pos : Position) (left right : Ty) (leftPos rightPos : Position) :
    Yields (binaryType names op pos left right leftPos rightPos) (·.isFunction = false) := by
  unfold Check.binaryType
  split
  · refine after (Grows.expect _ _ _ _ _) fun _ => after (Grows.expect _ _ _ _ _) fun _ => pure ?_
    split <;> rfl
  split
  · split
    · exact after (Grows.reportAt _ _ _) fun _ => pure rfl
    · exact pure rfl
  · exact after (Grows.expect _ _ _ _ _) fun _ => after (Grows.expect _ _ _ _ _) fun _ => pure rfl

/-- Whether a signature, if there is one, is that of a function that returns no function. -/
def PlainSignature (signature? : Option Signature) : Prop :=
  ∀ signature, signature? = some signature → signature.type.returns.isFunction = false

theorem calleeSignature? {resolve : Resolver} (hresolve : resolve.Plain) (frame? : Option Frame)
    (callee : Ident) (pos : Position) :
    Yields (calleeSignature? names resolve frame? callee pos) PlainSignature := by
  unfold Check.calleeSignature?
  refine after (Grows.lookup? _ _ _) fun d? => ?_
  split
  · exact after (Grows.reportAt _ _ _) fun _ => pure nofun
  split
  · intro s signature? s' _ hplain h
    unfold Check.signatureOf? at h
    obtain ⟨s₀, s₁, hget, h₁⟩ := run_bind_ok h
    cases hget
    split at h₁
    · cases h₁
      nofun
    · rename_i hlookup
      cases h₁
      rintro _ ⟨⟩
      exact hplain _ _ _ hlookup
    · cases h₁
      nofun
    · cases h₁
      rintro _ ⟨⟩
      rfl
    · rename_i f hpending
      split at h₁
      · cases h₁
        rintro _ ⟨⟩
        rfl
      · obtain ⟨signature, s₂, h₂, h₃⟩ := run_bind_ok h₁
        cases h₃
        rintro _ ⟨⟩
        exact hresolve _ f s _ _ hpending hplain h₂
  · exact after (Grows.reportAt _ _ _) fun _ => pure nofun

theorem expr {resolve : Resolver} (hgrows : resolve.Grows) (hplain : resolve.Plain)
    (frame? : Option Frame) (e : Expr) : Yields (expr names resolve frame? e) (·.isFunction = false) := by
  have htype (pos : Position) {ty : Ty} (hty : ty.isFunction = false) :
      Yields (do Check.setType pos ty; Pure.pure ty) (·.isFunction = false) :=
    after (Grows.setType _ _) fun _ => pure hty
  cases e with
  | span compiled tree =>
    rw [Check.expr]
    exact expr hgrows hplain frame? tree
  | number value pos | boolean value pos =>
    rw [Check.expr]
    exact htype _ rfl
  | var name pos =>
    rw [Check.expr]
    exact bind (Grows.variableType _ _ _ _) (variableType names _ _ _) fun _ hty => htype _ hty
  | prefixed op operand pos =>
    rw [Check.expr]
    refine after (Grows.expr names hgrows frame? operand) fun _ =>
      after (Grows.expect _ _ _ _ _) fun _ => htype _ ?_
    split <;> rfl
  | binary op left right pos =>
    rw [Check.expr]
    exact after (Grows.expr names hgrows frame? left) fun _ =>
      after (Grows.expr names hgrows frame? right) fun _ =>
        bind (Grows.binaryType _ _ _ _ _ _ _) (binaryType names _ _ _ _ _ _) fun _ hty => htype _ hty
  | block key items pos =>
    rw [Check.expr]
    exact after (Grows.enterBlock key (Grows.entries names hgrows frame? items)) fun _ => htype _ rfl
  | conditional condition thenBranch elseBranch pos =>
    rw [Check.expr]
    refine after (Grows.expr names hgrows frame? condition) fun _ =>
      after (Grows.expect _ _ _ _ _) fun _ =>
        bind (Grows.expr names hgrows frame? thenBranch) (expr hgrows hplain frame? thenBranch)
          fun thenType hthen =>
            bind (Grows.expr names hgrows frame? elseBranch) (expr hgrows hplain frame? elseBranch)
              fun elseType helse => ?_
    have hty : (if thenType.isDeterminate then thenType else elseType).isFunction = false := by
      split
      · exact hthen
      · exact helse
    exact guarded (Grows.reportAt _ _ _) (htype _ hty)
  | call site args =>
    rw [expr_call_eq]
    refine bind (Grows.calleeSignature? names hgrows frame? _ _) (calleeSignature? names hplain _ _ _)
      fun signature? hsignature => ?_
    cases signature? with
    | none => exact htype _ rfl
    | some signature =>
      have hgiven := Grows.law.checkGiven names site args.length
        (Grows.orderedArguments names hgrows frame? site.callee 0 args)
        (fun signature bound => Grows.namedArguments names hgrows frame? site.callee signature bound args) signature
      exact guarded Grows.poison (after hgiven fun _ => after (Grows.checkMissing names _ _ _ _ _) fun _ =>
        htype _ (hsignature signature rfl))

end

end Yields

/-- What the check of a body leaves when its own calls are checked by a good resolver. -/
theorem resolveWithin_succ {nesting : Nat} (hgrows : (resolveWithin names nesting).Grows)
    (hplain : (resolveWithin names nesting).Plain) {key : FunctionKey} {f : FunctionDef} {s s' : State}
    {signature : Signature} (hpending : s.typing.functions.lookup key = some ⟨some f, .pending⟩)
    (h : (resolveWithin names (nesting + 1) key f).run s = .ok (signature, s')) :
    s.Grows s' ∧ (s.typing.functions.Plain → signature.type.returns.isFunction = false) := by
  obtain ⟨ty, mid, hexpr, rfl, hleave, hfunctions, _, hpoisoned, hjournal, _⟩ := resolveWithin_ok h
  have hframed := SymbolTable.framed_enterScope s.table (bodyScope_ne_nil f)
  have hinner := Grows.expr names hgrows _ f.body _ _ _ hframed hexpr
  have hty (hs : s.typing.functions.Plain) : ty.isFunction = false :=
    Yields.expr names hgrows hplain _ f.body _ _ _ hframed (hs.setProgress key (by rintro _ ⟨⟩)) hexpr
  rw [hinner.table, SymbolTable.leave_enterScope] at hleave
  refine ⟨⟨(Except.ok.inj hleave).symm, hinner.journal.trans hjournal, ?_, ?_⟩, hty⟩
  · rw [hpoisoned]
    exact hinner.poisoned
  rw [hfunctions]
  constructor
  · rw [FunctionTable.length_setProgress, hinner.functions.length, FunctionTable.length_setProgress]
  · intro hs
    refine (hinner.functions.plain (hs.setProgress key (by rintro _ ⟨⟩))).setProgress key ?_
    rintro _ ⟨⟩
    exact hty hs
  · intro key' hnone
    rw [FunctionTable.lookup_setProgress]
    have hmid : mid.typing.functions.lookup key' = none := by
      refine hinner.functions.absent key' ?_
      rw [FunctionTable.lookup_setProgress, hnone]
      split <;> rfl
    rw [hmid]
    split <;> rfl
  · intro key' info hinfo
    rw [FunctionTable.lookup_setProgress]
    by_cases hkey : key = key'
    · subst hkey
      rw [hpending] at hinfo
      cases hinfo
      have hactive : mid.typing.functions.lookup key = some ⟨some f, .active⟩ :=
        hinner.functions.active (FunctionTable.lookup_setProgress_self hpending .active)
      rw [if_pos rfl, hactive]
      refine ⟨_, rfl, rfl, .inr ⟨rfl, _, rfl, fun g hg => ?_⟩⟩
      cases hg
      exact Signature.parameters_provisional f
    · rw [if_neg hkey]
      refine hinner.functions.present key' info ?_
      rw [FunctionTable.lookup_setProgress, if_neg hkey, hinfo]

theorem resolveWithin_good (nesting : Nat) :
    (resolveWithin names nesting).Grows ∧ (resolveWithin names nesting).Plain := by
  induction nesting with
  | zero =>
    constructor
    · intro key f s signature s' _ h
      cases h
      exact .refl s
    · intro key f s signature s' _ _ h
      cases h
      rfl
  | succ nesting ih =>
    constructor
    · intro key f s signature s' hpending h
      exact (resolveWithin_succ ih.1 ih.2 hpending h).1
    · intro key f s signature s' hpending hs h
      exact (resolveWithin_succ ih.1 ih.2 hpending h).2 hs

theorem resolveWithin_grows (nesting : Nat) : (resolveWithin names nesting).Grows :=
  (resolveWithin_good nesting).1

theorem resolve_good : (resolve names).Grows ∧ (resolve names).Plain := by
  constructor
  · intro key f s signature s' hpending h
    unfold resolve at h
    obtain ⟨s₀, s₁, hget, h₁⟩ := run_bind_ok h
    cases hget
    exact (resolveWithin_good _).1 key f s signature s' hpending h₁
  · intro key f s signature s' hpending hs h
    unfold resolve at h
    obtain ⟨s₀, s₁, hget, h₁⟩ := run_bind_ok h
    cases hget
    exact (resolveWithin_good _).2 key f s signature s' hpending hs h₁

theorem resolve_grows : (resolve names).Grows :=
  resolve_good.1

end Check
end ToneScript
