import ToneScript.Proofs.Reference.Parsed
import ToneScript.Proofs.Typing.Totality

/-! The names that are looked up while a program is checked. They have all been looked up before, when the source
was read, and the same declarations are found. -/
namespace ToneScript

/-- Whether two lookups of the same name, at the same position and in the same blocks, have found the same
declaration. -/
def Lookup.Alike (u v : Lookup) : Prop :=
  u.scope = v.scope ∧ u.name = v.name ∧ u.pos = v.pos ∧
    ∃ d d', u.found? = some d ∧ v.found? = some d' ∧ d.block = d'.block ∧ d.name = d'.name

/-- Whether an error is that a name is not defined where it is used. -/
def TypeError.isUndefined : TypeError → Bool
  | undefinedVariable _ | undefinedFunction _ => true
  | _ => false

namespace Check

variable {α β : Type}

/-- The lookups of what comes after a step, if the step goes well. -/
def following (x : Step α) (rest : α → State → List Lookup) (s : State) : List Lookup :=
  match x.run s with
  | .ok (a, s') => rest a s'
  | .error _ => []

/-- The lookups of a resolver. -/
abbrev Watch := FunctionKey → FunctionDef → State → List Lookup

section Lookups

variable (names : NameTable) (resolve : Resolver) (watch : Watch) (frame? : Option Frame)

/-- The lookups in the body of a function whose signature is not known yet. -/
def signatureLookups (d : Declaration) (s : State) : List Lookup :=
  match s.typing.functions.lookup (d.block, d.name) with
  | some ⟨some f, .pending⟩ => if s.table.isActive f.argsKey then [] else watch (d.block, d.name) f s
  | _ => []

/-- The lookup of the function that a call refers to, and those in its body. -/
def calleeLookups (callee : Ident) (pos : Position) (s : State) : List Lookup :=
  s.table.nameLookup callee pos :: following (lookup? frame? callee pos) (fun d? s =>
    match d? with
    | some d => if d.isFunction then signatureLookups watch d s else []
    | none => []) s

/-- The lookup of a name alone that stands for a parameter of a signature. -/
def shorthandLookups (signature : Signature) (name : Ident) : Argument → State → List Lookup
  | .shorthand _ pos, s => if (signature.indexOf? name).isSome then [s.table.nameLookup name pos] else []
  | .assign .., _ | .opAssign .., _ | .positional .., _ => []

mutual

/-- The lookups in an expression. -/
def exprLookups : Expr → State → List Lookup
  | .span _ tree => exprLookups tree
  | .number .. | .boolean .. => fun _ => []
  | .var name pos => fun s => [s.table.nameLookup name pos]
  | .prefixed _ operand _ => exprLookups operand
  | .binary _ left right _ => fun s =>
    exprLookups left s ++ following (expr names resolve frame? left) (fun _ => exprLookups right) s
  | .block key items _ => fun s => entriesLookups items { s with table := s.table.enterBlock key }
  | .conditional condition thenBranch elseBranch _ => fun s =>
    exprLookups condition s ++ following (expr names resolve frame? condition) (fun ty =>
      following (expect names .condition .boolean ty condition.pos) fun _ s =>
        exprLookups thenBranch s ++ following (expr names resolve frame? thenBranch)
          (fun _ => exprLookups elseBranch) s) s
  | .call site args => fun s =>
    calleeLookups watch frame? site.callee site.pos s ++
      following (calleeSignature? names resolve frame? site.callee site.pos) (fun signature? =>
        match signature? with
        | none => fun _ => []
        | some signature => following (if signature.failed then poison else pure ()) fun _ =>
          match site.style with
          | .ordered => following (if signature.arity < args.length then
              reportAt names (some site.pos) (.tooManyArguments site.callee signature.arity args.length)
            else pure ()) fun _ => orderedLookups site.callee 0 args
          | .named => namedLookups site.callee signature (signature.type.args.map fun _ => false) args) s

/-- The lookups in the entries of a block. -/
def entriesLookups : List BlockEntry → State → List Lookup
  | [] => fun _ => []
  | item :: items => fun s =>
    entryLookups item s ++ following (entry names resolve frame? item) (fun _ => entriesLookups items) s

/-- The lookups in an entry of a block. -/
def entryLookups : BlockEntry → State → List Lookup
  | .closure f _ => fun s =>
    match s.typing.functions.lookup f.key with
    | some ⟨some known, .pending⟩ => watch f.key known s
    | _ => []
  | .operator op value guard? pos =>
    following (if !op.isArithmetic then reportAt names (some pos) (.cannotAccumulate op) else pure ())
      fun _ s => exprLookups value s ++ following (expr names resolve frame? value) (fun ty =>
        following (expect names .blockEntry .number ty value.pos) fun _ =>
          match guard? with
          | none => fun _ => []
          | some guard => exprLookups guard) s

/-- The lookups in arguments given in order. -/
def orderedLookups (callee : Ident) (i : Nat) : List Argument → State → List Lookup
  | [] => fun _ => []
  | arg :: args =>
    match arg with
    | .assign _ value _ | .opAssign _ _ value _ | .positional value _ => fun s =>
      exprLookups value s ++ following (expr names resolve frame? value) (fun ty =>
        following (expect names (.argument (i + 1) callee) .number ty value.pos) fun _ =>
          orderedLookups callee (i + 1) args) s
    | .shorthand .. => orderedLookups callee (i + 1) args

/-- The lookups in arguments given by name. -/
def namedLookups (callee : Ident) (signature : Signature) (bound : List Bool) :
    List Argument → State → List Lookup
  | [] => fun _ => []
  | arg :: args =>
    match arg with
    | .assign name value _ | .opAssign name _ value _ => fun s =>
      exprLookups value s ++ following (expr names resolve frame? value) (fun ty =>
        following (expect names (.namedArgument name callee) .number ty value.pos) fun _ =>
          following (checkNamed names frame? callee signature bound name arg) fun bound =>
            namedLookups callee signature bound args) s
    | .shorthand name _ => fun s => shorthandLookups signature name arg s ++
        following (checkNamed names frame? callee signature bound name arg)
          (fun bound => namedLookups callee signature bound args) s
    | .positional .. => namedLookups callee signature bound args

end

end Lookups

section Program

variable (names : NameTable)

/-- The lookups in the body of a function. -/
def bodyLookups : (nesting : Nat) → Watch
  | 0, _, _, _ => []
  | nesting + 1, key, f, s =>
    exprLookups names (resolveWithin names nesting) (bodyLookups nesting) (some ⟨key, f.scope.length⟩) f.body
      { s with
        table := s.table.enterScope f.bodyScope
        typing := { s.typing with functions := s.typing.functions.setProgress key .active } }

/-- The lookups in a function of the program whose signature is looked for. -/
def functionLookups : Watch :=
  fun key f s => bodyLookups names s.typing.functions.length key f s

/-- The lookups in a function, unless its signature is known. -/
def keyLookups (key : FunctionKey) (s : State) : List Lookup :=
  match s.typing.functions.lookup key with
  | some ⟨some f, .pending⟩ => functionLookups names key f s
  | _ => []

/-- The lookups in an item. -/
def itemLookups : Item → State → List Lookup
  | .function f _ => keyLookups names f.key
  | .assignment _ value _ => exprLookups names (resolve names) (functionLookups names) none value

/-- The lookups in items. -/
def itemsLookups : List Item → State → List Lookup
  | [], _ => []
  | i :: is, s => itemLookups names i s ++ following (item names i) (fun _ => itemsLookups is) s

/-- The lookups in functions whose signatures are not known yet. -/
def keysLookups : List FunctionKey → State → List Lookup
  | [], _ => []
  | key :: keys, s => keyLookups names key s ++ following (resolveOnce names key) (fun _ => keysLookups keys) s

/-- The lookups in a program. -/
def programLookups (p : Program) : State → List Lookup :=
  following (modifyTyping fun t => (p.flatMap Item.definitions).foldl Typing.addDefinition t) fun _ s =>
    itemsLookups names p s ++ following (items names p) (fun _ s =>
      keysLookups names (s.typing.functions.map Prod.fst) s) s

/-- The lookups in the body of the function that runs the program. -/
def entryPointLookups (name : Ident) (s : State) : List Lookup :=
  match s.table.find? rootBlock name with
  | some d => if d.builtin ∨ !d.isFunction then [] else signatureLookups (functionLookups names) d s
  | none => []

end Program

/-- The issues of a check are those from before it and such that do not say that a name is not defined. -/
def State.Reports (names : NameTable) (s s' : State) : Prop :=
  ∀ i ∈ s'.journal.issues, i ∈ s.journal.issues ∨
    ∃ e pos?, TypeError.isUndefined e = false ∧ i = e.toIssue names pos?

theorem State.Reports.refl (names : NameTable) (s : State) : s.Reports names s :=
  fun _ => .inl

theorem State.Reports.trans {names : NameTable} {s s' s'' : State} (h : s.Reports names s')
    (h' : s'.Reports names s'') : s.Reports names s'' :=
  fun i hi => (h' i hi).elim (h i) .inr

/-- A state in which the collected functions are checked, with a table that has come after a given one. -/
structure State.Collected (T : SymbolTable) (known : List FunctionDef) (s : State) : Prop extends s.Gathers known where
  later : T.Later UInt64.size s.table

theorem State.Collected.evolve {T : SymbolTable} {known : List FunctionDef} {s s' : State}
    (h : s.Collected T known) (he : s.Evolves s') : s'.Collected T known where
  toGathers := h.toGathers.of_functions (he.framed h.framed) he.functions
  later := h.later.trans (he.table _)

theorem State.Collected.grow {T : SymbolTable} {known : List FunctionDef} {s s' : State}
    (h : s.Collected T known) (hg : s.Grows s') : s'.Collected T known :=
  h.evolve hg.evolves

section Works

variable (names : NameTable) (T : SymbolTable) (lookups : List Lookup) (known : List FunctionDef)

/-- Whether lookups have been made before, and have found the same then. -/
def Repeated (us : List Lookup) : Prop :=
  ∀ u ∈ us, ∃ v ∈ lookups, u.Alike v

/-- A step with its lookups that goes well in a chain of blocks: it reports nothing undefined, and its lookups
are repeated ones. -/
def Works (scope : List BlockKey) (looked : State → List Lookup) (x : Step α) (Q : α → Prop) : Prop :=
  ∀ s, s.Collected T known → s.table.frame = scope → Repeated lookups (looked s) ∧
    ∃ a s', x.run s = .ok (a, s') ∧ s.Grows s' ∧ s.Reports names s' ∧ Q a

/-- A resolver that goes well for the collected functions. -/
def Resolver.Works (resolve : Resolver) (watch : Watch) : Prop :=
  ∀ key f s, s.Collected T known → s.typing.functions.lookup key = some ⟨some f, .pending⟩ →
    Repeated lookups (watch key f s) ∧
      ∃ signature s', (resolve key f).run s = .ok (signature, s') ∧ s.Grows s' ∧ s.Reports names s'

end Works

theorem following_eq {x : Step α} {s s' : State} {a : α} (h : x.run s = .ok (a, s'))
    (rest : α → State → List Lookup) : following x rest s = rest a s' := by
  rw [following, h]

variable {names : NameTable} {T : SymbolTable} {lookups : List Lookup} {known : List FunctionDef}
  {scope : List BlockKey}

namespace Works

variable {P : α → Prop} {Q : β → Prop}

theorem pure {a : α} (h : P a) : Works names T lookups known scope (fun _ => []) (pure a) P :=
  fun s _ _ => ⟨nofun, a, s, rfl, .refl s, .refl names s, h⟩

theorem bind {looked : State → List Lookup} {rest : α → State → List Lookup} {x : Step α} {f : α → Step β}
    (hx : Works names T lookups known scope looked x P)
    (hf : ∀ a, P a → Works names T lookups known scope (rest a) (f a) Q) :
    Works names T lookups known scope (fun s => looked s ++ following x rest s) (x >>= f) Q := by
  intro s hs hframe
  obtain ⟨hlooked, a, s', hrun, hg, hreports, ha⟩ := hx s hs hframe
  obtain ⟨hrest, b, s'', hrun', hg', hreports', hb⟩ := hf a ha s' (hs.grow hg) (hg.table ▸ hframe)
  refine ⟨?_, b, s'', (run_bind_eq hrun).trans hrun', hg.trans hg', hreports.trans hreports', hb⟩
  show Repeated lookups (looked s ++ following x rest s)
  rw [following_eq hrun]
  exact List.forall_mem_append.2 ⟨hlooked, hrest⟩

/-- A step before which nothing is looked up. -/
theorem after {rest : α → State → List Lookup} {x : Step α} {f : α → Step β}
    (hx : Works names T lookups known scope (fun _ => []) x P)
    (hf : ∀ a, P a → Works names T lookups known scope (rest a) (f a) Q) :
    Works names T lookups known scope (following x rest) (x >>= f) Q :=
  bind hx hf

/-- A step after which nothing is looked up. -/
theorem last {looked : State → List Lookup} {x : Step α} {f : α → Step β}
    (hx : Works names T lookups known scope looked x P)
    (hf : ∀ a, P a → Works names T lookups known scope (fun _ => []) (f a) Q) :
    Works names T lookups known scope looked (x >>= f) Q := by
  intro s hs hframe
  obtain ⟨hlooked, hrun⟩ := bind hx hf s hs hframe
  exact ⟨(List.forall_mem_append.1 hlooked).1, hrun⟩

theorem mono {looked : State → List Lookup} {x : Step α} {P' : α → Prop}
    (h : Works names T lookups known scope looked x P) (hP : ∀ a, P a → P' a) :
    Works names T lookups known scope looked x P' := by
  intro s hs hframe
  obtain ⟨hlooked, a, s', hrun, hg, hreports, ha⟩ := h s hs hframe
  exact ⟨hlooked, a, s', hrun, hg, hreports, hP a ha⟩

/-- A step that reports nothing. -/
theorem silent {x : Step Unit} (hgrows : Grows x)
    (hrun : ∀ s, ∃ s', x.run s = .ok ((), s') ∧ s'.journal.issues = s.journal.issues) :
    Works names T lookups known scope (fun _ => []) x fun _ => True := by
  intro s hs _
  obtain ⟨s', hrun, hissues⟩ := hrun s
  exact ⟨nofun, (), s', hrun, hgrows s _ s' hs.framed hrun, fun i hi => .inl (hissues ▸ hi), trivial⟩

theorem setType (pos : Position) (ty : Ty) :
    Works names T lookups known scope (fun _ => []) (setType pos ty) fun _ => True :=
  silent (Grows.setType pos ty) fun _ => ⟨_, rfl, rfl⟩

theorem poison : Works names T lookups known scope (fun _ => []) poison fun _ => True :=
  silent Grows.poison fun _ => ⟨_, rfl, rfl⟩

theorem reportAt (pos? : Option Position) {e : TypeError} (he : e.isUndefined = false) :
    Works names T lookups known scope (fun _ => []) (reportAt names pos? e) fun _ => True := by
  intro s hs _
  refine ⟨nofun, (), _, rfl, Grows.reportAt names pos? e s _ _ hs.framed rfl, fun i hi => ?_, trivial⟩
  rw [Journal.issues_report, List.mem_append, List.mem_singleton] at hi
  exact hi.imp_right fun hi => ⟨e, pos?, he, hi⟩

/-- A step that is done only in some cases, before another one. -/
theorem guarded {p : Prop} [Decidable p] {looked : State → List Lookup} {x : Step Unit} {y : Step β}
    (hx : Works names T lookups known scope (fun _ => []) x fun _ => True)
    (hy : Works names T lookups known scope looked y Q) :
    Works names T lookups known scope (following (if p then x else Pure.pure ()) fun _ => looked)
      (if p then (do x; y) else y) Q := by
  split
  · exact after hx fun _ _ => hy
  · exact hy

/-- A step before which an error may be reported. -/
theorem reported {p : Prop} [Decidable p] (pos? : Option Position) {e : TypeError}
    (he : e.isUndefined = false) {y : Step β}
    (hy : Works names T lookups known scope (fun _ => []) y Q) :
    Works names T lookups known scope (fun _ => []) (if p then (do Check.reportAt names pos? e; y) else y) Q := by
  split
  · exact last (reportAt pos? he) fun _ _ => hy
  · exact hy

/-- A step that looks up names in a table that does not change before which an error may be reported. -/
theorem warned {p : Prop} [Decidable p] {looked : State → List Lookup}
    (htable : ∀ s s', s'.table = s.table → looked s' = looked s) (pos? : Option Position) {e : TypeError}
    (he : e.isUndefined = false) {y : Step β} (hy : Works names T lookups known scope looked y Q) :
    Works names T lookups known scope looked (if p then (do Check.reportAt names pos? e; y) else y) Q := by
  split
  · intro s hs hframe
    obtain ⟨hlooked, hrun⟩ := after (reportAt pos? he) (fun _ _ => hy) s hs hframe
    let reported : State := { s with journal := s.journal.report (e.toIssue names pos?) }
    have hsame : looked reported = looked s := htable s reported rfl
    rw [following_eq (show (Check.reportAt names pos? e).run s = .ok ((), reported) from rfl), hsame] at hlooked
    exact ⟨hlooked, hrun⟩
  · exact hy

theorem expect (role : Role) (expected actual : Ty) (pos : Position) :
    Works names T lookups known scope (fun _ => []) (expect names role expected actual pos) fun _ => True := by
  unfold Check.expect
  split
  · exact reportAt _ rfl
  · exact pure trivial

theorem typed (pos : Position) (ty : Ty) :
    Works names T lookups known scope (fun _ => []) (do Check.setType pos ty; return ty : Step Ty)
      fun _ => True :=
  last (setType pos ty) fun _ _ => pure trivial

theorem binaryType (op : Operator) (pos : Position) (left right : Ty) (leftPos rightPos : Position) :
    Works names T lookups known scope (fun _ => []) (binaryType names op pos left right leftPos rightPos)
      fun _ => True := by
  unfold Check.binaryType
  split
  · exact last (expect _ _ _ _) fun _ _ => last (expect _ _ _ _) fun _ _ => pure trivial
  split
  · split
    · exact last (reportAt _ rfl) fun _ _ => pure trivial
    · exact pure trivial
  · exact last (expect _ _ _ _) fun _ _ => last (expect _ _ _ _) fun _ _ => pure trivial

theorem checkMissing (callee : Ident) (pos : Position) (params : List (Ident × Ty))
    (defaults : List (Option Number)) (bound : List Bool) :
    Works names T lookups known scope (fun _ => []) (checkMissing names callee pos params defaults bound)
      fun _ => True := by
  induction params generalizing defaults bound with
  | nil => exact pure trivial
  | cons param params ih =>
    cases defaults with
    | nil => exact pure trivial
    | cons default? defaults =>
      cases bound with
      | nil => exact pure trivial
      | cons b bounds =>
        unfold Check.checkMissing
        simp only
        split
        · exact last (reportAt _ rfl) fun _ _ => ih defaults bounds
        · exact ih defaults bounds

/-- A step in a block that is entered before it and left after it. -/
theorem enterBlock {looked : State → List Lookup} {x : Step α} {key : BlockKey}
    (hx : Works names T lookups known (key :: scope) looked x P) :
    Works names T lookups known scope (fun s => looked { s with table := s.table.enterBlock key })
      (inScope (·.enterBlock key) x) P := by
  intro s hs hframe
  have hs' : State.Collected T known { s with table := s.table.enterBlock key } :=
    ⟨hs.toGathers.enterBlock key, ⟨hs.later.kept, hs.later.added⟩⟩
  obtain ⟨hlooked, a, mid, hrun, hg, hreports, ha⟩ := hx _ hs'
    ((SymbolTable.frame_enterBlock hs.framed key).trans (congrArg (key :: ·) hframe))
  have hleave : mid.table.leave = .ok s.table := by
    rw [hg.table]
    exact SymbolTable.leave_enterBlock_self hs.framed key
  exact ⟨hlooked, a, _, inScope_run _ hrun hleave, ⟨rfl, hg.journal, hg.poisoned, hg.functions⟩, hreports, ha⟩

section Arguments

variable (site : CallSite) (count : Nat) {ordered : Step Unit} {named : Signature → List Bool → Step (List Bool)}
  {looked : State → List Lookup} {namedLookups : Signature → List Bool → State → List Lookup}
  (hordered : Works names T lookups known scope looked ordered fun _ => True)
  (hnamed : ∀ signature bound,
    Works names T lookups known scope (namedLookups signature bound) (named signature bound) fun _ => True)
include hordered hnamed

theorem checkGiven (signature : Signature) :
    Works names T lookups known scope
      (match site.style with
        | .ordered => following (if signature.arity < count then
            Check.reportAt names (some site.pos) (.tooManyArguments site.callee signature.arity count)
          else Pure.pure ()) fun _ => looked
        | .named => namedLookups signature (signature.type.args.map fun _ => false))
      (checkGiven names site count ordered named signature) fun _ => True := by
  unfold Check.checkGiven
  cases site.style with
  | ordered => exact guarded (reportAt _ rfl) (last hordered fun _ _ => pure trivial)
  | named => exact hnamed _ _

/-- The check of a call once its function is known. -/
theorem checkCall (signature? : Option Signature) :
    Works names T lookups known scope
      (match signature? with
        | none => fun _ => []
        | some signature => following (if signature.failed then Check.poison else Pure.pure ()) fun _ =>
          match site.style with
          | .ordered => following (if signature.arity < count then
              Check.reportAt names (some site.pos) (.tooManyArguments site.callee signature.arity count)
            else Pure.pure ()) fun _ => looked
          | .named => namedLookups signature (signature.type.args.map fun _ => false))
      (checkCall names site count ordered named signature?) fun _ => True := by
  cases signature? with
  | none => exact typed _ _
  | some signature =>
    exact guarded poison (last (checkGiven site count hordered hnamed signature) fun bound _ =>
      last (checkMissing _ _ _ _ bound) fun _ _ => typed _ _)

end Arguments

section Names

variable (hsettled : ∀ v ∈ lookups, v.SettledIn T)
include hsettled

/-- A name that was looked up is found again. -/
theorem lookup? (frame? : Option Frame) {name : Ident} {pos : Position}
    (h : ∃ found?, ⟨scope, name, pos, found?⟩ ∈ lookups) :
    Works names T lookups known scope (fun s => [s.table.nameLookup name pos]) (lookup? frame? name pos)
      fun d? => d? ≠ none := by
  intro s hs hframe
  obtain ⟨found?, hmem⟩ := h
  obtain ⟨d₀, d₁, crossed, hfound, hT, hblock, hname⟩ := hsettled _ hmem
  rcases hs.later.resolve_eq scope name pos.index.toNat_lt with ⟨hnone, _⟩ | ⟨d, d', n, hd, hd', hbecomes⟩
  · rw [hnone] at hT
    cases hT
  rw [hd] at hT
  cases hT
  rw [← SymbolTable.lookupBefore?_eq_resolve hframe] at hd'
  constructor
  · refine List.forall_mem_singleton.2 ⟨_, hmem, hframe, rfl, rfl, d', d₀, ?_, hfound, ?_, ?_⟩
    · rw [SymbolTable.nameLookup, hd', Option.map_some]
    · rw [hbecomes.block_eq, hblock]
    · rw [hbecomes.name_eq, hname]
  · have hrun : ∃ s', (Check.lookup? frame? name pos).run s = .ok (some d', s') ∧
        s'.journal.issues = s.journal.issues := by
      unfold Check.lookup?
      rw [run_bind_eq (show (get : Step State).run s = .ok (s, s) from rfl)]
      simp only [hd']
      split
      · split
        · exact ⟨_, rfl, rfl⟩
        · exact ⟨_, rfl, rfl⟩
      · exact ⟨_, rfl, rfl⟩
    obtain ⟨s', hrun, hissues⟩ := hrun
    exact ⟨_, s', hrun, Grows.lookup? frame? name pos s _ s' hs.framed hrun, fun i hi => .inl (hissues ▸ hi),
      Option.some_ne_none d'⟩

theorem variableType (frame? : Option Frame) {name : Ident} {pos : Position}
    (h : ∃ found?, ⟨scope, name, pos, found?⟩ ∈ lookups) :
    Works names T lookups known scope (fun s => [s.table.nameLookup name pos])
      (variableType names frame? name pos) fun _ => True := by
  refine last (lookup? hsettled frame? h) fun d? hd => ?_
  cases d? with
  | none => exact absurd rfl hd
  | some d =>
    simp only
    split
    · exact last poison fun _ _ => pure trivial
    · exact last (reportAt _ rfl) fun _ _ => pure trivial
    · exact pure trivial

theorem checkForm (frame? : Option Frame) (callee : Ident) (signature : Signature) (name : Ident) (i : Nat)
    (arg : Argument) (h : ∀ other pos, arg = .shorthand other pos →
      other = name ∧ ∃ found?, ⟨scope, name, pos, found?⟩ ∈ lookups) (hi : signature.indexOf? name = some i) :
    Works names T lookups known scope (shorthandLookups signature name arg)
      (checkForm names frame? callee signature name i arg) fun _ => True := by
  cases arg with
  | shorthand other pos =>
    obtain ⟨rfl, hmem⟩ := h other pos rfl
    have hlooked : shorthandLookups signature other (.shorthand other pos) =
        fun s => [s.table.nameLookup other pos] := by
      funext s
      rw [shorthandLookups, hi]
      rfl
    rw [hlooked]
    refine last (lookup? hsettled frame? hmem) fun d? hd => ?_
    cases d? with
    | none => exact absurd rfl hd
    | some d =>
      simp only
      split
      · exact expect _ _ _ _
      · exact pure trivial
  | opAssign _ op _ pos =>
    refine reported _ rfl ?_
    split
    · exact reportAt _ rfl
    · exact pure trivial
  | assign | positional => exact pure trivial

theorem checkNamed (frame? : Option Frame) (callee : Ident) (signature : Signature) (bound : List Bool)
    (name : Ident) (arg : Argument) (h : ∀ other pos, arg = .shorthand other pos →
      other = name ∧ ∃ found?, ⟨scope, name, pos, found?⟩ ∈ lookups) :
    Works names T lookups known scope (shorthandLookups signature name arg)
      (checkNamed names frame? callee signature bound name arg) fun _ => True := by
  have htable (s s' : State) (hs : s'.table = s.table) :
      shorthandLookups signature name arg s' = shorthandLookups signature name arg s := by
    cases arg <;> simp [shorthandLookups, hs]
  unfold Check.checkNamed
  cases hi : signature.indexOf? name with
  | none =>
    have hlooked : shorthandLookups signature name arg = fun _ => [] := by
      funext s
      cases arg <;> simp [shorthandLookups, hi]
    rw [hlooked]
    exact last (reportAt _ rfl) fun _ _ => pure trivial
  | some i =>
    exact warned htable _ rfl (last (checkForm hsettled frame? callee signature name i arg h hi)
      fun _ _ => pure trivial)

/-- An argument that gives a value looks up no name of its own. -/
theorem checkAssigned (frame? : Option Frame) (callee : Ident) (signature : Signature) (bound : List Bool)
    (name : Ident) {arg : Argument} (h : ∀ other pos, arg ≠ .shorthand other pos) :
    Works names T lookups known scope (fun _ => [])
      (Check.checkNamed names frame? callee signature bound name arg) fun _ => True := by
  have hlooked : shorthandLookups signature name arg = fun _ => [] := by
    cases arg with
    | shorthand other pos => exact absurd rfl (h other pos)
    | assign | opAssign | positional => rfl
  rw [← hlooked]
  exact checkNamed hsettled frame? callee signature bound name arg fun other pos heq =>
    absurd heq (h other pos)

section Functions

variable {resolve : Resolver} {watch : Watch} (hresolve : resolve.Works names T lookups known watch)
include hresolve

omit hsettled in
theorem signatureOf? (d : Declaration) :
    Works names T lookups known scope (signatureLookups watch d) (signatureOf? resolve d) fun _ => True := by
  intro s hs _
  have hget (f : State → Step (Option Signature)) : ((get : Step State) >>= f).run s = (f s).run s :=
    run_bind_eq rfl
  unfold Check.signatureOf? signatureLookups
  simp only [hget]
  rcases hlookup : s.typing.functions.lookup (d.block, d.name) with _ | ⟨_ | f, _ | _ | signature⟩
  case some.some.pending =>
    simp only
    split
    · exact ⟨nofun, _, s, rfl, .refl s, .refl names s, trivial⟩
    · obtain ⟨hlooked, signature, s', hrun, hg, hreports⟩ := hresolve _ f s hs hlookup
      exact ⟨hlooked, some signature, s', by rw [run_bind_eq hrun]; rfl, hg, hreports, trivial⟩
  all_goals exact ⟨nofun, _, s, rfl, .refl s, .refl names s, trivial⟩

theorem calleeSignature? (frame? : Option Frame) {callee : Ident} {pos : Position}
    (h : ∃ found?, ⟨scope, callee, pos, found?⟩ ∈ lookups) :
    Works names T lookups known scope (calleeLookups watch frame? callee pos)
      (calleeSignature? names resolve frame? callee pos) fun _ => True := by
  refine bind (lookup? hsettled frame? h) fun d? hd => ?_
  cases d? with
  | none => exact absurd rfl hd
  | some d =>
    simp only
    by_cases hfunction : d.isFunction = true
    · simp only [if_pos hfunction]
      exact signatureOf? hresolve d
    · simp only [if_neg hfunction]
      exact last (reportAt _ rfl) fun _ _ => pure trivial

omit hsettled in
/-- The check of a function that is defined in a block. -/
theorem closure (frame? : Option Frame) {f : FunctionDef} (pos : Position) (hf : f ∈ known) :
    Works names T lookups known scope (entryLookups names resolve watch frame? (.closure f pos))
      (Check.entry names resolve frame? (.closure f pos)) fun _ => True := by
  intro s hs hframe
  have hget (g : State → Step Unit) : ((get : Step State) >>= g).run s = (g s).run s :=
    run_bind_eq rfl
  have htype : Works names T lookups known scope (fun _ => []) (Check.setType pos (.function f.name))
      fun _ => True := setType pos _
  obtain ⟨⟨definition?, progress⟩, hlookup⟩ := hs.present f hf
  unfold Check.entry entryLookups
  simp only [hget, hlookup]
  rcases definition? with _ | g
  case some =>
    cases progress with
    | pending =>
      obtain ⟨hlooked, signature, s₁, hrun, hg, hreports⟩ := hresolve f.key g s hs hlookup
      obtain ⟨_, ⟨⟩, s₂, hset, hg', hreports', _⟩ := htype s₁ (hs.grow hg) (hg.table ▸ hframe)
      exact ⟨hlooked, (), s₂, (run_bind_eq (discard_run hrun)).trans hset, hg.trans hg',
        hreports.trans hreports', trivial⟩
    | active | resolved => exact ⟨List.forall_mem_nil _, (htype s hs hframe).2⟩
  case none => exact ⟨List.forall_mem_nil _, (htype s hs hframe).2⟩

end Functions
end Names

variable {resolve : Resolver} {watch : Watch}

mutual

/-- The names in an expression that have been looked up before are found again when it is checked. -/
theorem expr (hsettled : ∀ v ∈ lookups, v.SettledIn T)
    (hresolve : resolve.Works names T lookups known watch) (frame? : Option Frame) (e : Expr) {scope : List BlockKey} (h : e.Obeys (.lookedUp lookups known) scope) :
    Works names T lookups known scope (exprLookups names resolve watch frame? e)
      (expr names resolve frame? e) fun _ => True := by
  cases e with
  | span compiled tree =>
    rw [Check.expr, exprLookups]
    exact expr hsettled hresolve frame? tree h
  | number value pos | boolean value pos =>
    rw [Check.expr, exprLookups]
    exact typed _ _
  | var name pos =>
    rw [Check.expr, exprLookups]
    exact last (variableType hsettled frame? h) fun ty _ => typed _ ty
  | prefixed op operand pos =>
    rw [Check.expr, exprLookups]
    exact last (expr hsettled hresolve frame? operand h) fun _ _ => last (expect _ _ _ _) fun _ _ => typed _ _
  | binary op left right pos =>
    rw [Check.expr, exprLookups]
    exact bind (expr hsettled hresolve frame? left h.1) fun _ _ => last (expr hsettled hresolve frame? right h.2) fun _ _ =>
      last (binaryType _ _ _ _ _ _) fun ty _ => typed _ ty
  | block key items pos =>
    rw [Check.expr, exprLookups]
    exact last (enterBlock (entries hsettled hresolve frame? items h.2)) fun _ _ => typed _ _
  | conditional condition thenBranch elseBranch pos =>
    obtain ⟨_, hcondition, hthen, helse⟩ := h
    rw [Check.expr, exprLookups]
    exact bind (expr hsettled hresolve frame? condition hcondition) fun _ _ => after (expect _ _ _ _) fun _ _ =>
      bind (expr hsettled hresolve frame? thenBranch hthen) fun _ _ => last (expr hsettled hresolve frame? elseBranch helse) fun _ _ =>
        reported _ rfl (typed _ _)
  | call site args =>
    obtain ⟨⟨hcallee, hshorthand⟩, hargs⟩ := h
    rw [expr_call_eq, exprLookups]
    exact bind (calleeSignature? hsettled hresolve frame? hcallee) fun signature? _ =>
      checkCall site args.length (orderedArguments hsettled hresolve frame? site.callee 0 args hargs)
        (fun signature bound =>
          namedArguments hsettled hresolve frame? site.callee signature bound args hargs hshorthand) signature?

theorem entries (hsettled : ∀ v ∈ lookups, v.SettledIn T)
    (hresolve : resolve.Works names T lookups known watch) (frame? : Option Frame) (items : List BlockEntry) {scope : List BlockKey}
    (h : BlockEntry.AllObey (.lookedUp lookups known) scope items) :
    Works names T lookups known scope (entriesLookups names resolve watch frame? items)
      (entries names resolve frame? items) fun _ => True := by
  cases items with
  | nil =>
    rw [Check.entries, entriesLookups]
    exact pure trivial
  | cons item items =>
    rw [Check.entries, entriesLookups]
    exact bind (entry hsettled hresolve frame? item h.1) fun _ _ => entries hsettled hresolve frame? items h.2

theorem entry (hsettled : ∀ v ∈ lookups, v.SettledIn T)
    (hresolve : resolve.Works names T lookups known watch) (frame? : Option Frame) (item : BlockEntry) {scope : List BlockKey} (h : item.Obeys (.lookedUp lookups known) scope) :
    Works names T lookups known scope (entryLookups names resolve watch frame? item)
      (entry names resolve frame? item) fun _ => True := by
  cases item with
  | closure f pos => exact closure hresolve frame? pos (FunctionDef.obeys_iff.1 h).1
  | operator op value guard? pos =>
    obtain ⟨_, hvalue, hguard⟩ := h
    unfold Check.entry entryLookups
    refine guarded (reportAt _ rfl) ?_
    cases guard? with
    | none => exact bind (expr hsettled hresolve frame? value hvalue) fun _ _ => after (expect _ _ _ _) fun _ _ => pure trivial
    | some guard =>
      exact bind (expr hsettled hresolve frame? value hvalue) fun _ _ => after (expect _ _ _ _) fun _ _ =>
        last (expr hsettled hresolve frame? guard hguard) fun _ _ => expect _ _ _ _

theorem orderedArguments (hsettled : ∀ v ∈ lookups, v.SettledIn T)
    (hresolve : resolve.Works names T lookups known watch) (frame? : Option Frame) (callee : Ident) (i : Nat) (args : List Argument) {scope : List BlockKey}
    (h : Argument.AllObey (.lookedUp lookups known) scope args) :
    Works names T lookups known scope (orderedLookups names resolve watch frame? callee i args)
      (orderedArguments names resolve frame? callee i args) fun _ => True := by
  cases args with
  | nil =>
    rw [Check.orderedArguments, orderedLookups]
    exact pure trivial
  | cons arg args =>
    cases arg with
    | assign _ value _ | opAssign _ _ value _ | positional value _ =>
      rw [Check.orderedArguments, orderedLookups]
      exact bind (expr hsettled hresolve frame? value h.1) fun _ _ => after (expect _ _ _ _) fun _ _ =>
        orderedArguments hsettled hresolve frame? callee (i + 1) args h.2
    | shorthand name pos =>
      rw [Check.orderedArguments, orderedLookups]
      exact orderedArguments hsettled hresolve frame? callee (i + 1) args h.2

theorem namedArguments (hsettled : ∀ v ∈ lookups, v.SettledIn T)
    (hresolve : resolve.Works names T lookups known watch) (frame? : Option Frame) (callee : Ident) (signature : Signature) (bound : List Bool) (args : List Argument)
    {scope : List BlockKey} (h : Argument.AllObey (.lookedUp lookups known) scope args)
    (hshorthand : ∀ name pos, .shorthand name pos ∈ args → ∃ found?, ⟨scope, name, pos, found?⟩ ∈ lookups) :
    Works names T lookups known scope (namedLookups names resolve watch frame? callee signature bound args)
      (namedArguments names resolve frame? callee signature bound args) fun _ => True := by
  cases args with
  | nil =>
    rw [Check.namedArguments, namedLookups]
    exact pure trivial
  | cons arg args =>
    have hrest (name : Ident) (pos : Position) (hmem : .shorthand name pos ∈ args) :=
      hshorthand name pos (List.mem_cons_of_mem _ hmem)
    cases arg with
    | assign name value pos | opAssign name op value pos =>
      rw [Check.namedArguments, namedLookups]
      refine bind (expr hsettled hresolve frame? value h.1) fun _ _ => after (expect _ _ _ _) fun _ _ =>
        after (checkAssigned hsettled frame? callee signature bound name ?_) fun bound _ =>
          namedArguments hsettled hresolve frame? callee signature bound args h.2 hrest
      exact fun _ _ => nofun
    | shorthand name pos =>
      rw [Check.namedArguments, namedLookups]
      refine bind (checkNamed hsettled frame? callee signature bound name _ ?_) fun bound _ =>
        namedArguments hsettled hresolve frame? callee signature bound args h.2 hrest
      rintro _ _ ⟨⟩
      exact ⟨rfl, hshorthand name pos List.mem_cons_self⟩
    | positional value pos =>
      rw [Check.namedArguments, namedLookups]
      exact namedArguments hsettled hresolve frame? callee signature bound args h.2 hrest

end

end Works

section Bodies

variable (hsettled : ∀ v ∈ lookups, v.SettledIn T)
  (hbodies : ∀ f ∈ known, f.body.Obeys (.lookedUp lookups known) f.inside)
include hsettled hbodies

/-- The body of a function is checked in its own blocks, wherever the check comes from. -/
theorem resolveWithin_works (nesting : Nat) :
    (resolveWithin names nesting).Works names T lookups known (bodyLookups names nesting) := by
  induction nesting with
  | zero => exact fun _ f s _ _ => ⟨nofun, .provisional f, s, rfl, .refl s, .refl names s⟩
  | succ nesting ih =>
    intro key f s hs hpending
    let entered : State :=
      { s with
        table := s.table.enterScope f.bodyScope
        typing := { s.typing with functions := s.typing.functions.setProgress key .active } }
    have hentered : entered.Collected T known := ⟨hs.toGathers.enterBody key f, ⟨hs.later.kept, hs.later.added⟩⟩
    have hbody := hbodies f (hs.known key f _ hpending)
    obtain ⟨hlooked, ty, mid, hrun, hg, hreports, _⟩ :=
      Works.expr hsettled ih (some ⟨key, f.scope.length⟩) f.body hbody entered hentered
        (SymbolTable.frame_enterScope _ _)
    have hleave : mid.table.leave = .ok s.table := by
      rw [hg.table]
      exact SymbolTable.leave_enterScope _ _
    obtain ⟨signature, s', hresolved, hissues⟩ := resolveWithin_run hrun hleave
    have hreports' : mid.Reports names s' := fun i hi => (hissues i hi).imp_right fun heq => ⟨_, _, rfl, heq⟩
    exact ⟨hlooked, signature, s', hresolved, resolveWithin_grows _ key f s _ _ hpending hresolved,
      hreports.trans hreports'⟩

theorem resolve_works : (resolve names).Works names T lookups known (functionLookups names) := by
  intro key f s hs hpending
  obtain ⟨hlooked, signature, s', hrun, hdone⟩ :=
    resolveWithin_works hsettled hbodies s.typing.functions.length key f s hs hpending
  refine ⟨hlooked, signature, s', ?_, hdone⟩
  unfold resolve
  rw [run_bind_eq (show (get : Step State).run s = .ok (s, s) from rfl)]
  exact hrun

end Bodies

end Check
end ToneScript
