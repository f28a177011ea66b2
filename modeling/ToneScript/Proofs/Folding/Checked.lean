import ToneScript.Proofs.Compilation.Native
import ToneScript.Proofs.Folding.Parsed
import ToneScript.Proofs.Typing.Program

/-! The check of a program in which names of constants have been replaced by their values. A literal has the type that
its constant is declared with, and a built-in name is never captured; so both checks report the same, record the same
types and find the same signatures, or end in the same defect. -/
namespace ToneScript

section Definitions

variable (values : Valuation)

@[simp] theorem Expr.definitions_ofValue (v : Value) (pos : Position) : (Expr.ofValue v pos).definitions = [] := by
  cases v <;> rfl

mutual

/-- The functions that are defined in an expression are the same but for what is replaced in their bodies. -/
theorem Expr.definitions_fold (p : List BlockKey) (e : Expr) :
    (e.fold values p).definitions = e.definitions.map (FunctionDef.fold values) := by
  cases e with
  | block key entries pos =>
    rw [Expr.fold, Expr.definitions, Expr.definitions, BlockEntry.definitionsOfAll_fold (key :: p) entries]
  | conditional c t e pos =>
    rw [Expr.fold, Expr.definitions, Expr.definitions, Expr.definitions_fold p c, Expr.definitions_fold p t,
      Expr.definitions_fold p e, List.map_append, List.map_append]
  | var name pos =>
    rw [Expr.fold]
    cases values p name pos with
    | some v => exact Expr.definitions_ofValue v pos
    | none => rfl
  | number | boolean | prefixed | binary | call | span => rfl

theorem BlockEntry.definitions_fold (p : List BlockKey) (item : BlockEntry) :
    (item.fold values p).definitions = item.definitions.map (FunctionDef.fold values) := by
  cases item with
  | operator op value guard pos =>
    rw [BlockEntry.fold, BlockEntry.definitions, BlockEntry.definitions, Expr.definitions_fold p value]
  | closure f pos =>
    rw [BlockEntry.fold, BlockEntry.definitions, BlockEntry.definitions, FunctionDef.definitions_fold f]

theorem BlockEntry.definitionsOfAll_fold (p : List BlockKey) (items : List BlockEntry) :
    BlockEntry.definitionsOfAll (BlockEntry.foldAll values p items) =
      (BlockEntry.definitionsOfAll items).map (FunctionDef.fold values) := by
  cases items with
  | nil => rfl
  | cons item items =>
    rw [BlockEntry.foldAll, BlockEntry.definitionsOfAll, BlockEntry.definitionsOfAll,
      BlockEntry.definitions_fold p item, BlockEntry.definitionsOfAll_fold p items, List.map_append]

theorem FunctionDef.definitions_fold (f : FunctionDef) :
    (f.fold values).definitions = f.definitions.map (FunctionDef.fold values) := by
  obtain ⟨name, pos, params, argsKey, around, body⟩ := f
  rw [FunctionDef.fold, FunctionDef.definitions, FunctionDef.definitions, Expr.definitions_fold _ body, List.map_cons,
    FunctionDef.fold]

end

theorem Program.definitions_fold (program : Program) :
    (Program.fold values program).flatMap Item.definitions =
      (program.flatMap Item.definitions).map (FunctionDef.fold values) := by
  have hitem (item : Item) : (item.fold values).definitions = item.definitions.map (FunctionDef.fold values) := by
    cases item with
    | function f pos => exact FunctionDef.definitions_fold values f
    | assignment name value pos => exact Expr.definitions_fold values _ value
  rw [Program.fold, List.flatMap_map, List.map_flatMap]
  simp only [hitem]

/-- What is known of a function, with variables replaced in its definition. -/
def FunctionInfo.fold (info : FunctionInfo) : FunctionInfo :=
  { info with definition? := info.definition?.map (FunctionDef.fold values) }

/-- A table of functions with variables replaced in their definitions. -/
def FunctionTable.fold (t : FunctionTable) : FunctionTable :=
  t.map fun entry => (entry.1, entry.2.fold values)

@[simp] theorem FunctionDef.key_fold (f : FunctionDef) : (f.fold values).key = f.key := by
  cases f
  rfl

@[simp] theorem Signature.provisional_fold (f : FunctionDef) : provisional (f.fold values) = provisional f := by
  cases f
  rfl

namespace FunctionTable

variable (t : FunctionTable)

@[simp] theorem length_fold : (t.fold values).length = t.length :=
  List.length_map _

@[simp] theorem keys_fold : (t.fold values).map Prod.fst = t.map Prod.fst := by
  rw [fold, List.map_map]
  rfl

@[simp] theorem lookup_fold (key : FunctionKey) :
    (t.fold values).lookup key = (t.lookup key).map (FunctionInfo.fold values) := by
  induction t with
  | nil => rfl
  | cons entry t ih =>
    rw [fold, List.map_cons, List.lookup_cons, List.lookup_cons]
    split
    · rfl
    · exact ih

theorem signature?_fold (key : FunctionKey) : (t.fold values).signature? key = t.signature? key := by
  rw [signature?, signature?, lookup_fold]
  rcases t.lookup key with _ | ⟨definition?, progress⟩
  · rfl
  · cases progress <;> rfl

theorem setProgress_fold (key : FunctionKey) (progress : Progress) :
    (t.fold values).setProgress key progress = (t.setProgress key progress).fold values := by
  rw [setProgress, setProgress, fold, fold, List.map_map, List.map_map]
  refine List.map_congr_left fun entry _ => ?_
  simp only [Function.comp_apply]
  split <;> rfl

theorem insert_fold (key : FunctionKey) (info : FunctionInfo) :
    (t.fold values).insert key (info.fold values) = (t.insert key info).fold values := by
  induction t with
  | nil => rfl
  | cons entry t ih =>
    rw [fold, List.map_cons, insert, insert]
    split
    · rfl
    · split
      · rfl
      · exact congrArg _ ih

end FunctionTable

end Definitions

namespace SymbolTable

/-- Whether names that are replaced refer to built-in ones of the types of their values. -/
def Bears (t : SymbolTable) (values : Valuation) : Prop :=
  ∀ p name pos v, values p name pos = some v → ∃ d crossed, t.resolve p name pos = some (d, crossed) ∧
    d.builtin = true ∧ d.block = rootBlock ∧ d.ty? = some v.ty

variable {t : SymbolTable} {values : Valuation}

/-- What a name refers to depends on the declarations alone. -/
theorem resolve_congr {t' : SymbolTable} (h : ∀ key name, t'.find? key name = t.find? key name)
    (scope : List BlockKey) (name : Ident) (pos : Position) : t'.resolve scope name pos = t.resolve scope name pos := by
  unfold resolve
  induction scope with
  | nil => rfl
  | cons key scope ih => rw [findAlong?, findAlong?, h, ih]

theorem Bears.enterBlock (h : t.Bears values) (key : BlockKey) : (t.enterBlock key).Bears values := by
  intro p name pos v hv
  rw [resolve_congr (find?_enterBlock t key)]
  exact h p name pos v hv

theorem Bears.enterScope (h : t.Bears values) (chain : List BlockKey) : (t.enterScope chain).Bears values := by
  intro p name pos v hv
  rw [resolve_congr (find?_enterScope t chain)]
  exact h p name pos v hv

/-- Built-in names still refer to the same when the type of another name gets known. -/
theorem resolve_setTypeIn {key : BlockKey} {name other : Ident} {ty : Ty} {d d' : Declaration}
    (hother : t.find? key other = some d') (hsource : d'.builtin = false) {scope : List BlockKey} {pos : Position}
    {crossed : Nat} (h : t.resolve scope name pos = some (d, crossed)) (hbuiltin : d.builtin = true) :
    (t.setTypeIn key other ty).resolve scope name pos = some (d, crossed) := by
  induction scope generalizing crossed with
  | nil => cases h
  | cons k scope ih =>
    have hfind := find?_setTypeIn hother ty k name
    rcases t.visible_or_hidden k name pos with ⟨d₁, hd₁, hvisible⟩ | hhidden
    · rw [resolve_cons_visible hd₁ hvisible] at h
      cases h
      rw [if_neg] at hfind
      · exact resolve_cons_visible (hfind.trans hd₁) hvisible
      · rintro ⟨rfl, rfl⟩
        cases hother.symm.trans hd₁
        rw [hsource] at hbuiltin
        cases hbuiltin
    · have hhidden' (d₁ : Declaration) (hd₁ : (t.setTypeIn key other ty).find? k name = some d₁) :
          d₁.visibleAt pos.index = false := by
        rw [hfind] at hd₁
        split at hd₁
        · rename_i hsame
          obtain ⟨rfl, rfl⟩ := hsame
          cases hd₁
          exact hhidden d' hother
        · exact hhidden d₁ hd₁
      rw [resolve_cons_hidden hhidden] at h
      obtain ⟨⟨d₂, n⟩, hrest, heq⟩ := Option.map_eq_some_iff.1 h
      cases heq
      rw [resolve_cons_hidden hhidden', ih hrest]
      rfl

theorem Bears.setTypeIn (h : t.Bears values) {key : BlockKey} {other : Ident}
    (hother : ∀ d, t.find? key other = some d → d.builtin = false) (ty : Ty) :
    (t.setTypeIn key other ty).Bears values := by
  cases hfind : t.find? key other with
  | none =>
    rw [SymbolTable.setTypeIn, hfind]
    exact h
  | some d' =>
    intro p name pos v hv
    obtain ⟨d, crossed, hresolve, hbuiltin, hrest⟩ := h p name pos v hv
    exact ⟨d, crossed, resolve_setTypeIn hfind (hother d' hfind) hresolve hbuiltin, hbuiltin, hrest⟩

end SymbolTable

namespace Check

/-- Two states of a check that differ in their remarks, and in what is replaced in the functions that they know. -/
structure State.Alike (values : Valuation) (s s₀ : State) : Prop where
  table : s.table = s₀.table
  issues : s.journal.issues = s₀.journal.issues
  poisoned : s.poisoned = s₀.poisoned
  functions : s.typing.functions = s₀.typing.functions.fold values
  types : s.typing.types = s₀.typing.types
  captures : s.typing.captures = s₀.typing.captures

variable {α β : Type} {values : Valuation}

/-- Two checks that end alike: with the same result, in tables with a property, or in the same defect. -/
inductive Ends (values : Valuation) (P : SymbolTable → Prop) :
    Except Defect (α × State) → Except Defect (α × State) → Prop where
  | ok {a : α} {s s₀ : State} (alike : s.Alike values s₀) (table : P s.table) : Ends values P (.ok (a, s)) (.ok (a, s₀))
  | error (d : Defect) : Ends values P (.error d) (.error d)

/-- Two steps that end alike from states that are alike, in tables that keep a property. -/
def Parallel (values : Valuation) (P : SymbolTable → Prop) (x x₀ : Step α) : Prop :=
  ∀ s s₀, s.Alike values s₀ → P s.table → Ends values P (x.run s) (x₀.run s₀)

namespace Parallel

variable {P : SymbolTable → Prop} {x x₀ y y₀ : Step α}

theorem pure (a : α) : Parallel values P (pure a) (pure a) :=
  fun _ _ halike htable => .ok halike htable

theorem throw (d : Defect) : Parallel values P (throw d : Step α) (throw d) :=
  fun _ _ _ _ => .error d

theorem bind {f f₀ : α → Step β} (hx : Parallel values P x x₀) (hf : ∀ a, Parallel values P (f a) (f₀ a)) :
    Parallel values P (x >>= f) (x₀ >>= f₀) := by
  intro s s₀ halike htable
  have hfirst := hx s s₀ halike htable
  rw [StateT.run_bind, StateT.run_bind]
  generalize x.run s = r at hfirst ⊢
  generalize x₀.run s₀ = r₀ at hfirst ⊢
  cases hfirst with
  | ok halike' htable' => exact hf _ _ _ halike' htable'
  | error d => exact .error d

theorem discard (hx : Parallel values P x x₀) :
    Parallel values P (Functor.discard x) (Functor.discard x₀) :=
  bind hx fun _ => pure ()

/-- A step that goes on from the state. -/
theorem inspect {f f₀ : State → Step α}
    (hf : ∀ s s₀, s.Alike values s₀ → P s.table → Parallel values P (f s) (f₀ s₀)) :
    Parallel values P (get >>= f) (get >>= f₀) :=
  fun s s₀ halike htable => hf s s₀ halike htable s s₀ halike htable

theorem branch {p : Prop} [Decidable p] (hx : Parallel values P x x₀) (hy : Parallel values P y y₀) :
    Parallel values P (if p then x else y) (if p then x₀ else y₀) := by
  split
  · exact hx
  · exact hy

theorem reportAt (names : NameTable) (pos? : Option Position) (e : TypeError) :
    Parallel values P (reportAt names pos? e) (reportAt names pos? e) := by
  intro s s₀ halike htable
  refine .ok { halike with issues := ?_ } htable
  rw [Journal.issues_report, Journal.issues_report, halike.issues]

/-- A step before which an error may be reported. -/
theorem reported (names : NameTable) {p : Prop} [Decidable p] (pos? : Option Position) (e : TypeError)
    (hx : Parallel values P x x₀) : Parallel values P (if p then (do Check.reportAt names pos? e; x) else x)
      (if p then (do Check.reportAt names pos? e; x₀) else x₀) :=
  .branch (.bind (reportAt names pos? e) fun _ => hx) hx

theorem note (level : Log.Level) (message : String) : Parallel values P (note level message) (note level message) := by
  intro s s₀ halike htable
  refine .ok { halike with issues := ?_ } htable
  rw [Journal.issues_note, Journal.issues_note, halike.issues]

theorem poison : Parallel values P poison poison :=
  fun _ _ halike htable => .ok { halike with poisoned := congrArg (· + 1) halike.poisoned } htable

theorem setType (pos : Position) (ty : Ty) : Parallel values P (setType pos ty) (setType pos ty) :=
  fun _ _ halike htable => .ok { halike with types := congrArg ((pos.index, ty) :: ·) halike.types } htable

theorem capture (key : FunctionKey) (name : Ident) : Parallel values P (capture key name) (capture key name) := by
  intro s s₀ halike htable
  refine .ok { halike with functions := ?_, types := ?_, captures := ?_ } htable
  all_goals
    dsimp only
    rw [halike.captures]
    split
  · exact halike.functions
  · exact halike.functions
  · exact halike.types
  · exact halike.types
  · exact halike.captures
  · rfl

/-- What is noted for a function. -/
theorem setProgress (key : FunctionKey) (progress : Progress) :
    Parallel values P (modifyTyping fun t => { t with functions := t.functions.setProgress key progress })
      (modifyTyping fun t => { t with functions := t.functions.setProgress key progress }) := by
  intro s s₀ halike htable
  refine .ok { halike with functions := ?_ } htable
  show s.typing.functions.setProgress key progress = _
  rw [halike.functions, FunctionTable.setProgress_fold]

/-- A step within blocks, which are left again. -/
theorem inScope {t : SymbolTable} {enter : SymbolTable → SymbolTable} (hleave : (enter t).leave = .ok t)
    (hx : Parallel values (· = enter t) x x₀) :
    Parallel values (· = t) (inScope enter x) (inScope enter x₀) := by
  intro s s₀ halike htable
  have hleave' : (enter t).leave = .ok s.table := htable ▸ hleave
  have htable₀ : s₀.table = t := halike.table.symm.trans htable
  have hends := hx { s with table := enter s.table } { s₀ with table := enter s₀.table }
    { halike with table := congrArg enter halike.table } (congrArg enter htable)
  generalize hrun : x.run _ = r at hends
  generalize hrun₀ : x₀.run _ = r₀ at hends
  cases hends with
  | @ok a s' s₀' halike' htable' =>
    have hleft := inScope_run enter hrun (htable' ▸ hleave')
    have hleft₀ := inScope_run enter hrun₀ (by rw [← halike'.table, htable', hleave, htable₀])
    rw [hleft, hleft₀]
    exact .ok { halike' with table := halike.table } htable
  | error d =>
    rw [inScope_error enter hrun, inScope_error enter hrun₀]
    exact .error d

end Parallel

/-- Two ways to find signatures that end alike. -/
def Resolver.Parallel (values : Valuation) (resolve resolve₀ : Resolver) : Prop :=
  ∀ key f t, t.Framed → t.Bears values → Check.Parallel values (· = t) (resolve key (f.fold values)) (resolve₀ key f)

namespace Parallel

variable {P : SymbolTable → Prop} {t : SymbolTable}

section Steps

variable (names : NameTable) (frame? : Option Frame) {resolve resolve₀ : Resolver}

theorem lookup? (name : Ident) (pos : Position) :
    Parallel values P (lookup? frame? name pos) (lookup? frame? name pos) := by
  refine .inspect fun s s₀ halike _ => ?_
  simp only [halike.table]
  split
  · exact .pure _
  · split
    · exact .branch (.bind (.capture _ _) fun _ => .pure _) (.pure _)
    · exact .pure _

theorem expect (role : Role) (expected actual : Ty) (pos : Position) :
    Parallel values P (expect names role expected actual pos) (expect names role expected actual pos) :=
  .branch (.reportAt _ _ _) (.pure _)

theorem variableType (name : Ident) (pos : Position) :
    Parallel values P (variableType names frame? name pos) (variableType names frame? name pos) := by
  refine .bind (lookup? frame? name pos) fun d? => ?_
  split
  · exact .bind (.reportAt _ _ _) fun _ => .pure _
  · split
    · exact .bind .poison fun _ => .pure _
    · exact .bind (.reportAt _ _ _) fun _ => .pure _
    · exact .pure _

theorem binaryType (op : Operator) (pos : Position) (left right : Ty) (leftPos rightPos : Position) :
    Parallel values P (binaryType names op pos left right leftPos rightPos)
      (binaryType names op pos left right leftPos rightPos) := by
  refine .branch ?_ (.branch ?_ ?_)
  · exact .bind (expect names _ _ _ _) fun _ => .bind (expect names _ _ _ _) fun _ => .pure _
  · exact .branch (.bind (.reportAt _ _ _) fun _ => .pure _) (.pure _)
  · exact .bind (expect names _ _ _ _) fun _ => .bind (expect names _ _ _ _) fun _ => .pure _

theorem signatureOf? (hresolve : Resolver.Parallel values resolve resolve₀) (hframed : t.Framed)
    (hbears : t.Bears values) (d : Declaration) :
    Parallel values (· = t) (signatureOf? resolve d) (signatureOf? resolve₀ d) := by
  refine .inspect fun s s₀ halike htable => ?_
  simp only [halike.functions, FunctionTable.lookup_fold, halike.table]
  rcases s₀.typing.functions.lookup (d.block, d.name) with _ | ⟨_ | f, _ | _ | signature⟩
  · exact .pure _
  · exact .pure _
  · exact .pure _
  · exact .pure _
  · have hactive : (f.fold values).argsKey = f.argsKey := by cases f; rfl
    simp only [FunctionInfo.fold, Option.map_some, hactive, Signature.provisional_fold]
    exact .branch (.pure _) (.bind (hresolve _ f t hframed hbears) fun _ => .pure _)
  · simp only [FunctionInfo.fold, Option.map_some, Signature.provisional_fold]
    exact .pure _
  · exact .pure _

theorem calleeSignature? (hresolve : Resolver.Parallel values resolve resolve₀) (hframed : t.Framed)
    (hbears : t.Bears values) (callee : Ident) (pos : Position) :
    Parallel values (· = t) (calleeSignature? names resolve frame? callee pos)
      (calleeSignature? names resolve₀ frame? callee pos) := by
  refine .bind (lookup? frame? callee pos) fun d? => ?_
  cases d? with
  | none => exact .bind (.reportAt _ _ _) fun _ => .pure _
  | some d => exact .branch (signatureOf? hresolve hframed hbears d) (.bind (.reportAt _ _ _) fun _ => .pure _)

theorem checkForm (callee : Ident) (signature : Signature) (name : Ident) (i : Nat) (arg : Argument)
    (p : List BlockKey) :
    Parallel values P (checkForm names frame? callee signature name i (arg.fold values p))
      (checkForm names frame? callee signature name i arg) := by
  cases arg with
  | shorthand name' pos =>
    refine .bind (lookup? frame? name pos) fun d? => ?_
    split
    · exact .reportAt _ _ _
    · split
      · exact expect names _ _ _ _
      · exact .pure _
  | opAssign name' op value pos =>
    exact .reported _ _ _ (.branch (.reportAt _ _ _) (.pure _))
  | assign | positional => exact .pure _

theorem checkNamed (callee : Ident) (signature : Signature) (bound : List Bool) (name : Ident) (arg : Argument)
    (p : List BlockKey) :
    Parallel values P (checkNamed names frame? callee signature bound name (arg.fold values p))
      (checkNamed names frame? callee signature bound name arg) := by
  have hpos : (arg.fold values p).pos = arg.pos := by cases arg <;> rfl
  unfold Check.checkNamed
  rw [hpos]
  cases signature.indexOf? name with
  | none => exact .bind (.reportAt _ _ _) fun _ => .pure _
  | some i =>
    exact .reported _ _ _ (.bind (checkForm names frame? _ _ _ _ _ p) fun _ => .pure _)

theorem checkMissing (callee : Ident) (pos : Position) (params : List (Ident × Ty)) (defaults : List (Option Number))
    (bounds : List Bool) :
    Parallel values P (checkMissing names callee pos params defaults bounds)
      (checkMissing names callee pos params defaults bounds) := by
  induction params generalizing defaults bounds with
  | nil => exact .pure _
  | cons param params ih =>
    rcases defaults with _ | ⟨default?, defaults⟩
    · exact .pure _
    · rcases bounds with _ | ⟨bound, bounds⟩
      · exact .pure _
      · exact .reported _ _ _ (ih defaults bounds)

theorem checkCall_fold (replaced : Ident → Position → Option Value) (site : CallSite) (count : Nat)
    (ordered : Step Unit) (named : Signature → List Bool → Step (List Bool)) :
    Check.checkCall names (site.fold replaced) count ordered named =
      Check.checkCall names site count ordered named := by
  cases site
  rfl

section Arguments

variable (site : CallSite) (count : Nat) {ordered ordered₀ : Step Unit}
  {named named₀ : Signature → List Bool → Step (List Bool)} (hordered : Parallel values P ordered ordered₀)
  (hnamed : ∀ signature bound, Parallel values P (named signature bound) (named₀ signature bound))
include hordered hnamed

theorem checkGiven (signature : Signature) :
    Parallel values P (checkGiven names site count ordered named signature)
      (checkGiven names site count ordered₀ named₀ signature) := by
  unfold Check.checkGiven
  cases site.style with
  | ordered => exact .reported _ _ _ (.bind hordered fun _ => .pure _)
  | named => exact hnamed _ _

/-- The checks of a call once its function is known. -/
theorem checkCall (signature? : Option Signature) :
    Parallel values P (checkCall names site count ordered named signature?)
      (checkCall names site count ordered₀ named₀ signature?) := by
  cases signature? with
  | none => exact .bind (.setType _ _) fun _ => .pure _
  | some signature =>
    have hfinish (bound : List Bool) : Parallel values P (finishCall names site signature bound)
        (finishCall names site signature bound) :=
      .bind (checkMissing names _ _ _ _ bound) fun _ => .bind (.setType _ _) fun _ => .pure _
    have hrest := Parallel.bind (checkGiven names site count hordered hnamed signature) hfinish
    exact .branch (.bind .poison fun _ => hrest) hrest

end Arguments

/-- Where a name stands for a value, its type is found without a trace. -/
theorem variableType_bears (hbears : t.Bears values) {p : List BlockKey} (hframe : t.frame = p) {name : Ident}
    {pos : Position} {v : Value} (hv : values p name pos = some v) {s : State} (htable : s.table = t) :
    (Check.variableType names frame? name pos).run s = .ok (v.ty, s) := by
  obtain ⟨d, crossed, hresolve, hbuiltin, hroot, hty⟩ := hbears p name pos v hv
  have hfound : s.table.lookupBefore? name pos.index = some (d, crossed) := by
    rw [htable, SymbolTable.lookupBefore?_eq_resolve hframe, hresolve]
  have hlookup : (Check.lookup? frame? name pos).run s = .ok (some d, s) := by
    unfold Check.lookup?
    simp only [StateT.run_bind, StateT.run_get, pure_bind, hfound]
    cases frame? with
    | none => rfl
    | some frame =>
      dsimp only
      -- Nothing of the outermost block is captured, so the look-up leaves the state as it is.
      rw [if_neg fun hcaptured => hcaptured.2.1 hroot]
      rfl
  rw [Check.variableType, run_bind_eq hlookup]
  dsimp only
  rw [hty]
  cases v <;> rfl

end Steps

section Trees

variable (names : NameTable) (frame? : Option Frame) {resolve resolve₀ : Resolver}

mutual

/-- The check of an expression with variables replaced is that of the expression. -/
theorem expr (hresolve : Resolver.Parallel values resolve resolve₀) {p : List BlockKey} {t : SymbolTable}
    (hframed : t.Framed) (hframe : t.frame = p) (hbears : t.Bears values) (e : Expr) :
    Parallel values (· = t) (expr names resolve frame? (e.fold values p)) (expr names resolve₀ frame? e) := by
  cases e with
  | span compiled tree =>
    rw [Expr.fold, Check.expr, Check.expr]
    exact expr hresolve hframed hframe hbears tree
  | number x pos | boolean b pos =>
    rw [Expr.fold, Check.expr, Check.expr]
    exact .bind (.setType _ _) fun _ => .pure _
  | var name pos =>
    rw [Expr.fold]
    cases hv : values p name pos with
    | none =>
      dsimp only
      rw [Check.expr, Check.expr]
      exact .bind (variableType names frame? name pos) fun _ => .bind (.setType _ _) fun _ => .pure _
    | some v =>
      -- The only place where the two checks differ: one has a literal, the other looks a name up.
      have hliteral : Check.expr names resolve frame? (.ofValue v pos) = (do Check.setType pos v.ty; return v.ty) := by
        cases v <;> rw [Expr.ofValue, Check.expr] <;> rfl
      intro s s₀ halike htable
      have hvar : (Check.expr names resolve₀ frame? (.var name pos)).run s₀ =
          (do Check.setType pos v.ty; return v.ty : Step Ty).run s₀ := by
        rw [Check.expr, StateT.run_bind,
          variableType_bears names frame? hbears hframe hv (halike.table.symm.trans htable)]
        rfl
      rw [hvar]
      show Ends values _ ((Check.expr names resolve frame? (.ofValue v pos)).run s) _
      rw [hliteral]
      exact Parallel.bind (.setType pos v.ty) (fun _ => .pure v.ty) s s₀ halike htable
  | prefixed op operand pos =>
    rw [Expr.fold, Check.expr, Check.expr, Expr.pos_fold]
    exact .bind (expr hresolve hframed hframe hbears operand) fun _ => .bind (expect names _ _ _ _) fun _ =>
      .bind (.setType _ _) fun _ => .pure _
  | binary op left right pos =>
    rw [Expr.fold, Check.expr, Check.expr, Expr.pos_fold, Expr.pos_fold]
    exact .bind (expr hresolve hframed hframe hbears left) fun _ =>
      .bind (expr hresolve hframed hframe hbears right) fun _ => .bind (binaryType names _ _ _ _ _ _) fun _ =>
      .bind (.setType _ _) fun _ => .pure _
  | block key items pos =>
    rw [Expr.fold, Check.expr, Check.expr]
    refine .bind (inScope (SymbolTable.leave_enterBlock_self hframed key) ?_) fun _ =>
      .bind (.setType _ _) fun _ => .pure _
    refine entries hresolve (hframed.enterBlock key) ?_ (hbears.enterBlock key) items
    rw [SymbolTable.frame_enterBlock hframed, hframe]
  | conditional c e e' pos =>
    rw [Expr.fold, Check.expr, Check.expr, Expr.pos_fold, Expr.pos_fold]
    refine .bind (expr hresolve hframed hframe hbears c) fun _ => .bind (expect names _ _ _ _) fun _ =>
      .bind (expr hresolve hframed hframe hbears e) fun _ => .bind (expr hresolve hframed hframe hbears e') fun _ => ?_
    exact .reported _ _ _ (.bind (.setType _ _) fun _ => .pure _)
  | call site args =>
    rw [Expr.fold, expr_call_eq, expr_call_eq, CallSite.callee_fold, CallSite.pos_fold, Argument.length_foldAll,
      checkCall_fold]
    exact .bind (calleeSignature? names frame? hresolve hframed hbears _ _)
      (checkCall names site args.length (orderedArguments hresolve hframed hframe hbears site.callee 0 args)
        fun signature bound => namedArguments hresolve hframed hframe hbears site.callee signature bound args)

theorem entries (hresolve : Resolver.Parallel values resolve resolve₀) {p : List BlockKey} {t : SymbolTable}
    (hframed : t.Framed) (hframe : t.frame = p) (hbears : t.Bears values) (items : List BlockEntry) :
    Parallel values (· = t) (entries names resolve frame? (BlockEntry.foldAll values p items))
      (entries names resolve₀ frame? items) := by
  cases items with
  | nil => exact .pure _
  | cons item items =>
    rw [BlockEntry.foldAll, Check.entries, Check.entries]
    exact .bind (entry hresolve hframed hframe hbears item) fun _ => entries hresolve hframed hframe hbears items

theorem entry (hresolve : Resolver.Parallel values resolve resolve₀) {p : List BlockKey} {t : SymbolTable}
    (hframed : t.Framed) (hframe : t.frame = p) (hbears : t.Bears values) (item : BlockEntry) :
    Parallel values (· = t) (entry names resolve frame? (item.fold values p)) (entry names resolve₀ frame? item) := by
  cases item with
  | closure f pos =>
    rw [BlockEntry.fold, Check.entry, Check.entry]
    refine .inspect fun s s₀ halike htable => ?_
    have htype : Parallel values (· = t) (Check.setType pos (.function (f.fold values).name))
        (Check.setType pos (.function f.name)) := by
      cases f
      exact .setType _ _
    simp only [halike.functions, FunctionTable.lookup_fold, FunctionDef.key_fold]
    rcases s₀.typing.functions.lookup f.key with _ | ⟨_ | known, _ | _ | _⟩
    · exact .throw _
    · exact htype
    · exact htype
    · exact htype
    · exact .bind (discard (hresolve f.key known t hframed hbears)) fun _ => htype
    · exact htype
    · exact htype
  | operator op value guard pos =>
    cases guard with
    | none =>
      rw [BlockEntry.fold, Expr.foldOption, Check.entry, Check.entry, Expr.pos_fold]
      exact .reported _ _ _ (.bind (expr hresolve hframed hframe hbears value) fun _ =>
        .bind (expect names _ _ _ _) fun _ => .pure _)
    | some guard =>
      rw [BlockEntry.fold, Expr.foldOption, Check.entry, Check.entry, Expr.pos_fold, Expr.pos_fold]
      exact .reported _ _ _ (.bind (expr hresolve hframed hframe hbears value) fun _ =>
        .bind (expect names _ _ _ _) fun _ => .bind (expr hresolve hframed hframe hbears guard) fun _ =>
        expect names _ _ _ _)

theorem orderedArguments (hresolve : Resolver.Parallel values resolve resolve₀) {p : List BlockKey} {t : SymbolTable}
    (hframed : t.Framed) (hframe : t.frame = p) (hbears : t.Bears values) (callee : Ident) (i : Nat)
    (args : List Argument) :
    Parallel values (· = t) (orderedArguments names resolve frame? callee i (Argument.foldAll values p args))
      (orderedArguments names resolve₀ frame? callee i args) := by
  cases args with
  | nil => exact .pure _
  | cons arg args =>
    have hrest := orderedArguments hresolve hframed hframe hbears callee (i + 1) args
    cases arg with
    | shorthand name pos =>
      rw [Argument.foldAll, Argument.fold, Check.orderedArguments, Check.orderedArguments]
      exact hrest
    | assign name value pos | opAssign name op value pos | positional value pos =>
      rw [Argument.foldAll, Argument.fold, Check.orderedArguments, Check.orderedArguments, Expr.pos_fold]
      exact .bind (expr hresolve hframed hframe hbears value) fun _ => .bind (expect names _ _ _ _) fun _ => hrest

theorem namedArguments (hresolve : Resolver.Parallel values resolve resolve₀) {p : List BlockKey} {t : SymbolTable}
    (hframed : t.Framed) (hframe : t.frame = p) (hbears : t.Bears values) (callee : Ident) (signature : Signature)
    (bound : List Bool) (args : List Argument) :
    Parallel values (· = t)
      (namedArguments names resolve frame? callee signature bound (Argument.foldAll values p args))
      (namedArguments names resolve₀ frame? callee signature bound args) := by
  cases args with
  | nil => exact .pure _
  | cons arg args =>
    have hrest (bound : List Bool) := namedArguments hresolve hframed hframe hbears callee signature bound args
    have hnamed (name : Ident) := @checkNamed values (· = t) names frame? callee signature bound name arg p
    cases arg with
    | positional value pos =>
      rw [Argument.foldAll, Argument.fold, Check.namedArguments, Check.namedArguments]
      exact hrest bound
    | shorthand name pos =>
      rw [Argument.foldAll, Argument.fold, Check.namedArguments, Check.namedArguments]
      exact .bind (hnamed name) hrest
    | assign name value pos | opAssign name op value pos =>
      rw [Argument.foldAll, Argument.fold, Check.namedArguments, Check.namedArguments, Expr.pos_fold]
      exact .bind (expr hresolve hframed hframe hbears value) fun _ => .bind (expect names _ _ _ _) fun _ =>
        .bind (hnamed name) hrest

end

end Trees

section Functions

variable (names : NameTable)

/-- By induction on how many functions can be in the middle of their checks. -/
theorem resolveWithin (nesting : Nat) :
    Resolver.Parallel values (Check.resolveWithin names nesting) (Check.resolveWithin names nesting) := by
  induction nesting with
  | zero =>
    intro key f t _ _
    rw [Check.resolveWithin, Check.resolveWithin, Signature.provisional_fold]
    exact .pure _
  | succ nesting ih =>
    intro key f t _ hbears
    rw [Check.resolveWithin, Check.resolveWithin, FunctionDef.fold_eq]
    have hbody := expr names (some ⟨key, f.scope.length⟩) ih
      (SymbolTable.framed_enterScope t (bodyScope_ne_nil f)) (SymbolTable.frame_enterScope t f.bodyScope)
      (hbears.enterScope f.bodyScope) f.body
    refine .inspect fun s s₀ halike _ => .bind (.setProgress key .active) fun _ =>
      .bind (inScope (SymbolTable.leave_enterScope t f.bodyScope) hbody) fun ty => .inspect fun s' s₀' halike' _ => ?_
    dsimp only
    rw [Journal.errorCount_congr halike.issues, Journal.errorCount_congr halike'.issues, halike.poisoned,
      halike'.poisoned]
    exact .reported _ _ _ (.bind (.setProgress key _) fun _ => .bind (.note _ _) fun _ => .pure _)

theorem resolve : Resolver.Parallel values (Check.resolve names) (Check.resolve names) := by
  intro key f t hframed hbears
  refine .inspect fun s s₀ halike _ => ?_
  rw [halike.functions, FunctionTable.length_fold]
  exact resolveWithin names _ key f t hframed hbears

theorem resolveOnce (hframed : t.Framed) (hbears : t.Bears values) (key : FunctionKey) :
    Parallel values (· = t) (Check.resolveOnce names key) (Check.resolveOnce names key) := by
  refine .inspect fun s s₀ halike _ => ?_
  simp only [halike.functions, FunctionTable.lookup_fold]
  rcases s₀.typing.functions.lookup key with _ | ⟨_ | f, _ | _ | _⟩
  · exact .pure _
  · exact .pure _
  · exact .pure _
  · exact .pure _
  · exact discard (resolve names key f t hframed hbears)
  · exact .pure _
  · exact .pure _

end Functions

/-- A step that keeps every table with a property as it is. -/
theorem of_kept {x x₀ : Step α} (h : ∀ t, P t → Parallel values (· = t) x x₀) : Parallel values P x x₀ := by
  intro s s₀ halike htable
  have hends := h s.table htable s s₀ halike rfl
  generalize x.run s = r at hends ⊢
  generalize x₀.run s₀ = r₀ at hends ⊢
  cases hends with
  | ok halike' htable' => exact .ok halike' (htable' ▸ htable)
  | error d => exact .error d

section Items

variable (names : NameTable)

/-- A table between the checks of two items. The names that are assigned are none of the built-in ones. -/
structure AtRoot (values : Valuation) (assigned : List Ident) (t : SymbolTable) : Prop where
  framed : t.Framed
  frame : t.frame = [rootBlock]
  bears : t.Bears values
  source : ∀ name ∈ assigned, ∀ d, t.find? rootBlock name = some d → d.builtin = false

theorem AtRoot.setTypeIn {assigned : List Ident} (h : AtRoot values assigned t) {name : Ident} (hname : name ∈ assigned)
    (ty : Ty) : AtRoot values assigned (t.setTypeIn rootBlock name ty) where
  framed := by
    unfold SymbolTable.setTypeIn
    split <;> exact h.framed
  frame := (SymbolTable.frame_setTypeIn t rootBlock name ty).trans h.frame
  bears := h.bears.setTypeIn (h.source name hname) ty
  source := by
    intro other hother d hd
    cases hfind : t.find? rootBlock name with
    | none =>
      rw [SymbolTable.setTypeIn, hfind] at hd
      exact h.source other hother d hd
    | some d' =>
      rw [SymbolTable.find?_setTypeIn hfind] at hd
      split at hd
      · cases hd
        exact h.source name hname d' hfind
      · exact h.source other hother d hd

theorem item {assigned : List Ident} (i : Item) (hassigned : ∀ name, i.assigned? = some name → name ∈ assigned) :
    Parallel values (AtRoot values assigned) (Check.item names (i.fold values)) (Check.item names i) := by
  cases i with
  | function f pos =>
    rw [Item.fold, Check.item, Check.item, FunctionDef.key_fold]
    exact of_kept fun t ht => resolveOnce names ht.framed ht.bears f.key
  | assignment name value pos =>
    rw [Item.fold, Check.item, Check.item]
    refine .bind (of_kept fun t ht => expr names none (resolve names) ht.framed ht.frame ht.bears value) fun ty =>
      .branch ?_ (.pure _)
    intro s s₀ halike htable
    exact .ok { halike with table := congrArg (·.setTypeIn rootBlock name ty) halike.table }
      (htable.setTypeIn (hassigned name rfl) ty)

theorem items {assigned : List Ident} (is : List Item) (hassigned : Program.assigned is ⊆ assigned) :
    Parallel values (AtRoot values assigned) (Check.items names (Program.fold values is)) (Check.items names is) := by
  induction is with
  | nil => exact .pure _
  | cons i is ih =>
    rw [Program.fold, List.map_cons, Check.items, Check.items]
    refine .bind (item names i fun name hname => hassigned ?_) fun _ => ih fun name hname => hassigned ?_
    · exact List.mem_filterMap.2 ⟨i, List.mem_cons_self, hname⟩
    · obtain ⟨i', hmem, hi'⟩ := List.mem_filterMap.1 hname
      exact List.mem_filterMap.2 ⟨i', List.mem_cons_of_mem _ hmem, hi'⟩

theorem resolveAll {assigned : List Ident} (keys : List FunctionKey) :
    Parallel values (AtRoot values assigned) (Check.resolveAll names keys) (Check.resolveAll names keys) := by
  induction keys with
  | nil => exact .pure _
  | cons key keys ih =>
    exact .bind (of_kept fun t ht => resolveOnce names ht.framed ht.bears key) fun _ => ih

/-- What the definitions of a program add to what is known of functions. -/
theorem addDefinitions (fs : List FunctionDef) :
    Parallel values P (modifyTyping fun t => (fs.map (FunctionDef.fold values)).foldl Typing.addDefinition t)
      (modifyTyping fun t => fs.foldl Typing.addDefinition t) := by
  intro s s₀ halike htable
  suffices h : ∀ (w w₀ : Typing), w.functions = w₀.functions.fold values → w.types = w₀.types →
      w.captures = w₀.captures →
      ((fs.map (FunctionDef.fold values)).foldl Typing.addDefinition w).functions =
          (fs.foldl Typing.addDefinition w₀).functions.fold values ∧
        ((fs.map (FunctionDef.fold values)).foldl Typing.addDefinition w).types =
          (fs.foldl Typing.addDefinition w₀).types ∧
        ((fs.map (FunctionDef.fold values)).foldl Typing.addDefinition w).captures =
          (fs.foldl Typing.addDefinition w₀).captures by
    obtain ⟨hfunctions, htypes, hcaptures⟩ := h _ _ halike.functions halike.types halike.captures
    exact .ok { halike with functions := hfunctions, types := htypes, captures := hcaptures } htable
  induction fs with
  | nil => exact fun w w₀ hfunctions htypes hcaptures => ⟨hfunctions, htypes, hcaptures⟩
  | cons f fs ih =>
    intro w w₀ hfunctions htypes hcaptures
    refine ih (w.addDefinition (f.fold values)) (w₀.addDefinition f) ?_ htypes hcaptures
    rw [Typing.addDefinition, Typing.addDefinition, hfunctions, FunctionDef.key_fold]
    exact FunctionTable.insert_fold values _ f.key ⟨some f, .pending⟩

/-- The check of a program with variables replaced is that of the program. -/
theorem program (p : Program) : Parallel values (AtRoot values p.assigned)
    (Check.program names (Program.fold values p)) (Check.program names p) := by
  unfold Check.program
  rw [Program.definitions_fold]
  refine .bind (addDefinitions _) fun _ => .bind (items names p (List.Subset.refl _)) fun _ =>
    .inspect fun s s₀ halike _ => ?_
  rw [halike.functions, FunctionTable.keys_fold]
  refine .bind (resolveAll names _) fun _ => .inspect fun s' s₀' halike' _ => ?_
  rw [halike'.functions, FunctionTable.length_fold, Program.fold, List.length_map]
  exact .note _ _

theorem entryPoint {assigned : List Ident} (name : Ident) (expected : FunctionType) :
    Parallel values (AtRoot values assigned) (Check.entryPoint names name expected)
      (Check.entryPoint names name expected) := by
  refine .inspect fun s s₀ halike _ => ?_
  rw [halike.table]
  cases s₀.table.find? rootBlock name with
  | none => exact .bind (.reportAt _ _ _) fun _ => .pure _
  | some d =>
    refine .branch (.bind (.reportAt _ _ _) fun _ => .pure _)
      (.branch (.bind (.reportAt _ _ _) fun _ => .pure _) ?_)
    refine .bind (of_kept fun t ht => signatureOf? (resolve names) ht.framed ht.bears d) fun signature? => ?_
    cases signature? with
    | none => exact .pure _
    | some signature => exact .reported _ _ _ (.reported _ _ _ (.pure _))

end Items

end Parallel

end Check

end ToneScript
