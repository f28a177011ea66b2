import ToneScript.Proofs.Syntax.Rule
import ToneScript.Typing.Checker

/-! Runs of the steps of a check. A step runs as its parts do one after another, so that a check has every property that
its simplest steps have. -/
namespace ToneScript

namespace Check

variable {α β : Type}

theorem run_bind_ok {x : Step α} {f : α → Step β} {s s' : State} {b : β}
    (h : (x >>= f).run s = .ok (b, s')) :
    ∃ a mid, x.run s = .ok (a, mid) ∧ (f a).run mid = .ok (b, s') := by
  rw [StateT.run_bind] at h
  cases hx : x.run s with
  | error e => simp [hx, bind, Except.bind] at h
  | ok result =>
    rw [hx] at h
    exact ⟨result.1, result.2, rfl, h⟩

theorem run_bind_eq {x : Step α} {f : α → Step β} {s s' : State} {a : α} (h : x.run s = .ok (a, s')) :
    (x >>= f).run s = (f a).run s' := by
  rw [StateT.run_bind, h]
  rfl

theorem inScope_ok {enter : SymbolTable → SymbolTable} {step : Step α} {s s' : State} {a : α}
    (h : (inScope enter step).run s = .ok (a, s')) :
    ∃ mid table, step.run { s with table := enter s.table } = .ok (a, mid) ∧
      mid.table.leave = .ok table ∧ s' = { mid with table } := by
  unfold inScope at h
  obtain ⟨⟨⟩, s₁, henter, h₁⟩ := run_bind_ok h
  obtain ⟨a', s₂, hstep, h₂⟩ := run_bind_ok h₁
  obtain ⟨s₃, s₄, hget, h₃⟩ := run_bind_ok h₂
  cases henter
  cases hget
  split at h₃
  · rename_i table hleave
    obtain ⟨⟨⟩, s₅, hmodify, h₄⟩ := run_bind_ok h₃
    cases hmodify
    cases h₄
    exact ⟨s₂, table, hstep, hleave, rfl⟩
  · cases h₃

theorem inScope_run (enter : SymbolTable → SymbolTable) {step : Step α} {s mid : State} {a : α}
    (h : step.run { s with table := enter s.table } = .ok (a, mid))
    (hleave : mid.table.leave = .ok s.table) :
    (inScope enter step).run s = .ok (a, { mid with table := s.table }) := by
  have hmodify : (modify fun s => { s with table := enter s.table } : Step PUnit).run s =
      .ok ((), { s with table := enter s.table }) := rfl
  have hget : (get : Step State).run mid = .ok (mid, mid) := rfl
  rw [inScope, run_bind_eq hmodify, run_bind_eq h, run_bind_eq hget, hleave]
  rfl

/-- A step that fails within blocks fails. -/
theorem inScope_error (enter : SymbolTable → SymbolTable) {step : Step α} {s : State} {d : Defect}
    (h : step.run { s with table := enter s.table } = .error d) : (inScope enter step).run s = .error d := by
  have hmodify : (modify fun s => { s with table := enter s.table } : Step PUnit).run s =
      .ok ((), { s with table := enter s.table }) := rfl
  rw [inScope, run_bind_eq hmodify, StateT.run_bind, h]
  rfl

theorem discard_ok {x : Step α} {s s' : State} {u : Unit}
    (h : (discard x : Step Unit).run s = .ok (u, s')) : ∃ a, x.run s = .ok (a, s') := by
  have hmap : (discard x : Step Unit).run s = (fun r => ((), r.2)) <$> x.run s := rfl
  rw [hmap] at h
  cases hx : x.run s with
  | error e =>
    rw [hx] at h
    cases h
  | ok r =>
    rw [hx] at h
    cases h
    exact ⟨r.1, rfl⟩

theorem discard_run {x : Step α} {s s' : State} {a : α} (h : x.run s = .ok (a, s')) :
    (discard x : Step Unit).run s = .ok ((), s') := by
  have hmap : (discard x : Step Unit).run s = (fun r => ((), r.2)) <$> x.run s := rfl
  rw [hmap, h]
  rfl

section Calls

variable (names : NameTable) (site : CallSite)

/-- The check of the arguments of a call, out of the one by order and the one by name. It says which parameters have got
a value. -/
def checkGiven (count : Nat) (ordered : Step Unit) (named : Signature → List Bool → Step (List Bool))
    (signature : Signature) : Step (List Bool) :=
  match site.style with
  | .ordered => do
    if signature.arity < count then
      reportAt names (some site.pos) (.tooManyArguments site.callee signature.arity count)
    ordered
    return (signature.type.args.map fun _ => false).mapIdx fun i _ => decide (i < count)
  | .named => named signature (signature.type.args.map fun _ => false)

/-- The end of the check of a call, where all arguments have been seen. -/
def finishCall (signature : Signature) (bound : List Bool) : Step Ty := do
  checkMissing names site.callee site.pos signature.type.args signature.defaults bound
  setType site.pos signature.type.returns
  return signature.type.returns

/-- The check of a call from where its function has been looked for. -/
def checkCall (count : Nat) (ordered : Step Unit) (named : Signature → List Bool → Step (List Bool)) :
    Option Signature → Step Ty
  | none => do
    setType site.pos .indeterminate
    return .indeterminate
  | some signature => do
    if signature.failed then poison
    let bound ← checkGiven names site count ordered named signature
    finishCall names site signature bound

theorem expr_call_eq (resolve : Resolver) (frame? : Option Frame) (args : List Argument) :
    expr names resolve frame? (.call site args) =
      calleeSignature? names resolve frame? site.callee site.pos >>=
        checkCall names site args.length (orderedArguments names resolve frame? site.callee 0 args)
          fun signature bound => namedArguments names resolve frame? site.callee signature bound args := by
  rw [expr]
  refine bind_congr fun signature? => ?_
  cases signature? with
  | none => exact pure_bind ..
  | some signature =>
    unfold checkCall checkGiven finishCall
    cases site.style with
    | ordered =>
      by_cases hmany : signature.arity < args.length
      · simp only [if_pos hmany, bind_assoc, pure_bind]
      · simp only [if_neg hmany, bind_assoc, pure_bind]
    | named => simp only [pure_bind]

end Calls

/-- A property of steps that all checks have because the simplest steps have it. -/
structure Law where
  holds : {α : Type} → Step α → Prop
  pure : ∀ {α : Type} (a : α), holds (pure a)
  get : holds get
  bind : ∀ {α β : Type} {x : Step α} {f : α → Step β}, holds x → (∀ a, holds (f a)) → holds (x >>= f)
  reportAt : ∀ (names : NameTable) (pos? : Option Position) (e : TypeError), holds (reportAt names pos? e)
  poison : holds poison
  setType : ∀ (pos : Position) (ty : Ty), holds (setType pos ty)
  capture : ∀ (key : FunctionKey) (name : Ident), holds (capture key name)

namespace Law

variable (law : Law) (names : NameTable)

/-- A step that is done only in some cases, before another one. -/
theorem guarded {p : Prop} [Decidable p] {x : Step Unit} {y : Step α} (hx : law.holds x) (hy : law.holds y) :
    law.holds (if p then (do x; y) else y) := by
  split
  · exact law.bind hx fun _ => hy
  · exact hy

/-- A step before which an error may be reported. -/
theorem reported {p : Prop} [Decidable p] (pos? : Option Position) (e : TypeError) {x : Step α} (hx : law.holds x) :
    law.holds (if p then (do Check.reportAt names pos? e; x) else x) :=
  law.guarded (law.reportAt names pos? e) hx

theorem typed (pos : Position) (ty : Ty) : law.holds (do Check.setType pos ty; Pure.pure ty) :=
  law.bind (law.setType pos ty) fun _ => law.pure ty

theorem lookup? (frame? : Option Frame) (name : Ident) (pos : Position) :
    law.holds (Check.lookup? frame? name pos) := by
  unfold Check.lookup?
  refine law.bind law.get fun s => ?_
  simp only
  split
  · exact law.pure _
  · split
    · split
      · exact law.bind (law.capture _ _) fun _ => law.pure _
      · exact law.pure _
    · exact law.pure _

theorem expect (role : Role) (expected actual : Ty) (pos : Position) :
    law.holds (Check.expect names role expected actual pos) := by
  unfold Check.expect
  split
  · exact law.reportAt names _ _
  · exact law.pure _

theorem variableType (frame? : Option Frame) (name : Ident) (pos : Position) :
    law.holds (Check.variableType names frame? name pos) := by
  unfold Check.variableType
  refine law.bind (law.lookup? _ _ _) fun d? => ?_
  split
  · exact law.bind (law.reportAt names _ _) fun _ => law.pure _
  · split
    · exact law.bind law.poison fun _ => law.pure _
    · exact law.bind (law.reportAt names _ _) fun _ => law.pure _
    · exact law.pure _

theorem binaryType (op : Operator) (pos : Position) (left right : Ty) (leftPos rightPos : Position) :
    law.holds (Check.binaryType names op pos left right leftPos rightPos) := by
  unfold Check.binaryType
  split
  · exact law.bind (law.expect names _ _ _ _) fun _ => law.bind (law.expect names _ _ _ _) fun _ => law.pure _
  split
  · split
    · exact law.bind (law.reportAt names _ _) fun _ => law.pure _
    · exact law.pure _
  · exact law.bind (law.expect names _ _ _ _) fun _ => law.bind (law.expect names _ _ _ _) fun _ => law.pure _

theorem checkMissing (callee : Ident) (pos : Position) (params : List (Ident × Ty))
    (defaults : List (Option Number)) (bound : List Bool) :
    law.holds (Check.checkMissing names callee pos params defaults bound) := by
  induction params generalizing defaults bound with
  | nil => exact law.pure _
  | cons param params ih =>
    cases defaults with
    | nil => exact law.pure _
    | cons default? defaults =>
      cases bound with
      | nil => exact law.pure _
      | cons b bounds =>
        unfold Check.checkMissing
        simp only
        split
        · exact law.bind (law.reportAt names _ _) fun _ => ih defaults bounds
        · exact ih defaults bounds

theorem checkForm (frame? : Option Frame) (callee : Ident) (signature : Signature) (name : Ident)
    (i : Nat) (arg : Argument) : law.holds (Check.checkForm names frame? callee signature name i arg) := by
  cases arg with
  | shorthand _ pos =>
    refine law.bind (law.lookup? _ _ _) fun d? => ?_
    split
    · exact law.reportAt names _ _
    · split
      · exact law.expect names _ _ _ _
      · exact law.pure _
  | opAssign _ op _ pos =>
    refine law.reported names _ _ ?_
    split
    · exact law.reportAt names _ _
    · exact law.pure _
  | assign | positional => exact law.pure _

theorem checkNamed (frame? : Option Frame) (callee : Ident) (signature : Signature)
    (bound : List Bool) (name : Ident) (arg : Argument) :
    law.holds (Check.checkNamed names frame? callee signature bound name arg) := by
  unfold Check.checkNamed
  split
  · exact law.bind (law.reportAt names _ _) fun _ => law.pure _
  · exact law.reported names _ _ (law.bind (law.checkForm names _ _ _ _ _ _) fun _ => law.pure _)

theorem finishCall (site : CallSite) (signature : Signature) (bound : List Bool) :
    law.holds (Check.finishCall names site signature bound) :=
  law.bind (law.checkMissing names _ _ _ _ _) fun _ => law.typed _ _

section Calls

variable (site : CallSite) (count : Nat) {ordered : Step Unit} {named : Signature → List Bool → Step (List Bool)}
  (hordered : law.holds ordered) (hnamed : ∀ signature bound, law.holds (named signature bound))
include hordered hnamed

theorem checkGiven (signature : Signature) : law.holds (Check.checkGiven names site count ordered named signature) := by
  unfold Check.checkGiven
  cases site.style with
  | ordered => exact law.reported names _ _ (law.bind hordered fun _ => law.pure _)
  | named => exact hnamed _ _

theorem checkCall (signature? : Option Signature) :
    law.holds (Check.checkCall names site count ordered named signature?) := by
  cases signature? with
  | none => exact law.typed _ _
  | some signature =>
    exact law.guarded law.poison (law.bind (law.checkGiven names site count hordered hnamed signature) fun _ =>
      law.finishCall names _ _ _)

end Calls

end Law

/-- A property of steps that the check of expressions has, if the search for signatures has it and the definitions in
blocks do, of functions that are known. -/
structure ExprLaw (names : NameTable) (resolve : Resolver) (known : FunctionDef → Prop) extends Law where
  enterBlock : ∀ {α : Type} {x : Step α} (key : BlockKey), holds x → holds (inScope (·.enterBlock key) x)
  signatureOf? : ∀ d, holds (signatureOf? resolve d)
  closure : ∀ (frame? : Option Frame) (f : FunctionDef) (pos : Position), known f →
    holds (entry names resolve frame? (.closure f pos))

namespace ExprLaw

variable {names : NameTable} {resolve : Resolver} {known : FunctionDef → Prop} (law : ExprLaw names resolve known)
  (frame? : Option Frame)

theorem calleeSignature? (callee : Ident) (pos : Position) :
    law.holds (Check.calleeSignature? names resolve frame? callee pos) := by
  unfold Check.calleeSignature?
  refine law.bind (law.lookup? _ _ _) fun d? => ?_
  split
  · exact law.bind (law.reportAt _ _ _) fun _ => law.pure _
  · split
    · exact law.signatureOf? _
    · exact law.bind (law.reportAt _ _ _) fun _ => law.pure _

mutual

theorem expr (e : Expr) {p : List BlockKey} (h : e.Obeys (.defining known) p) :
    law.holds (Check.expr names resolve frame? e) := by
  cases e with
  | span compiled tree =>
    rw [Check.expr]
    exact expr tree h
  | number value pos | boolean value pos =>
    rw [Check.expr]
    exact law.typed _ _
  | var name pos =>
    rw [Check.expr]
    exact law.bind (law.variableType names _ _ _) fun _ => law.typed _ _
  | prefixed op operand pos =>
    rw [Check.expr]
    exact law.bind (expr operand h) fun _ => law.bind (law.expect names _ _ _ _) fun _ =>
      law.typed _ _
  | binary op left right pos =>
    rw [Check.expr]
    exact law.bind (expr left h.1) fun _ => law.bind (expr right h.2) fun _ =>
      law.bind (law.binaryType names _ _ _ _ _ _) fun _ => law.typed _ _
  | block key items pos =>
    rw [Check.expr]
    exact law.bind (law.enterBlock key (entries items h.2)) fun _ => law.typed _ _
  | conditional condition thenBranch elseBranch pos =>
    obtain ⟨_, hcondition, hthen, helse⟩ := h
    rw [Check.expr]
    refine law.bind (expr condition hcondition) fun _ => law.bind (law.expect names _ _ _ _) fun _ =>
      law.bind (expr thenBranch hthen) fun _ => law.bind (expr elseBranch helse) fun _ => ?_
    exact law.reported names _ _ (law.typed _ _)
  | call site args =>
    rw [expr_call_eq]
    exact law.bind (law.calleeSignature? frame? _ _) (law.checkCall names site args.length (orderedArguments site.callee 0 args h.2)
      fun signature bound => namedArguments site.callee signature bound args h.2)

theorem entries (items : List BlockEntry) {p : List BlockKey} (h : BlockEntry.AllObey (.defining known) p items) :
    law.holds (Check.entries names resolve frame? items) := by
  cases items with
  | nil => exact law.pure _
  | cons item items =>
    rw [Check.entries]
    exact law.bind (entry item h.1) fun _ => entries items h.2

theorem entry (item : BlockEntry) {p : List BlockKey} (h : item.Obeys (.defining known) p) :
    law.holds (Check.entry names resolve frame? item) := by
  cases item with
  | closure f pos => exact law.closure frame? f pos (FunctionDef.obeys_iff.1 h).1
  | operator op value guard pos =>
    obtain ⟨_, hvalue, hguard⟩ := h
    unfold Check.entry
    refine law.reported names _ _ (law.bind (expr value hvalue) fun _ => law.bind (law.expect names _ _ _ _) fun _ => ?_)
    cases guard with
    | none => exact law.pure _
    | some guard => exact law.bind (expr guard hguard) fun _ => law.expect names _ _ _ _

theorem orderedArguments (callee : Ident) (i : Nat) (args : List Argument) {p : List BlockKey}
    (h : Argument.AllObey (.defining known) p args) :
    law.holds (Check.orderedArguments names resolve frame? callee i args) := by
  cases args with
  | nil => exact law.pure _
  | cons arg args =>
    cases arg with
    | assign _ value _ | opAssign _ _ value _ | positional value _ =>
      rw [Check.orderedArguments]
      exact law.bind (expr value h.1) fun _ => law.bind (law.expect names _ _ _ _) fun _ =>
        orderedArguments callee (i + 1) args h.2
    | shorthand name pos =>
      rw [Check.orderedArguments]
      exact orderedArguments callee (i + 1) args h.2

theorem namedArguments (callee : Ident) (signature : Signature) (bound : List Bool) (args : List Argument)
    {p : List BlockKey} (h : Argument.AllObey (.defining known) p args) :
    law.holds (Check.namedArguments names resolve frame? callee signature bound args) := by
  cases args with
  | nil => exact law.pure _
  | cons arg args =>
    cases arg with
    | assign name value pos | opAssign name op value pos =>
      rw [Check.namedArguments]
      exact law.bind (expr value h.1) fun _ => law.bind (law.expect names _ _ _ _) fun _ =>
        law.bind (law.checkNamed names _ _ _ _ _ _) fun _ => namedArguments callee signature _ args h.2
    | shorthand name pos =>
      rw [Check.namedArguments]
      exact law.bind (law.checkNamed names _ _ _ _ _ _) fun _ => namedArguments callee signature _ args h.2
    | positional value pos =>
      rw [Check.namedArguments]
      exact namedArguments callee signature _ args h.2

end

theorem entryPoint (law : ExprLaw names (Check.resolve names) known) (name : Ident) (expected : FunctionType) :
    law.holds (Check.entryPoint names name expected) := by
  unfold Check.entryPoint
  refine law.bind law.get fun s => ?_
  split
  · exact law.bind (law.reportAt _ _ _) fun _ => law.pure _
  split
  · exact law.bind (law.reportAt _ _ _) fun _ => law.pure _
  split
  · exact law.bind (law.reportAt _ _ _) fun _ => law.pure _
  refine law.bind (law.signatureOf? _) fun signature? => ?_
  split
  · exact law.pure _
  · exact law.reported names _ _ (law.reported names _ _ (law.pure _))

end ExprLaw

end Check
end ToneScript
