import ToneScript.Proofs.Depth.Bound
import ToneScript.Proofs.Run.Program

/-! What functions are invoked with. In every state that an evaluation comes to, the arguments of the calls that are under
way have filled the parameters that they go to, so that a function is invoked with one value for each of its parameters.
Only a host can invoke a function otherwise. -/
namespace ToneScript

/-- Whether values are those that a call gives to parameters, one each: a parameter that an argument goes to gets a value
of its own, and every other gets its default. -/
structure CallSite.Gives (site : CallSite) (params : List (Ident × Option Number)) (values : List Value) : Prop where
  length : values.length = params.length
  filled : ∃ slots : List (Option Value),
    SiteArgument.bindAll? params site.style (params.map fun _ => false) 0 site.args = some (slots.map Option.isSome) ∧
      List.zipWith (fun param slot => slot.or (param.2.map Value.number)) params slots = values.map some

namespace Machine

open Activation (context placeOf argumentValue fillDefaults)

variable {names : NameTable} {max : Nat} {s t : State}

/-- A call whose arguments have filled the parameters that they go to, as far as they were evaluated. -/
structure Pending.Fills (call : Pending) : Prop where
  length : call.slots.length = call.callable.params.length
  rest : SiteArgument.bindAll? call.callable.params call.site.style (call.slots.map Option.isSome) call.next call.args =
    SiteArgument.bindAll? call.callable.params call.site.style (call.callable.params.map fun _ => false) 0 call.site.args

/-- What waits for an argument of a call, of which the place is known. -/
def Waiting.Fills (names : NameTable) : Waiting → Prop
  | argument call arg place =>
    placeOf (context names 0) call.site.callee call.site.style call.callable.params call.slots call.next arg =
        .ok place ∧
      { call with args := arg :: call.args }.Fills
  | sequence _ | cells .. | prefixed _ | right .. | operation .. | branches .. | guard .. | entry .. | block
  | leave => True

/-- A function is invoked with what a call gives to its parameters. -/
def Control.Fills : Control → Prop
  | arguments call => call.Fills
  | invoke callable _ values _ => ∃ site : CallSite, site.Gives callable.params values
  | expr .. | cells .. | entries .. | done _ => True

/-- A state in which all calls that are under way have filled the parameters of their functions. -/
structure State.Fills (names : NameTable) (s : State) : Prop where
  control : s.control.Fills
  waiting : ∀ w ∈ s.waiting, w.Fills names

namespace State.Fills

theorem next (hs : ∀ w ∈ s.waiting, w.Fills names) {control : Control} (hc : control.Fills) :
    (s.next control).Fills names :=
  ⟨hc, hs⟩

theorem hold (hs : ∀ w ∈ s.waiting, w.Fills names) {w : Waiting} (hw : w.Fills names) {control : Control}
    (hc : control.Fills) : ((s.hold w).next control).Fills names :=
  ⟨hc, List.forall_mem_cons.2 ⟨hw, hs⟩⟩

theorem orDone (hs : ∀ w ∈ s.waiting, w.Fills names) {α : Type} {x : Except EvalError α} {go : α → State}
    (h : ∀ a, x = .ok a → (go a).Fills names) : (s.orDone x go).Fills names := by
  cases x with
  | ok a => exact h a rfl
  | error e => exact next hs (by trivial)

/-- A call begins with the slots of all parameters empty. -/
theorem begin (hs : ∀ w ∈ s.waiting, w.Fills names) (chain : Chain) (site : CallSite) :
    (begin names s chain site).Fills names := by
  unfold Machine.begin
  split
  · exact next hs (by trivial)
  · split
    · exact next hs (by trivial)
    · refine next hs ⟨List.length_map _, ?_⟩
      rw [List.map_map]
      rfl

theorem stepExpr (hs : ∀ w ∈ s.waiting, w.Fills names) (chain : Chain) (e : Expr) :
    (stepExpr names s chain e).Fills names := by
  cases e with
  | span | prefixed | binary | conditional | block => exact hold hs (by trivial) (by trivial)
  | number | boolean => exact next hs (by trivial)
  | call site => exact begin hs chain site
  | var name =>
    rw [Machine.stepExpr]
    split <;> exact next hs (by trivial)

theorem stepCells (hs : ∀ w ∈ s.waiting, w.Fills names) (chain : Chain) (stack : List Value) (cells : List Cell) :
    (stepCells names s chain stack cells).Fills names := by
  cases cells with
  | nil => exact next hs (by trivial)
  | cons cell rest =>
    cases cell with
    | value | left | right => exact next hs (by trivial)
    | slot | operator => exact orDone hs fun _ _ => next hs (by trivial)
    | call site => exact begin (s := s.hold (.cells chain stack rest)) (List.forall_mem_cons.2 ⟨trivial, hs⟩) chain site

theorem stepEntries (hs : ∀ w ∈ s.waiting, w.Fills names) (inner : Frame) (chain : Chain) (result : Value)
    (items : List BlockEntry) : (stepEntries s inner chain result items).Fills names := by
  cases items with
  | nil => exact next hs (by trivial)
  | cons item items =>
    cases item with
    | closure => exact next hs (by trivial)
    | operator op value guard? => cases guard? <;> exact hold hs (by trivial) (by trivial)

/-- When there are no more arguments, the parameters without values get their defaults. -/
theorem stepArguments (hs : ∀ w ∈ s.waiting, w.Fills names) {call : Pending} (hcall : call.Fills) :
    (stepArguments names s call).Fills names := by
  obtain ⟨chain, site, callable, home, slots, place, args⟩ := call
  cases args with
  | nil =>
    refine orDone hs fun values hvalues => next hs ⟨site, ?_, slots, hcall.rest.symm, ?_⟩
    · exact (Activation.fillDefaults_spec hvalues hcall.length).1
    · exact ((Activation.fillDefaults_eq_ok_iff hcall.length).1 hvalues).symm
  | cons arg args =>
    refine orDone hs fun place' hplace => ?_
    have hargument : (Waiting.argument ⟨chain, site, callable, home, slots, place, args⟩ arg place').Fills names :=
      ⟨hplace, hcall⟩
    exact ⟨trivial, List.forall_mem_cons.2 ⟨trivial, List.forall_mem_cons.2 ⟨hargument, hs⟩⟩⟩

/-- A function that is entered has no call under way yet. -/
theorem stepInvoke (hs : ∀ w ∈ s.waiting, w.Fills names) (callable : Callable) (home? : Option Chain)
    (args : List Value) (pos : Position) : (stepInvoke names max s callable home? args pos).Fills names := by
  unfold Machine.stepInvoke
  split
  · exact next hs (by trivial)
  · refine ⟨?_, List.forall_mem_cons.2 ⟨trivial, hs⟩⟩
    cases callable with
    | intrinsic i params => trivial
    | defined f => cases home? <;> trivial

/-- The value of an argument fills the slot of its parameter. -/
theorem resume (hs : ∀ w ∈ s.waiting, w.Fills names) (outcome : Except EvalError Value) {w : Waiting}
    (hw : w.Fills names) : (resume names s outcome w).Fills names := by
  cases w with
  | leave => exact ⟨trivial, hs⟩
  | sequence | prefixed | operation | block => exact next hs (by trivial)
  | cells | branches | entry => exact orDone hs fun _ _ => next hs (by trivial)
  | right => exact orDone hs fun _ _ => hold hs (by trivial) (by trivial)
  | guard =>
    refine orDone hs fun v _ => ?_
    split
    · exact hold hs (by trivial) (by trivial)
    · exact next hs (by trivial)
  | argument call arg place =>
    obtain ⟨hplace, hcall⟩ := hw
    refine orDone hs fun v hv => next hs ⟨?_, ?_⟩
    · exact List.length_set.trans hcall.length
    -- The argument is bound, and the rest are bound as before.
    · obtain ⟨v', _, hvalue⟩ := bind_eq_ok.1 hv
      exact (Activation.bindAll?_of_placeOf hplace hvalue).symm.trans hcall.rest

theorem step (hs : s.Fills names) (h : step names max s = some t) : t.Fills names := by
  obtain ⟨control, waiting, depth⟩ := s
  obtain ⟨hcontrol, hwaiting⟩ := hs
  cases control with
  | expr chain e =>
    cases h
    exact stepExpr hwaiting chain e
  | cells chain stack rest =>
    cases h
    exact stepCells hwaiting chain stack rest
  | entries inner chain result items =>
    cases h
    exact stepEntries hwaiting inner chain result items
  | arguments call =>
    cases h
    exact stepArguments hwaiting hcontrol
  | invoke callable home? args pos =>
    cases h
    exact stepInvoke hwaiting callable home? args pos
  | done outcome =>
    cases waiting with
    | nil => cases h
    | cons w waiting =>
      cases h
      obtain ⟨hw, hwaiting⟩ := List.forall_mem_cons.1 hwaiting
      exact resume (s := ⟨.done outcome, waiting, depth⟩) hwaiting outcome hw

theorem reaches (hs : s.Fills names) (h : Reaches names max s t) : t.Fills names := by
  induction h with
  | refl => exact hs
  | tail _ hstep ih => exact ih.step hstep

end State.Fills

/-- A run that comes to an outcome, in which every function that is invoked, but for one that the run may begin with,
gets what a call gives to its parameters. -/
structure RunFills (names : NameTable) (max : Nat) (control : Control) (outcome : Except EvalError Value) : Prop where
  outcome : Reaches names max ⟨control, [], 0⟩ ⟨.done outcome, [], 0⟩
  invoked : ∀ s, Reaches names max ⟨control, [], 0⟩ s → s = ⟨control, [], 0⟩ ∨ s.control.Fills

theorem runFills_expr (names : NameTable) (max : Nat) (chain : Chain) (e : Expr) :
    RunFills names max (.expr chain e) (Activation.expr (context names max) chain e) where
  outcome := expr_finishes (invokes names max 0) chain e ⟨.expr chain e, [], 0⟩ rfl
  invoked s hs := by
    have hstart : State.Fills names ⟨.expr chain e, [], 0⟩ := ⟨trivial, List.forall_mem_nil _⟩
    exact .inr (hstart.reaches hs).control

theorem runFills_call (e : EntryPoint) (time : Number) :
    RunFills e.names defaultDepth (.invoke e.callable (some [e.globals]) [.number time] .start) (e.callValue time) where
  outcome := call_reaches e time
  invoked s hs := by
    -- The host's own values are gone from the state after the first step, and no call is under way then.
    rcases Relation.ReflTransGen.cases_head hs with heq | ⟨t, hstep, hrest⟩
    · exact .inl heq.symm
    · have ht : State.Fills e.names t := by
        cases hstep
        exact State.Fills.stepInvoke (List.forall_mem_nil _) e.callable (some [e.globals]) [.number time] .start
      exact .inr (ht.reaches hrest).control

end Machine

namespace Compilation

open Machine (RunFills body)

variable {source : Source} {intrinsics strict : Bool} {main? : Option (String × FunctionType)} {e : EntryPoint}
  {c : Compilation}

/-- The entry point of a program has as many parameters as were asked for. -/
theorem arity_of_compile (hsize : source.text.length < UInt64.size)
    (h : compile.run (prepared source intrinsics main? strict) = (.ok (some e), c)) :
    ∃ f, e.callable = .defined f ∧ f.params.length = main?.elim 1 fun main => main.2.args.length := by
  obtain ⟨checked, htypecheck, hevaluated⟩ := evaluated_of_compile h
  have haccepted := accepted_prepared hsize htypecheck
  have hentry : checked.entry = (prepared source intrinsics main? strict).entry := by
    obtain ⟨hsource, hfresh⟩ := prepared_fresh source intrinsics main? strict
    exact (accepted hfresh (prepared_starts source intrinsics main? strict) (by rw [hsource]; exact hsize) htypecheck).2
  have hmeets := globalsTrace_meets False False (fun _ => True) haccepted nofun nofun defaultDepth
    fun _ _ => ⟨trivial, nofun⟩
  obtain ⟨hglobals, hlookup, _⟩ := evaluated_ok hevaluated
  rw [result_globalsTrace, hglobals] at hmeets
  obtain ⟨f, _, hfound, _, _, hparams, _⟩ := haccepted.findEntry hmeets.2.1 hmeets.2.2
  exact ⟨f, Option.some.inj (hlookup.symm.trans hfound), by rw [hparams, hentry, prepared_arity]⟩

/-- Within a program every function is invoked with one value for each of its parameters, from an argument or from its
default. A host invokes an entry point with the time and nothing else, whatever it was asked for with: no default is
filled in, and only the first parameter has a value in the frame of its body. -/
theorem runs_fill (hsize : source.text.length < UInt64.size)
    (h : compile.run (prepared source intrinsics main? strict) = (.ok (some e), c)) :
    (∀ names max chain value,
      RunFills names max (.expr chain value) (Activation.expr (Activation.context names max) chain value)) ∧
    (∀ time, RunFills e.names defaultDepth (.invoke e.callable (some [e.globals]) [.number time] .start)
      (e.callValue time)) ∧
    ∃ f, e.callable = .defined f ∧ f.params.length = (main?.elim 1 fun main => main.2.args.length) ∧
      ∀ time, body e.names e.callable (some [e.globals]) [.number time] =
        .expr [{ values := ((f.params.map Param.name).take 1).map fun name => (name, .number time) }, e.globals]
          f.body := by
  obtain ⟨f, hcallable, hparams⟩ := arity_of_compile hsize h
  refine ⟨Machine.runFills_expr, Machine.runFills_call e, f, hcallable, hparams, fun time => ?_⟩
  rw [hcallable, body, Callable.params, Frame.ofArguments]
  cases f.params with
  | nil => rfl
  | cons param params => simp

/-- A function of two parameters, the second of which has a default, and a call that leaves that one out. -/
def defaultedSource : Source :=
  .ofString "defaulted" "[f x, y = 2] x + y; z = f(1); [main a, b = 2] a + b"

theorem runs_fill_defaultedSource :
    let main := ("main", FunctionType.ofNumbers [0, 1] .number)
    ∃ e c f, compile.run (prepared defaultedSource true (some main) false) = (.ok (some e), c) ∧
      e.callable = .defined f ∧ f.params.length = 2 ∧
      (∀ value, RunFills e.names defaultDepth (.expr [e.globals] value)
        (Activation.expr (Activation.context e.names defaultDepth) [e.globals] value)) ∧
      ∃ error, e.callValue 1 = .error error := by
  intro main
  have hcompiled : (compile.run (prepared defaultedSource true (some main) false)).1.toOption.any Option.isSome =
      true := by
    decide +kernel
  obtain ⟨e, c, hcompile⟩ := exists_compile hcompiled
  obtain ⟨hruns, _, f, hcallable, hparams, _⟩ := runs_fill (by decide) hcompile
  refine ⟨e, c, f, hcompile, hcallable, hparams, fun value => hruns _ _ _ value, ?_⟩
  have hfails : (compile.run (prepared defaultedSource true (some main) false)).1.toOption.any
      (·.any fun e => (e.callValue 1).isOk) = false := by
    decide +kernel
  rw [hcompile] at hfails
  cases hcall : e.callValue 1 with
  | ok v =>
    have hok : (e.callValue 1).isOk = false := hfails
    rw [hcall] at hok
    cases hok
  | error error => exact ⟨error, rfl⟩

end Compilation
end ToneScript
