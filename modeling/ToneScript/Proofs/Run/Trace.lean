import ToneScript.Compilation.EntryPoint
import ToneScript.Proofs.Syntax.Rule

/-! Runs with a trace of what happens in them. How a variable is read is left open, so that different ways to
read can be compared; where variables are looked up by name, the result is that of the plain evaluation. -/
namespace ToneScript

/-- Where something is evaluated: the blocks around it, innermost first, and the frames for them. -/
structure Scene where
  scope : List BlockKey
  chain : Chain

/-- What can happen in a run. -/
inductive Event where
  /-- A variable is looked for. -/
  | read (scene : Scene) (name : Ident) (pos : Position) (value? : Option Value)
  /-- A call begins. -/
  | called (scene : Scene) (site : CallSite)
  /-- The parameters of a function of the program get their values. -/
  | bound (f : FunctionDef) (args : List Value)
  /-- A function of the program returns. -/
  | completed (f : FunctionDef) (v : Value)
  /-- The condition of a conditional or the guard of an entry has a value. -/
  | tested (v : Value)
  /-- A name gets its value at the outermost level. -/
  | assigned (name : Ident) (v : Value)

/-- A run: what happens in it, and how it ends. -/
structure Traced (α : Type) where
  events : List Event
  result : Except EvalError α

namespace Traced

variable {α β : Type}

/-- A run in which nothing happens. -/
def ofResult (result : Except EvalError α) : Traced α :=
  ⟨[], result⟩

/-- A run of one event. -/
def record (event : Event) : Traced Unit :=
  ⟨[event], .ok ()⟩

/-- One run after another, unless the first one fails. -/
def bind (x : Traced α) (f : α → Traced β) : Traced β :=
  match x.result with
  | .ok a => ⟨x.events ++ (f a).events, (f a).result⟩
  | .error e => ⟨x.events, .error e⟩

instance : Monad Traced where
  pure a := ofResult (.ok a)
  bind := bind

/-- Changes the error of a run. -/
def mapError (f : EvalError → EvalError) (x : Traced α) : Traced α :=
  ⟨x.events, x.result.mapError f⟩

@[simp] theorem result_pure (a : α) : (pure a : Traced α).result = .ok a := rfl

@[simp] theorem result_ofResult (result : Except EvalError α) : (ofResult result).result = result := rfl

@[simp] theorem result_record (event : Event) : (record event).result = .ok () := rfl

@[simp] theorem result_mapError (f : EvalError → EvalError) (x : Traced α) :
    (x.mapError f).result = x.result.mapError f := rfl

@[simp] theorem result_bind (x : Traced α) (f : α → Traced β) :
    (x >>= f).result = x.result >>= fun a => (f a).result := by
  show (x.bind f).result = _
  unfold bind
  cases x.result <;> rfl

theorem bind_of_ok {x : Traced α} {a : α} (h : x.result = .ok a) (f : α → Traced β) :
    x >>= f = ⟨x.events ++ (f a).events, (f a).result⟩ := by
  show x.bind f = _
  rw [bind, h]

theorem bind_of_error {x : Traced α} {e : EvalError} (h : x.result = .error e) (f : α → Traced β) :
    x >>= f = ⟨x.events, .error e⟩ := by
  show x.bind f = _
  rw [bind, h]

end Traced

/-- A way to read a variable. -/
abbrev Reader := Scene → Ident → Position → Option Value

/-- Reads a variable in the innermost frame that has one of its name. -/
def Reader.byName : Reader :=
  fun scene name _ => scene.chain.lookup name

/-- What stays the same while an expression is evaluated with a trace. -/
structure Tracer where
  names : NameTable
  read : Reader
  invoke : Callable → Chain → List Value → Position → Traced Value

namespace Tracer

/-- The same without the trace. -/
def context (t : Tracer) : Activation.Context where
  names := t.names
  invoke callable home args pos := (t.invoke callable home args pos).result

/-- Reads a variable. -/
def readVariable (t : Tracer) (scene : Scene) (name : Ident) (pos : Position) (e : EvalError) : Traced Value := do
  let value? := t.read scene name pos
  Traced.record (.read scene name pos value?)
  match value? with
  | some v => pure v
  | none => .ofResult (.error e)

mutual

/-- Evaluates the rest of a sequence on a stack. -/
def cells (t : Tracer) (scene : Scene) : List Value → List Cell → Traced Value
  | stack, [] => .ofResult (Postfix.finish stack)
  | stack, cell :: rest =>
    match cell with
    | .value v _ => cells t scene (v :: stack) rest
    | .slot id pos => do
      let v ← t.readVariable scene id pos (.located pos (.unboundSlot id))
      cells t scene (v :: stack) rest
    | .call site => do
      let v ← call t scene site
      cells t scene (v :: stack) rest
    | .operator op pos => do
      let stack ← Traced.ofResult (Postfix.applyOperator op pos stack)
      cells t scene stack rest
    | .left pos => .ofResult (.error (.located pos .parenthesis))
    | .right pos => .ofResult (.error (.located pos .parenthesis))

/-- Evaluates an expression in operand-first order. -/
def compiled (t : Tracer) (scene : Scene) : Compiled → Traced Value
  | ⟨sequence, pos⟩ => (cells t scene [] sequence).mapError (·.orAt pos)

/-- Performs a call. -/
def call (t : Tracer) (scene : Scene) : CallSite → Traced Value
  | ⟨callee, style, args, pos⟩ => do
    Traced.record (.called scene ⟨callee, style, args, pos⟩)
    match scene.chain.findFunction? callee with
    | none => .ofResult (.error (.located pos (.undefinedFunction (t.names.name callee))))
    | some (callable, home) =>
      let params := callable.params
      if style = .ordered ∧ params.length < args.length then
        .ofResult (.error (.located pos (.tooManyArguments (t.names.name callee))))
      else
        let slots ← arguments t scene callee style params (params.map fun _ => none) 0 args
        let values ← Traced.ofResult (Activation.fillDefaults t.context callee pos params slots)
        t.invoke callable home values pos

/-- Puts the values of arguments into the slots of their parameters. -/
def arguments (t : Tracer) (scene : Scene) (callee : Ident) (style : CallStyle)
    (params : List (Ident × Option Number)) (slots : List (Option Value)) (i : Nat) :
    List SiteArgument → Traced (List (Option Value))
  | [] => pure slots
  | arg :: args => do
    let place ← Traced.ofResult (Activation.placeOf t.context callee style params slots i arg)
    let v ← argument t scene arg
    let v ← Traced.ofResult (Activation.argumentValue t.context ((params[place]?).bind Prod.snd) arg v)
    arguments t scene callee style params (slots.set place (some v)) (i + 1) args

/-- The value of the expression of an argument. -/
def argument (t : Tracer) (scene : Scene) : SiteArgument → Traced Value
  | .shorthand _ value _ => compiled t scene value
  | .assign _ value _ => compiled t scene value
  | .opAssign _ _ value _ => compiled t scene value
  | .positional value _ => compiled t scene value

end

mutual

/-- Evaluates an expression. -/
def expr (t : Tracer) (scene : Scene) : Expr → Traced Value
  | .span sequence _ => t.compiled scene sequence
  | .number x _ => pure (.number x)
  | .boolean b _ => pure (.boolean b)
  | .var name pos =>
    t.readVariable scene name pos (.located pos (.undefinedVariable (t.names.name name)))
  | .prefixed op operand _ => do
    let v ← expr t scene operand
    return op.applyPrefix v
  | .binary op left right _ => do
    let l ← expr t scene left
    let r ← expr t scene right
    return op.applyBinary l r
  | .call site _ => t.call scene site
  | .conditional condition thenBranch elseBranch _ => do
    let v ← expr t scene condition
    Traced.record (.tested v)
    if v.truthy then expr t scene thenBranch else expr t scene elseBranch
  | .block key items _ => do
    let result ← entries t (key :: scene.scope) {} scene.chain (.number 0) items
    return .number result.toNumber

/-- Gathers up the entries of a block, given its frame and the result so far. -/
def entries (t : Tracer) (scope : List BlockKey) (inner : Frame) (chain : Chain) (result : Value) :
    List BlockEntry → Traced Value
  | [] => pure result
  | .closure f _ :: items =>
    entries t scope (inner.setFunction f.name (.defined f)) chain result items
  | .operator op value none _ :: items => do
    let v ← expr t ⟨scope, inner :: chain⟩ value
    entries t scope inner chain (op.applyBinary result v) items
  | .operator op value (some guard) _ :: items => do
    let g ← expr t ⟨scope, inner :: chain⟩ guard
    Traced.record (.tested g)
    if g.truthy then
      let v ← expr t ⟨scope, inner :: chain⟩ value
      entries t scope inner chain (op.applyBinary result v) items
    else entries t scope inner chain result items

end

/-- Invokes a function when calls may nest `depth` more levels. -/
def invokeWith (names : NameTable) (read : Reader) :
    (depth : Nat) → Callable → Chain → List Value → Position → Traced Value
  | 0, _, _, _, pos => .ofResult (.error (.located pos .depthExceeded))
  | _ + 1, .intrinsic i _, _, args, _ => pure (i.apply args)
  | depth + 1, .defined f, home, args, _ => do
    Traced.record (.bound f args)
    let v ← expr ⟨names, read, invokeWith names read depth⟩
      ⟨f.inside, .ofArguments (Callable.defined f).params args :: home⟩ f.body
    Traced.record (.completed f v)
    return v

/-- The tracer with which calls may nest `depth` levels. -/
def ofDepth (names : NameTable) (read : Reader) (depth : Nat) : Tracer :=
  ⟨names, read, invokeWith names read depth⟩

/-- Evaluates the items of a program in order into a frame. -/
def items (t : Tracer) (globals : Frame) : List Item → Traced Frame
  | [] => pure globals
  | .function f _ :: is => items t (globals.setFunction f.name (.defined f)) is
  | .assignment name value _ :: is => do
    let v ← t.expr ⟨[rootBlock], [globals]⟩ value
    Traced.record (.assigned name v)
    items t (globals.setVariable name v) is

section ByName

variable {t : Tracer} {scene : Scene}

theorem result_readVariable (hread : t.read = .byName) (name : Ident) (pos : Position) (e : EvalError) :
    (t.readVariable scene name pos e).result =
      match scene.chain.lookup name with
      | some v => .ok v
      | none => .error e := by
  unfold readVariable
  rw [hread, Reader.byName]
  cases scene.chain.lookup name <;> rfl

mutual

theorem result_cells (hread : t.read = .byName) (stack : List Value) (sequence : List Cell) :
    (t.cells scene stack sequence).result = Activation.cells t.context scene.chain stack sequence := by
  cases sequence with
  | nil => simp only [cells, Activation.cells, Traced.result_ofResult]
  | cons cell rest =>
    have hrest (stack' : List Value) := result_cells hread stack' rest
    cases cell with
    | value v pos => simp only [cells, Activation.cells, hrest]
    | slot name pos =>
      simp only [cells, Activation.cells, Traced.result_bind, result_readVariable hread, hrest]
      rfl
    | call site =>
      simp only [cells, Activation.cells, Traced.result_bind, result_call hread site, hrest]
    | operator op pos =>
      simp only [cells, Activation.cells, Traced.result_bind, Traced.result_ofResult, hrest]
    | left pos | right pos => simp only [cells, Activation.cells, Traced.result_ofResult]

theorem result_compiled (hread : t.read = .byName) (e : Compiled) :
    (t.compiled scene e).result = Activation.compiled t.context scene.chain e := by
  obtain ⟨sequence, pos⟩ := e
  simp only [compiled, Activation.compiled, Traced.result_mapError, result_cells hread [] sequence]

theorem result_call (hread : t.read = .byName) (site : CallSite) :
    (t.call scene site).result = Activation.call t.context scene.chain site := by
  obtain ⟨callee, style, args, pos⟩ := site
  have hargs (params : List (Ident × Option Number)) (slots : List (Option Value)) :=
    result_arguments hread callee style params slots 0 args
  simp only [call, Activation.call, Traced.result_bind, Traced.result_record]
  cases scene.chain.findFunction? callee with
  | none => rfl
  | some found =>
    obtain ⟨callable, home⟩ := found
    by_cases hmany : style = .ordered ∧ callable.params.length < args.length
    · simp only [if_pos hmany]
      rfl
    · simp only [if_neg hmany, Traced.result_bind, Traced.result_ofResult, hargs]
      rfl

theorem result_arguments (hread : t.read = .byName) (callee : Ident) (style : CallStyle)
    (params : List (Ident × Option Number)) (slots : List (Option Value)) (i : Nat)
    (args : List SiteArgument) :
    (t.arguments scene callee style params slots i args).result =
      Activation.arguments t.context scene.chain callee style params slots i args := by
  cases args with
  | nil => simp only [arguments, Activation.arguments, Traced.result_pure]
  | cons arg args =>
    have hargs (slots' : List (Option Value)) :=
      result_arguments hread callee style params slots' (i + 1) args
    simp only [arguments, Activation.arguments, Traced.result_bind, Traced.result_ofResult,
      result_argument hread arg, hargs]

theorem result_argument (hread : t.read = .byName) (arg : SiteArgument) :
    (t.argument scene arg).result = Activation.argument t.context scene.chain arg := by
  cases arg with
  | shorthand _ value _ | assign _ value _ | opAssign _ _ value _ | positional value _ =>
    simp only [argument, Activation.argument, result_compiled hread value]

end

mutual

theorem result_expr (hread : t.read = .byName) (scene : Scene) (e : Expr) :
    (t.expr scene e).result = Activation.expr t.context scene.chain e := by
  cases e with
  | span sequence tree => simp only [expr, Activation.expr, result_compiled hread]
  | number | boolean => simp only [expr, Activation.expr, Traced.result_pure]
  | var name pos =>
    simp only [expr, Activation.expr, result_readVariable hread]
    rfl
  | prefixed op operand pos =>
    simp only [expr, Activation.expr, Traced.result_bind, Traced.result_pure, result_expr hread scene operand]
    rfl
  | binary op left right pos =>
    simp only [expr, Activation.expr, Traced.result_bind, Traced.result_pure, result_expr hread scene left,
      result_expr hread scene right]
    rfl
  | call site args => simp only [expr, Activation.expr, result_call hread]
  | conditional c e e' pos =>
    simp only [expr, Activation.expr, Traced.result_bind, Traced.result_record, result_expr hread scene c]
    refine congrArg _ (funext fun v => ?_)
    show Traced.result _ = _
    split
    · exact result_expr hread scene e
    · exact result_expr hread scene e'
  | block key items pos =>
    simp only [expr, Activation.expr, Traced.result_bind, Traced.result_pure,
      result_entries hread _ {} scene.chain _ items]
    rfl

theorem result_entries (hread : t.read = .byName) (scope : List BlockKey) (inner : Frame) (chain : Chain)
    (result : Value) (items : List BlockEntry) :
    (t.entries scope inner chain result items).result =
      Activation.entries t.context inner chain result items := by
  cases items with
  | nil => simp only [entries, Activation.entries, Traced.result_pure]
  | cons item items =>
    have hitems (inner' : Frame) (result' : Value) := result_entries hread scope inner' chain result' items
    cases item with
    | closure f pos => simp only [entries, Activation.entries, hitems]
    | operator op value guard pos =>
      have hvalue := result_expr hread ⟨scope, inner :: chain⟩ value
      cases guard with
      | none => simp only [entries, Activation.entries, Traced.result_bind, hvalue, hitems]
      | some g =>
        simp only [entries, Activation.entries, Traced.result_bind, Traced.result_record,
          result_expr hread ⟨scope, inner :: chain⟩ g]
        refine congrArg _ (funext fun v => ?_)
        show Traced.result _ = _
        split
        · simp only [Traced.result_bind, hvalue, hitems]
        · exact hitems inner result

end

theorem result_invokeWith (names : NameTable) (depth : Nat) :
    (fun callable home args pos => (invokeWith names .byName depth callable home args pos).result) =
      Activation.invoke names depth := by
  induction depth with
  | zero => rfl
  | succ depth ih =>
    funext callable home args pos
    cases callable with
    | intrinsic i params => rfl
    | defined f =>
      have hbody := result_expr (t := ofDepth names .byName depth) rfl
        ⟨f.inside, .ofArguments (Callable.defined f).params args :: home⟩ f.body
      rw [context, ofDepth, ih] at hbody
      simp only [invokeWith, Traced.result_bind, Traced.result_record, Traced.result_pure]
      show Except.bind (Traced.result _) _ = _
      rw [hbody, Activation.invoke]
      cases Activation.expr ⟨names, Activation.invoke names depth⟩ _ f.body <;> rfl

/-- Where variables are looked up by name, items are evaluated as without a trace. -/
theorem result_items (names : NameTable) (depth : Nat) (globals : Frame) (is : List Item) :
    ((ofDepth names .byName depth).items globals is).result =
      (Compilation.evaluateItems names depth globals is).1.mapError (·.error) := by
  induction is generalizing globals with
  | nil => rfl
  | cons item is ih =>
    cases item with
    | function f pos => exact ih _
    | assignment name value pos =>
      have hvalue := result_expr (t := ofDepth names .byName depth) rfl ⟨[rootBlock], [globals]⟩ value
      have hcontext : (ofDepth names .byName depth).context = Activation.context names depth := by
        rw [context, ofDepth, Activation.context]
        exact congrArg _ (result_invokeWith names depth)
      rw [hcontext] at hvalue
      simp only [items, Traced.result_bind, Traced.result_record, ih, hvalue, Compilation.evaluateItems]
      cases Activation.expr (Activation.context names depth) [globals] value <;> rfl

end ByName

end Tracer
end ToneScript
