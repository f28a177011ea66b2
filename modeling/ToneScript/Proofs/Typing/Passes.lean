import ToneScript.Proofs.Typing.Growth

/-! What a check does with the functions of a program: which of them it turns to, in the order of time, and which bodies
it goes through. A body that is checked while another one is being checked comes after that one. -/
namespace ToneScript
namespace Check

variable {α : Type}

/-- What a check does with a function. -/
inductive Event where
  /-- A function is turned to, with what is known of its signature by then. -/
  | entered (key : FunctionKey) (progress : Progress)
  /-- The body of a function is checked, with what is known before and after. -/
  | checked (key : FunctionKey) (before after : Typing)
  /-- The body of a function is left unchecked, since too many others are in the middle of their checks. -/
  | abandoned (key : FunctionKey)

namespace Event

/-- The function that is turned to, and what is known of its signature. -/
def entered? : Event → Option (FunctionKey × Progress)
  | entered key progress => some (key, progress)
  | checked .. | abandoned _ => none

/-- The function whose body is checked. -/
def checked? : Event → Option FunctionKey
  | checked key _ _ => some key
  | entered .. | abandoned _ => none

end Event

/-- The events of what comes after a step, if the step goes well. -/
def eventsAfter (x : Step α) (rest : α → State → List Event) (s : State) : List Event :=
  match x.run s with
  | .ok (a, s') => rest a s'
  | .error _ => []

/-- The events of a resolver that is asked for a function. -/
abbrev Observer := FunctionKey → FunctionDef → State → List Event

section Events

variable (names : NameTable) (resolve : Resolver) (observe : Observer) (frame? : Option Frame)

/-- The events where a function is turned to. Its body is checked unless its signature is known or being looked for. -/
def turnEvents (key : FunctionKey) (s : State) : List Event :=
  match s.typing.functions.lookup key with
  | none => []
  | some ⟨some f, .pending⟩ => .entered key .pending :: observe key f s
  | some ⟨_, progress⟩ => [.entered key progress]

/-- The events where the signature of a function is asked for, which are none if it can be given. -/
def signatureEvents (d : Declaration) (s : State) : List Event :=
  match s.typing.functions.lookup (d.block, d.name) with
  | some ⟨some f, .pending⟩ =>
    if s.table.isActive f.argsKey then [] else turnEvents observe (d.block, d.name) s
  | _ => []

/-- The events where the function that a call refers to is looked for. -/
def calleeEvents (callee : Ident) (pos : Position) : State → List Event :=
  eventsAfter (lookup? frame? callee pos) fun d? s =>
    match d? with
    | some d => if d.isFunction then signatureEvents observe d s else []
    | none => []

mutual

/-- The events in an expression. -/
def exprEvents : Expr → State → List Event
  | .span _ tree => exprEvents tree
  | .number .. | .boolean .. | .var .. => fun _ => []
  | .prefixed _ operand _ => exprEvents operand
  | .binary _ left right _ => fun s =>
    exprEvents left s ++ eventsAfter (expr names resolve frame? left) (fun _ => exprEvents right) s
  | .block key items _ => fun s => entriesEvents items { s with table := s.table.enterBlock key }
  | .conditional condition thenBranch elseBranch _ => fun s =>
    exprEvents condition s ++ eventsAfter (expr names resolve frame? condition) (fun ty =>
      eventsAfter (expect names .condition .boolean ty condition.pos) fun _ s =>
        exprEvents thenBranch s ++ eventsAfter (expr names resolve frame? thenBranch)
          (fun _ => exprEvents elseBranch) s) s
  | .call site args => fun s =>
    calleeEvents observe frame? site.callee site.pos s ++
      eventsAfter (calleeSignature? names resolve frame? site.callee site.pos) (fun signature? =>
        match signature? with
        | none => fun _ => []
        | some signature => eventsAfter (if signature.failed then poison else pure ()) fun _ =>
          match site.style with
          | .ordered => eventsAfter (if signature.arity < args.length then
              reportAt names (some site.pos) (.tooManyArguments site.callee signature.arity args.length)
            else pure ()) fun _ => orderedEvents site.callee 0 args
          | .named => namedEvents site.callee signature (signature.type.args.map fun _ => false) args) s

/-- The events in the entries of a block. -/
def entriesEvents : List BlockEntry → State → List Event
  | [] => fun _ => []
  | item :: items => fun s =>
    entryEvents item s ++ eventsAfter (entry names resolve frame? item) (fun _ => entriesEvents items) s

/-- The events in an entry of a block. A function that is defined there is turned to in any case. -/
def entryEvents : BlockEntry → State → List Event
  | .closure f _ => turnEvents observe f.key
  | .operator op value guard? pos =>
    eventsAfter (if !op.isArithmetic then reportAt names (some pos) (.cannotAccumulate op) else pure ())
      fun _ s => exprEvents value s ++ eventsAfter (expr names resolve frame? value) (fun ty =>
        eventsAfter (expect names .blockEntry .number ty value.pos) fun _ =>
          match guard? with
          | none => fun _ => []
          | some guard => exprEvents guard) s

/-- The events in arguments given in order. -/
def orderedEvents (callee : Ident) (i : Nat) : List Argument → State → List Event
  | [] => fun _ => []
  | arg :: args =>
    match arg with
    | .assign _ value _ | .opAssign _ _ value _ | .positional value _ => fun s =>
      exprEvents value s ++ eventsAfter (expr names resolve frame? value) (fun ty =>
        eventsAfter (expect names (.argument (i + 1) callee) .number ty value.pos) fun _ =>
          orderedEvents callee (i + 1) args) s
    | .shorthand .. => orderedEvents callee (i + 1) args

/-- The events in arguments given by name. -/
def namedEvents (callee : Ident) (signature : Signature) (bound : List Bool) :
    List Argument → State → List Event
  | [] => fun _ => []
  | arg :: args =>
    match arg with
    | .assign name value _ | .opAssign name _ value _ => fun s =>
      exprEvents value s ++ eventsAfter (expr names resolve frame? value) (fun ty =>
        eventsAfter (expect names (.namedArgument name callee) .number ty value.pos) fun _ =>
          eventsAfter (checkNamed names frame? callee signature bound name arg) fun bound =>
            namedEvents callee signature bound args) s
    | .shorthand name _ =>
      eventsAfter (checkNamed names frame? callee signature bound name arg)
        fun bound => namedEvents callee signature bound args
    | .positional .. => namedEvents callee signature bound args

end

end Events

section Program

variable (names : NameTable)

/-- The events where the body of a function is checked. -/
def bodyEvents : (nesting : Nat) → Observer
  | 0, key, _, _ => [.abandoned key]
  | nesting + 1, key, f, s =>
    eventsAfter (resolveWithin names (nesting + 1) key f) (fun _ s' => [.checked key s.typing s'.typing]) s ++
      exprEvents names (resolveWithin names nesting) (bodyEvents nesting) (some ⟨key, f.scope.length⟩) f.body
        { s with
          table := s.table.enterScope f.bodyScope
          typing := { s.typing with functions := s.typing.functions.setProgress key .active } }

/-- The events where the signature of a function of the program is looked for. -/
def functionEvents : Observer :=
  fun key f s => bodyEvents names s.typing.functions.length key f s

/-- The events in an item. -/
def itemEvents : Item → State → List Event
  | .function f _ => turnEvents (functionEvents names) f.key
  | .assignment _ value _ => exprEvents names (resolve names) (functionEvents names) none value

/-- The events in items. -/
def itemsEvents : List Item → State → List Event
  | [], _ => []
  | i :: is, s => itemEvents names i s ++ eventsAfter (item names i) (fun _ => itemsEvents is) s

/-- The events where functions are turned to that have no signature in the end. -/
def keysEvents : List FunctionKey → State → List Event
  | [], _ => []
  | key :: keys, s =>
    (match s.typing.functions.lookup key with
      | some ⟨some _, .pending⟩ | some ⟨some _, .active⟩ => turnEvents (functionEvents names) key s
      | _ => []) ++ eventsAfter (resolveOnce names key) (fun _ => keysEvents keys) s

/-- The events of the check of a program. -/
def programEvents (p : Program) : State → List Event :=
  eventsAfter (modifyTyping fun t => (p.flatMap Item.definitions).foldl Typing.addDefinition t) fun _ s =>
    itemsEvents names p s ++ eventsAfter (items names p) (fun _ s =>
      keysEvents names (s.typing.functions.map Prod.fst) s) s

end Program

end Check
end ToneScript
