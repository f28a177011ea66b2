import ToneScript.Diagnostic.Journal
import ToneScript.Diagnostic.Suggestion
import ToneScript.Scope.SymbolTable
import ToneScript.Typing.Signature
import ToneScript.Typing.TypeError
/-!
Types of expressions and signatures of functions.

A function is checked once, when a call or its own definition first needs its signature. Until then its
result is unknown to calls in its own body, and an unknown type satisfies every rule.
-/
namespace ToneScript

namespace Operator

/-- Operators that take and give numbers. -/
def isArithmetic : Operator → Bool
  | add | sub | mul | div | mod | exp => true
  | _ => false

/-- Operators that compare numbers. -/
def isComparison : Operator → Bool
  | less | greater | lessEqual | greaterEqual => true
  | _ => false

/-- Operators that compare values of any one type. -/
def isEquality : Operator → Bool
  | equ | notEqu | approxEqu => true
  | _ => false

end Operator

/-- What checking finds out about a program. -/
structure Typing where
  functions : FunctionTable := []
  /-- Types of expressions by the offsets of their positions, the latest first. -/
  types : List (UInt64 × Ty) := []
  /-- Parameters of outer functions that functions use, in the order of first use. -/
  captures : List (FunctionKey × Ident) := []
deriving Repr, Inhabited

namespace Typing

/-- The type of an expression. -/
def typeOf? (t : Typing) (e : Expr) : Option Ty :=
  t.types.lookup e.pos.index

/-- The parameters of outer functions that a function uses. -/
def capturesOf (t : Typing) (key : FunctionKey) : List Ident :=
  t.captures.filterMap fun entry => if entry.1 == key then some entry.2 else none

/-- The resolved signature of a function. -/
def signature? (t : Typing) (key : FunctionKey) : Option Signature :=
  t.functions.signature? key

/-- Adds a function that is there from the start. -/
def addBuiltin (t : Typing) (name : Ident) (type : FunctionType) : Typing :=
  { t with
    functions := t.functions.insert (rootBlock, name) ⟨none, .resolved (.ofBuiltin type)⟩ }

/-- Adds a function of the program. -/
def addDefinition (t : Typing) (f : FunctionDef) : Typing :=
  { t with functions := t.functions.insert f.key ⟨some f, .pending⟩ }

end Typing

namespace Check

/-- What changes during a check. -/
structure State where
  table : SymbolTable
  journal : Journal
  typing : Typing
  /-- Uses of functions that failed and of names without a type. -/
  poisoned : Nat := 0
deriving Inhabited

/-- Steps that change the state. -/
abbrev Step := StateT State (Except Defect)

/-- The function whose body is being checked. -/
structure Frame where
  key : FunctionKey
  /-- Number of blocks around the definition. -/
  ownBase : Nat
deriving DecidableEq, Repr

/-- Reports an error. -/
def reportAt (names : NameTable) (pos? : Option Position) (e : TypeError) : Step Unit :=
  modify fun s => { s with journal := s.journal.report (e.toIssue names pos?) }

/-- Leaves a remark in the log. -/
def note (level : Log.Level) (message : String) : Step Unit :=
  modify fun s => { s with journal := s.journal.note level "types" message }

/-- Counts the use of something that failed before. -/
def poison : Step Unit :=
  modify fun s => { s with poisoned := s.poisoned + 1 }

/-- Changes what is known of types. -/
def modifyTyping (f : Typing → Typing) : Step Unit :=
  modify fun s => { s with typing := f s.typing }

/-- Does a step with blocks entered before it and left after it. -/
def inScope {α : Type} (enter : SymbolTable → SymbolTable) (step : Step α) : Step α := do
  modify fun s => { s with table := enter s.table }
  let result ← step
  match (← get).table.leave with
  | .ok table =>
    modify fun s => { s with table }
    return result
  | .error d => throw d

/-- Records the type of an expression. -/
def setType (pos : Position) (ty : Ty) : Step Unit :=
  modifyTyping fun t => { t with types := (pos.index, ty) :: t.types }

/-- Records that a function uses a parameter of an outer one. -/
def capture (key : FunctionKey) (name : Ident) : Step Unit :=
  modifyTyping fun t =>
    if (key, name) ∈ t.captures then t else { t with captures := t.captures ++ [(key, name)] }

/-- The declaration that a name at a position refers to. A parameter found outside the blocks of the
function that is being checked is captured. -/
def lookup? (frame? : Option Frame) (name : Ident) (pos : Position) : Step (Option Declaration) := do
  let table := (← get).table
  match table.lookupBefore? name pos.index with
  | none => return none
  | some (d, crossed) =>
    match frame? with
    | some frame =>
      if table.depth - 1 - crossed < frame.ownBase ∧ d.block ≠ rootBlock ∧ !d.isFunction then
        capture frame.key name
    | none => pure ()
    return some d

/-- Reports a type that is known and is not the expected one. -/
def expect (names : NameTable) (role : Role) (expected actual : Ty) (pos : Position) : Step Unit :=
  if actual.isDeterminate ∧ actual ≠ expected then
    reportAt names (some pos) (.mismatch role expected actual)
  else pure ()

/-- The type of a variable. -/
def variableType (names : NameTable) (frame? : Option Frame) (name : Ident) (pos : Position) :
    Step Ty := do
  match ← lookup? frame? name pos with
  | none =>
    reportAt names (some pos) (.undefinedVariable name)
    return .indeterminate
  | some d =>
    match d.ty? with
    | none =>
      poison
      return .indeterminate
    | some (.function _) =>
      reportAt names (some pos) (.functionAsValue name)
      return .indeterminate
    | some ty => return ty

/-- The type of a binary operation on operands of given types and positions. -/
def binaryType (names : NameTable) (op : Operator) (pos : Position) (left right : Ty)
    (leftPos rightPos : Position) : Step Ty := do
  if op.isArithmetic || op.isComparison then
    expect names (.leftOperand op) .number left leftPos
    expect names (.rightOperand op) .number right rightPos
    return if op.isArithmetic then .number else .boolean
  else if op.isEquality then
    if left.isDeterminate ∧ right.isDeterminate ∧ left ≠ right then
      reportAt names (some pos) (.operandsDiffer op left right)
    return .boolean
  else
    expect names (.leftOperand op) .boolean left leftPos
    expect names (.rightOperand op) .boolean right rightPos
    return .boolean

/-- How the signature of a function is found when it is not known yet. -/
abbrev Resolver := FunctionKey → FunctionDef → Step Signature

/-- The signature of the function that a declaration stands for. A function whose body is being checked
has a provisional one. -/
def signatureOf? (resolve : Resolver) (d : Declaration) : Step (Option Signature) := do
  let s ← get
  match s.typing.functions.lookup (d.block, d.name) with
  | none => return none
  | some ⟨_, .resolved signature⟩ => return some signature
  | some ⟨none, _⟩ => return none
  | some ⟨some f, .active⟩ => return some (.provisional f)
  | some ⟨some f, .pending⟩ =>
    if s.table.isActive f.argsKey then return some (.provisional f)
    else return some (← resolve (d.block, d.name) f)

/-- The signature of the function that a call refers to, if it refers to one. -/
def calleeSignature? (names : NameTable) (resolve : Resolver) (frame? : Option Frame)
    (callee : Ident) (pos : Position) : Step (Option Signature) := do
  match ← lookup? frame? callee pos with
  | none =>
    reportAt names (some pos) (.undefinedFunction callee)
    return none
  | some d =>
    if d.isFunction then signatureOf? resolve d
    else
      reportAt names (some pos) (.notAFunction callee)
      return none

/-- Checks what an argument does with the parameter in place `i` of a signature. -/
def checkForm (names : NameTable) (frame? : Option Frame) (callee : Ident) (signature : Signature)
    (name : Ident) (i : Nat) : Argument → Step Unit
  | .shorthand _ pos => do
    match ← lookup? frame? name pos with
    | none => reportAt names (some pos) (.undefinedVariable name)
    | some d =>
      match d.ty? with
      | some ty => expect names (.shorthand name) .number ty pos
      | none => pure ()
  | .opAssign _ op _ pos => do
    if (signature.defaults.getD i none).isNone then
      reportAt names (some pos) (.noDefault callee name op)
    if !op.isArithmetic then reportAt names (some pos) (.cannotUpdate op)
  | .assign .. | .positional .. => pure ()

/-- Checks how an argument given by name fits a signature. `bound` tells which parameters have got their
values; the result is the same after this argument. An empty name is never suggested. -/
def checkNamed (names : NameTable) (frame? : Option Frame) (callee : Ident) (signature : Signature)
    (bound : List Bool) (name : Ident) (arg : Argument) : Step (List Bool) := do
  match signature.indexOf? name with
  | none =>
    let similar := nearest? (names.name name) (signature.type.args.map fun p => names.name p.1) 3
    reportAt names (some arg.pos) (.noSuchArgument callee name (similar.filter (· ≠ "")))
    return bound
  | some i =>
    if bound.getD i false then reportAt names (some arg.pos) (.argumentTwice callee name)
    checkForm names frame? callee signature name i arg
    return bound.set i true

/-- Reports parameters that got no value and have no default. -/
def checkMissing (names : NameTable) (callee : Ident) (pos : Position) :
    List (Ident × Ty) → List (Option Number) → List Bool → Step Unit
  | param :: params, default? :: defaults, bound :: bounds => do
    if !bound && default?.isNone then
      reportAt names (some pos) (.missingArgument callee param.1)
    checkMissing names callee pos params defaults bounds
  | _, _, _ => pure ()

mutual

/-- The type of an expression, which is recorded. -/
def expr (names : NameTable) (resolve : Resolver) (frame? : Option Frame) : Expr → Step Ty
  | .span _ tree => expr names resolve frame? tree
  | .number _ pos => do
    setType pos .number
    return .number
  | .boolean _ pos => do
    setType pos .boolean
    return .boolean
  | .var name pos => do
    let ty ← variableType names frame? name pos
    setType pos ty
    return ty
  | .prefixed op operand pos => do
    let actual ← expr names resolve frame? operand
    let expected : Ty := if op = .not then .boolean else .number
    expect names (.operand op) expected actual operand.pos
    setType pos expected
    return expected
  | .binary op left right pos => do
    let leftType ← expr names resolve frame? left
    let rightType ← expr names resolve frame? right
    let ty ← binaryType names op pos leftType rightType left.pos right.pos
    setType pos ty
    return ty
  | .block key items pos => do
    inScope (·.enterBlock key) (entries names resolve frame? items)
    setType pos .number
    return .number
  | .conditional condition thenBranch elseBranch pos => do
    let conditionType ← expr names resolve frame? condition
    expect names .condition .boolean conditionType condition.pos
    let thenType ← expr names resolve frame? thenBranch
    let elseType ← expr names resolve frame? elseBranch
    if thenType.isDeterminate ∧ elseType.isDeterminate ∧ thenType ≠ elseType then
      reportAt names (some elseBranch.pos) (.branchesDiffer thenType elseType)
    let ty := if thenType.isDeterminate then thenType else elseType
    setType pos ty
    return ty
  | .call site args => do
    let ty ←
      match ← calleeSignature? names resolve frame? site.callee site.pos with
      | none => pure .indeterminate
      | some signature =>
        if signature.failed then poison
        let unbound := signature.type.args.map fun _ => false
        let bound ←
          match site.style with
          | .ordered =>
            if signature.arity < args.length then
              reportAt names (some site.pos)
                (.tooManyArguments site.callee signature.arity args.length)
            orderedArguments names resolve frame? site.callee 0 args
            pure (unbound.mapIdx fun i _ => decide (i < args.length))
          | .named => namedArguments names resolve frame? site.callee signature unbound args
        checkMissing names site.callee site.pos signature.type.args signature.defaults bound
        pure signature.type.returns
    setType site.pos ty
    return ty

/-- Checks the entries of a block. -/
def entries (names : NameTable) (resolve : Resolver) (frame? : Option Frame) :
    List BlockEntry → Step Unit
  | [] => pure ()
  | item :: items => do
    entry names resolve frame? item
    entries names resolve frame? items

/-- Checks an entry of a block. Only functions that were collected can be checked. -/
def entry (names : NameTable) (resolve : Resolver) (frame? : Option Frame) :
    BlockEntry → Step Unit
  | .closure f pos => do
    match (← get).typing.functions.lookup f.key with
    | none => throw .uncollected
    | some ⟨some known, .pending⟩ => discard <| resolve f.key known
    | some _ => pure ()
    setType pos (.function f.name)
  | .operator op value guard? pos => do
    if !op.isArithmetic then reportAt names (some pos) (.cannotAccumulate op)
    let valueType ← expr names resolve frame? value
    expect names .blockEntry .number valueType value.pos
    match guard? with
    | none => pure ()
    | some guard =>
      let guardType ← expr names resolve frame? guard
      expect names .guard .boolean guardType guard.pos

/-- Checks arguments given in order, the first of which is number `i`, counted from zero. -/
def orderedArguments (names : NameTable) (resolve : Resolver) (frame? : Option Frame)
    (callee : Ident) (i : Nat) : List Argument → Step Unit
  | [] => pure ()
  | arg :: args => do
    match arg with
    | .assign _ value _ =>
      let ty ← expr names resolve frame? value
      expect names (.argument (i + 1) callee) .number ty value.pos
    | .opAssign _ _ value _ =>
      let ty ← expr names resolve frame? value
      expect names (.argument (i + 1) callee) .number ty value.pos
    | .positional value _ =>
      let ty ← expr names resolve frame? value
      expect names (.argument (i + 1) callee) .number ty value.pos
    | .shorthand .. => pure ()
    orderedArguments names resolve frame? callee (i + 1) args

/-- Checks arguments given by name. -/
def namedArguments (names : NameTable) (resolve : Resolver) (frame? : Option Frame)
    (callee : Ident) (signature : Signature) (bound : List Bool) :
    List Argument → Step (List Bool)
  | [] => return bound
  | arg :: args => do
    let bound ←
      match arg with
      | .assign name value _ =>
        let ty ← expr names resolve frame? value
        expect names (.namedArgument name callee) .number ty value.pos
        checkNamed names frame? callee signature bound name arg
      | .opAssign name _ value _ =>
        let ty ← expr names resolve frame? value
        expect names (.namedArgument name callee) .number ty value.pos
        checkNamed names frame? callee signature bound name arg
      | .shorthand name _ => checkNamed names frame? callee signature bound name arg
      | .positional .. => pure bound
    namedArguments names resolve frame? callee signature bound args

end

/-- Checks the body of a function and records its signature. `nesting` bounds how many functions can be
in the middle of their checks at once; no more than there are functions. -/
def resolveWithin (names : NameTable) : (nesting : Nat) → Resolver
  | 0, _, f => return .provisional f
  | nesting + 1, key, f => do
    let before ← get
    modifyTyping fun t => { t with functions := t.functions.setProgress key .active }
    let ty ← inScope (·.enterScope f.bodyScope)
      (expr names (resolveWithin names nesting) (some ⟨key, f.scope.length⟩) f.body)
    let after ← get
    if !ty.isDeterminate ∧ after.journal.errorCount = before.journal.errorCount
        ∧ after.poisoned = before.poisoned then
      reportAt names (some f.pos) (.undetermined f.name)
    let provisional := Signature.provisional f
    let signature : Signature :=
      { provisional with
        type := { provisional.type with returns := ty }, failed := !ty.isDeterminate }
    modifyTyping fun t => { t with functions := t.functions.setProgress key (.resolved signature) }
    note .trace ("resolved " ++ names.quoted f.name ++ " as " ++ signature.type.toText names)
    return signature

/-- Finds the signature of a function of the program. -/
def resolve (names : NameTable) : Resolver := fun key f => do
  resolveWithin names (← get).typing.functions.length key f

/-- Finds the signature of a function unless it is known. -/
def resolveOnce (names : NameTable) (key : FunctionKey) : Step Unit := do
  match (← get).typing.functions.lookup key with
  | some ⟨some f, .pending⟩ => discard <| resolve names key f
  | _ => pure ()

/-- Checks an item. The type of an assigned value becomes that of its name. -/
def item (names : NameTable) : Item → Step Unit
  | .function f _ => resolveOnce names f.key
  | .assignment name value _ => do
    let ty ← expr names (resolve names) none value
    if ty.isDeterminate then
      modify fun s => { s with table := s.table.setTypeIn rootBlock name ty }

/-- Checks items in order. -/
def items (names : NameTable) : List Item → Step Unit
  | [] => pure ()
  | i :: is => do
    item names i
    items names is

/-- Finds the signatures of functions that are not known yet. -/
def resolveAll (names : NameTable) : List FunctionKey → Step Unit
  | [] => pure ()
  | key :: keys => do
    resolveOnce names key
    resolveAll names keys

/-- Checks a program. -/
def program (names : NameTable) (p : Program) : Step Unit := do
  modifyTyping fun t => (p.flatMap Item.definitions).foldl Typing.addDefinition t
  items names p
  resolveAll names ((← get).typing.functions.map Prod.fst)
  note .debug ("checked " ++ toString p.length ++ " items, "
    ++ toString (← get).typing.functions.length ++ " functions known")

/-- Whether the outermost block defines a function of a given name and type. Reports what is wrong. -/
def entryPoint (names : NameTable) (name : Ident) (expected : FunctionType) : Step Bool := do
  match (← get).table.find? rootBlock name with
  | none =>
    reportAt names none (.entryUndefined name expected)
    return false
  | some d =>
    if d.builtin then
      reportAt names none (.entryUndefined name expected)
      return false
    else if !d.isFunction then
      reportAt names (some d.pos) (.entryNotFunction name)
      return false
    else
      match ← signatureOf? (resolve names) d with
      | none => return false
      | some signature =>
        let arityFits := signature.arity == expected.args.length
        let returns := signature.type.returns
        let returnsFit := !returns.isDeterminate || returns == expected.returns
        if !arityFits then
          reportAt names (some d.pos) (.entryArity name expected.args.length signature.arity)
        if !returnsFit then
          reportAt names (some d.pos) (.entryReturns name expected.returns returns)
        return arityFits && returnsFit

end Check
end ToneScript
