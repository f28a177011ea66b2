import ToneScript.Proofs.Typing.Arithmetic

/-! The check of a call as a list of steps. A step checks the value of an argument, looks up a variable that is
given under its own name, or reports an error of the call itself; which steps there are depends only on the
signature and on how the arguments are given. -/
namespace ToneScript

/-- Whether an error says that the arguments of a call do not match the parameters. -/
def TypeError.isShape : TypeError → Bool
  | tooManyArguments .. | missingArgument .. | noSuchArgument .. | argumentTwice .. | noDefault .. => true
  | undefinedVariable _ | undefinedFunction _ | functionAsValue _ | mismatch .. | operandsDiffer ..
  | branchesDiffer .. | cannotAccumulate _ | cannotUpdate _ | notAFunction _ | undetermined _
  | entryUndefined .. | entryNotFunction _ | entryArity .. | entryReturns .. => false

namespace Check

/-- One step of the check of a call. -/
inductive CallStep where
  /-- An argument has a value, which should be a number. -/
  | value (role : Role) (e : Expr)
  /-- A variable is given under its own name. -/
  | lookup (name : Ident) (pos : Position)
  /-- The call itself is wrong. -/
  | report (pos : Position) (e : TypeError)

namespace CallStep

/-- Takes a step. -/
def run (names : NameTable) (resolve : Resolver) (frame? : Option Frame) : CallStep → Step Unit
  | value role e => do
    let ty ← expr names resolve frame? e
    expect names role .number ty e.pos
  | lookup name pos => do
    match ← lookup? frame? name pos with
    | none => reportAt names (some pos) (.undefinedVariable name)
    | some d =>
      match d.ty? with
      | some ty => expect names (.shorthand name) .number ty pos
      | none => pure ()
  | report pos e => reportAt names (some pos) e

/-- The error that a step reports of the call itself. -/
def error? : CallStep → Option TypeError
  | report _ e => some e
  | value .. | lookup .. => none

/-- A step that is taken only where a condition holds. -/
def when (p : Prop) [Decidable p] (step : CallStep) : List CallStep :=
  if p then [step] else []

/-- The check of the value that an argument writes out, if it writes out one. -/
def ofValue (role : Role) (arg : Argument) : List CallStep :=
  arg.value?.toList.map (value role)

/-- What an argument does with the parameter in place `i`. -/
def ofForm (callee : Ident) (signature : Signature) (name : Ident) (i : Nat) : Argument → List CallStep
  | .shorthand _ pos => [lookup name pos]
  | .opAssign _ op _ pos =>
    when ((signature.defaults.getD i none).isNone = true) (report pos (.noDefault callee name op)) ++
      when ((!op.isArithmetic) = true) (report pos (.cannotUpdate op))
  | .assign .. | .positional .. => []

/-- How an argument that is given by name fits the signature. -/
def ofName (names : NameTable) (callee : Ident) (signature : Signature) (bound : List Bool) (name : Ident)
    (arg : Argument) : List CallStep :=
  match signature.indexOf? name with
  | none =>
    let similar := nearest? (names.name name) (signature.type.args.map fun p => names.name p.1) 3
    [report arg.pos (.noSuchArgument callee name (similar.filter (· ≠ "")))]
  | some i =>
    when (bound.getD i false = true) (report arg.pos (.argumentTwice callee name)) ++
      ofForm callee signature name i arg

/-- The parameters that have got their values once an argument was seen. -/
def mark (signature : Signature) (bound : List Bool) (name : Ident) : List Bool :=
  (signature.indexOf? name).elim bound (bound.set · true)

/-- The steps for arguments given by name, and the parameters that have got their values after them. -/
def ofNamed (names : NameTable) (callee : Ident) (signature : Signature) (bound : List Bool) :
    List Argument → List CallStep × List Bool
  | [] => ([], bound)
  | arg :: args =>
    match arg.name? with
    | none => ofNamed names callee signature bound args
    | some name =>
      let rest := ofNamed names callee signature (mark signature bound name) args
      (ofValue (.namedArgument name callee) arg ++ ofName names callee signature bound name arg ++ rest.1, rest.2)

/-- The steps for arguments given in order, the first of which is number `i`, counted from zero. -/
def ofOrdered (callee : Ident) (i : Nat) : List Argument → List CallStep
  | [] => []
  | arg :: args => ofValue (.argument (i + 1) callee) arg ++ ofOrdered callee (i + 1) args

/-- The steps for parameters that got no value. -/
def ofMissing (callee : Ident) (pos : Position) :
    List (Ident × Ty) → List (Option Number) → List Bool → List CallStep
  | param :: params, default? :: defaults, bound :: bounds =>
    when ((!bound && default?.isNone) = true) (report pos (.missingArgument callee param.1)) ++
      ofMissing callee pos params defaults bounds
  | _, _, _ => []

/-- The steps for the arguments of a call. -/
def ofCall (names : NameTable) (signature : Signature) (site : CallSite) (args : List Argument) : List CallStep :=
  let unbound := signature.type.args.map fun _ => false
  let given :=
    match site.style with
    | .ordered =>
      (when (signature.arity < args.length)
          (report site.pos (.tooManyArguments site.callee signature.arity args.length)) ++
        ofOrdered site.callee 0 args,
        unbound.mapIdx fun i _ => decide (i < args.length))
    | .named => ofNamed names site.callee signature unbound args
  given.1 ++ ofMissing site.callee site.pos signature.type.args signature.defaults given.2

variable {names : NameTable} (resolve : Resolver) {frame? : Option Frame}

theorem forM_single (step : CallStep) : forM [step] (run names resolve frame?) = step.run names resolve frame? := by
  simp

theorem forM_when (p : Prop) [Decidable p] (step : CallStep) :
    forM (when p step) (run names resolve frame?) = if p then step.run names resolve frame? else pure () := by
  unfold when
  split
  · exact forM_single ..
  · rfl

theorem forM_ofForm (callee : Ident) (signature : Signature) (name : Ident) (i : Nat) (arg : Argument) :
    forM (ofForm callee signature name i arg) (run names resolve frame?) =
      checkForm names frame? callee signature name i arg := by
  cases arg with
  | shorthand other pos => exact forM_single ..
  | opAssign other op value pos =>
    rw [ofForm, checkForm, List.forM_append, forM_when, forM_when]
    split
    · rfl
    · exact pure_bind ..
  | assign | positional => rfl

theorem ofName_run (callee : Ident) (signature : Signature) (bound : List Bool) (name : Ident) (arg : Argument) :
    checkNamed names frame? callee signature bound name arg = (do
      forM (ofName names callee signature bound name arg) (run names resolve frame?)
      return mark signature bound name) := by
  unfold checkNamed ofName mark
  cases signature.indexOf? name with
  | none =>
    simp only [forM_single]
    rfl
  | some i =>
    simp only [List.forM_append, forM_when, forM_ofForm, bind_assoc]
    split
    · rfl
    · simp only [pure_bind]
      rfl

theorem ofNamed_run (callee : Ident) (signature : Signature) (bound : List Bool) (args : List Argument) :
    namedArguments names resolve frame? callee signature bound args = (do
      forM (ofNamed names callee signature bound args).1 (run names resolve frame?)
      return (ofNamed names callee signature bound args).2) := by
  induction args generalizing bound with
  | nil =>
    rw [namedArguments]
    rfl
  | cons arg args ih =>
    cases arg with
    | positional value pos =>
      rw [namedArguments]
      exact (pure_bind ..).trans (ih bound)
    | shorthand name pos =>
      simp only [namedArguments, ofNamed, Argument.name?, ofName_run resolve, ih, List.forM_append, bind_assoc,
        pure_bind]
      rfl
    | assign name value pos | opAssign name op value pos =>
      have hvalue (role : Role) : forM [CallStep.value role value] (run names resolve frame?) = (do
          let ty ← expr names resolve frame? value
          expect names role .number ty value.pos) := forM_single ..
      simp only [namedArguments, ofNamed, Argument.name?, ofName_run resolve, ih, List.forM_append, bind_assoc,
        pure_bind, ofValue, Argument.value?, Option.toList_some, List.map_cons, List.map_nil, hvalue]

theorem ofOrdered_run (callee : Ident) (i : Nat) (args : List Argument) :
    orderedArguments names resolve frame? callee i args =
      forM (ofOrdered callee i args) (run names resolve frame?) := by
  induction args generalizing i with
  | nil =>
    rw [orderedArguments]
    rfl
  | cons arg args ih =>
    rw [ofOrdered, List.forM_append, ← ih]
    cases arg with
    | shorthand name pos =>
      rw [orderedArguments]
      rfl
    | assign name value pos | opAssign name op value pos | positional value pos =>
      rw [orderedArguments]
      simp only [ofValue, Argument.value?, Option.toList_some, List.map_cons, List.map_nil, forM_single, run,
        bind_assoc]

theorem ofMissing_run (callee : Ident) (pos : Position) (params : List (Ident × Ty))
    (defaults : List (Option Number)) (bound : List Bool) :
    checkMissing names callee pos params defaults bound =
      forM (ofMissing callee pos params defaults bound) (run names resolve frame?) := by
  induction params generalizing defaults bound with
  | nil => rfl
  | cons param params ih =>
    cases defaults with
    | nil => rfl
    | cons default? defaults =>
      cases bound with
      | nil => rfl
      | cons b bounds =>
        rw [checkMissing, ofMissing, List.forM_append, forM_when, ih]
        split
        · rfl
        · exact (pure_bind ..).symm

end CallStep

/-- The check of a call: its function is found, the steps for its arguments are taken, and its type is that of
what the function returns. -/
def callBySteps (names : NameTable) (resolve : Resolver) (frame? : Option Frame) (site : CallSite)
    (args : List Argument) : Step Ty := do
  let signature? ← calleeSignature? names resolve frame? site.callee site.pos
  match signature? with
  | none =>
    setType site.pos .indeterminate
    return .indeterminate
  | some signature =>
    if signature.failed then poison
    forM (CallStep.ofCall names signature site args) (CallStep.run names resolve frame?)
    setType site.pos signature.type.returns
    return signature.type.returns

theorem expr_call (names : NameTable) (resolve : Resolver) (frame? : Option Frame) (site : CallSite)
    (args : List Argument) :
    expr names resolve frame? (.call site args) = callBySteps names resolve frame? site args := by
  rw [expr, callBySteps]
  refine bind_congr fun signature? => ?_
  cases signature? with
  | none => exact pure_bind ..
  | some signature =>
    simp only [CallStep.ofCall, List.forM_append, ← CallStep.ofMissing_run resolve, bind_assoc]
    cases site.style with
    | ordered =>
      simp only [List.forM_append, CallStep.forM_when, ← CallStep.ofOrdered_run, bind_assoc]
      by_cases hmany : signature.arity < args.length
      · simp only [if_pos hmany, pure_bind]
        rfl
      · simp only [if_neg hmany, pure_bind]
    | named =>
      simp only [CallStep.ofNamed_run, bind_assoc, pure_bind]

end Check

/-- A signature whose parameters have the given names and defaults. -/
structure Signature.Describes (signature : Signature) (params : List (Ident × Option Number)) : Prop where
  names : signature.type.args.map Prod.fst = params.map Prod.fst
  defaults : signature.defaults = params.map Prod.snd

namespace Signature.Describes

variable {signature : Signature} {params : List (Ident × Option Number)}

theorem arity (h : signature.Describes params) : signature.arity = params.length := by
  have hlength := congrArg List.length h.names
  rwa [List.length_map, List.length_map] at hlength

theorem indexOf? (h : signature.Describes params) (name : Ident) :
    signature.indexOf? name = params.findIdx? (·.1 == name) := by
  have hfind {α : Type} (xs : List (Ident × α)) :
      xs.findIdx? (·.1 == name) = (xs.map Prod.fst).findIdx? (· == name) := by
    rw [List.findIdx?_map]
    rfl
  rw [Signature.indexOf?, hfind, h.names, ← hfind]

theorem default? (h : signature.Describes params) (i : Nat) :
    signature.defaults.getD i none = (params[i]?).bind Prod.snd := by
  rw [h.defaults, List.getD_eq_getElem?_getD, List.getElem?_map]
  cases params[i]? <;> rfl

end Signature.Describes

namespace Check.CallStep

/-- The errors among some steps that say that the arguments do not match the parameters. -/
def shapeErrors (steps : List CallStep) : List TypeError :=
  (steps.filterMap error?).filter TypeError.isShape

theorem shapeErrors_append (xs ys : List CallStep) : shapeErrors (xs ++ ys) = shapeErrors xs ++ shapeErrors ys := by
  simp [shapeErrors]

theorem shapeErrors_when {p : Prop} [Decidable p] {pos : Position} {e : TypeError} (h : e.isShape = true) :
    shapeErrors (when p (report pos e)) = [] ↔ ¬p := by
  unfold when
  split <;> simp_all [shapeErrors, error?]

theorem shapeErrors_ofValue (role : Role) (arg : Argument) : shapeErrors (ofValue role arg) = [] := by
  cases arg <;> rfl

variable {signature : Signature} {params : List (Ident × Option Number)}

theorem shapeErrors_ofOrdered (callee : Ident) (i : Nat) (args : List Argument) :
    shapeErrors (ofOrdered callee i args) = [] := by
  induction args generalizing i with
  | nil => rfl
  | cons arg args ih => rw [ofOrdered, shapeErrors_append, shapeErrors_ofValue, ih, List.append_nil]

/-- An argument does what it may with its parameter unless it needs a default that is not there. -/
theorem shapeErrors_ofForm (h : signature.Describes params) (callee name : Ident) (i : Nat) {arg : Argument}
    {sarg : SiteArgument} (hmatches : arg.Matches sarg) :
    shapeErrors (ofForm callee signature name i arg) = [] ↔
      (sarg.needsDefault = true → ((params[i]?).bind Prod.snd).isSome = true) := by
  cases arg <;> cases sarg <;> try exact hmatches.elim
  case opAssign.opAssign other op value pos _ _ _ _ =>
    have hupdate : shapeErrors (when ((!op.isArithmetic) = true) (report pos (.cannotUpdate op))) = [] := by
      unfold when
      split <;> rfl
    rw [ofForm, shapeErrors_append, hupdate, List.append_nil, shapeErrors_when rfl, h.default?]
    simp [SiteArgument.needsDefault, Option.isSome_iff_ne_none]
  all_goals exact iff_of_true rfl fun hneeds => absurd hneeds Bool.false_ne_true

theorem shapeErrors_ofName (h : signature.Describes params) (names : NameTable) (callee name : Ident)
    (bound : List Bool) {arg : Argument} {sarg : SiteArgument} (hmatches : arg.Matches sarg) :
    shapeErrors (ofName names callee signature bound name arg) = [] ↔
      ∃ place, params.findIdx? (·.1 == name) = some place ∧ bound.getD place false = false ∧
        (sarg.needsDefault = true → ((params[place]?).bind Prod.snd).isSome = true) := by
  rw [ofName, h.indexOf?]
  cases params.findIdx? (·.1 == name) with
  | none => simp [shapeErrors, error?, TypeError.isShape]
  | some place =>
    rw [shapeErrors_append, List.append_eq_nil_iff, shapeErrors_when rfl,
      shapeErrors_ofForm h callee name place hmatches, Bool.not_eq_true]
    simp only [Option.some.injEq, exists_eq_left']

/-- The rest of the arguments of a named call can be bound if the first has a free parameter, with a default if it
needs one, and the others can be bound to what is left. -/
theorem bindAll?_named_iff {bound bound' : List Bool} {i : Nat} {arg : SiteArgument} {args : List SiteArgument}
    {name : Ident} (hname : arg.name? = some name) :
    SiteArgument.bindAll? params .named bound i (arg :: args) = some bound' ↔
      ∃ place, (params.findIdx? (·.1 == name) = some place ∧ bound.getD place false = false ∧
        (arg.needsDefault = true → ((params[place]?).bind Prod.snd).isSome = true)) ∧
        SiteArgument.bindAll? params .named (bound.set place true) (i + 1) args = some bound' := by
  constructor
  · intro h
    rw [SiteArgument.bindAll?.eq_def] at h
    simp only [hname] at h
    obtain ⟨place, hplace, hrest⟩ := Option.bind_eq_some_iff.1 h
    obtain ⟨hfind, hfree⟩ := Option.filter_eq_some_iff.1 hplace
    split at hrest
    · cases hrest
    · rename_i hdefault
      refine ⟨place, ⟨hfind, by simpa using hfree, fun hneeds => ?_⟩, hrest⟩
      simpa [hneeds, Option.isSome_iff_ne_none] using hdefault
  · rintro ⟨place, ⟨hfind, hfree, hdefault⟩, hrest⟩
    rw [bindAll?_named hname hfind hfree hdefault, hrest]

/-- The check of named arguments finds nothing wrong with their shape where they can be bound to parameters. -/
theorem shapeErrors_ofNamed (h : signature.Describes params) (names : NameTable) (callee : Ident)
    {args : List Argument} {sargs : List SiteArgument} (hmatches : List.Forall₂ Argument.Matches args sargs)
    (hnamed : ∀ arg ∈ sargs, arg.name?.isSome = true) (bound bound' : List Bool) (i : Nat) :
    shapeErrors (ofNamed names callee signature bound args).1 = [] ∧
        (ofNamed names callee signature bound args).2 = bound' ↔
      SiteArgument.bindAll? params .named bound i sargs = some bound' := by
  induction hmatches generalizing bound i with
  | nil => simp [ofNamed, shapeErrors, SiteArgument.bindAll?]
  | @cons arg sarg args sargs hfirst _ ih =>
    obtain ⟨name, hname⟩ := Option.isSome_iff_exists.1 (hnamed sarg List.mem_cons_self)
    have hrest := ih fun arg harg => hnamed arg (List.mem_cons_of_mem _ harg)
    have hname' : arg.name? = some name := hfirst.name?.trans hname
    rw [bindAll?_named_iff hname, ofNamed, hname']
    simp only [shapeErrors_append, List.append_eq_nil_iff, shapeErrors_ofValue, true_and,
      shapeErrors_ofName h names callee name bound hfirst, and_assoc]
    constructor
    · rintro ⟨⟨place, hplace⟩, hclean, heq⟩
      have hmark : mark signature bound name = bound.set place true := by
        rw [mark, h.indexOf?, hplace.1, Option.elim_some]
      rw [hmark] at hclean heq
      exact ⟨place, hplace.1, hplace.2.1, hplace.2.2, (hrest _ _).1 ⟨hclean, heq⟩⟩
    · rintro ⟨place, hfind, hfree, hdefault, hbind⟩
      have hmark : mark signature bound name = bound.set place true := by
        rw [mark, h.indexOf?, hfind, Option.elim_some]
      rw [hmark]
      exact ⟨⟨place, hfind, hfree, hdefault⟩, (hrest _ _).2 hbind⟩

/-- No parameter is reported as missing where all have a value or a default. -/
theorem shapeErrors_ofMissing (callee : Ident) (pos : Position) {args : List (Ident × Ty)}
    (hlength : args.length = params.length) (bound : List Bool) :
    shapeErrors (ofMissing callee pos args (params.map Prod.snd) bound) = [] ↔ filled params bound = true := by
  induction params generalizing args bound with
  | nil => cases args <;> simp [ofMissing, shapeErrors, filled]
  | cons param params ih =>
    obtain ⟨arg, args, rfl⟩ := List.exists_cons_of_length_eq_add_one hlength
    cases bound with
    | nil => simp [ofMissing, shapeErrors, filled]
    | cons b bounds =>
      rw [List.map_cons, ofMissing, shapeErrors_append, List.append_eq_nil_iff, shapeErrors_when rfl,
        ih (Nat.succ.inj hlength), filled, Bool.and_eq_true (b || param.2.isSome)]
      refine and_congr_left fun _ => ?_
      cases b <;> cases param.2 <;> simp

/-- The check of a call reports an error of its shape unless the call fits the parameters. -/
theorem shapeErrors_ofCall (h : signature.Describes params) (names : NameTable) {site : CallSite}
    {args : List Argument} (hmatches : List.Forall₂ Argument.Matches args site.args)
    (hstyle : ∀ arg ∈ site.args, arg.name? = none ↔ site.style = .ordered) :
    shapeErrors (ofCall names signature site args) = [] ↔ site.fits params = true := by
  have hlength : signature.type.args.length = params.length := h.arity
  have hunbound : (signature.type.args.map fun _ => false) = params.map fun _ => false := by
    rw [List.map_const', List.map_const', hlength]
  have hmissing (bound : List Bool) := shapeErrors_ofMissing site.callee site.pos hlength bound
  rw [ofCall, shapeErrors_append, List.append_eq_nil_iff, h.defaults, hmissing, hunbound]
  cases hsite : site.style with
  | ordered =>
    have hpositional : ∀ arg ∈ site.args, arg.name? = none := fun arg harg => (hstyle arg harg).2 hsite
    have hgiven : ((params.map fun _ => false).mapIdx fun i _ => decide (i < args.length)) =
        params.mapIdx fun i _ => decide (i < args.length) :=
      mapIdx_lt_eq (List.length_map _) args.length
    rw [fits_ordered params hsite hpositional, ← hmatches.length_eq]
    simp only [hgiven, shapeErrors_append, shapeErrors_ofOrdered, List.append_nil]
    rw [shapeErrors_when rfl, h.arity, Nat.not_lt]
  | named =>
    have hnames : ∀ arg ∈ site.args, arg.name?.isSome = true := by
      intro arg harg
      have hsome := mt (hstyle arg harg).1
      simp only [hsite, reduceCtorEq, not_false_eq_true, forall_const] at hsome
      exact Option.isSome_iff_ne_none.2 hsome
    have hbind := shapeErrors_ofNamed h names site.callee hmatches hnames (params.map fun _ => false)
    rw [fits_named params hsite]
    constructor
    · rintro ⟨hclean, hfilled⟩
      exact ⟨_, (hbind _ 0).1 ⟨hclean, rfl⟩, hfilled⟩
    · rintro ⟨bound, hbound, hfilled⟩
      obtain ⟨hclean, rfl⟩ := (hbind _ 0).2 hbound
      exact ⟨hclean, hfilled⟩

end Check.CallStep
end ToneScript
