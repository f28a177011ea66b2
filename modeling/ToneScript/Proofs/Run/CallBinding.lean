import ToneScript.Proofs.Run.Binding
import ToneScript.Proofs.Syntax.Resolution
import ToneScript.Proofs.Typing.CallSteps

/-! What is checked of the arguments of a call and what happens to them in a run. The check sees which parameters
get a value, the run fills them one by one and stops at the first that cannot be filled; where the arguments have
values, both come to the same answer. -/
namespace ToneScript.Activation

variable {c : Context} {chain : Chain} {params : List (Ident × Option Number)} {slots : List (Option Value)}
  {callee : Ident} {style : CallStyle}

/-- The values that the parameters of a function get in a call. -/
def bindArguments (c : Context) (chain : Chain) (params : List (Ident × Option Number)) (site : CallSite) :
    Except EvalError (List Value) :=
  if site.style = .ordered ∧ params.length < site.args.length then
    .error (.located site.pos (.tooManyArguments (c.names.name site.callee)))
  else do
    let slots ← arguments c chain site.callee site.style params (params.map fun _ => none) 0 site.args
    fillDefaults c site.callee site.pos params slots

/-- A call binds its arguments and then invokes the function that it finds. -/
theorem call_eq_bindArguments {site : CallSite} {callable : Callable} {home : Chain}
    (h : chain.findFunction? site.callee = some (callable, home)) :
    call c chain site = (do
      let values ← bindArguments c chain callable.params site
      c.invoke callable home values site.pos) := by
  obtain ⟨callee, style, args, pos⟩ := site
  rw [call, h, bindArguments]
  simp only
  split
  · rfl
  · exact (bind_assoc ..).symm

/-- An argument that has found its place and has given its parameter a value leaves the rest to be bound. -/
theorem bindAll?_of_placeOf {i place : Nat} {arg : SiteArgument} {args : List SiteArgument} {v v' : Value}
    (hplace : placeOf c callee style params slots i arg = .ok place)
    (hvalue : argumentValue c ((params[place]?).bind Prod.snd) arg v = .ok v') :
    SiteArgument.bindAll? params style (slots.map Option.isSome) i (arg :: args) =
      SiteArgument.bindAll? params style ((slots.set place (some v')).map Option.isSome) (i + 1) args := by
  have hdefault : (arg.needsDefault && ((params[place]?).bind Prod.snd).isNone) = false := by
    cases arg with
    | opAssign name op value pos =>
      cases hd : (params[place]?).bind Prod.snd with
      | some d => rfl
      | none =>
        rw [argumentValue.eq_def, hd] at hvalue
        cases hvalue
    | shorthand | assign | positional => rfl
  have hfound : SiteArgument.bindAll? params style (slots.map Option.isSome) i (arg :: args) =
      (some place).bind fun place =>
        if arg.needsDefault && ((params[place]?).bind Prod.snd).isNone then none
        else SiteArgument.bindAll? params style ((slots.map Option.isSome).set place true) (i + 1) args := by
    rw [SiteArgument.bindAll?.eq_def]
    simp only
    congr 1
    rw [placeOf.eq_def] at hplace
    cases style with
    | ordered =>
      simp only at hplace
      cases hplace
      rfl
    | named =>
      cases hname : arg.name? with
      | none =>
        simp only [hname] at hplace
        cases hplace
        rfl
      | some name =>
        simp only [hname] at hplace
        cases hfind : params.findIdx? (·.1 == name) with
        | none => simp [hfind] at hplace
        | some found =>
          simp only [hfind] at hplace
          split at hplace
          · cases hplace
          · rename_i hfree
            cases hplace
            simp only [hfind, Option.filter_some, isSome_getD, hfree, Bool.not_false, if_true]
  rw [hfound, Option.bind_some, hdefault, List.map_set]
  rfl

/-- Where the arguments of a call have values, they are bound in a run if they can be bound at all. -/
theorem arguments_ok_iff {args : List SiteArgument} (hvalues : ∀ arg ∈ args, ∃ v, argument c chain arg = .ok v)
    (callee : Ident) (style : CallStyle) (params : List (Ident × Option Number)) (slots : List (Option Value))
    (i : Nat) (bound : List Bool) :
    (∃ slots', arguments c chain callee style params slots i args = .ok slots' ∧
        slots'.map Option.isSome = bound) ↔
      SiteArgument.bindAll? params style (slots.map Option.isSome) i args = some bound := by
  induction args generalizing slots i with
  | nil => simp [arguments, SiteArgument.bindAll?]
  | cons arg args ih =>
    obtain ⟨v, hv⟩ := hvalues arg List.mem_cons_self
    have hrest := ih fun arg harg => hvalues arg (List.mem_cons_of_mem _ harg)
    rw [arguments]
    constructor
    · rintro ⟨slots', h, hbound⟩
      obtain ⟨place, hplace, h⟩ := bind_eq_ok.1 h
      obtain ⟨w, hw, h⟩ := bind_eq_ok.1 h
      obtain ⟨v', hv', h⟩ := bind_eq_ok.1 h
      rw [bindAll?_of_placeOf hplace hv']
      exact (hrest _ _).1 ⟨slots', h, hbound⟩
    · intro h
      obtain ⟨place, hplace, hvalue, hbind⟩ := bind_ok c callee h
      obtain ⟨v', hv'⟩ := hvalue v
      obtain ⟨slots', hslots, hbound⟩ := (hrest _ _).2 (hbind v')
      exact ⟨slots', bind_eq_ok.2 ⟨place, hplace, bind_eq_ok.2 ⟨v, hv, bind_eq_ok.2 ⟨v', hv', hslots⟩⟩⟩, hbound⟩

/-- Where the arguments of a call have values, the parameters get theirs if the call fits them. -/
theorem bindArguments_ok_iff {site : CallSite} (hvalues : ∀ arg ∈ site.args, ∃ v, argument c chain arg = .ok v) :
    (∃ values, bindArguments c chain params site = .ok values) ↔ site.fits params = true := by
  have hnone : (params.map fun _ => (none : Option Value)).map Option.isSome = params.map fun _ => false := by
    rw [List.map_map]
    rfl
  have harguments := arguments_ok_iff hvalues site.callee site.style params (params.map fun _ => none) 0
  rw [hnone] at harguments
  rw [bindArguments, CallSite.fits, Bool.and_eq_true, decide_eq_true_eq, Option.any_eq_true]
  split
  · rename_i hmany
    refine iff_of_false (fun h => ?_) fun h => ?_
    · obtain ⟨values, hvalues⟩ := h
      cases hvalues
    · have hfew := h.1 hmany.1
      omega
  · rename_i hfew
    constructor
    · rintro ⟨values, h⟩
      obtain ⟨slots, hslots, hfill⟩ := bind_eq_ok.1 h
      refine ⟨fun hordered => Nat.le_of_not_lt fun hlt => hfew ⟨hordered, hlt⟩, slots.map Option.isSome, ?_, ?_⟩
      · exact (harguments _).1 ⟨slots, hslots, rfl⟩
      · exact (fillDefaults_ok_iff c site.callee site.pos).1 ⟨values, hfill⟩
    · rintro ⟨_, bound, hbound, hfilled⟩
      obtain ⟨slots, hslots, rfl⟩ := (harguments bound).2 hbound
      obtain ⟨values, hvalues⟩ := (fillDefaults_ok_iff c site.callee site.pos).2 hfilled
      exact ⟨values, bind_eq_ok.2 ⟨slots, hslots, hvalues⟩⟩

/-- The check of a call and the run of it agree on its arguments. In a call as it is read from its source, where
all arguments have values, the parameters get their values exactly if the check of the call, which takes the steps
listed for it, reports no error of its shape. -/
theorem bindArguments_ok_iff_shapeErrors {callee : String} {id : Ident} {given : List SiteArgument} {pos : Position}
    {site : CallSite} {trees : List Argument} {signature : Signature}
    (hsite : Resolution.callSite callee id given pos = .ok site)
    (htrees : SiteArgument.toArguments site.args = .ok trees) (hsignature : signature.Describes params)
    (hvalues : ∀ arg ∈ site.args, ∃ v, argument c chain arg = .ok v) (names : NameTable) :
    ((∃ values, bindArguments c chain params site = .ok values) ↔
      Check.CallStep.shapeErrors (Check.CallStep.ofCall names signature site trees) = []) ∧
    (∀ resolve frame?, Check.expr names resolve frame? (.call site trees) =
      Check.callBySteps names resolve frame? site trees) ∧
    ∀ callable home, chain.findFunction? site.callee = some (callable, home) → callable.params = params →
      call c chain site = (do
        let values ← bindArguments c chain params site
        c.invoke callable home values site.pos) := by
  obtain ⟨_, _, hstyle, _⟩ := Resolution.callSite_ok hsite
  have hmatches : List.Forall₂ Argument.Matches trees site.args :=
    (toArguments_forall₂ htrees).imp fun _ _ h => (toArgument_ok h).1
  refine ⟨?_, fun resolve frame? => Check.expr_call names resolve frame? site trees, ?_⟩
  · rw [bindArguments_ok_iff hvalues, Check.CallStep.shapeErrors_ofCall hsignature names hmatches hstyle]
  · rintro callable home hfind rfl
    exact call_eq_bindArguments hfind

/-- The call `f(c, b += 3, a = 1)` of a function with parameters `a`, `b` and `c`, the second of which has a
default. -/
def updatingCall : CallSite where
  callee := 0
  style := .named
  args := [.shorthand 3 ⟨[.slot 3 ⟨1, 3, 2, 0⟩], ⟨1, 3, 2, 0⟩⟩ ⟨1, 3, 2, 0⟩,
    .opAssign 2 .add ⟨[.value (.number 3) ⟨1, 11, 10, 0⟩], ⟨1, 11, 10, 0⟩⟩ ⟨1, 6, 5, 0⟩,
    .assign 1 ⟨[.value (.number 1) ⟨1, 18, 17, 0⟩], ⟨1, 18, 17, 0⟩⟩ ⟨1, 14, 13, 0⟩]
  pos := .start

def updatedParams : List (Ident × Option Number) := [(1, none), (2, some 2), (3, none)]

def updatedSignature : Signature :=
  ⟨.ofNumbers (updatedParams.map Prod.fst) .number, updatedParams.map Prod.snd, false⟩

theorem bindArguments_updatingCall :
    ∃ trees, SiteArgument.toArguments updatingCall.args = .ok trees ∧
      Check.CallStep.shapeErrors (Check.CallStep.ofCall {} updatedSignature updatingCall trees) = [] ∧
      ∃ values, bindArguments (context {} 8) [{ values := [(3, .number 5)] }] updatedParams updatingCall =
        .ok values := by
  have hsite : Resolution.callSite "f" 0 updatingCall.args .start = .ok updatingCall := rfl
  have hsignature : updatedSignature.Describes updatedParams := ⟨rfl, rfl⟩
  have hvalues : ∀ arg ∈ updatingCall.args,
      ∃ v, argument (context {} 8) [{ values := [(3, .number 5)] }] arg = .ok v := by
    simp only [updatingCall, List.forall_mem_cons]
    exact ⟨⟨_, rfl⟩, ⟨_, rfl⟩, ⟨_, rfl⟩, List.forall_mem_nil _⟩
  obtain ⟨trees, htrees, hclean⟩ : ∃ trees, SiteArgument.toArguments updatingCall.args = .ok trees ∧
      Check.CallStep.shapeErrors (Check.CallStep.ofCall {} updatedSignature updatingCall trees) = [] :=
    ⟨_, rfl, rfl⟩
  exact ⟨trees, htrees, hclean, (bindArguments_ok_iff_shapeErrors hsite htrees hsignature hvalues {}).1.2 hclean⟩

end ToneScript.Activation
