import Mathlib.Data.List.Nodup
import ToneScript.Proofs.Run.CallBinding

/-! The values that the parameters of a function get in a call. They are given parameter by parameter, where binding goes
through the arguments one by one; the main statement is that both come to the same, so that the order of named arguments
does not matter. -/
namespace ToneScript

/-- Calls whose arguments are as their style says: by name in a named call, by place in an ordered one. -/
def CallSite.WellFormed (site : CallSite) : Prop :=
  ∀ arg ∈ site.args, arg.name? = none ↔ site.style = .ordered

/-- The argument for a parameter: the one at its place in an ordered call, the first that names it in a named one. -/
def SiteArgument.for? (style : CallStyle) (args : List SiteArgument) (i : Nat) (name : Ident) : Option SiteArgument :=
  match style with
  | .ordered => args[i]?
  | .named => args.find? (·.name? == some name)

/-- Whether every argument is for a parameter of its own. -/
def SiteArgument.AllFor (style : CallStyle) (params : List (Ident × Option Number)) (args : List SiteArgument) : Prop :=
  match style with
  | .ordered => args.length ≤ params.length
  | .named => (args.map SiteArgument.name?).Nodup ∧ ∀ arg ∈ args, ∃ param ∈ params, arg.name? = some param.1

namespace Activation

/-- The value that an argument gives to a parameter: its own, or the parameter's default combined with it. -/
def supply (c : Context) (chain : Chain) (default? : Option Number) (arg : SiteArgument) : Option Value :=
  match argument c chain arg with
  | .error _ => none
  | .ok v =>
    match arg with
    | .opAssign _ op _ _ => default?.map fun d => op.applyBinary (.number d) v
    | .shorthand .. | .assign .. | .positional .. => some v

/-- The value that the parameter at a place gets in a call: from the argument for it, else its default. -/
def boundValue (c : Context) (chain : Chain) (site : CallSite) (i : Nat) (param : Ident × Option Number) : Option Value :=
  match SiteArgument.for? site.style site.args i param.1 with
  | some arg => supply c chain param.2 arg
  | none => param.2.map Value.number

/-- What has been put into the slots of parameters after some arguments. -/
def slotsAfter (c : Context) (chain : Chain) (style : CallStyle) (params : List (Ident × Option Number))
    (args : List SiteArgument) : List (Option Value) :=
  params.mapIdx fun i param => (SiteArgument.for? style args i param.1).bind (supply c chain param.2)

variable {c : Context} {chain : Chain} {callee : Ident} {style : CallStyle} {params : List (Ident × Option Number)}
  {slots slots' : List (Option Value)} {i place : Nat} {arg : SiteArgument} {args done rest : List SiteArgument}

theorem supply_eq_some_iff {default? : Option Number} {w : Value} : supply c chain default? arg = some w ↔
    ∃ v, argument c chain arg = .ok v ∧ argumentValue c default? arg v = .ok w := by
  unfold supply
  cases hv : argument c chain arg with
  | error e => simp
  | ok v =>
    cases arg with
    | opAssign name op value pos => cases default? <;> simp [argumentValue]
    | shorthand | assign | positional => simp [argumentValue]

/-- The first argument is bound if it has a place and a value for it, and then the others are. -/
theorem arguments_cons_ok_iff : arguments c chain callee style params slots i (arg :: args) = .ok slots' ↔
    ∃ place w, placeOf c callee style params slots i arg = .ok place ∧
      supply c chain ((params[place]?).bind Prod.snd) arg = some w ∧
      arguments c chain callee style params (slots.set place (some w)) (i + 1) args = .ok slots' := by
  rw [arguments]
  constructor
  · intro h
    obtain ⟨place, hplace, h⟩ := bind_eq_ok.1 h
    obtain ⟨v, hv, h⟩ := bind_eq_ok.1 h
    obtain ⟨w, hw, h⟩ := bind_eq_ok.1 h
    exact ⟨place, w, hplace, supply_eq_some_iff.mpr ⟨v, hv, hw⟩, h⟩
  · rintro ⟨place, w, hplace, hw, h⟩
    obtain ⟨v, hv, hw⟩ := supply_eq_some_iff.mp hw
    exact bind_eq_ok.2 ⟨place, hplace, bind_eq_ok.2 ⟨v, hv, bind_eq_ok.2 ⟨w, hw, h⟩⟩⟩

/-! ### Places of arguments -/

/-- An argument behind others is for the parameter at a place, and for no other one. -/
def Addresses (style : CallStyle) (params : List (Ident × Option Number)) (done : List SiteArgument) (arg : SiteArgument)
    (place : Nat) : Prop :=
  ∀ i param, params[i]? = some param → SiteArgument.for? style (done ++ [arg]) i param.1 =
    if i = place then some arg else SiteArgument.for? style done i param.1

/-- Whether every argument that is for a parameter has a value for it. -/
def AllSupply (c : Context) (chain : Chain) (style : CallStyle) (params : List (Ident × Option Number))
    (args : List SiteArgument) : Prop :=
  ∀ i param arg, params[i]? = some param → SiteArgument.for? style args i param.1 = some arg →
    (supply c chain param.2 arg).isSome

theorem addresses_ordered (params : List (Ident × Option Number)) (done : List SiteArgument) (arg : SiteArgument) :
    Addresses .ordered params done arg done.length := by
  intro i param _
  show (done ++ [arg])[i]? = if i = done.length then some arg else done[i]?
  by_cases hlast : i = done.length
  · simp [hlast]
  · rw [if_neg hlast, List.getElem?_append]
    split
    · rfl
    · have hbeyond : done[i]? = none := List.getElem?_eq_none (by omega)
      rw [hbeyond, List.getElem?_eq_none]
      simp only [List.length_singleton]
      omega

theorem addresses_named (hparams : (params.map Prod.fst).Nodup) {param : Ident × Option Number}
    (hplace : params[place]? = some param) (hname : arg.name? = some param.1)
    (hnew : SiteArgument.for? .named done place param.1 = none) : Addresses .named params done arg place := by
  intro i param' hparam
  show (done ++ [arg]).find? (·.name? == some param'.1) = _
  rw [List.find?_append]
  by_cases hi : i = place
  · have heq : param' = param := by
      rw [hi, hplace] at hparam
      exact (Option.some.inj hparam).symm
    have hnone : done.find? (·.name? == some param.1) = none := hnew
    rw [if_pos hi, heq, hnone, List.find?_singleton, hname]
    simp
  · have hother : param.1 ≠ param'.1 := by
      intro heq
      have hnames : (params.map Prod.fst)[i]? = (params.map Prod.fst)[place]? := by
        rw [List.getElem?_map, List.getElem?_map, hparam, hplace]
        exact congrArg some heq.symm
      have hlt : i < (params.map Prod.fst).length := by
        rw [List.length_map]
        exact (List.getElem?_eq_some_iff.mp hparam).1
      exact hi ((List.getElem?_inj hlt hparams).mp hnames)
    rw [if_neg hi, List.find?_singleton, hname]
    have hne : (some param.1 == some param'.1) = false := by simpa using hother
    rw [hne]
    exact Option.or_none

section Step

variable (haddresses : Addresses style params done arg place)

include haddresses

theorem Addresses.slotsAfter {param : Ident × Option Number} {w : Value} (hplace : params[place]? = some param)
    (hw : supply c chain param.2 arg = some w) :
    (slotsAfter c chain style params done).set place (some w) = slotsAfter c chain style params (done ++ [arg]) := by
  apply List.ext_getElem?
  intro i
  unfold Activation.slotsAfter
  rw [List.getElem?_set, List.getElem?_mapIdx, List.getElem?_mapIdx, List.length_mapIdx]
  cases hparam : params[i]? with
  | none =>
    have hbeyond : ¬i < params.length := by
      rw [List.getElem?_eq_none_iff] at hparam
      omega
    split
    · rw [if_neg (by omega)]
      rfl
    · rfl
  | some param' =>
    simp only [Option.map_some]
    rw [haddresses i param' hparam]
    by_cases hi : place = i
    · have hlt : place < params.length := (List.getElem?_eq_some_iff.mp hplace).1
      have heq : param' = param := by
        rw [← hi, hplace] at hparam
        exact (Option.some.inj hparam).symm
      rw [if_pos hi, if_pos hlt, if_pos hi.symm, heq, Option.bind_some, hw]
    · rw [if_neg hi, if_neg (Ne.symm hi)]

theorem Addresses.allSupply_iff {param : Ident × Option Number} (hplace : params[place]? = some param)
    (hdone : AllSupply c chain style params done) :
    AllSupply c chain style params (done ++ [arg]) ↔ (supply c chain param.2 arg).isSome := by
  constructor
  · intro hall
    refine hall place param arg hplace ?_
    rw [haddresses place param hplace, if_pos rfl]
  · intro hsome i param' arg' hparam hfor
    rw [haddresses i param' hparam] at hfor
    split at hfor
    · rename_i hi
      rw [hi, hplace] at hparam
      cases hparam
      cases hfor
      exact hsome
    · exact hdone i param' arg' hparam hfor

end Step

theorem getD_slotsAfter {param : Ident × Option Number} (hplace : params[place]? = some param) :
    (slotsAfter c chain style params done).getD place none =
      (SiteArgument.for? style done place param.1).bind (supply c chain param.2) := by
  unfold slotsAfter
  rw [List.getD_eq_getElem?_getD, List.getElem?_mapIdx, hplace]
  rfl

theorem placeOf_named_iff {name : Ident} (hname : arg.name? = some name) :
    placeOf c callee .named params slots i arg = .ok place ↔
      params.findIdx? (·.1 == name) = some place ∧ slots.getD place none = none := by
  cases hfind : params.findIdx? (·.1 == name) with
  | none => simp [placeOf, hname, hfind]
  | some found =>
    simp only [placeOf, hname, hfind, Option.some_inj]
    by_cases hfilled : (slots.getD found none).isSome
    · rw [if_pos hfilled]
      constructor
      · intro h
        cases h
      · rintro ⟨rfl, hfree⟩
        rw [hfree] at hfilled
        cases hfilled
    · rw [if_neg hfilled]
      constructor
      · intro h
        cases h
        exact ⟨rfl, by simpa using hfilled⟩
      · rintro ⟨rfl, -⟩
        rfl

/-- Where an argument goes, it is for the parameter there, and no argument before it was. -/
theorem addresses_of_placeOf (hparams : (params.map Prod.fst).Nodup) (hwf : arg.name? = none ↔ style = .ordered)
    (hroom : style = .ordered → done.length < params.length) (hfor : SiteArgument.AllFor style params done)
    (hsupply : AllSupply c chain style params done)
    (h : placeOf c callee style params (slotsAfter c chain style params done) done.length arg = .ok place) :
    place < params.length ∧ Addresses style params done arg place ∧ SiteArgument.AllFor style params (done ++ [arg]) := by
  cases style with
  | ordered =>
    have hlt := hroom rfl
    cases h
    refine ⟨hlt, addresses_ordered params done arg, ?_⟩
    show (done ++ [arg]).length ≤ params.length
    rw [List.length_append, List.length_singleton]
    omega
  | named =>
    obtain ⟨name, hname⟩ : ∃ name, arg.name? = some name := by
      rw [← Option.ne_none_iff_exists']
      intro hnone
      cases hwf.mp hnone
    obtain ⟨hfind, hfree⟩ := (placeOf_named_iff hname).mp h
    obtain ⟨hlt, hfound, -⟩ := List.findIdx?_eq_some_iff_getElem.mp hfind
    have hplace : params[place]? = some params[place] := List.getElem?_eq_getElem hlt
    have hkey : arg.name? = some (params[place]).1 := by
      rw [hname, beq_iff_eq.mp hfound]
    have hnew : SiteArgument.for? .named done place (params[place]).1 = none := by
      rw [getD_slotsAfter hplace] at hfree
      cases hbefore : SiteArgument.for? .named done place (params[place]).1 with
      | none => rfl
      | some arg' =>
        have hsome := hsupply place _ arg' hplace hbefore
        rw [hbefore, Option.bind_some] at hfree
        rw [hfree] at hsome
        cases hsome
    refine ⟨hlt, addresses_named hparams hplace hkey hnew, ?_, ?_⟩
    · rw [List.map_append, List.nodup_append]
      refine ⟨hfor.1, List.nodup_singleton _, ?_⟩
      intro key hmem key' hlast heq
      obtain ⟨arg', harg', rfl⟩ := List.mem_map.mp hmem
      rw [List.map_singleton, List.mem_singleton, hkey] at hlast
      have hunlike := List.find?_eq_none.mp hnew arg' harg'
      rw [heq, hlast] at hunlike
      simp at hunlike
    · intro arg' harg'
      rcases List.mem_append.mp harg' with hold | hlast
      · exact hfor.2 arg' hold
      · rw [List.mem_singleton.mp hlast]
        exact ⟨params[place], List.getElem_mem hlt, hkey⟩

/-- An argument that has a parameter of its own goes to some place. -/
theorem exists_placeOf (c : Context) (chain : Chain) (callee : Ident) (hwf : arg.name? = none ↔ style = .ordered)
    (hfor : SiteArgument.AllFor style params (done ++ [arg])) :
    ∃ place, placeOf c callee style params (slotsAfter c chain style params done) done.length arg = .ok place := by
  cases style with
  | ordered => exact ⟨done.length, rfl⟩
  | named =>
    obtain ⟨hnodup, hnamed⟩ := hfor
    obtain ⟨param, hparam, hname⟩ := hnamed arg (by simp)
    cases hfind : params.findIdx? (·.1 == param.1) with
    | none =>
      have hunlike := List.findIdx?_eq_none_iff.mp hfind param hparam
      simp at hunlike
    | some place =>
      obtain ⟨hlt, hfound, -⟩ := List.findIdx?_eq_some_iff_getElem.mp hfind
      have hnew : SiteArgument.for? .named done place (params[place]).1 = none := by
        show done.find? _ = none
        rw [List.find?_eq_none]
        intro arg' harg'
        rw [List.map_append, List.nodup_append] at hnodup
        have hapart := hnodup.2.2 _ (List.mem_map_of_mem harg') _ (List.mem_map_of_mem (List.mem_singleton_self arg))
        rw [hname, ← beq_iff_eq.mp hfound] at hapart
        simpa using hapart
      refine ⟨place, (placeOf_named_iff hname).mpr ⟨hfind, ?_⟩⟩
      rw [getD_slotsAfter (List.getElem?_eq_getElem hlt), hnew]
      rfl

/-! ### A whole call -/

theorem for?_nil (style : CallStyle) (i : Nat) (name : Ident) : SiteArgument.for? style [] i name = none := by
  cases style <;> rfl

theorem allFor_nil (style : CallStyle) (params : List (Ident × Option Number)) : SiteArgument.AllFor style params [] := by
  cases style with
  | ordered => exact Nat.zero_le params.length
  | named => exact ⟨List.nodup_nil, fun arg harg => absurd harg List.not_mem_nil⟩

theorem allSupply_nil (c : Context) (chain : Chain) (style : CallStyle) (params : List (Ident × Option Number)) :
    AllSupply c chain style params [] := by
  intro i param arg _ hfor
  rw [for?_nil] at hfor
  cases hfor

theorem slotsAfter_nil (c : Context) (chain : Chain) (style : CallStyle) (params : List (Ident × Option Number)) :
    slotsAfter c chain style params [] = params.map fun _ => none := by
  apply List.ext_getElem?
  intro i
  unfold slotsAfter
  rw [List.getElem?_mapIdx, List.getElem?_map]
  simp only [for?_nil, Option.bind_none]

theorem allFor_of_append (h : SiteArgument.AllFor style params (done ++ rest)) : SiteArgument.AllFor style params done := by
  cases style with
  | ordered =>
    have hlength : (done ++ rest).length ≤ params.length := h
    rw [List.length_append] at hlength
    show done.length ≤ params.length
    omega
  | named =>
    obtain ⟨hnodup, hnamed⟩ := h
    rw [List.map_append, List.nodup_append] at hnodup
    exact ⟨hnodup.1, fun arg harg => hnamed arg (List.mem_append_left rest harg)⟩

theorem allSupply_of_append (h : AllSupply c chain style params (done ++ rest)) :
    AllSupply c chain style params done := by
  intro i param arg hparam hfor
  apply h i param arg hparam
  cases style with
  | ordered =>
    have hget : done[i]? = some arg := hfor
    obtain ⟨hlt, -⟩ := List.getElem?_eq_some_iff.mp hget
    show (done ++ rest)[i]? = some arg
    rw [List.getElem?_append_left hlt]
    exact hget
  | named =>
    have hfind : done.find? (·.name? == some param.1) = some arg := hfor
    show (done ++ rest).find? _ = some arg
    rw [List.find?_append, hfind]
    rfl

/-- From the slots that some arguments have filled, the others are bound if each is for a parameter of its own and has a
value for it; then the slots hold the values from all of them. -/
theorem arguments_eq_ok_iff (hparams : (params.map Prod.fst).Nodup)
    (hwf : ∀ arg ∈ rest, arg.name? = none ↔ style = .ordered)
    (hroom : style = .ordered → done.length + rest.length ≤ params.length)
    (hfor : SiteArgument.AllFor style params done) (hsupply : AllSupply c chain style params done) :
    arguments c chain callee style params (slotsAfter c chain style params done) done.length rest = .ok slots' ↔
      SiteArgument.AllFor style params (done ++ rest) ∧ AllSupply c chain style params (done ++ rest) ∧
        slots' = slotsAfter c chain style params (done ++ rest) := by
  induction rest generalizing done with
  | nil =>
    rw [arguments, List.append_nil]
    simp [hfor, hsupply, eq_comm]
  | cons arg rest ih =>
    have happend : done ++ arg :: rest = done ++ [arg] ++ rest := by simp
    have hlength : (done ++ [arg]).length = done.length + 1 := by simp
    have hroomRest : style = .ordered → (done ++ [arg]).length + rest.length ≤ params.length := by
      intro hordered
      have hle := hroom hordered
      rw [List.length_cons] at hle
      omega
    have hwfRest : ∀ arg' ∈ rest, arg'.name? = none ↔ style = .ordered :=
      fun arg' harg' => hwf arg' (List.mem_cons_of_mem arg harg')
    have hwfArg := hwf arg List.mem_cons_self
    have hroomArg : style = .ordered → done.length < params.length := by
      intro hordered
      have hle := hroom hordered
      rw [List.length_cons] at hle
      omega
    have hrest := fun hfor hsupply => ih hwfRest hroomRest hfor hsupply
    rw [hlength] at hrest
    rw [arguments_cons_ok_iff, happend]
    constructor
    · rintro ⟨place, w, hplace, hw, h⟩
      obtain ⟨hlt, haddresses, hforArg⟩ := addresses_of_placeOf hparams hwfArg hroomArg hfor hsupply hplace
      have hget : params[place]? = some params[place] := List.getElem?_eq_getElem hlt
      rw [hget] at hw
      have hw' : supply c chain (params[place]).2 arg = some w := hw
      have hsupplyArg : AllSupply c chain style params (done ++ [arg]) := by
        rw [haddresses.allSupply_iff hget hsupply, hw']
        rfl
      rw [haddresses.slotsAfter hget hw'] at h
      exact (hrest hforArg hsupplyArg).mp h
    · rintro ⟨hforAll, hsupplyAll, hslots⟩
      have hforArg := allFor_of_append hforAll
      have hsupplyArg := allSupply_of_append hsupplyAll
      obtain ⟨place, hplace⟩ := exists_placeOf c chain callee hwfArg hforArg
      obtain ⟨hlt, haddresses, -⟩ := addresses_of_placeOf hparams hwfArg hroomArg hfor hsupply hplace
      have hget : params[place]? = some params[place] := List.getElem?_eq_getElem hlt
      obtain ⟨w, hw⟩ := Option.isSome_iff_exists.mp ((haddresses.allSupply_iff hget hsupply).mp hsupplyArg)
      refine ⟨place, w, hplace, ?_, ?_⟩
      · rw [hget]
        exact hw
      · rw [haddresses.slotsAfter hget hw]
        exact (hrest hforArg hsupplyArg).mpr ⟨hforAll, hsupplyAll, hslots⟩

section Site

variable {site : CallSite} {values : List Value}

theorem zipWith_slotsAfter (hsupply : AllSupply c chain site.style params site.args) :
    List.zipWith (fun param slot => slot.or (param.2.map Value.number)) params
        (slotsAfter c chain site.style params site.args) =
      params.mapIdx (boundValue c chain site) := by
  apply List.ext_getElem?
  intro i
  unfold slotsAfter
  rw [List.getElem?_zipWith, List.getElem?_mapIdx, List.getElem?_mapIdx]
  cases hparam : params[i]? with
  | none => rfl
  | some param =>
    simp only [Option.map_some, boundValue]
    cases hfor : SiteArgument.for? site.style site.args i param.1 with
    | none => rfl
    | some arg =>
      obtain ⟨w, hw⟩ := Option.isSome_iff_exists.mp (hsupply i param arg hparam hfor)
      simp only [Option.bind_some, hw]
      rfl

/-- Where all parameters get a value, the arguments for them have one. -/
theorem allSupply_of_boundValue (h : values.map some = params.mapIdx (boundValue c chain site)) :
    AllSupply c chain site.style params site.args := by
  intro i param arg hparam hfor
  have hvalue := congrArg (·[i]?) h
  simp only [List.getElem?_map, List.getElem?_mapIdx, hparam, Option.map_some, boundValue, hfor] at hvalue
  obtain ⟨v, -, hv⟩ := Option.map_eq_some_iff.mp hvalue
  rw [← hv]
  rfl

/-- A call binds its arguments exactly if each of them is for a parameter of its own and every parameter gets a value, and
then to these values. -/
theorem bindArguments_eq_ok_iff (hparams : (params.map Prod.fst).Nodup) (hsite : site.WellFormed) :
    bindArguments c chain params site = .ok values ↔
      SiteArgument.AllFor site.style params site.args ∧ values.map some = params.mapIdx (boundValue c chain site) := by
  have hlength : ∀ args, (slotsAfter c chain site.style params args).length = params.length := by
    simp [slotsAfter]
  have harguments : ∀ slots, (site.style = .ordered → site.args.length ≤ params.length) →
      (arguments c chain site.callee site.style params (params.map fun _ => none) 0 site.args = .ok slots ↔
        SiteArgument.AllFor site.style params site.args ∧ AllSupply c chain site.style params site.args ∧
          slots = slotsAfter c chain site.style params site.args) := by
    intro slots hroom
    have hroomAll : site.style = .ordered → ([] : List SiteArgument).length + site.args.length ≤ params.length :=
      fun hordered => by simpa using hroom hordered
    rw [← slotsAfter_nil c chain site.style params]
    exact arguments_eq_ok_iff hparams hsite hroomAll (allFor_nil site.style params)
      (allSupply_nil c chain site.style params)
  unfold bindArguments
  by_cases hmany : site.style = .ordered ∧ params.length < site.args.length
  · rw [if_pos hmany]
    constructor
    · intro h
      cases h
    · rintro ⟨hfor, -⟩
      rw [hmany.1] at hfor
      have hle : site.args.length ≤ params.length := hfor
      omega
  · rw [if_neg hmany]
    have hroom : site.style = .ordered → site.args.length ≤ params.length := by
      intro hordered
      by_contra hlt
      exact hmany ⟨hordered, by omega⟩
    constructor
    · intro h
      obtain ⟨slots, hslots, hfill⟩ := bind_eq_ok.1 h
      obtain ⟨hfor, hsupply, rfl⟩ := (harguments slots hroom).mp hslots
      rw [fillDefaults_eq_ok_iff (hlength _), zipWith_slotsAfter hsupply] at hfill
      exact ⟨hfor, hfill⟩
    · rintro ⟨hfor, hvalues⟩
      have hsupply := allSupply_of_boundValue hvalues
      refine bind_eq_ok.2 ⟨_, (harguments _ hroom).mpr ⟨hfor, hsupply, rfl⟩, ?_⟩
      rw [fillDefaults_eq_ok_iff (hlength _), zipWith_slotsAfter hsupply]
      exact hvalues

/-- Arguments with different names are found whatever their order. -/
theorem for?_named_perm (hnodup : (site.args.map SiteArgument.name?).Nodup) (hperm : args.Perm site.args) (i : Nat)
    (name : Ident) : SiteArgument.for? .named args i name = SiteArgument.for? .named site.args i name := by
  have hunique : ∀ arg ∈ site.args, ∀ arg' ∈ site.args, arg.name? = arg'.name? → arg = arg' := by
    intro arg harg arg' harg' heq
    exact List.inj_on_of_nodup_map hnodup harg harg' heq
  show args.find? (·.name? == some name) = site.args.find? (·.name? == some name)
  cases hfind : args.find? (·.name? == some name) with
  | none =>
    symm
    rw [List.find?_eq_none] at hfind ⊢
    intro arg harg
    exact hfind arg (hperm.mem_iff.mpr harg)
  | some arg =>
    have harg := hperm.mem_iff.mp (List.mem_of_find?_eq_some hfind)
    have hname : arg.name? = some name := by simpa using List.find?_some hfind
    cases hfind' : site.args.find? (·.name? == some name) with
    | none =>
      have hunlike := List.find?_eq_none.mp hfind' arg harg
      rw [hname] at hunlike
      simp at hunlike
    | some arg' =>
      have harg' := List.mem_of_find?_eq_some hfind'
      have hname' : arg'.name? = some name := by simpa using List.find?_some hfind'
      rw [hunique arg harg arg' harg' (hname.trans hname'.symm)]

theorem allFor_named_perm (hperm : args.Perm rest) (h : SiteArgument.AllFor .named params rest) :
    SiteArgument.AllFor .named params args :=
  ⟨(hperm.map SiteArgument.name?).nodup_iff.mpr h.1, fun arg harg => h.2 arg (hperm.mem_iff.mp harg)⟩

/-- An order of named arguments in which they are bound can be changed into any other. -/
theorem bindArguments_perm_ok (hparams : (params.map Prod.fst).Nodup) (hsite : site.WellFormed)
    (hnamed : site.style = .named) (hperm : args.Perm site.args) (h : bindArguments c chain params site = .ok values) :
    bindArguments c chain params { site with args := args } = .ok values := by
  have hsite' : ({ site with args := args } : CallSite).WellFormed :=
    fun arg harg => hsite arg (hperm.mem_iff.mp harg)
  rw [bindArguments_eq_ok_iff hparams hsite] at h
  rw [bindArguments_eq_ok_iff hparams hsite']
  obtain ⟨hfor, hvalues⟩ := h
  rw [hnamed] at hfor
  have hbound : boundValue c chain { site with args := args } = boundValue c chain site := by
    funext i param
    simp only [boundValue, hnamed, for?_named_perm hfor.1 hperm]
  constructor
  · show SiteArgument.AllFor site.style params args
    rw [hnamed]
    exact allFor_named_perm hperm hfor
  · rw [hvalues, hbound]

/-- Binding gives the parameters the values declared for them. If it succeeds, there is one value for each parameter, in
order: that of the argument at its place or of its name, an update applied to the default, or else the default; no
argument is left over, and none is given twice. The order of named arguments changes neither whether they are bound nor
to what, even where some of them have no value. -/
theorem bindArguments_declared (c : Context) (chain : Chain) (hparams : (params.map Prod.fst).Nodup)
    (hsite : site.WellFormed) :
    (∀ values, bindArguments c chain params site = .ok values →
      values.length = params.length ∧ values.map some = params.mapIdx (boundValue c chain site) ∧
        SiteArgument.AllFor site.style params site.args) ∧
    (site.style = .named → ∀ args, args.Perm site.args →
      (bindArguments c chain params { site with args := args }).toOption = (bindArguments c chain params site).toOption) := by
  constructor
  · intro values h
    obtain ⟨hfor, hvalues⟩ := (bindArguments_eq_ok_iff hparams hsite).mp h
    have hlength := congrArg List.length hvalues
    rw [List.length_map, List.length_mapIdx] at hlength
    exact ⟨hlength, hvalues, hfor⟩
  · intro hnamed args hperm
    have hsite' : ({ site with args := args } : CallSite).WellFormed :=
      fun arg harg => hsite arg (hperm.mem_iff.mp harg)
    have hback : ∀ values, bindArguments c chain params { site with args := args } = .ok values →
        bindArguments c chain params site = .ok values :=
      fun values => bindArguments_perm_ok hparams hsite' hnamed hperm.symm
    cases h : bindArguments c chain params site with
    | ok values => rw [bindArguments_perm_ok hparams hsite hnamed hperm h]
    | error e =>
      cases h' : bindArguments c chain params { site with args := args } with
      | error e' => rfl
      | ok values =>
        rw [hback values h'] at h
        cases h

end Site

/-- The parameters of `f(c, b += 3, a = 1)` get one, three more than the default two, and the caller's five, and so they do
in `f(a = 1, b += 3, c)`. -/
theorem bindArguments_declared_updatingCall :
    let caller : Chain := [{ values := [(3, .number 5)] }]
    let values := [.number 1, Operator.add.applyBinary (.number 2) (.number 3), .number 5]
    (updatedParams.map Prod.fst).Nodup ∧ updatingCall.WellFormed ∧
      bindArguments (context {} 8) caller updatedParams updatingCall = .ok values ∧ values.length = updatedParams.length ∧
      values.map some = updatedParams.mapIdx (boundValue (context {} 8) caller updatingCall) ∧
      (bindArguments (context {} 8) caller updatedParams { updatingCall with args := updatingCall.args.reverse }).toOption =
        (bindArguments (context {} 8) caller updatedParams updatingCall).toOption := by
  intro caller values
  have hparams : (updatedParams.map Prod.fst).Nodup := by decide
  have hsite : updatingCall.WellFormed := by
    unfold CallSite.WellFormed
    simp [updatingCall, SiteArgument.name?]
  have hbound : bindArguments (context {} 8) caller updatedParams updatingCall = .ok values := rfl
  obtain ⟨hvalues, horder⟩ := bindArguments_declared (context {} 8) caller hparams hsite
  obtain ⟨hlength, hdeclared, -⟩ := hvalues values hbound
  exact ⟨hparams, hsite, hbound, hlength, hdeclared, horder rfl _ (List.reverse_perm updatingCall.args)⟩

end Activation
end ToneScript
