import ToneScript.Proofs.Compilation.Native
import ToneScript.Proofs.Typing.Rules

/-! The arguments of a call that fits the parameters of a function are bound to them without an error. -/
namespace ToneScript

theorem Value.ty_applyBinary {op : Operator} (hop : op.isPrefix = false) (l r : Value) :
    (op.applyBinary l r).ty = if op.isArithmetic then .number else .boolean := by
  cases op <;> first | rfl | cases hop

theorem Value.ty_applyPrefix (op : Operator) (v : Value) :
    (op.applyPrefix v).ty = if op = .not then .boolean else .number := by
  cases op <;> rfl

theorem Operator.isPrefix_of_isArithmetic {op : Operator} (h : op.isArithmetic = true) :
    op.isPrefix = false := by
  cases op <;> first | rfl | cases h

theorem Intrinsic.ty_apply (i : Intrinsic) (args : List Value) : (i.apply args).ty = .number := by
  cases i <;> rfl

namespace Activation

variable {c : Context} {params : List (Ident × Option Number)} {slots : List (Option Value)}

theorem isSome_getD (slots : List (Option Value)) (place : Nat) :
    (slots.map Option.isSome).getD place false = (slots.getD place none).isSome := by
  rw [List.getD_eq_getElem?_getD, List.getD_eq_getElem?_getD, List.getElem?_map]
  cases slots[place]? <;> rfl

/-- An argument that fits has a place, and its value goes there. -/
theorem bind_ok (c : Context) (callee : Ident) {style : CallStyle} {i : Nat} {arg : SiteArgument}
    {args : List SiteArgument} {bound : List Bool}
    (h : SiteArgument.bindAll? params style (slots.map Option.isSome) i (arg :: args) = some bound) :
    ∃ place, placeOf c callee style params slots i arg = .ok place ∧
      (∀ v, ∃ v', argumentValue c ((params[place]?).bind Prod.snd) arg v = .ok v') ∧
      ∀ v, SiteArgument.bindAll? params style ((slots.set place (some v)).map Option.isSome) (i + 1) args =
        some bound := by
  unfold SiteArgument.bindAll? at h
  obtain ⟨place, hplace, hrest⟩ := Option.bind_eq_some_iff.1 h
  refine ⟨place, ?_, ?_, ?_⟩
  · cases style with
    | ordered =>
      cases hplace
      cases arg <;> rfl
    | named =>
      cases hname : arg.name? with
      | none =>
        rw [hname] at hplace
        simpa [placeOf, hname] using hplace
      | some name =>
        rw [hname] at hplace
        obtain ⟨hfind, hfree⟩ := Option.filter_eq_some_iff.1 hplace
        rw [isSome_getD] at hfree
        simp only [placeOf, hname, hfind]
        exact if_neg (by simpa using hfree)
  · intro v
    unfold argumentValue
    split
    · rename_i name op value pos
      cases hdefault : (params[place]?).bind Prod.snd with
      | none => simp [hdefault, SiteArgument.needsDefault] at hrest
      | some d => exact ⟨_, rfl⟩
    · exact ⟨v, rfl⟩
  · intro v
    split at hrest
    · cases hrest
    · rwa [List.map_set]

theorem ty_argumentValue {default? : Option Number} {arg : SiteArgument} {v v' : Value}
    (h : argumentValue c default? arg v = .ok v') (hv : v.ty = .number)
    (hop : ∀ name op value pos, arg = .opAssign name op value pos → op.isArithmetic = true) :
    v'.ty = .number := by
  unfold argumentValue at h
  split at h
  · rename_i name op value pos
    have harithmetic := hop name op value pos rfl
    cases default? with
    | some d =>
      cases h
      rw [Value.ty_applyBinary (Operator.isPrefix_of_isArithmetic harithmetic), if_pos harithmetic]
    | none => cases h
  · cases h
    exact hv

section Defaults

variable {callee : Ident} {pos : Position} {values : List Value}

/-- The first parameter gets the value of its slot, or else its default, if the other parameters get theirs. -/
theorem fillDefaults_cons_ok_iff {param : Ident × Option Number} {slot : Option Value} :
    fillDefaults c callee pos (param :: params) (slot :: slots) = .ok values ↔
      ∃ v rest, slot.or (param.2.map Value.number) = some v ∧
        fillDefaults c callee pos params slots = .ok rest ∧ values = v :: rest := by
  rw [fillDefaults]
  cases slot.or (param.2.map Value.number) with
  | none => simp
  | some v => cases fillDefaults c callee pos params slots <;> simp [Except.map, eq_comm]

theorem fillDefaults_ok_iff (c : Context) (callee : Ident) (pos : Position) :
    (∃ values, fillDefaults c callee pos params slots = .ok values) ↔
      filled params (slots.map Option.isSome) = true := by
  induction params generalizing slots with
  | nil => exact iff_of_true ⟨[], by rw [fillDefaults]; nofun⟩ rfl
  | cons param params ih =>
    cases slots with
    | nil => exact iff_of_true ⟨[], by rw [fillDefaults]; nofun⟩ rfl
    | cons slot slots =>
      have hslot : (∃ v, slot.or (param.2.map Value.number) = some v) ↔
          (slot.isSome || param.2.isSome) = true := by
        rw [← Option.isSome_iff_exists, Option.isSome_or, Option.isSome_map]
      rw [List.map_cons, filled, Bool.and_eq_true, ← ih, ← hslot]
      constructor
      · rintro ⟨values, h⟩
        obtain ⟨v, rest, hv, hrest, rfl⟩ := fillDefaults_cons_ok_iff.1 h
        exact ⟨⟨v, hv⟩, rest, hrest⟩
      · rintro ⟨⟨v, hv⟩, rest, hrest⟩
        exact ⟨_, fillDefaults_cons_ok_iff.2 ⟨v, rest, hv, hrest, rfl⟩⟩

/-- Parameters get the values of their slots, or else their defaults, and there has to be one then. -/
theorem fillDefaults_eq_ok_iff (hlength : slots.length = params.length) :
    fillDefaults c callee pos params slots = .ok values ↔
      values.map some = List.zipWith (fun param slot => slot.or (param.2.map Value.number)) params slots := by
  induction params generalizing slots values with
  | nil =>
    obtain rfl := List.eq_nil_of_length_eq_zero hlength
    have hnil : fillDefaults c callee pos [] [] = .ok [] := rfl
    rw [hnil]
    cases values <;> simp
  | cons param params ih =>
    obtain ⟨slot, slots, rfl⟩ := List.exists_cons_of_length_eq_add_one hlength
    simp only [fillDefaults_cons_ok_iff, ih (Nat.succ.inj hlength), List.zipWith_cons_cons]
    cases values with
    | nil => simp
    | cons v values => simp [eq_comm]

/-- All parameters have values, and if those of the slots are numbers they all are. -/
theorem fillDefaults_spec (h : fillDefaults c callee pos params slots = .ok values)
    (hlength : slots.length = params.length) :
    values.length = params.length ∧
      ((∀ v, some v ∈ slots → v.ty = .number) → ∀ v ∈ values, v.ty = .number) := by
  induction params generalizing slots values with
  | nil =>
    rw [fillDefaults] at h
    · cases h
      exact ⟨rfl, fun _ => nofun⟩
    · nofun
  | cons param params ih =>
    obtain ⟨slot, slots, rfl⟩ := List.exists_cons_of_length_eq_add_one hlength
    obtain ⟨v, rest, hv, hrest, rfl⟩ := fillDefaults_cons_ok_iff.1 h
    obtain ⟨hcount, hnumber⟩ := ih hrest (Nat.succ.inj hlength)
    refine ⟨congrArg (· + 1) hcount, fun hslots => List.forall_mem_cons.2 ⟨?_, ?_⟩⟩
    · cases slot with
      | some v' =>
        cases hv
        exact hslots _ List.mem_cons_self
      | none =>
        obtain ⟨x, _, rfl⟩ := Option.map_eq_some_iff.1 hv
        rfl
    · exact hnumber fun v hmem => hslots v (List.mem_cons_of_mem _ hmem)

end Defaults

end Activation
end ToneScript
