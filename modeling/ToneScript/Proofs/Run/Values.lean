import ToneScript.Proofs.Run.Calls

/-! The types of the values in a run. -/
namespace ToneScript

/-- Whether the values of an event have the types that the check found for them. -/
def Event.WellTyped (w : Elaboration) : Event → Prop
  | .bound _ args => ∀ v ∈ args, v.ty = .number
  | .completed f v => ∃ signature, w.functions.lookup f.key = some ⟨some f, .resolved signature⟩ ∧
      v.ty = signature.type.returns
  | .tested v => v.ty = .boolean
  | .assigned name v => ∃ d, w.table.find? rootBlock name = some d ∧ d.ty? = some v.ty
  | .read .. | .called .. => True

namespace Compilation

variable {source : Source} {intrinsics : Bool} {main? : Option (String × FunctionType)} {strict : Bool}
  {c : Compilation}

/-- All values in a run of an accepted program have the types that the check found, if recursive calls have the
types that are asked for where they stand, and calls find the functions that the check found for them. -/
theorem trace_wellTyped (hsize : source.text.length < UInt64.size)
    (hcheck : typecheck.run (prepared source intrinsics main? strict) = (.ok true, c))
    (hentry : c.entry.2.args.length = 1) (hsettled : c.program.Obeys (.settled c.elaboration)) (depth : Nat)
    (time : Number) (hfaithful : (c.trace .byName depth time).Faithful c.elaboration) :
    ∀ e ∈ (c.trace .byName depth time).events, e.WellTyped c.elaboration := by
  have hc := accepted_prepared hsize hcheck
  obtain ⟨hproper, _⟩ := trace_meets True True (fun _ => True) hc hentry id
    (fun _ => hsettled) depth time fun e he => ⟨trivial, fun _ => hfaithful e he⟩
  intro e he
  have htyped := hproper e he
  cases e with
  | bound f args => exact htyped trivial
  | completed f v => exact htyped trivial
  | tested v => exact htyped trivial
  | assigned name v => exact htyped trivial
  | read scene name pos value? => trivial
  | called scene site => trivial

theorem trace_wellTyped_recursiveArgument :
    typecheck.run (prepared recursiveSource true none false) = (.ok true, afterCheck recursiveSource none) ∧
      ∀ e ∈ ((afterCheck recursiveSource none).trace .byName 8 1).events,
        e.WellTyped (afterCheck recursiveSource none).elaboration := by
  have hcheck := typecheck_afterCheck recursiveSource none (by decide +kernel)
  have hsettled : (afterCheck recursiveSource none).program.Obeys (.settled (afterCheck recursiveSource none).elaboration) := by
    decide +kernel
  have hfaithful : ((afterCheck recursiveSource none).trace .byName 8 1).Faithful (afterCheck recursiveSource none).elaboration := by
    decide +kernel
  exact ⟨hcheck, trace_wellTyped (by decide) hcheck (entry_prepared (by decide) hcheck) hsettled 8 1 hfaithful⟩

/-- A function whose recursive call is a condition although it returns a number. -/
def conditionSource : Source :=
  .ofString "condition" "[f a] if a < 1 : 5 else if f(0) : 1 else 2; [main t] f(t);"

/-- An entry point of two parameters. The second one gets no value in a run, and its name stands for a truth value
at the outermost level. -/
def unboundSource : Source :=
  .ofString "unbound" "b = 1 < 2; [f x] x; [main a, b] f(b);"

/-- Accepted programs in which a condition is a number, and in which a parameter is a truth value. -/
theorem exists_not_wellTyped :
    (∃ c v, typecheck.run (prepared conditionSource true none false) = (.ok true, c) ∧
      .tested v ∈ (c.trace .byName defaultDepth 1).events ∧ v.ty = .number) ∧
    ∃ c f args v, typecheck.run (prepared unboundSource true (some ("main", .ofNumbers [0, 1] .number)) false) =
        (.ok true, c) ∧
      .bound f args ∈ (c.trace .byName defaultDepth 1).events ∧ v ∈ args ∧ v.ty = .boolean := by
  constructor
  · have hcheck := typecheck_afterCheck conditionSource none (by decide +kernel)
    have htested : ((afterCheck conditionSource none).trace .byName defaultDepth 1).events.any (fun e =>
        match e with
        | .tested v => decide (v.ty = .number)
        | _ => false) = true := by decide +kernel
    obtain ⟨e, he, hnumber⟩ := List.any_eq_true.1 htested
    cases e with
    | tested v => exact ⟨_, v, hcheck, he, of_decide_eq_true hnumber⟩
    | read | called | bound | completed | assigned => cases hnumber
  · have hcheck := typecheck_afterCheck unboundSource
      (some ("main", .ofNumbers [0, 1] .number)) (by decide +kernel)
    have hbound : ((afterCheck unboundSource (some ("main", .ofNumbers [0, 1] .number))).trace .byName
        defaultDepth 1).events.any (fun e =>
          match e with
          | .bound _ args => args.any fun v => decide (v.ty = .boolean)
          | _ => false) = true := by decide +kernel
    obtain ⟨e, he, hboolean⟩ := List.any_eq_true.1 hbound
    cases e with
    | bound f args =>
      obtain ⟨v, hv, hty⟩ := List.any_eq_true.1 hboolean
      exact ⟨_, f, args, v, hcheck, he, hv, of_decide_eq_true hty⟩
    | read | called | tested | completed | assigned => cases hboolean

end Compilation
end ToneScript
