import ToneScript.Proofs.Run.Trace

/-! Contracts of runs: as long as what happens in a run is as it is assumed to be, the rest of what happens is
as it is ensured to be, and so is the way in which the run ends. -/
namespace ToneScript

/-- What is assumed of the events of a run, what is ensured of them, and how the run may fail. -/
structure Contract where
  assumes : Event → Prop
  ensures : Event → Prop
  fails : EvalError → Prop

namespace Traced

variable {α β : Type} {C : Contract} {x : Traced α} {Q Q' : α → Prop}

/-- Whether a run meets a contract and ends, unless it fails, in a value with a property. -/
def Meets (x : Traced α) (C : Contract) (Q : α → Prop) : Prop :=
  (∀ e ∈ x.events, C.assumes e) → (∀ e ∈ x.events, C.ensures e) ∧
    match x.result with
    | .ok a => Q a
    | .error e => C.fails e

theorem Meets.mono (h : x.Meets C Q) (hQ : ∀ a, x.result = .ok a → Q a → Q' a) : x.Meets C Q' := by
  intro hassumes
  obtain ⟨hensures, hresult⟩ := h hassumes
  refine ⟨hensures, ?_⟩
  cases hx : x.result with
  | ok a =>
    rw [hx] at hresult
    exact hQ a hx hresult
  | error e =>
    rw [hx] at hresult
    exact hresult

theorem meets_ofResult {result : Except EvalError α} (hok : ∀ a, result = .ok a → Q a)
    (herror : ∀ e, result = .error e → C.fails e) : (ofResult result).Meets C Q := by
  refine fun _ => ⟨nofun, ?_⟩
  cases result with
  | ok a => exact hok a rfl
  | error e => exact herror e rfl

theorem meets_pure {a : α} (h : Q a) : (pure a : Traced α).Meets C Q :=
  fun _ => ⟨nofun, h⟩

theorem Meets.bind {f : α → Traced β} {R : β → Prop} (h : x.Meets C Q) (hf : ∀ a, Q a → (f a).Meets C R) :
    (x >>= f).Meets C R := by
  cases hx : x.result with
  | error e =>
    rw [bind_of_error hx]
    intro hassumes
    obtain ⟨hensures, hresult⟩ := h hassumes
    rw [hx] at hresult
    exact ⟨hensures, hresult⟩
  | ok a =>
    rw [bind_of_ok hx]
    intro hassumes
    simp only [List.mem_append] at hassumes ⊢
    obtain ⟨hensures, hresult⟩ := h fun e he => hassumes e (.inl he)
    rw [hx] at hresult
    obtain ⟨hensures', hresult'⟩ := hf a hresult fun e he => hassumes e (.inr he)
    exact ⟨fun e he => he.elim (hensures e) (hensures' e), hresult'⟩

/-- What is assumed of an event can be used in the rest of the run. -/
theorem meets_record_bind {event : Event} {f : Unit → Traced β} {R : β → Prop} (h : C.ensures event)
    (hf : C.assumes event → (f ()).Meets C R) : (record event >>= f).Meets C R := by
  rw [bind_of_ok (result_record event)]
  intro hassumes
  have hrest := hf (hassumes event (by simp [record]))
  obtain ⟨hensures, hresult⟩ := hrest fun e he => hassumes e (by simp [he])
  refine ⟨fun e he => ?_, hresult⟩
  rcases List.mem_append.1 he with he | he
  · rw [List.mem_singleton.1 he]
    exact h
  · exact hensures e he

theorem Meets.mapError {f : EvalError → EvalError} (h : x.Meets C Q) (hf : ∀ e, C.fails e → C.fails (f e)) :
    (x.mapError f).Meets C Q := by
  intro hassumes
  obtain ⟨hensures, hresult⟩ := h hassumes
  refine ⟨hensures, ?_⟩
  show match x.result.mapError f with
    | .ok a => Q a
    | .error e => C.fails e
  cases hx : x.result with
  | ok a =>
    rw [hx] at hresult
    exact hresult
  | error e =>
    rw [hx] at hresult
    exact hf e hresult

end Traced
end ToneScript
