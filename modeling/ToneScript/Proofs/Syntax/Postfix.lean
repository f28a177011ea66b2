import Mathlib.Algebra.GroupWithZero.Nat
import Mathlib.Data.List.Perm.Basic
import ToneScript.Postfix.Conversion

/-! What conversion to operand-first order does to the cells of an expression: it changes their order and drops
the parentheses, which match. -/
namespace ToneScript

/-- How many parentheses a cell opens. -/
def Cell.opens : Cell → Nat
  | left _ => 1
  | value .. | slot .. | call _ | operator .. | right _ => 0

namespace Postfix

/-- What is put out of a stack: all but the parentheses that open. -/
def kept (stack : List Cell) : List Cell :=
  stack.filter (·.opens == 0)

theorem popYielding_perm (incoming : Operator) (output stack : List Cell) :
    ((popYielding incoming output stack).1 ++ kept (popYielding incoming output stack).2).Perm
        (output ++ kept stack) ∧
      ((popYielding incoming output stack).2.map Cell.opens).sum = (stack.map Cell.opens).sum := by
  induction stack generalizing output with
  | nil => exact ⟨.refl _, rfl⟩
  | cons cell stack ih =>
    cases cell with
    | operator op pos =>
      rw [popYielding]
      split
      · obtain ⟨hperm, hopens⟩ := ih (.operator op pos :: output)
        rw [hopens]
        exact ⟨hperm.trans List.perm_middle.symm, by simp [Cell.opens]⟩
      · exact ⟨.refl _, rfl⟩
    | value v pos | slot id pos | call site | left pos | right pos => exact ⟨.refl _, rfl⟩

theorem popToLeft?_perm {output stack output' stack' : List Cell}
    (h : popToLeft? output stack = some (output', stack')) :
    (output' ++ kept stack').Perm (output ++ kept stack) ∧
      (stack.map Cell.opens).sum = (stack'.map Cell.opens).sum + 1 := by
  induction stack generalizing output with
  | nil => cases h
  | cons cell stack ih =>
    cases cell with
    | left pos =>
      cases h
      exact ⟨.refl _, by simp [Cell.opens, Nat.add_comm]⟩
    | value v pos | slot id pos | call site | operator op pos | right pos =>
      obtain ⟨hperm, hopens⟩ := ih h
      exact ⟨hperm.trans List.perm_middle.symm, by simpa [Cell.opens] using hopens⟩

theorem popAll_perm {output stack cells : List Cell} (h : popAll output stack = .ok cells) :
    cells.Perm (output ++ kept stack) ∧ (stack.map Cell.opens).sum = 0 := by
  induction stack generalizing output with
  | nil =>
    cases h
    exact ⟨by simp [kept, List.reverse_perm], rfl⟩
  | cons cell stack ih =>
    cases cell with
    | left pos => cases h
    | value v pos | slot id pos | call site | operator op pos | right pos =>
      obtain ⟨hperm, hopens⟩ := ih h
      exact ⟨hperm.trans List.perm_middle.symm, by simpa [Cell.opens] using hopens⟩

/-- No cell but a parenthesis is lost on the way to operand-first order, and none is added. -/
theorem convertFrom_perm {output stack cells result : List Cell}
    (h : convertFrom output stack cells = .ok result) :
    result.Perm (output ++ kept stack ++ cells.filter (!·.isParen)) := by
  induction cells generalizing output stack with
  | nil =>
    rw [List.filter_nil, List.append_nil]
    exact (popAll_perm h).1
  | cons cell rest ih =>
    cases cell with
    | value v pos | slot id pos | call site =>
      exact (ih h).trans List.perm_middle.symm
    | operator op pos =>
      rw [convertFrom.eq_def] at h
      simp only at h
      split at h
      · exact ((ih h).trans (List.perm_middle.append_right _)).trans List.perm_middle.symm
      · have hpopped := (popYielding_perm op output stack).1
        refine ((ih h).trans (List.perm_middle.append_right _)).trans (.trans (.cons _ ?_) List.perm_middle.symm)
        exact hpopped.append_right _
    | left pos =>
      have hrest : convertFrom output (.left pos :: stack) rest = .ok result := h
      have hperm := ih hrest
      exact hperm
    | right pos =>
      rw [convertFrom.eq_def] at h
      simp only at h
      split at h
      · cases h
      · rename_i output' stack' hpop
        exact (ih h).trans ((popToLeft?_perm hpop).1.append_right _)

theorem convert_perm {cells result : List Cell} (h : convert cells = .ok result) :
    result.Perm (cells.filter (!·.isParen)) :=
  convertFrom_perm h

theorem mem_convert {cells result : List Cell} (h : convert cells = .ok result) {c : Cell} (hc : c ∈ result) :
    c ∈ cells :=
  List.mem_of_mem_filter ((convert_perm h).mem_iff.1 hc)

end Postfix
end ToneScript
