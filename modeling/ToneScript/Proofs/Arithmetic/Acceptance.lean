import Mathlib.Algebra.BigOperators.Group.List.Basic
import Mathlib.Algebra.Ring.Int.Defs
import ToneScript.Proofs.Arithmetic.Alternation
import ToneScript.Proofs.Arithmetic.Reading
import ToneScript.Proofs.Syntax.Arguments
import ToneScript.Proofs.Syntax.Postfix

/-! What acceptance says of the tokens of an expression. Its parentheses match and it has one operand more than
operators between two; where no operand directly follows another, it has a parse tree. -/
namespace ToneScript

namespace Cell

/-- How many values a cell adds to those on the stack. -/
def balance : Cell → Int
  | value .. | slot .. | call _ => 1
  | operator op _ => if op.isPrefix then 0 else -1
  | left _ | right _ => 0

/-- Parentheses add no value. -/
theorem sum_balance_filter (cells : List Cell) :
    ((cells.filter (!·.isParen)).map balance).sum = (cells.map balance).sum := by
  induction cells with
  | nil => rfl
  | cons cell rest ih =>
    rw [List.map_cons, List.sum_cons, ← ih]
    cases cell <;> simp [isParen, balance]

theorem Pushes.length {cell : Cell} {stack mid : List Expr} (h : cell.Pushes stack mid) :
    (mid.length : Int) = stack.length + cell.balance := by
  cases h with
  | value | slot | call => rfl
  | prefixed hunary =>
    rw [balance, if_pos hunary]
    rfl
  | binary hbinary =>
    rw [balance, if_neg (ne_true_of_eq_false hbinary)]
    simp only [List.length_cons]
    omega

/-- Every cell of a sequence leaves as many trees as it adds values. -/
theorem length_toTrees {stack stack' : List Expr} {cells : List Cell}
    (h : toTrees stack cells = .ok stack') :
    (stack'.length : Int) = stack.length + (cells.map balance).sum := by
  rw [toTrees_eq_ok_iff] at h
  induction h with
  | nil stack => simp
  | cons first _ ih =>
    rw [ih, first.length, List.map_cons, List.sum_cons]
    omega

end Cell

namespace Part

/-- Whether a cell is what a part is read as. -/
def Reads : Part → Cell → Prop
  | operand _, cell => cell.isOperand = true
  | sign s _, cell => ∃ pos, cell = .operator s.operator pos
  | operator op _, cell => ∃ pos, cell = .operator op pos
  | left _, cell => ∃ pos, cell = .left pos
  | right _, cell => ∃ pos, cell = .right pos

theorem Reads.balance {p : Part} {cell : Cell} (h : p.Reads cell) (hwell : p.WellFormed) :
    p.balance = cell.balance := by
  cases p with
  | operand e => cases cell <;> first | rfl | cases h
  | sign s m =>
    obtain ⟨pos, rfl⟩ := h
    cases s <;> rfl
  | operator op m =>
    obtain ⟨pos, rfl⟩ := h
    have hunary : op.isPrefix = false := hwell
    rw [Cell.balance, hunary]
    rfl
  | left m | right m =>
    obtain ⟨pos, rfl⟩ := h
    rfl

theorem map_balance {ps : List Part} {cells : List Cell} (h : List.Forall₂ Reads ps cells)
    (hwell : ∀ p ∈ ps, p.WellFormed) : ps.map balance = cells.map Cell.balance := by
  induction h with
  | nil => rfl
  | cons hfirst _ ih =>
    obtain ⟨hp, hps⟩ := List.forall_mem_cons.1 hwell
    rw [List.map_cons, List.map_cons, hfirst.balance hp, ih hps]

/-- Where conversion to operand-first order ends well, the parentheses match. -/
theorem nested_of_convertFrom {ps : List Part} {cells : List Cell} (hreads : List.Forall₂ Reads ps cells)
    {output stack result : List Cell} (h : Postfix.convertFrom output stack cells = .ok result) :
    Nested (stack.map Cell.opens).sum ps := by
  induction hreads generalizing output stack with
  | nil => exact (Postfix.popAll_perm h).2
  | @cons p cell ps cells hfirst _ ih =>
    cases p with
    | operand e =>
      have hrest : Postfix.convertFrom (cell :: output) stack cells = .ok result := by
        cases cell <;> first | cases hfirst; done | exact h
      exact ih hrest
    | sign s m | operator op m =>
      obtain ⟨pos, rfl⟩ := hfirst
      rw [Postfix.convertFrom.eq_def] at h
      simp only at h
      split at h
      · have hnested := ih h
        rw [List.map_cons, List.sum_cons, Cell.opens, Nat.zero_add] at hnested
        exact hnested
      · have hnested := ih h
        rw [List.map_cons, List.sum_cons, Cell.opens, Nat.zero_add, (Postfix.popYielding_perm _ _ _).2] at hnested
        exact hnested
    | left m =>
      obtain ⟨pos, rfl⟩ := hfirst
      have hrest : Postfix.convertFrom output (.left pos :: stack) cells = .ok result := h
      have hnested := ih hrest
      rw [List.map_cons, List.sum_cons, Cell.opens, Nat.add_comm] at hnested
      exact hnested
    | right m =>
      obtain ⟨pos, rfl⟩ := hfirst
      rw [Postfix.convertFrom.eq_def] at h
      simp only at h
      split at h
      · cases h
      · rename_i output' stack' hpop
        rw [(Postfix.popToLeft?_perm hpop).2]
        exact ih h

/-- Parts that are read as the cells of an accepted span make up an expression, where no operand directly follows
another. -/
theorem exists_tokens_eq {ps : List Part} {cells : List Cell} (hreads : List.Forall₂ Reads ps cells)
    (hwell : ∀ p ∈ ps, p.WellFormed) (hapart : Apart false ps) {result : List Cell}
    (hconvert : Postfix.convert cells = .ok result) {pos : Position} {tree : Expr}
    (htree : (Compiled.mk result pos).toExpr = .ok tree) :
    ∃ e : Infix, e.Fits 0 ∧ e.tokens = ps.flatMap tokens := by
  obtain ⟨tree', rfl, htrees⟩ := Compiled.toExpr_eq_ok htree
  have hlength := Cell.length_toTrees htrees
  have hperm := ((Postfix.convert_perm hconvert).map Cell.balance).sum_eq
  have hone : (ps.map balance).sum = 1 := by
    rw [map_balance hreads hwell, ← Cell.sum_balance_filter, ← hperm]
    simp only [List.length_singleton, List.length_nil] at hlength
    omega
  exact Alternate.exists_tokens_eq hwell (hapart.alternate.2 0 (nested_of_convertFrom hreads hconvert) hone)

end Part

end ToneScript
