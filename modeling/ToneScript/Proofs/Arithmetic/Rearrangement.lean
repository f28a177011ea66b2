import Mathlib.Data.List.FinRange
import ToneScript.Proofs.Arithmetic.Parentheses
import ToneScript.Proofs.Syntax.Postfix

/-! Conversion to operand-first order as a rearrangement. Cells are told apart by their places, as two of them may be
equal: the main statement says which order of places conversion gives, and for which cells it gives one at all. -/
namespace ToneScript

/-- Whether a cell is an operator. -/
def Cell.isOperator : Cell → Bool
  | operator .. => true
  | value .. | slot .. | call _ | left _ | right _ => false

theorem Cell.left?_of_not_isParen {cell : Cell} (h : cell.isParen = false) : cell.left? = none := by
  cases cell with
  | value v pos | slot id pos | call site | operator op pos | right pos => rfl
  | left pos => cases h

namespace Postfix

section Places

variable {ι : Type} (cellAt : ι → Cell)

/-- The places that are put out in the end: those of the output in reverse, and of the stack and the rest without
parentheses. -/
def gathered (output stack rest : List ι) : List ι :=
  output ++ stack.filter (fun i => (cellAt i).left?.isNone) ++ rest.filter (fun i => !(cellAt i).isParen)

variable {cellAt} {output stack popped rest : List ι} {i : ι}

theorem gathered_put (hi : (cellAt i).isParen = false) :
    (gathered cellAt (i :: output) stack rest).Perm (gathered cellAt output stack (i :: rest)) := by
  have hrest : (i :: rest).filter (fun i => !(cellAt i).isParen) = i :: rest.filter (fun i => !(cellAt i).isParen) :=
    List.filter_cons_of_pos (by simp [hi])
  unfold gathered
  rw [hrest]
  exact List.perm_middle.symm

theorem gathered_push (hi : (cellAt i).isParen = false) :
    (gathered cellAt output (i :: stack) rest).Perm (gathered cellAt output stack (i :: rest)) := by
  have hkept : (i :: stack).filter (fun i => (cellAt i).left?.isNone) =
      i :: stack.filter (fun i => (cellAt i).left?.isNone) :=
    List.filter_cons_of_pos (by simp [Cell.left?_of_not_isParen hi])
  have hput : (gathered cellAt output (i :: stack) rest).Perm (gathered cellAt (i :: output) stack rest) := by
    unfold gathered
    rw [hkept]
    exact List.perm_middle.append_right _
  exact hput.trans (gathered_put hi)

theorem gathered_move (hpopped : ∀ j ∈ popped, (cellAt j).left? = none) :
    (gathered cellAt (popped.reverse ++ output) stack rest).Perm (gathered cellAt output (popped ++ stack) rest) := by
  have hkept : popped.filter (fun j => (cellAt j).left?.isNone) = popped := by
    rw [List.filter_eq_self]
    intro j hj
    rw [hpopped j hj]
    rfl
  unfold gathered
  rw [List.filter_append, hkept, ← List.append_assoc output]
  have hmoved : (popped.reverse ++ output).Perm (output ++ popped) :=
    (List.Perm.append_right output popped.reverse_perm).trans List.perm_append_comm
  exact (hmoved.append_right _).append_right _

theorem popYielding_map (cellAt : ι → Cell) (incoming : Operator) (output stack : List ι) :
    ∃ popped rest, stack = popped ++ rest ∧
      popYielding incoming (output.map cellAt) (stack.map cellAt) = ((popped.reverse ++ output).map cellAt, rest.map cellAt) ∧
      ∀ i ∈ popped, (cellAt i).left? = none := by
  obtain ⟨cells, hstack, houtput, hoperators⟩ := popYielding_split incoming (output.map cellAt) (stack.map cellAt)
  obtain ⟨popped, rest, rfl, hpopped, hrest⟩ := List.map_eq_append_iff.mp hstack
  refine ⟨popped, rest, rfl, Prod.ext ?_ hrest.symm, ?_⟩
  · rw [houtput, ← hpopped, List.map_append, List.map_reverse]
  · intro i hi
    obtain ⟨op, pos, hcell⟩ := hoperators (cellAt i) (hpopped ▸ List.mem_map_of_mem hi)
    rw [hcell]
    rfl

theorem popToLeft?_map {moved : List Cell × List Cell}
    (h : popToLeft? (output.map cellAt) (stack.map cellAt) = some moved) :
    ∃ popped left rest, stack = popped ++ left :: rest ∧
      moved = ((popped.reverse ++ output).map cellAt, rest.map cellAt) ∧ (cellAt left).left?.isSome ∧
      ∀ i ∈ popped, (cellAt i).left? = none := by
  obtain ⟨output', stack'⟩ := moved
  obtain ⟨cells, pos, hstack, rfl, hlefts⟩ := popToLeft?_split h
  obtain ⟨popped, above, rfl, hpopped, habove⟩ := List.map_eq_append_iff.mp hstack
  obtain ⟨left, rest, rfl, hleft, hrest⟩ := List.map_eq_cons_iff.mp habove
  refine ⟨popped, left, rest, rfl, Prod.ext ?_ hrest.symm, ?_, ?_⟩
  · rw [List.map_append, List.map_reverse, hpopped]
  · rw [hleft]
    rfl
  · intro i hi
    exact List.filterMap_eq_nil_iff.mp hlefts _ (hpopped ▸ List.mem_map_of_mem hi)

variable [LT ι]

/-- Two places of which the first is put out before the second: if this is an operand, then the first is an earlier
place. -/
def Follows (cellAt : ι → Cell) (i j : ι) : Prop :=
  (cellAt j).isOperand → i < j

/-- What holds of the places of the output in reverse, of the stack and of the cells still to come. -/
structure Ordered (cellAt : ι → Cell) (output stack rest : List ι) : Prop where
  follows : output.reverse.Pairwise (Follows cellAt)
  waiting : ∀ i ∈ stack, (cellAt i).isOperand = false
  earlier : ∀ i ∈ output ++ stack, ∀ j ∈ rest, i < j
  increasing : rest.Pairwise (· < ·)

namespace Ordered

theorem put (h : Ordered cellAt output stack (i :: rest)) : Ordered cellAt (i :: output) stack rest where
  follows := by
    rw [List.reverse_cons, List.pairwise_append]
    refine ⟨h.follows, List.pairwise_singleton _ _, ?_⟩
    intro j hj k hk hoperand
    rw [List.mem_singleton.mp hk]
    exact h.earlier j (List.mem_append_left _ (List.mem_reverse.mp hj)) i List.mem_cons_self
  waiting := h.waiting
  earlier := by
    intro j hj k hk
    rcases List.mem_cons.mp hj with rfl | hj
    · exact List.rel_of_pairwise_cons h.increasing hk
    · exact h.earlier j hj k (List.mem_cons_of_mem i hk)
  increasing := h.increasing.of_cons

theorem push (h : Ordered cellAt output stack (i :: rest)) (hi : (cellAt i).isOperand = false) :
    Ordered cellAt output (i :: stack) rest where
  follows := h.follows
  waiting := by
    intro j hj
    rcases List.mem_cons.mp hj with rfl | hj
    · exact hi
    · exact h.waiting j hj
  earlier := by
    intro j hj k hk
    rcases List.mem_cons.mp (List.perm_middle.mem_iff.mp hj) with rfl | hj
    · exact List.rel_of_pairwise_cons h.increasing hk
    · exact h.earlier j hj k (List.mem_cons_of_mem i hk)
  increasing := h.increasing.of_cons

theorem skip (h : Ordered cellAt output stack (i :: rest)) : Ordered cellAt output stack rest where
  follows := h.follows
  waiting := h.waiting
  earlier := fun j hj k hk => h.earlier j hj k (List.mem_cons_of_mem i hk)
  increasing := h.increasing.of_cons

/-- What is not an operand may be put out at any time. -/
theorem move (h : Ordered cellAt output (popped ++ stack) rest) :
    Ordered cellAt (popped.reverse ++ output) stack rest where
  follows := by
    have hlate : ∀ j ∈ popped, ∀ i, Follows cellAt i j := by
      intro j hj i hoperand
      rw [h.waiting j (List.mem_append_left _ hj)] at hoperand
      cases hoperand
    rw [List.reverse_append, List.reverse_reverse, List.pairwise_append]
    refine ⟨h.follows, ?_, fun i _ j hj => hlate j hj i⟩
    exact List.pairwise_of_forall_mem_list fun i _ j hj => hlate j hj i
  waiting := fun j hj => h.waiting j (List.mem_append_right _ hj)
  earlier := by
    intro j hj
    apply h.earlier j
    simp only [List.mem_append, List.mem_reverse] at hj ⊢
    tauto
  increasing := h.increasing

theorem close (h : Ordered cellAt output (i :: stack) rest) : Ordered cellAt output stack rest where
  follows := h.follows
  waiting := fun j hj => h.waiting j (List.mem_cons_of_mem i hj)
  earlier := by
    intro j hj
    apply h.earlier j
    rw [List.perm_middle.mem_iff]
    exact List.mem_cons_of_mem i hj
  increasing := h.increasing

end Ordered

theorem popAll_places {out : List Cell} (h : Ordered cellAt output stack [])
    (hout : popAll (output.map cellAt) (stack.map cellAt) = .ok out) :
    ∃ places : List ι, out = places.map cellAt ∧ places.Perm (gathered cellAt output stack []) ∧
      places.Pairwise (Follows cellAt) := by
  rw [popAll_eq] at hout
  cases hopened : (stack.map cellAt).filterMap Cell.left? with
  | cons pos opened =>
    rw [hopened] at hout
    cases hout
  | nil =>
    rw [hopened] at hout
    cases hout
    have hlefts : ∀ i ∈ stack, (cellAt i).left? = none := by
      intro i hi
      exact List.filterMap_eq_nil_iff.mp hopened _ (List.mem_map_of_mem hi)
    have hall : Ordered cellAt output (stack ++ []) [] := by
      rw [List.append_nil]
      exact h
    have hmoved := hall.move.follows
    have hgathered : (gathered cellAt (stack.reverse ++ output) [] []).Perm (gathered cellAt output (stack ++ []) []) :=
      gathered_move hlefts
    refine ⟨(stack.reverse ++ output).reverse, ?_, ?_, hmoved⟩
    · simp
    · rw [List.append_nil] at hgathered
      refine (List.reverse_perm _).trans (.trans ?_ hgathered)
      simp [gathered]

/-- From every state of conversion, the places put out in the end are those gathered, and an operand is put out after
earlier places only. -/
theorem convertFrom_places {out : List Cell} (h : Ordered cellAt output stack rest)
    (hout : convertFrom (output.map cellAt) (stack.map cellAt) (rest.map cellAt) = .ok out) :
    ∃ places : List ι, out = places.map cellAt ∧ places.Perm (gathered cellAt output stack rest) ∧
      places.Pairwise (Follows cellAt) := by
  induction rest generalizing output stack with
  | nil => exact popAll_places h hout
  | cons i rest ih =>
    rw [List.map_cons] at hout
    cases hcell : cellAt i with
    | value v pos | slot id pos | call site =>
      have hparen : (cellAt i).isParen = false := by rw [hcell]; rfl
      have hrest : convertFrom ((i :: output).map cellAt) (stack.map cellAt) (rest.map cellAt) = .ok out := by
        rw [hcell] at hout
        rw [List.map_cons, hcell]
        exact hout
      obtain ⟨places, hplaces, hperm, hfollows⟩ := ih h.put hrest
      exact ⟨places, hplaces, hperm.trans (gathered_put hparen), hfollows⟩
    | operator op pos =>
      have hparen : (cellAt i).isParen = false := by rw [hcell]; rfl
      have hoperand : (cellAt i).isOperand = false := by rw [hcell]; rfl
      -- an operator of one operand moves nothing
      have hpopped : ∃ popped stack', stack = popped ++ stack' ∧ (∀ i ∈ popped, (cellAt i).left? = none) ∧
          convertFrom ((popped.reverse ++ output).map cellAt) ((i :: stack').map cellAt) (rest.map cellAt) = .ok out := by
        rw [hcell, convertFrom] at hout
        by_cases hunary : op.isPrefix
        · refine ⟨[], stack, rfl, by simp, ?_⟩
          simp only [hunary, if_true] at hout
          rw [List.map_cons, hcell]
          exact hout
        · obtain ⟨popped, stack', hstack, hmoved, hlefts⟩ := popYielding_map cellAt op output stack
          refine ⟨popped, stack', hstack, hlefts, ?_⟩
          simp only [hunary, hmoved] at hout
          rw [List.map_cons, hcell]
          exact hout
      obtain ⟨popped, stack', rfl, hlefts, hrest⟩ := hpopped
      obtain ⟨places, hplaces, hperm, hfollows⟩ := ih (h.move.push hoperand) hrest
      exact ⟨places, hplaces, (hperm.trans (gathered_push hparen)).trans (gathered_move hlefts), hfollows⟩
    | left pos =>
      have hoperand : (cellAt i).isOperand = false := by rw [hcell]; rfl
      have hrest : convertFrom (output.map cellAt) ((i :: stack).map cellAt) (rest.map cellAt) = .ok out := by
        rw [hcell] at hout
        rw [List.map_cons, hcell]
        exact hout
      have hgathered : gathered cellAt output (i :: stack) rest = gathered cellAt output stack (i :: rest) := by
        unfold gathered
        rw [List.filter_cons_of_neg (by simp [hcell, Cell.left?]), List.filter_cons_of_neg (by simp [hcell, Cell.isParen])]
      rw [← hgathered]
      exact ih (h.push hoperand) hrest
    | right pos =>
      rw [hcell, convertFrom] at hout
      cases hpop : popToLeft? (output.map cellAt) (stack.map cellAt) with
      | none =>
        rw [hpop] at hout
        cases hout
      | some moved =>
        obtain ⟨popped, left, stack', rfl, rfl, hleft, hlefts⟩ := popToLeft?_map hpop
        rw [hpop] at hout
        obtain ⟨places, hplaces, hperm, hfollows⟩ := ih h.skip.move.close hout
        have hgathered : gathered cellAt output (popped ++ left :: stack') (i :: rest) =
            gathered cellAt output (popped ++ stack') rest := by
          unfold gathered
          rw [List.filter_cons_of_neg (by simp [hcell, Cell.isParen]), List.filter_append,
            List.filter_cons_of_neg (by simpa [Option.isSome_iff_ne_none] using hleft), ← List.filter_append]
        rw [hgathered]
        exact ⟨places, hplaces, hperm.trans (gathered_move hlefts), hfollows⟩

end Places

/-- An order in which the cells of an expression may be put out: all of them but the parentheses, the operands as they
stand, and every operator after the operands before it. -/
structure Arranges (cells : List Cell) (places : List (Fin cells.length)) : Prop where
  perm : places.Perm ((List.finRange cells.length).filter fun i => !(cells.get i).isParen)
  operands : (places.filter fun i => (cells.get i).isOperand).Pairwise (· < ·)
  operators : ∀ i j, (cells.get i).isOperand → (cells.get j).isOperator → i < j → [i, j].Sublist places

section Arrangement

variable {cells : List Cell} {places : List (Fin cells.length)}

theorem arranges_of_follows (hfollows : places.Pairwise (Follows cells.get))
    (hperm : places.Perm ((List.finRange cells.length).filter fun i => !(cells.get i).isParen)) : Arranges cells places where
  perm := hperm
  operands := by
    rw [List.pairwise_filter]
    exact hfollows.imp fun hij _ hj => hij (by simpa using hj)
  operators := by
    intro i j hi hj hlt
    have hmem : ∀ k, (cells.get k).isParen = false → k ∈ places := by
      intro k hk
      rw [hperm.mem_iff, List.mem_filter, hk]
      exact ⟨List.mem_finRange k, rfl⟩
    have hiPlaces : i ∈ places := by
      apply hmem
      cases hcell : cells.get i <;> simp_all [Cell.isOperand, Cell.isParen]
    have hjPlaces : j ∈ places := by
      apply hmem
      cases hcell : cells.get j <;> simp_all [Cell.isOperator, Cell.isParen]
    obtain ⟨front, back, rfl⟩ := List.append_of_mem hjPlaces
    rcases List.mem_append.mp hiPlaces with hfront | hback
    · exact (List.singleton_sublist.mpr hfront).append (List.singleton_sublist.mpr List.mem_cons_self)
    · -- an operand behind the operator would have to stand behind it in the expression
      rw [List.pairwise_append, List.pairwise_cons] at hfollows
      obtain ⟨-, ⟨hlast, -⟩, -⟩ := hfollows
      rcases List.mem_cons.mp hback with rfl | hback
      · omega
      · have hji : j < i := hlast i hback hi
        omega

theorem convert_arranges {out : List Cell} (h : convert cells = .ok out) :
    ∃ places, Arranges cells places ∧ out = places.map cells.get := by
  have hstart : Ordered cells.get [] [] (List.finRange cells.length) :=
    ⟨.nil, by simp, by simp, List.pairwise_lt_finRange cells.length⟩
  have hcells : (List.finRange cells.length).map cells.get = cells := List.map_get_finRange cells
  have hout : convertFrom ([].map cells.get) ([].map cells.get) ((List.finRange cells.length).map cells.get) = .ok out := by
    rw [hcells]
    exact h
  obtain ⟨places, hplaces, hperm, hfollows⟩ := convertFrom_places hstart hout
  exact ⟨places, arranges_of_follows hfollows hperm, hplaces⟩

end Arrangement

/-- Conversion fails on parentheses only: at the first right one that closes nothing, else at the last left one that is
never closed. Otherwise it puts out every other cell once, with the operands in their order and every operator after the
operands that stand before it. -/
theorem convert_rearranges (cells : List Cell) :
    ((∃ out, convert cells = .ok out) ↔ Balanced cells) ∧
    (∀ e, convert cells = .error e ↔
      (∃ before pos after, cells = before ++ .right pos :: after ∧ AllOpened before ∧ ¬Opening before ∧
        e = .located pos .closedTooOften) ∨
      (AllOpened cells ∧ ∃ before pos after, cells = before ++ .left pos :: after ∧ ¬Closing after ∧ AllClosed after ∧
        e = .located pos .neverClosed)) ∧
    ∀ out, convert cells = .ok out → (∀ cell ∈ out, cell.isParen = false) ∧ out.Perm (cells.filter (!·.isParen)) ∧
      ∃ places, Arranges cells places ∧ out = places.map cells.get := by
  refine ⟨exists_convert_iff cells, ?_, ?_⟩
  · intro e
    rw [convert_eq_error_iff, trackAll_eq_error_iff]
    refine or_congr Iff.rfl ?_
    constructor
    · rintro ⟨pos, opened, htracked, rfl⟩
      obtain ⟨hall, before, after, hcells, hclosing, hclosed⟩ := trackAll_eq_ok_cons_iff.mp ⟨opened, htracked⟩
      exact ⟨hall, before, pos, after, hcells, hclosing, hclosed, rfl⟩
    · rintro ⟨hall, before, pos, after, hcells, hclosing, hclosed, rfl⟩
      obtain ⟨opened, htracked⟩ := trackAll_eq_ok_cons_iff.mpr ⟨hall, before, after, hcells, hclosing, hclosed⟩
      exact ⟨pos, opened, htracked, rfl⟩
  · intro out hout
    have hperm := convert_perm hout
    refine ⟨?_, hperm, convert_arranges hout⟩
    intro cell hcell
    have hkept := (List.mem_filter.mp (hperm.mem_iff.mp hcell)).2
    simpa using hkept

/-- The cells of `-(x + y) * z`, of which the sum is put out first and the product last. -/
theorem convert_rearranges_product :
    let column := Position.start.addChars
    let cells : List Cell := [.operator .neg (column 0), .left (column 1), .slot 1 (column 2), .operator .add (column 4),
      .slot 2 (column 6), .right (column 7), .operator .mul (column 9), .slot 3 (column 11)]
    let out : List Cell := [.slot 1 (column 2), .slot 2 (column 6), .operator .add (column 4), .operator .neg (column 0),
      .slot 3 (column 11), .operator .mul (column 9)]
    convert cells = .ok out ∧ (∀ cell ∈ out, cell.isParen = false) ∧ out.Perm (cells.filter (!·.isParen)) ∧
      ∃ places, Arranges cells places ∧ out = places.map cells.get := by
  intro column cells out
  have hout : convert cells = .ok out := rfl
  exact ⟨hout, (convert_rearranges cells).2.2 out hout⟩

end Postfix
end ToneScript
