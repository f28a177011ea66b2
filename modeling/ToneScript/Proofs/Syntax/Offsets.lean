import Mathlib.Data.List.Nodup
import ToneScript.Proofs.Syntax.Nodes
import ToneScript.Proofs.Syntax.Weight

/-! Where the nodes of a program stand. Every node takes the position of a token, and no two nodes take that of the same
one, so that nodes are told apart by their offsets. -/
namespace ToneScript

/-- How many nodes stand at an offset. -/
def Node.countAt (o : UInt64) (ns : List Node) : Nat :=
  (ns.map (·.pos.countAt o)).sum

section

variable (o : UInt64)

@[simp] theorem Node.countAt_nil : Node.countAt o [] = 0 :=
  rfl

@[simp] theorem Node.countAt_singleton (n : Node) : Node.countAt o [n] = n.pos.countAt o :=
  List.sum_singleton

@[simp] theorem Node.countAt_append (ns ms : List Node) :
    Node.countAt o (ns ++ ms) = Node.countAt o ns + Node.countAt o ms := by
  simp [Node.countAt]

theorem Node.countAt_eq_count (ns : List Node) : Node.countAt o ns = (ns.map (·.pos.index)).count o := by
  induction ns with
  | nil => rfl
  | cons n ns ih =>
    have hcons : Node.countAt o (n :: ns) = n.pos.countAt o + Node.countAt o ns := rfl
    rw [hcons, List.map_cons, List.count_cons, ih, Nat.add_comm, Position.countAt]
    simp only [beq_iff_eq]

theorem Argument.countAt_nodesOfAll (p : List BlockKey) (args : List Argument) :
    Node.countAt o (Argument.nodesOfAll p args) = (args.map fun arg => Node.countAt o (arg.nodes p)).sum := by
  induction args with
  | nil => rfl
  | cons arg args ih => rw [Argument.nodesOfAll, Node.countAt_append, ih, List.map_cons, List.sum_cons]

/-- The nodes at an offset. -/
def Node.weight : Weight o where
  expr p e := Node.countAt o (e.nodes p)
  argument p arg := Node.countAt o (arg.nodes p)
  entries p items := Node.countAt o (BlockEntry.nodesOfAll p items)
  function f := Node.countAt o f.nodes
  ofValue p v pos := by cases v <;> exact Nat.le_of_eq (Node.countAt_singleton o _)
  var _ _ _ := Nat.le_of_eq (Node.countAt_singleton o _)
  prefixed p op operand pos := by
    rw [Expr.nodes, Node.countAt_append, Node.countAt_singleton]
    exact Nat.le_refl _
  binary p op left right pos := by
    rw [Expr.nodes, Node.countAt_append, Node.countAt_append, Node.countAt_singleton]
    exact Nat.le_refl _
  span _ _ _ := Nat.le_refl _
  call p site args := by
    rw [Expr.nodes, Node.countAt_append, Node.countAt_singleton, Argument.countAt_nodesOfAll]
    exact Nat.le_refl _
  conditional p c t e pos := by
    simp only [Expr.nodes, Node.countAt_append, Node.countAt_singleton]
    exact Nat.le_refl _
  block p key items pos := by
    rw [Expr.nodes, Node.countAt_append, Node.countAt_singleton]
    exact Nat.le_refl _
  shorthand _ _ _ := Nat.zero_le _
  assign _ _ _ _ := Nat.le_add_right _ _
  opAssign _ _ _ _ _ := Nat.le_add_right _ _
  positional _ _ _ := Nat.le_refl _
  nil _ := rfl
  operator p op value pos items := by
    simp only [BlockEntry.nodesOfAll, BlockEntry.nodes, Expr.nodesOfOption, Node.countAt_append, Node.countAt_nil]
    omega
  guarded p op value guard pos items := by
    simp only [BlockEntry.nodesOfAll, BlockEntry.nodes, Expr.nodesOfOption, Node.countAt_append]
    omega
  closure p f pos items := by
    simp only [BlockEntry.nodesOfAll, BlockEntry.nodes, Node.countAt_append, Node.countAt_singleton, Node.pos]
    exact Nat.le_refl _
  body f := by
    rw [FunctionDef.nodes_eq]
    exact Nat.le_add_right _ _

end

/-- The nodes of a program stand at tokens, each at its own. -/
theorem Item.AllDerived.countAt_le {l : Leniency} {ts : List Token} {program : Program}
    (h : Item.AllDerived l ts program) (o : UInt64) : Node.countAt o program.nodes ≤ Token.countAt o ts := by
  have hsum : Node.countAt o program.nodes = (program.map (Node.weight o).item).sum := by
    clear h
    induction program with
    | nil => rfl
    | cons item program ih =>
      have hitem : Node.countAt o item.nodes = (Node.weight o).item item := by
        cases item <;> rfl
      rw [Program.nodes, List.flatMap_cons, Node.countAt_append, hitem, List.map_cons, List.sum_cons]
      exact congrArg _ ih
  rw [hsum]
  exact Weight.program_le h

/-- Nodes of a program whose tokens stand in order are told apart by their offsets. -/
theorem Item.AllDerived.nodup_offsets {l : Leniency} {lo hi : Nat} {ts : List Token} {program : Program}
    (h : Item.AllDerived l ts program) (hordered : Token.Ordered lo hi ts) :
    (program.nodes.map (·.pos.index)).Nodup := by
  refine List.nodup_iff_count_le_one.2 fun o => ?_
  rw [← Node.countAt_eq_count]
  exact (h.countAt_le o).trans (hordered.countAt_le o).1

end ToneScript
