import ToneScript.Proofs.Arithmetic.Grammar
import ToneScript.Proofs.Syntax.Arguments

/-! Conversion to operand-first order and back. When the cells of an expression have been read, part of its
postorder has been put out, and the operators that are still on the stack are the rest of it. -/
namespace ToneScript

/-- Operators that group from the left bind by their tiers. -/
theorem Operator.of_tier? {op : Operator} {n : Nat} (h : op.tier? = some n) :
    op.precedence = 10 * (n + 1) ∧ op.associativity = .left ∧ op.isPrefix = false ∧ n < topTier := by
  cases op <;> cases h <;> decide

theorem Operator.precedence_le (op : Operator) : op.precedence ≤ 60 := by
  cases op <;> decide

@[simp] theorem Sign.isPrefix_operator (sign : Sign) : sign.operator.isPrefix = true := by
  cases sign <;> rfl

@[simp] theorem Sign.precedence_operator (sign : Sign) : sign.operator.precedence = 60 := by
  cases sign <;> rfl

namespace Postfix

/-- Operators on the stack that bind at least as tightly as a number says. -/
def Binding (precedence : Nat) (cells : List Cell) : Prop :=
  ∀ cell ∈ cells, ∃ op pos, cell = .operator op pos ∧ precedence ≤ op.precedence

/-- Whether the stack keeps what it holds when an operator of a tier or a tighter one comes in. -/
def Shields (tier : Nat) (stack : List Cell) : Prop :=
  ∀ op n output, op.tier? = some n → tier ≤ n → popYielding op output stack = (output, stack)

theorem shields_nil (tier : Nat) : Shields tier [] :=
  fun _ _ _ _ _ => rfl

theorem shields_left (tier : Nat) (pos : Position) (stack : List Cell) :
    Shields tier (.left pos :: stack) :=
  fun _ _ _ _ _ => rfl

theorem shields_topTier (stack : List Cell) : Shields topTier stack := by
  intro op n output htier hle
  have hlt := (Operator.of_tier? htier).2.2.2
  omega

/-- An operator holds back what binds more tightly. -/
theorem shields_operator {tier : Nat} {op : Operator} (h : op.precedence ≤ 10 * tier) (pos : Position)
    (stack : List Cell) : Shields tier (.operator op pos :: stack) := by
  intro incoming n output htier hle
  obtain ⟨hprecedence, hleft, _⟩ := Operator.of_tier? htier
  have hyields : yields incoming op = false := by
    rw [yields, hleft, hprecedence, decide_eq_false_iff_not]
    omega
  rw [popYielding, hyields]
  rfl

theorem popYielding_exp (output stack : List Cell) : popYielding .exp output stack = (output, stack) := by
  unfold popYielding
  split
  · rename_i op _ _
    have hle := op.precedence_le
    have hyields : yields .exp op = false := decide_eq_false (Nat.not_lt.2 hle)
    rw [hyields]
    rfl
  · rfl

/-- An operator that comes in lets out the tighter ones above those that hold it back. -/
theorem popYielding_append {op : Operator} {n : Nat} (htier : op.tier? = some n) {pending : List Cell}
    (hpending : Binding (10 * (n + 1)) pending) {stack : List Cell} (hstack : Shields n stack)
    (output : List Cell) :
    popYielding op output (pending ++ stack) = (pending.reverse ++ output, stack) := by
  induction pending generalizing output with
  | nil => exact hstack op n output htier (Nat.le_refl n)
  | cons cell pending ih =>
    obtain ⟨onStack, pos, rfl, hle⟩ := hpending cell List.mem_cons_self
    obtain ⟨hprecedence, hleft, _⟩ := Operator.of_tier? htier
    have hyields : yields op onStack = true := by
      rw [yields, hleft, hprecedence, decide_eq_true_eq]
      exact hle
    rw [List.cons_append, popYielding, if_pos hyields,
      ih (fun cell hcell => hpending cell (List.mem_cons_of_mem _ hcell))]
    simp

theorem popToLeft?_append {precedence : Nat} {pending : List Cell} (hpending : Binding precedence pending)
    (output stack : List Cell) (pos : Position) :
    popToLeft? output (pending ++ .left pos :: stack) = some (pending.reverse ++ output, stack) := by
  induction pending generalizing output with
  | nil => rw [List.nil_append, popToLeft?]; rfl
  | cons cell pending ih =>
    obtain ⟨op, pos', rfl, _⟩ := hpending cell List.mem_cons_self
    rw [List.cons_append, popToLeft?, ih (fun cell hcell => hpending cell (List.mem_cons_of_mem _ hcell))]
    · simp
    · exact nofun

theorem popAll_of_binding {precedence : Nat} {pending : List Cell} (hpending : Binding precedence pending)
    (output : List Cell) : popAll output pending = .ok (output.reverse ++ pending) := by
  induction pending generalizing output with
  | nil => simp [popAll]
  | cons cell pending ih =>
    obtain ⟨op, pos, rfl, _⟩ := hpending cell List.mem_cons_self
    rw [popAll, ih (fun cell hcell => hpending cell (List.mem_cons_of_mem _ hcell))]
    · simp
    · exact nofun

end Postfix

namespace Infix

/-- The operators of an expression that are on the stack when all of it has been read, the topmost first. -/
def pending : Infix → List Cell
  | .const .. | .name .. | .call .. | .group .. => []
  | .prefixed sign m operand => operand.pending ++ [.operator sign.operator m.pos]
  | .power _ m right => right.pending ++ [.operator .exp m.pos]
  | .binary op _ m right => right.pending ++ [.operator op m.pos]

variable (c : Resolution.Context) (t : SymbolTable)

/-- What has been put out when all of an expression has been read. -/
def finished : Infix → List Cell
  | .const v m => [.value (.number v) m.pos]
  | .name id m => [nameCell c t id m.pos]
  | .call callee m _ args _ =>
    [.call ⟨callee, if args.named then .named else .ordered, args.sites c t args.named, m.pos⟩]
  | .group _ inner _ => inner.postorder c t
  | .prefixed _ _ operand => operand.finished
  | .power left _ right => left.postorder c t ++ right.finished
  | .binary _ left _ right => left.postorder c t ++ right.finished

theorem finished_append_pending (e : Infix) : e.finished c t ++ e.pending = e.postorder c t := by
  cases e with
  | const | name | call | group => simp [finished, pending, postorder]
  | prefixed sign m operand =>
    rw [finished, pending, postorder, ← List.append_assoc, finished_append_pending operand]
  | power left m right | binary op left m right =>
    rw [finished, pending, postorder, ← finished_append_pending right]
    simp

theorem reverse_pending_append (e : Infix) (output : List Cell) :
    e.pending.reverse ++ ((e.finished c t).reverse ++ output) = (e.postorder c t).reverse ++ output := by
  rw [← finished_append_pending, List.reverse_append, List.append_assoc]

theorem IsAtom.pending {e : Infix} (h : e.IsAtom) : e.pending = [] := by
  cases e <;> first | rfl | cases h

theorem IsAtom.finished {e : Infix} (h : e.IsAtom) : e.finished c t = e.postorder c t := by
  rw [← finished_append_pending, h.pending, List.append_nil]

/-- What an expression leaves on the stack binds as tightly as its tier. -/
theorem Fits.binding {tier : Nat} (e : Infix) (h : e.Fits tier) (htier : tier ≤ topTier) :
    Postfix.Binding (10 * (tier + 1)) e.pending := by
  have htop : 10 * (tier + 1) ≤ 60 := by
    rw [topTier] at htier
    omega
  cases e with
  | const | name | call | group => exact nofun
  | prefixed sign m operand =>
    intro cell hcell
    rw [Infix.pending, List.mem_append, List.mem_singleton] at hcell
    rcases hcell with hcell | rfl
    · obtain ⟨op, pos, rfl, hle⟩ := Fits.binding operand h (Nat.le_refl _) cell hcell
      exact ⟨op, pos, rfl, Nat.le_trans htop hle⟩
    · exact ⟨_, _, rfl, by simpa using htop⟩
  | power left m right =>
    intro cell hcell
    rw [Infix.pending, List.mem_append, List.mem_singleton] at hcell
    rcases hcell with hcell | rfl
    · obtain ⟨op, pos, rfl, hle⟩ := Fits.binding right h.2.2 (Nat.le_refl _) cell hcell
      exact ⟨op, pos, rfl, Nat.le_trans htop hle⟩
    · exact ⟨_, _, rfl, htop⟩
  | binary op left m right =>
    obtain ⟨n, hop, hle, _, hright⟩ := h
    obtain ⟨hprecedence, _, _, hlt⟩ := Operator.of_tier? hop
    intro cell hcell
    rw [Infix.pending, List.mem_append, List.mem_singleton] at hcell
    rcases hcell with hcell | rfl
    · obtain ⟨op', pos, rfl, hle'⟩ := Fits.binding right hright hlt cell hcell
      exact ⟨op', pos, rfl, by omega⟩
    · exact ⟨_, _, rfl, by omega⟩

/-- Reading an expression puts out what is finished and leaves on the stack what is pending. -/
theorem convertFrom_cells {tier : Nat} (e : Infix) (h : e.Fits tier) {stack : List Cell}
    (hstack : Postfix.Shields tier stack) (output rest : List Cell) :
    Postfix.convertFrom output stack (e.cells c t ++ rest) =
      Postfix.convertFrom ((e.finished c t).reverse ++ output) (e.pending ++ stack) rest := by
  cases e with
  | const v m => rfl
  | name id m =>
    rw [cells, finished, nameCell]
    split <;> rfl
  | call callee m opening args closing => rfl
  | group opening inner closing =>
    rw [cells, List.cons_append, List.append_assoc, Postfix.convertFrom.eq_def]
    simp only
    rw [convertFrom_cells inner h (Postfix.shields_left 0 opening.pos stack), List.singleton_append,
      Postfix.convertFrom.eq_def]
    simp only
    rw [Postfix.popToLeft?_append (Fits.binding inner h (Nat.zero_le _))]
    simp only
    rw [reverse_pending_append, finished, pending, List.nil_append]
  | prefixed sign m operand =>
    rw [cells, List.cons_append, Postfix.convertFrom.eq_def]
    simp only [Sign.isPrefix_operator, if_true]
    rw [convertFrom_cells operand h (Postfix.shields_topTier _), finished, pending, List.append_assoc]
    rfl
  | power left m right =>
    obtain ⟨hatom, hleft, hright⟩ := h
    rw [cells, List.append_assoc, convertFrom_cells left hleft (Postfix.shields_topTier _),
      hatom.pending, hatom.finished, List.nil_append, List.cons_append, Postfix.convertFrom.eq_def]
    simp only [Operator.isPrefix, Bool.false_eq_true, if_false, Postfix.popYielding_exp]
    rw [convertFrom_cells right hright (Postfix.shields_topTier _), finished, pending]
    simp
  | binary op left m right =>
    obtain ⟨n, hop, hle, hleft, hright⟩ := h
    obtain ⟨hprecedence, _, hunary, hlt⟩ := Operator.of_tier? hop
    have hstack' : Postfix.Shields n stack := fun op' n' output htier hle' =>
      hstack op' n' output htier (Nat.le_trans hle hle')
    rw [cells, List.append_assoc, convertFrom_cells left hleft hstack', List.cons_append,
      Postfix.convertFrom.eq_def]
    simp only [hunary, Bool.false_eq_true, if_false]
    rw [Postfix.popYielding_append hop (Fits.binding left hleft (Nat.le_of_lt hlt)) hstack']
    simp only
    rw [reverse_pending_append, convertFrom_cells right hright (Postfix.shields_operator (by omega) _ _),
      finished, pending]
    simp

/-- The conversion of an expression of the grammar is its postorder. -/
theorem convert_cells (e : Infix) (h : e.Fits 0) : Postfix.convert (e.cells c t) = .ok (e.postorder c t) := by
  have hread := convertFrom_cells c t e h (Postfix.shields_nil 0) [] []
  rw [List.append_nil, List.append_nil, List.append_nil] at hread
  rw [Postfix.convert, hread, Postfix.convertFrom, Postfix.popAll_of_binding (Fits.binding e h (Nat.zero_le _)),
    List.reverse_reverse, finished_append_pending]

end Infix

section Trees

variable (c : Resolution.Context) (t : SymbolTable)

theorem nameCell_toTrees (id : Ident) (pos : Position) (stack : List Expr) (rest : List Cell) :
    Cell.toTrees stack (nameCell c t id pos :: rest) = Cell.toTrees (nameTree c t id pos :: stack) rest := by
  rw [nameCell, nameTree]
  cases constantOf c t id pos <;> rfl

/-- A sequence that leaves one tree is that of an expression. -/
theorem Compiled.toExpr_of_toTrees {cells : List Cell} {tree : Expr}
    (h : Cell.toTrees [] cells = .ok [tree]) (pos : Position) :
    (Compiled.mk cells pos).toExpr = .ok (.span ⟨cells, pos⟩ tree) := by
  rw [Compiled.toExpr, h]
  rfl

mutual

/-- The tree that is built from a postorder is that of the expression. -/
theorem Infix.toTrees_postorder {tier : Nat} (e : Infix) (h : e.Fits tier) (stack : List Expr)
    (rest : List Cell) :
    Cell.toTrees stack (e.postorder c t ++ rest) = Cell.toTrees (e.tree c t :: stack) rest := by
  cases e with
  | const v m => rfl
  | name id m => exact nameCell_toTrees c t id m.pos stack rest
  | call callee m opening args closing =>
    have htrees := InfixArguments.toArguments_sites args.named args h
    simp only [Infix.postorder, Infix.tree, List.singleton_append, Cell.toTrees, CallSite.toExpr, htrees]
    rfl
  | group opening inner closing =>
    rw [Infix.postorder, Infix.tree]
    exact Infix.toTrees_postorder inner h stack rest
  | prefixed sign m operand =>
    rw [Infix.postorder, Infix.tree, List.append_assoc, Infix.toTrees_postorder operand h,
      List.singleton_append, Cell.toTrees, Expr.applyOperator, Sign.isPrefix_operator]
    rfl
  | power left m right =>
    rw [Infix.postorder, Infix.tree, List.append_assoc, List.append_assoc,
      Infix.toTrees_postorder left h.2.1, Infix.toTrees_postorder right h.2.2]
    rfl
  | binary op left m right =>
    obtain ⟨n, hop, _, hleft, hright⟩ := h
    rw [Infix.postorder, Infix.tree, List.append_assoc, List.append_assoc,
      Infix.toTrees_postorder left hleft, Infix.toTrees_postorder right hright, List.singleton_append,
      Cell.toTrees, Expr.applyOperator, (Operator.of_tier? hop).2.2.1]
    rfl

theorem InfixArgument.toArgument_site (named : Bool) (arg : InfixArgument) (h : arg.Fits) :
    (arg.site c t named).toArgument = .ok (arg.tree c t named) := by
  cases arg with
  | assign id m equals value | opAssign id m op opMark equals value =>
    have hvalue := Infix.toTrees_postorder value h [] []
    rw [List.append_nil] at hvalue
    rw [InfixArgument.site, SiteArgument.toArgument, Compiled.toExpr_of_toTrees hvalue]
    rfl
  | positional value =>
    have hvalue := Infix.toTrees_postorder value h [] []
    rw [List.append_nil] at hvalue
    have hplain := Compiled.toExpr_of_toTrees hvalue value.pos
    cases value with
    | name id m =>
      rw [InfixArgument.site, InfixArgument.tree]
      cases named with
      | true => rfl
      | false =>
        rw [if_neg Bool.false_ne_true, if_neg Bool.false_ne_true, SiteArgument.toArgument]
        rw [Infix.postorder, Infix.tree, Infix.pos] at hplain
        rw [hplain]
        rfl
    | const | call | group | prefixed | power | binary =>
      rw [InfixArgument.site, SiteArgument.toArgument, hplain]
      · rfl
      · exact nofun

theorem InfixArguments.toArguments_sites (named : Bool) (args : InfixArguments) (h : args.Fit) :
    SiteArgument.toArguments (args.sites c t named) = .ok (args.trees c t named) := by
  cases args with
  | none => rfl
  | last arg =>
    rw [InfixArguments.sites, InfixArguments.trees, SiteArgument.toArguments,
      InfixArgument.toArgument_site named arg h]
    rfl
  | more arg comma rest =>
    rw [InfixArguments.sites, InfixArguments.trees, SiteArgument.toArguments,
      InfixArgument.toArgument_site named arg h.1, InfixArguments.toArguments_sites named rest h.2]
    rfl

end

end Trees

end ToneScript
