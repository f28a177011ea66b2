import ToneScript.Activation.Evaluation
import ToneScript.Proofs.Syntax.Arguments

/-! Two ways to evaluate an arithmetic expression: running its sequence on a stack of values, and walking the
tree that is built from the sequence on a stack of trees. Cell by cell, the values on the one stack are those
of the trees on the other. -/
namespace ToneScript

/-- The value of the tree of an arithmetic expression. -/
def Expr.walk (names : NameTable) (env : Environment) : Expr → Except EvalError Value
  | .number x _ => .ok (.number x)
  | .boolean b _ => .ok (.boolean b)
  | .var name pos =>
    match env.lookup name with
    | some v => .ok v
    | none => .error (.located pos (.undefinedVariable (names.name name)))
  | .prefixed op operand _ => do
    let v ← operand.walk names env
    return op.applyPrefix v
  | .binary op left right _ => do
    let l ← left.walk names env
    let r ← right.walk names env
    return op.applyBinary l r
  | .call site _ => env.call site
  | .span _ tree => tree.walk names env
  | .block _ _ pos => .error (.located pos .definitionAsValue)
  | .conditional _ _ _ pos => .error (.located pos .definitionAsValue)

/-- The call sites in the tree of an arithmetic expression, outside the arguments of calls. -/
def Expr.sites : Expr → List CallSite
  | .call site _ => [site]
  | .prefixed _ operand _ => operand.sites
  | .binary _ left right _ => left.sites ++ right.sites
  | .span _ tree => tree.sites
  | .number .. | .boolean .. | .var .. | .block .. | .conditional .. => []

/-- The call site in a cell. -/
def Cell.site? : Cell → Option CallSite
  | call site => some site
  | value .. | slot .. | operator .. | left _ | right _ => none

/-- Whether a tree is made of literals, variables, operators and calls alone. -/
def Expr.IsPlain : Expr → Prop
  | .number .. | .boolean .. | .var .. | .call .. => True
  | .prefixed _ operand _ => operand.IsPlain
  | .binary _ left right _ => left.IsPlain ∧ right.IsPlain
  | .span .. | .block .. | .conditional .. => False

/-- The variables and calls of a running program. -/
def Environment.ofChain (c : Activation.Context) (chain : Chain) : Environment where
  lookup := chain.lookup
  call := Activation.call c chain

section Running

variable (c : Activation.Context) (chain : Chain)

/-- A running program evaluates a sequence as the engine does. -/
theorem Activation.cells_eq_evalFrom (stack : List Value) (cells : List Cell) :
    Activation.cells c chain stack cells = Postfix.evalFrom (.ofChain c chain) stack cells := by
  induction cells generalizing stack with
  | nil => rw [Activation.cells, Postfix.evalFrom]
  | cons cell rest ih =>
    cases cell with
    | value v pos => simp only [Activation.cells, Postfix.evalFrom, Postfix.step, ih]
    | slot id pos =>
      simp only [Activation.cells, Postfix.evalFrom, Postfix.step, Environment.ofChain]
      cases Postfix.readSlot chain.lookup id pos with
      | error e => rfl
      | ok v => exact ih (v :: stack)
    | operator op pos =>
      simp only [Activation.cells, Postfix.evalFrom, Postfix.step]
      cases Postfix.applyOperator op pos stack with
      | error e => rfl
      | ok stack' => exact ih stack'
    | call site =>
      simp only [Activation.cells, Postfix.evalFrom, Postfix.step, Environment.ofChain]
      cases Activation.call c chain site with
      | error e => rfl
      | ok v => exact ih (v :: stack)
    | left pos | right pos => simp only [Activation.cells, Postfix.evalFrom, Postfix.step]

/-- A running program evaluates a plain tree by walking it. -/
theorem Expr.IsPlain.expr_eq_walk {e : Expr} (h : e.IsPlain) :
    Activation.expr c chain e = e.walk c.names (.ofChain c chain) := by
  fun_induction Expr.walk c.names (.ofChain c chain) e with
  | case1 x pos => simp only [Activation.expr]
  | case2 b pos => simp only [Activation.expr]
  | case3 name pos v hv =>
    have hv : chain.lookup name = some v := hv
    simp only [Activation.expr, hv]
  | case4 name pos hnone =>
    have hnone : chain.lookup name = none := hnone
    simp only [Activation.expr, hnone]
  | case5 op operand pos ih => simp only [Activation.expr, ih h]
  | case6 op left right pos ihl ihr => simp only [Activation.expr, ihl h.1, ihr h.2]
  | case7 site args => simp only [Activation.expr, Environment.ofChain]
  | case8 | case9 | case10 => cases h

end Running

namespace Cell

variable {cell : Cell} {cells : List Cell} {trees trees' : List Expr}

theorem Pushes.isPlain (h : cell.Pushes trees trees') (htrees : ∀ e ∈ trees, e.IsPlain) :
    ∀ e ∈ trees', e.IsPlain := by
  cases h with
  | value v pos => exact List.forall_mem_cons.2 ⟨by cases v <;> trivial, htrees⟩
  | slot | call => exact List.forall_mem_cons.2 ⟨trivial, htrees⟩
  | prefixed =>
    obtain ⟨he, hrest⟩ := List.forall_mem_cons.1 htrees
    exact List.forall_mem_cons.2 ⟨he, hrest⟩
  | binary =>
    obtain ⟨hr, hl, hrest⟩ := (List.forall_mem_cons.1 htrees).imp_right List.forall_mem_cons.1
    exact List.forall_mem_cons.2 ⟨⟨hl, hr⟩, hrest⟩

theorem Builds.isPlain (h : Builds cells trees trees') (htrees : ∀ e ∈ trees, e.IsPlain) :
    ∀ e ∈ trees', e.IsPlain := by
  induction h with
  | nil => exact htrees
  | cons first _ ih => exact ih (first.isPlain htrees)

theorem isPlain_toTrees (h : toTrees [] cells = .ok trees) : ∀ e ∈ trees, e.IsPlain :=
  (toTrees_eq_ok_iff.1 h).isPlain (List.forall_mem_nil _)

theorem Pushes.sites (h : cell.Pushes trees trees') :
    trees'.reverse.flatMap Expr.sites = trees.reverse.flatMap Expr.sites ++ cell.site?.toList := by
  cases h with
  | value v pos => cases v <;> simp [Expr.ofValue, Expr.sites, site?]
  | slot | call | prefixed | binary => simp [Expr.sites, site?]

/-- The calls of a sequence stand in its trees in the same order. -/
theorem sites_toTrees (h : toTrees trees cells = .ok trees') :
    trees'.reverse.flatMap Expr.sites = trees.reverse.flatMap Expr.sites ++ cells.filterMap site? := by
  rw [toTrees_eq_ok_iff] at h
  induction h with
  | nil => simp
  | @cons cell _ _ _ _ first _ ih =>
    rw [ih, first.sites, List.append_assoc]
    cases hsite : cell.site? <;> simp [hsite]

end Cell

section Walking

variable {names : NameTable} {env : Environment} {cells : List Cell} {trees trees' : List Expr}
  {values : List Value}

/-- Whether a tree has a value. -/
def Expr.Walks (names : NameTable) (env : Environment) (e : Expr) : Prop :=
  ∃ v, e.walk names env = .ok v

theorem Expr.walk_ofValue (v : Value) (pos : Position) : (Expr.ofValue v pos).walk names env = .ok v := by
  cases v <;> simp only [ofValue, walk]

theorem Expr.walk_prefixed_ok {op : Operator} {e : Expr} {pos : Position} {v : Value} :
    (Expr.prefixed op e pos).walk names env = .ok v ↔
      ∃ w, e.walk names env = .ok w ∧ op.applyPrefix w = v := by
  simp only [walk, bind_eq_ok, pure, Except.pure, Except.ok.injEq]

theorem Expr.walk_binary_ok {op : Operator} {l r : Expr} {pos : Position} {v : Value} :
    (Expr.binary op l r pos).walk names env = .ok v ↔
      ∃ x, l.walk names env = .ok x ∧ ∃ y, r.walk names env = .ok y ∧ op.applyBinary x y = v := by
  simp only [walk, bind_eq_ok, pure, Except.pure, Except.ok.injEq]

/-- A cell makes trees that have values only of trees that have values. -/
theorem Cell.Pushes.walks_of {cell : Cell} (h : cell.Pushes trees trees')
    (htrees : ∀ e ∈ trees', e.Walks names env) : ∀ e ∈ trees, e.Walks names env := by
  cases h with
  | value | slot | call => exact (List.forall_mem_cons.1 htrees).2
  | prefixed =>
    obtain ⟨⟨v, hv⟩, hrest⟩ := List.forall_mem_cons.1 htrees
    obtain ⟨w, hw, _⟩ := Expr.walk_prefixed_ok.1 hv
    exact List.forall_mem_cons.2 ⟨⟨w, hw⟩, hrest⟩
  | binary =>
    obtain ⟨⟨v, hv⟩, hrest⟩ := List.forall_mem_cons.1 htrees
    obtain ⟨x, hx, y, hy, _⟩ := Expr.walk_binary_ok.1 hv
    exact List.forall_mem_cons.2 ⟨⟨y, hy⟩, List.forall_mem_cons.2 ⟨⟨x, hx⟩, hrest⟩⟩

/-- Trees that have values are made of trees that have values. -/
theorem Cell.walks_of_toTrees (h : toTrees trees cells = .ok trees')
    (htrees : ∀ e ∈ trees', e.Walks names env) : ∀ e ∈ trees, e.Walks names env := by
  rw [toTrees_eq_ok_iff] at h
  induction h with
  | nil => exact htrees
  | cons first _ ih => exact first.walks_of (ih htrees)

/-- The trees on a stack and their values. -/
def Valued (names : NameTable) (env : Environment) : List Expr → List Value → Prop :=
  List.Forall₂ fun e v => e.walk names env = .ok v

/-- An operator that finds its operands among trees finds their values among values. -/
theorem Valued.applyOperator (op : Operator) (pos : Position) (h : Valued names env trees values) :
    (∃ trees' values', Expr.applyOperator op pos trees = .ok trees' ∧
      Postfix.applyOperator op pos values = .ok values' ∧ Valued names env trees' values') ∨
    (∃ e e', Expr.applyOperator op pos trees = .error e ∧ Postfix.applyOperator op pos values = .error e') := by
  unfold Expr.applyOperator Postfix.applyOperator
  cases op.isPrefix with
  | true =>
    cases h with
    | nil => exact .inr ⟨_, _, rfl, rfl⟩
    | cons hv hrest => exact .inl ⟨_, _, rfl, rfl, .cons (Expr.walk_prefixed_ok.2 ⟨_, hv, rfl⟩) hrest⟩
  | false =>
    cases h with
    | nil => exact .inr ⟨_, _, rfl, rfl⟩
    | cons hr hrest =>
      cases hrest with
      | nil => exact .inr ⟨_, _, rfl, rfl⟩
      | cons hl hrest =>
        exact .inl ⟨_, _, rfl, rfl, .cons (Expr.walk_binary_ok.2 ⟨_, hl, _, hr, rfl⟩) hrest⟩

/-- A cell makes the values of the trees that it makes, unless its own tree has none. -/
theorem Cell.Pushes.valued {cell : Cell} (h : cell.Pushes trees trees') (hvalues : Valued names env trees values) :
    (∃ values', Postfix.step env values cell = .ok values' ∧ Valued names env trees' values') ∨
    (∃ e, Postfix.step env values cell = .error e) ∧ ∃ e ∈ trees', ¬e.Walks names env := by
  cases cell with
  | value w pos =>
    cases h
    exact .inl ⟨_, rfl, .cons (Expr.walk_ofValue w pos) hvalues⟩
  | slot name pos =>
    cases h
    rw [Postfix.step, Postfix.readSlot]
    cases hlookup : env.lookup name with
    | some w => exact .inl ⟨_, rfl, .cons (by rw [Expr.walk, hlookup]) hvalues⟩
    | none =>
      refine .inr ⟨⟨_, rfl⟩, _, List.mem_cons_self, fun ⟨w, hw⟩ => ?_⟩
      rw [Expr.walk, hlookup] at hw
      cases hw
  | call site =>
    cases h
    rw [Postfix.step]
    cases hcall : env.call site with
    | ok w => exact .inl ⟨_, rfl, .cons (by rw [Expr.walk, hcall]) hvalues⟩
    | error e =>
      refine .inr ⟨⟨_, rfl⟩, _, List.mem_cons_self, fun ⟨w, hw⟩ => ?_⟩
      rw [Expr.walk, hcall] at hw
      cases hw
  | operator op pos =>
    have hop := pushes_operator_iff.1 h
    rcases hvalues.applyOperator op pos with ⟨_, values', hop', hvalues', hmatch⟩ | ⟨_, _, he, _⟩
    · cases hop.symm.trans hop'
      exact .inl ⟨values', hvalues', hmatch⟩
    · cases hop.symm.trans he
  | left pos | right pos => cases h

/-- From stacks that agree, the rest of a sequence has the value of its tree. -/
theorem Postfix.evalFrom_eq_walk {tree : Expr} {v : Value} (h : Cell.toTrees trees cells = .ok [tree])
    (hvalues : Valued names env trees values) :
    evalFrom env values cells = .ok v ↔ tree.walk names env = .ok v := by
  induction cells generalizing trees values with
  | nil =>
    cases h
    obtain ⟨w, _, hw, hnil, rfl⟩ := List.forall₂_cons_left_iff.1 hvalues
    cases hnil
    rw [evalFrom, finish, hw]
  | cons cell rest ih =>
    obtain ⟨mid, hfirst, hrest⟩ := Cell.toTrees_cons_iff.1 h
    rw [evalFrom]
    rcases hfirst.valued hvalues with ⟨values', hstep, hmid⟩ | ⟨⟨_, hstep⟩, e, he, hnone⟩
    · rw [hstep]
      exact ih hrest hmid
    · rw [hstep]
      -- A tree that is already without a value leaves the whole tree without one.
      refine iff_of_false nofun fun hv => hnone ?_
      exact Cell.walks_of_toTrees hrest (List.forall_mem_cons.2 ⟨⟨v, hv⟩, List.forall_mem_nil _⟩) e he

/-- Where all operands have values, a sequence has a tree if it has a value. -/
theorem Postfix.exists_toTrees {v : Value} (hslots : ∀ id pos, .slot id pos ∈ cells → (env.lookup id).isSome)
    (hcalls : ∀ site, .call site ∈ cells → (∃ w, env.call site = .ok w) ∧ ∃ e, site.toExpr = .ok e)
    (hvalues : Valued names env trees values) (h : evalFrom env values cells = .ok v) :
    ∃ tree, Cell.toTrees trees cells = .ok [tree] := by
  induction cells generalizing trees values with
  | nil =>
    rw [evalFrom, finish.eq_def] at h
    split at h <;> cases h
    obtain ⟨tree, _, _, hnil, rfl⟩ := List.forall₂_cons_right_iff.1 hvalues
    cases hnil
    exact ⟨tree, rfl⟩
  | cons cell rest ih =>
    have ih {trees : List Expr} {values : List Value} (hvalues : Valued names env trees values)
        (h : evalFrom env values rest = .ok v) := ih
      (fun id pos hmem => hslots id pos (List.mem_cons_of_mem _ hmem))
      (fun site hmem => hcalls site (List.mem_cons_of_mem _ hmem)) hvalues h
    rw [evalFrom] at h
    rw [Cell.toTrees.eq_def]
    cases cell with
    | value w pos => exact ih (.cons (Expr.walk_ofValue w pos) hvalues) h
    | slot name pos =>
      obtain ⟨w, hw⟩ := Option.isSome_iff_exists.1 (hslots name pos List.mem_cons_self)
      simp only [step, readSlot, hw, Except.map] at h
      exact ih (.cons (by rw [Expr.walk, hw]) hvalues) h
    | call site =>
      obtain ⟨⟨w, hw⟩, node, hnode⟩ := hcalls site List.mem_cons_self
      obtain ⟨args, rfl, _⟩ := CallSite.toExpr_eq_ok hnode
      simp only [step, hw, Except.map] at h
      simp only [hnode]
      exact ih (.cons (by rw [Expr.walk, hw]) hvalues) h
    | operator op pos =>
      rcases hvalues.applyOperator op pos with ⟨mid, values', hmid, hvalues', hmatch⟩ | ⟨_, e, _, he⟩
      · simp only [step, hvalues'] at h
        simp only [hmid]
        exact ih hmatch h
      · simp only [step, he] at h
        cases h
    | left pos | right pos => cases h

/-- The sequence that a program runs and the tree that it was checked by mean the same. Where all operands have
values, the one has a value if and only if the other is there and has it; and wherever the tree is there, both
have the same value or none. The calls of the tree are those of the sequence, argument by argument. -/
theorem Compiled.eval_iff_walk (names : NameTable) (env : Environment) (e : Compiled)
    (hsites : ∀ site, .call site ∈ e.cells → ∃ tree, site.toExpr = .ok tree) :
    ((∀ id pos, .slot id pos ∈ e.cells → (env.lookup id).isSome) →
      (∀ site, .call site ∈ e.cells → ∃ w, env.call site = .ok w) →
      ∀ v, Postfix.eval env e.cells = .ok v ↔
        ∃ tree, e.toExpr = .ok (.span e tree) ∧ tree.walk names env = .ok v) ∧
    ∀ tree, e.toExpr = .ok (.span e tree) →
      (∀ v, Postfix.eval env e.cells = .ok v ↔ tree.walk names env = .ok v) ∧
      (∀ c chain, Activation.expr c chain tree = tree.walk c.names (.ofChain c chain) ∧
        Activation.cells c chain [] e.cells = Postfix.eval (.ofChain c chain) e.cells) ∧
      tree.sites = e.cells.filterMap Cell.site? ∧ ∀ scope, tree.Obeys .matching scope := by
  have hspan {tree : Expr} (htree : e.toExpr = .ok (.span e tree)) :
      Cell.toTrees [] e.cells = .ok [tree] := by
    obtain ⟨tree', heq, htrees⟩ := Compiled.toExpr_eq_ok htree
    cases heq
    exact htrees
  refine ⟨fun hslots hcalls v => ⟨fun hv => ?_, ?_⟩, fun tree htree => ⟨fun v => ?_, fun c chain => ⟨?_, ?_⟩, ?_, ?_⟩⟩
  · have hvalues : Valued names env [] [] := .nil
    obtain ⟨tree, htrees⟩ := Postfix.exists_toTrees hslots
      (fun site hmem => ⟨hcalls site hmem, hsites site hmem⟩) hvalues hv
    refine ⟨tree, ?_, (Postfix.evalFrom_eq_walk htrees .nil).1 hv⟩
    obtain ⟨cells, pos⟩ := e
    rw [Compiled.toExpr, htrees]
    rfl
  · rintro ⟨tree, htree, hv⟩
    exact (Postfix.evalFrom_eq_walk (hspan htree) .nil).2 hv
  · exact Postfix.evalFrom_eq_walk (hspan htree) .nil
  · exact (Cell.isPlain_toTrees (hspan htree) tree List.mem_cons_self).expr_eq_walk c chain
  · exact Activation.cells_eq_evalFrom c chain [] e.cells
  · simpa using Cell.sites_toTrees (hspan htree)
  · intro scope
    have hobeys : (Expr.span e tree).Obeys .matching scope := Compiled.obeys_matching scope e htree
    exact hobeys

/-- A variable and a call, added. -/
def variablePlusCall : Compiled :=
  ⟨[.slot 5 .start, .call ⟨7, .ordered, [.positional ⟨[.value (.number 1) .start], .start⟩ .start], .start⟩,
    .operator .add .start], .start⟩

/-- An environment in which every variable is two and every call gives three. -/
def twoAndThree : Environment where
  lookup _ := some (.number 2)
  call _ := .ok (.number 3)

theorem Compiled.walk_variablePlusCall :
    ∃ tree, variablePlusCall.toExpr = .ok (.span variablePlusCall tree) ∧
      tree.walk {} twoAndThree = .ok (.number (2 + 3)) := by
  have hsites : ∀ site, .call site ∈ variablePlusCall.cells → ∃ tree, site.toExpr = .ok tree := by
    intro site hmem
    simp only [variablePlusCall, List.mem_cons, reduceCtorEq, Cell.call.injEq, List.not_mem_nil, or_false,
      false_or] at hmem
    rw [hmem]
    exact ⟨_, rfl⟩
  exact (((eval_iff_walk {} twoAndThree variablePlusCall hsites).1 (fun _ _ _ => rfl)
    (fun _ _ => ⟨_, rfl⟩)) _).1 rfl

end Walking

end ToneScript
