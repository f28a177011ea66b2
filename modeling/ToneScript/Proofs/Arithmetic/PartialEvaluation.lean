import ToneScript.Postfix.Evaluation

/-! Folding the variables of one environment into a sequence, as partial evaluation: what is left of the sequence
evaluates in another environment as the whole does in the two environments together. Nothing is assumed about the
sequence, which may hold parentheses or have too few operands. -/
namespace ToneScript

namespace Environment

/-- Two environments together: a variable is looked up in the first, and in the second if that has no value for it. Calls
are performed as in the second. -/
def shadowing (first second : Environment) : Environment where
  lookup id := (first.lookup id).or (second.lookup id)
  call := second.call

theorem shadowing_idem (first second : Environment) : first.shadowing (first.shadowing second) = first.shadowing second := by
  unfold shadowing
  congr 1
  funext id
  show (first.lookup id).or ((first.lookup id).or (second.lookup id)) = (first.lookup id).or (second.lookup id)
  cases first.lookup id <;> rfl

end Environment

/-- The variable that a cell reads. -/
def Cell.slot? : Cell → Option Ident
  | .slot id _ => some id
  | _ => none

namespace Postfix

variable (known env : Environment)

/-- A cell does the same in two environments with the same calls if these agree on the variable that it reads. -/
theorem step_congr {env env' : Environment} (hcall : env.call = env'.call) (stack : List Value) (cell : Cell)
    (hslot : ∀ id, cell.slot? = some id → env.lookup id = env'.lookup id) :
    step env stack cell = step env' stack cell := by
  cases cell with
  | value v pos => rfl
  | slot id pos =>
    have hlookup : env.lookup id = env'.lookup id := hslot id rfl
    simp only [step, readSlot, hlookup]
  | operator op pos => rfl
  | left pos => rfl
  | right pos => rfl
  | call site => simp only [step, hcall]

/-- From every stack, a sequence evaluates alike in two environments with the same calls that agree on the variables it
reads. -/
theorem evalFrom_congr {env env' : Environment} (hcall : env.call = env'.call) (stack : List Value) (cells : List Cell)
    (hslots : ∀ cell ∈ cells, ∀ id, cell.slot? = some id → env.lookup id = env'.lookup id) :
    evalFrom env stack cells = evalFrom env' stack cells := by
  induction cells generalizing stack with
  | nil => rfl
  | cons cell rest ih =>
    have hstep : step env stack cell = step env' stack cell :=
      step_congr hcall stack cell (hslots cell List.mem_cons_self)
    have hrest := fun stack' => ih stack' fun c hc => hslots c (List.mem_cons_of_mem cell hc)
    unfold evalFrom
    rw [hstep]
    cases step env' stack cell with
    | error e => rfl
    | ok stack' => exact hrest stack'

/-- A cell in which a variable may have been replaced does to a stack what the cell itself does in both environments. -/
theorem step_foldCell (stack : List Value) (cell : Cell) :
    step env stack (foldCell known.lookup cell) = step (known.shadowing env) stack cell := by
  cases cell with
  | slot id pos =>
    have hlookup : (known.shadowing env).lookup id = (known.lookup id).or (env.lookup id) := rfl
    cases hknown : known.lookup id with
    | none =>
      rw [hknown, Option.none_or] at hlookup
      simp only [foldCell, hknown, step, readSlot, hlookup]
    | some v =>
      rw [hknown, Option.some_or] at hlookup
      simp only [foldCell, hknown, step, readSlot, hlookup]
      rfl
  | value v pos => rfl
  | operator op pos => rfl
  | left pos => rfl
  | right pos => rfl
  | call site => rfl

/-- The same for a whole sequence, from every stack: the first cell that fails is the same, for the same cause. -/
theorem evalFrom_foldCell (stack : List Value) (cells : List Cell) :
    evalFrom env stack (cells.map (foldCell known.lookup)) = evalFrom (known.shadowing env) stack cells := by
  induction cells generalizing stack with
  | nil => rfl
  | cons cell rest ih =>
    rw [List.map_cons]
    unfold evalFrom
    rw [step_foldCell]
    cases step (known.shadowing env) stack cell with
    | error e => rfl
    | ok stack' => exact ih stack'

end Postfix

namespace Compiled

variable (e : Compiled) (known env : Environment)

theorem eval_foldScope : (e.foldScope known).eval env = e.eval (known.shadowing env) := by
  unfold Compiled.eval Postfix.eval
  exact congrArg (Except.mapError (EvalError.orAt · e.pos)) (Postfix.evalFrom_foldCell known env [] e.cells)

/-- What is known of every variable of an expression leaves nothing for an environment to say but the calls. -/
theorem eval_shadowing_congr {env env' : Environment} (hcall : env.call = env'.call)
    (hbound : ∀ cell ∈ e.cells, ∀ id, cell.slot? = some id → (known.lookup id).isSome) :
    e.eval (known.shadowing env) = e.eval (known.shadowing env') := by
  have hslots : ∀ cell ∈ e.cells, ∀ id, cell.slot? = some id →
      (known.shadowing env).lookup id = (known.shadowing env').lookup id := by
    intro cell hcell id hid
    obtain ⟨v, hv⟩ := Option.isSome_iff_exists.mp (hbound cell hcell id hid)
    simp [Environment.shadowing, hv]
  have hcalls : (known.shadowing env).call = (known.shadowing env').call := hcall
  have hcells : Postfix.eval (known.shadowing env) e.cells = Postfix.eval (known.shadowing env') e.cells :=
    Postfix.evalFrom_congr hcalls [] e.cells hslots
  unfold Compiled.eval
  rw [hcells]

/-- Folding is partial evaluation: what is left evaluates in an environment to the value, or to the error with its place,
that the whole has in both environments together. So folding twice evaluates like folding once, and if every variable of
the expression is folded, then only the calls of an environment still matter. -/
theorem foldScope_partial :
    (Postfix.eval env (e.foldScope known).cells = Postfix.eval (known.shadowing env) e.cells ∧
      (e.foldScope known).eval env = e.eval (known.shadowing env) ∧
      (e.foldScope known).evalNumber env = e.evalNumber (known.shadowing env)) ∧
    ((e.foldScope known).foldScope known).eval env = (e.foldScope known).eval env ∧
    ((∀ cell ∈ e.cells, ∀ id, cell.slot? = some id → (known.lookup id).isSome) →
      ∀ env', env.call = env'.call → (e.foldScope known).eval env = (e.foldScope known).eval env') := by
  have hwhole := e.eval_foldScope known env
  constructor
  · have hcells : Postfix.eval env (e.foldScope known).cells = Postfix.eval (known.shadowing env) e.cells :=
      Postfix.evalFrom_foldCell known env [] e.cells
    have hnumber := congrArg (Except.map Value.toNumber) hwhole
    exact ⟨hcells, hwhole, hnumber⟩
  constructor
  · calc ((e.foldScope known).foldScope known).eval env
        = (e.foldScope known).eval (known.shadowing env) := (e.foldScope known).eval_foldScope known env
      _ = e.eval (known.shadowing (known.shadowing env)) := e.eval_foldScope known (known.shadowing env)
      _ = e.eval (known.shadowing env) := by rw [Environment.shadowing_idem]
      _ = (e.foldScope known).eval env := hwhole.symm
  · intro hbound env' hcall
    calc (e.foldScope known).eval env
        = e.eval (known.shadowing env) := hwhole
      _ = e.eval (known.shadowing env') := e.eval_shadowing_congr known hcall hbound
      _ = (e.foldScope known).eval env' := (e.eval_foldScope known env').symm

/-- Both variables of `x * (f() - y)` are folded. What is left evaluates alike whether or not the variables have other values
where it is evaluated, and it is the call that is performed there. -/
theorem foldScope_partial_difference :
    let column := Position.start.addChars
    let e : Compiled :=
      ⟨[.slot 1 (column 0), .call ⟨7, .ordered, [], column 5⟩, .slot 2 (column 11), .operator .sub (column 9),
        .operator .mul (column 2)], column 0⟩
    let known : Environment := .ofBindings [(1, .number 5), (2, .boolean true)]
    let env : Environment := ⟨fun _ => none, fun _ => .ok (.number 2)⟩
    let env' : Environment := ⟨fun _ => some (.number 9), env.call⟩
    (∀ cell ∈ e.cells, ∀ id, cell.slot? = some id → (known.lookup id).isSome) ∧ env.call = env'.call ∧
      (e.foldScope known).eval env = (e.foldScope known).eval env' := by
  intro column e known env env'
  have hbound : ∀ cell ∈ e.cells, ∀ id, cell.slot? = some id → (known.lookup id).isSome := by
    intro cell hcell id hid
    simp only [e, List.mem_cons, List.not_mem_nil, or_false] at hcell
    rcases hcell with rfl | rfl | rfl | rfl | rfl
    · cases hid
      decide
    · cases hid
    · cases hid
      decide
    · cases hid
    · cases hid
  exact ⟨hbound, rfl, (e.foldScope_partial known env).2.2 hbound env' rfl⟩

end Compiled
end ToneScript
