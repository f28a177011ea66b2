import ToneScript.Proofs.Depth.Machine
import ToneScript.Proofs.Run.CallBinding

/-! Evaluation in small steps comes to its end, with the outcome that evaluation has when calls may nest as deep as the
counter allows, and leaves the counter as it was. -/
namespace ToneScript.Machine

open Activation (Context context invokeAt placeOf argumentValue fillDefaults)

variable {names : NameTable} {max : Nat} {s t u : State}

theorem Reaches.head (h : step names max s = some t) (hrest : Reaches names max t u) : Reaches names max s u :=
  Relation.ReflTransGen.head h hrest

/-- What waits for an outcome goes on when there is one. -/
theorem Reaches.resumed {w : Waiting} {outcome : Except EvalError Value}
    (h : Reaches names max s ((t.hold w).next (.done outcome)))
    (hrest : Reaches names max (resume names (t.next (.done outcome)) outcome w) u) : Reaches names max s u :=
  h.trans (.head rfl hrest)

/-- With a value an evaluation goes on, and with an error it is done. -/
theorem Reaches.orDone {α : Type} {x : Except EvalError α} {go : α → State} {f : α → Except EvalError Value}
    (h : ∀ a, x = .ok a → Reaches names max (go a) (s.next (.done (f a)))) :
    Reaches names max (s.orDone x go) (s.next (.done (x >>= f))) := by
  cases x with
  | ok a => exact h a rfl
  | error e => exact .refl

theorem fillDefaults_names (c c' : Context) (h : c.names = c'.names) (callee : Ident) (pos : Position)
    (params : List (Ident × Option Number)) (slots : List (Option Value)) :
    fillDefaults c callee pos params slots = fillDefaults c' callee pos params slots := by
  induction params generalizing slots with
  | nil => rfl
  | cons param params ih =>
    cases slots with
    | nil => rfl
    | cons slot slots => rw [fillDefaults, fillDefaults, h, ih]

/-- A kind of state from which an evaluation comes to its end with an outcome, whatever waits for it, when the counter
is `depth`. -/
def Finishes (names : NameTable) (max depth : Nat) (control : Control) (outcome : Except EvalError Value) : Prop :=
  ∀ s : State, s.depth = depth → Reaches names max (s.next control) (s.next (.done outcome))

variable {depth : Nat}

section Sequences

/-- Every invocation comes to its end with the outcome that it has when the counter is `depth`. -/
def Invokes (names : NameTable) (max depth : Nat) : Prop :=
  ∀ callable home? args pos, Finishes names max depth (.invoke callable home? args pos)
    (invokeAt names (max - depth) callable home? args pos)

/-- A sequence whose cells come to an end gives an error without a place its own. -/
theorem compiled_finishes {chain : Chain} {cells : List Cell}
    (hcells : Finishes names max depth (.cells chain [] cells)
      (Activation.cells (context names (max - depth)) chain [] cells)) (pos : Position) (hs : s.depth = depth) :
    Reaches names max (s.sequence chain ⟨cells, pos⟩)
      (s.next (.done (Activation.compiled (context names (max - depth)) chain ⟨cells, pos⟩))) := by
  rw [Activation.compiled]
  exact (hcells (s.hold (.sequence pos)) hs).resumed .refl


mutual

theorem cells_finishes (hinvoke : Invokes names max depth) (chain : Chain) (stack : List Value) (cells : List Cell) :
    Finishes names max depth (.cells chain stack cells)
      (Activation.cells (context names (max - depth)) chain stack cells) := by
  intro s hs
  cases cells with
  | nil =>
    rw [Activation.cells]
    exact .head rfl .refl
  | cons cell rest =>
    cases cell with
    | value v pos =>
      rw [Activation.cells]
      exact .head rfl (cells_finishes hinvoke chain (v :: stack) rest s hs)
    | slot id pos =>
      rw [Activation.cells]
      exact .head rfl (.orDone fun v _ => cells_finishes hinvoke chain (v :: stack) rest s hs)
    | call site =>
      rw [Activation.cells]
      have hcall := call_finishes hinvoke chain site (s.hold (.cells chain stack rest)) hs
      exact .head rfl (hcall.trans (.head rfl
        (Reaches.orDone fun v _ => cells_finishes hinvoke chain (v :: stack) rest s hs)))
    | operator op pos =>
      rw [Activation.cells]
      exact .head rfl (.orDone fun stack' _ => cells_finishes hinvoke chain stack' rest s hs)
    | left pos | right pos =>
      rw [Activation.cells]
      exact .head rfl .refl

theorem call_finishes (hinvoke : Invokes names max depth) (chain : Chain) (site : CallSite) (s : State) (hs : s.depth = depth) :
    Reaches names max (begin names s chain site)
      (s.next (.done (Activation.call (context names (max - depth)) chain site))) := by
  obtain ⟨callee, style, args, pos⟩ := site
  unfold begin
  rw [Activation.call]
  cases chain.findFunction? callee with
  | none => exact .refl
  | some found =>
    obtain ⟨callable, home⟩ := found
    simp only
    split
    · exact .refl
    · exact arguments_finishes hinvoke args chain ⟨callee, style, args, pos⟩ callable home _ 0 s hs

/-- The rest of the arguments of a call, after which its function is invoked. -/
theorem arguments_finishes (hinvoke : Invokes names max depth) (args : List SiteArgument) (chain : Chain) (site : CallSite) (callable : Callable)
    (home : Chain) (slots : List (Option Value)) (next : Nat) :
    Finishes names max depth (.arguments ⟨chain, site, callable, home, slots, next, args⟩) (do
      let slots ← Activation.arguments (context names (max - depth)) chain site.callee site.style callable.params slots
        next args
      let values ← fillDefaults (context names (max - depth)) site.callee site.pos callable.params slots
      (context names (max - depth)).invoke callable home values site.pos) := by
  intro s hs
  cases args with
  | nil =>
    rw [Activation.arguments]
    have hvalues := fillDefaults_names (context names 0) (context names (max - depth)) rfl site.callee site.pos
      callable.params slots
    have hstep : step names max (s.next (.arguments ⟨chain, site, callable, home, slots, next, []⟩)) =
        some (s.orDone (fillDefaults (context names 0) site.callee site.pos callable.params slots) fun values =>
          s.next (.invoke callable (some home) values site.pos)) := rfl
    rw [hvalues] at hstep
    exact .head hstep (Reaches.orDone fun values _ => hinvoke callable (some home) values site.pos s hs)
  | cons arg args =>
    rw [Activation.arguments]
    simp only [bind_assoc]
    refine .head rfl (Reaches.orDone fun place _ => ?_)
    refine (argument_finishes hinvoke chain arg (s.hold (.argument ⟨chain, site, callable, home, slots, next, args⟩ arg place))
      hs).resumed ?_
    rw [← bind_assoc]
    exact Reaches.orDone fun v _ =>
      arguments_finishes hinvoke args chain site callable home (slots.set place (some v)) (next + 1) s hs

/-- The sequence of an argument. -/
theorem argument_finishes (hinvoke : Invokes names max depth) (chain : Chain) (arg : SiteArgument) (s : State) (hs : s.depth = depth) :
    Reaches names max (s.sequence chain arg.value)
      (s.next (.done (Activation.argument (context names (max - depth)) chain arg))) := by
  cases arg with
  | shorthand name e pos | assign name e pos | opAssign name op e pos | positional e pos =>
    obtain ⟨cells, pos⟩ := e
    rw [Activation.argument]
    exact compiled_finishes (cells_finishes hinvoke chain [] cells) pos hs

end

mutual

theorem expr_finishes (hinvoke : Invokes names max depth) (chain : Chain) (e : Expr) :
    Finishes names max depth (.expr chain e) (Activation.expr (context names (max - depth)) chain e) := by
  intro s hs
  cases e with
  | span sequence tree =>
    obtain ⟨cells, pos⟩ := sequence
    rw [Activation.expr]
    exact .head rfl (compiled_finishes (cells_finishes hinvoke chain [] cells) pos hs)
  | number x pos | boolean b pos =>
    rw [Activation.expr]
    exact .head rfl .refl
  | var name pos =>
    rw [Activation.expr]
    refine .head rfl ?_
    rw [stepExpr]
    cases chain.lookup name with
    | some v => exact .refl
    | none => exact .refl
  | prefixed op operand pos =>
    rw [Activation.expr]
    exact .head rfl ((expr_finishes hinvoke chain operand (s.hold (.prefixed op)) hs).resumed .refl)
  | binary op left right pos =>
    rw [Activation.expr]
    refine .head rfl ((expr_finishes hinvoke chain left (s.hold (.right op chain right)) hs).resumed ?_)
    refine Reaches.orDone fun l _ => ?_
    exact (expr_finishes hinvoke chain right (s.hold (.operation op l)) hs).resumed .refl
  | call site args =>
    rw [Activation.expr]
    exact .head rfl (call_finishes hinvoke chain site (s.next _) hs)
  | conditional c t e pos =>
    rw [Activation.expr]
    refine .head rfl ((expr_finishes hinvoke chain c (s.hold (.branches chain t e)) hs).resumed ?_)
    refine Reaches.orDone fun v _ => ?_
    by_cases htruthy : v.truthy = true
    · rw [if_pos htruthy, if_pos htruthy]
      exact expr_finishes hinvoke chain t s hs
    · rw [if_neg htruthy, if_neg htruthy]
      exact expr_finishes hinvoke chain e s hs
  | block key items pos =>
    rw [Activation.expr]
    exact .head rfl ((entries_finishes hinvoke {} chain (.number 0) items (s.hold .block) hs).resumed .refl)

theorem entries_finishes (hinvoke : Invokes names max depth) (inner : Frame) (chain : Chain) (result : Value)
    (items : List BlockEntry) : Finishes names max depth (.entries inner chain result items)
      (Activation.entries (context names (max - depth)) inner chain result items) := by
  intro s hs
  cases items with
  | nil =>
    rw [Activation.entries]
    exact .head rfl .refl
  | cons item items =>
    cases item with
    | closure f pos =>
      rw [Activation.entries]
      exact .head rfl (entries_finishes hinvoke (inner.setFunction f.name (.defined f)) chain result items s hs)
    | operator op value guard? pos =>
      have hvalue (t : State) (ht : t.depth = depth) : Reaches names max
          ((t.hold (.entry inner chain result op items)).next (.expr (inner :: chain) value)) (t.next (.done (do
            let v ← Activation.expr (context names (max - depth)) (inner :: chain) value
            Activation.entries (context names (max - depth)) inner chain (op.applyBinary result v) items))) := by
        refine (expr_finishes hinvoke (inner :: chain) value (t.hold (.entry inner chain result op items)) ht).resumed ?_
        exact Reaches.orDone fun v _ => entries_finishes hinvoke inner chain (op.applyBinary result v) items t ht
      cases guard? with
      | none =>
        rw [Activation.entries]
        exact .head rfl (hvalue s hs)
      | some guard =>
        rw [Activation.entries]
        refine .head rfl ((expr_finishes hinvoke (inner :: chain) guard
          (s.hold (.guard inner chain result op value items)) hs).resumed ?_)
        refine Reaches.orDone fun g _ => ?_
        by_cases htruthy : g.truthy = true
        · rw [if_pos htruthy, if_pos htruthy]
          exact hvalue s hs
        · rw [if_neg htruthy, if_neg htruthy]
          exact entries_finishes hinvoke inner chain result items s hs

end

end Sequences

/-- When the counter has reached its limit no function is entered. -/
theorem step_invoke_of_le (hle : max ≤ s.depth) (callable : Callable) (home? : Option Chain) (args : List Value)
    (pos : Position) :
    step names max (s.next (.invoke callable home? args pos)) =
      some (s.next (.done (.error (.located pos .depthExceeded)))) := by
  have hlimit : max ≤ (s.next (.invoke callable home? args pos)).depth := hle
  have hstep : step names max (s.next (.invoke callable home? args pos)) =
      some (stepInvoke names max (s.next (.invoke callable home? args pos)) callable home? args pos) := rfl
  rw [hstep, stepInvoke, if_pos hlimit]
  rfl

theorem invokeAt_zero (names : NameTable) (callable : Callable) (home? : Option Chain) (args : List Value)
    (pos : Position) : invokeAt names 0 callable home? args pos = .error (.located pos .depthExceeded) := by
  cases home? with
  | some home => rfl
  | none => cases callable <;> rfl

/-- Every invocation comes to its end, with the counter as it was. -/
theorem invokes (names : NameTable) (max depth : Nat) : Invokes names max depth := by
  -- The induction is on how many levels are left.
  generalize hlevels : max - depth = levels
  induction levels generalizing depth with
  | zero =>
    intro callable home? args pos s hs
    rw [hlevels, invokeAt_zero]
    exact .head (step_invoke_of_le (by omega) callable home? args pos) .refl
  | succ levels ih =>
    intro callable home? args pos s hs
    have hlevels' : max - (depth + 1) = levels := by omega
    have hnext : Invokes names max (depth + 1) := ih (depth + 1) hlevels'
    let above : State := { s with depth := s.depth + 1 }
    have habove : above.depth = depth + 1 := congrArg (· + 1) hs
    have hstep : step names max (s.next (.invoke callable home? args pos)) =
        some ((above.hold .leave).next (body names callable home? args)) := by
      have hlimit : ¬max ≤ (s.next (.invoke callable home? args pos)).depth := by
        rw [State.next, hs]
        omega
      have hstep : step names max (s.next (.invoke callable home? args pos)) =
          some (stepInvoke names max (s.next (.invoke callable home? args pos)) callable home? args pos) := rfl
      rw [hstep, stepInvoke, if_neg hlimit]
      rfl
    have hbody : Reaches names max ((above.hold .leave).next (body names callable home? args))
        ((above.hold .leave).next (.done (invokeAt names (levels + 1) callable home? args pos))) := by
      cases callable with
      | intrinsic i params => cases home? <;> exact .refl
      | defined f =>
        cases home? with
        | none => exact .refl
        | some home =>
          have hexpr := expr_finishes hnext (.ofArguments (Callable.defined f).params args :: home) f.body
            (above.hold .leave) habove
          rwa [hlevels'] at hexpr
    rw [hlevels]
    exact .head hstep (hbody.resumed .refl)

end ToneScript.Machine
