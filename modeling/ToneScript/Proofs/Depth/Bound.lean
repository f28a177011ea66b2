import ToneScript.Compilation.EntryPoint
import ToneScript.Proofs.Depth.Simulation

/-! The counter of calls. In every state that an evaluation comes to it is the number of functions that were entered and
not left, which the limit bounds; at its end an evaluation has left all of them. -/
namespace ToneScript.Machine

open Activation (context invokeAt)

variable {names : NameTable} {max : Nat} {s t u : State}

/-- States with the same counter and as many functions entered. -/
structure Level (s t : State) : Prop where
  depth : t.depth = s.depth
  active : t.active = s.active

/-- The counter tells how many functions were entered and not left, and is not above its limit. -/
structure Counted (max : Nat) (s : State) : Prop where
  depth_eq : s.depth = s.active
  le : s.depth ≤ max

theorem Level.counted (h : Level s t) (hs : Counted max s) : Counted max t :=
  ⟨by rw [h.depth, h.active, hs.depth_eq], by rw [h.depth]; exact hs.le⟩

namespace Level

theorem next (s : State) (control : Control) : Level s (s.next control) :=
  ⟨rfl, rfl⟩

theorem hold {w : Waiting} (hw : w.isLeave = false) (control : Control) : Level s ((s.hold w).next control) :=
  ⟨rfl, List.countP_cons_of_neg (by simp [hw])⟩

theorem orDone {α : Type} {x : Except EvalError α} {go : α → State} (h : ∀ a, Level s (go a)) :
    Level s (s.orDone x go) := by
  cases x with
  | ok a => exact h a
  | error e => exact next s _

theorem begin (names : NameTable) (s : State) (chain : Chain) (site : CallSite) :
    Level s (begin names s chain site) := by
  unfold Machine.begin
  split
  · exact next s _
  · split <;> exact next s _

theorem trans (h : Level s t) (h' : Level t u) : Level s u :=
  ⟨h'.depth.trans h.depth, h'.active.trans h.active⟩

theorem stepExpr (names : NameTable) (s : State) (chain : Chain) (e : Expr) : Level s (stepExpr names s chain e) := by
  cases e with
  | span | prefixed | binary | conditional | block => exact hold rfl _
  | number | boolean => exact next s _
  | call site => exact begin names s chain site
  | var name =>
    rw [Machine.stepExpr]
    split <;> exact next s _

theorem stepCells (names : NameTable) (s : State) (chain : Chain) (stack : List Value) (cells : List Cell) :
    Level s (stepCells names s chain stack cells) := by
  cases cells with
  | nil => exact next s _
  | cons cell rest =>
    cases cell with
    | value | left | right => exact next s _
    | slot | operator => exact orDone fun _ => next s _
    | call site => exact (hold rfl s.control).trans (begin names (s.hold (.cells chain stack rest)) chain site)

theorem stepEntries (s : State) (inner : Frame) (chain : Chain) (result : Value) (items : List BlockEntry) :
    Level s (stepEntries s inner chain result items) := by
  cases items with
  | nil => exact next s _
  | cons item items =>
    cases item with
    | closure => exact next s _
    | operator op value guard? => cases guard? <;> exact hold rfl _

theorem stepArguments (names : NameTable) (s : State) (call : Pending) : Level s (stepArguments names s call) := by
  unfold Machine.stepArguments
  split
  · exact orDone fun _ => next s _
  · refine orDone fun place => ?_
    exact (hold rfl s.control).trans (hold rfl _)

/-- Going on after something that waited keeps the counter, unless a function is left. -/
theorem resume (names : NameTable) (s : State) (outcome : Except EvalError Value) {w : Waiting}
    (hw : w.isLeave = false) : Level s (resume names s outcome w) := by
  cases w with
  | leave => cases hw
  | sequence | prefixed | operation | block => exact next s _
  | cells | argument | branches | entry => exact orDone fun _ => next s _
  | right => exact orDone fun _ => hold rfl _
  | guard =>
    refine orDone fun v => ?_
    split
    · exact hold rfl _
    · exact next s _

end Level

/-- A step keeps the counter right. -/
theorem Counted.step (hs : Counted max s) (h : step names max s = some t) : Counted max t := by
  obtain ⟨control, waiting, depth⟩ := s
  cases control with
  | expr chain e =>
    cases h
    exact (Level.stepExpr names _ chain e).counted hs
  | cells chain stack rest =>
    cases h
    exact (Level.stepCells names _ chain stack rest).counted hs
  | entries inner chain result items =>
    cases h
    exact (Level.stepEntries _ inner chain result items).counted hs
  | arguments call =>
    cases h
    exact (Level.stepArguments names _ call).counted hs
  | invoke callable home? args pos =>
    have hstep : stepInvoke names max ⟨.invoke callable home? args pos, waiting, depth⟩ callable home? args pos = t :=
      Option.some.inj h
    rw [← hstep, stepInvoke]
    split
    · exact (Level.next _ _).counted hs
    · rename_i hlimit
      refine ⟨?_, Nat.lt_of_not_le hlimit⟩
      have hone : (Waiting.leave :: waiting).countP Waiting.isLeave = waiting.countP Waiting.isLeave + 1 :=
        List.countP_cons_of_pos rfl
      rw [State.active, hone, hs.depth_eq]
      rfl
  | done outcome =>
    cases waiting with
    | nil => cases h
    | cons w waiting =>
      have hstep : resume names ⟨.done outcome, waiting, depth⟩ outcome w = t := Option.some.inj h
      rw [← hstep]
      cases hleave : w.isLeave with
      | false =>
        have hpop : Level ⟨.done outcome, w :: waiting, depth⟩ ⟨.done outcome, waiting, depth⟩ :=
          ⟨rfl, (List.countP_cons_of_neg (by simp [hleave])).symm⟩
        exact (hpop.trans (Level.resume names _ outcome hleave)).counted hs
      | true =>
        obtain rfl : w = .leave := by
          cases w <;> first | rfl | cases hleave
        have hone : (Waiting.leave :: waiting).countP Waiting.isLeave = waiting.countP Waiting.isLeave + 1 :=
          List.countP_cons_of_pos rfl
        have hdepth : depth = waiting.countP Waiting.isLeave + 1 := hs.depth_eq.trans hone
        have hle : depth ≤ max := hs.le
        refine ⟨?_, ?_⟩
        · show depth - 1 = waiting.countP Waiting.isLeave
          omega
        · show depth - 1 ≤ max
          omega

theorem Counted.reaches (hs : Counted max s) (h : Reaches names max s t) : Counted max t := by
  induction h with
  | refl => exact hs
  | tail _ hstep ih => exact ih.step hstep

/-- A state in which nothing is left to do. -/
theorem Reaches.eq_of_final (h : Reaches names max s t) (hs : Machine.step names max s = none) : s = t := by
  rcases Relation.ReflTransGen.cases_head h with heq | ⟨_, hstep, _⟩
  · exact heq
  · rw [hs] at hstep
    cases hstep

/-- From every state that an evaluation comes to, it comes to its end. -/
theorem Reaches.to_final (h : Reaches names max s t) (hu : Reaches names max s u)
    (hfinal : Machine.step names max u = none) : Reaches names max t u := by
  have hunique : Relator.RightUnique fun s t => Machine.step names max s = some t := by
    intro s t t' ht ht'
    exact Option.some.inj (ht.symm.trans ht')
  rcases Relation.ReflTransGen.total_of_right_unique hunique h hu with htu | hut
  · exact htu
  · rw [Reaches.eq_of_final hut hfinal]
    exact .refl

/-- Calls of an entry point one after the other, each of which starts with the counter that the one before it has left,
and their outcomes. -/
inductive Calls (e : EntryPoint) : Nat → List Number → List (Except EvalError Number) → Nat → Prop
  | nil (depth : Nat) : Calls e depth [] [] depth
  | cons {depth depth' depth'' : Nat} {time : Number} {times : List Number} {outcome : Except EvalError Value}
      {outcomes : List (Except EvalError Number)}
      (call : Reaches e.names defaultDepth ⟨.invoke e.callable (some [e.globals]) [.number time] .start, [], depth⟩
        ⟨.done outcome, [], depth'⟩)
      (rest : Calls e depth' times outcomes depth'') :
      Calls e depth (time :: times) (outcome.map Value.toNumber :: outcomes) depth''

theorem call_reaches (e : EntryPoint) (time : Number) :
    Reaches e.names defaultDepth ⟨.invoke e.callable (some [e.globals]) [.number time] .start, [], 0⟩
      ⟨.done (e.callValue time), [], 0⟩ :=
  invokes e.names defaultDepth 0 e.callable (some [e.globals]) [.number time] .start ⟨.done (.ok (.number 0)), [], 0⟩ rfl

/-- The calls of an entry point do not depend on each other. -/
theorem calls_iff (e : EntryPoint) (times : List Number) (outcomes : List (Except EvalError Number)) (depth : Nat) :
    Calls e 0 times outcomes depth ↔ outcomes = times.map e.call ∧ depth = 0 := by
  induction times generalizing outcomes with
  | nil =>
    constructor
    · intro h
      cases h
      exact ⟨rfl, rfl⟩
    · rintro ⟨rfl, rfl⟩
      exact .nil 0
  | cons time times ih =>
    have hcall := call_reaches e time
    constructor
    · intro h
      cases h with
      | cons call rest =>
        have hsame := (call.to_final hcall rfl).eq_of_final rfl
        cases hsame
        obtain ⟨rfl, hdepth⟩ := (ih _).1 rest
        exact ⟨rfl, hdepth⟩
    · rintro ⟨rfl, rfl⟩
      exact .cons hcall ((ih _).2 ⟨rfl, rfl⟩)

/-- Every evaluation comes to its end within the limit of the depth of calls. At any moment the counter is the number of
functions that were entered and not left, and is not above the limit. At the limit no function is entered; every
invocation comes to an outcome with what waits for it and the counter as they were before. So calls of an entry point
one after the other have the outcomes that each of them has alone. -/
theorem evaluation_bounded (names : NameTable) (max : Nat) (chain : Chain) (e : Expr) :
    let start : State := ⟨.expr chain e, [], 0⟩
    let final : State := ⟨.done (Activation.expr (context names max) chain e), [], 0⟩
    Reaches names max start final ∧ step names max final = none ∧
    (∀ s, Reaches names max start s → Reaches names max s final ∧ s.depth = s.active ∧ s.depth ≤ max ∧
      ∀ callable home? args pos, s.control = .invoke callable home? args pos →
        (s.depth = max → step names max s = some (s.next (.done (.error (.located pos .depthExceeded))))) ∧
        Reaches names max s (s.next (.done (invokeAt names (max - s.depth) callable home? args pos))) ∧
        ∀ t, Reaches names max s t → t.waiting = s.waiting → t.depth = s.depth) ∧
    (∀ pos, (EvalError.located pos .depthExceeded).message = "maximum call depth exceeded") ∧
    ∀ (entry : EntryPoint) times outcomes depth,
      Calls entry 0 times outcomes depth ↔ outcomes = times.map entry.call ∧ depth = 0 := by
  intro start final
  have hfinal : Reaches names max start final := expr_finishes (invokes names max 0) chain e start rfl
  have hstart : Counted max start := ⟨rfl, Nat.zero_le max⟩
  refine ⟨hfinal, rfl, fun s hs => ?_, fun _ => rfl, calls_iff⟩
  have hcounted := hstart.reaches hs
  refine ⟨hs.to_final hfinal rfl, hcounted.depth_eq, hcounted.le, ?_⟩
  intro callable home? args pos hcontrol
  have hsame : s.next (.invoke callable home? args pos) = s := by rw [← hcontrol]; rfl
  have hinvoke := invokes names max s.depth callable home? args pos s rfl
  have hrefused (hlimit : s.depth = max) : step names max (s.next (.invoke callable home? args pos)) =
      some (s.next (.done (.error (.located pos .depthExceeded)))) :=
    step_invoke_of_le (Nat.le_of_eq hlimit.symm) callable home? args pos
  rw [hsame] at hinvoke hrefused
  refine ⟨hrefused, hinvoke, fun t ht hwaiting => ?_⟩
  have hdepth := (hcounted.reaches ht).depth_eq
  rw [hdepth, hcounted.depth_eq, State.active, State.active, hwaiting]

end ToneScript.Machine
