import ToneScript.Activation.Evaluation
/-!
Sessions: a chain of frames that definitions are added to one by one, and a function that may be kept beyond
the frame it was found in.
-/
namespace ToneScript

/-- A function that is kept. -/
structure KeptFunction where
  callable : Callable
  /-- How many frames its chain has, while that is still there. -/
  height? : Option Nat
deriving Repr, Inhabited

/-- The state of a session. -/
structure Session where
  chain : Chain := [{}]
  kept? : Option KeptFunction := none
deriving Repr, Inhabited

namespace Session

/-- Changes the innermost frame. -/
def onTop (s : Session) (f : Frame → Frame) : Session :=
  { s with chain := f (s.chain.headD {}) :: s.chain.tail }

/-- Starts a frame inside the innermost one. -/
def nest (s : Session) : Session :=
  { s with chain := {} :: s.chain }

/-- Keeps a function. -/
def keep (s : Session) (callable : Callable) (home : Chain) : Session :=
  { s with kept? := some ⟨callable, some home.length⟩ }

/-- Starts over with an empty frame. A function that was kept loses its chain. -/
def renew (s : Session) : Session :=
  { kept? := s.kept?.map fun f => { f with height? := none } }

/-- Defines what an item defines, and gives the value of an assignment. A name whose value cannot be
evaluated is left alone. -/
def load (c : Activation.Context) (s : Session) : Item → Option (Except EvalError Value) × Session
  | .function f _ => (none, s.onTop (·.setFunction f.name (.defined f)))
  | .assignment name value _ =>
    match Activation.expr c s.chain value with
    | .ok v => (some (.ok v), s.onTop (·.setVariable name v))
    | .error e => (some (.error e), s)

/-- Invokes the function that is kept. -/
def invokeKept? (names : NameTable) (depth : Nat) (s : Session) (args : List Value) (pos : Position) :
    Option (Except EvalError Value) :=
  s.kept?.map fun f =>
    Activation.invokeAt names depth f.callable
      (f.height?.map fun n => s.chain.drop (s.chain.length - n)) args pos

end Session
end ToneScript
