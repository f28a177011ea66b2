import ToneScript.Activation.Intrinsic
import ToneScript.Syntax.Tree
/-!
Frames of a run. A frame holds the variables and functions of one level of nesting, and a chain of frames,
innermost first, is what an expression sees.

A function always belongs to the frame in which it is found, so its body sees the rest of the chain from
there on.
-/
namespace ToneScript

/-- Something that can be called. -/
inductive Callable where
  | intrinsic (i : Intrinsic) (params : List Ident)
  | defined (f : FunctionDef)
deriving Repr

instance : Inhabited Callable := ⟨.intrinsic .sin []⟩

namespace Callable

/-- The names and defaults of the parameters. -/
def params : Callable → List (Ident × Option Number)
  | intrinsic _ params => params.map fun name => (name, none)
  | defined f => f.params.map fun p => (p.name, p.default?)

end Callable

/-- Variables and functions of one level of nesting. -/
structure Frame where
  values : List (Ident × Value) := []
  functions : List (Ident × Callable) := []
deriving Repr, Inhabited

namespace Frame

/-- Gives a variable a value. -/
def setVariable (f : Frame) (name : Ident) (v : Value) : Frame :=
  { f with values := (name, v) :: f.values }

/-- Defines a function. -/
def setFunction (f : Frame) (name : Ident) (callable : Callable) : Frame :=
  { f with functions := (name, callable) :: f.functions }

/-- A frame in which parameters have their values. -/
def ofArguments (params : List (Ident × Option Number)) (args : List Value) : Frame :=
  { values := (params.map Prod.fst).zip args }

end Frame

/-- A chain of frames, innermost first. -/
abbrev Chain := List Frame

namespace Chain

/-- The value of a variable in the innermost frame that has it. -/
def lookup : Chain → Ident → Option Value
  | [], _ => none
  | frame :: chain, name => (frame.values.lookup name).or (Chain.lookup chain name)

/-- The function of a name in the innermost frame that has one, and the chain from that frame on. -/
def findFunction? : Chain → Ident → Option (Callable × Chain)
  | [], _ => none
  | frame :: chain, name =>
    match frame.functions.lookup name with
    | some callable => some (callable, frame :: chain)
    | none => Chain.findFunction? chain name

end Chain
end ToneScript
