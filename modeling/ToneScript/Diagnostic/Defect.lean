/-! Defects: misuse of the front end itself, never a problem of a source text. -/
namespace ToneScript

/-- A broken rule of the front end. -/
inductive Defect where
  /-- More blocks were left than entered. -/
  | leftOutermost
  /-- A definition was added after the source was lexed. -/
  | lateDefinition (what : String)
  /-- A function was to be checked that had not been collected: one defined inside a guard. -/
  | uncollected
deriving DecidableEq, Repr, Inhabited

/-- Message of a defect. -/
def Defect.message : Defect → String
  | leftOutermost => "attempted to leave the outermost scope"
  | lateDefinition what => what ++ " must be called before lexing"
  | uncollected => "attempted to check a function that was not collected"

end ToneScript
