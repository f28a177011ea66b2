import ToneScript.Log.Level
import ToneScript.Text.Fields
/-! Thresholds by module. -/
namespace ToneScript.Log

/-- A threshold for every module: its own where one is set, the default elsewhere. -/
structure Filter where
  fallback : Level := .info
  /-- Modules with thresholds of their own, each at most once. -/
  overrides : List (String × Level) := []
deriving DecidableEq, Repr, Inhabited

namespace Filter

/-- The threshold of a module. -/
def threshold (f : Filter) (module : String) : Level :=
  (f.overrides.lookup module).getD f.fallback

/-- Whether a record of this level and module passes. -/
def passes (f : Filter) (level : Level) (module : String) : Bool :=
  f.threshold module ≤ level

/-- Gives a module a threshold of its own, replacing an earlier one. -/
def override (f : Filter) (module : String) (level : Level) : Filter :=
  { f with overrides := (module, level) :: f.overrides.filter (·.1 != module) }

/-- Applies one item of a filter text: `module=level`, `*=level` for the default, or a bare module
name, which lets everything of that module through. -/
def applyItem (f : Filter) (item : List Char) : Filter :=
  match Text.cut? '=' item with
  | some (module, level) =>
    if module = ['*'] then { f with fallback := .ofName (String.ofList level) }
    else f.override (String.ofList module) (.ofName (String.ofList level))
  | none => if item = [] then f else f.override (String.ofList item) .trace

/-- Replaces all overrides by those of a comma-separated filter text. The default stays unless the
text sets it. -/
def parse (f : Filter) (spec : String) : Filter :=
  (Text.fields ',' spec.toList).foldl applyItem { f with overrides := [] }

/-- The lowest threshold of any module. -/
def minLevel (f : Filter) : Level :=
  f.overrides.foldl (fun least entry => least.lower entry.2) f.fallback

end Filter
end ToneScript.Log
