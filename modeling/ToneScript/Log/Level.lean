/-! Severity levels of log records. -/
namespace ToneScript.Log

/-- Severity of a log record, in ascending order. A threshold of `off` lets nothing through that is
not itself `off`. -/
inductive Level where
  | trace | debug | info | warn | error | fatal | off
deriving DecidableEq, Repr, Inhabited

namespace Level

/-- Place in the ascending order, from zero. -/
def rank : Level → Nat
  | trace => 0
  | debug => 1
  | info => 2
  | warn => 3
  | error => 4
  | fatal => 5
  | off => 6

/-- The level at a place of the order. -/
def ofRank? : Nat → Option Level
  | 0 => some trace
  | 1 => some debug
  | 2 => some info
  | 3 => some warn
  | 4 => some error
  | 5 => some fatal
  | 6 => some off
  | _ => none

instance : LE Level := ⟨fun a b => a.rank ≤ b.rank⟩
instance : LT Level := ⟨fun a b => a.rank < b.rank⟩
instance (a b : Level) : Decidable (a ≤ b) := inferInstanceAs (Decidable (a.rank ≤ b.rank))
instance (a b : Level) : Decidable (a < b) := inferInstanceAs (Decidable (a.rank < b.rank))

/-- Upper-case name. -/
def name : Level → String
  | trace => "TRACE"
  | debug => "DEBUG"
  | info => "INFO"
  | warn => "WARN"
  | error => "ERROR"
  | fatal => "FATAL"
  | off => "OFF"

/-- Reads a name written all in lower or all in upper case. Any other text means `info`. -/
def ofName (s : String) : Level :=
  if s = "trace" ∨ s = "TRACE" then trace
  else if s = "debug" ∨ s = "DEBUG" then debug
  else if s = "info" ∨ s = "INFO" then info
  else if s = "warn" ∨ s = "WARN" then warn
  else if s = "error" ∨ s = "ERROR" then error
  else if s = "fatal" ∨ s = "FATAL" then fatal
  else if s = "off" ∨ s = "OFF" then off
  else info

/-- The lower of two levels, the first when they agree. -/
def lower (a b : Level) : Level :=
  if b < a then b else a

@[simp] theorem ofRank?_rank (l : Level) : ofRank? l.rank = some l := by
  cases l <;> rfl

@[simp] theorem ofName_name (l : Level) : ofName l.name = l := by
  cases l <;> decide

end Level
end ToneScript.Log
