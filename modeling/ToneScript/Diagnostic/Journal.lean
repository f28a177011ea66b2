import ToneScript.Diagnostic.Issue
import ToneScript.Log.Record
/-! The journal of a compilation: issues and log remarks in the order of their arrival. -/
namespace ToneScript

/-- One entry of a journal. -/
inductive Journal.Entry where
  | issue (i : Issue)
  | remark (r : Log.Remark)
deriving DecidableEq, Repr

/-- Everything a compilation has to say, in order. -/
structure Journal where
  entries : Array Journal.Entry := #[]
deriving DecidableEq, Repr, Inhabited

namespace Journal

/-- Adds an issue. -/
def report (j : Journal) (i : Issue) : Journal :=
  ⟨j.entries.push (.issue i)⟩

/-- Adds a remark for the log. -/
def note (j : Journal) (level : Log.Level) (module message : String) : Journal :=
  ⟨j.entries.push (.remark ⟨level, module, message⟩)⟩

/-- The issue in an entry. -/
def Entry.issue? : Entry → Option Issue
  | issue i => some i
  | remark _ => none

/-- What an entry says in the log. Issues are logged for debugging. -/
def Entry.logRemark : Entry → Log.Remark
  | issue i => ⟨.debug, "diag", i.logLine⟩
  | remark r => r

/-- All issues in order. -/
def issues (j : Journal) : List Issue :=
  j.entries.toList.filterMap Entry.issue?

/-- All log remarks in order. -/
def remarks (j : Journal) : List Log.Remark :=
  j.entries.toList.map Entry.logRemark

/-- Number of issues of a severity. -/
def count (j : Journal) (s : Severity) : Nat :=
  j.issues.countP (·.severity == s)

/-- Number of errors. -/
def errorCount (j : Journal) : Nat :=
  j.count .error

/-- Number of warnings. -/
def warningCount (j : Journal) : Nat :=
  j.count .warning

/-- Whether there is an error. -/
def hasErrors (j : Journal) : Bool :=
  0 < j.errorCount

/-- Whether there is a warning. -/
def hasWarnings (j : Journal) : Bool :=
  0 < j.warningCount

@[simp] theorem issues_report (j : Journal) (i : Issue) :
    (j.report i).issues = j.issues ++ [i] := by
  simp [report, issues, Entry.issue?]

@[simp] theorem issues_note (j : Journal) (l : Log.Level) (m s : String) :
    (j.note l m s).issues = j.issues := by
  simp [note, issues, Entry.issue?]

end Journal
end ToneScript
