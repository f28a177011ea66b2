import ToneScript.Proofs.Json.Spelling

/-! The lines of JSON that issues are written as. -/
namespace ToneScript.Issue

open Json

/-- What the line of an issue says. Line and column are null for an issue without a place. -/
def toValue (i : Issue) (source : Source) : Json.Value :=
  .object [("severity", .string i.severity.name), ("message", .string i.message), ("file", .string source.name),
    ("line", i.pos?.elim .null fun p => .number p.line.toNat),
    ("column", i.pos?.elim .null fun p => .number p.column.toNat),
    ("notes", .array (i.notes.map .string))]

/-- The notes of an issue, each with its text. -/
def noteParts (i : Issue) : List (Json.Value × List Char) :=
  i.notes.map fun n => (.string n, (quote n).toList)

/-- The members of an issue, each with its text. -/
def memberParts (i : Issue) (source : Source) : List ((String × Json.Value) × List Char) :=
  [(("severity", .string i.severity.name), memberText "severity" (quote i.severity.name).toList),
    (("message", .string i.message), memberText "message" (quote i.message).toList),
    (("file", .string source.name), memberText "file" (quote source.name).toList),
    (("line", i.pos?.elim .null fun p => .number p.line.toNat),
      memberText "line" (i.pos?.elim "null" fun p => toString p.line).toList),
    (("column", i.pos?.elim .null fun p => .number p.column.toNat),
      memberText "column" (i.pos?.elim "null" fun p => toString p.column).toList),
    (("notes", .array (i.notes.map .string)), memberText "notes" ('[' :: (joined i.noteParts ++ [']'])))]

/-- The line of an issue without its line break. -/
def line (i : Issue) (source : Source) : List Char :=
  '\x7b' :: (joined (i.memberParts source) ++ ['\x7d'])

theorem toList_toJson (i : Issue) (source : Source) : (i.toJson source).toList = i.line source ++ ['\n'] := by
  have hnotes : (",".intercalate (i.notes.map quote)).toList = joined i.noteParts := by
    simp [joined, noteParts, String.toList_intercalate, Function.comp_def]
  unfold toJson
  simp [hnotes, line, memberParts, joined_cons_cons, memberText]

theorem spells_notes (i : Issue) : Spells (.array (i.notes.map .string)) ('[' :: (joined i.noteParts ++ [']'])) := by
  have hnotes : ∀ p ∈ i.noteParts, Spells p.1 p.2 := by
    intro p hp
    obtain ⟨n, -, rfl⟩ := List.mem_map.1 hp
    exact spells_quote n
  have hspells := spells_array hnotes
  rwa [noteParts, List.map_map] at hspells

theorem spells_place (pos? : Option Position) (f : Position → UInt32) :
    Spells (pos?.elim .null fun p => .number (f p).toNat) (pos?.elim "null" fun p => toString (f p)).toList := by
  cases pos? with
  | none => exact spells_null
  | some p => exact spells_natural (f p).toNat

theorem spells_line (i : Issue) (source : Source) : Spells (i.toValue source) (i.line source) := by
  have hparts : ∀ m ∈ i.memberParts source, IsMember m := by
    simp only [memberParts, List.forall_mem_cons]
    refine ⟨?severity, ?message, ?file, ?line, ?column, ?notes, nofun⟩
    case severity => exact (spells_quote i.severity.name).isMember (by decide)
    case message => exact (spells_quote i.message).isMember (by decide)
    case file => exact (spells_quote source.name).isMember (by decide)
    case line => exact (spells_place i.pos? Position.line).isMember (by decide)
    case column => exact (spells_place i.pos? Position.column).isMember (by decide)
    case notes => exact (spells_notes i).isMember (by decide)
  exact spells_object (List.cons_ne_nil _ _) hparts

/-- In JSON every issue is one line, in order, and the line read as JSON says all that there is to say of the issue. -/
theorem renderAll_decodes (issues : List Issue) (source : Source) (color : Bool) :
    ∃ lines : List (List Char),
      (renderAll issues source color .json).toList = lines.flatMap (· ++ ['\n']) ∧ (∀ line ∈ lines, '\n' ∉ line) ∧
        lines.map decode = issues.map fun i => some (i.toValue source) := by
  refine ⟨issues.map (·.line source), ?_, ?_, ?_⟩
  · rw [renderAll, String.toList_join, List.flatMap_map, List.flatMap_map]
    exact List.flatMap_congr fun i _ => toList_toJson i source
  · intro line hline hbreak
    obtain ⟨i, -, rfl⟩ := List.mem_map.1 hline
    have hprinted := (spells_line i source).printed '\n' hbreak
    exact absurd hprinted (by decide)
  · rw [List.map_map]
    exact List.map_congr_left fun i _ => (spells_line i source).decode

end ToneScript.Issue
