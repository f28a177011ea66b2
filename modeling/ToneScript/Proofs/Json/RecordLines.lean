import ToneScript.Log.Record
import ToneScript.Proofs.Json.Spelling

/-! The lines of JSON that log records are written as. -/
namespace ToneScript.Log.Record

open Json

/-- What the line of a record is to say. -/
def toValue (r : Record) : Json.Value :=
  .object [("ts", .number r.time), ("level", .string r.level.name), ("module", .string r.module),
    ("msg", .string r.message)]

/-- The members of a record, each with its text. -/
def memberParts (r : Record) : List ((String × Json.Value) × List Char) :=
  [(("ts", .number r.time), memberText "ts" (toString r.time).toList),
    (("level", .string r.level.name), memberText "level" (quoted r.level.name.toList)),
    (("module", .string r.module), memberText "module" (quoted r.module.toList)),
    (("msg", .string r.message), memberText "msg" (quoted (r.message.toList.flatMap escapeCharShort)))]

/-- The line of a record without its line break. -/
def line (r : Record) : List Char :=
  '\x7b' :: (joined r.memberParts ++ ['\x7d'])

theorem toList_toJson (r : Record) : r.toJson.toList = r.line ++ ['\n'] := by
  unfold toJson
  simp [line, memberParts, joined_cons_cons, memberText, quoted, escapeShort]

theorem isMember_ts (r : Record) : IsMember (("ts", .number r.time), memberText "ts" (toString r.time).toList) :=
  (spells_integer r.time).isMember (by decide)

theorem isMember_level (r : Record) :
    IsMember (("level", .string r.level.name), memberText "level" (quoted r.level.name.toList)) := by
  have hname : AllVerbatim r.level.name.toList := by cases r.level <;> decide
  exact (spells_verbatim hname).isMember (by decide)

theorem spells_line {r : Record} (hmodule : AllVerbatim r.module.toList) (hmessage : AllShortlyEscaped r.message.toList) :
    Spells r.toValue r.line := by
  have hparts : ∀ m ∈ r.memberParts, IsMember m := by
    simp only [memberParts, List.forall_mem_cons]
    refine ⟨r.isMember_ts, r.isMember_level, ?module, ?message, nofun⟩
    case module => exact (spells_verbatim hmodule).isMember (by decide)
    case message => exact (spells_escapeShort hmessage).isMember (by decide)
  exact spells_object (List.cons_ne_nil _ _) hparts

/-- The line from the module on. -/
def lineFromModule (r : Record) : List Char :=
  memberText "module" (quoted r.module.toList ++ ',' :: memberText "msg"
    (quoted (r.message.toList.flatMap escapeCharShort) ++ ['\x7d']))

theorem value?_line (r : Record) : value? r.line = (members? r.lineFromModule).map fun q =>
    (.object (("ts", .number r.time) :: ("level", .string r.level.name) :: q.1), q.2) := by
  have hline : r.line = '\x7b' :: (memberText "ts" (toString r.time).toList ++ ',' ::
      (memberText "level" (quoted r.level.name.toList) ++ ',' :: r.lineFromModule)) := by
    simp [line, memberParts, lineFromModule, joined_cons_cons, memberText]
  have hts := r.isMember_ts.members?_append
  have hlevel := r.isMember_level.members?_append
  simp only [memberText, List.cons_append] at hts hlevel
  simp only [hline, lineFromModule, memberText, List.cons_append]
  rw [value?_members, hts, hlevel, Option.map_map, Option.map_map]
  rfl

/-- Only a module that stands for itself is read back. -/
theorem allVerbatim_of_members? {r : Record} {ms : List (String × Json.Value)} {cs : List Char}
    (h : members? r.lineFromModule = some (ms, cs)) (hmodule : ms.lookup "module" = some (.string r.module)) :
    AllVerbatim r.module.toList := by
  rw [lineFromModule, members?_quoted (by decide)] at h
  obtain ⟨⟨m, cs'⟩, hread, hafter⟩ := Option.bind_eq_some_iff.1 h
  obtain ⟨ms', rfl⟩ := eq_cons_of_membersAfter? hafter
  rw [List.lookup_cons_self] at hmodule
  have hm : m = r.module.toList := by
    rw [← Value.string.inj (Option.some.inj hmodule), String.toList_ofList]
  exact allVerbatim_of_string? (hm ▸ hread)

theorem skipBlanks_line (r : Record) : skipBlanks r.line = r.line :=
  skipBlanks_cons (by decide) _

theorem allVerbatim_of_decode {r : Record} {v : Json.Value} (h : decode r.line = some v)
    (hmodule : v.member? "module" = some (.string r.module)) : AllVerbatim r.module.toList := by
  obtain ⟨cs, hvalue⟩ := value?_of_decode h
  rw [skipBlanks_line, value?_line] at hvalue
  obtain ⟨⟨ms, cs⟩, hmembers, hobject⟩ := Option.map_eq_some_iff.1 hvalue
  obtain ⟨rfl, rfl⟩ := Prod.mk.inj hobject
  exact allVerbatim_of_members? hmembers hmodule

/-- If the module stands for itself and short escapes are not enough for the message, the line is no JSON. -/
theorem decode_line_eq_none {r : Record} (hmodule : AllVerbatim r.module.toList)
    (hmessage : ¬AllShortlyEscaped r.message.toList) : decode r.line = none := by
  have hlast (rest : List Char) :
      members? (memberText "msg" (quoted (r.message.toList.flatMap escapeCharShort) ++ rest)) = none := by
    rw [members?_quoted (by decide), string?_escapeShort, if_neg hmessage]
    rfl
  have hmembers : members? r.lineFromModule = none := by
    rw [lineFromModule, members?_quoted (by decide), string?_append hmodule, Option.bind_some, membersAfter?_comma,
      memberText, skipBlanks_cons (by decide), ← memberText, hlast]
    rfl
  rw [decode, skipBlanks_line, value?_line, hmembers]
  rfl

/-- In JSON a record is one line, and the line read as JSON gives its time, level, module and message back, exactly if each
character of the module stands for itself in a string and short escapes are enough for the message. -/
theorem render_json_decodes_iff (r : Record) :
    (∃ line v, (r.render .json).toList = line ++ ['\n'] ∧ '\n' ∉ line ∧ decode line = some v ∧
      v.member? "ts" = some (.number r.time) ∧ v.member? "level" = some (.string r.level.name) ∧
      v.member? "module" = some (.string r.module) ∧ v.member? "msg" = some (.string r.message)) ↔
    AllVerbatim r.module.toList ∧ AllShortlyEscaped r.message.toList := by
  constructor
  · rintro ⟨line, v, hline, -, hdecode, -, -, hmodule, -⟩
    have hsame : line = r.line := (List.append_left_inj ['\n']).1 (hline.symm.trans r.toList_toJson)
    subst hsame
    have hverbatim := allVerbatim_of_decode hdecode hmodule
    refine ⟨hverbatim, ?_⟩
    by_contra hmessage
    rw [decode_line_eq_none hverbatim hmessage] at hdecode
    cases hdecode
  · rintro ⟨hmodule, hmessage⟩
    have hspells := spells_line hmodule hmessage
    have hbreak : '\n' ∉ r.line := fun h => absurd (hspells.printed '\n' h) (by decide)
    exact ⟨r.line, r.toValue, r.toList_toJson, hbreak, hspells.decode, rfl, rfl, rfl, rfl⟩

/-- A control character that has no short escape is written as it is, and then the line is no JSON. -/
theorem exists_render_json_undecodable :
    ∃ (r : Record) (line : List Char), (r.render .json).toList = line ++ ['\n'] ∧ decode line = none := by
  refine ⟨⟨⟨.info, "parser", "a\x01b"⟩, 0⟩, _, toList_toJson _, ?_⟩
  exact decode_line_eq_none (by decide) (by decide)

end ToneScript.Log.Record
