import Mathlib.Data.List.Nodup
import ToneScript.Proofs.Syntax.Weight
import ToneScript.Typing.TypeError

/-! Where a check can report an error, and with what word the text of the error begins there. A part of a program is
judged by what it stands in, too, but with other words than it reports errors with itself, and no two parts stand at the
same offset. Thus no place comes up twice. -/
namespace ToneScript

/-- The letters that a text begins with. -/
def firstWord (text : String) : String :=
  String.ofList (text.toList.takeWhile Char.isAlpha)

/-- Whether a text begins with a word and goes on after it. -/
def Begins (word text : String) : Prop :=
  firstWord text = word ∧ word.length < text.length
deriving Decidable

theorem Begins.append {word text : String} (h : Begins word text) (rest : String) : Begins word (text ++ rest) := by
  obtain ⟨hword, hlt⟩ := h
  have hlength : (text.toList.takeWhile Char.isAlpha).length < text.toList.length := by
    rw [← hword, firstWord, String.length_ofList] at hlt
    rwa [String.length_toList]
  constructor
  · rw [firstWord, String.toList_append, List.takeWhile_append, if_neg (Nat.ne_of_lt hlength)]
    exact hword
  · rw [String.length_append]
    omega

/-- The word that the text of a role begins with. -/
def Role.word : Role → String
  | leftOperand _ => "left"
  | rightOperand _ => "right"
  | operand _ => "operand"
  | blockEntry => "block"
  | guard => "guard"
  | condition => "condition"
  | argument .. | namedArgument .. => "argument"
  | shorthand _ => "variable"

theorem Role.begins_text (names : NameTable) (role : Role) : Begins role.word (role.text names ++ " must be ") := by
  cases role with
  | leftOperand op => exact ((by decide +kernel : Begins "left" "left operand of ").append _).append _
  | rightOperand op => exact ((by decide +kernel : Begins "right" "right operand of ").append _).append _
  | operand op => exact ((by decide +kernel : Begins "operand" "operand of ").append _).append _
  | blockEntry => exact (by decide +kernel : Begins "block" ("block entry" ++ " must be "))
  | guard => exact (by decide +kernel : Begins "guard" ("guard" ++ " must be "))
  | condition => exact (by decide +kernel : Begins "condition" ("condition" ++ " must be "))
  | argument | namedArgument =>
    exact ((((by decide +kernel : Begins "argument" "argument ").append _).append _).append _).append _
  | shorthand name => exact ((by decide +kernel : Begins "variable" "variable ").append _).append _

namespace TypeError

/-- The word that the message of an error begins with, if it is not a name. -/
def word : TypeError → String
  | undefinedVariable _ => "variable"
  | undefinedFunction _ | functionAsValue _ | noSuchArgument .. => "function"
  | mismatch role _ _ => role.word
  | operandsDiffer .. => "operands"
  | branchesDiffer .. => "branches"
  | cannotAccumulate _ | cannotUpdate _ => "operator"
  | notAFunction _ => ""
  | tooManyArguments .. => "too"
  | missingArgument .. => "missing"
  | argumentTwice .. | noDefault .. => "argument"
  | undetermined _ => "cannot"
  | entryUndefined .. | entryNotFunction _ | entryArity .. | entryReturns .. => "entry"

theorem begins_message (names : NameTable) (e : TypeError) : Begins e.word (e.message names) := by
  have hfunction : Begins "function" "function " := by decide +kernel
  have hargument : Begins "argument" "argument " := by decide +kernel
  have hoperator : Begins "operator" "operator " := by decide +kernel
  have hentry : Begins "entry" "entry point " := by decide +kernel
  cases e with
  | undefinedVariable => exact ((by decide +kernel : Begins "variable" "variable ").append _).append _
  | undefinedFunction | functionAsValue => exact (hfunction.append _).append _
  | mismatch role => exact (((role.begins_text names).append _).append _).append _
  | operandsDiffer =>
    exact (((((by decide +kernel : Begins "operands" "operands of ").append _).append _).append _).append _).append _
  | branchesDiffer =>
    exact (((by decide +kernel :
      Begins "branches" "branches of conditional have different types: ").append _).append _).append _
  | cannotAccumulate | cannotUpdate => exact (hoperator.append _).append _
  | notAFunction => exact (((by decide +kernel : Begins "" "`").append _).append _).append _
  | tooManyArguments =>
    exact (((((by decide +kernel :
      Begins "too" "too many arguments in call to ").append _).append _).append _).append _).append _
  | missingArgument =>
    exact (((by decide +kernel : Begins "missing" "missing argument ").append _).append _).append _
  | noSuchArgument => exact ((hfunction.append _).append _).append _
  | argumentTwice => exact ((hargument.append _).append _).append _
  | noDefault => exact (((((hargument.append _).append _).append _).append _).append _).append _
  | undetermined => exact (by decide +kernel : Begins "cannot" "cannot determine the type of ").append _
  | entryUndefined | entryNotFunction => exact (hentry.append _).append _
  | entryArity | entryReturns => exact ((((hentry.append _).append _).append _).append _).append _

theorem message_ne {names : NameTable} {e e' : TypeError} (h : e.word ≠ e'.word) :
    e.message names ≠ e'.message names := by
  intro heq
  have hword := (e.begins_message names).1
  rw [heq, (e'.begins_message names).1] at hword
  exact h hword.symm

/-- Two errors about one argument that begin alike go on differently. -/
theorem message_argumentTwice_ne (names : NameTable) (callee argument : Ident) (op : Operator) :
    (argumentTwice callee argument).message names ≠ (noDefault callee argument op).message names := by
  intro heq
  have hwhole : "argument " ++ names.quoted argument ++ " given twice in call to " ++ names.quoted callee =
      "argument " ++ names.quoted argument ++ " of " ++ names.quoted callee ++ " has no default to apply "
        ++ op.quoted ++ "= to" := heq
  simp only [String.append_assoc, String.append_right_inj] at hwhole
  have hletter := congrArg (fun text => text.toList[1]?) hwhole
  simp [String.toList_append] at hletter

/-- Missing arguments are told apart by their names. -/
theorem name_eq_of_message_missingArgument {names : NameTable} {callee p q : Ident}
    (h : (missingArgument callee p).message names = (missingArgument callee q).message names) :
    names.name p = names.name q := by
  have hwhole : "missing argument " ++ ("`" ++ names.name p ++ "`") ++ " in call to " ++ names.quoted callee =
      "missing argument " ++ ("`" ++ names.name q ++ "`") ++ " in call to " ++ names.quoted callee := h
  simpa only [String.append_assoc, String.append_right_inj, String.append_left_inj] using hwhole

end TypeError

/-- An offset, and a word that the message of an error there begins with. -/
abbrev Place := UInt64 × String

/-- The place of an issue. -/
def Issue.place? (i : Issue) : Option Place :=
  i.pos?.map fun pos => (pos.index, firstWord i.message)

theorem TypeError.place?_toIssue (names : NameTable) (e : TypeError) (pos : Position) :
    (e.toIssue names (some pos)).place? = some (pos.index, e.word) :=
  congrArg (fun word => some (pos.index, word)) (e.begins_message names).1

/-- Several words at the offset of a position. -/
def Position.places (pos : Position) (words : List String) : List Place :=
  words.map fun word => (pos.index, word)

mutual

/-- Where errors can be reported in an expression, by the expression itself and its parts. -/
def Expr.places : Expr → List Place
  | .span _ tree => tree.places
  | .number .. | .boolean .. => []
  | .var _ pos => pos.places ["variable", "function"]
  | .prefixed _ operand _ => operand.places ++ operand.pos.places ["operand"]
  | .binary _ left right pos =>
    left.places ++ (right.places ++
      (left.pos.places ["left"] ++ (right.pos.places ["right"] ++ pos.places ["operands"])))
  | .block _ items _ => BlockEntry.placesOfAll items
  | .conditional c t e _ =>
    c.places ++ (c.pos.places ["condition"] ++ (t.places ++ (e.places ++ e.pos.places ["branches"])))
  | .call site args =>
    site.pos.places ["function", ""] ++
      (site.pos.places ["too"] ++ (Argument.placesOfAll args ++ site.pos.places ["missing"]))

/-- Where errors can be reported in an entry of a block. -/
def BlockEntry.places : BlockEntry → List Place
  | .operator _ value guard pos =>
    pos.places ["operator"] ++ (value.places ++ (value.pos.places ["block"] ++ Expr.placesOfOption guard))
  | .closure f _ => f.places

/-- Where errors can be reported in the entries of a block. -/
def BlockEntry.placesOfAll : List BlockEntry → List Place
  | [] => []
  | item :: items => item.places ++ BlockEntry.placesOfAll items

/-- Where errors can be reported in a guard, if there is one. -/
def Expr.placesOfOption : Option Expr → List Place
  | none => []
  | some guard => guard.places ++ guard.pos.places ["guard"]

/-- Where errors can be reported in a function: in its body and at its name. -/
def FunctionDef.places : FunctionDef → List Place
  | ⟨_, pos, _, _, _, body⟩ => body.places ++ pos.places ["cannot"]

/-- Where errors can be reported in an argument. -/
def Argument.places : Argument → List Place
  | .shorthand _ pos => pos.places ["function", "argument", "variable", "operator"]
  | .assign _ value pos | .opAssign _ _ value pos =>
    value.places ++ (value.pos.places ["argument"] ++ pos.places ["function", "argument", "variable", "operator"])
  | .positional value _ => value.places ++ value.pos.places ["argument"]

/-- Where errors can be reported in arguments. -/
def Argument.placesOfAll : List Argument → List Place
  | [] => []
  | arg :: args => arg.places ++ Argument.placesOfAll args

end

/-- Where errors can be reported in an item. -/
def Item.places : Item → List Place
  | .function f _ => f.places
  | .assignment _ value _ => value.places

/-- Where errors can be reported in a program. -/
def Program.places (program : Program) : List Place :=
  program.flatMap Item.places

theorem FunctionDef.places_eq (f : FunctionDef) : f.places = f.body.places ++ f.pos.places ["cannot"] := by
  cases f
  rw [FunctionDef.places]

/-- The words with which an expression is judged by what it stands in. -/
def judgements : List String :=
  ["left", "right", "operand", "block", "guard", "condition", "argument", "branches"]

section

variable (pos : Position) (place : Place)

theorem Position.count_places {words : List String} (h : words.Nodup) :
    (pos.places words).count place ≤ pos.countAt place.1 := by
  have hinjective : Function.Injective fun word : String => (pos.index, word) := fun _ _ heq => (Prod.mk.inj heq).2
  have hnodup : (pos.places words).Nodup := h.map hinjective
  rw [Position.countAt]
  split
  · exact List.nodup_iff_count_le_one.1 hnodup place
  · rename_i hne
    refine Nat.le_of_eq (List.count_eq_zero.2 fun hmem => ?_)
    obtain ⟨word, _, rfl⟩ := List.mem_map.1 hmem
    exact hne rfl

/-- What is judged with one word is judged at most as often as with all of them. -/
theorem Position.count_judgement {word : String} (h : word ∈ judgements) :
    (pos.places [word]).count place ≤ (pos.places judgements).count place :=
  ((List.singleton_sublist.2 h).map _).count_le _

/-- What a part reports itself comes with other words than what it is judged with. -/
theorem Position.count_own {words : List String} (h : (words ++ judgements).Nodup) :
    (pos.places words).count place + (pos.places judgements).count place ≤ pos.countAt place.1 := by
  rw [← List.count_append]
  unfold Position.places
  rw [← List.map_append]
  exact pos.count_places place h

end

theorem Argument.count_placesOfAll (args : List Argument) (place : Place) :
    (Argument.placesOfAll args).count place = (args.map fun arg => arg.places.count place).sum := by
  induction args with
  | nil => rfl
  | cons arg args ih => rw [Argument.placesOfAll, List.count_append, ih, List.map_cons, List.sum_cons]

/-- How often a place comes up in a part of a program. An expression is judged as well. -/
def Place.weight (place : Place) : Weight place.1 where
  expr _ e := e.places.count place + (e.pos.places judgements).count place
  argument _ arg := arg.places.count place
  entries _ items := (BlockEntry.placesOfAll items).count place
  function f := f.places.count place
  ofValue _ v pos := by
    have hself := pos.count_places place (by decide : judgements.Nodup)
    cases v <;> exact (Nat.zero_add _).symm ▸ hself
  var _ _ pos := pos.count_own place (by decide)
  prefixed _ op operand pos := by
    have hself := pos.count_places place (by decide : judgements.Nodup)
    have hoperand := operand.pos.count_judgement place (by decide : "operand" ∈ judgements)
    simp only [Expr.places, Expr.pos, List.count_append]
    omega
  binary _ op left right pos := by
    have hself := pos.count_own place (by decide : (["operands"] ++ judgements).Nodup)
    have hleft := left.pos.count_judgement place (by decide : "left" ∈ judgements)
    have hright := right.pos.count_judgement place (by decide : "right" ∈ judgements)
    simp only [Expr.places, Expr.pos, List.count_append]
    omega
  span _ _ _ := Nat.le_refl _
  call _ site args := by
    have hself := site.pos.count_own place
      (by decide : ((["function", ""] ++ ["too"]) ++ ["missing"] ++ judgements).Nodup)
    have hwords : (site.pos.places ((["function", ""] ++ ["too"]) ++ ["missing"])).count place =
        (site.pos.places ["function", ""]).count place + (site.pos.places ["too"]).count place +
          (site.pos.places ["missing"]).count place := by
      simp only [Position.places, List.map_append, List.count_append]
    rw [hwords] at hself
    simp only [Expr.places, Expr.pos, List.count_append, Argument.count_placesOfAll]
    omega
  conditional _ c t e pos := by
    have hself := pos.count_places place (by decide : judgements.Nodup)
    have hcondition := c.pos.count_judgement place (by decide : "condition" ∈ judgements)
    have helse := e.pos.count_judgement place (by decide : "branches" ∈ judgements)
    simp only [Expr.places, Expr.pos, List.count_append]
    omega
  block _ _ items pos := Nat.add_le_add_left (pos.count_places place (by decide : judgements.Nodup)) _
  shorthand _ _ pos := pos.count_places place (by decide)
  assign _ _ value pos := by
    have hself := pos.count_places place (by decide : ["function", "argument", "variable", "operator"].Nodup)
    have hvalue := value.pos.count_judgement place (by decide : "argument" ∈ judgements)
    simp only [Argument.places, List.count_append]
    omega
  opAssign _ _ _ value pos := by
    have hself := pos.count_places place (by decide : ["function", "argument", "variable", "operator"].Nodup)
    have hvalue := value.pos.count_judgement place (by decide : "argument" ∈ judgements)
    simp only [Argument.places, List.count_append]
    omega
  positional _ value _ := by
    have hvalue := value.pos.count_judgement place (by decide : "argument" ∈ judgements)
    simp only [Argument.places, List.count_append]
    omega
  nil _ := rfl
  operator _ _ value pos items := by
    have hself := pos.count_places place (by decide : ["operator"].Nodup)
    have hvalue := value.pos.count_judgement place (by decide : "block" ∈ judgements)
    simp only [BlockEntry.placesOfAll, BlockEntry.places, Expr.placesOfOption, List.count_append, List.count_nil]
    omega
  guarded _ _ value guard pos items := by
    have hself := pos.count_places place (by decide : ["operator"].Nodup)
    have hvalue := value.pos.count_judgement place (by decide : "block" ∈ judgements)
    have hguard := guard.pos.count_judgement place (by decide : "guard" ∈ judgements)
    simp only [BlockEntry.placesOfAll, BlockEntry.places, Expr.placesOfOption, List.count_append]
    omega
  closure _ f pos items := by
    simp only [BlockEntry.placesOfAll, BlockEntry.places, List.count_append]
    omega
  body f := by
    have hself := f.pos.count_places place (by decide : ["cannot"].Nodup)
    rw [FunctionDef.places_eq, List.count_append]
    omega

/-- No place comes up twice in a program whose tokens stand in order. -/
theorem Item.AllDerived.nodup_places {l : Leniency} {lo hi : Nat} {ts : List Token} {program : Program}
    (h : Item.AllDerived l ts program) (hordered : Token.Ordered lo hi ts) : program.places.Nodup := by
  refine List.nodup_iff_count_le_one.2 fun place => ?_
  have hcount : program.places.count place ≤ (program.map place.weight.item).sum := by
    clear h
    induction program with
    | nil => exact Nat.le_refl _
    | cons item program ih =>
      have hitem : item.places.count place ≤ place.weight.item item := by
        cases item with
        | function f pos => exact Nat.le_refl _
        | assignment name value pos => exact Nat.le_add_right _ _
      rw [Program.places, List.flatMap_cons, List.count_append, List.map_cons, List.sum_cons]
      exact Nat.add_le_add hitem ih
  exact hcount.trans ((Weight.program_le h).trans (hordered.countAt_le place.1).1)

end ToneScript
