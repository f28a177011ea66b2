import Mathlib.Data.List.Induction
import ToneScript.Postfix.Conversion

/-! Parentheses of an arbitrary sequence of cells. Conversion to operand-first order follows the parentheses that are
open: it fails at a right one if there are none, and in the end if there still are some. -/
namespace ToneScript

/-- The position of a left parenthesis. -/
def Cell.left? : Cell → Option Position
  | left pos => some pos
  | value .. | slot .. | call _ | operator .. | right _ => none

namespace Postfix

/-- Cells whose parentheses match. -/
inductive Balanced : List Cell → Prop
  | nil : Balanced []
  | cell {cell : Cell} {rest : List Cell} (hcell : cell.isParen = false) (hrest : Balanced rest) : Balanced (cell :: rest)
  | group (pos pos' : Position) {inside rest : List Cell} (hinside : Balanced inside) (hrest : Balanced rest) :
    Balanced (.left pos :: inside ++ .right pos' :: rest)

/-- A right parenthesis behind these cells has one to close: the last that is still open. -/
def Opening (before : List Cell) : Prop :=
  ∃ rest pos inside, before = rest ++ .left pos :: inside ∧ Balanced inside

/-- A left parenthesis in front of these cells is closed among them. -/
def Closing (after : List Cell) : Prop :=
  ∃ inside pos rest, after = inside ++ .right pos :: rest ∧ Balanced inside

/-- Cells in which every right parenthesis closes one. -/
def AllOpened (cells : List Cell) : Prop :=
  ∀ before pos after, cells = before ++ .right pos :: after → Opening before

/-- Cells in which every left parenthesis is closed. -/
def AllClosed (cells : List Cell) : Prop :=
  ∀ before pos after, cells = before ++ .left pos :: after → Closing after

/-- What one cell does to the positions of the open parentheses, the last opened first. -/
def track (opened : List Position) : Cell → Except SyntaxError (List Position)
  | .left pos => .ok (pos :: opened)
  | .right pos =>
    match opened with
    | [] => .error (.located pos .closedTooOften)
    | _ :: opened => .ok opened
  | .value .. | .slot .. | .call _ | .operator .. => .ok opened

/-- The parentheses that are open behind some cells, unless one is closed that was never opened. -/
def trackAll (opened : List Position) (cells : List Cell) : Except SyntaxError (List Position) :=
  cells.foldlM track opened

/-- What is wrong with parentheses that are open in the end. -/
def settle : List Position → Except SyntaxError Unit
  | [] => .ok ()
  | pos :: _ => .error (.located pos .neverClosed)

/-! ### What is moved from the stack -/

/-- What gives way to an operator is a part of the stack that holds operators only. -/
theorem popYielding_split (incoming : Operator) (output stack : List Cell) :
    ∃ popped, stack = popped ++ (popYielding incoming output stack).2 ∧
      (popYielding incoming output stack).1 = popped.reverse ++ output ∧
      ∀ cell ∈ popped, ∃ op pos, cell = .operator op pos := by
  induction stack generalizing output with
  | nil => exact ⟨[], rfl, rfl, by simp⟩
  | cons cell stack ih =>
    cases cell with
    | operator op pos =>
      unfold popYielding
      by_cases hyields : yields incoming op
      · rw [if_pos hyields]
        obtain ⟨popped, hstack, houtput, hoperators⟩ := ih (.operator op pos :: output)
        refine ⟨.operator op pos :: popped, congrArg _ hstack, by simp [houtput], ?_⟩
        intro cell hcell
        rcases List.mem_cons.mp hcell with rfl | hcell
        · exact ⟨op, pos, rfl⟩
        · exact hoperators cell hcell
      · rw [if_neg hyields]
        exact ⟨[], rfl, rfl, by simp⟩
    | value v pos | slot id pos | call site | left pos | right pos => exact ⟨[], rfl, rfl, by simp⟩

theorem popToLeft?_eq_none_iff (output stack : List Cell) :
    popToLeft? output stack = none ↔ stack.filterMap Cell.left? = [] := by
  induction stack generalizing output with
  | nil => simp [popToLeft?]
  | cons cell stack ih =>
    cases cell with
    | left pos => simp [popToLeft?, Cell.left?]
    | value v pos | slot id pos | call site | operator op pos | right pos => exact ih (_ :: output)

/-- What a right parenthesis moves is the part of the stack above the last left one. -/
theorem popToLeft?_split {output stack output' stack' : List Cell}
    (h : popToLeft? output stack = some (output', stack')) :
    ∃ popped pos, stack = popped ++ .left pos :: stack' ∧ output' = popped.reverse ++ output ∧
      popped.filterMap Cell.left? = [] := by
  induction stack generalizing output with
  | nil => cases h
  | cons cell stack ih =>
    cases cell with
    | left pos =>
      cases h
      exact ⟨[], pos, rfl, rfl, rfl⟩
    | value v pos | slot id pos | call site | operator op pos | right pos =>
      obtain ⟨popped, pos', hstack, houtput, hlefts⟩ := ih h
      exact ⟨_ :: popped, pos', congrArg _ hstack, by simp [houtput], hlefts⟩

theorem popAll_eq (output stack : List Cell) :
    popAll output stack = (settle (stack.filterMap Cell.left?)).map fun _ => output.reverse ++ stack := by
  induction stack generalizing output with
  | nil => simp [popAll, settle, Except.map]
  | cons cell stack ih =>
    cases cell with
    | left pos => rfl
    | value v pos | slot id pos | call site | operator op pos | right pos =>
      refine (ih _).trans ?_
      rw [List.reverse_cons, List.append_assoc]
      rfl

/-- Whether conversion succeeds, and else its error, depends on nothing but the parentheses that are open. -/
theorem convertFrom_discard (output stack cells : List Cell) :
    (convertFrom output stack cells).map (fun _ => ()) =
      (do settle (← trackAll (stack.filterMap Cell.left?) cells)) := by
  induction cells generalizing output stack with
  | nil =>
    unfold convertFrom
    rw [popAll_eq]
    show _ = settle (stack.filterMap Cell.left?)
    cases settle (stack.filterMap Cell.left?) <;> rfl
  | cons cell rest ih =>
    cases cell with
    | value v pos | slot id pos | call site => exact ih (_ :: output) stack
    | left pos => exact ih output (.left pos :: stack)
    | operator op pos =>
      unfold convertFrom
      by_cases hunary : op.isPrefix
      · simp only [hunary, if_true]
        exact ih output (.operator op pos :: stack)
      · simp only [hunary]
        obtain ⟨popped, hstack, -, hoperators⟩ := popYielding_split op output stack
        have hpopped : popped.filterMap Cell.left? = [] := by
          rw [List.filterMap_eq_nil_iff]
          intro cell hcell
          obtain ⟨op', pos', rfl⟩ := hoperators cell hcell
          rfl
        have hlefts := congrArg (List.filterMap Cell.left?) hstack
        rw [List.filterMap_append, hpopped, List.nil_append] at hlefts
        rw [hlefts]
        exact ih _ (.operator op pos :: (popYielding op output stack).2)
    | right pos =>
      unfold convertFrom
      cases hpop : popToLeft? output stack with
      | none =>
        rw [(popToLeft?_eq_none_iff output stack).mp hpop]
        rfl
      | some popped =>
        obtain ⟨output', stack'⟩ := popped
        obtain ⟨popped, pos', hstack, -, hpopped⟩ := popToLeft?_split hpop
        have hlefts : stack.filterMap Cell.left? = pos' :: stack'.filterMap Cell.left? := by
          rw [hstack, List.filterMap_append, hpopped]
          rfl
        rw [hlefts]
        exact ih output' stack'

/-! ### What is open behind some cells -/

/-- Cells that leave some parentheses open, the last opened first. -/
inductive Leaves : List Cell → List Position → Prop
  | none {cells : List Cell} (hcells : Balanced cells) : Leaves cells []
  | opening (pos : Position) {before inside : List Cell} {opened : List Position} (hbefore : Leaves before opened)
    (hinside : Balanced inside) : Leaves (before ++ .left pos :: inside) (pos :: opened)

section Tracking

variable {cells before after : List Cell} {opened opened' : List Position}

theorem Balanced.append (hbefore : Balanced before) (hafter : Balanced after) : Balanced (before ++ after) := by
  induction hbefore with
  | nil => exact hafter
  | cell hcell _ ih => exact .cell hcell ih
  | group pos pos' hinside _ _ ih =>
    rw [List.append_assoc]
    exact .group pos pos' hinside ih

theorem Leaves.append (hbefore : Leaves before opened) (hafter : Balanced after) : Leaves (before ++ after) opened := by
  cases hbefore with
  | none hcells => exact .none (hcells.append hafter)
  | opening pos hbefore hinside =>
    rw [List.append_assoc]
    exact .opening pos hbefore (hinside.append hafter)

theorem trackAll_append (opened : List Position) (before after : List Cell) :
    trackAll opened (before ++ after) = (trackAll opened before >>= (trackAll · after)) :=
  List.foldlM_append

theorem trackAll_cons (opened : List Position) (cell : Cell) (rest : List Cell) :
    trackAll opened (cell :: rest) = (track opened cell >>= (trackAll · rest)) :=
  List.foldlM_cons

theorem trackAll_append_ok (h : trackAll opened before = .ok opened') (after : List Cell) :
    trackAll opened (before ++ after) = trackAll opened' after := by
  rw [trackAll_append, h]
  rfl

/-- The open parentheses behind a part of the cells, if those behind all of them are known. -/
theorem exists_trackAll_of_append (h : trackAll opened (before ++ after) = .ok opened') :
    ∃ between, trackAll opened before = .ok between ∧ trackAll between after = .ok opened' := by
  cases hbefore : trackAll opened before with
  | error e =>
    rw [trackAll_append, hbefore] at h
    cases h
  | ok between =>
    rw [trackAll_append_ok hbefore] at h
    exact ⟨between, rfl, h⟩

theorem track_of_not_isParen {cell : Cell} (hcell : cell.isParen = false) (opened : List Position) :
    track opened cell = .ok opened := by
  cases cell with
  | value v pos | slot id pos | call site | operator op pos => rfl
  | left pos | right pos => cases hcell

theorem Balanced.trackAll_eq (hcells : Balanced cells) (opened : List Position) :
    trackAll opened cells = .ok opened := by
  induction hcells generalizing opened with
  | nil => rfl
  | cell hcell _ ih =>
    rw [trackAll_cons, track_of_not_isParen hcell]
    exact ih opened
  | group pos pos' _ _ ihinside ihrest =>
    rw [List.cons_append, trackAll_cons]
    show trackAll (pos :: opened) _ = .ok opened
    rw [trackAll_append_ok (ihinside (pos :: opened))]
    exact ihrest opened

theorem Leaves.trackAll_eq (h : Leaves cells opened) : trackAll [] cells = .ok opened := by
  induction h with
  | none hcells => exact hcells.trackAll_eq []
  | opening pos _ hinside ih =>
    rw [trackAll_append_ok ih, trackAll_cons]
    exact hinside.trackAll_eq _

/-- One more cell behind cells of which it is known what they leave open. -/
theorem Leaves.track {cell : Cell} (hcells : Leaves cells opened) (htrack : track opened cell = .ok opened') :
    Leaves (cells ++ [cell]) opened' := by
  cases cell with
  | value v pos | slot id pos | call site | operator op pos =>
    cases htrack
    exact hcells.append (.cell rfl .nil)
  | left pos =>
    cases htrack
    exact .opening pos hcells .nil
  | right pos =>
    cases hcells with
    | none hcells => cases htrack
    | opening pos' hbefore hinside =>
      cases htrack
      rw [List.append_assoc]
      exact hbefore.append (.group pos' pos hinside .nil)

/-- Following the parentheses either finds which ones are left open or stops at a right one behind matching cells. -/
theorem trackAll_spec (cells : List Cell) :
    (∃ opened, trackAll [] cells = .ok opened ∧ Leaves cells opened) ∨
    (∃ before pos after, trackAll [] cells = .error (.located pos .closedTooOften) ∧
      cells = before ++ .right pos :: after ∧ Balanced before) := by
  induction cells using List.reverseRecOn with
  | nil => exact .inl ⟨[], rfl, .none .nil⟩
  | append_singleton cells cell ih =>
    rcases ih with ⟨opened, htracked, hleaves⟩ | ⟨before, pos, after, htracked, rfl, hbefore⟩
    · have hlast : trackAll [] (cells ++ [cell]) = track opened cell := by
        rw [trackAll_append_ok htracked, trackAll_cons]
        cases track opened cell <;> rfl
      cases htrack : track opened cell with
      | ok opened' => exact .inl ⟨opened', hlast.trans htrack, hleaves.track htrack⟩
      | error e =>
        right
        cases hleaves with
        | opening pos hbefore hinside => cases cell <;> cases htrack
        | none hcells =>
          cases cell with
          | right pos =>
            refine ⟨cells, pos, [], ?_, rfl, hcells⟩
            rw [hlast]
            rfl
          | value v pos | slot id pos | call site | operator op pos | left pos => cases htrack
    · right
      refine ⟨before, pos, after ++ [cell], ?_, by simp, hbefore⟩
      rw [trackAll_append, htracked]
      rfl

theorem leaves_iff : Leaves cells opened ↔ trackAll [] cells = .ok opened := by
  constructor
  · exact Leaves.trackAll_eq
  · intro h
    rcases trackAll_spec cells with ⟨opened', htracked, hleaves⟩ | ⟨_, _, _, htracked, -⟩
    · rw [h] at htracked
      cases htracked
      exact hleaves
    · rw [h] at htracked
      cases htracked

theorem balanced_iff : Balanced cells ↔ trackAll [] cells = .ok [] := by
  rw [← leaves_iff]
  constructor
  · exact .none
  · intro h
    cases h with
    | none hcells => exact hcells

/-- What is open further out does not matter to cells that close nothing of it. -/
theorem trackAll_outer (h : trackAll opened cells = .ok opened') (outer : List Position) :
    trackAll (opened ++ outer) cells = .ok (opened' ++ outer) := by
  induction cells generalizing opened with
  | nil =>
    cases h
    rfl
  | cons cell rest ih =>
    rw [trackAll_cons] at h ⊢
    cases htrack : track opened cell with
    | error e =>
      rw [htrack] at h
      cases h
    | ok between =>
      rw [htrack] at h
      have houter : track (opened ++ outer) cell = .ok (between ++ outer) := by
        cases cell with
        | value v pos | slot id pos | call site | operator op pos | left pos =>
          cases htrack
          rfl
        | right pos =>
          cases opened with
          | nil => cases htrack
          | cons pos' opened =>
            cases htrack
            rfl
      rw [houter]
      exact ih h

/-! ### Where parentheses are opened and closed -/

theorem opening_iff (h : trackAll [] before = .ok opened) : Opening before ↔ opened ≠ [] := by
  constructor
  · rintro ⟨rest, pos, inside, rfl, hinside⟩
    obtain ⟨between, -, hopened⟩ := exists_trackAll_of_append h
    rw [trackAll_cons] at hopened
    have hinner : trackAll (pos :: between) inside = .ok opened := hopened
    rw [hinside.trackAll_eq] at hinner
    cases hinner
    exact List.cons_ne_nil pos between
  · intro hopened
    cases leaves_iff.mpr h with
    | none hcells => exact absurd rfl hopened
    | opening pos hbefore hinside => exact ⟨_, pos, _, rfl, hinside⟩

theorem Balanced.not_closing (hcells : Balanced cells) : ¬Closing cells := by
  rintro ⟨inside, pos, rest, rfl, hinside⟩
  have hall := hcells.trackAll_eq []
  rw [trackAll_append_ok (hinside.trackAll_eq [])] at hall
  cases hall

theorem exists_trackAll_of_not_closing (h : ¬Closing cells) : ∃ opened, trackAll [] cells = .ok opened := by
  rcases trackAll_spec cells with ⟨opened, htracked, -⟩ | ⟨before, pos, after, -, rfl, hbefore⟩
  · exact ⟨opened, htracked⟩
  · exact absurd ⟨before, pos, after, rfl, hbefore⟩ h

theorem Balanced.allClosed (hcells : Balanced cells) : AllClosed cells := by
  rintro before pos after rfl
  by_contra hclosing
  -- the parentheses left open behind the last one would still be open in the end
  obtain ⟨between, -, hafter⟩ := exists_trackAll_of_append (hcells.trackAll_eq [])
  obtain ⟨opened, hopened⟩ := exists_trackAll_of_not_closing hclosing
  have houter := trackAll_outer hopened (pos :: between)
  have hend : trackAll (pos :: between) after = .ok [] := hafter
  rw [List.nil_append, hend] at houter
  simp at houter

theorem allOpened_iff : AllOpened cells ↔ ∃ opened, trackAll [] cells = .ok opened := by
  constructor
  · intro hall
    rcases trackAll_spec cells with ⟨opened, htracked, -⟩ | ⟨before, pos, after, -, hcells, hbefore⟩
    · exact ⟨opened, htracked⟩
    · have hopening := hall before pos after hcells
      exact absurd rfl ((opening_iff (hbefore.trackAll_eq [])).mp hopening)
  · rintro ⟨opened, h⟩ before pos after rfl
    obtain ⟨between, hbefore, hafter⟩ := exists_trackAll_of_append h
    rw [opening_iff hbefore]
    rintro rfl
    cases hafter

theorem trackAll_eq_error_iff {e : SyntaxError} : trackAll [] cells = .error e ↔
    ∃ before pos after, cells = before ++ .right pos :: after ∧ AllOpened before ∧ ¬Opening before ∧
      e = .located pos .closedTooOften := by
  constructor
  · intro h
    rcases trackAll_spec cells with ⟨opened, htracked, -⟩ | ⟨before, pos, after, htracked, hcells, hbefore⟩
    · rw [h] at htracked
      cases htracked
    · rw [h] at htracked
      have hnone := hbefore.trackAll_eq []
      have hopening : ¬Opening before := fun hopening => (opening_iff hnone).mp hopening rfl
      exact ⟨before, pos, after, hcells, allOpened_iff.mpr ⟨[], hnone⟩, hopening, Except.error.inj htracked⟩
  · rintro ⟨before, pos, after, rfl, hall, hopening, rfl⟩
    obtain ⟨opened, hbefore⟩ := allOpened_iff.mp hall
    have hnone : opened = [] := by
      by_contra hopened
      exact hopening ((opening_iff hbefore).mpr hopened)
    rw [trackAll_append_ok hbefore, hnone]
    rfl

theorem trackAll_eq_ok_cons_iff {pos : Position} : (∃ opened, trackAll [] cells = .ok (pos :: opened)) ↔
    AllOpened cells ∧ ∃ before after, cells = before ++ .left pos :: after ∧ ¬Closing after ∧ AllClosed after := by
  constructor
  · rintro ⟨opened, h⟩
    refine ⟨allOpened_iff.mpr ⟨_, h⟩, ?_⟩
    cases leaves_iff.mpr h with
    | opening _ hbefore hinside => exact ⟨_, _, rfl, hinside.not_closing, hinside.allClosed⟩
  · rintro ⟨hall, before, after, rfl, hclosing, hclosed⟩
    obtain ⟨opened, h⟩ := allOpened_iff.mp hall
    obtain ⟨between, hbefore, hafter⟩ := exists_trackAll_of_append h
    obtain ⟨inner, hinner⟩ := exists_trackAll_of_not_closing hclosing
    have hnone : inner = [] := by
      by_contra hopened
      obtain ⟨rest, pos', inside, rfl, hinside⟩ := (opening_iff hinner).mpr hopened
      exact hinside.not_closing (hclosed rest pos' inside rfl)
    refine ⟨between, ?_⟩
    rw [trackAll_append_ok hbefore, trackAll_cons]
    have houter := trackAll_outer hinner (pos :: between)
    rw [hnone] at houter
    exact houter

end Tracking

/-! ### The outcome of conversion -/

theorem convert_outcome (cells : List Cell) :
    match trackAll [] cells with
    | .error e => convert cells = .error e
    | .ok [] => ∃ out, convert cells = .ok out
    | .ok (pos :: _) => convert cells = .error (.located pos .neverClosed) := by
  have hdiscard : (convert cells).map (fun _ => ()) = (do settle (← trackAll [] cells)) :=
    convertFrom_discard [] [] cells
  cases htracked : trackAll [] cells with
  | error e =>
    rw [htracked] at hdiscard
    cases hout : convert cells <;> rw [hout] at hdiscard <;> cases hdiscard
    rfl
  | ok opened =>
    rw [htracked] at hdiscard
    cases opened with
    | nil =>
      cases hout : convert cells with
      | error e =>
        rw [hout] at hdiscard
        cases hdiscard
      | ok out => exact ⟨out, rfl⟩
    | cons pos opened =>
      cases hout : convert cells <;> rw [hout] at hdiscard <;> cases hdiscard
      rfl

theorem exists_convert_iff (cells : List Cell) : (∃ out, convert cells = .ok out) ↔ Balanced cells := by
  have houtcome := convert_outcome cells
  rw [balanced_iff]
  match htracked : trackAll [] cells with
  | .error e => simp_all
  | .ok [] => simpa [htracked] using houtcome
  | .ok (pos :: opened) => simp_all

theorem convert_eq_error_iff (cells : List Cell) (e : SyntaxError) : convert cells = .error e ↔
    trackAll [] cells = .error e ∨ ∃ pos opened, trackAll [] cells = .ok (pos :: opened) ∧ e = .located pos .neverClosed := by
  have houtcome := convert_outcome cells
  match htracked : trackAll [] cells with
  | .error e' => simp_all
  | .ok [] =>
    rw [htracked] at houtcome
    obtain ⟨out, hout⟩ := houtcome
    simp [hout]
  | .ok (pos :: opened) =>
    rw [htracked] at houtcome
    simp [houtcome, eq_comm]

end Postfix
end ToneScript
