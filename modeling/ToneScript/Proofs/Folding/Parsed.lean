import ToneScript.Proofs.Folding.Trees
import ToneScript.Proofs.Syntax.Resolution

/-! A source that is read with the values of its constants at hand, and without them. Both ways go through the same
errors, warnings and declarations; where there is no error, the trees differ in that names of constants have been
replaced by their values. -/
namespace ToneScript

/-- What a table has for names that stand for constants: the value, where the name refers to a built-in one from
within the blocks around it. -/
def SymbolTable.constantAt? (t : SymbolTable) (constants : List (Ident × Value)) : Valuation :=
  fun scope name pos =>
    if scope.all fun key => key == rootBlock || decide (key ≤ pos.index) then
      (t.resolve scope name pos).bind fun found => if found.1.builtin then constants.lookup name else none
    else none

theorem SymbolTable.constantAt?_eq_some {t : SymbolTable} {constants : List (Ident × Value)} {scope : List BlockKey}
    {name : Ident} {pos : Position} {v : Value} : t.constantAt? constants scope name pos = some v ↔
      (∀ key ∈ scope, key = rootBlock ∨ key ≤ pos.index) ∧ ∃ d crossed,
        t.resolve scope name pos = some (d, crossed) ∧ d.builtin = true ∧ constants.lookup name = some v := by
  have hall : (scope.all fun key => key == rootBlock || decide (key ≤ pos.index)) = true ↔
      ∀ key ∈ scope, key = rootBlock ∨ key ≤ pos.index := by
    simp only [List.all_eq_true, Bool.or_eq_true, beq_iff_eq, decide_eq_true_eq]
  rw [constantAt?, ← hall]
  split
  · rename_i hinside
    simp only [Option.bind_eq_some_iff, Prod.exists, Option.ite_none_right_eq_some]
    exact (and_iff_right hinside).symm
  · rename_i hnot
    simp [hnot]

namespace Resolution

/-- The same with names left as they are. -/
def Context.unfolded (c : Context) : Context :=
  { c with constants? := none }

/-- Two states of reading that differ in their remarks only. -/
structure State.Alike (s s₀ : State) : Prop where
  table : s.table = s₀.table
  issues : s.journal.issues = s₀.journal.issues

theorem State.Alike.enterBlock {s s₀ : State} (h : s.Alike s₀) (key : BlockKey) :
    State.Alike { s with table := s.table.enterBlock key } { s₀ with table := s₀.table.enterBlock key } :=
  ⟨congrArg (·.enterBlock key) h.table, h.issues⟩

variable {α β α' β' : Type}

/-- Two readings that end alike: with results that are related, in tables with a property, or with the same error. -/
inductive Ends (P : SymbolTable → Prop) (R : α → β → Prop) :
    Except Stop α × State → Except Stop β × State → Prop where
  | ok {a : α} {b : β} {s s₀ : State} (alike : s.Alike s₀) (table : P s.table) (related : R a b) :
    Ends P R (.ok a, s) (.ok b, s₀)
  | error {e : Stop} {s s₀ : State} (alike : s.Alike s₀) : Ends P R (.error e, s) (.error e, s₀)

/-- Two steps that end alike from states that are alike, in tables that keep a property. -/
def Parallel (P : SymbolTable → Prop) (R : α → β → Prop) (x : Step α) (x₀ : Step β) : Prop :=
  ∀ s s₀, s.Alike s₀ → P s.table → Ends P R (x.run s) (x₀.run s₀)

namespace Parallel

variable {P : SymbolTable → Prop} {R : α → β → Prop} {R' : α' → β' → Prop}

theorem pure {a : α} {b : β} (h : R a b) : Parallel P R (pure a) (pure b) :=
  fun _ _ halike htable => .ok halike htable h

theorem refuse (e : SyntaxError) : Parallel P R (refuse e) (refuse e) :=
  fun _ _ halike _ => .error halike

theorem report (i : Issue) : Parallel P (fun _ _ => True) (report i) (report i) := by
  intro s s₀ halike htable
  refine .ok ⟨halike.table, ?_⟩ htable trivial
  rw [Journal.issues_report, Journal.issues_report, halike.issues]

/-- Remarks need not be the same. -/
theorem note (level level₀ : Log.Level) (module module₀ message message₀ : String) :
    Parallel P (fun _ _ => True) (note level module message) (note level₀ module₀ message₀) := by
  intro s s₀ halike htable
  refine .ok ⟨halike.table, ?_⟩ htable trivial
  rw [Journal.issues_note, Journal.issues_note, halike.issues]

theorem modifyTable {f : SymbolTable → SymbolTable} (hf : ∀ t, P t → P (f t)) :
    Parallel P (fun _ _ => True) (modifyTable f) (modifyTable f) :=
  fun _ _ halike htable => .ok ⟨congrArg f halike.table, halike.issues⟩ (hf _ htable) trivial

theorem bind {x : Step α} {x₀ : Step β} {f : α → Step α'} {f₀ : β → Step β'} (hx : Parallel P R x x₀)
    (hf : ∀ a b, R a b → Parallel P R' (f a) (f₀ b)) : Parallel P R' (x >>= f) (x₀ >>= f₀) := by
  intro s s₀ halike htable
  rw [run_bind, run_bind]
  have hfirst := hx s s₀ halike htable
  generalize x.run s = r at hfirst ⊢
  generalize x₀.run s₀ = r₀ at hfirst ⊢
  cases hfirst with
  | ok halike' htable' hrelated => exact hf _ _ hrelated _ _ halike' htable'
  | error halike' => exact .error halike'

/-- A step that goes on from the table alone. -/
theorem inspect {f : State → Step α} {f₀ : State → Step β}
    (hf : ∀ s s₀, s.Alike s₀ → P s.table → Parallel P R (f s) (f₀ s₀)) : Parallel P R (get >>= f) (get >>= f₀) :=
  fun s s₀ halike htable => hf s s₀ halike htable s s₀ halike htable

theorem accept (f : β → α) {x : Except SyntaxError α} {x₀ : Except SyntaxError β} (h : x = x₀.map f) :
    Parallel P (fun a b => a = f b) (accept x) (accept x₀) := by
  subst h
  cases x₀ with
  | ok b => exact pure rfl
  | error e => exact refuse e

theorem branch {p : Prop} [Decidable p] {x y : Step α} {x₀ y₀ : Step β} (hx : Parallel P R x x₀)
    (hy : Parallel P R y y₀) : Parallel P R (if p then x else y) (if p then x₀ else y₀) := by
  split
  · exact hx
  · exact hy

end Parallel

section Arithmetic

variable {c : Context} {t : SymbolTable} {values : Ident → Position → Option Value} {lo hi : Nat}

/-- Whether names between two offsets are replaced by given values. -/
def Replaces (c : Context) (t : SymbolTable) (values : Ident → Position → Option Value) (lo hi : Nat) : Prop :=
  ∀ id pos d crossed, pos.Between lo hi → t.lookupBefore? id pos.index = some (d, crossed) →
    constant? c d id = values id pos

theorem variableCell_parallel (hvalues : Replaces c t values lo hi) {id : Ident} {pos : Position}
    (hpos : pos.Between lo hi) : Parallel (· = t) (fun cell cell₀ => cell = cell₀.fold values)
      (variableCell c id pos) (variableCell c.unfolded id pos) := by
  refine .inspect fun s s₀ halike htable => ?_
  have htable₀ : s₀.table = t := halike.table.symm.trans htable
  simp only [htable, htable₀]
  cases hfound : t.lookupBefore? id pos.index with
  | none => exact .refuse _
  | some found =>
    obtain ⟨d, crossed⟩ := found
    have hnone : constant? c.unfolded d id = none := by
      unfold constant?
      split <;> rfl
    simp only [hvalues id pos d crossed hpos hfound, hnone]
    cases hvalue : values id pos with
    | some v => exact .pure (by rw [Cell.fold, hvalue])
    | none => exact .pure (by rw [Cell.fold, hvalue])

theorem checkCallee_parallel (id : Ident) (pos : Position) :
    Parallel (· = t) (fun _ _ => True) (checkCallee c id pos) (checkCallee c.unfolded id pos) := by
  rw [show checkCallee c.unfolded id pos = checkCallee c id pos from rfl]
  refine .inspect fun s s₀ halike _ => ?_
  simp only [halike.table]
  exact .branch (.refuse _) (.pure trivial)

theorem compile_parallel (pos : Position) (cells₀ : List Cell) :
    Parallel (· = t) (fun compiled compiled₀ => compiled = compiled₀.fold values)
      (compile pos (Cell.foldAll values cells₀)) (compile pos cells₀) := by
  refine .bind (.accept (Cell.foldAll values) (Postfix.convert_fold values cells₀)) fun sequence sequence₀ heq => ?_
  refine .bind (.note _ _ _ _ _ _) fun _ _ _ => .pure ?_
  rw [heq, Compiled.fold]

mutual

theorem cells_parallel (hvalues : Replaces c t values lo hi) (ts : List Term)
    (hts : Term.AllWithin lo hi ts) :
    Parallel (· = t) (fun sequence sequence₀ => sequence = Cell.foldAll values sequence₀) (cells c ts)
      (cells c.unfolded ts) := by
  cases ts with
  | nil => exact .pure rfl
  | cons term ts =>
    rw [cells, cells]
    refine .bind (cell_parallel hvalues term hts.1) fun first first₀ hfirst => ?_
    refine .bind (cells_parallel hvalues ts hts.2) fun rest rest₀ hrest => .pure ?_
    rw [hfirst, hrest, Cell.foldAll]

theorem cell_parallel (hvalues : Replaces c t values lo hi) (term : Term) (hterm : term.Within lo hi) :
    Parallel (· = t) (fun result result₀ => result = result₀.fold values) (cell c term) (cell c.unfolded term) := by
  cases term with
  | const | operator | left | right => exact .pure rfl
  | name id pos =>
    rw [cell, cell]
    exact variableCell_parallel hvalues hterm
  | call id args pos =>
    rw [cell, cell]
    refine .bind (checkCallee_parallel id pos) fun _ _ _ => ?_
    refine .bind (arguments_parallel hvalues _ args hterm.2) fun args' args₀ hargs => ?_
    refine .bind (.accept (CallSite.fold values) ?_) fun site site₀ hsite => .pure ?_
    · rw [hargs]
      exact callSite_fold values _ id args₀ pos
    · rw [hsite, Cell.fold]
  | flawed e => exact .refuse e

theorem arguments_parallel (hvalues : Replaces c t values lo hi) (callee : String) (args : List ArgumentOutline)
    (hargs : ArgumentOutline.AllWithin lo hi args) :
    Parallel (· = t) (fun result result₀ => result = SiteArgument.foldAll values result₀) (arguments c callee args)
      (arguments c.unfolded callee args) := by
  cases args with
  | nil => exact .pure rfl
  | cons arg args =>
    rw [arguments, arguments]
    refine .bind (argument_parallel hvalues callee arg hargs.1) fun first first₀ hfirst => ?_
    refine .bind (arguments_parallel hvalues callee args hargs.2) fun rest rest₀ hrest => .pure ?_
    rw [hfirst, hrest, SiteArgument.foldAll]

theorem argument_parallel (hvalues : Replaces c t values lo hi) (callee : String) (arg : ArgumentOutline)
    (harg : arg.Within lo hi) : Parallel (· = t) (fun result result₀ => result = result₀.fold values)
      (argument c callee arg) (argument c.unfolded callee arg) := by
  cases arg with
  | given form terms valuePos pos =>
    rw [argument, argument]
    refine .bind (cells_parallel hvalues terms harg.2.2) fun sequence sequence₀ hsequence => ?_
    subst hsequence
    refine .bind (compile_parallel valuePos sequence₀) fun value value₀ hvalue => .pure ?_
    rw [hvalue]
    cases form <;> rfl
  | missing pos => exact .refuse _

end

theorem arithmetic_parallel {values : Valuation} {p : List BlockKey} (hvalues : Replaces c t (values p) lo hi)
    {terms : List Term} (hterms : Term.AllWithin lo hi terms) (pos : Position) :
    Parallel (· = t) (fun e e₀ => e = e₀.fold values p) (expr c (.arithmetic terms pos))
      (expr c.unfolded (.arithmetic terms pos)) := by
  rw [expr, expr]
  refine .bind (cells_parallel hvalues terms hterms) fun sequence sequence₀ hsequence => ?_
  subst hsequence
  refine .bind (compile_parallel pos sequence₀) fun compiled compiled₀ hcompiled => ?_
  subst hcompiled
  exact .accept (Expr.fold values p) (Compiled.toExpr_fold values p compiled₀)

end Arithmetic

/-- Two steps that go through the same errors, warnings and declarations. -/
abbrev Alike (x : Step α) (x₀ : Step β) : Prop :=
  Parallel (fun _ => True) (fun _ _ => True) x x₀

namespace Alike

variable {c : Context}

theorem of_parallel {x : Step α} {x₀ : Step β} {R : SymbolTable → α → β → Prop}
    (h : ∀ t, Parallel (· = t) (R t) x x₀) : Alike x x₀ := by
  intro s s₀ halike _
  have hends := h s.table s s₀ halike rfl
  generalize x.run s = r at hends ⊢
  generalize x₀.run s₀ = r₀ at hends ⊢
  cases hends with
  | ok halike' => exact .ok halike' trivial trivial
  | error halike' => exact .error halike'

theorem inBlock {x : Step α} {x₀ : Step β} (key : BlockKey) (hx : Alike x x₀) :
    Alike (inBlock key x) (inBlock key x₀) := by
  intro s s₀ halike _
  have hends := hx _ _ (halike.enterBlock key) trivial
  unfold Resolution.inBlock
  simp only [ExceptT.run_mk]
  generalize x.run _ = r at hends ⊢
  generalize x₀.run _ = r₀ at hends ⊢
  cases hends with
  | ok halike' | error halike' =>
    simp only [halike'.table]
    split
    · first
      | exact .ok ⟨rfl, halike'.issues⟩ trivial trivial
      | exact .error ⟨rfl, halike'.issues⟩
    · exact .error halike'

/-- A step that was taken both ways and went well. -/
theorem state {x : Step α} {x₀ : Step β} (h : Alike x x₀) {s s' s₀ s₀' : State} {a : α} {b : β}
    (halike : s.Alike s₀) (hrun : x.run s = (.ok a, s')) (hrun₀ : x₀.run s₀ = (.ok b, s₀')) : s'.Alike s₀' := by
  have hends := h s s₀ halike trivial
  rw [hrun, hrun₀] at hends
  cases hends with
  | ok halike' => exact halike'

theorem checkNew (id : Ident) (pos : Position) : Alike (checkNew c id pos) (checkNew c.unfolded id pos) := by
  rw [show Resolution.checkNew c.unfolded id pos = Resolution.checkNew c id pos from rfl]
  refine .inspect fun s s₀ halike _ => ?_
  simp only [halike.table]
  split
  · exact .pure trivial
  · exact .branch (.refuse _) (.refuse _)

theorem warnIfShadowing (id : Ident) (pos : Position) :
    Alike (warnIfShadowing c id pos) (warnIfShadowing c.unfolded id pos) := by
  rw [show Resolution.warnIfShadowing c.unfolded id pos = Resolution.warnIfShadowing c id pos from rfl]
  refine .inspect fun s s₀ halike _ => ?_
  simp only [halike.table]
  split
  · exact .branch (.report _) (.pure trivial)
  · exact .pure trivial

theorem declare (name : Ident) (pos : Position) (visibleFrom : UInt64) (ty? : Option Ty) :
    Alike (modifyTable (·.declare name pos visibleFrom ty? false))
      (modifyTable (·.declare name pos visibleFrom ty? false)) :=
  .modifyTable fun _ _ => trivial

theorem declareFunction (h : FunctionHeader) : Alike (declareFunction c h) (declareFunction c.unfolded h) :=
  .bind (checkNew _ _) fun _ _ _ => .bind (warnIfShadowing _ _) fun _ _ _ => declare _ _ _ _

theorem declareParams (h : FunctionHeader) (ps : List Param) :
    Alike (declareParams c h ps) (declareParams c.unfolded h ps) := by
  induction ps with
  | nil => exact .pure trivial
  | cons p ps ih => exact .bind (warnIfShadowing _ _) fun _ _ _ => .bind (declare _ _ _ _) fun _ _ _ => ih

/-- Whatever the names in an expression are replaced by, all of them are looked up in the same table. -/
theorem arithmetic {lo hi : Nat} {terms : List Term} (hterms : Term.AllWithin lo hi terms) (pos : Position) :
    Alike (Resolution.expr c (.arithmetic terms pos)) (Resolution.expr c.unfolded (.arithmetic terms pos)) := by
  let values (t : SymbolTable) : Valuation :=
    fun _ id pos => (t.lookupBefore? id pos.index).bind fun found => constant? c found.1 id
  have hvalues (t : SymbolTable) : Replaces c t (values t []) lo hi := by
    intro id pos d crossed _ hfound
    simp only [values, hfound, Option.bind_some]
  exact of_parallel fun t => arithmetic_parallel (hvalues t) hterms pos

mutual

theorem expr {lo hi : Nat} (o : Outline) (ho : o.Within lo hi) : Alike (expr c o) (expr c.unfolded o) := by
  cases o with
  | conditional condition thenBranch elseBranch pos =>
    obtain ⟨m, n, hcondition, hthen, helse⟩ := ho
    rw [Resolution.expr, Resolution.expr]
    exact .bind (expr condition hcondition) fun _ _ _ => .bind (expr thenBranch hthen) fun _ _ _ =>
      .bind (expr elseBranch helse) fun _ _ _ => .pure trivial
  | block items flaw? pos =>
    rw [Resolution.expr, Resolution.expr]
    refine .bind (inBlock _ (entries items ho.2)) fun _ _ _ => ?_
    cases flaw? with
    | none => exact .pure trivial
    | some e => exact .refuse e
  | arithmetic terms pos => exact arithmetic ho.2 pos
  | flawed e => exact .refuse e

theorem entries {lo hi : Nat} (items : List EntryOutline) (hitems : EntryOutline.AllWithin lo hi items) :
    Alike (entries c items) (entries c.unfolded items) := by
  cases items with
  | nil => exact .pure trivial
  | cons item items =>
    obtain ⟨m, hitem, hitems⟩ := hitems
    rw [Resolution.entries, Resolution.entries]
    exact .bind (entry item hitem) fun _ _ _ => .bind (entries items hitems) fun _ _ _ => .pure trivial

theorem entry {lo hi : Nat} (item : EntryOutline) (hitem : item.Within lo hi) :
    Alike (entry c item) (entry c.unfolded item) := by
  cases item with
  | operator op value guard pos =>
    obtain ⟨m, hvalue, hguard⟩ := hitem
    cases guard with
    | none =>
      rw [Resolution.entry, Resolution.entry]
      exact .bind (expr value hvalue) fun _ _ _ => .pure trivial
    | some guard =>
      rw [Resolution.entry, Resolution.entry]
      exact .bind (expr value hvalue) fun _ _ _ => .bind (expr guard hguard) fun _ _ _ => .pure trivial
  | closure definition pos =>
    rw [Resolution.entry, Resolution.entry]
    exact .bind (function definition hitem) fun _ _ _ => .pure trivial
  | flawed e => exact .refuse e

theorem function {lo hi : Nat} (definition : FunctionOutline) (hdefinition : definition.Within lo hi) :
    Alike (function c definition) (function c.unfolded definition) := by
  cases definition with
  | defined h body =>
    rw [Resolution.function, Resolution.function]
    refine .inspect fun s s₀ halike _ => .bind (declareFunction h) fun _ _ _ => ?_
    refine .bind (inBlock _ (.bind (declareParams h h.params) fun _ _ _ =>
      expr body hdefinition.2.2)) fun _ _ _ => ?_
    exact .bind (.note _ _ _ _ _ _) fun _ _ _ => .pure trivial
  | bodiless h e =>
    rw [Resolution.function, Resolution.function]
    exact .bind (declareFunction h) fun _ _ _ => .refuse e
  | flawed e => exact .refuse e

end

theorem item {lo hi : Nat} (o : ItemOutline) (ho : o.Within lo hi) : Alike (item c o) (item c.unfolded o) := by
  cases o with
  | function definition unended? pos =>
    refine .bind (function definition ho) fun _ _ _ => ?_
    cases unended? with
    | none => exact .pure trivial
    | some next => exact .bind (.report _) fun _ _ _ => .pure trivial
  | assignment name value visibleFrom pos =>
    obtain ⟨m, hvalue, _⟩ := ho
    exact .bind (checkNew _ _) fun _ _ _ => .bind (expr value hvalue) fun _ _ _ =>
      .bind (declare _ _ _ _) fun _ _ _ => .pure trivial
  | flawed e => exact .refuse e

theorem attempt {x : Step α} {x₀ : Step β} (hx : Alike x x₀) : Alike (attempt x) (attempt x₀) := by
  intro s s₀ halike htrivial
  have hends := hx s s₀ halike htrivial
  unfold Resolution.attempt
  simp only [ExceptT.run_mk]
  generalize x.run s = r at hends ⊢
  generalize x₀.run s₀ = r₀ at hends ⊢
  cases hends with
  | ok halike' => exact .ok halike' trivial trivial
  | @error e _ _ halike' =>
    cases e with
    | refused e =>
      refine .ok ⟨halike'.table, ?_⟩ trivial trivial
      rw [Journal.issues_report, Journal.issues_report, halike'.issues]
    | defect d => exact .error halike'

/-- Items that are read with and without the values of constants leave the same issues and declarations. -/
theorem items {lo hi : Nat} (outlines : List ItemOutline) (ho : ItemOutline.AllWithin lo hi outlines) :
    Alike (items c outlines) (items c.unfolded outlines) := by
  induction outlines generalizing lo with
  | nil => exact .pure trivial
  | cons outline outlines ih =>
    obtain ⟨m, houtline, houtlines⟩ := ho
    exact .bind (attempt (item outline houtline)) fun _ _ _ => .bind (ih houtlines) fun _ _ _ => .pure trivial

end Alike

section Folds

open SymbolTable

variable {c : Context} {constants : List (Ident × Value)}

/-- What names are replaced by is what the finished table has for them. -/
theorem replaces_constantAt {scope : List BlockKey} {lo hi : Nat} {t T : SymbolTable}
    (hconstants : c.constants? = some constants) (hr : Reading scope lo t) (hT : Later hi t T) :
    Replaces c t (T.constantAt? constants scope) lo hi := by
  intro id pos d crossed hpos hfound
  have hinside : (scope.all fun key => key == rootBlock || decide (key ≤ pos.index)) = true := by
    simp only [List.all_eq_true, Bool.or_eq_true, beq_iff_eq, decide_eq_true_eq]
    intro key hkey
    refine (hr.keys key hkey).imp_right fun hlt => ?_
    rw [UInt64.le_iff_toNat_le]
    exact Nat.le_of_lt (Nat.lt_of_lt_of_le hlt hpos.1)
  rw [lookupBefore?_eq_resolve hr.frame] at hfound
  rcases hT.resolve_eq scope id hpos.2 with ⟨hnone, _⟩ | ⟨d₀, d', n, hd₀, hd', hbecomes⟩
  · rw [hnone] at hfound
    cases hfound
  · cases hd₀.symm.trans hfound
    rw [constant?, hconstants, constantAt?, if_pos hinside, hd', Option.bind_some, hbecomes.builtin_eq]
    rfl

mutual

/-- An expression that is read with the values of constants is one that is read without them, with the names of
constants replaced. -/
theorem expr_folds (hconstants : c.constants? = some constants) {scope : List BlockKey} {lo hi : Nat}
    (hhi : hi < UInt64.size) (o : Outline) (ho : o.Within lo hi) {s s' s₀ s₀' : State} {e e₀ : Expr}
    (hr : Reading scope lo s.table) (halike : s.Alike s₀) (h : (expr c o).run s = (.ok e, s'))
    (h₀ : (expr c.unfolded o).run s₀ = (.ok e₀, s₀')) :
    ∀ T, Later hi s'.table T → e = e₀.fold (T.constantAt? constants) scope := by
  cases o with
  | conditional condition thenBranch elseBranch pos =>
    obtain ⟨m, n, hcondition, hthen, helse⟩ := ho
    obtain ⟨e₁, e₂, e₃, s₁, s₂, rfl, h₁, h₂, h₃⟩ := expr_conditional_ok h
    obtain ⟨e₁', e₂', e₃', s₁', s₂', rfl, h₁', h₂', h₃'⟩ := expr_conditional_ok h₀
    have hm := Outline.Within.le thenBranch hthen
    have hn := Outline.Within.le elseBranch helse
    have halike₁ := (Alike.expr condition hcondition).state halike h₁ h₁'
    have halike₂ := (Alike.expr thenBranch hthen).state halike₁ h₂ h₂'
    have hext₁ := (expr_placed hconstants (by omega) condition hcondition hr h₁).1
    have hr₁ := hr.step hext₁
    have hext₂ := (expr_placed hconstants (by omega) thenBranch hthen hr₁ h₂).1
    have hr₂ := hr₁.step hext₂
    have hext₃ := (expr_placed hconstants hhi elseBranch helse hr₂ h₃).1
    intro T hT
    -- Each part was read with a smaller table; what is declared after it is out of sight from within it.
    have hT₂ : Later n s₂.table T := hext₃.later.trans (hT.weaken hn)
    have hT₁ : Later m s₁.table T := hext₂.later.trans (hT₂.weaken hm)
    rw [expr_folds hconstants (by omega) condition hcondition hr halike h₁ h₁' T hT₁,
      expr_folds hconstants (by omega) thenBranch hthen hr₁ halike₁ h₂ h₂' T hT₂,
      expr_folds hconstants hhi elseBranch helse hr₂ halike₂ h₃ h₃' T hT, Expr.fold]
  | block items flaw? pos =>
    obtain ⟨hpos, hitems⟩ := ho
    obtain ⟨trees, mid, table, rfl, _, hentries, hleave, rfl⟩ := expr_block_ok h
    obtain ⟨trees₀, mid₀, table₀, rfl, _, hentries₀, _, rfl⟩ := expr_block_ok h₀
    have hext := (entries_placed hconstants hhi items hitems (hr.enter hpos) hentries).1
    intro T hT
    rw [entries_folds hconstants hhi items hitems (hr.enter hpos) (halike.enterBlock pos.index) hentries hentries₀ T
      (later_of_leave hr.frames hext.blocks hleave hT), Expr.fold]
  | arithmetic terms pos =>
    -- Arithmetic declares nothing, so the final table is later than the one that its names are looked up in.
    have hends (T : SymbolTable) (hT : Later hi s.table T) : Ends (· = s.table)
        (fun e e₀ => e = e₀.fold (T.constantAt? constants) scope) (.ok e, s') (.ok e₀, s₀') := by
      rw [← h, ← h₀]
      exact arithmetic_parallel (replaces_constantAt hconstants hr hT) ho.2 pos s s₀ halike rfl
    have htable : s'.table = s.table := by
      cases hends s.table (.refl _ _) with
      | ok _ htable => exact htable
    intro T hT
    cases hends T (htable ▸ hT) with
    | ok _ _ heq => exact heq
  | flawed e =>
    rw [expr] at h
    cases h

theorem entries_folds (hconstants : c.constants? = some constants) {scope : List BlockKey} {lo hi : Nat}
    (hhi : hi < UInt64.size) {key : BlockKey} (items : List EntryOutline)
    (hitems : EntryOutline.AllWithin lo hi items) {s s' s₀ s₀' : State} {trees trees₀ : List BlockEntry}
    (hr : Reading (key :: scope) lo s.table) (halike : s.Alike s₀)
    (h : (entries c items).run s = (.ok trees, s')) (h₀ : (entries c.unfolded items).run s₀ = (.ok trees₀, s₀')) :
    ∀ T, Later hi s'.table T → trees = BlockEntry.foldAll (T.constantAt? constants) (key :: scope) trees₀ := by
  cases items with
  | nil =>
    cases h
    cases h₀
    exact fun _ _ => rfl
  | cons item items =>
    obtain ⟨m, hitem, hitems⟩ := hitems
    obtain ⟨tree, trees', s₁, rfl, h₁, h₂⟩ := entries_cons_ok h
    obtain ⟨tree₀, trees₀', s₁', rfl, h₁', h₂'⟩ := entries_cons_ok h₀
    have hm := EntryOutline.AllWithin.le items hitems
    have halike₁ := (Alike.entry item hitem).state halike h₁ h₁'
    have hext₁ := (entry_placed hconstants (by omega) item hitem hr h₁).1
    have hext₂ := (entries_placed hconstants hhi items hitems (hr.step hext₁) h₂).1
    intro T hT
    rw [entry_folds hconstants (by omega) item hitem hr halike h₁ h₁' T (hext₂.later.trans (hT.weaken hm)),
      entries_folds hconstants hhi items hitems (hr.step hext₁) halike₁ h₂ h₂' T hT, BlockEntry.foldAll]

theorem entry_folds (hconstants : c.constants? = some constants) {scope : List BlockKey} {lo hi : Nat}
    (hhi : hi < UInt64.size) {key : BlockKey} (item : EntryOutline) (hitem : item.Within lo hi)
    {s s' s₀ s₀' : State} {tree tree₀ : BlockEntry} (hr : Reading (key :: scope) lo s.table) (halike : s.Alike s₀)
    (h : (entry c item).run s = (.ok tree, s')) (h₀ : (entry c.unfolded item).run s₀ = (.ok tree₀, s₀')) :
    ∀ T, Later hi s'.table T → tree = tree₀.fold (T.constantAt? constants) (key :: scope) := by
  cases item with
  | operator op value guard pos =>
    obtain ⟨m, hvalue, hguard⟩ := hitem
    have hm := Outline.OptionWithin.le guard hguard
    cases guard with
    | none =>
      obtain ⟨e, rfl, h₁⟩ := entry_operator_ok h
      obtain ⟨e₀, rfl, h₁'⟩ := entry_operator_ok h₀
      intro T hT
      rw [expr_folds hconstants (by omega) value hvalue hr halike h₁ h₁' T (hT.weaken hm), BlockEntry.fold,
        Expr.foldOption]
    | some guard =>
      obtain ⟨e, g, s₁, rfl, h₁, h₂⟩ := entry_guarded_ok h
      obtain ⟨e₀, g₀, s₁', rfl, h₁', h₂'⟩ := entry_guarded_ok h₀
      have halike₁ := (Alike.expr value hvalue).state halike h₁ h₁'
      have hext₁ := (expr_placed hconstants (by omega) value hvalue hr h₁).1
      have hext₂ := (expr_placed hconstants hhi guard hguard (hr.step hext₁) h₂).1
      intro T hT
      rw [expr_folds hconstants (by omega) value hvalue hr halike h₁ h₁' T (hext₂.later.trans (hT.weaken hm)),
        expr_folds hconstants hhi guard hguard (hr.step hext₁) halike₁ h₂ h₂' T hT, BlockEntry.fold,
        Expr.foldOption]
  | closure definition pos =>
    obtain ⟨f, rfl, h₁⟩ := entry_closure_ok h
    obtain ⟨f₀, rfl, h₁'⟩ := entry_closure_ok h₀
    intro T hT
    rw [function_folds hconstants hhi definition hitem hr halike h₁ h₁' T hT, BlockEntry.fold]
  | flawed e =>
    rw [entry] at h
    cases h

theorem function_folds (hconstants : c.constants? = some constants) {scope : List BlockKey} {lo hi : Nat}
    (hhi : hi < UInt64.size) {key : BlockKey} (definition : FunctionOutline) (hdefinition : definition.Within lo hi)
    {s s' s₀ s₀' : State} {f f₀ : FunctionDef} (hr : Reading (key :: scope) lo s.table) (halike : s.Alike s₀)
    (h : (function c definition).run s = (.ok f, s'))
    (h₀ : (function c.unfolded definition).run s₀ = (.ok f₀, s₀')) :
    ∀ T, Later hi s'.table T → f = f₀.fold (T.constantAt? constants) := by
  cases definition with
  | defined header body =>
    obtain ⟨hlo, hnodup, hbody⟩ := hdefinition
    have hle := Outline.Within.le body hbody
    have hroot := ne_rootBlock (Nat.lt_of_succ_le hle) hhi
    obtain ⟨e, s₁, s₂, mid, rfl, hdeclare, hparams, hexpr, hleave, hdeclared, _, hopened, _, _, hr₂⟩ :=
      function_parts hlo hnodup hroot hr h
    obtain ⟨e₀, s₁', s₂', mid₀, rfl, hdeclare₀, hparams₀, hexpr₀, _⟩ := function_ok h₀
    have halike₁ := (Alike.declareFunction header).state halike hdeclare hdeclare₀
    have halike₂ := (Alike.declareParams header header.params).state (halike₁.enterBlock header.opening.index)
      hparams hparams₀
    have hbodyExt := (expr_placed hconstants hhi body hbody hr₂ hexpr).1
    intro T hT
    have hinner := hopened.trans (hbodyExt.own_mono (List.nil_subset _))
    rw [expr_folds hconstants hhi body hbody hr₂ halike₂ hexpr hexpr₀ T
      (later_of_leave (hr.step hdeclared).frames hinner.blocks hleave hT), FunctionDef.fold, halike.table]
    have hscope : (s₀.table.scope ++ [header.opening.index]).reverse = header.opening.index :: key :: scope := by
      rw [List.reverse_append, SymbolTable.scope, ← halike.table, hr.frame, List.reverse_reverse]
      rfl
    rw [hscope]
  | bodiless header e => exact (function_bodiless h).elim
  | flawed e =>
    rw [function] at h
    cases h

end

theorem item_folds (hconstants : c.constants? = some constants) {lo hi : Nat} (hhi : hi < UInt64.size)
    (o : ItemOutline) (ho : o.Within lo hi) {s s' s₀ s₀' : State} {tree tree₀ : Item}
    (hr : Reading [rootBlock] lo s.table) (halike : s.Alike s₀) (h : (item c o).run s = (.ok tree, s'))
    (h₀ : (item c.unfolded o).run s₀ = (.ok tree₀, s₀')) :
    ∀ T, Later hi s'.table T → tree = tree₀.fold (T.constantAt? constants) := by
  cases o with
  | function definition unended? pos =>
    obtain ⟨f, s₁, rfl, h₁, htable⟩ := item_function_ok h
    obtain ⟨f₀, s₁', rfl, h₁', _⟩ := item_function_ok h₀
    intro T hT
    rw [htable] at hT
    rw [function_folds hconstants hhi definition ho hr halike h₁ h₁' T hT, Item.fold]
  | assignment name value visibleFrom pos =>
    obtain ⟨m, hvalue, hm, hlt⟩ := ho
    obtain ⟨e, s₁, rfl, _, hexpr, _, _, _, hdeclared⟩ := assignment_parts hconstants hhi hvalue hm hlt hr h
    obtain ⟨e₀, s₁', rfl, _, hexpr₀, _⟩ := item_assignment_ok h₀
    intro T hT
    rw [expr_folds hconstants (by omega) value hvalue hr halike hexpr hexpr₀ T
      (hdeclared.later.trans (hT.weaken (by omega))), Item.fold]
  | flawed e => cases h

/-- A program that is read without errors is, with the names of constants replaced by what the finished table has for
them, the program that is read with the values of the constants at hand. -/
theorem items_folds (hconstants : c.constants? = some constants) {lo hi : Nat} (hhi : hi < UInt64.size)
    {outlines : List ItemOutline} (ho : ItemOutline.AllWithin lo hi outlines) {s s' s₀ s₀' : State}
    {trees trees₀ : List Item} (hr : Reading [rootBlock] lo s.table) (halike : s.Alike s₀)
    (h : (items c outlines).run s = (.ok trees, s')) (h₀ : (items c.unfolded outlines).run s₀ = (.ok trees₀, s₀'))
    (herrors : s'.journal.errorCount = 0) :
    ∀ T, Later hi s'.table T → trees = Program.fold (T.constantAt? constants) trees₀ := by
  induction outlines generalizing lo s s₀ trees trees₀ with
  | nil =>
    cases h
    cases h₀
    exact fun _ _ => rfl
  | cons outline outlines ih =>
    have halike' := (Alike.items _ ho).state halike h h₀
    have herrors₀ : s₀'.journal.errorCount = 0 := (Journal.errorCount_congr halike'.issues).symm.trans herrors
    obtain ⟨m, houtline, houtlines⟩ := ho
    have hm := ItemOutline.AllWithin.le houtlines
    obtain ⟨tree, rest, s₁, rfl, _, hitem, hitems, _⟩ := items_cons_ok h (herrors ▸ Nat.zero_le _)
    obtain ⟨tree₀, rest₀, s₁', rfl, _, hitem₀, hitems₀, _⟩ := items_cons_ok h₀ (herrors₀ ▸ Nat.zero_le _)
    have halike₁ := (Alike.item outline houtline).state halike hitem hitem₀
    have hext₁ := (item_placed hconstants (by omega) outline houtline hr hitem).1
    have hext₂ := (items_placed hconstants hhi houtlines (hr.step hext₁) hitems herrors).1
    intro T hT
    rw [item_folds hconstants (by omega) outline houtline hr halike hitem hitem₀ T
        (hext₂.later.trans (hT.weaken hm)),
      ih houtlines (hr.step hext₁) halike₁ hitems hitems₀ T hT]
    rfl

end Folds

end Resolution
end ToneScript
