import ToneScript.Syntax.OfOutline

/-! Runs of the steps that look up names. A step runs as its parts do one after another, and no step takes
back an error. -/
namespace ToneScript

/-- One step after another, where a step that fails leaves its state behind. -/
theorem run_bind {ε σ α β : Type} (x : ExceptT ε (StateM σ) α) (f : α → ExceptT ε (StateM σ) β) (s : σ) :
    (x >>= f).run s = match x.run s with
      | (.ok a, s') => (f a).run s'
      | (.error e, s') => (.error e, s') := by
  rw [ExceptT.run_bind]
  simp only [bind, StateT.bind]
  rcases x.run s with ⟨r, s'⟩
  cases r <;> rfl

namespace Journal

/-- Issues are only added to a journal. -/
theorem issues_prefix_report (j : Journal) (i : Issue) : j.issues <+: (j.report i).issues := by
  rw [issues_report]
  exact List.prefix_append _ _

theorem issues_prefix_note (j : Journal) (l : Log.Level) (m s : String) : j.issues <+: (j.note l m s).issues :=
  ⟨[], by rw [issues_note, List.append_nil]⟩

theorem errorCount_congr {j j' : Journal} (h : j.issues = j'.issues) : j.errorCount = j'.errorCount :=
  congrArg (List.countP _) h

/-- A journal with further issues has no fewer errors. -/
theorem errorCount_le_of_prefix {j j' : Journal} (h : j.issues <+: j'.issues) : j.errorCount ≤ j'.errorCount :=
  h.sublist.countP_le

/-- Whether a journal is another one with further issues, all of them errors. -/
def GainsErrors (j j' : Journal) : Prop :=
  ∃ added, j'.issues = j.issues ++ added ∧ ∀ i ∈ added, i.severity = .error

namespace GainsErrors

variable {j j' j'' : Journal}

theorem refl (j : Journal) : j.GainsErrors j :=
  ⟨[], (List.append_nil _).symm, List.forall_mem_nil _⟩

theorem trans (h : j.GainsErrors j') (h' : j'.GainsErrors j'') : j.GainsErrors j'' := by
  obtain ⟨added, hissues, herrors⟩ := h
  obtain ⟨added', hissues', herrors'⟩ := h'
  exact ⟨added ++ added', by rw [hissues', hissues, List.append_assoc], List.forall_mem_append.2 ⟨herrors, herrors'⟩⟩

theorem report (j : Journal) {i : Issue} (h : i.severity = .error) : j.GainsErrors (j.report i) :=
  ⟨[i], issues_report j i, List.forall_mem_singleton.2 h⟩

theorem note (j : Journal) (l : Log.Level) (m s : String) : j.GainsErrors (j.note l m s) :=
  ⟨[], by rw [issues_note, List.append_nil], List.forall_mem_nil _⟩

theorem errorCount_le (h : j.GainsErrors j') : j.errorCount ≤ j'.errorCount := by
  obtain ⟨added, hissues, _⟩ := h
  exact errorCount_le_of_prefix ⟨added, hissues.symm⟩

end GainsErrors

theorem errorCount_report_error (j : Journal) {i : Issue} (h : i.severity = .error) :
    (j.report i).errorCount = j.errorCount + 1 := by
  simp [errorCount, count, h]

theorem errorCount_report_other (j : Journal) {i : Issue} (h : i.severity ≠ .error) :
    (j.report i).errorCount = j.errorCount := by
  simp [errorCount, count, h]

@[simp] theorem errorCount_note (j : Journal) (l : Log.Level) (m s : String) :
    (j.note l m s).errorCount = j.errorCount := by
  simp [errorCount, count]

end Journal

namespace Resolution

variable {α β : Type}

theorem run_bind_ok {x : Step α} {f : α → Step β} {s s' : State} {b : β}
    (h : (x >>= f).run s = (.ok b, s')) :
    ∃ a mid, x.run s = (.ok a, mid) ∧ (f a).run mid = (.ok b, s') := by
  rw [run_bind] at h
  split at h
  · exact ⟨_, _, by assumption, h⟩
  · cases h

theorem run_bind_eq {x : Step α} {f : α → Step β} {s s' s'' : State} {a : α} {b : β} (hx : x.run s = (.ok a, s'))
    (hf : (f a).run s' = (.ok b, s'')) : (x >>= f).run s = (.ok b, s'') := by
  rw [run_bind, hx]
  exact hf

/-- Steps in sequence relate states as each of them does, by a relation that is transitive. -/
theorem relates_bind {r : State → State → Prop} (htrans : ∀ {s s' s''}, r s s' → r s' s'' → r s s'')
    {x : Step α} {f : α → Step β} (hx : ∀ s, r s (x.run s).2) (hf : ∀ a s, r s ((f a).run s).2)
    (s : State) : r s ((x >>= f).run s).2 := by
  have hfirst := hx s
  rw [run_bind]
  split
  · rename_i a s' heq
    rw [heq] at hfirst
    exact htrans hfirst (hf a s')
  · rename_i e s' heq
    rwa [heq] at hfirst

theorem journal_inBlock (key : BlockKey) (x : Step α) (s : State) :
    ((inBlock key x).run s).2.journal = (x.run { s with table := s.table.enterBlock key }).2.journal := by
  unfold inBlock
  simp only [ExceptT.run_mk]
  split
  rename_i result s' heq
  rw [heq]
  split <;> rfl

theorem accept_ok {x : Except SyntaxError α} {s s' : State} {a : α}
    (h : (accept x).run s = (.ok a, s')) : x = .ok a ∧ s' = s := by
  cases x with
  | ok b =>
    cases h
    exact ⟨rfl, rfl⟩
  | error e => cases h

theorem inBlock_ok {key : BlockKey} {step : Step α} {s s' : State} {a : α}
    (h : (inBlock key step).run s = (.ok a, s')) :
    ∃ mid table, step.run { s with table := s.table.enterBlock key } = (.ok a, mid) ∧
      mid.table.leave = .ok table ∧ s' = { mid with table } := by
  unfold inBlock at h
  simp only [ExceptT.run_mk] at h
  split at h
  rename_i result mid hstep
  split at h
  · rename_i table hleave
    cases h
    exact ⟨mid, table, hstep, hleave, rfl⟩
  · cases h

/-- A step all of whose results have a property, from whatever state it is done. -/
def Returns (P : α → Prop) (x : Step α) : Prop :=
  ∀ s a s', x.run s = (.ok a, s') → P a

namespace Returns

variable {P : α → Prop} {Q : β → Prop} {x : Step α} {f : α → Step β}

theorem pure {a : α} (h : P a) : Returns P (Pure.pure a) := by
  intro s b s' hrun
  cases hrun
  exact h

theorem refuse (e : SyntaxError) : Returns P (Resolution.refuse e) := by
  intro s a s' hrun
  cases hrun

theorem any (x : Step α) : Returns (fun _ => True) x :=
  fun _ _ _ _ => trivial

theorem bind (hx : Returns P x) (hf : ∀ a, P a → Returns Q (f a)) : Returns Q (x >>= f) := by
  intro s b s'' hrun
  obtain ⟨a, s', hfirst, hrest⟩ := run_bind_ok hrun
  exact hf a (hx s a s' hfirst) s' b s'' hrest

theorem bind_any (hf : ∀ a, Returns Q (f a)) : Returns Q (x >>= f) :=
  (any x).bind fun a _ => hf a

theorem accept {r : Except SyntaxError α} (h : ∀ a, r = .ok a → P a) : Returns P (Resolution.accept r) := by
  intro s a s' hrun
  exact h a (accept_ok hrun).1

theorem inBlock (key : BlockKey) (hx : Returns P x) : Returns P (Resolution.inBlock key x) := by
  intro s a s' hrun
  obtain ⟨mid, table, hstep, -⟩ := inBlock_ok hrun
  exact hx _ a mid hstep

theorem attempt (hx : Returns P x) : Returns (fun o => ∀ a ∈ o, P a) (Resolution.attempt x) := by
  intro s o s' hrun
  simp only [Resolution.attempt, ExceptT.run_mk] at hrun
  split at hrun
  · rename_i hstep
    cases hrun
    exact fun a ha => Option.some.inj ha ▸ hx s _ _ hstep
  · cases hrun
    exact nofun
  · cases hrun

end Returns

/-- A property of steps that the reading of terms has because its simplest steps have it. -/
structure TermLaw where
  holds : {α : Type} → Step α → Prop
  pure : ∀ {α : Type} (a : α), holds (pure a)
  get : holds get
  refuse : ∀ {α : Type} (e : SyntaxError), holds (refuse e : Step α)
  note : ∀ (level : Log.Level) (module message : String), holds (note level module message)
  bind : ∀ {α β : Type} {x : Step α} {f : α → Step β}, holds x → (∀ a, holds (f a)) → holds (x >>= f)

/-- A property of steps that all reading has because its simplest steps have it. -/
structure Law extends TermLaw where
  declare : ∀ (name : Ident) (pos : Position) (visibleFrom : UInt64) (ty? : Option Ty),
    holds (modifyTable (·.declare name pos visibleFrom ty? false))
  warn : ∀ {i : Issue}, i.severity = .warning → holds (report i)
  inBlock : ∀ {α : Type} {x : Step α} (key : BlockKey), holds x → holds (inBlock key x)

namespace TermLaw

variable (law : TermLaw) (c : Context)

theorem accept (x : Except SyntaxError α) : law.holds (accept x) := by
  cases x with
  | ok a => exact law.pure a
  | error e => exact law.refuse e

theorem variableCell (id : Ident) (pos : Position) : law.holds (variableCell c id pos) := by
  unfold Resolution.variableCell
  refine law.bind law.get fun s => ?_
  simp only
  split
  · exact law.refuse _
  · split <;> exact law.pure _

theorem checkCallee (id : Ident) (pos : Position) : law.holds (checkCallee c id pos) := by
  unfold Resolution.checkCallee
  refine law.bind law.get fun s => ?_
  simp only
  split
  · exact law.refuse _
  · exact law.pure _

theorem compile (pos : Position) (cells : List Cell) : law.holds (compile pos cells) := by
  unfold Resolution.compile
  exact law.bind (law.accept _) fun _ => law.bind (law.note _ _ _) fun _ => law.pure _

theorem checkNew (id : Ident) (pos : Position) : law.holds (checkNew c id pos) := by
  unfold Resolution.checkNew
  refine law.bind law.get fun s => ?_
  simp only
  split
  · exact law.pure _
  · split <;> exact law.refuse _

/-- What the law is to hold of besides is that a warning may be reported. -/
theorem warnIfShadowing (hwarn : ∀ {i : Issue}, i.severity = .warning → law.holds (report i)) (id : Ident)
    (pos : Position) : law.holds (warnIfShadowing c id pos) := by
  unfold Resolution.warnIfShadowing
  refine law.bind law.get fun s => ?_
  split
  · split
    · exact hwarn rfl
    · exact law.pure _
  · exact law.pure _

mutual

theorem cells (ts : List Term) : law.holds (cells c ts) := by
  cases ts with
  | nil => exact law.pure _
  | cons t ts =>
    rw [Resolution.cells]
    exact law.bind (cell t) fun _ => law.bind (cells ts) fun _ => law.pure _

theorem cell (t : Term) : law.holds (cell c t) := by
  cases t with
  | const | operator | left | right => exact law.pure _
  | name id pos =>
    rw [Resolution.cell]
    exact law.variableCell c id pos
  | call id args pos =>
    rw [Resolution.cell]
    exact law.bind (law.checkCallee c id pos) fun _ => law.bind (arguments _ args) fun _ =>
      law.bind (law.accept _) fun _ => law.pure _
  | flawed e => exact law.refuse e

theorem arguments (callee : String) (args : List ArgumentOutline) : law.holds (arguments c callee args) := by
  cases args with
  | nil => exact law.pure _
  | cons arg args =>
    rw [Resolution.arguments]
    exact law.bind (argument callee arg) fun _ => law.bind (arguments callee args) fun _ => law.pure _

theorem argument (callee : String) (arg : ArgumentOutline) : law.holds (argument c callee arg) := by
  cases arg with
  | given form terms valuePos pos =>
    rw [Resolution.argument]
    exact law.bind (cells terms) fun _ => law.bind (law.compile _ _) fun _ => law.pure _
  | missing pos => exact law.refuse _

end

end TermLaw

namespace Law

variable (law : Law) (c : Context)

theorem warnIfShadowing (id : Ident) (pos : Position) : law.holds (warnIfShadowing c id pos) :=
  law.toTermLaw.warnIfShadowing c law.warn id pos

theorem declareFunction (h : FunctionHeader) : law.holds (declareFunction c h) := by
  unfold Resolution.declareFunction
  exact law.bind (law.checkNew c _ _) fun _ => law.bind (law.warnIfShadowing c _ _) fun _ =>
    law.declare _ _ _ _

theorem declareParams (h : FunctionHeader) (ps : List Param) : law.holds (declareParams c h ps) := by
  induction ps with
  | nil => exact law.pure _
  | cons p ps ih =>
    exact law.bind (law.warnIfShadowing c _ _) fun _ => law.bind (law.declare _ _ _ _) fun _ => ih

mutual

theorem expr (o : Outline) : law.holds (expr c o) := by
  cases o with
  | conditional condition thenBranch elseBranch pos =>
    rw [Resolution.expr]
    exact law.bind (expr condition) fun _ => law.bind (expr thenBranch) fun _ =>
      law.bind (expr elseBranch) fun _ => law.pure _
  | block items flaw? pos =>
    rw [Resolution.expr]
    refine law.bind (law.inBlock _ (entries items)) fun _ => ?_
    cases flaw? with
    | none => exact law.pure _
    | some e => exact law.refuse e
  | arithmetic terms pos =>
    rw [Resolution.expr]
    exact law.bind (law.cells c terms) fun _ => law.bind (law.compile _ _) fun _ => law.accept _
  | flawed e => exact law.refuse e

theorem entries (items : List EntryOutline) : law.holds (entries c items) := by
  cases items with
  | nil => exact law.pure _
  | cons item items =>
    rw [Resolution.entries]
    exact law.bind (entry item) fun _ => law.bind (entries items) fun _ => law.pure _

theorem entry (item : EntryOutline) : law.holds (entry c item) := by
  cases item with
  | operator op value guard pos =>
    cases guard with
    | none =>
      rw [Resolution.entry]
      exact law.bind (expr value) fun _ => law.pure _
    | some guard =>
      rw [Resolution.entry]
      exact law.bind (expr value) fun _ => law.bind (expr guard) fun _ => law.pure _
  | closure definition pos =>
    rw [Resolution.entry]
    exact law.bind (function definition) fun _ => law.pure _
  | flawed e => exact law.refuse e

theorem function (definition : FunctionOutline) : law.holds (function c definition) := by
  cases definition with
  | defined h body =>
    rw [Resolution.function]
    exact law.bind law.get fun _ => law.bind (law.declareFunction c h) fun _ =>
      law.bind (law.inBlock _ (law.bind (law.declareParams c h h.params) fun _ => expr body)) fun _ =>
      law.bind (law.note _ _ _) fun _ => law.pure _
  | bodiless h e =>
    rw [Resolution.function]
    exact law.bind (law.declareFunction c h) fun _ => law.refuse e
  | flawed e => exact law.refuse e

end

/-- An item has the law unless a semicolon is missing after it, which is reported as an error. -/
theorem item {o : ItemOutline} (h : ∀ definition next pos, o ≠ .function definition (some next) pos) :
    law.holds (item c o) := by
  cases o with
  | function definition unended? pos =>
    cases unended? with
    | none => exact law.bind (law.function c definition) fun _ => law.pure _
    | some next => exact absurd rfl (h definition next pos)
  | assignment name value visibleFrom pos =>
    exact law.bind (law.checkNew c name pos) fun _ => law.bind (law.expr c value) fun _ =>
      law.bind (law.declare _ _ _ _) fun _ => law.pure _
  | flawed e => exact law.refuse e

end Law

/-- A property of steps that the reading of items has too. Errors are reported between items, and where a semicolon is
missing after one. -/
structure ItemLaw extends Law where
  report : ∀ i, holds (report i)
  attempt : ∀ {α : Type} {x : Step α}, holds x → holds (attempt x)

namespace ItemLaw

variable (law : ItemLaw) (c : Context)

theorem item (o : ItemOutline) : law.holds (item c o) := by
  by_cases hended : ∃ definition next pos, o = .function definition (some next) pos
  · obtain ⟨definition, next, pos, rfl⟩ := hended
    exact law.bind (law.function c definition) fun _ => law.bind (law.report _) fun _ => law.pure _
  · exact law.toLaw.item c fun definition next pos heq => hended ⟨definition, next, pos, heq⟩

theorem items (outlines : List ItemOutline) : law.holds (items c outlines) := by
  induction outlines with
  | nil => exact law.pure _
  | cons outline outlines ih =>
    exact law.bind (law.attempt (law.item c outline)) fun _ => law.bind ih fun _ => law.pure _

theorem program (outlines : List ItemOutline) : law.holds (program c outlines) :=
  law.bind (law.items c outlines) fun _ => law.bind (law.note _ _ _) fun _ => law.pure _

end ItemLaw

/-- A step that reports no error, however it ends. -/
def Quiet (x : Step α) : Prop :=
  ∀ s, (x.run s).2.journal.errorCount = s.journal.errorCount

namespace Quiet

theorem bind {x : Step α} {f : α → Step β} (hx : Quiet x) (hf : ∀ a, Quiet (f a)) : Quiet (x >>= f) :=
  relates_bind (r := fun s s' => s'.journal.errorCount = s.journal.errorCount)
    (fun h h' => h'.trans h) hx hf

theorem inBlock {x : Step α} (key : BlockKey) (hx : Quiet x) : Quiet (inBlock key x) := by
  intro s
  rw [journal_inBlock]
  exact hx { s with table := s.table.enterBlock key }

/-- All reading is quiet: errors are reported between items only. -/
def law : Law where
  holds := Quiet
  pure _ _ := rfl
  get _ := rfl
  refuse _ _ := rfl
  declare _ _ _ _ _ := rfl
  warn h s := s.journal.errorCount_report_other (by rw [h]; decide)
  note level module message s := s.journal.errorCount_note level module message
  bind := bind
  inBlock := inBlock

end Quiet

/-- A step that takes back no issue, however it ends. -/
def Grows (x : Step α) : Prop :=
  ∀ s, s.journal.issues <+: (x.run s).2.journal.issues

namespace Grows

theorem errorCount_le {x : Step α} (h : Grows x) (s : State) :
    s.journal.errorCount ≤ (x.run s).2.journal.errorCount :=
  Journal.errorCount_le_of_prefix (h s)

theorem bind {x : Step α} {f : α → Step β} (hx : Grows x) (hf : ∀ a, Grows (f a)) :
    Grows (x >>= f) :=
  relates_bind (r := fun s s' => s.journal.issues <+: s'.journal.issues) List.IsPrefix.trans hx hf

theorem inBlock {x : Step α} (key : BlockKey) (hx : Grows x) : Grows (inBlock key x) := by
  intro s
  rw [journal_inBlock]
  exact hx { s with table := s.table.enterBlock key }

theorem attempt {x : Step α} (hx : Grows x) : Grows (attempt x) := by
  intro s
  have hinner := hx s
  unfold Resolution.attempt
  simp only [ExceptT.run_mk]
  split
  · rename_i heq
    rw [heq] at hinner
    exact hinner
  · rename_i heq
    rw [heq] at hinner
    exact hinner.trans (Journal.issues_prefix_report _ _)
  · rename_i heq
    rw [heq] at hinner
    exact hinner

def law : ItemLaw where
  holds := Grows
  pure _ _ := List.prefix_rfl
  get _ := List.prefix_rfl
  refuse _ _ := List.prefix_rfl
  declare _ _ _ _ _ := List.prefix_rfl
  warn _ _ := Journal.issues_prefix_report _ _
  note _ _ _ _ := Journal.issues_prefix_note _ _ _ _
  bind := bind
  inBlock := inBlock
  report _ _ := Journal.issues_prefix_report _ _
  attempt := attempt

end Grows

/-- An attempt that leaves no further error behind went well. -/
theorem attempt_ok {step : Step α} (hgrows : Grows step) {s s' : State} {result : Option α}
    (h : (attempt step).run s = (.ok result, s')) (herrors : s'.journal.errorCount ≤ s.journal.errorCount) :
    ∃ a, result = some a ∧ step.run s = (.ok a, s') := by
  have hinner := hgrows.errorCount_le s
  unfold attempt at h
  simp only [ExceptT.run_mk] at h
  split at h
  · rename_i a mid hstep
    cases h
    exact ⟨a, rfl, hstep⟩
  · rename_i e mid hstep
    cases h
    rw [hstep] at hinner
    rw [Journal.errorCount_report_error _ rfl] at herrors
    exact absurd (Nat.le_trans herrors hinner) (Nat.not_succ_le_self _)
  · cases h

/-- Items that are read without a further error are read one by one, and none of them is left out. -/
theorem items_cons_ok {c : Context} {outline : ItemOutline} {outlines : List ItemOutline} {s s' : State}
    {result : List Item} (h : (items c (outline :: outlines)).run s = (.ok result, s'))
    (herrors : s'.journal.errorCount ≤ s.journal.errorCount) :
    ∃ tree trees mid, result = tree :: trees ∧ (attempt (item c outline)).run s = (.ok (some tree), mid) ∧
      (item c outline).run s = (.ok tree, mid) ∧ (items c outlines).run mid = (.ok trees, s') ∧
      mid.journal.errorCount = s.journal.errorCount ∧ mid.journal.errorCount = s'.journal.errorCount := by
  rw [items] at h
  obtain ⟨first, mid, hattempt, h⟩ := run_bind_ok h
  obtain ⟨trees, s₂, hitems, h⟩ := run_bind_ok h
  cases h
  have hfirst := Grows.errorCount_le (Grows.law.attempt (Grows.law.item c outline)) s
  have hrest := Grows.errorCount_le (Grows.law.items c outlines) mid
  rw [hattempt] at hfirst
  rw [hitems] at hrest
  have hmid : mid.journal.errorCount ≤ s.journal.errorCount := Nat.le_trans hrest herrors
  obtain ⟨tree, rfl, hitem⟩ := attempt_ok (Grows.law.item c outline) hattempt hmid
  refine ⟨tree, trees, mid, rfl, hattempt, hitem, hitems, ?_, ?_⟩
  · exact Nat.le_antisymm hmid hfirst
  · exact Nat.le_antisymm hrest (Nat.le_trans herrors hfirst)

/-- The items of a program are read, and then a remark is left. -/
theorem program_ok {c : Context} {outlines : List ItemOutline} {s s' : State} {trees : List Item}
    (h : (program c outlines).run s = (.ok trees, s')) :
    ∃ mid, (items c outlines).run s = (.ok trees, mid) ∧ s'.table = mid.table ∧
      s'.journal.issues = mid.journal.issues := by
  obtain ⟨trees', mid, hitems, h⟩ := run_bind_ok h
  obtain ⟨⟨⟩, last, hnote, h⟩ := run_bind_ok h
  cases h
  cases hnote
  exact ⟨mid, hitems, rfl, Journal.issues_note _ _ _ _⟩

theorem attempt_ne_refused {step : Step α} {s s' : State} {e : SyntaxError} :
    (attempt step).run s ≠ (.error (.refused e), s') := by
  unfold attempt
  simp only [ExceptT.run_mk]
  split <;> nofun

/-- The errors of items are reported one by one, so that none of them stops the reading. -/
theorem items_ne_refused {c : Context} {outlines : List ItemOutline} {s s' : State} {e : SyntaxError} :
    (items c outlines).run s ≠ (.error (.refused e), s') := by
  induction outlines generalizing s with
  | nil => nofun
  | cons outline outlines ih =>
    rw [items, run_bind]
    rcases hfirst : (attempt (item c outline)).run s with ⟨e' | first, mid⟩
    · intro heq
      cases heq
      exact attempt_ne_refused hfirst
    · simp only
      rw [run_bind]
      rcases hrest : (items c outlines).run mid with ⟨e' | rest, last⟩
      · intro heq
        cases heq
        exact ih hrest
      · nofun

end Resolution
end ToneScript
