import ToneScript.Proofs.Scope.Placement
import ToneScript.Proofs.Syntax.Arguments
import ToneScript.Proofs.Syntax.Grammar

/-! Where functions can be defined. Blocks define functions; arithmetic expressions and the arguments of calls never do,
so that the functions of a program are those that a walk over its blocks meets. -/
namespace ToneScript

variable {l : Leniency} {P : FunctionDef → Prop}

theorem Rule.loose_defining : (Rule.defining P).Loose where
  var _ _ _ := trivial
  call _ _ _ _ := trivial

mutual

theorem Expr.Derived.defining {ts : List Token} {e : Expr} (h : Expr.Derived l ts e) (p : List BlockKey)
    (hP : ∀ f ∈ e.functions, P f) : e.Obeys (.defining P) p := by
  cases h with
  | conditional _ condition_derived _ then_derived _ else_derived =>
    rw [Expr.functions, List.forall_mem_append, List.forall_mem_append] at hP
    obtain ⟨⟨hcondition, hthen⟩, helse⟩ := hP
    exact ⟨trivial, condition_derived.defining p hcondition, then_derived.defining p hthen,
      else_derived.defining p helse⟩
  | block _ entries_derived _ => exact ⟨trivial, entries_derived.defining _ (by rwa [Expr.functions] at hP)⟩
  | arithmetic _ htree => exact Compiled.obeys_of_toExpr p Rule.loose_defining _ htree
termination_by 2 * ts.length
decreasing_by all_goals (subst_vars; simp only [List.length_append, List.length_cons]; omega)

theorem BlockEntry.AllDerived.defining {ts : List Token} {entries : List BlockEntry}
    (h : BlockEntry.AllDerived l ts entries) (p : List BlockKey)
    (hP : ∀ f ∈ BlockEntry.functionsOfAll entries, P f) : BlockEntry.AllObey (.defining P) p entries := by
  cases h with
  | nil => trivial
  | semicolon _ rest => exact rest.defining p hP
  | closure function_derived _ rest =>
    rw [BlockEntry.functionsOfAll, BlockEntry.functions, List.forall_mem_append] at hP
    exact ⟨function_derived.defining p hP.1, rest.defining p hP.2⟩
  | openClosure _ function_derived =>
    rw [BlockEntry.functionsOfAll, BlockEntry.functions, List.forall_mem_append] at hP
    exact ⟨function_derived.defining p hP.1, trivial⟩
  | operator _ value_derived _ rest =>
    rw [BlockEntry.functionsOfAll, BlockEntry.functions, List.forall_mem_append, List.forall_mem_append] at hP
    exact ⟨⟨trivial, value_derived.defining p hP.1.1, trivial⟩, rest.defining p hP.2⟩
  | guarded _ value_derived _ guard_derived _ rest =>
    rw [BlockEntry.functionsOfAll, BlockEntry.functions, List.forall_mem_append, List.forall_mem_append] at hP
    exact ⟨⟨trivial, value_derived.defining p hP.1.1, guard_derived.defining p hP.1.2⟩, rest.defining p hP.2⟩
termination_by 2 * ts.length + 1
decreasing_by all_goals (subst_vars; simp only [List.length_append, List.length_cons]; omega)

theorem FunctionDef.Derived.defining {ts : List Token} {f : FunctionDef} (h : FunctionDef.Derived l ts f)
    (p : List BlockKey) (hP : ∀ g ∈ f.functions, P g) : f.Obeys (.defining P) p := by
  cases h with
  | function _ _ _ _ body_derived =>
    rw [FunctionDef.functions, List.forall_mem_cons] at hP
    exact ⟨hP.1, body_derived.defining _ hP.2⟩
termination_by 2 * ts.length
decreasing_by all_goals (subst_vars; simp only [List.length_append, List.length_cons]; omega)

end

/-- Wherever a function is defined in a program, a walk over the blocks of the program meets it. -/
theorem Item.AllDerived.defining {ts : List Token} {items : List Item} (h : Item.AllDerived l ts items)
    (hP : ∀ f ∈ Program.functions items, P f) : Program.Obeys (.defining P) items := by
  induction h with
  | nil => exact nofun
  | semicolon _ _ ih => exact ih hP
  | function function_derived _ _ ih =>
    rw [Program.functions, List.flatMap_cons, List.forall_mem_append] at hP
    exact List.forall_mem_cons.2 ⟨function_derived.defining _ hP.1, ih hP.2⟩
  | assignment _ _ value_derived _ _ ih =>
    rw [Program.functions, List.flatMap_cons, List.forall_mem_append] at hP
    exact List.forall_mem_cons.2 ⟨⟨trivial, value_derived.defining _ hP.1⟩, ih hP.2⟩

mutual

theorem Expr.Derived.functions {ts tokens : List Token} {e : Expr} (h : Expr.Derived l ts e) (hts : ts ⊆ tokens) :
    ∀ f ∈ e.functions, ∃ us, us ⊆ tokens ∧ FunctionDef.Derived l us f := by
  cases h with
  | conditional _ condition_derived _ then_derived _ else_derived =>
    simp only [List.cons_subset, List.append_subset] at hts
    rw [Expr.functions, List.forall_mem_append, List.forall_mem_append]
    exact ⟨⟨condition_derived.functions hts.2.1, then_derived.functions hts.2.2.2.1⟩,
      else_derived.functions hts.2.2.2.2.2⟩
  | block _ entries_derived _ =>
    simp only [List.cons_subset, List.append_subset] at hts
    rw [Expr.functions]
    exact entries_derived.functions hts.2.1
  | arithmetic _ htree =>
    obtain ⟨tree, rfl, _⟩ := Compiled.toExpr_eq_ok htree
    rw [Expr.functions]
    exact nofun
termination_by 2 * ts.length
decreasing_by all_goals (subst_vars; simp only [List.length_append, List.length_cons]; omega)

theorem BlockEntry.AllDerived.functions {ts tokens : List Token} {entries : List BlockEntry}
    (h : BlockEntry.AllDerived l ts entries) (hts : ts ⊆ tokens) :
    ∀ f ∈ BlockEntry.functionsOfAll entries, ∃ us, us ⊆ tokens ∧ FunctionDef.Derived l us f := by
  cases h with
  | nil => exact nofun
  | semicolon _ rest => exact rest.functions (List.cons_subset.1 hts).2
  | closure function_derived _ rest =>
    rw [BlockEntry.functionsOfAll, BlockEntry.functions, List.forall_mem_append]
    rw [← List.cons_append, List.append_subset] at hts
    exact ⟨function_derived.functions hts.1, rest.functions (List.cons_subset.1 hts.2).2⟩
  | openClosure _ function_derived =>
    rw [BlockEntry.functionsOfAll, BlockEntry.functions, List.forall_mem_append]
    exact ⟨function_derived.functions hts, nofun⟩
  | operator _ value_derived _ rest =>
    simp only [List.cons_subset, List.append_subset] at hts
    rw [BlockEntry.functionsOfAll, BlockEntry.functions, List.forall_mem_append, List.forall_mem_append]
    exact ⟨⟨value_derived.functions hts.2.1, nofun⟩, rest.functions hts.2.2.2⟩
  | guarded _ value_derived _ guard_derived _ rest =>
    simp only [List.cons_subset, List.append_subset] at hts
    rw [BlockEntry.functionsOfAll, BlockEntry.functions, List.forall_mem_append, List.forall_mem_append]
    exact ⟨⟨value_derived.functions hts.2.1, guard_derived.functions hts.2.2.2.1⟩, rest.functions hts.2.2.2.2.2⟩
termination_by 2 * ts.length + 1
decreasing_by all_goals (subst_vars; simp only [List.length_append, List.length_cons]; omega)

theorem FunctionDef.Derived.functions {ts tokens : List Token} {f : FunctionDef} (h : FunctionDef.Derived l ts f)
    (hts : ts ⊆ tokens) : ∀ g ∈ f.functions, ∃ us, us ⊆ tokens ∧ FunctionDef.Derived l us g := by
  rw [FunctionDef.functions_eq, List.forall_mem_cons]
  refine ⟨⟨ts, hts, h⟩, ?_⟩
  cases h with
  | function _ _ _ _ body_derived =>
    simp only [List.cons_subset, List.append_subset] at hts
    exact body_derived.functions hts.2.2.2.2
termination_by 2 * ts.length
decreasing_by all_goals (subst_vars; simp only [List.length_append, List.length_cons]; omega)

end

/-- Every function of a program is made up of some of its tokens. -/
theorem Item.AllDerived.functions {ts : List Token} {items : List Item} (h : Item.AllDerived l ts items) :
    ∀ f ∈ Program.functions items, ∃ us, us ⊆ ts ∧ FunctionDef.Derived l us f := by
  suffices hall : ∀ tokens, ts ⊆ tokens →
      ∀ f ∈ Program.functions items, ∃ us, us ⊆ tokens ∧ FunctionDef.Derived l us f from
    hall ts (List.Subset.refl _)
  intro tokens hts
  induction h with
  | nil => exact nofun
  | semicolon _ _ ih => exact ih (List.cons_subset.1 hts).2
  | function function_derived _ _ ih =>
    rw [← List.cons_append, List.append_subset] at hts
    rw [Program.functions, List.flatMap_cons, List.forall_mem_append]
    exact ⟨function_derived.functions hts.1, ih hts.2⟩
  | assignment _ _ value_derived _ _ ih =>
    simp only [List.cons_subset, List.append_subset] at hts
    rw [Program.functions, List.flatMap_cons, List.forall_mem_append]
    exact ⟨value_derived.functions hts.2.2.1, ih hts.2.2.2.2⟩

/-- No function is defined in a guard. -/
def Rule.unguarded : Rule where
  entry _ _ guard? := Expr.functionsOfOption guard? = []

instance : Rule.unguarded.Checkable where
  var _ _ _ := .isTrue trivial
  call _ _ _ := .isTrue trivial
  block _ _ := .isTrue trivial
  conditional _ _ _ _ := .isTrue trivial
  entry _ _ guard? := decidable_of_iff ((Expr.functionsOfOption guard?).isEmpty = true) List.isEmpty_iff
  definition _ _ := .isTrue trivial
  assignment _ _ := .isTrue trivial

section Functions

variable {R : Rule}

mutual

theorem Expr.functions_subset {p : List BlockKey} (e : Expr) (h : e.Obeys .unguarded p) :
    e.functions ⊆ e.definitions := by
  cases e with
  | block key items pos =>
    rw [Expr.functions, Expr.definitions]
    exact BlockEntry.functionsOfAll_subset items h.2
  | conditional c t e pos =>
    obtain ⟨_, hc, ht, he⟩ := h
    have hc := Expr.functions_subset c hc
    have ht := Expr.functions_subset t ht
    have he := Expr.functions_subset e he
    intro f hf
    simp only [Expr.definitions, Expr.functions, List.mem_append] at hf ⊢
    exact hf.imp (Or.imp (hc ·) (ht ·)) (he ·)
  | number | boolean | var | prefixed | binary | call | span => simp [Expr.functions]

theorem BlockEntry.functionsOfAll_subset {p : List BlockKey} (items : List BlockEntry)
    (h : BlockEntry.AllObey .unguarded p items) :
    BlockEntry.functionsOfAll items ⊆ BlockEntry.definitionsOfAll items := by
  cases items with
  | nil => simp [BlockEntry.functionsOfAll]
  | cons item items =>
    have hitem := BlockEntry.functions_subset item h.1
    have hitems := BlockEntry.functionsOfAll_subset items h.2
    intro f hf
    simp only [BlockEntry.definitionsOfAll, BlockEntry.functionsOfAll, List.mem_append] at hf ⊢
    exact hf.imp (hitem ·) (hitems ·)

theorem BlockEntry.functions_subset {p : List BlockKey} (item : BlockEntry) (h : item.Obeys .unguarded p) :
    item.functions ⊆ item.definitions := by
  cases item with
  | operator op value guard pos =>
    obtain ⟨hguard, hvalue, _⟩ := h
    rw [BlockEntry.functions, BlockEntry.definitions, show Expr.functionsOfOption guard = [] from hguard,
      List.append_nil]
    exact Expr.functions_subset value hvalue
  | closure f pos =>
    rw [BlockEntry.functions, BlockEntry.definitions]
    exact FunctionDef.functions_subset f h

theorem FunctionDef.functions_subset {p : List BlockKey} (f : FunctionDef) (h : f.Obeys .unguarded p) :
    f.functions ⊆ f.definitions := by
  obtain ⟨name, pos, params, argsKey, scope, body⟩ := f
  rw [FunctionDef.functions, FunctionDef.definitions]
  exact List.cons_subset_cons _ (Expr.functions_subset body h.2)

end

/-- Where no function is defined in a guard, all functions are collected. -/
theorem Program.functions_subset {program : Program} (h : program.Obeys .unguarded) :
    program.functions ⊆ program.flatMap Item.definitions := by
  intro f hf
  obtain ⟨item, hitem, hf⟩ := List.mem_flatMap.1 hf
  refine List.mem_flatMap.2 ⟨item, hitem, ?_⟩
  have hobeys := h item hitem
  cases item with
  | function definition _ => exact FunctionDef.functions_subset definition hobeys hf
  | assignment _ value _ => exact Expr.functions_subset value hobeys.2 hf

mutual

theorem Expr.functions_obey {p : List BlockKey} (e : Expr) (h : e.Obeys R p) : ∀ f ∈ e.functions, ∃ q, f.Obeys R q := by
  cases e with
  | block key items pos =>
    rw [Expr.functions]
    exact BlockEntry.functions_obey_all items h.2
  | conditional c t e pos =>
    obtain ⟨_, hc, ht, he⟩ := h
    rw [Expr.functions, List.forall_mem_append, List.forall_mem_append]
    exact ⟨⟨Expr.functions_obey c hc, Expr.functions_obey t ht⟩, Expr.functions_obey e he⟩
  | number | boolean | var | prefixed | binary | call | span => simp [Expr.functions]

theorem BlockEntry.functions_obey_all {p : List BlockKey} (items : List BlockEntry) (h : BlockEntry.AllObey R p items) :
    ∀ f ∈ BlockEntry.functionsOfAll items, ∃ q, f.Obeys R q := by
  cases items with
  | nil => simp [BlockEntry.functionsOfAll]
  | cons item items =>
    rw [BlockEntry.functionsOfAll, List.forall_mem_append]
    exact ⟨BlockEntry.functions_obey item h.1, BlockEntry.functions_obey_all items h.2⟩

theorem BlockEntry.functions_obey {p : List BlockKey} (item : BlockEntry) (h : item.Obeys R p) :
    ∀ f ∈ item.functions, ∃ q, f.Obeys R q := by
  cases item with
  | operator op value guard pos =>
    obtain ⟨_, hvalue, hguard⟩ := h
    rw [BlockEntry.functions, List.forall_mem_append]
    exact ⟨Expr.functions_obey value hvalue, Expr.functions_obey_option guard hguard⟩
  | closure f pos => exact FunctionDef.functions_obey f h

theorem Expr.functions_obey_option {p : List BlockKey} (e : Option Expr) (h : Expr.OptionObeys R p e) :
    ∀ f ∈ Expr.functionsOfOption e, ∃ q, f.Obeys R q := by
  cases e with
  | none => simp [Expr.functionsOfOption]
  | some e => exact Expr.functions_obey e h

theorem FunctionDef.functions_obey {p : List BlockKey} (f : FunctionDef) (h : f.Obeys R p) :
    ∀ g ∈ f.functions, ∃ q, g.Obeys R q := by
  obtain ⟨name, pos, params, argsKey, scope, body⟩ := f
  rw [FunctionDef.functions, List.forall_mem_cons]
  exact ⟨⟨p, h⟩, Expr.functions_obey body h.2⟩

end

/-- All functions of a program obey what the program does, in the places where they are defined. -/
theorem Program.functions_obey {program : Program} (h : program.Obeys R) :
    ∀ f ∈ program.functions, ∃ q, f.Obeys R q := by
  intro f hf
  obtain ⟨item, hitem, hf⟩ := List.mem_flatMap.1 hf
  have hobeys := h item hitem
  cases item with
  | function definition _ => exact FunctionDef.functions_obey definition hobeys f hf
  | assignment _ value _ => exact Expr.functions_obey value hobeys.2 f hf

theorem Program.bodies_obey {program : Program} (h : program.Obeys R) :
    ∀ f ∈ program.functions, f.body.Obeys R f.inside := by
  intro f hf
  obtain ⟨q, hobeys⟩ := Program.functions_obey h f hf
  exact (FunctionDef.obeys_iff.1 hobeys).2

end Functions

/-- Whether every function that is defined in a program is one of those that are collected from it. -/
def Program.Collects (program : Program) : Prop :=
  ∀ P : FunctionDef → Prop, (∀ f ∈ program.flatMap Item.definitions, P f) → program.Obeys (.defining P)

/-- All functions are collected of a program that is read without an error and defines none in a guard. -/
theorem Item.AllDerived.collects {ts : List Token} {program : Program} (h : Item.AllDerived l ts program)
    (hguards : program.Obeys .unguarded) : program.Collects :=
  fun _ hP => h.defining fun f hf => hP f (Program.functions_subset hguards hf)

end ToneScript
