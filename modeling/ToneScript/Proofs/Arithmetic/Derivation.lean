import ToneScript.Proofs.Arithmetic.Conversion
import ToneScript.Proofs.Arithmetic.Reading
import ToneScript.Proofs.Syntax.Journal

/-! What has a parse tree is accepted. The names of an expression are looked up term by term, its cells are
converted to operand-first order, and the tree that is built from these is that of the expression. -/
namespace ToneScript

namespace Resolution

variable {α β : Type}

/-- Steps that end well on a symbol table and leave it alone. -/
def Gives (x : Step α) (t : SymbolTable) (a : α) : Prop :=
  ∀ s : State, s.table = t → ∃ s', x.run s = (.ok a, s') ∧ s'.table = t

namespace Gives

variable {t : SymbolTable}

theorem pure (a : α) : Gives (pure a) t a :=
  fun s hs => ⟨s, rfl, hs⟩

theorem bind {x : Step α} {f : α → Step β} {a : α} {b : β} (hx : Gives x t a) (hf : Gives (f a) t b) :
    Gives (x >>= f) t b := by
  intro s hs
  obtain ⟨mid, hrun, hmid⟩ := hx s hs
  obtain ⟨s', hrest, hs'⟩ := hf mid hmid
  refine ⟨s', ?_, hs'⟩
  rw [run_bind, hrun]
  exact hrest

theorem accept {x : Except SyntaxError α} {a : α} (h : x = .ok a) : Gives (accept x) t a := by
  rw [h]
  exact pure a

theorem note (level : Log.Level) (module message : String) : Gives (note level module message) t () :=
  fun s hs => ⟨{ s with journal := s.journal.note level module message }, rfl, hs⟩

theorem compile {pos : Position} {cells cells' : List Cell} (h : Postfix.convert cells = .ok cells') :
    Gives (compile pos cells) t ⟨cells', pos⟩ :=
  (accept h).bind ((note _ _ _).bind (pure _))

/-- Where only the table of a state is looked at, what comes of it is known. -/
theorem get_bind {f : State → Step β} {b : β} (h : ∀ s : State, s.table = t → Gives (f s) t b) :
    Gives (get >>= f) t b :=
  fun s hs => h s hs s hs

theorem variableCell (c : Context) {id : Ident} {pos : Position}
    (h : (t.lookupBefore? id pos.index).isSome = true) :
    Gives (variableCell c id pos) t (nameCell c t id pos) := by
  obtain ⟨⟨d, crossed⟩, hfound⟩ := Option.isSome_iff_exists.1 h
  refine get_bind fun s hs => ?_
  simp only [hs, hfound, nameCell, constantOf, Option.bind_some]
  cases constant? c d id <;> exact pure _

theorem checkCallee {c : Context} {id : Ident} {pos : Position}
    (h : c.anyCallee = true ∨ (t.callee? id pos.index).isSome = true) :
    Gives (checkCallee c id pos) t () := by
  refine get_bind fun s hs => ?_
  have hnot : (!c.anyCallee && (t.callee? id pos.index).isNone) = false := by
    rcases h with hany | hfound
    · rw [hany]
      rfl
    · rw [Option.isNone_eq_false_iff.2 hfound, Bool.and_false]
  simp only [hs, hnot, Bool.false_eq_true, if_false]
  exact pure ()

theorem cells_cons {c : Context} {term : Term} {terms : List Term} {cell : Cell} {cells : List Cell}
    (hterm : Gives (Resolution.cell c term) t cell) (hterms : Gives (Resolution.cells c terms) t cells) :
    Gives (Resolution.cells c (term :: terms)) t (cell :: cells) := by
  rw [Resolution.cells]
  exact hterm.bind (hterms.bind (pure _))

end Gives

end Resolution

open Resolution

section

variable (c : Resolution.Context) (t : SymbolTable)

/-- An argument with its value, in the form that it is written in. -/
def InfixArgument.written (arg : InfixArgument) : SiteArgument :=
  argumentOf arg.form ⟨arg.value.postorder c t, arg.value.pos⟩ arg.pos

theorem InfixArgument.isAssignment_written (arg : InfixArgument) :
    (arg.written c t).isAssignment = arg.isAssignment := by
  cases arg with
  | assign | opAssign => rfl
  | positional value => cases value <;> rfl

theorem InfixArgument.isSome_name?_written (arg : InfixArgument) :
    (arg.written c t).name?.isSome = arg.isNamed := by
  cases arg with
  | assign | opAssign => rfl
  | positional value => cases value <;> rfl

theorem InfixArgument.site_true (arg : InfixArgument) : arg.site c t true = arg.written c t := by
  cases arg with
  | assign | opAssign => rfl
  | positional value => cases value <;> rfl

theorem InfixArgument.site_false (arg : InfixArgument) (h : arg.isAssignment = false) :
    arg.site c t false = .positional (arg.written c t).value (arg.written c t).pos := by
  cases arg with
  | assign | opAssign => cases h
  | positional value => cases value <;> rfl

theorem InfixArguments.sites_eq_map (named : Bool) (args : InfixArguments) :
    args.sites c t named = args.toList.map (InfixArgument.site c t named) := by
  cases args with
  | none => rfl
  | last arg => rfl
  | more arg comma rest => rw [sites, sites_eq_map named rest, toList, List.map_cons]

theorem InfixArguments.callSite_written (callee : String) (id : Ident) (args : InfixArguments)
    (pos : Position) (h : args.named = true → ∀ arg ∈ args.toList, arg.isNamed = true) :
    callSite callee id (args.toList.map (InfixArgument.written c t)) pos =
      .ok ⟨id, if args.named then .named else .ordered, args.sites c t args.named, pos⟩ := by
  have hany : (args.toList.map (InfixArgument.written c t)).any SiteArgument.isAssignment = args.named := by
    rw [List.any_map, InfixArguments.named]
    exact congrArg _ (funext fun arg => arg.isAssignment_written c t)
  rw [callSite, hany, sites_eq_map]
  cases hnamed : args.named with
  | true =>
    have hnone : (args.toList.map (InfixArgument.written c t)).find? (·.name?.isNone) = .none := by
      rw [List.find?_eq_none]
      intro arg harg
      obtain ⟨arg', harg', rfl⟩ := List.mem_map.1 harg
      rw [← Option.not_isSome, InfixArgument.isSome_name?_written, h hnamed arg' harg']
      exact Bool.false_ne_true
    rw [hnone]
    have hsites : args.toList.map (InfixArgument.site c t true) = args.toList.map (InfixArgument.written c t) :=
      List.map_congr_left fun arg _ => arg.site_true c t
    rw [hsites]
    rfl
  | false =>
    have hsites : args.toList.map (InfixArgument.site c t false) =
        (args.toList.map (InfixArgument.written c t)).map fun arg => .positional arg.value arg.pos := by
      rw [List.map_map]
      refine List.map_congr_left fun arg harg => arg.site_false c t ?_
      rw [InfixArguments.named, List.any_eq_false] at hnamed
      exact Bool.eq_false_iff.2 (hnamed arg harg)
    rw [hsites]
    rfl

mutual

/-- The cells of an expression, and after it those of what follows. -/
theorem Infix.gives_cells (e : Infix) {tier : Nat} (hfits : e.Fits tier) (h : e.Resolves c t)
    {rest : List Term} {cells : List Cell} (hrest : Gives (Resolution.cells c rest) t cells) :
    Gives (Resolution.cells c (e.terms ++ rest)) t (e.cells c t ++ cells) := by
  cases e with
  | const v m => exact .cells_cons (by rw [Resolution.cell]; exact .pure _) hrest
  | name id m => exact .cells_cons (by rw [Resolution.cell]; exact .variableCell c h) hrest
  | call callee m opening args closing =>
    obtain ⟨hcallee, hargs, hnamed⟩ := h
    refine .cells_cons ?_ hrest
    rw [Resolution.cell]
    refine (Gives.checkCallee hcallee).bind ((InfixArguments.gives_written _ args hfits hargs).bind ?_)
    exact (Gives.accept (args.callSite_written c t _ callee m.pos hnamed)).bind (.pure _)
  | group opening inner closing =>
    rw [Infix.terms, Infix.cells, List.cons_append, List.cons_append, List.append_assoc, List.append_assoc]
    refine .cells_cons (by rw [Resolution.cell]; exact .pure _) ?_
    refine Infix.gives_cells inner hfits h ?_
    exact .cells_cons (by rw [Resolution.cell]; exact .pure _) hrest
  | prefixed sign m operand =>
    exact .cells_cons (by rw [Resolution.cell]; exact .pure _) (Infix.gives_cells operand hfits h hrest)
  | power left m right =>
    rw [Infix.terms, Infix.cells, List.append_assoc, List.append_assoc]
    refine Infix.gives_cells left hfits.2.1 h.1 ?_
    exact .cells_cons (by rw [Resolution.cell]; exact .pure _)
      (Infix.gives_cells right hfits.2.2 h.2 hrest)
  | binary op left m right =>
    obtain ⟨n, _, _, hleft, hright⟩ := hfits
    rw [Infix.terms, Infix.cells, List.append_assoc, List.append_assoc]
    refine Infix.gives_cells left hleft h.1 ?_
    exact .cells_cons (by rw [Resolution.cell]; exact .pure _) (Infix.gives_cells right hright h.2 hrest)

theorem InfixArgument.gives_written (callee : String) (arg : InfixArgument) (hfits : arg.Fits)
    (h : arg.Resolves c t) : Gives (Resolution.argument c callee arg.outline) t (arg.written c t) := by
  have hnil : Gives (Resolution.cells c []) t [] := by
    rw [Resolution.cells]
    exact .pure _
  cases arg with
  | positional value | assign id m equals value | opAssign id m op opMark equals value =>
    have hcells := Infix.gives_cells value hfits h hnil
    rw [List.append_nil, List.append_nil] at hcells
    rw [InfixArgument.outline, Resolution.argument]
    exact hcells.bind ((Gives.compile (value.convert_cells c t hfits)).bind (.pure _))

theorem InfixArguments.gives_written (callee : String) (args : InfixArguments) (hfits : args.Fit)
    (h : args.Resolve c t) :
    Gives (Resolution.arguments c callee args.outlines) t (args.toList.map (InfixArgument.written c t)) := by
  cases args with
  | none =>
    rw [InfixArguments.outlines, Resolution.arguments]
    exact .pure _
  | last arg =>
    rw [InfixArguments.outlines, Resolution.arguments]
    refine (InfixArgument.gives_written callee arg hfits h).bind ?_
    rw [Resolution.arguments]
    exact Gives.bind (.pure _) (.pure _)
  | more arg comma rest =>
    rw [InfixArguments.outlines, Resolution.arguments]
    exact (InfixArgument.gives_written callee arg hfits.1 h.1).bind
      ((InfixArguments.gives_written callee rest hfits.2 h.2).bind (.pure _))

end

end

/-- An expression of the grammar is converted to its postorder, and the tree that is built from this is its own. -/
theorem Infix.gives_expr (c : Resolution.Context) (t : SymbolTable) (e : Infix) (hfits : e.Fits 0)
    (hresolves : e.Resolves c t) :
    Gives (Resolution.expr c (.arithmetic e.terms e.pos)) t (.span ⟨e.postorder c t, e.pos⟩ (e.tree c t)) := by
  have hnil : Gives (Resolution.cells c []) t [] := by
    rw [Resolution.cells]
    exact .pure _
  have hcells := e.gives_cells c t hfits hresolves hnil
  rw [List.append_nil, List.append_nil] at hcells
  have htrees := e.toTrees_postorder c t hfits [] []
  rw [List.append_nil] at htrees
  rw [Resolution.expr]
  exact hcells.bind ((Gives.compile (e.convert_cells c t hfits)).bind
    (.accept (Compiled.toExpr_of_toTrees htrees e.pos)))

/-- An expression of the grammar whose names can be resolved is accepted. It is converted to its postorder, and
the tree that is built from this is its own. -/
theorem Infix.expr_tokens (c : Resolution.Context) (endPos : Position) (e : Infix) (s : Resolution.State)
    (hfits : e.Fits 0) (hresolves : e.Resolves c s.table) :
    ∃ s', (Resolution.expr c (Outline.ofTokens c.names endPos e.tokens)).run s =
      (.ok (.span ⟨e.postorder c s.table, e.pos⟩ (e.tree c s.table)), s') ∧ s'.table = s.table := by
  have hexpr := e.gives_expr c s.table hfits hresolves
  rw [e.ofTokens_tokens]
  exact hexpr s rfl

/-- A power under a minus sign, times a call whose argument is a name in parentheses. -/
def Infix.negatedPowerTimesCall : Infix :=
  let m : Mark := ⟨.start, ""⟩
  .binary .mul (.prefixed .minus m (.power (.name 0 m) m (.prefixed .minus m (.const 2 m)))) m
    (.call 1 m m (.last (.positional (.group m (.name 0 m) m))) m)

/-- A variable and a function. -/
def SymbolTable.variableAndFunction : SymbolTable :=
  (SymbolTable.declare {} 0 .start 0 (some .number) false).declare 1 .start 0 (some (.function 1)) false

theorem Infix.expr_negatedPowerTimesCall :
    ∃ s', (Resolution.expr {names := {}} (Outline.ofTokens {} .start negatedPowerTimesCall.tokens)).run
        ⟨.variableAndFunction, {}⟩ =
      (.ok (.span ⟨[.slot 0 .start, .value (.number 2) .start, .operator .neg .start, .operator .exp .start,
          .operator .neg .start, .call ⟨1, .ordered, [.positional ⟨[.slot 0 .start], .start⟩ .start], .start⟩,
          .operator .mul .start], .start⟩
        (.binary .mul (.prefixed .neg (.binary .exp (.var 0 .start) (.prefixed .neg (.number 2 .start) .start)
            .start) .start)
          (.call ⟨1, .ordered, [.positional ⟨[.slot 0 .start], .start⟩ .start], .start⟩
            [.positional (.span ⟨[.slot 0 .start], .start⟩ (.var 0 .start)) .start]) .start)), s') ∧
      s'.table = .variableAndFunction := by
  have hfits : negatedPowerTimesCall.Fits 0 :=
    ⟨4, rfl, Nat.zero_le _, ⟨trivial, trivial, trivial⟩, trivial⟩
  have hresolves : negatedPowerTimesCall.Resolves {names := {}} .variableAndFunction :=
    ⟨⟨rfl, trivial⟩, .inr rfl, rfl, nofun⟩
  exact expr_tokens {names := {}} .start negatedPowerTimesCall ⟨.variableAndFunction, {}⟩ hfits hresolves

end ToneScript
