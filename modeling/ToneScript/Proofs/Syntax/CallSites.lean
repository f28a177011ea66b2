import ToneScript.Outline.OfTokens
import ToneScript.Proofs.Syntax.Arguments
import ToneScript.Proofs.Syntax.Balance
import ToneScript.Proofs.Syntax.Inversion
import ToneScript.Proofs.Syntax.Postfix

/-! Call sites as they are made. The arguments of a call are all given by name or all in order, and each has
the parts that whoever goes through them takes for granted. -/
namespace ToneScript

/-- The four forms of an argument. -/
inductive ArgumentKind where
  | shorthand | assign | opAssign | positional
deriving DecidableEq, Repr

/-- What an argument may have besides its form. -/
inductive ArgumentPart where
  | name | operator | value
deriving DecidableEq, Repr

namespace SiteArgument

/-- The form of an argument. -/
def kind : SiteArgument → ArgumentKind
  | shorthand .. => .shorthand
  | assign .. => .assign
  | opAssign .. => .opAssign
  | positional .. => .positional

/-- The parts that an argument has. -/
def parts : SiteArgument → List ArgumentPart
  | shorthand .. | assign .. => [.name, .value]
  | opAssign .. => [.name, .operator, .value]
  | positional .. => [.value]

/-- The parts that the tree of an argument is built from. The tree of a name alone has no value. -/
def converted (arg : SiteArgument) : List ArgumentPart :=
  match arg.kind with
  | .shorthand => [.name]
  | .assign => [.name, .value]
  | .opAssign => [.name, .operator, .value]
  | .positional => [.value]

/-- The parts that are used when an argument of a call in a style is bound to a parameter. Where a default is
updated and missing, its name is told. -/
def bound (style : CallStyle) (arg : SiteArgument) : List ArgumentPart :=
  (if style = .named then [.name] else []) ++ (.value :: if arg.kind = .opAssign then [.operator, .name] else [])

theorem name_mem_parts {arg : SiteArgument} : ArgumentPart.name ∈ arg.parts ↔ arg.name?.isSome = true := by
  cases arg <;> simp [parts, name?]

theorem value_mem_parts (arg : SiteArgument) : ArgumentPart.value ∈ arg.parts := by
  cases arg <;> simp [parts]

theorem operator_mem_parts {arg : SiteArgument} : ArgumentPart.operator ∈ arg.parts ↔ arg.kind = .opAssign := by
  cases arg <;> simp [parts, kind]

theorem kind_positional {arg : SiteArgument} : arg.kind = .positional ↔ arg.name? = none := by
  cases arg <;> simp [kind, name?]

theorem isAssignment_iff {arg : SiteArgument} :
    arg.isAssignment = true ↔ arg.kind = .assign ∨ arg.kind = .opAssign := by
  cases arg <;> simp [isAssignment, kind]

end SiteArgument

/-- The parts that the tree of an argument has. -/
def Argument.parts : Argument → List ArgumentPart
  | .shorthand .. => [.name]
  | .assign .. => [.name, .value]
  | .opAssign .. => [.name, .operator, .value]
  | .positional .. => [.value]

/-- The part that the check of a call in a style needs of each of its arguments. -/
def CallStyle.checked : CallStyle → ArgumentPart
  | .named => .name
  | .ordered => .value

/-- A call whose arguments are as its style says, and have all parts that its conversion to a tree, the check
of that and the binding of the arguments use. -/
structure CallSite.Regular (site : CallSite) : Prop where
  named_iff : site.style = .named ↔ ∃ arg ∈ site.args, arg.kind = .assign ∨ arg.kind = .opAssign
  named : site.style = .named → ∀ arg ∈ site.args, .name ∈ arg.parts ∧ arg.kind ≠ .positional
  ordered : site.style = .ordered → ∀ arg ∈ site.args, .name ∉ arg.parts ∧ arg.kind = .positional
  operator : ∀ arg ∈ site.args, .operator ∈ arg.parts ↔ arg.kind = .opAssign
  value : ∀ arg ∈ site.args, .value ∈ arg.parts
  converted : ∀ arg ∈ site.args, arg.converted ⊆ arg.parts
  bound : ∀ arg ∈ site.args, arg.bound site.style ⊆ arg.parts
  checked : ∀ trees, SiteArgument.toArguments site.args = .ok trees →
    ∀ tree ∈ trees, site.style.checked ∈ tree.parts

/-- A call is regular if its arguments are as its style says; the parts that are used follow from that. -/
theorem CallSite.Regular.of_style {site : CallSite}
    (hnamed : site.style = .named ↔ ∃ arg ∈ site.args, arg.isAssignment = true)
    (hname : ∀ arg ∈ site.args, arg.name? = none ↔ site.style = .ordered) : site.Regular where
  named_iff := by simpa only [SiteArgument.isAssignment_iff] using hnamed
  named hstyle arg harg := by
    have hsome : arg.name? ≠ none := fun hnone => by
      cases hstyle.symm.trans ((hname arg harg).1 hnone)
    exact ⟨SiteArgument.name_mem_parts.2 (Option.isSome_iff_ne_none.2 hsome),
      fun hkind => hsome (SiteArgument.kind_positional.1 hkind)⟩
  ordered hstyle arg harg := by
    have hnone := (hname arg harg).2 hstyle
    refine ⟨fun hmem => ?_, SiteArgument.kind_positional.2 hnone⟩
    have hsome := SiteArgument.name_mem_parts.1 hmem
    rw [hnone] at hsome
    cases hsome
  operator _ _ := SiteArgument.operator_mem_parts
  value arg _ := arg.value_mem_parts
  converted arg _ := by
    cases arg <;> simp [SiteArgument.converted, SiteArgument.kind, SiteArgument.parts]
  bound arg harg := by
    have hstyle : site.style = .named → ArgumentPart.name ∈ arg.parts := fun hstyle => by
      refine SiteArgument.name_mem_parts.2 (Option.isSome_iff_ne_none.2 fun hnone => ?_)
      cases hstyle.symm.trans ((hname arg harg).1 hnone)
    rw [SiteArgument.bound, List.append_subset, List.cons_subset]
    refine ⟨?_, arg.value_mem_parts, ?_⟩
    · split
      · exact List.cons_subset.2 ⟨hstyle ‹_›, List.nil_subset _⟩
      · exact List.nil_subset _
    · cases arg <;> simp [SiteArgument.kind, SiteArgument.parts]
  checked trees htrees tree htree := by
    obtain ⟨arg, harg, htoArgument⟩ := mem_toArguments htrees htree
    have hmatches := (toArgument_ok htoArgument).1
    have hiff := hname arg harg
    cases hstyle : site.style <;> cases tree <;> cases arg <;>
      simp_all [CallStyle.checked, Argument.parts, Argument.Matches, SiteArgument.name?]

theorem SiteArgument.sitesOfAll_positional (args : List SiteArgument) :
    SiteArgument.sitesOfAll (args.map fun arg => .positional arg.value arg.pos) = SiteArgument.sitesOfAll args := by
  induction args with
  | nil => rfl
  | cons arg args ih =>
    rw [List.map_cons, SiteArgument.sitesOfAll, SiteArgument.sitesOfAll, ih]
    cases arg <;> rfl

theorem Cell.mem_sitesOfAll {cells : List Cell} {site : CallSite} :
    site ∈ Cell.sitesOfAll cells ↔ ∃ cell ∈ cells, site ∈ cell.sites := by
  induction cells with
  | nil => simp [Cell.sitesOfAll]
  | cons cell cells ih => simp [Cell.sitesOfAll, ih]

/-- A call that is regular, as are all calls within its arguments. -/
def CallSite.AllRegular (site : CallSite) : Prop :=
  ∀ inner ∈ site.sites, inner.Regular

/-- A call that is made of arguments is regular, and the calls within it are those within the arguments. -/
theorem CallSite.Regular.of_callSite {callee : String} {id : Ident} {args : List SiteArgument} {pos : Position}
    {site : CallSite} (h : Resolution.callSite callee id args pos = .ok site) :
    site.Regular ∧ site.sites = site :: SiteArgument.sitesOfAll args := by
  rw [Resolution.callSite] at h
  split at h
  · rename_i hassigned
    split at h
    · cases h
    · rename_i hfind
      cases h
      refine ⟨.of_style ⟨fun _ => List.any_eq_true.1 hassigned, fun _ => rfl⟩ fun arg harg => ?_, rfl⟩
      have hsome := List.find?_eq_none.1 hfind arg harg
      exact ⟨fun hnone => absurd (by rw [hnone]; rfl) hsome, nofun⟩
  · cases h
    refine ⟨.of_style ⟨nofun, ?_⟩ ?_, ?_⟩
    · rintro ⟨arg, harg, hassigned⟩
      obtain ⟨arg, -, rfl⟩ := List.mem_map.1 harg
      cases hassigned
    · intro arg harg
      obtain ⟨arg, -, rfl⟩ := List.mem_map.1 harg
      exact ⟨fun _ => rfl, fun _ => rfl⟩
    · rw [CallSite.sites, SiteArgument.sitesOfAll_positional]

theorem CallSite.mem_sites (site : CallSite) : site ∈ site.sites := by
  obtain ⟨callee, style, args, pos⟩ := site
  exact List.mem_cons_self

/-- If all calls within the arguments are regular, so are all calls within the call that is made of them. -/
theorem CallSite.allRegular_of_callSite {callee : String} {id : Ident} {args : List SiteArgument} {pos : Position}
    {site : CallSite} (h : Resolution.callSite callee id args pos = .ok site)
    (hargs : ∀ inner ∈ SiteArgument.sitesOfAll args, inner.AllRegular) :
    ∀ inner ∈ site.sites, inner.AllRegular := by
  obtain ⟨hregular, hsites⟩ := CallSite.Regular.of_callSite h
  have hself : site.AllRegular := by
    rw [CallSite.AllRegular, hsites, List.forall_mem_cons]
    exact ⟨hregular, fun inner hinner => hargs inner hinner inner inner.mem_sites⟩
  rw [hsites]
  exact List.forall_mem_cons.2 ⟨hself, hargs⟩

namespace Resolution

theorem compile_returns (pos : Position) {cells : List Cell} (h : ∀ site ∈ Cell.sitesOfAll cells, site.AllRegular) :
    Returns (fun compiled => ∀ site ∈ compiled.sites, site.AllRegular) (compile pos cells) := by
  intro s compiled s' hrun
  obtain ⟨sequence, rfl, hconvert, _⟩ := compile_ok hrun
  intro site hsite
  rw [Compiled.sites] at hsite
  obtain ⟨cell, hcell, hsite⟩ := Cell.mem_sitesOfAll.1 hsite
  exact h site (Cell.mem_sitesOfAll.2 ⟨cell, Postfix.mem_convert hconvert hcell, hsite⟩)

theorem variableCell_returns (c : Context) (id : Ident) (pos : Position) :
    Returns (fun cell => ∀ site ∈ cell.sites, site.AllRegular) (variableCell c id pos) := by
  unfold variableCell
  refine .bind_any fun s => ?_
  simp only
  split
  · exact .refuse _
  · split <;> exact .pure (List.forall_mem_nil _)

variable (c : Context)

mutual

theorem cells_return (ts : List Term) :
    Returns (fun cells => ∀ site ∈ Cell.sitesOfAll cells, site.AllRegular) (cells c ts) := by
  cases ts with
  | nil => exact .pure nofun
  | cons t ts =>
    rw [cells]
    exact (cell_returns t).bind fun _ hcell => (cells_return ts).bind fun _ hcells =>
      .pure (List.forall_mem_append.2 ⟨hcell, hcells⟩)

/-- Every call that is made is regular, and so are the calls within it. -/
theorem cell_returns (t : Term) :
    Returns (fun cell => ∀ site ∈ cell.sites, site.AllRegular) (cell c t) := by
  cases t with
  | const | operator | left | right => exact .pure nofun
  | name id pos =>
    rw [cell]
    exact variableCell_returns c id pos
  | call id args pos =>
    rw [cell]
    refine .bind_any fun _ => (arguments_return _ args).bind fun args' hargs => ?_
    exact (Returns.accept fun _ hsite => CallSite.allRegular_of_callSite hsite hargs).bind fun _ hsites => .pure hsites
  | flawed e => exact .refuse e

theorem arguments_return (callee : String) (args : List ArgumentOutline) :
    Returns (fun args => ∀ site ∈ SiteArgument.sitesOfAll args, site.AllRegular) (arguments c callee args) := by
  cases args with
  | nil => exact .pure nofun
  | cons arg args =>
    rw [arguments]
    exact (argument_returns callee arg).bind fun _ harg => (arguments_return callee args).bind fun _ hargs =>
      .pure (List.forall_mem_append.2 ⟨harg, hargs⟩)

theorem argument_returns (callee : String) (arg : ArgumentOutline) :
    Returns (fun arg => ∀ site ∈ arg.sites, site.AllRegular) (argument c callee arg) := by
  cases arg with
  | given form terms valuePos pos =>
    rw [argument]
    refine (cells_return terms).bind fun _ hcells => (compile_returns valuePos hcells).bind fun _ hvalue => .pure ?_
    cases form <;> exact hvalue
  | missing pos => exact .refuse _

end

/-- A rule that calls obey where all calls within them are regular and the trees are those of their arguments. -/
def regularCalls : Rule where
  call _ site trees := site.AllRegular ∧ SiteArgument.toArguments site.args = .ok trees

mutual

theorem expr_returns (o : Outline) : Returns (fun e => ∀ p, e.Obeys regularCalls p) (expr c o) := by
  cases o with
  | conditional condition thenBranch elseBranch pos =>
    rw [expr]
    exact (expr_returns condition).bind fun _ hcondition => (expr_returns thenBranch).bind fun _ hthen =>
      (expr_returns elseBranch).bind fun _ helse => .pure fun p => ⟨trivial, hcondition p, hthen p, helse p⟩
  | block items flaw? pos =>
    rw [expr]
    refine ((entries_return items).inBlock pos.index).bind fun _ hentries => ?_
    cases flaw? with
    | none => exact .pure fun p => ⟨trivial, hentries _⟩
    | some e => exact .refuse e
  | arithmetic terms pos =>
    rw [expr]
    refine (cells_return c terms).bind fun _ hcells => (compile_returns pos hcells).bind fun compiled hsites => ?_
    exact .accept fun tree htree p => compiled.obeys_of_sites (R := regularCalls) p (fun _ _ => trivial)
      (fun site hsite _ htrees => ⟨hsites site hsite, htrees⟩) htree
  | flawed e => exact .refuse e

theorem entries_return (items : List EntryOutline) :
    Returns (fun trees => ∀ p, BlockEntry.AllObey regularCalls p trees) (entries c items) := by
  cases items with
  | nil => exact .pure fun _ => trivial
  | cons item items =>
    rw [entries]
    exact (entry_returns item).bind fun _ hentry => (entries_return items).bind fun _ hentries =>
      .pure fun p => ⟨hentry p, hentries p⟩

theorem entry_returns (item : EntryOutline) : Returns (fun tree => ∀ p, tree.Obeys regularCalls p) (entry c item) := by
  cases item with
  | operator op value guard pos =>
    cases guard with
    | none =>
      rw [entry]
      exact (expr_returns value).bind fun _ hvalue => .pure fun p => ⟨trivial, hvalue p, trivial⟩
    | some guard =>
      rw [entry]
      exact (expr_returns value).bind fun _ hvalue => (expr_returns guard).bind fun _ hguard =>
        .pure fun p => ⟨trivial, hvalue p, hguard p⟩
  | closure definition pos =>
    rw [entry]
    exact (function_returns definition).bind fun _ hf => .pure hf
  | flawed e => exact .refuse e

theorem function_returns (definition : FunctionOutline) :
    Returns (fun f => ∀ p, f.Obeys regularCalls p) (function c definition) := by
  cases definition with
  | defined h body =>
    rw [function]
    refine .bind_any fun _ => .bind_any fun _ => ?_
    refine (Returns.inBlock _ (.bind_any fun _ => expr_returns body)).bind fun _ hbody => .bind_any fun _ => ?_
    exact .pure fun p => ⟨trivial, hbody _⟩
  | bodiless h e =>
    rw [function]
    exact .bind_any fun _ => .refuse e
  | flawed e => exact .refuse e

end

theorem item_returns (o : ItemOutline) : Returns (fun tree => tree.Obeys regularCalls) (item c o) := by
  cases o with
  | function definition unended? pos =>
    rw [item]
    refine (function_returns c definition).bind fun _ hf => ?_
    cases unended? with
    | none => exact .pure (hf _)
    | some next => exact .bind_any fun _ => .pure (hf _)
  | assignment name value visibleFrom pos =>
    rw [item]
    exact .bind_any fun _ => (expr_returns c value).bind fun _ hvalue => .bind_any fun _ => .pure ⟨trivial, hvalue _⟩
  | flawed e => exact .refuse e

theorem items_return (outlines : List ItemOutline) :
    Returns (fun trees : Program => trees.Obeys regularCalls) (items c outlines) := by
  induction outlines with
  | nil => exact .pure nofun
  | cons outline outlines ih =>
    rw [items]
    exact (item_returns c outline).attempt.bind fun _ hfirst => ih.bind fun _ hrest => .pure
      (List.forall_mem_append.2 ⟨fun tree htree => hfirst tree (Option.mem_toList.1 htree), hrest⟩)

/-- Every call that is made of a source is regular with all calls within its arguments, whatever becomes of the
item that it stands in. Of every source, with or without errors, a program is read in which all calls are so, and in
which the trees of the arguments of a call are those of its site. -/
theorem calls_regular (c : Context) :
    (∀ id args pos s cell s', (Resolution.cell c (.call id args pos)).run s = (.ok cell, s') →
      ∃ site, cell = .call site ∧ site.AllRegular) ∧
    ∀ outlines s, ∃ program s', (Resolution.program c outlines).run s = (.ok program, s') ∧
      program.Obeys regularCalls := by
  constructor
  · intro id args pos s cell s' hrun
    have hsites := cell_returns c (.call id args pos) s cell s' hrun
    rw [Resolution.cell] at hrun
    obtain ⟨_, _, -, hrun⟩ := run_bind_ok hrun
    obtain ⟨_, _, -, hrun⟩ := run_bind_ok hrun
    obtain ⟨site, _, -, hrun⟩ := run_bind_ok hrun
    cases hrun
    exact ⟨site, rfl, hsites site site.mem_sites⟩
  · intro outlines s
    obtain ⟨trees, mid, hitems⟩ := exists_items c outlines s
    exact ⟨trees, _, run_bind_eq hitems rfl, items_return c outlines s trees mid hitems⟩

/-- Arguments by name, one of them with a call that has arguments in order: `a = 2 * g(1, 2), b *= 3`. -/
def nestedArguments : List ArgumentOutline :=
  let inner := [1, 2].map fun x => ArgumentOutline.given .positional [.const x .start] .start .start
  [.given (.assign 1) [.const 2 .start, .operator .mul .start, .call 3 inner .start] .start .start,
    .given (.opAssign 2 .mul) [.const 3 .start] .start .start]

/-- The reading of a call with `nestedArguments`, where every name may be called. -/
def nestedReading : Step Cell :=
  cell { names := {}, anyCallee := true } (.call 0 nestedArguments .start)

theorem calls_regular_nestedArguments :
    ∃ site s', nestedReading.run ⟨{}, {}⟩ = (.ok (.call site), s') ∧
      site.sites.map CallSite.style = [.named, .ordered] ∧ site.AllRegular := by
  have hstyles : ((nestedReading.run ⟨{}, {}⟩).1.toOption.map fun made => made.sites.map CallSite.style) =
      some [.named, .ordered] := by
    decide +kernel
  generalize hrun : nestedReading.run ⟨{}, {}⟩ = r at hstyles
  obtain ⟨_ | made, s'⟩ := r
  · cases hstyles
  · obtain ⟨site, rfl, hregular⟩ := (calls_regular _).1 0 nestedArguments .start _ made s' hrun
    exact ⟨site, s', rfl, Option.some.inj hstyles, hregular⟩

end Resolution

end ToneScript
