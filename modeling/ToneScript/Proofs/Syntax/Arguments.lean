import Mathlib.Data.List.Forall2
import ToneScript.Proofs.Syntax.Rule

/-! The trees of calls and of their arguments, against the sites that they are built from. -/
namespace ToneScript

/-- Whether an argument in a tree has the form, the name and the operator of one of a call site. -/
def Argument.Matches : Argument → SiteArgument → Prop
  | .shorthand name pos, .shorthand name' _ pos' => name = name' ∧ pos = pos'
  | .assign name _ pos, .assign name' _ pos' => name = name' ∧ pos = pos'
  | .opAssign name op _ pos, .opAssign name' op' _ pos' => name = name' ∧ op = op' ∧ pos = pos'
  | .positional _ pos, .positional _ pos' => pos = pos'
  | _, _ => False

/-- The tree of an argument has its form, and the value that it writes out is the tree of that of the
argument. -/
theorem toArgument_ok {arg : SiteArgument} {tree : Argument} (h : arg.toArgument = .ok tree) :
    tree.Matches arg ∧ ∀ value, tree.value? = some value → arg.value.toExpr = .ok value := by
  cases arg with
  | shorthand name value pos =>
    cases h
    exact ⟨⟨rfl, rfl⟩, nofun⟩
  | assign name value pos | opAssign name op value pos | positional value pos =>
    rw [SiteArgument.toArgument] at h
    obtain ⟨e, hvalue, htree⟩ := bind_eq_ok.1 h
    cases htree
    refine ⟨by simp [Argument.Matches], fun _ heq => ?_⟩
    cases heq
    exact hvalue

theorem Argument.Matches.name? {tree : Argument} {arg : SiteArgument} (h : tree.Matches arg) :
    tree.name? = arg.name? := by
  cases tree <;> cases arg <;> simp_all [Argument.Matches, Argument.name?, SiteArgument.name?]

theorem toArgument_name? {arg : SiteArgument} {tree : Argument} (h : arg.toArgument = .ok tree) :
    tree.name? = arg.name? :=
  (toArgument_ok h).1.name?

theorem toArgument_shorthand {arg : SiteArgument} {name : Ident} {pos : Position}
    (h : arg.toArgument = .ok (.shorthand name pos)) : ∃ value, arg = .shorthand name value pos := by
  have hmatches := (toArgument_ok h).1
  cases arg with
  | shorthand name' value pos' =>
    obtain ⟨rfl, rfl⟩ := hmatches
    exact ⟨value, rfl⟩
  | assign | opAssign | positional => cases hmatches

/-- The trees of arguments, one for each. -/
theorem toArguments_cons {arg : SiteArgument} {args : List SiteArgument} {trees : List Argument}
    (h : SiteArgument.toArguments (arg :: args) = .ok trees) :
    ∃ tree trees', trees = tree :: trees' ∧ arg.toArgument = .ok tree ∧
      SiteArgument.toArguments args = .ok trees' := by
  rw [SiteArgument.toArguments] at h
  obtain ⟨tree, htree, h⟩ := bind_eq_ok.1 h
  obtain ⟨trees', htrees, h⟩ := bind_eq_ok.1 h
  cases h
  exact ⟨tree, trees', rfl, htree, htrees⟩

theorem toArguments_forall₂ {args : List SiteArgument} {trees : List Argument}
    (h : SiteArgument.toArguments args = .ok trees) :
    List.Forall₂ (fun tree arg => arg.toArgument = .ok tree) trees args := by
  induction args generalizing trees with
  | nil =>
    cases h
    exact .nil
  | cons arg args ih =>
    obtain ⟨tree, trees', rfl, htree, htrees⟩ := toArguments_cons h
    exact .cons htree (ih htrees)

theorem length_toArguments {args : List SiteArgument} {trees : List Argument}
    (h : SiteArgument.toArguments args = .ok trees) : trees.length = args.length :=
  (toArguments_forall₂ h).length_eq

theorem toArguments_nil {args : List SiteArgument} (h : SiteArgument.toArguments args = .ok []) :
    args = [] :=
  List.eq_nil_of_length_eq_zero (length_toArguments h).symm

theorem toArguments_eq_cons {args : List SiteArgument} {tree : Argument} {trees : List Argument}
    (h : SiteArgument.toArguments args = .ok (tree :: trees)) :
    ∃ arg args', args = arg :: args' ∧ arg.toArgument = .ok tree ∧
      SiteArgument.toArguments args' = .ok trees := by
  cases args with
  | nil => cases h
  | cons arg args =>
    obtain ⟨_, _, heq, hfirst, hrest⟩ := toArguments_cons h
    cases heq
    exact ⟨arg, args, rfl, hfirst, hrest⟩

theorem mem_toArguments {args : List SiteArgument} {trees : List Argument}
    (h : SiteArgument.toArguments args = .ok trees) {tree : Argument} (htree : tree ∈ trees) :
    ∃ arg ∈ args, arg.toArgument = .ok tree := by
  have hall := toArguments_forall₂ h
  induction hall with
  | nil => cases htree
  | cons hfirst hrest ih =>
    obtain ⟨_, _, heq, _, htrees⟩ := toArguments_cons h
    cases heq
    rcases List.mem_cons.1 htree with rfl | hmem
    · exact ⟨_, List.mem_cons_self, hfirst⟩
    · obtain ⟨arg, harg, htree'⟩ := ih htrees hmem
      exact ⟨arg, List.mem_cons_of_mem _ harg, htree'⟩

theorem exists_toArgument {args : List SiteArgument} {trees : List Argument}
    (h : SiteArgument.toArguments args = .ok trees) {arg : SiteArgument} (harg : arg ∈ args) :
    ∃ tree ∈ trees, arg.toArgument = .ok tree := by
  have hall := toArguments_forall₂ h
  clear h
  induction hall with
  | nil => cases harg
  | cons hfirst _ ih =>
    rcases List.mem_cons.1 harg with rfl | hmem
    · exact ⟨_, List.mem_cons_self, hfirst⟩
    · obtain ⟨tree, htree, heq⟩ := ih hmem
      exact ⟨tree, List.mem_cons_of_mem _ htree, heq⟩

mutual

/-- The calls in an expression, those within their arguments among them. -/
def Compiled.sites : Compiled → List CallSite
  | ⟨cells, _⟩ => Cell.sitesOfAll cells

/-- The calls in a list of cells. -/
def Cell.sitesOfAll : List Cell → List CallSite
  | [] => []
  | cell :: cells => cell.sites ++ Cell.sitesOfAll cells

/-- The calls in a cell. -/
def Cell.sites : Cell → List CallSite
  | .call site => site.sites
  | .value .. | .slot .. | .operator .. | .left _ | .right _ => []

/-- A call and the calls within its arguments. -/
def CallSite.sites : CallSite → List CallSite
  | ⟨callee, style, args, pos⟩ => ⟨callee, style, args, pos⟩ :: SiteArgument.sitesOfAll args

/-- The calls in a list of arguments. -/
def SiteArgument.sitesOfAll : List SiteArgument → List CallSite
  | [] => []
  | arg :: args => arg.sites ++ SiteArgument.sitesOfAll args

/-- The calls in an argument. -/
def SiteArgument.sites : SiteArgument → List CallSite
  | .shorthand _ value _ | .assign _ value _ | .opAssign _ _ value _ | .positional value _ => value.sites

end

section Obeys

variable {R : Rule} (p : List BlockKey)

mutual

/-- The tree of an expression obeys a rule that asks nothing of variables and is obeyed by the calls in it. -/
theorem Compiled.obeys_of_sites (hvar : ∀ name pos, R.var p name pos) (e : Compiled)
    (hcall : ∀ site ∈ e.sites, ∀ trees, SiteArgument.toArguments site.args = .ok trees → R.call p site trees)
    {tree : Expr} (h : e.toExpr = .ok tree) : tree.Obeys R p := by
  obtain ⟨cells, pos⟩ := e
  obtain ⟨tree', rfl, htrees⟩ := Compiled.toExpr_eq_ok h
  rw [Compiled.sites] at hcall
  exact Cell.obeys_toTrees htrees nofun (Cell.obey_of_sites hvar cells hcall) tree' List.mem_cons_self

theorem Cell.obey_of_sites (hvar : ∀ name pos, R.var p name pos) (cells : List Cell)
    (hcall : ∀ site ∈ Cell.sitesOfAll cells, ∀ trees,
      SiteArgument.toArguments site.args = .ok trees → R.call p site trees) :
    ∀ cell ∈ cells, cell.Obeys R p := by
  cases cells with
  | nil => exact nofun
  | cons cell rest =>
    rw [Cell.sitesOfAll, List.forall_mem_append] at hcall
    rw [List.forall_mem_cons]
    refine ⟨?_, Cell.obey_of_sites hvar rest hcall.2⟩
    cases cell with
    | call site => exact fun tree => CallSite.obeys_of_sites hvar site hcall.1
    | slot name pos => exact hvar name pos
    | value | operator | left | right => trivial

theorem CallSite.obeys_of_sites (hvar : ∀ name pos, R.var p name pos) (site : CallSite)
    (hcall : ∀ inner ∈ site.sites, ∀ trees,
      SiteArgument.toArguments inner.args = .ok trees → R.call p inner trees)
    {tree : Expr} (h : site.toExpr = .ok tree) : tree.Obeys R p := by
  obtain ⟨callee, style, args, pos⟩ := site
  obtain ⟨trees, rfl, htrees⟩ := CallSite.toExpr_eq_ok h
  rw [CallSite.sites, List.forall_mem_cons] at hcall
  exact ⟨hcall.1 trees htrees, SiteArgument.obey_of_sites hvar args hcall.2 htrees⟩

theorem SiteArgument.obey_of_sites (hvar : ∀ name pos, R.var p name pos) (args : List SiteArgument)
    (hcall : ∀ site ∈ SiteArgument.sitesOfAll args, ∀ trees,
      SiteArgument.toArguments site.args = .ok trees → R.call p site trees)
    {trees : List Argument} (h : SiteArgument.toArguments args = .ok trees) : Argument.AllObey R p trees := by
  cases args with
  | nil =>
    cases h
    trivial
  | cons arg args =>
    obtain ⟨tree, trees', rfl, htree, htrees⟩ := toArguments_cons h
    rw [SiteArgument.sitesOfAll, List.forall_mem_append] at hcall
    exact ⟨SiteArgument.obeys_of_sites hvar arg hcall.1 htree, SiteArgument.obey_of_sites hvar args hcall.2 htrees⟩

theorem SiteArgument.obeys_of_sites (hvar : ∀ name pos, R.var p name pos) (arg : SiteArgument)
    (hcall : ∀ site ∈ arg.sites, ∀ trees, SiteArgument.toArguments site.args = .ok trees → R.call p site trees)
    {tree : Argument} (h : arg.toArgument = .ok tree) : tree.Obeys R p := by
  obtain ⟨hmatches, hvalue⟩ := toArgument_ok h
  cases arg with
  | shorthand name value pos | assign name value pos | opAssign name op value pos | positional value pos =>
    rw [SiteArgument.sites] at hcall
    cases tree with
    | shorthand => trivial
    | assign _ e _ | opAssign _ _ e _ | positional e _ =>
      first | cases hmatches; done | exact Compiled.obeys_of_sites hvar value hcall (hvalue e rfl)

end

/-- A rule that asks nothing of variables, and of calls only that their arguments are those of their sites, one by
one. -/
structure Rule.Loose (R : Rule) : Prop where
  var : ∀ p name pos, R.var p name pos
  call : ∀ p site args, List.Forall₂ Argument.Matches args site.args → R.call p site args

/-- The trees of sequences obey all loose rules. -/
theorem Compiled.obeys_of_toExpr (hR : R.Loose) (e : Compiled) {tree : Expr} (h : e.toExpr = .ok tree) :
    tree.Obeys R p :=
  Compiled.obeys_of_sites p (hR.var p) e (fun _ _ _ htrees =>
    hR.call p _ _ ((toArguments_forall₂ htrees).imp fun _ _ h => (toArgument_ok h).1)) h

end Obeys

/-- Calls whose arguments are those of their sites, one by one. -/
def Rule.matching : Rule where
  call _ site args := List.Forall₂ Argument.Matches args site.args

theorem Rule.loose_matching : Rule.matching.Loose where
  var _ _ _ := trivial
  call _ _ _ hmatches := hmatches

theorem Compiled.obeys_matching (p : List BlockKey) (e : Compiled) {tree : Expr} (h : e.toExpr = .ok tree) :
    tree.Obeys .matching p :=
  obeys_of_toExpr p Rule.loose_matching e h

end ToneScript
