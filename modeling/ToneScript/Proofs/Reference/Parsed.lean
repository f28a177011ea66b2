import ToneScript.Proofs.Syntax.Resolution

/-! The names that are looked up while a source is read. The table is filled at the same time, and yet every
lookup finds what the finished table has for it. -/
namespace ToneScript

/-- A name that is looked up at a position, in a chain of blocks with the innermost first, and the declaration
that is found. -/
structure Lookup where
  scope : List BlockKey
  name : Ident
  pos : Position
  found? : Option Declaration
deriving DecidableEq, Repr

namespace SymbolTable

/-- The lookup of a name in the current frame. -/
def nameLookup (t : SymbolTable) (name : Ident) (pos : Position) : Lookup :=
  ⟨t.frame, name, pos, (t.lookupBefore? name pos.index).map Prod.fst⟩

/-- The lookup of a function in the current frame. -/
def calleeLookup (t : SymbolTable) (name : Ident) (pos : Position) : Lookup :=
  ⟨t.frame, name, pos, t.callee? name pos.index⟩

end SymbolTable

/-- Whether a lookup has found what a table has for it: the declaration of the same name in the same block. -/
def Lookup.SettledIn (v : Lookup) (t : SymbolTable) : Prop :=
  ∃ d d' crossed, v.found? = some d ∧ t.resolve v.scope v.name v.pos = some (d', crossed) ∧
    d'.block = d.block ∧ d'.name = d.name

/-- What holds of the uses of names in a program where names are looked up, and of its functions. -/
def Rule.lookedUp (lookups : List Lookup) (known : List FunctionDef) : Rule where
  var p name pos := ∃ found?, ⟨p, name, pos, found?⟩ ∈ lookups
  call p site args := (∃ found?, ⟨p, site.callee, site.pos, found?⟩ ∈ lookups) ∧
    ∀ name pos, .shorthand name pos ∈ args → ∃ found?, ⟨p, name, pos, found?⟩ ∈ lookups
  definition _ f := f ∈ known

namespace Resolution

variable {α : Type}

/-- The lookups of what comes after a step, if the step goes well. -/
def following (x : Step α) (rest : State → List Lookup) (s : State) : List Lookup :=
  match x.run s with
  | (.ok _, s') => rest s'
  | (.error _, _) => []

theorem following_eq {x : Step α} {s s' : State} {a : α} (h : x.run s = (.ok a, s'))
    (rest : State → List Lookup) : following x rest s = rest s' := by
  rw [following, h]

section Lookups

variable (c : Context)

mutual

/-- The lookups in the cells of an expression. -/
def cellsLookups : List Term → State → List Lookup
  | [], _ => []
  | t :: ts, s => cellLookups t s ++ following (cell c t) (cellsLookups ts) s

/-- The lookups in the cell of a term. -/
def cellLookups : Term → State → List Lookup
  | .name id pos, s => [s.table.nameLookup id pos]
  | .call id args pos, s =>
    (if c.anyCallee then [] else [s.table.calleeLookup id pos]) ++
      following (checkCallee c id pos) (argumentsLookups (c.names.name id) args) s
  | .const .., _ | .operator .., _ | .left _, _ | .right _, _ | .flawed _, _ => []

/-- The lookups in the arguments of a call. -/
def argumentsLookups (callee : String) : List ArgumentOutline → State → List Lookup
  | [], _ => []
  | item :: items, s =>
    argumentLookups item s ++ following (argument c callee item) (argumentsLookups callee items) s

/-- The lookups in an argument. -/
def argumentLookups : ArgumentOutline → State → List Lookup
  | .given _ terms _ _, s => cellsLookups terms s
  | .missing _, _ => []

end

mutual

/-- The lookups in an expression. -/
def exprLookups : Outline → State → List Lookup
  | .conditional condition thenBranch elseBranch _, s =>
    exprLookups condition s ++ following (expr c condition) (fun s =>
      exprLookups thenBranch s ++ following (expr c thenBranch) (exprLookups elseBranch) s) s
  | .block items _ pos, s => entriesLookups items { s with table := s.table.enterBlock pos.index }
  | .arithmetic terms _, s => cellsLookups c terms s
  | .flawed _, _ => []

/-- The lookups in the entries of a block. -/
def entriesLookups : List EntryOutline → State → List Lookup
  | [], _ => []
  | item :: items, s => entryLookups item s ++ following (entry c item) (entriesLookups items) s

/-- The lookups in an entry of a block. -/
def entryLookups : EntryOutline → State → List Lookup
  | .operator _ value none _, s => exprLookups value s
  | .operator _ value (some guard) _, s =>
    exprLookups value s ++ following (expr c value) (exprLookups guard) s
  | .closure definition _, s => functionLookups definition s
  | .flawed _, _ => []

/-- The lookups in the body of a function. -/
def functionLookups : FunctionOutline → State → List Lookup
  | .defined h body, s => following (declareFunction c h) (fun s =>
      following (declareParams c h h.params) (exprLookups body)
        { s with table := s.table.enterBlock h.opening.index }) s
  | .bodiless .., _ | .flawed _, _ => []

end

/-- The lookups in an item. -/
def itemLookups : ItemOutline → State → List Lookup
  | .function definition _ _, s => functionLookups c definition s
  | .assignment name value _ pos, s => following (checkNew c name pos) (exprLookups c value) s
  | .flawed _, _ => []

/-- The lookups in items, also in those that have errors. -/
def itemsLookups : List ItemOutline → State → List Lookup
  | [], _ => []
  | outline :: outlines, s =>
    itemLookups c outline s ++ following (attempt (item c outline)) (itemsLookups outlines) s

end Lookups
end Resolution

namespace SymbolTable

variable {hi : Nat} {t T : SymbolTable} {name : Ident} {pos : Position} {d : Declaration}

theorem nameLookup_settled {crossed : Nat} (h : t.lookupBefore? name pos.index = some (d, crossed))
    (hpos : pos.index.toNat < hi) (hT : Later hi t T) : (t.nameLookup name pos).SettledIn T := by
  have hfound : (t.nameLookup name pos).found? = some d := by rw [nameLookup, h, Option.map_some]
  rw [lookupBefore?_eq_resolve rfl] at h
  rcases hT.resolve_eq t.frame name hpos with ⟨hnone, _⟩ | ⟨d₀, d', n, hd₀, hd', hbecomes⟩
  · rw [hnone] at h
    cases h
  · rw [hd₀] at h
    cases h
    exact ⟨d, d', crossed, hfound, hd', hbecomes.block_eq, hbecomes.name_eq⟩

theorem calleeLookup_settled (h : t.callee? name pos.index = some d) (hpos : pos.index.toNat < hi)
    (hT : Later hi t T) : (t.calleeLookup name pos).SettledIn T := by
  obtain ⟨hmap, _⟩ := Option.filter_eq_some_iff.1 h
  obtain ⟨⟨d₀, crossed⟩, hlookup, heq⟩ := Option.map_eq_some_iff.1 hmap
  cases heq
  obtain ⟨d₁, d', n, hfound, hd', hsame⟩ := nameLookup_settled hlookup hpos hT
  rw [nameLookup, hlookup] at hfound
  cases hfound
  exact ⟨d₀, d', n, h, hd', hsame⟩

end SymbolTable

/-- Lookups that have found what every table has that comes after a given one at an offset. -/
def Settled (hi : Nat) (t : SymbolTable) (lookups : List Lookup) : Prop :=
  ∀ T, SymbolTable.Later hi t T → ∀ v ∈ lookups, v.SettledIn T

namespace Settled

variable {hi : Nat} {t t' : SymbolTable} {lookups lookups' : List Lookup}

theorem nil : Settled hi t [] :=
  fun _ _ => nofun

theorem append (h : Settled hi t lookups) (h' : Settled hi t lookups') : Settled hi t (lookups ++ lookups') :=
  fun T hT => List.forall_mem_append.2 ⟨h T hT, h' T hT⟩

/-- What is settled stays so when the table grows. -/
theorem later {mid : Nat} (h : Settled mid t lookups) (ht : SymbolTable.Later mid t t') (hle : mid ≤ hi) :
    Settled hi t' lookups :=
  fun T hT => h T (ht.trans (hT.weaken hle))

end Settled

namespace Resolution

open SymbolTable

variable {c : Context} {constants : List (Ident × Value)} {scope : List BlockKey} {lo hi : Nat}

/-- Whether the names in an argument are looked up. -/
def Referred (lookups : List Lookup) (known : List FunctionDef) (scope : List BlockKey)
    (arg : SiteArgument) : Prop :=
  (∀ tree, arg.value.toExpr = .ok tree → tree.Obeys (.lookedUp lookups known) scope) ∧
    ∀ name value pos, arg = .shorthand name value pos → ∃ found?, ⟨scope, name, pos, found?⟩ ∈ lookups

theorem lookedUp_callSite {lookups : List Lookup} {known : List FunctionDef} {callee : String} {id : Ident}
    {args : List SiteArgument} {pos : Position} {site : CallSite}
    (h : callSite callee id args pos = .ok site) (hcallee : ∃ found?, ⟨scope, id, pos, found?⟩ ∈ lookups)
    (hargs : ∀ arg ∈ args, Referred lookups known scope arg) :
    (Cell.call site).Obeys (.lookedUp lookups known) scope := by
  intro tree htree
  obtain ⟨rfl, rfl, _, hgiven⟩ := callSite_ok h
  obtain ⟨trees, rfl, htrees⟩ := CallSite.toExpr_eq_ok htree
  refine ⟨⟨hcallee, fun name pos hmem => ?_⟩, allObey_toArguments htrees fun arg harg => ?_⟩
  · obtain ⟨arg, harg, hshorthand⟩ := mem_toArguments htrees hmem
    obtain ⟨value, rfl⟩ := toArgument_shorthand hshorthand
    obtain ⟨given, hmem', _, hsame⟩ := hgiven _ harg
    cases hsame name value pos rfl
    exact (hargs _ hmem').2 name value pos rfl
  · obtain ⟨given, hmem, hvalue, _⟩ := hgiven arg harg
    rw [← hvalue]
    exact (hargs given hmem).1

mutual

/-- The names in arithmetic expressions are looked up, and what is found is settled. -/
theorem cells_lookups (hconstants : c.constants? = some constants) (hcallee : c.anyCallee = false)
    (ts : List Term) (hts : Term.AllWithin lo hi ts) {s s' : State} {result : List Cell}
    (hframe : s.table.frame = scope) (h : (cells c ts).run s = (.ok result, s')) :
    Settled hi s.table (cellsLookups c ts s) ∧ ∀ lookups known, cellsLookups c ts s ⊆ lookups →
      ∀ cell ∈ result, cell.Obeys (.lookedUp lookups known) scope := by
  cases ts with
  | nil =>
    cases h
    exact ⟨.nil, fun _ _ _ => nofun⟩
  | cons t ts =>
    obtain ⟨first, rest, s₁, rfl, hfirst, hrest⟩ := cells_cons_ok h
    have htable := (cell_ok hconstants t hts.1 hframe hfirst).1
    obtain ⟨hsettled₁, hobeys₁⟩ := cell_lookups hconstants hcallee t hts.1 hframe hfirst
    obtain ⟨hsettled₂, hobeys₂⟩ := cells_lookups hconstants hcallee ts hts.2 (by rw [htable]; exact hframe) hrest
    rw [htable] at hsettled₂
    rw [cellsLookups, following_eq hfirst]
    refine ⟨hsettled₁.append hsettled₂, fun lookups known hsub => ?_⟩
    rw [List.append_subset] at hsub
    exact List.forall_mem_cons.2 ⟨hobeys₁ lookups known hsub.1, hobeys₂ lookups known hsub.2⟩

theorem cell_lookups (hconstants : c.constants? = some constants) (hcallee : c.anyCallee = false)
    (t : Term) (ht : t.Within lo hi) {s s' : State} {result : Cell}
    (hframe : s.table.frame = scope) (h : (cell c t).run s = (.ok result, s')) :
    Settled hi s.table (cellLookups c t s) ∧ ∀ lookups known, cellLookups c t s ⊆ lookups →
      result.Obeys (.lookedUp lookups known) scope := by
  cases t with
  | const | operator | left | right =>
    rw [cell] at h
    cases h
    exact ⟨.nil, fun _ _ _ => trivial⟩
  | name id pos =>
    rw [cell] at h
    obtain ⟨_, d, crossed, hfound, hcell⟩ := variableCell_ok h
    rw [cellLookups]
    refine ⟨fun T hT => List.forall_mem_singleton.2 (nameLookup_settled hfound ht.2 hT),
      fun lookups known hsub => ?_⟩
    have hmem : s.table.nameLookup id pos ∈ lookups := hsub List.mem_cons_self
    subst hframe
    obtain ⟨v, _, rfl⟩ | ⟨_, rfl⟩ := hcell
    · trivial
    · exact ⟨_, hmem⟩
  | call id args pos =>
    obtain ⟨args', site, rfl, hfirst, hargs, hcall⟩ := cell_call_ok h
    obtain ⟨d, hfound⟩ := (checkCallee_ok hfirst).2 hcallee
    rw [cellLookups, following_eq hfirst, hcallee, if_neg Bool.false_ne_true]
    obtain ⟨hsettled, hreferred⟩ := arguments_lookups hconstants hcallee _ args ht.2 hframe hargs
    refine ⟨.append (fun T hT => List.forall_mem_singleton.2 (calleeLookup_settled hfound ht.1.2 hT)) hsettled,
      fun lookups known hsub => ?_⟩
    rw [List.append_subset] at hsub
    have hmem : s.table.calleeLookup id pos ∈ lookups := hsub.1 List.mem_cons_self
    subst hframe
    exact lookedUp_callSite hcall ⟨_, hmem⟩ (hreferred lookups known hsub.2)
  | flawed e =>
    rw [cell] at h
    cases h

theorem arguments_lookups (hconstants : c.constants? = some constants) (hcallee : c.anyCallee = false)
    (callee : String) (args : List ArgumentOutline)
    (hargs : ArgumentOutline.AllWithin lo hi args) {s s' : State} {result : List SiteArgument}
    (hframe : s.table.frame = scope) (h : (arguments c callee args).run s = (.ok result, s')) :
    Settled hi s.table (argumentsLookups c callee args s) ∧
      ∀ lookups known, argumentsLookups c callee args s ⊆ lookups →
        ∀ arg ∈ result, Referred lookups known scope arg := by
  cases args with
  | nil =>
    rw [arguments] at h
    cases h
    exact ⟨.nil, fun _ _ _ => nofun⟩
  | cons arg args =>
    obtain ⟨first, rest, s₁, rfl, hfirst, hrest⟩ := arguments_cons_ok h
    have htable := (argument_ok hconstants callee arg hargs.1 hframe hfirst).1
    obtain ⟨hsettled₁, hreferred₁⟩ := argument_lookups hconstants hcallee callee arg hargs.1 hframe hfirst
    obtain ⟨hsettled₂, hreferred₂⟩ := arguments_lookups hconstants hcallee callee args hargs.2 (by rw [htable]; exact hframe) hrest
    rw [htable] at hsettled₂
    rw [argumentsLookups, following_eq hfirst]
    refine ⟨hsettled₁.append hsettled₂, fun lookups known hsub => ?_⟩
    rw [List.append_subset] at hsub
    exact List.forall_mem_cons.2 ⟨hreferred₁ lookups known hsub.1, hreferred₂ lookups known hsub.2⟩

theorem argument_lookups (hconstants : c.constants? = some constants) (hcallee : c.anyCallee = false)
    (callee : String) (arg : ArgumentOutline) (harg : arg.Within lo hi) {s s' : State}
    {result : SiteArgument} (hframe : s.table.frame = scope)
    (h : (argument c callee arg).run s = (.ok result, s')) :
    Settled hi s.table (argumentLookups c arg s) ∧ ∀ lookups known, argumentLookups c arg s ⊆ lookups →
      Referred lookups known scope result := by
  cases arg with
  | given form terms valuePos pos =>
    obtain ⟨xs, s₁, sequence, rfl, hcells, hconvert, _⟩ := argument_given_ok h
    obtain ⟨hsettled, hobeys⟩ := cells_lookups hconstants hcallee terms harg.2.2 hframe hcells
    refine ⟨hsettled, fun lookups known hsub => ⟨fun tree htree => ?_, fun name value' pos' heq => ?_⟩⟩
    · rw [value_argumentOf] at htree
      obtain ⟨tree', rfl, _, htree'⟩ := obeys_compile hconvert htree (hobeys lookups known hsub)
      exact htree'
    · -- A name alone is the only term of its value.
      cases form with
      | shorthand name' =>
        cases heq
        rw [harg.2.1 name rfl] at hsub
        have hmem : s.table.nameLookup name pos ∈ lookups := hsub (List.mem_append_left _ List.mem_cons_self)
        subst hframe
        exact ⟨_, hmem⟩
      | assign | opAssign | positional => cases heq
  | missing pos =>
    rw [argument] at h
    cases h

end

mutual

/-- The names in an expression are looked up in a table that comes before the one that is left. -/
theorem expr_lookups (hconstants : c.constants? = some constants) (hcallee : c.anyCallee = false)
    {scope : List BlockKey} {lo hi : Nat} (hhi : hi < UInt64.size) (o : Outline)
    (ho : o.Within lo hi) {s s' : State} {e : Expr} (hr : Reading scope lo s.table)
    (h : (expr c o).run s = (.ok e, s')) :
    Settled hi s'.table (exprLookups c o s) ∧ ∀ lookups known, exprLookups c o s ⊆ lookups →
      e.functions ⊆ known → e.Obeys (.lookedUp lookups known) scope := by
  cases o with
  | conditional condition thenBranch elseBranch pos =>
    obtain ⟨m, n, hcondition, hthen, helse⟩ := ho
    obtain ⟨e₁, e₂, e₃, s₁, s₂, rfl, h₁, h₂, h₃⟩ := expr_conditional_ok h
    have hm := Outline.Within.le thenBranch hthen
    have hn := Outline.Within.le elseBranch helse
    have hext₁ := (expr_placed hconstants (by omega) condition hcondition hr h₁).1
    have hr₁ := hr.step hext₁
    have hext₂ := (expr_placed hconstants (by omega) thenBranch hthen hr₁ h₂).1
    have hr₂ := hr₁.step hext₂
    have hext₃ := (expr_placed hconstants hhi elseBranch helse hr₂ h₃).1
    obtain ⟨hsettled₁, hobeys₁⟩ := expr_lookups hconstants hcallee (by omega) condition hcondition hr h₁
    obtain ⟨hsettled₂, hobeys₂⟩ := expr_lookups hconstants hcallee (by omega) thenBranch hthen hr₁ h₂
    obtain ⟨hsettled₃, hobeys₃⟩ := expr_lookups hconstants hcallee hhi elseBranch helse hr₂ h₃
    rw [exprLookups, following_eq h₁, following_eq h₂]
    refine ⟨.append ((hsettled₁.later hext₂.later hm).later hext₃.later hn)
      (.append (hsettled₂.later hext₃.later hn) hsettled₃), fun lookups known hsub hknown => ?_⟩
    simp only [List.append_subset, Expr.functions] at hsub hknown
    exact ⟨trivial, hobeys₁ lookups known hsub.1 hknown.1.1, hobeys₂ lookups known hsub.2.1 hknown.1.2,
      hobeys₃ lookups known hsub.2.2 hknown.2⟩
  | block items flaw? pos =>
    obtain ⟨hpos, hitems⟩ := ho
    obtain ⟨trees, mid, table, rfl, _, hentries, hleave, rfl⟩ := expr_block_ok h
    have hext := (entries_placed hconstants hhi items hitems (hr.enter hpos) hentries).1
    obtain ⟨hsettled, hobeys⟩ := entries_lookups hconstants hcallee hhi items hitems (hr.enter hpos) hentries
    rw [exprLookups]
    refine ⟨fun T hT => hsettled T ?_, fun lookups known hsub hknown => ⟨trivial, hobeys lookups known hsub ?_⟩⟩
    · exact later_of_leave hr.frames hext.blocks hleave hT
    · rw [Expr.functions] at hknown
      exact hknown
  | arithmetic terms pos =>
    obtain ⟨xs, s₁, sequence, hcells, hconvert, hexpr, htable₂⟩ := expr_arithmetic_ok h
    have htable₁ := (cells_ok hconstants terms ho.2 hr.frame hcells).1
    obtain ⟨hsettled, hobeys⟩ := cells_lookups hconstants hcallee terms ho.2 hr.frame hcells
    rw [exprLookups, htable₂, htable₁]
    refine ⟨hsettled, fun lookups known hsub _ => ?_⟩
    obtain ⟨tree, rfl, _, htree⟩ := obeys_compile hconvert hexpr (hobeys lookups known hsub)
    exact htree
  | flawed e =>
    rw [expr] at h
    cases h

theorem entries_lookups (hconstants : c.constants? = some constants) (hcallee : c.anyCallee = false)
    {scope : List BlockKey} {lo hi : Nat} (hhi : hi < UInt64.size) {key : BlockKey}
    (items : List EntryOutline) (hitems : EntryOutline.AllWithin lo hi items) {s s' : State}
    {trees : List BlockEntry} (hr : Reading (key :: scope) lo s.table)
    (h : (entries c items).run s = (.ok trees, s')) :
    Settled hi s'.table (entriesLookups c items s) ∧ ∀ lookups known, entriesLookups c items s ⊆ lookups →
      BlockEntry.functionsOfAll trees ⊆ known →
        BlockEntry.AllObey (.lookedUp lookups known) (key :: scope) trees := by
  cases items with
  | nil =>
    rw [entries] at h
    cases h
    exact ⟨.nil, fun _ _ _ _ => trivial⟩
  | cons item items =>
    obtain ⟨m, hitem, hitems⟩ := hitems
    obtain ⟨tree, trees', s₁, rfl, h₁, h₂⟩ := entries_cons_ok h
    have hm := EntryOutline.AllWithin.le items hitems
    have hext₁ := (entry_placed hconstants (by omega) item hitem hr h₁).1
    have hext₂ := (entries_placed hconstants hhi items hitems (hr.step hext₁) h₂).1
    obtain ⟨hsettled₁, hobeys₁⟩ := entry_lookups hconstants hcallee (by omega) item hitem hr h₁
    obtain ⟨hsettled₂, hobeys₂⟩ := entries_lookups hconstants hcallee hhi items hitems (hr.step hext₁) h₂
    rw [entriesLookups, following_eq h₁]
    refine ⟨(hsettled₁.later hext₂.later hm).append hsettled₂, fun lookups known hsub hknown => ?_⟩
    simp only [List.append_subset, BlockEntry.functionsOfAll] at hsub hknown
    exact ⟨hobeys₁ lookups known hsub.1 hknown.1, hobeys₂ lookups known hsub.2 hknown.2⟩

theorem entry_lookups (hconstants : c.constants? = some constants) (hcallee : c.anyCallee = false)
    {scope : List BlockKey} {lo hi : Nat} (hhi : hi < UInt64.size) {key : BlockKey}
    (item : EntryOutline) (hitem : item.Within lo hi) {s s' : State} {tree : BlockEntry}
    (hr : Reading (key :: scope) lo s.table) (h : (entry c item).run s = (.ok tree, s')) :
    Settled hi s'.table (entryLookups c item s) ∧ ∀ lookups known, entryLookups c item s ⊆ lookups →
      tree.functions ⊆ known → tree.Obeys (.lookedUp lookups known) (key :: scope) := by
  cases item with
  | operator op value guard pos =>
    obtain ⟨m, hvalue, hguard⟩ := hitem
    have hm := Outline.OptionWithin.le guard hguard
    cases guard with
    | none =>
      obtain ⟨value', rfl, h₁⟩ := entry_operator_ok h
      obtain ⟨hsettled, hobeys⟩ := expr_lookups hconstants hcallee (by omega) value hvalue hr h₁
      rw [entryLookups]
      refine ⟨hsettled.later (.refl _ _) hm, fun lookups known hsub hknown => ?_⟩
      rw [BlockEntry.functions, List.append_subset] at hknown
      exact ⟨trivial, hobeys lookups known hsub hknown.1, trivial⟩
    | some guard =>
      obtain ⟨value', guard', s₁, rfl, h₁, h₂⟩ := entry_guarded_ok h
      have hext₁ := (expr_placed hconstants (by omega) value hvalue hr h₁).1
      have hext₂ := (expr_placed hconstants hhi guard hguard (hr.step hext₁) h₂).1
      obtain ⟨hsettled₁, hobeys₁⟩ := expr_lookups hconstants hcallee (by omega) value hvalue hr h₁
      obtain ⟨hsettled₂, hobeys₂⟩ := expr_lookups hconstants hcallee hhi guard hguard (hr.step hext₁) h₂
      rw [entryLookups, following_eq h₁]
      refine ⟨(hsettled₁.later hext₂.later hm).append hsettled₂, fun lookups known hsub hknown => ?_⟩
      simp only [List.append_subset, BlockEntry.functions] at hsub hknown
      exact ⟨trivial, hobeys₁ lookups known hsub.1 hknown.1, hobeys₂ lookups known hsub.2 hknown.2⟩
  | closure definition pos =>
    obtain ⟨f, rfl, h₁⟩ := entry_closure_ok h
    rw [entryLookups]
    exact function_lookups hconstants hcallee hhi definition hitem hr h₁
  | flawed e =>
    rw [entry] at h
    cases h

theorem function_lookups (hconstants : c.constants? = some constants) (hcallee : c.anyCallee = false)
    {scope : List BlockKey} {lo hi : Nat} (hhi : hi < UInt64.size) {key : BlockKey}
    (definition : FunctionOutline) (hdefinition : definition.Within lo hi) {s s' : State} {f : FunctionDef}
    (hr : Reading (key :: scope) lo s.table) (h : (function c definition).run s = (.ok f, s')) :
    Settled hi s'.table (functionLookups c definition s) ∧
      ∀ lookups known, functionLookups c definition s ⊆ lookups → f.functions ⊆ known →
        f.Obeys (.lookedUp lookups known) (key :: scope) := by
  cases definition with
  | defined header body =>
    obtain ⟨hlo, hnodup, hbody⟩ := hdefinition
    have hle := Outline.Within.le body hbody
    have hroot := ne_rootBlock (Nat.lt_of_succ_le hle) hhi
    obtain ⟨body', s₁, s₂, mid, rfl, hdeclare, hparams, hexpr, hleave, hdeclared, _, hopened, _, _, hr₂⟩ :=
      function_parts hlo hnodup hroot hr h
    have hbodyExt := (expr_placed hconstants hhi body hbody hr₂ hexpr).1
    obtain ⟨hsettled, hobeys⟩ := expr_lookups hconstants hcallee hhi body hbody hr₂ hexpr
    rw [functionLookups, following_eq hdeclare, following_eq hparams]
    refine ⟨fun T hT => hsettled T ?_, fun lookups known hsub hknown => ?_⟩
    · have hinner := hopened.trans (hbodyExt.own_mono (List.nil_subset _))
      exact later_of_leave (hr.step hdeclared).frames hinner.blocks hleave hT
    · rw [FunctionDef.functions_eq, List.cons_subset] at hknown
      refine FunctionDef.obeys_iff.2 ⟨hknown.1, ?_⟩
      have hinside := hobeys lookups known hsub hknown.2
      rw [FunctionDef.inside, FunctionDef.bodyScope, List.reverse_append, SymbolTable.scope, hr.frame,
        List.reverse_reverse]
      exact hinside
  | bodiless header e => exact (function_bodiless h).elim
  | flawed e =>
    rw [function] at h
    cases h

end

theorem item_lookups (hconstants : c.constants? = some constants) (hcallee : c.anyCallee = false)
    (hhi : hi < UInt64.size) (o : ItemOutline) (ho : o.Within lo hi) {s s' : State} {tree : Item}
    (hr : Reading [rootBlock] lo s.table) (h : (item c o).run s = (.ok tree, s')) :
    Settled hi s'.table (itemLookups c o s) ∧ ∀ lookups known, itemLookups c o s ⊆ lookups →
      tree.functions ⊆ known → tree.Obeys (.lookedUp lookups known) := by
  cases o with
  | function definition unended? pos =>
    obtain ⟨f, s₁, rfl, h₁, htable⟩ := item_function_ok h
    rw [htable]
    exact function_lookups hconstants hcallee hhi definition ho hr h₁
  | assignment name value visibleFrom pos =>
    obtain ⟨m, hvalue, hm, hlt⟩ := ho
    obtain ⟨e, s₁, rfl, hnew, hexpr, _, _, _, hdeclared⟩ := assignment_parts hconstants hhi hvalue hm hlt hr h
    obtain ⟨hsettled, hobeys⟩ := expr_lookups hconstants hcallee (by omega) value hvalue hr hexpr
    rw [itemLookups, following_eq hnew]
    exact ⟨hsettled.later hdeclared.later (by omega), fun lookups known hsub hknown =>
      ⟨trivial, hobeys lookups known hsub hknown⟩⟩
  | flawed e => cases h

/-- The names in a program that is read without errors are looked up, and what was found while the table was
filled is what the finished table has. -/
theorem items_lookups (hconstants : c.constants? = some constants) (hcallee : c.anyCallee = false)
    (hhi : hi < UInt64.size) {outlines : List ItemOutline} (ho : ItemOutline.AllWithin lo hi outlines)
    {s s' : State} {trees : List Item} (hr : Reading [rootBlock] lo s.table)
    (h : (items c outlines).run s = (.ok trees, s')) (herrors : s'.journal.errorCount = 0) :
    Settled hi s'.table (itemsLookups c outlines s) ∧ ∀ lookups known, itemsLookups c outlines s ⊆ lookups →
      Program.functions trees ⊆ known → Program.Obeys (.lookedUp lookups known) trees := by
  induction outlines generalizing lo s trees with
  | nil =>
    cases h
    exact ⟨.nil, fun _ _ _ _ => nofun⟩
  | cons outline outlines ih =>
    obtain ⟨m, houtline, houtlines⟩ := ho
    obtain ⟨tree, rest, s₁, rfl, hattempt, hitem, hitems, _⟩ := items_cons_ok h (herrors ▸ Nat.zero_le _)
    have hm := ItemOutline.AllWithin.le houtlines
    have hext₁ := (item_placed hconstants (by omega) outline houtline hr hitem).1
    have hext₂ := (items_placed hconstants hhi houtlines (hr.step hext₁) hitems herrors).1
    obtain ⟨hsettled₁, hobeys₁⟩ := item_lookups hconstants hcallee (by omega) outline houtline hr hitem
    obtain ⟨hsettled₂, hobeys₂⟩ := ih houtlines (hr.step hext₁) hitems
    rw [itemsLookups, following_eq hattempt]
    refine ⟨(hsettled₁.later hext₂.later hm).append hsettled₂, fun lookups known hsub hknown => ?_⟩
    rw [List.append_subset] at hsub
    have hknown' : tree.functions ⊆ known ∧ Program.functions rest ⊆ known := List.append_subset.1 hknown
    exact List.forall_mem_cons.2 ⟨hobeys₁ lookups known hsub.1 hknown'.1, hobeys₂ lookups known hsub.2 hknown'.2⟩

end Resolution
end ToneScript
