import ToneScript.Proofs.Rendering.Formula
import ToneScript.Proofs.Syntax.Resolution

/-! The names that a table holds for a chain of blocks. A use looks a name up in the table as it does among these. -/
namespace ToneScript

open Resolution

theorem Naming.find?_cons (block : Ident → Option Meaning) (n : Naming) (x : Ident) :
    Naming.find? (block :: n) x = (block x).or (n.find? x) := by
  rw [find?, List.findSome?_cons]
  cases block x <;> rfl

namespace SymbolTable

/-- What the blocks of a chain declare names as, the innermost block first. -/
def naming (c : Context) (t : SymbolTable) (scope : List BlockKey) : Naming :=
  scope.map fun key x => (t.find? key x).map fun d => ⟨d.isFunction, constant? c d x⟩

section

variable {c : Context} {t t' : SymbolTable} {scope own : List BlockKey} {lo hi : Nat}

/-- A use of a name finds what is declared in the innermost block, since all of the table was declared before it. -/
theorem Reading.lookupBefore?_eq (hr : Reading scope lo t) {pos : Position} (hpos : lo ≤ pos.index.toNat) (x : Ident) :
    (t.lookupBefore? x pos.index).map (fun p => (⟨p.1.isFunction, constant? c p.1 x⟩ : Meaning)) =
      (t.naming c scope).find? x := by
  rw [lookupBefore?_eq_resolve hr.frame]
  have hvisible (key : BlockKey) (d : Declaration) (hd : t.find? key x = some d) :
      d.visibleAt pos.index = true := by
    rw [Declaration.visibleAt]
    rcases hr.tidy.bound key x d hd with ⟨hbuiltin, _⟩ | ⟨_, hlt, _⟩
    · rw [hbuiltin, Bool.true_or]
    · have hle : d.visibleFrom ≤ pos.index := UInt64.le_iff_toNat_le.2 (by omega)
      rw [decide_eq_true hle, Bool.or_true]
  clear hr
  induction scope with
  | nil => rfl
  | cons key scope ih =>
    have hfind : (t.naming c (key :: scope)).find? x =
        ((t.find? key x).map fun d => ⟨d.isFunction, constant? c d x⟩).or ((t.naming c scope).find? x) :=
      Naming.find?_cons _ _ x
    rw [hfind]
    cases hd : t.find? key x with
    | some d =>
      rw [resolve_cons_visible hd (hvisible key d hd)]
      rfl
    | none =>
      rw [resolve_cons_hidden (by simp [hd]), Option.map_map, Option.map_none, Option.none_or]
      exact ih

/-- What is declared inside later blocks or in other ones changes nothing about the names of a chain. -/
theorem Extends.naming_eq (h : Extends own lo hi t t')
    (hkeys : ∀ key ∈ scope, key ∉ own ∧ (key = rootBlock ∨ key.toNat < lo)) : t'.naming c scope = t.naming c scope := by
  refine List.map_congr_left fun key hkey => funext fun x => ?_
  obtain ⟨hown, hbefore⟩ := hkeys key hkey
  cases hd : t.find? key x with
  | none =>
    have hnone : t'.find? key x = none := by
      cases hd' : t'.find? key x with
      | none => rfl
      | some d' =>
        rcases h.inside key x d' hd hd' with hmem | ⟨hle, hne⟩
        · exact absurd hmem hown
        · rcases hbefore with hroot | hlt
          · exact absurd hroot hne
          · omega
    rw [hnone]
  | some d =>
    obtain ⟨d', hd', hbecomes⟩ := h.later.kept key x d hd
    rw [hd', Option.map_some, Option.map_some, hbecomes.isFunction_eq, constant?, constant?, hbecomes.builtin_eq]

/-- Declaring a name in the innermost block. -/
theorem naming_declare {key : BlockKey} (hcurrent : t.currentBlock = key) (hkey : key ∉ scope) (x : Ident)
    (pos : Position) (visibleFrom : UInt64) (ty? : Option Ty) :
    (t.declare x pos visibleFrom ty? false).naming c (key :: scope) =
      (t.naming c (key :: scope)).declare x { isFunction := ty?.any Ty.isFunction } := by
  have hfind (key' : BlockKey) (y : Ident) : (t.declare x pos visibleFrom ty? false).find? key' y =
      if key = key' ∧ x = y then some (t.declaration x pos visibleFrom ty? false) else t.find? key' y := by
    rw [find?_declare, hcurrent]
  rw [naming, List.map_cons, naming, List.map_cons, Naming.declare]
  congr 1
  · funext y
    rw [hfind]
    by_cases hy : y = x
    · rw [if_pos ⟨rfl, hy.symm⟩, if_pos hy]
      rfl
    · rw [if_neg fun h => hy h.2.symm, if_neg hy]
  · refine List.map_congr_left fun key' hkey' => funext fun y => ?_
    rw [hfind, if_neg]
    rintro ⟨rfl, _⟩
    exact hkey hkey'

/-- A block that opens empty. -/
theorem naming_enterBlock {key : BlockKey} (hfresh : ∀ x, t.find? key x = none) :
    (t.enterBlock key).naming c (key :: scope) = (t.naming c scope).enter := by
  rw [naming, List.map_cons, Naming.enter]
  congr 1
  funext x
  rw [find?_enterBlock, hfresh]
  rfl

/-- A block that holds parameters and nothing else. -/
theorem naming_enterParams {key : BlockKey} {params : List ParamShape}
    (hparams : ∀ x ∈ params.map ParamShape.name, ∃ d, t.find? key x = some d ∧ d.isFunction = false ∧ d.builtin = false)
    (hothers : ∀ x, x ∉ params.map ParamShape.name → t.find? key x = none) :
    t.naming c (key :: scope) = (t.naming c scope).enterParams params := by
  rw [naming, List.map_cons, Naming.enterParams]
  congr 1
  funext x
  by_cases hx : x ∈ params.map ParamShape.name
  · obtain ⟨d, hd, hvariable, hsource⟩ := hparams x hx
    rw [if_pos hx, hd, Option.map_some, hvariable, constant?, hsource]
    rfl
  · rw [if_neg hx, hothers x hx]
    rfl

/-- An expression leaves the names around it alone. -/
theorem Reading.naming_step (hr : Reading scope lo t) (h : Extends [] lo hi t t') :
    t'.naming c scope = t.naming c scope :=
  h.naming_eq fun key hkey => ⟨List.not_mem_nil, hr.keys key hkey⟩

/-- A block that opens now is none of those around it. -/
theorem not_mem_scope (hscope : ∀ key ∈ scope, key = rootBlock ∨ key.toNat < lo) {key : BlockKey}
    (hkey : lo ≤ key.toNat) (hroot : key ≠ rootBlock) : key ∉ scope := by
  intro hmem
  rcases hscope key hmem with heq | hlt
  · exact hroot heq
  · omega

/-- A name that is new among the names of a block is new in the table. -/
theorem find?_of_isNew {key : BlockKey} (hactive : t.currentBlock = key) {x : Ident}
    (h : (t.naming c (key :: scope)).IsNew x) : t.find? t.currentBlock x = none := by
  have hnone := h _ rfl
  rw [hactive]
  exact Option.map_eq_none_iff.1 hnone

end

end SymbolTable

theorem Term.AllWithin.append {lo hi : Nat} {ts us : List Term} :
    Term.AllWithin lo hi (ts ++ us) ↔ Term.AllWithin lo hi ts ∧ Term.AllWithin lo hi us := by
  induction ts with
  | nil => simp [Term.AllWithin]
  | cons t ts ih => simp [Term.AllWithin, ih, and_assoc]

section

open SymbolTable

variable {c : Context} {t : SymbolTable} {scope : List BlockKey} {lo hi : Nat}

theorem nameTree_shape (hr : Reading scope lo t) {x : Ident} {pos : Position} (hpos : lo ≤ pos.index.toNat) :
    (nameTree c t x pos).shape = (Shape.var x).fold (t.naming c scope) := by
  have hconstant : constantOf c t x pos = ((t.naming c scope).find? x).bind Meaning.value? := by
    rw [← hr.lookupBefore?_eq hpos, Option.bind_map]
    rfl
  rw [nameTree, Shape.fold, hconstant]
  cases ((t.naming c scope).find? x).bind Meaning.value? with
  | none => rfl
  | some v => cases v <;> rfl

theorem isSome_lookupBefore? (hr : Reading scope lo t) {x : Ident} {pos : Position} (hpos : lo ≤ pos.index.toNat)
    (h : ((t.naming c scope).find? x).isSome = true) : (t.lookupBefore? x pos.index).isSome = true := by
  rw [← hr.lookupBefore?_eq hpos, Option.isSome_map] at h
  exact h

theorem isSome_callee? (hr : Reading scope lo t) {x : Ident} {pos : Position} (hpos : lo ≤ pos.index.toNat)
    (h : ((t.naming c scope).find? x).any Meaning.isFunction = true) : (t.callee? x pos.index).isSome = true := by
  rw [← hr.lookupBefore?_eq hpos, Option.any_map] at h
  rw [callee?]
  cases hfound : t.lookupBefore? x pos.index with
  | none => simp [hfound] at h
  | some p =>
    have hfunction : p.1.isFunction = true := by simpa [hfound] using h
    simp [Option.filter, hfunction]

theorem InfixArgument.isNamed_shape (arg : InfixArgument) : (arg.shape true).isNamed = arg.isNamed := by
  cases arg with
  | positional value => cases value <;> rfl
  | assign | opAssign => rfl

theorem InfixArguments.shapes_eq_map (named : Bool) (args : InfixArguments) :
    args.shapes named = args.toList.map (InfixArgument.shape named) := by
  cases args with
  | none | last => rfl
  | more arg comma rest => rw [shapes, toList, List.map_cons, shapes_eq_map named rest]

mutual

/-- The names of an expression are found, and its tree has its shape, with constants in place of their names. -/
theorem Infix.resolved (hr : Reading scope lo t) (e : Infix) (hwithin : Term.AllWithin lo hi e.terms)
    (h : e.shape.Formula (t.naming c scope)) :
    e.Resolves c t ∧ (e.tree c t).shape = e.shape.fold (t.naming c scope) := by
  cases e with
  | const v m => exact ⟨trivial, rfl⟩
  | name x m =>
    have hpos := hwithin.1.1
    exact ⟨isSome_lookupBefore? hr hpos h, nameTree_shape hr hpos⟩
  | call callee m opening args closing =>
    obtain ⟨⟨hpos, hargs⟩, _⟩ := hwithin
    obtain ⟨hcallee, hadmits, hformulas⟩ := h
    obtain ⟨hresolve, htrees⟩ := InfixArguments.resolved hr args.named args hargs hformulas
    refine ⟨⟨.inr (isSome_callee? hr hpos.1 hcallee), hresolve, fun hnamed arg harg => ?_⟩, ?_⟩
    · rw [hnamed, InfixArguments.shapes_eq_map] at hadmits
      rw [← arg.isNamed_shape]
      exact hadmits.2 _ (List.mem_map_of_mem harg)
    · rw [Infix.tree, Expr.shape, htrees]
      rfl
  | group opening inner closing =>
    exact Infix.resolved hr inner (Term.AllWithin.append.1 hwithin.2).1 h
  | prefixed sign m operand =>
    obtain ⟨hresolves, htree⟩ := Infix.resolved hr operand hwithin.2 h.2
    exact ⟨hresolves, congrArg (Shape.prefixed sign.operator) htree⟩
  | power left m right | binary op left m right =>
    obtain ⟨hleft, hright⟩ := Term.AllWithin.append.1 hwithin
    obtain ⟨hresolvesLeft, htreeLeft⟩ := Infix.resolved hr left hleft h.2.1
    obtain ⟨hresolvesRight, htreeRight⟩ := Infix.resolved hr right hright.2 h.2.2
    exact ⟨⟨hresolvesLeft, hresolvesRight⟩, congrArg₂ (Shape.binary _) htreeLeft htreeRight⟩

theorem InfixArguments.resolved (hr : Reading scope lo t) (named : Bool) (args : InfixArguments)
    (hwithin : ArgumentOutline.AllWithin lo hi args.outlines)
    (h : ArgumentShape.AllFormula (t.naming c scope) (args.shapes named)) :
    args.Resolve c t ∧
      Argument.shapes (args.trees c t named) = ArgumentShape.foldAll (t.naming c scope) (args.shapes named) := by
  cases args with
  | none => exact ⟨trivial, rfl⟩
  | last arg =>
    obtain ⟨hresolves, htree⟩ := InfixArgument.resolved hr named arg hwithin.1 h.1
    exact ⟨hresolves, congrArg (· :: []) htree⟩
  | more arg comma rest =>
    obtain ⟨hresolves, htree⟩ := InfixArgument.resolved hr named arg hwithin.1 h.1
    obtain ⟨hresolve, htrees⟩ := InfixArguments.resolved hr named rest hwithin.2 h.2
    exact ⟨⟨hresolves, hresolve⟩, congrArg₂ List.cons htree htrees⟩

theorem InfixArgument.resolved (hr : Reading scope lo t) (named : Bool) (arg : InfixArgument)
    (hwithin : arg.outline.Within lo hi) (h : (arg.shape named).Formula (t.naming c scope)) :
    arg.Resolves c t ∧ (arg.tree c t named).shape = (arg.shape named).fold (t.naming c scope) := by
  cases arg with
  | assign x m equals value =>
    obtain ⟨hresolves, htree⟩ := Infix.resolved hr value hwithin.2.2 h
    exact ⟨hresolves, congrArg (ArgumentShape.assign x) htree⟩
  | opAssign x m op opMark equals value =>
    obtain ⟨hresolves, htree⟩ := Infix.resolved hr value hwithin.2.2 h.2
    exact ⟨hresolves, congrArg (ArgumentShape.opAssign x op) htree⟩
  | positional value =>
    cases value with
    | name x m =>
      have hpos := hwithin.1.1
      cases named with
      | true => exact ⟨isSome_lookupBefore? hr hpos h, rfl⟩
      | false => exact ⟨isSome_lookupBefore? hr hpos h, congrArg ArgumentShape.positional (nameTree_shape hr hpos)⟩
    | const | call | group | prefixed | power | binary =>
      obtain ⟨hresolves, htree⟩ := Infix.resolved hr _ hwithin.2.2 h
      exact ⟨hresolves, congrArg ArgumentShape.positional htree⟩

end

end

end ToneScript
