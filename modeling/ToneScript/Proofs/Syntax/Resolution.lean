import ToneScript.Proofs.Scope.Growth
import ToneScript.Proofs.Syntax.Arguments
import ToneScript.Proofs.Syntax.Inversion
import ToneScript.Proofs.Syntax.Postfix

/-! Reading the outlines of a source puts every part of the program in its place: functions and parameters
are declared where the text has them, and uses of names stand within the interval of their expression. -/
namespace ToneScript

namespace Resolution

variable {c : Context} {s s' : State}

/-- Steps that leave the table alone, however they end. -/
def idle : TermLaw where
  holds x := ∀ s : State, (x.run s).2.table = s.table
  pure _ _ := rfl
  get _ := rfl
  refuse _ _ := rfl
  note _ _ _ _ := rfl
  bind {_ _ x f} hx hf s := by
    rw [run_bind]
    have hfirst := hx s
    split
    · rename_i a s' heq
      rw [heq] at hfirst
      exact (hf a s').trans hfirst
    · rename_i e s' heq
      rwa [heq] at hfirst

theorem idle_warnIfShadowing (c : Context) (id : Ident) (pos : Position) : idle.holds (warnIfShadowing c id pos) :=
  idle.warnIfShadowing c (fun _ _ => rfl) id pos

theorem warnIfShadowing_ok {id : Ident} {pos : Position} {u : Unit}
    (h : (warnIfShadowing c id pos).run s = (.ok u, s')) : s'.table = s.table := by
  have htable := idle_warnIfShadowing c id pos s
  rwa [h] at htable

theorem declareFunction_ok {header : FunctionHeader} {u : Unit}
    (h : (declareFunction c header).run s = (.ok u, s')) :
    s.table.find? s.table.currentBlock header.name = none ∧
      s'.table = s.table.declare header.name header.pos header.opening.index
        (some (.function header.name)) false := by
  unfold declareFunction at h
  obtain ⟨⟨⟩, s₁, hnew, hrest⟩ := run_bind_ok h
  obtain ⟨hsame, hnone⟩ := checkNew_ok hnew
  obtain ⟨⟨⟩, s₂, hwarn, hdeclare⟩ := run_bind_ok hrest
  have htable := warnIfShadowing_ok hwarn
  cases hdeclare
  rw [hsame] at htable
  exact ⟨hnone, congrArg (fun t => SymbolTable.declare t header.name header.pos header.opening.index
    (some (.function header.name)) false) htable⟩

section Cells

variable {constants : List (Ident × Value)} {scope : List BlockKey} {lo hi : Nat}

/-- The cell of a name is a slot, or the value of a built-in name. -/
theorem variableCell_of_constants (hconstants : c.constants? = some constants) {id : Ident} {pos : Position} {cell : Cell}
    (h : (variableCell c id pos).run s = (.ok cell, s')) :
    cell = .slot id pos ∨ ∃ v d crossed, cell = .value v pos ∧
      s.table.lookupBefore? id pos.index = some (d, crossed) ∧ d.builtin = true ∧ constants.lookup id = some v := by
  obtain ⟨_, d, crossed, hlookup, ⟨v, hvalue, rfl⟩ | ⟨_, rfl⟩⟩ := variableCell_ok h
  · unfold constant? at hvalue
    split at hvalue
    · rename_i hbuiltin
      rw [hconstants] at hvalue
      exact .inr ⟨v, d, crossed, rfl, hlookup, hbuiltin, hvalue⟩
    · cases hvalue
  · exact .inl rfl

/-- What holds of an argument within an interval: its value obeys the rule of names, and a name alone is a
variable or the value of a built-in name. -/
def Argued (constants : List (Ident × Value)) (t : SymbolTable) (scope : List BlockKey) (lo hi : Nat)
    (arg : SiteArgument) : Prop :=
  (∀ tree, arg.value.toExpr = .ok tree → tree.Obeys (.named constants t lo hi) scope) ∧
    ∀ name value pos, arg = .shorthand name value pos → pos.Between lo hi ∧
      (value.cells = [.slot name pos] ∨ ∃ v d crossed, value.cells = [.value v pos] ∧
        t.resolve scope name pos = some (d, crossed) ∧ d.builtin = true ∧
        constants.lookup name = some v)

theorem allObey_toArguments {R : Rule} {p : List BlockKey} {args : List SiteArgument} {trees : List Argument}
    (h : SiteArgument.toArguments args = .ok trees)
    (hargs : ∀ arg ∈ args, ∀ tree, arg.value.toExpr = .ok tree → tree.Obeys R p) :
    Argument.AllObey R p trees := by
  rw [Argument.allObey_iff]
  intro tree htree
  obtain ⟨arg, harg, hfirst⟩ := mem_toArguments h htree
  have hvalue := (toArgument_ok hfirst).2
  cases tree with
  | shorthand => trivial
  | assign _ value _ | opAssign _ _ value _ | positional value _ =>
    exact hargs arg harg value (hvalue value rfl)

/-- The arguments of a call have the values that are given, and a name alone is left as it is. -/
theorem callSite_ok {callee : String} {id : Ident} {args : List SiteArgument} {pos : Position} {site : CallSite}
    (h : callSite callee id args pos = .ok site) :
    site.callee = id ∧ site.pos = pos ∧ (∀ arg ∈ site.args, arg.name? = none ↔ site.style = .ordered) ∧
      ∀ arg ∈ site.args, ∃ given ∈ args, given.value = arg.value ∧
        ∀ name value pos, arg = .shorthand name value pos → given = arg := by
  unfold callSite at h
  split at h
  · split at h
    · cases h
    · rename_i hnames
      cases h
      refine ⟨rfl, rfl, fun arg harg => ?_, fun arg harg => ⟨arg, harg, rfl, fun _ _ _ _ => rfl⟩⟩
      simpa using List.find?_eq_none.1 hnames arg harg
  · cases h
    refine ⟨rfl, rfl, fun arg harg => ?_, fun arg harg => ?_⟩
    · obtain ⟨given, _, rfl⟩ := List.mem_map.1 harg
      simp [SiteArgument.name?]
    · obtain ⟨given, hgiven, rfl⟩ := List.mem_map.1 harg
      exact ⟨given, hgiven, rfl, fun _ _ _ he => by cases he⟩

theorem obeys_callSite {t : SymbolTable} {callee : String} {id : Ident} {args : List SiteArgument}
    {pos : Position} {site : CallSite} (h : callSite callee id args pos = .ok site)
    (hpos : pos.Between lo hi) (hargs : ∀ arg ∈ args, Argued constants t scope lo hi arg) :
    (Cell.call site).Obeys (.named constants t lo hi) scope := by
  intro tree htree
  obtain ⟨_, rfl, hnames, hgiven⟩ := callSite_ok h
  obtain ⟨trees, rfl, htrees⟩ := CallSite.toExpr_eq_ok htree
  refine ⟨⟨hpos, htrees, hnames, fun name value pos hmem => ?_⟩, allObey_toArguments htrees fun arg harg => ?_⟩
  · obtain ⟨given, hmem', _, hshorthand⟩ := hgiven _ hmem
    cases hshorthand name value pos rfl
    exact (hargs _ hmem').2 name value pos rfl
  · obtain ⟨given, hmem, hvalue, _⟩ := hgiven arg harg
    rw [← hvalue]
    exact (hargs given hmem).1

/-- A sequence that is compiled from cells that obey a rule has a tree that does. -/
theorem obeys_compile {R : Rule} {p : List BlockKey} {cells : List Cell} {compiled : Compiled} {e : Expr}
    (hconvert : Postfix.convert cells = .ok compiled.cells) (h : compiled.toExpr = .ok e)
    (hcells : ∀ cell ∈ cells, cell.Obeys R p) :
    ∃ tree, e = .span compiled tree ∧ Cell.toTrees [] compiled.cells = .ok [tree] ∧ tree.Obeys R p := by
  obtain ⟨tree, rfl, htrees⟩ := Compiled.toExpr_eq_ok h
  have htree := Cell.obeys_toTrees htrees (by simp)
    fun cell hcell => hcells cell (Postfix.mem_convert hconvert hcell)
  exact ⟨tree, rfl, htrees, htree tree (by simp)⟩

mutual

theorem cells_ok (hconstants : c.constants? = some constants)
    (ts : List Term) (hts : Term.AllWithin lo hi ts) {s s' : State} {result : List Cell}
    (hframe : s.table.frame = scope) (h : (cells c ts).run s = (.ok result, s')) :
    s'.table = s.table ∧ ∀ t, s.table.Later hi t →
      ∀ cell ∈ result, cell.Obeys (.named constants t lo hi) scope := by
  cases ts with
  | nil =>
    cases h
    exact ⟨rfl, fun _ _ _ hmem => by cases hmem⟩
  | cons t ts =>
    obtain ⟨first, rest, s₁, rfl, hfirst, hrest⟩ := cells_cons_ok h
    obtain ⟨htable, hcell⟩ := cell_ok hconstants t hts.1 hframe hfirst
    obtain ⟨htable', hcells⟩ := cells_ok hconstants ts hts.2 (by rw [htable]; exact hframe) hrest
    rw [htable] at htable' hcells
    refine ⟨htable', fun t hlater => ?_⟩
    simp only [List.forall_mem_cons]
    exact ⟨hcell t hlater, hcells t hlater⟩

theorem cell_ok (hconstants : c.constants? = some constants)
    (t : Term) (ht : t.Within lo hi) {s s' : State} {result : Cell}
    (hframe : s.table.frame = scope) (h : (cell c t).run s = (.ok result, s')) :
    s'.table = s.table ∧ ∀ t, s.table.Later hi t →
      result.Obeys (.named constants t lo hi) scope := by
  cases t with
  | const | operator | left | right =>
    rw [cell] at h
    cases h
    exact ⟨rfl, fun _ _ => trivial⟩
  | name id pos =>
    rw [cell] at h
    obtain ⟨rfl, d, crossed, _, ⟨v, _, rfl⟩ | ⟨_, rfl⟩⟩ := variableCell_ok h
    · exact ⟨rfl, fun _ _ => trivial⟩
    · exact ⟨rfl, fun _ _ => ht⟩
  | call id args pos =>
    obtain ⟨args', site, rfl, _, hargs, hcall⟩ := cell_call_ok h
    obtain ⟨htable, hargued⟩ := arguments_ok hconstants _ args ht.2 hframe hargs
    exact ⟨htable, fun t hlater => obeys_callSite hcall ht.1 (hargued t hlater)⟩
  | flawed e =>
    rw [cell] at h
    cases h

theorem arguments_ok (hconstants : c.constants? = some constants)
    (callee : String) (args : List ArgumentOutline)
    (hargs : ArgumentOutline.AllWithin lo hi args) {s s' : State} {result : List SiteArgument}
    (hframe : s.table.frame = scope) (h : (arguments c callee args).run s = (.ok result, s')) :
    s'.table = s.table ∧ ∀ t, s.table.Later hi t →
      ∀ arg ∈ result, Argued constants t scope lo hi arg := by
  cases args with
  | nil =>
    rw [arguments] at h
    cases h
    exact ⟨rfl, fun _ _ _ hmem => by cases hmem⟩
  | cons arg args =>
    obtain ⟨first, rest, s₁, rfl, hfirst, hrest⟩ := arguments_cons_ok h
    obtain ⟨htable, harg⟩ := argument_ok hconstants callee arg hargs.1 hframe hfirst
    obtain ⟨htable', hrest⟩ := arguments_ok hconstants callee args hargs.2 (by rw [htable]; exact hframe) hrest
    rw [htable] at htable' hrest
    refine ⟨htable', fun t hlater => ?_⟩
    simp only [List.forall_mem_cons]
    exact ⟨harg t hlater, hrest t hlater⟩

theorem argument_ok (hconstants : c.constants? = some constants)
    (callee : String) (arg : ArgumentOutline) (harg : arg.Within lo hi) {s s' : State}
    {result : SiteArgument} (hframe : s.table.frame = scope)
    (h : (argument c callee arg).run s = (.ok result, s')) :
    s'.table = s.table ∧ ∀ t, s.table.Later hi t → Argued constants t scope lo hi result := by
  cases arg with
  | given form terms valuePos pos =>
    obtain ⟨cells', s₁, sequence, rfl, hcells, hconvert, htable'⟩ := argument_given_ok h
    obtain ⟨htable, hobey⟩ := cells_ok hconstants terms harg.2.2 hframe hcells
    refine ⟨htable'.trans htable, fun t hlater => ⟨fun tree htree => ?_, fun name value' pos' heq => ?_⟩⟩
    · rw [value_argumentOf] at htree
      obtain ⟨tree', rfl, _, htree'⟩ := obeys_compile hconvert htree (hobey t hlater)
      exact htree'
    · cases form with
      | shorthand name' =>
        cases heq
        refine ⟨harg.1, ?_⟩
        rw [harg.2.1 name rfl] at hcells
        have hpos : pos.index.toNat < hi := harg.1.2
        obtain ⟨cell, rfl, hcell⟩ := cells_name_ok hcells
        have hconverted : sequence = [cell] := by
          obtain ⟨_, d, crossed, _, ⟨v, _, rfl⟩ | ⟨_, rfl⟩⟩ := variableCell_ok hcell <;>
          exact (Except.ok.inj hconvert).symm
        obtain rfl | ⟨v, d, crossed, rfl, hlookup, hbuiltin, hv⟩ := variableCell_of_constants hconstants hcell
        · exact .inl hconverted
        · rw [SymbolTable.lookupBefore?_eq_resolve hframe] at hlookup
          rcases hlater.resolve_eq scope name hpos with ⟨hnone, _⟩ | ⟨d₀, d', n, hd₀, hd', hbecomes⟩
          · simp [hlookup] at hnone
          · rw [hlookup] at hd₀
            cases hd₀
            exact .inr ⟨v, d', crossed, hconverted, hd', by rw [hbecomes.builtin_eq, hbuiltin], hv⟩
      | assign | opAssign | positional => cases heq
  | missing pos =>
    rw [argument] at h
    cases h

end

end Cells

section Trees

variable {constants : List (Ident × Value)} {scope : List BlockKey} {lo hi : Nat}

open SymbolTable

theorem ne_rootBlock {index : UInt64} {hi : Nat} (hlt : index.toNat < hi)
    (hhi : hi < UInt64.size) : index ≠ rootBlock := by
  rintro rfl
  have hroot : rootBlock.toNat = UInt64.size - 1 := rfl
  omega

/-- Declaring a new name in the current block. -/
theorem extends_declare {key : BlockKey} {rest own : List BlockKey} {t : SymbolTable} {mid : Nat}
    (hr : Reading (key :: rest) lo t) (name : Ident) (pos : Position) (visibleFrom : UInt64)
    (ty? : Option Ty) (hnone : t.find? key name = none) (hown : key ∈ own)
    (hlo : lo ≤ visibleFrom.toNat) (hmid : visibleFrom.toNat < mid)
    (hproper : (t.declaration name pos visibleFrom ty? false).Proper key)
    (hassigned : ty?.any Ty.isFunction = false → ty? = none) :
    Extends own lo mid t (t.declare name pos visibleFrom ty? false) := by
  have hfind (key' : BlockKey) (name' : Ident) :
      (t.declare name pos visibleFrom ty? false).find? key' name' =
        if key = key' ∧ name = name' then some (t.declaration name pos visibleFrom ty? false)
        else t.find? key' name' := by
    rw [find?_declare, hr.currentBlock_eq]
  have hle : lo ≤ mid := by omega
  have htidy := hr.tidy.weaken hle
  refine ⟨hle, ⟨rfl, rfl, rfl⟩, ⟨?_, ?_, ?_⟩, ⟨?_, ?_⟩, ?_⟩
  · intro key' name' d hd
    rw [hfind] at hd
    split at hd
    · rename_i heq
      cases hd
      rw [← heq.1]
      exact hproper
    · exact htidy.proper key' name' d hd
  · intro key' name' d hd
    rw [hfind] at hd
    split at hd
    · rename_i heq
      cases hd
      refine .inr ⟨rfl, hmid, ?_⟩
      rw [← heq.1]
      exact (hr.keys key (by simp)).imp_right (by omega)
    · exact htidy.bound key' name' d hd
  · intro name' d hd hsource hnot
    rw [hfind] at hd
    split at hd
    · cases hd
      exact hassigned hnot
    · exact htidy.assigned name' d hd hsource hnot
  · intro key' name' d hd
    refine ⟨d, ?_, .refl d⟩
    rw [hfind, if_neg, hd]
    rintro ⟨rfl, rfl⟩
    simp [hnone] at hd
  · intro key' name' d hnone' hd
    rw [hfind] at hd
    split at hd
    · cases hd
      exact ⟨hlo, rfl⟩
    · simp [hnone'] at hd
  · intro key' name' d hnone' hd
    rw [hfind] at hd
    split at hd
    · rename_i heq
      rw [← heq.1]
      exact .inl hown
    · simp [hnone'] at hd

/-- What the block of the parameters holds once they are declared. -/
theorem declareParams_ok {header : FunctionHeader} {key : BlockKey} {rest : List BlockKey}
    {ps : List Param} (hframes : s.table.frames = []) (hactive : s.table.active = key :: rest)
    (hnodup : (ps.map Param.name).Nodup) {u : Unit}
    (h : (declareParams c header ps).run s = (.ok u, s')) :
    s.table.SameBlocks s'.table ∧
      (∀ p ∈ ps, s'.table.find? key p.name =
        some ⟨(key :: rest).reverse, p.name, p.pos, header.opening.index, some .number, false⟩) ∧
      ∀ key' name, (key' = key → name ∉ ps.map Param.name) →
        s'.table.find? key' name = s.table.find? key' name := by
  induction ps generalizing s with
  | nil =>
    cases h
    exact ⟨⟨rfl, rfl, rfl⟩, by simp, fun _ _ _ => rfl⟩
  | cons p ps ih =>
    rw [declareParams] at h
    obtain ⟨⟨⟩, s₁, hwarn, h₁⟩ := run_bind_ok h
    obtain ⟨⟨⟩, s₂, hdeclare, h₂⟩ := run_bind_ok h₁
    have htable : s₂.table = s.table.declare p.name p.pos header.opening.index (some .number) false := by
      cases hdeclare
      exact congrArg (fun t => SymbolTable.declare t p.name p.pos header.opening.index
        (some .number) false) (warnIfShadowing_ok hwarn)
    have hfind (key' : BlockKey) (name : Ident) : s₂.table.find? key' name =
        if key = key' ∧ p.name = name then
          some ⟨(key :: rest).reverse, p.name, p.pos, header.opening.index, some .number, false⟩
        else s.table.find? key' name := by
      have hscope : s.table.scope = (key :: rest).reverse := by
        rw [SymbolTable.scope, frame_eq_active hframes, hactive]
      rw [htable, find?_declare, declaration, currentBlock, hactive, hscope]
      rfl
    obtain ⟨hfresh, hnodup⟩ := List.nodup_cons.1 hnodup
    obtain ⟨hblocks, hps, hother⟩ := ih (s := s₂) (by rw [htable]; exact hframes)
      (by rw [htable]; exact hactive) hnodup h₂
    have hblocks₂ : s.table.SameBlocks s₂.table := by
      rw [htable]
      exact ⟨rfl, rfl, rfl⟩
    refine ⟨hblocks₂.trans hblocks, ?_, ?_⟩
    · rw [List.forall_mem_cons]
      exact ⟨by rw [hother key p.name fun _ => hfresh, hfind, if_pos ⟨rfl, rfl⟩], hps⟩
    · intro key' name hname
      have hname' : key' = key → name ≠ p.name ∧ name ∉ ps.map Param.name := by
        intro heq
        simpa using hname heq
      rw [hother key' name fun heq => (hname' heq).2, hfind, if_neg]
      rintro ⟨heq, heq'⟩
      exact (hname' heq.symm).1 heq'.symm

/-- The block of the parameters, which opens empty. -/
theorem extends_declareParams {header : FunctionHeader} {rest : List BlockKey}
    (hframes : s.table.frames = []) (hactive : s.table.active = header.opening.index :: rest)
    (htidy : s.table.Tidy (header.opening.index.toNat + 1))
    (hfresh : ∀ name, s.table.find? header.opening.index name = none)
    (hroot : header.opening.index ≠ rootBlock) (hnodup : (header.params.map Param.name).Nodup) {u : Unit}
    (h : (declareParams c header header.params).run s = (.ok u, s')) :
    Extends [header.opening.index] header.opening.index.toNat (header.opening.index.toNat + 1)
        s.table s'.table ∧
      (∀ p ∈ header.params, s'.table.find? header.opening.index p.name =
        some ⟨(header.opening.index :: rest).reverse, p.name, p.pos, header.opening.index,
          some .number, false⟩) ∧
      ∀ name, name ∉ header.params.map Param.name →
        s'.table.find? header.opening.index name = none := by
  obtain ⟨hblocks, hparams, hother⟩ := declareParams_ok hframes hactive hnodup h
  -- What is found afterwards was there before or is one of the parameters.
  have horigin (key : BlockKey) (name : Ident) (d : Declaration) (hd : s'.table.find? key name = some d) :
      s.table.find? key name = some d ∨ key = header.opening.index ∧ ∃ p ∈ header.params,
        d = ⟨(header.opening.index :: rest).reverse, p.name, p.pos, header.opening.index,
          some .number, false⟩ := by
    by_cases hname : key = header.opening.index → name ∉ header.params.map Param.name
    · left
      rw [← hother key name hname, hd]
    · simp only [Classical.not_imp, Classical.not_not] at hname
      obtain ⟨rfl, hmem⟩ := hname
      obtain ⟨p, hp, rfl⟩ := List.mem_map.1 hmem
      rw [hparams p hp] at hd
      exact .inr ⟨rfl, p, hp, (Option.some.inj hd).symm⟩
  refine ⟨⟨Nat.le_succ _, hblocks, ⟨?_, ?_, ?_⟩, ⟨?_, ?_⟩, ?_⟩, hparams, ?_⟩
  · intro key name d hd
    rcases horigin key name d hd with hold | ⟨rfl, p, _, rfl⟩
    · exact htidy.proper key name d hold
    · refine ⟨by simp [Declaration.block], nofun, nofun, fun ty hty => ?_⟩
      cases hty
      exact .inr (.inl rfl)
  · intro key name d hd
    rcases horigin key name d hd with hold | ⟨rfl, p, _, rfl⟩
    · exact htidy.bound key name d hold
    · exact .inr ⟨rfl, Nat.lt_succ_self _, .inr (Nat.lt_succ_self _)⟩
  · intro name d hd hsource hnot
    rcases horigin rootBlock name d hd with hold | ⟨heq, _⟩
    · exact htidy.assigned name d hold hsource hnot
    · exact absurd heq.symm hroot
  · intro key name d hd
    refine ⟨d, ?_, .refl d⟩
    rw [hother key name ?_, hd]
    rintro rfl _
    simp [hfresh] at hd
  · intro key name d hnone hd
    rcases horigin key name d hd with hold | ⟨_, p, _, rfl⟩
    · simp [hnone] at hold
    · exact ⟨Nat.le_refl _, rfl⟩
  · intro key name d hnone hd
    rcases horigin key name d hd with hold | ⟨hkey, _⟩
    · simp [hnone] at hold
    · exact .inl (List.mem_singleton.2 hkey)
  · intro name hname
    rw [hother _ name fun _ => hname, hfresh]

/-- What reading a function does before its body. -/
theorem function_opens {key : BlockKey} {header : FunctionHeader} (hlo : lo ≤ header.opening.index.toNat)
    (hnodup : (header.params.map Param.name).Nodup) (hroot : header.opening.index ≠ rootBlock)
    (hr : Reading (key :: scope) lo s.table) {s₁ s₂ : State}
    (hdeclare : (declareFunction c header).run s = (.ok (), s₁))
    (hparams : (declareParams c header header.params).run
      { s₁ with table := s₁.table.enterBlock header.opening.index } = (.ok (), s₂)) :
    Extends [key] lo (header.opening.index.toNat + 1) s.table s₁.table ∧
      (∀ name, s₁.table.find? header.opening.index name = none) ∧
      Extends [header.opening.index] header.opening.index.toNat (header.opening.index.toNat + 1)
        (s₁.table.enterBlock header.opening.index) s₂.table ∧
      (∀ p ∈ header.params, s₂.table.find? header.opening.index p.name =
        some ⟨(header.opening.index :: key :: scope).reverse, p.name, p.pos, header.opening.index,
          some .number, false⟩) ∧
      (∀ name, name ∉ header.params.map Param.name →
        s₂.table.find? header.opening.index name = none) ∧
      Reading (header.opening.index :: key :: scope) (header.opening.index.toNat + 1) s₂.table := by
  obtain ⟨hnone, htable₁⟩ := declareFunction_ok hdeclare
  have hcurrent := hr.currentBlock_eq
  rw [hcurrent] at hnone
  -- The function is declared in the block around it,
  have hdeclared : Extends [key] lo (header.opening.index.toNat + 1) s.table s₁.table := by
    rw [htable₁]
    refine extends_declare hr _ _ _ _ hnone (by simp) hlo (Nat.lt_succ_self _)
      ⟨?_, nofun, nofun, ?_⟩ (by simp [Ty.isFunction])
    · simp [declaration, Declaration.block, SymbolTable.scope, hr.frame]
    · intro ty hty
      exact .inl (Option.some.inj hty).symm
  have hr₁ := hr.step hdeclared
  have hfresh (name : Ident) : s₁.table.find? header.opening.index name = none := by
    have hne : key ≠ header.opening.index := by
      rintro rfl
      rcases hr.keys _ (List.mem_cons_self) with hkey | hkey
      · exact hroot hkey
      · omega
    rw [htable₁, find?_declare, hcurrent, if_neg (fun h => hne h.1)]
    exact hr.find?_fresh hlo hroot name
  -- and its parameters in a block of their own.
  obtain ⟨hopened, hparam, hother⟩ := extends_declareParams
    (s := { s₁ with table := s₁.table.enterBlock header.opening.index }) hr₁.frames
    (congrArg (header.opening.index :: ·) hr₁.active) ⟨hr₁.tidy.proper, hr₁.tidy.bound, hr₁.tidy.assigned⟩
    hfresh hroot hnodup hparams
  refine ⟨hdeclared, hfresh, hopened, hparam, hother, ?_⟩
  refine ⟨hopened.blocks.frames.trans hr₁.frames,
    hopened.blocks.active.trans (congrArg (header.opening.index :: ·) hr₁.active), hopened.tidy, ?_⟩
  intro k hk
  rcases List.mem_cons.1 hk with rfl | hk
  · exact .inr (Nat.lt_succ_self _)
  · exact hr₁.keys k hk

/-- What reading a function does before and after its body. -/
theorem function_parts {key : BlockKey} {header : FunctionHeader} {body : Outline}
    (hlo : lo ≤ header.opening.index.toNat) (hnodup : (header.params.map Param.name).Nodup)
    (hroot : header.opening.index ≠ rootBlock) (hr : Reading (key :: scope) lo s.table) {f : FunctionDef}
    (h : (function c (.defined header body)).run s = (.ok f, s')) :
    ∃ body' s₁ s₂ mid,
      f = ⟨header.name, header.pos, header.params, header.opening.index, s.table.scope, body'⟩ ∧
      (declareFunction c header).run s = (.ok (), s₁) ∧
      (declareParams c header header.params).run
        { s₁ with table := s₁.table.enterBlock header.opening.index } = (.ok (), s₂) ∧
      (expr c body).run s₂ = (.ok body', mid) ∧ mid.table.leave = .ok s'.table ∧
      Extends [key] lo (header.opening.index.toNat + 1) s.table s₁.table ∧
      (∀ name, s₁.table.find? header.opening.index name = none) ∧
      Extends [header.opening.index] header.opening.index.toNat (header.opening.index.toNat + 1)
        (s₁.table.enterBlock header.opening.index) s₂.table ∧
      (∀ p ∈ header.params, s₂.table.find? header.opening.index p.name =
        some ⟨(header.opening.index :: key :: scope).reverse, p.name, p.pos, header.opening.index,
          some .number, false⟩) ∧
      (∀ name, name ∉ header.params.map Param.name →
        s₂.table.find? header.opening.index name = none) ∧
      Reading (header.opening.index :: key :: scope) (header.opening.index.toNat + 1) s₂.table := by
  obtain ⟨body', s₁, s₂, mid, rfl, hdeclare, hparams, hexpr, hleave⟩ := function_ok h
  exact ⟨body', s₁, s₂, mid, rfl, hdeclare, hparams, hexpr, hleave,
    function_opens hlo hnodup hroot hr hdeclare hparams⟩

/-- Where nothing else is declared in the interval of a function, which is a new name of its block. -/
private theorem declared_alone {f : FunctionDef} {key : BlockKey} {rest : List BlockKey}
    {t t₁ t₂ T : SymbolTable} (hr : Reading (key :: rest) lo t)
    (hfind : ∀ other, t₁.find? key other = if f.name = other then some f.declaration
      else t.find? key other)
    (hbody : Extends [] f.argsKey.toNat hi t₁ t₂) (hlo : lo ≤ f.argsKey.toNat)
    (hT : Later hi t₂ T) :
    T.find? key f.name = some f.declaration ∧
      ∀ other d, T.find? key other = some d → d.builtin = false → lo ≤ d.visibleFrom.toNat →
        d.visibleFrom.toNat < hi → d = f.declaration := by
  have htyped : f.declaration.ty? ≠ none := by simp [FunctionDef.declaration]
  have hkept : ∃ d, T.find? key f.name = some d ∧ f.declaration.Becomes d := by
    obtain ⟨d₂, hd₂, hbecomes⟩ := hbody.later.kept key f.name f.declaration (by rw [hfind, if_pos rfl])
    obtain ⟨d, hd, hbecomes'⟩ := hT.kept key f.name d₂ hd₂
    exact ⟨d, hd, hbecomes.trans hbecomes'⟩
  obtain ⟨d, hd, hbecomes⟩ := hkept
  rw [hbecomes.eq_of_typed htyped] at hd
  refine ⟨hd, fun other d' hd' hsource hle hlt => ?_⟩
  by_cases hname : f.name = other
  · rw [← hname, hd] at hd'
    exact (Option.some.inj hd').symm
  exfalso
  obtain ⟨d₂, hd₂, hbecomes₂⟩ := hT.find?_of_lt hd' (.inr hlt)
  cases hold : t₁.find? key other with
  | none =>
    rcases hbody.inside key other d₂ hold hd₂ with hmem | ⟨hle', hne⟩
    · cases hmem
    · rcases hr.keys key (by simp) with hroot | hlt'
      · exact hne hroot
      · omega
  | some d₁ =>
    obtain ⟨d₂', hd₂', hbecomes₁⟩ := hbody.later.kept key other d₁ hold
    rw [hd₂] at hd₂'
    cases hd₂'
    have hd₁ := hbecomes₁.trans hbecomes₂
    rw [hfind, if_neg hname] at hold
    rw [hd₁.visibleFrom_eq] at hle
    rw [hd₁.builtin_eq] at hsource
    rcases hr.tidy.bound key other d₁ hold with ⟨hbuiltin, _⟩ | ⟨_, hlt', _⟩
    · simp [hsource] at hbuiltin
    · omega

mutual

theorem expr_placed (hconstants : c.constants? = some constants)
    {scope : List BlockKey} {lo hi : Nat} (hhi : hi < UInt64.size)
    (o : Outline) (ho : o.Within lo hi) {s s' : State} {e : Expr} (hr : Reading scope lo s.table)
    (h : (expr c o).run s = (.ok e, s')) :
    Extends [] lo hi s.table s'.table ∧
      ∀ T, Later hi s'.table T → e.Placed constants T scope lo hi := by
  cases o with
  | conditional condition thenBranch elseBranch pos =>
    obtain ⟨m, n, hcondition, hthen, helse⟩ := ho
    obtain ⟨e₁, e₂, e₃, s₁, s₂, rfl, h₁, h₂, h₃⟩ := expr_conditional_ok h
    have hm := Outline.Within.le thenBranch hthen
    have hn := Outline.Within.le elseBranch helse
    obtain ⟨hext₁, hplaced₁⟩ := expr_placed hconstants (by omega) condition hcondition hr h₁
    have hr₁ := hr.step hext₁
    obtain ⟨hext₂, hplaced₂⟩ := expr_placed hconstants (by omega) thenBranch hthen hr₁ h₂
    have hr₂ := hr₁.step hext₂
    obtain ⟨hext₃, hplaced₃⟩ := expr_placed hconstants hhi elseBranch helse hr₂ h₃
    refine ⟨(hext₁.trans hext₂).trans hext₃, fun T hT => ⟨m, n, ?_, ?_, hplaced₃ T hT⟩⟩
    · exact hplaced₁ T ((hext₂.trans hext₃).later.trans (hT.weaken (by omega)))
    · exact hplaced₂ T (hext₃.later.trans (hT.weaken (by omega)))
  | block items flaw? pos =>
    obtain ⟨hpos, hitems⟩ := ho
    obtain ⟨trees, mid, table, rfl, _, hentries, hleave, rfl⟩ := expr_block_ok h
    obtain ⟨hext, hplaced⟩ := entries_placed hconstants hhi items hitems (hr.enter hpos) hentries
    have hroot : pos.index ≠ rootBlock := ne_rootBlock (Nat.lt_of_succ_le hext.le) hhi
    have hleft := Extends.leave hr.frames (Nat.le_succ_of_le hpos) hpos hroot hext hleave
    refine ⟨hleft, fun T hT => ?_⟩
    have hT' : Later hi mid.table T := later_of_leave hr.frames hext.blocks hleave hT
    exact ⟨hext.opens (hr.find?_fresh hpos hroot) hpos hroot hT', hplaced T hT'⟩
  | arithmetic terms pos =>
    obtain ⟨cells', mid, sequence, hcells, hconvert, hexpr, htable⟩ := expr_arithmetic_ok h
    obtain ⟨hsame, hobey⟩ := cells_ok hconstants terms ho.2 hr.frame hcells
    rw [htable, hsame]
    refine ⟨.refl hr.tidy ho.1, fun T hT => ?_⟩
    obtain ⟨tree, rfl, htrees, htree⟩ := obeys_compile hconvert hexpr (hobey T hT)
    exact ⟨ho.1, htrees, htree⟩
  | flawed e =>
    rw [expr] at h
    cases h

theorem entries_placed (hconstants : c.constants? = some constants)
    {scope : List BlockKey} {lo hi : Nat} (hhi : hi < UInt64.size)
    {key : BlockKey} (items : List EntryOutline) (hitems : EntryOutline.AllWithin lo hi items)
    {s s' : State} {trees : List BlockEntry} (hr : Reading (key :: scope) lo s.table)
    (h : (entries c items).run s = (.ok trees, s')) :
    Extends [key] lo hi s.table s'.table ∧
      ∀ T, Later hi s'.table T → BlockEntry.AllPlaced constants T (key :: scope) lo hi trees := by
  cases items with
  | nil =>
    rw [entries] at h
    cases h
    exact ⟨.refl hr.tidy hitems, fun _ _ => hitems⟩
  | cons item items =>
    obtain ⟨m, hitem, hitems⟩ := hitems
    obtain ⟨tree, trees', s₁, rfl, h₁, h₂⟩ := entries_cons_ok h
    have hm := EntryOutline.AllWithin.le items hitems
    obtain ⟨hext₁, hplaced₁⟩ := entry_placed hconstants (by omega) item hitem hr h₁
    obtain ⟨hext₂, hplaced₂⟩ := entries_placed hconstants hhi items hitems (hr.step hext₁) h₂
    exact ⟨hext₁.trans hext₂, fun T hT =>
      ⟨m, hplaced₁ T (hext₂.later.trans (hT.weaken hm)), hplaced₂ T hT⟩⟩

theorem entry_placed (hconstants : c.constants? = some constants)
    {scope : List BlockKey} {lo hi : Nat} (hhi : hi < UInt64.size)
    {key : BlockKey} (item : EntryOutline) (hitem : item.Within lo hi)
    {s s' : State} {tree : BlockEntry} (hr : Reading (key :: scope) lo s.table)
    (h : (entry c item).run s = (.ok tree, s')) :
    Extends [key] lo hi s.table s'.table ∧
      ∀ T, Later hi s'.table T → tree.Placed constants T (key :: scope) lo hi := by
  cases item with
  | operator op value guard pos =>
    obtain ⟨m, hvalue, hguard⟩ := hitem
    have hm := Outline.OptionWithin.le guard hguard
    -- An entry declares nothing in its own block, so that the block is clear of declarations there.
    have hclear {t' T : SymbolTable} (hext : Extends [] lo hi s.table t') (hT : Later hi t' T) :
        T.Clear ((key :: scope).take 1) lo hi := by
      intro k hk
      exact hr.clear hext hT k (List.mem_of_mem_take hk)
    cases guard with
    | none =>
      obtain ⟨value', rfl, h₁⟩ := entry_operator_ok h
      obtain ⟨hext, hplaced⟩ := expr_placed hconstants (by omega) value hvalue hr h₁
      have hext' : Extends [] lo hi s.table s'.table :=
        hext.trans (.refl hext.tidy hm)
      exact ⟨hext'.own_mono (by simp), fun T hT =>
        ⟨hclear hext' hT, m, hplaced T (hT.weaken hm), hm⟩⟩
    | some guard =>
      obtain ⟨value', guard', s₁, rfl, h₁, h₂⟩ := entry_guarded_ok h
      obtain ⟨hext₁, hplaced₁⟩ := expr_placed hconstants (by omega) value hvalue hr h₁
      obtain ⟨hext₂, hplaced₂⟩ := expr_placed hconstants hhi guard hguard (hr.step hext₁) h₂
      have hext := hext₁.trans hext₂
      exact ⟨hext.own_mono (by simp), fun T hT => ⟨hclear hext hT, m,
        hplaced₁ T (hext₂.later.trans (hT.weaken hm)), hplaced₂ T hT⟩⟩
  | closure definition pos =>
    obtain ⟨f, rfl, hfunction⟩ := entry_closure_ok h
    exact function_placed hconstants hhi definition hitem hr hfunction
  | flawed e =>
    rw [entry] at h
    cases h

theorem function_placed (hconstants : c.constants? = some constants)
    {scope : List BlockKey} {lo hi : Nat} (hhi : hi < UInt64.size)
    {key : BlockKey} (definition : FunctionOutline) (hdefinition : definition.Within lo hi)
    {s s' : State} {f : FunctionDef} (hr : Reading (key :: scope) lo s.table)
    (h : (function c definition).run s = (.ok f, s')) :
    Extends [key] lo hi s.table s'.table ∧
      ∀ T, Later hi s'.table T → f.Placed constants T (key :: scope) lo hi := by
  cases definition with
  | defined header body =>
    obtain ⟨hlo, hnodup, hbody⟩ := hdefinition
    have hle := Outline.Within.le body hbody
    have hroot := ne_rootBlock (Nat.lt_of_succ_le hle) hhi
    obtain ⟨body', s₂, s₅, mid, rfl, hdeclare, _, hexpr, hleave, hdeclared, hfresh, hopened, hparam, hother,
      hr₅⟩ := function_parts hlo hnodup hroot hr h
    have hr₂ := hr.step hdeclared
    obtain ⟨_, htable₂⟩ := declareFunction_ok hdeclare
    have hscope := hr.scope_eq
    obtain ⟨hbodyExt, hplaced⟩ := expr_placed hconstants hhi body hbody hr₅ hexpr
    have hinnerExt := hopened.trans (hbodyExt.own_mono (List.nil_subset _))
    have hleft := Extends.leave hr₂.frames (Nat.le_refl _) (Nat.le_refl _) hroot hinnerExt hleave
    refine ⟨hdeclared.join (hleft.own_mono (List.nil_subset _)) hlo, fun T hT => ?_⟩
    have hTmid : Later hi mid.table T := later_of_leave hr₂.frames hinnerExt.blocks hleave hT
    rw [FunctionDef.placed_iff]
    refine ⟨hinnerExt.opens hfresh hlo hroot hTmid, hscope, hnodup, ?_, ?_, ?_, hplaced T hTmid⟩
    · intro k hk
      cases List.mem_singleton.1 hk
      refine declared_alone hr ?_ hleft hlo hT
      intro other
      rw [htable₂, find?_declare, hr.currentBlock_eq]
      simp only [true_and]
      rfl
    · intro p hp
      obtain ⟨d, hd, hbecomes⟩ := hbodyExt.later.kept _ _ _ (hparam p hp)
      obtain ⟨d', hd', hbecomes'⟩ := hTmid.kept _ _ d hd
      rw [hd', (hbecomes.trans hbecomes').eq_of_typed (by simp)]
      simp [FunctionDef.paramDeclaration, FunctionDef.bodyScope, hscope]
    · intro other d hd hlt
      obtain ⟨d', hd', hbecomes⟩ := hTmid.find?_of_lt hd (.inr hlt)
      cases hopen : s₅.table.find? header.opening.index other with
      | none =>
        rcases hbodyExt.inside _ other d' hopen hd' with hmem | ⟨hle', _⟩
        · cases hmem
        · omega
      | some d₅ =>
        by_cases hname : other ∈ header.params.map Param.name
        · obtain ⟨p, hp, rfl⟩ := List.mem_map.1 hname
          obtain ⟨d'', hd'', hbecomes'⟩ := hbodyExt.later.kept _ _ _ (hparam p hp)
          rw [hd'] at hd''
          cases hd''
          refine ⟨p, hp, ?_⟩
          rw [(hbecomes'.trans hbecomes).eq_of_typed (by simp)]
          simp [FunctionDef.paramDeclaration, FunctionDef.bodyScope, hscope]
        · simp [hother other hname] at hopen
  | bodiless header e => exact (function_bodiless h).elim
  | flawed e =>
    rw [function] at h
    cases h

end

/-- What reading an assignment does: the name is declared after its value. -/
theorem assignment_parts (hconstants : c.constants? = some constants) (hhi : hi < UInt64.size) {name : Ident}
    {value : Outline} {visibleFrom : UInt64} {pos : Position} {m : Nat} (hvalue : value.Within lo m)
    (hm : m ≤ visibleFrom.toNat) (hlt : visibleFrom.toNat < hi) {s s' : State} {tree : Item}
    (hr : Reading [rootBlock] lo s.table)
    (h : (item c (.assignment name value visibleFrom pos)).run s = (.ok tree, s')) :
    ∃ e s₁, tree = .assignment name e pos ∧ (checkNew c name pos).run s = (.ok (), s) ∧
      (expr c value).run s = (.ok e, s₁) ∧ Extends [] lo m s.table s₁.table ∧
      s'.table = s₁.table.declare name pos visibleFrom none false ∧
      (∀ other, s.table.find? rootBlock other = none → s₁.table.find? rootBlock other = none) ∧
      Extends [rootBlock] m hi s₁.table s'.table := by
  obtain ⟨e, s₁, rfl, hnew, hexpr, htable⟩ := item_assignment_ok h
  have hnone := (checkNew_ok hnew).2
  rw [hr.currentBlock_eq] at hnone
  have hext := (expr_placed hconstants (by omega) value hvalue hr hexpr).1
  have hr₁ := hr.step hext
  refine ⟨e, s₁, rfl, hnew, hexpr, hext, htable, fun _ => hext.find?_rootBlock, ?_⟩
  rw [htable]
  refine extends_declare hr₁ _ _ _ _ (hext.find?_rootBlock hnone) (by simp) hm hlt
    ⟨?_, nofun, fun _ => ⟨rfl, rfl⟩, nofun⟩ fun _ => rfl
  simp [declaration, Declaration.block, SymbolTable.scope, hr₁.frame]

theorem item_placed (hconstants : c.constants? = some constants) (hhi : hi < UInt64.size)
    (o : ItemOutline) (ho : o.Within lo hi) {s s' : State} {tree : Item}
    (hr : Reading [rootBlock] lo s.table) (h : (item c o).run s = (.ok tree, s')) :
    Extends [rootBlock] lo hi s.table s'.table ∧
      ∀ T, Later hi s'.table T → tree.Placed constants T lo hi := by
  cases o with
  | function definition unended? pos =>
    obtain ⟨f, s₁, rfl, hfunction, htable⟩ := item_function_ok h
    rw [htable]
    exact function_placed hconstants hhi definition ho hr hfunction
  | assignment name value visibleFrom pos =>
    obtain ⟨m, hvalue, hm, hlt⟩ := ho
    obtain ⟨e, s₂, rfl, hnew, hexpr, hext, htable, hroot, hdeclared⟩ :=
      assignment_parts hconstants hhi hvalue hm hlt hr h
    have hplaced := (expr_placed hconstants (by omega) value hvalue hr hexpr).2
    have hcurrent₂ := (hr.step hext).currentBlock_eq
    have hall := (hext.own_mono (List.nil_subset [rootBlock])).trans hdeclared
    refine ⟨hall, fun T hT => ?_⟩
    have hnew : s'.table.find? rootBlock name =
        some (s₂.table.declaration name pos visibleFrom none false) := by
      rw [htable, find?_declare, hcurrent₂]
      exact if_pos ⟨rfl, rfl⟩
    obtain ⟨d, hd, hbecomes⟩ := hT.kept _ _ _ hnew
    refine ⟨m, d, hplaced T (hdeclared.later.trans (hT.weaken hdeclared.le)), hd, ?_, ?_, ?_, ?_, ?_⟩
    · rw [hbecomes.builtin_eq]
      rfl
    · rw [hbecomes.isFunction_eq]
      rfl
    · rw [hbecomes.visibleFrom_eq]
      exact hm
    · rw [hbecomes.visibleFrom_eq]
      exact hlt
    · intro other d' hd' hsource hlo' hhi'
      obtain ⟨d₁, hold, hd₁, _⟩ := hall.origin hr.tidy hT hd' hsource hlo' hhi'
      have hname : name = other := by
        rw [htable, find?_declare, hcurrent₂] at hd₁
        split at hd₁
        · rename_i heq
          exact heq.2
        · simp [hroot other hold] at hd₁
      rw [← hname, hd] at hd'
      exact (Option.some.inj hd').symm
  | flawed e => cases h

/-- A source that is read without errors gives a program whose parts are all in their places. -/
theorem items_placed (hconstants : c.constants? = some constants) (hhi : hi < UInt64.size)
    {outlines : List ItemOutline} (ho : ItemOutline.AllWithin lo hi outlines) {s s' : State}
    {trees : List Item} (hr : Reading [rootBlock] lo s.table)
    (h : (items c outlines).run s = (.ok trees, s')) (herrors : s'.journal.errorCount = 0) :
    Extends [rootBlock] lo hi s.table s'.table ∧
      ∀ T, Later hi s'.table T → Item.AllPlaced constants T lo hi trees := by
  induction outlines generalizing lo s trees with
  | nil =>
    cases h
    have hext : Extends [] lo hi s'.table s'.table := .refl hr.tidy ho
    exact ⟨.refl hr.tidy ho, fun _ hT => ⟨ho, hr.clear hext hT⟩⟩
  | cons outline outlines ih =>
    obtain ⟨m, houtline, houtlines⟩ := ho
    obtain ⟨tree, rest, s₁, rfl, _, hitem, hitems, _⟩ := items_cons_ok h (herrors ▸ Nat.zero_le _)
    have hm := ItemOutline.AllWithin.le houtlines
    obtain ⟨hext₁, hplaced₁⟩ := item_placed hconstants (by omega) outline houtline hr hitem
    obtain ⟨hext₂, hplaced₂⟩ := ih houtlines (hr.step hext₁) hitems
    exact ⟨hext₁.trans hext₂, fun T hT =>
      ⟨m, hplaced₁ T (hext₂.later.trans (hT.weaken hm)), hplaced₂ T hT⟩⟩

end Trees

end Resolution
end ToneScript
