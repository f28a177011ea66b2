import ToneScript.Proofs.Compilation.Native
import ToneScript.Proofs.Rendering.Layout
import ToneScript.Proofs.Rendering.Naming
import ToneScript.Proofs.Syntax.Success

/-! A program that is written out is read back. Every part of it is read where the names are those that its shape has
there, and leaves the names as its shape does. -/
namespace ToneScript

namespace Resolution

open SymbolTable

variable {α β : Type} {c : Context}

/-- The names at the start of the body of a function are those around it and its parameters. -/
theorem naming_opened {header : FunctionHeader} {params : List ParamShape}
    (hnames : header.params.map Param.name = params.map ParamShape.name) {scope : List BlockKey} {hi : Nat}
    {t t' : SymbolTable} (hroot : header.opening.index ≠ rootBlock)
    (hbefore : ∀ key ∈ scope, key = rootBlock ∨ key.toNat < header.opening.index.toNat)
    (hopened : Extends [header.opening.index] header.opening.index.toNat hi (t.enterBlock header.opening.index) t')
    (hparams : ∀ p ∈ header.params, ∃ d, t'.find? header.opening.index p.name = some d ∧ d.isFunction = false ∧
      d.builtin = false)
    (hothers : ∀ x, x ∉ header.params.map Param.name → t'.find? header.opening.index x = none) :
    t'.naming c (header.opening.index :: scope) = (t.naming c scope).enterParams params := by
  have hnotMem := not_mem_scope hbefore (Nat.le_refl _) hroot
  have hscope : t'.naming c scope = t.naming c scope := by
    refine hopened.naming_eq fun key hkey => ⟨fun hmem => ?_, hbefore key hkey⟩
    rw [List.mem_singleton.1 hmem] at hkey
    exact hnotMem hkey
  rw [← hscope]
  refine naming_enterParams (fun x hx => ?_) fun x hx => hothers x (hnames ▸ hx)
  obtain ⟨p, hp, rfl⟩ := List.mem_map.1 (hnames ▸ hx)
  exact hparams p hp

section

variable {constants : List (Ident × Value)} {endPos : Position}

/-- The reading goes on after an expression with the names there were before it. -/
theorem expr_leaves (hconstants : c.constants? = some constants) {o : Outline} {lo hi : Nat} (hhi : hi < UInt64.size)
    (hwithin : o.Within lo hi) {scope : List BlockKey} {n : Naming} {s s' : State} (hr : Reading scope lo s.table)
    (hn : s.table.naming c scope = n) {e : Expr} (hrun : (expr c o).run s = (.ok e, s')) :
    Reading scope hi s'.table ∧ s'.table.naming c scope = n := by
  have hext := (expr_placed hconstants hhi o hwithin hr hrun).1
  exact ⟨hr.step hext, (hr.naming_step hext).trans hn⟩

/-- An arithmetic expression that is written out is read back. -/
theorem formula_written (shape : Shape) {n : Naming} (hformula : shape.Formula n) {ts : List Token}
    (hts : ts.map Token.kind = shape.kinds 0) {lo hi : Nat}
    (hwithin : (Outline.ofTokens c.names endPos ts).Within lo hi) {scope : List BlockKey} {s : State}
    (hr : Reading scope lo s.table) (hn : s.table.naming c scope = n) :
    ∃ e s', (expr c (Outline.ofTokens c.names endPos ts)).run s = (.ok e, s') ∧ e.shape = shape.fold n := by
  obtain ⟨e, rfl, rfl, hfits, -⟩ := Shape.written shape hformula hts
  subst hn
  rw [e.ofTokens_tokens] at hwithin ⊢
  obtain ⟨hresolves, htree⟩ := Infix.resolved hr e hwithin.2 hformula
  obtain ⟨s', hrun, _⟩ := e.gives_expr c s.table hfits hresolves s rfl
  refine ⟨_, s', hrun, ?_⟩
  rw [Expr.shape]
  exact htree

-- The recursion is on the shape. That each part can be read is shown here; what reading it does to the table is then
-- known from `expr_placed` and its kin, which speak of any part that was read.
mutual

/-- An expression that is written out is read back. -/
theorem expr_written (hconstants : c.constants? = some constants) (shape : Shape) {n : Naming}
    (hvalid : shape.Valid n) {ts : List Token} (hts : ts.map Token.kind = shape.kinds 0) {lo hi : Nat}
    (hhi : hi < UInt64.size) (hwithin : (Outline.ofTokens c.names endPos ts).Within lo hi) {scope : List BlockKey}
    {s : State} (hr : Reading scope lo s.table) (hn : s.table.naming c scope = n) :
    ∃ e s', (expr c (Outline.ofTokens c.names endPos ts)).run s = (.ok e, s') ∧ e.shape = shape.fold n := by
  cases shape with
  | conditional condition thenBranch elseBranch =>
    obtain ⟨kwIf, cs, colon, us, kwElse, es, rfl, hif, hcs, hcolon, hus, helse, hes⟩ := Shape.eq_conditional hts
    rw [Outline.ofTokens_conditional c.names endPos hvalid hif hcs hcolon hus helse] at hwithin ⊢
    obtain ⟨m, k, hwithin₁, hwithin₂, hwithin₃⟩ := hwithin
    obtain ⟨_, hvalid₁, hvalid₂, hvalid₃⟩ := hvalid
    have hk := Outline.Within.le _ hwithin₃
    have hm := Outline.Within.le _ hwithin₂
    obtain ⟨e₁, s₁, hrun₁, hshape₁⟩ := expr_written hconstants condition hvalid₁ hcs (by omega) hwithin₁ hr hn
    obtain ⟨hr₁, hn₁⟩ := expr_leaves hconstants (by omega) hwithin₁ hr hn hrun₁
    obtain ⟨e₂, s₂, hrun₂, hshape₂⟩ := expr_written hconstants thenBranch hvalid₂ hus (by omega) hwithin₂ hr₁ hn₁
    obtain ⟨hr₂, hn₂⟩ := expr_leaves hconstants (by omega) hwithin₂ hr₁ hn₁ hrun₂
    obtain ⟨e₃, s₃, hrun₃, hshape₃⟩ := expr_written hconstants elseBranch hvalid₃ hes hhi hwithin₃ hr₂ hn₂
    refine ⟨.conditional e₁ e₂ e₃ kwIf.pos, s₃, ?_, ?_⟩
    · rw [expr]
      exact run_bind_eq hrun₁ (run_bind_eq hrun₂ (run_bind_eq hrun₃ rfl))
    · rw [Expr.shape, hshape₁, hshape₂, hshape₃, Shape.fold]
  | block entries =>
    obtain ⟨opening, inner, closing, rfl, hopening, hclosing, hinner, hbalanced⟩ := Shape.eq_block hts
    rw [Outline.ofTokens_block c.names endPos hopening hclosing hbalanced] at hwithin ⊢
    obtain ⟨hpos, hentries⟩ := hwithin
    have hroot := ne_rootBlock (Nat.lt_of_succ_le (EntryOutline.AllWithin.le _ hentries)) hhi
    have hn' : (s.table.enterBlock opening.pos.index).naming c (opening.pos.index :: scope) = n.enter := by
      rw [naming_enterBlock (hr.find?_fresh hpos hroot), hn]
    have hr' := hr.enter hpos
    obtain ⟨trees, mid, hrun, hshapes⟩ := entries_written hconstants entries hvalid hinner hhi hentries
      (s := { s with table := s.table.enterBlock opening.pos.index }) hr' (not_mem_scope hr.keys hpos hroot) hn'
    have hext := (entries_placed hconstants hhi _ hentries hr' hrun).1
    obtain ⟨table, _, hblock⟩ := inBlock_run hrun hext.blocks.entered
    refine ⟨.block opening.pos.index trees opening.pos, { mid with table }, ?_, ?_⟩
    · rw [expr]
      exact run_bind_eq hblock rfl
    · rw [Expr.shape, hshapes, Shape.fold]
  | number | boolean | var | prefixed | binary | call =>
    exact formula_written _ hvalid hts hwithin hr hn

theorem entries_written (hconstants : c.constants? = some constants) (shapes : List EntryShape) {n : Naming}
    (hvalid : EntryShape.AllValid n shapes) {ts : List Token}
    (hts : ts.map Token.kind = EntryShape.kindsOfAll shapes) {lo hi : Nat} (hhi : hi < UInt64.size)
    (hwithin : EntryOutline.AllWithin lo hi (EntryOutline.listOfTokens c.names endPos ts)) {key : BlockKey}
    {scope : List BlockKey} {s : State} (hr : Reading (key :: scope) lo s.table) (hkey : key ∉ scope)
    (hn : s.table.naming c (key :: scope) = n) :
    ∃ trees s', (entries c (EntryOutline.listOfTokens c.names endPos ts)).run s = (.ok trees, s') ∧
      BlockEntry.shapes trees = EntryShape.foldAll n shapes := by
  cases shapes with
  | nil =>
    rw [List.map_eq_nil_iff.1 hts, EntryOutline.listOfTokens, entries]
    exact ⟨[], s, rfl, rfl⟩
  | cons shape shapes =>
    obtain ⟨us, rest, rfl, hus, hrest⟩ := List.map_eq_append_iff.1 hts
    obtain ⟨outline, houtline, hread⟩ := entry_written hconstants shape hvalid.1 hus rest
    rw [houtline] at hwithin ⊢
    obtain ⟨m, hentry, hentries⟩ := hwithin
    have hm := EntryOutline.AllWithin.le _ hentries
    obtain ⟨tree, s₁, hrun, hshape, hn₁⟩ := hread (by omega) hentry hr hkey hn
    have hext := (entry_placed hconstants (by omega) _ hentry hr hrun).1
    obtain ⟨trees, s', hruns, hshapes⟩ :=
      entries_written hconstants shapes hvalid.2 hrest hhi hentries (hr.step hext) hkey hn₁
    refine ⟨tree :: trees, s', ?_, ?_⟩
    · rw [entries]
      exact run_bind_eq hrun (run_bind_eq hruns rfl)
    · rw [BlockEntry.shapes, hshape, hshapes, EntryShape.foldAll]

/-- An entry that is written out is read back, whatever comes after it. -/
theorem entry_written (hconstants : c.constants? = some constants) (shape : EntryShape) {n : Naming}
    (hvalid : shape.Valid n) {ts : List Token} (hts : ts.map Token.kind = shape.kinds) (rest : List Token) :
    ∃ outline, EntryOutline.listOfTokens c.names endPos (ts ++ rest) =
        outline :: EntryOutline.listOfTokens c.names endPos rest ∧
      ∀ {lo hi : Nat} {key : BlockKey} {scope : List BlockKey} {s : State}, hi < UInt64.size →
        outline.Within lo hi → Reading (key :: scope) lo s.table → key ∉ scope →
        s.table.naming c (key :: scope) = n →
        ∃ tree s', (entry c outline).run s = (.ok tree, s') ∧ tree.shape = shape.fold n ∧
          s'.table.naming c (key :: scope) = shape.declares n := by
  cases shape with
  | operator op value guard =>
    obtain ⟨hop, hvalue, hguard⟩ := hvalid
    obtain ⟨t, _, rfl, ht, hrest⟩ := List.map_eq_cons_iff.1 hts
    rw [Operator.written_of_ne hop] at ht
    obtain ⟨vs, _, rfl, hvs, hrest'⟩ := List.map_eq_append_iff.1 hrest
    have hnested := hvs ▸ Shape.nested_kinds value 0
    cases guard with
    | none =>
      obtain ⟨semicolon, rfl, hsemicolon⟩ := List.map_eq_singleton_iff.1 hrest'
      refine ⟨.operator op (Outline.ofTokens c.names endPos vs) none t.pos, ?_, ?_⟩
      · rw [List.cons_append, List.append_assoc, List.singleton_append,
          EntryOutline.listOfTokens_plain c.names endPos ht hnested hsemicolon]
      · intro lo hi key scope s hhi hwithin hr _ hn
        obtain ⟨m, hwithin₁, hm⟩ := hwithin
        have hle : m ≤ hi := hm
        obtain ⟨e, s', hrun, hshape⟩ := expr_written hconstants value hvalue hvs (by omega) hwithin₁ hr hn
        refine ⟨.operator op e none t.pos, s', ?_, ?_, (expr_leaves hconstants (by omega) hwithin₁ hr hn hrun).2⟩
        · rw [entry]
          exact run_bind_eq hrun rfl
        · rw [BlockEntry.shape, hshape]
          rfl
    | some guard =>
      obtain ⟨gs', _, rfl, hgs', hlast⟩ := List.map_eq_append_iff.1 hrest'
      obtain ⟨question, gs, rfl, hquestion, hgs⟩ := List.map_eq_cons_iff.1 hgs'
      obtain ⟨semicolon, rfl, hsemicolon⟩ := List.map_eq_singleton_iff.1 hlast
      have hnested' := hgs ▸ Shape.nested_kinds guard 0
      refine ⟨.operator op (Outline.ofTokens c.names endPos vs) (some (Outline.ofTokens c.names endPos gs)) t.pos,
        ?_, ?_⟩
      · rw [← EntryOutline.listOfTokens_guarded c.names endPos ht hnested hnested' hquestion hsemicolon]
        simp
      · intro lo hi key scope s hhi hwithin hr _ hn
        obtain ⟨m, hwithin₁, hwithin₂⟩ := hwithin
        have hm := Outline.Within.le _ hwithin₂
        obtain ⟨e₁, s₁, hrun₁, hshape₁⟩ := expr_written hconstants value hvalue hvs (by omega) hwithin₁ hr hn
        obtain ⟨hr₁, hn₁⟩ := expr_leaves hconstants (by omega) hwithin₁ hr hn hrun₁
        obtain ⟨e₂, s₂, hrun₂, hshape₂⟩ := expr_written hconstants guard hguard hgs hhi hwithin₂ hr₁ hn₁
        refine ⟨.operator op e₁ (some e₂) t.pos, s₂, ?_, ?_, (expr_leaves hconstants hhi hwithin₂ hr₁ hn₁ hrun₂).2⟩
        · rw [entry]
          exact run_bind_eq hrun₁ (run_bind_eq hrun₂ rfl)
        · rw [BlockEntry.shape, Expr.optionShape, hshape₁, hshape₂]
          rfl
  | closure f =>
    obtain ⟨fs, _, rfl, hfs, hlast⟩ := List.map_eq_append_iff.1 hts
    obtain ⟨semicolon, rfl, hsemicolon⟩ := List.map_eq_singleton_iff.1 hlast
    obtain ⟨pos, hlayout⟩ := EntryOutline.listOfTokens_closure c.names endPos rest hfs hsemicolon
    refine ⟨.closure (FunctionOutline.ofTokens c.names endPos fs) pos, ?_, ?_⟩
    · rw [List.append_assoc, List.singleton_append, hlayout]
    · intro lo hi key scope s hhi hwithin hr hkey hn
      obtain ⟨definition, s', hrun, hshape, hn'⟩ :=
        function_written hconstants f hvalid hfs hhi hwithin hr hkey hn
      refine ⟨.closure definition pos, s', ?_, ?_, hn'⟩
      · rw [entry]
        exact run_bind_eq hrun rfl
      · rw [BlockEntry.shape, hshape]
        rfl

/-- A function that is written out is read back, and declared in the block around it. -/
theorem function_written (hconstants : c.constants? = some constants) (shape : FunctionShape) {n : Naming}
    (hvalid : shape.Valid n) {ts : List Token} (hts : ts.map Token.kind = shape.kinds) {lo hi : Nat}
    (hhi : hi < UInt64.size) (hwithin : (FunctionOutline.ofTokens c.names endPos ts).Within lo hi) {key : BlockKey}
    {scope : List BlockKey} {s : State} (hr : Reading (key :: scope) lo s.table) (hkey : key ∉ scope)
    (hn : s.table.naming c (key :: scope) = n) :
    ∃ f s', (function c (FunctionOutline.ofTokens c.names endPos ts)).run s = (.ok f, s') ∧
      f.shape = shape.fold n ∧ s'.table.naming c (key :: scope) = n.declare shape.name { isFunction := true } := by
  obtain ⟨name, params, body⟩ := shape
  obtain ⟨header, bs, houtline, rfl, hparams, hbs⟩ := FunctionOutline.ofTokens_kinds c.names endPos hvalid hts
  rw [houtline] at hwithin ⊢
  obtain ⟨hnew, -, hbody⟩ := hvalid
  obtain ⟨hlo, hnodup, hwithin⟩ := hwithin
  have hnames := ParamShape.names_read hparams
  have hroot := ne_rootBlock (Nat.lt_of_succ_le (Outline.Within.le _ hwithin)) hhi
  have hcurrent := hr.currentBlock_eq
  -- The function is declared before its body is read,
  obtain ⟨⟨⟩, s₁, hdeclare, -⟩ := Succeeds.declareFunction (c := c) (find?_of_isNew hcurrent (hn ▸ hnew)) s rfl
  have hn₁ : s₁.table.naming c (key :: scope) = n.declare header.name { isFunction := true } := by
    rw [(declareFunction_ok hdeclare).2, naming_declare hcurrent hkey, hn]
    rfl
  -- and its parameters are in a block of their own.
  obtain ⟨⟨⟩, s₂, hopen, -⟩ := Succeeds.declareParams (c := c) header header.params
    (s₁.table.enterBlock header.opening.index) { s₁ with table := s₁.table.enterBlock header.opening.index } rfl
  obtain ⟨hdeclared, -, hopened, hparam, hother, hr₂⟩ := function_opens hlo hnodup hroot hr hdeclare hopen
  have hr₁ := hr.step hdeclared
  have hbefore : ∀ k ∈ key :: scope, k = rootBlock ∨ k.toNat < header.opening.index.toNat :=
    fun k hk => (hr.keys k hk).imp_right (by omega)
  have hn₂ := naming_opened (c := c) hnames hroot hbefore hopened (fun p hp => ⟨_, hparam p hp, rfl, rfl⟩) hother
  rw [hn₁] at hn₂
  obtain ⟨e, mid, hexpr, hshape⟩ := expr_written hconstants body hbody hbs hhi hwithin hr₂ hn₂
  have hext := (expr_placed hconstants hhi _ hwithin hr₂ hexpr).1
  have hinner := hopened.trans (hext.own_mono (List.nil_subset _))
  have hbodyRun := run_bind_eq (f := fun _ => expr c (Outline.ofTokens c.names endPos bs)) hopen hexpr
  obtain ⟨table, hleave, hblock⟩ := inBlock_run hbodyRun hinner.blocks.entered
  have hleft := Extends.leave hr₁.frames (Nat.le_refl _) (Nat.le_refl _) hroot hinner hleave
  obtain ⟨s', hrun, htable⟩ := function_run hdeclare hblock
  refine ⟨_, s', hrun, ?_, ?_⟩
  · rw [FunctionDef.shape, hshape, hparams]
    rfl
  · rw [← hn₁, htable]
    exact hleft.naming_eq fun k hk => ⟨List.not_mem_nil, hbefore k hk⟩

end

/-! ### Items -/

/-- An assignment that is written out is read back. -/
theorem assignment_written (hconstants : c.constants? = some constants) {x : Ident} {value : Shape} {n : Naming}
    (hnew : n.IsNew x) (hvalue : value.Valid n) {vs : List Token} (hvs : vs.map Token.kind = value.kinds 0)
    {lo hi : Nat} (hhi : hi < UInt64.size) {visibleFrom : UInt64} {pos : Position}
    (hwithin : (ItemOutline.assignment x (Outline.ofTokens c.names endPos vs) visibleFrom pos).Within lo hi)
    {s : State} (hr : Reading [rootBlock] lo s.table) (hn : s.table.naming c [rootBlock] = n) :
    ∃ tree s', (item c (.assignment x (Outline.ofTokens c.names endPos vs) visibleFrom pos)).run s = (.ok tree, s') ∧
      tree.shape = .assignment x (value.fold n) ∧ s'.table.naming c [rootBlock] = n.declare x {} := by
  obtain ⟨m, hwithin, hm, hlt⟩ := hwithin
  have hcurrent := hr.currentBlock_eq
  have hcheck := checkNew_run (c := c) pos (find?_of_isNew hcurrent (hn ▸ hnew))
  obtain ⟨e, s₁, hrun, hshape⟩ := expr_written hconstants value hvalue hvs (by omega) hwithin hr hn
  obtain ⟨hr₁, hn₁⟩ := expr_leaves hconstants (by omega) hwithin hr hn hrun
  have hcurrent₁ := hr₁.currentBlock_eq
  refine ⟨.assignment x e pos, { s₁ with table := s₁.table.declare x pos visibleFrom none false }, ?_, ?_, ?_⟩
  · rw [item]
    exact run_bind_eq hcheck (run_bind_eq hrun (run_bind_eq rfl rfl))
  · rw [Item.shape, hshape]
  · rw [naming_declare hcurrent₁ List.not_mem_nil, hn₁]
    rfl

/-- An item that is written out is read back, whatever comes after it. -/
theorem item_written (hconstants : c.constants? = some constants) (shape : ItemShape) {n : Naming}
    (hvalid : shape.Valid n) {ts : List Token} (hts : ts.map Token.kind = shape.kinds) (rest : List Token) :
    ∃ outline, ItemOutline.listOfTokens c.names endPos (ts ++ rest) =
        outline :: ItemOutline.listOfTokens c.names endPos rest ∧
      (∀ definition next pos, outline ≠ .function definition (some next) pos) ∧
      ∀ {lo hi : Nat} {s : State}, hi < UInt64.size → outline.Within lo hi → Reading [rootBlock] lo s.table →
        s.table.naming c [rootBlock] = n →
        ∃ tree s', (item c outline).run s = (.ok tree, s') ∧ tree.shape = shape.fold n ∧
          s'.table.naming c [rootBlock] = shape.declares n := by
  cases shape with
  | function f =>
    obtain ⟨fs, ends, rfl, hfs, hends⟩ := List.map_eq_append_iff.1 hts
    -- A function whose body is a block needs no semicolon after it.
    have hlayout : ∃ pos, ItemOutline.listOfTokens c.names endPos (fs ++ ends ++ rest) =
        .function (FunctionOutline.ofTokens c.names endPos fs) none pos ::
          ItemOutline.listOfTokens c.names endPos rest := by
      cases hblock : f.body.isBlock with
      | true =>
        rw [hblock, if_pos rfl] at hends
        rw [List.map_eq_nil_iff.1 hends, List.append_nil]
        exact ItemOutline.listOfTokens_function c.names endPos hvalid hfs fun h => by simp [hblock] at h
      | false =>
        rw [hblock, if_neg Bool.false_ne_true] at hends
        obtain ⟨semicolon, rfl, hsemicolon⟩ := List.map_eq_singleton_iff.1 hends
        rw [List.append_assoc, List.singleton_append,
          ← ItemOutline.listOfTokens_semicolon c.names endPos hsemicolon rest]
        exact ItemOutline.listOfTokens_function c.names endPos hvalid hfs fun _ => ⟨semicolon, rest, rfl, hsemicolon⟩
    obtain ⟨pos, hlayout⟩ := hlayout
    refine ⟨_, hlayout, by simp, ?_⟩
    intro lo hi s hhi hwithin hr hn
    obtain ⟨definition, s', hrun, hshape, hn'⟩ :=
      function_written hconstants f hvalid hfs hhi hwithin hr List.not_mem_nil hn
    refine ⟨.function definition pos, s', ?_, ?_, hn'⟩
    · rw [item]
      exact run_bind_eq hrun (run_bind_eq rfl rfl)
    · rw [Item.shape, hshape]
      rfl
  | assignment x value =>
    obtain ⟨hnew, hvalue⟩ := hvalid
    obtain ⟨name, _, rfl, hname, hrest⟩ := List.map_eq_cons_iff.1 hts
    obtain ⟨equals, _, rfl, hequals, hrest'⟩ := List.map_eq_cons_iff.1 hrest
    obtain ⟨vs, _, rfl, hvs, hlast⟩ := List.map_eq_append_iff.1 hrest'
    obtain ⟨semicolon, rfl, hsemicolon⟩ := List.map_eq_singleton_iff.1 hlast
    obtain ⟨visibleFrom, hlayout⟩ := ItemOutline.listOfTokens_assignment c.names endPos rest hname hequals
      (hvs ▸ Shape.nested_kinds value 0) hsemicolon
    refine ⟨.assignment x (Outline.ofTokens c.names endPos vs) visibleFrom name.pos, ?_, by simp, ?_⟩
    · rw [← hlayout]
      simp
    · intro lo hi s hhi hwithin hr hn
      exact assignment_written hconstants hnew hvalue hvs hhi hwithin hr hn

theorem attempt_run {x : Step α} {s s' : State} {a : α} (h : x.run s = (.ok a, s')) :
    (attempt x).run s = (.ok (some a), s') := by
  rw [attempt, ExceptT.run_mk, h]

/-- Items that are written out are read back without an error. -/
theorem items_written (hconstants : c.constants? = some constants) (shapes : List ItemShape) {n : Naming}
    (hvalid : ItemShape.AllValid n shapes) {ts : List Token} (hts : ts.map Token.kind = ItemShape.kindsOfAll shapes)
    {lo hi : Nat} (hhi : hi < UInt64.size)
    (hwithin : ItemOutline.AllWithin lo hi (ItemOutline.listOfTokens c.names endPos ts)) {s : State}
    (hr : Reading [rootBlock] lo s.table) (hn : s.table.naming c [rootBlock] = n) :
    ∃ trees s', (items c (ItemOutline.listOfTokens c.names endPos ts)).run s = (.ok trees, s') ∧
      s'.journal.errorCount = s.journal.errorCount ∧ trees.map Item.shape = ItemShape.foldAll n shapes := by
  induction shapes generalizing n ts lo s with
  | nil =>
    rw [List.map_eq_nil_iff.1 hts, ItemOutline.listOfTokens, items]
    exact ⟨[], s, rfl, rfl, rfl⟩
  | cons shape shapes ih =>
    rw [ItemShape.kindsOfAll, List.flatMap_cons] at hts
    obtain ⟨us, rest, rfl, hus, hrest⟩ := List.map_eq_append_iff.1 hts
    obtain ⟨outline, houtline, hended, hread⟩ := item_written hconstants shape hvalid.1 hus rest
    rw [houtline] at hwithin ⊢
    obtain ⟨m, hitem, hitems⟩ := hwithin
    have hm := ItemOutline.AllWithin.le hitems
    obtain ⟨tree, s₁, hrun, hshape, hn₁⟩ := hread (by omega) hitem hr hn
    have hext := (item_placed hconstants (by omega) outline hitem hr hrun).1
    have hquiet := Quiet.law.item c hended s
    rw [hrun] at hquiet
    obtain ⟨trees, s', hruns, herrors, hshapes⟩ := ih hvalid.2 hrest hitems (hr.step hext) hn₁
    refine ⟨tree :: trees, s', ?_, herrors.trans hquiet, ?_⟩
    · rw [items]
      exact run_bind_eq (attempt_run hrun) (run_bind_eq hruns rfl)
    · rw [List.map_cons, hshape, hshapes, ItemShape.foldAll]

/-- A valid program that is written out with as few parentheses as its tree needs is read back: no error is
reported, and the program is the one that was written, with built-in constants in place of their names. -/
theorem program_written (hconstants : c.constants? = some constants) {shapes : List ItemShape} {s : State}
    (hr : Reading [rootBlock] 0 s.table) (hvalid : ItemShape.AllValid (s.table.naming c [rootBlock]) shapes)
    {ts : List Token} (hts : ts.map Token.kind = ItemShape.kindsOfAll shapes) {hi : Nat} (hhi : hi < UInt64.size)
    (hordered : Token.Ordered 0 hi ts) (endPos : Position) :
    ∃ parsed s', (program c (ItemOutline.listOfTokens c.names endPos ts)).run s = (.ok parsed, s') ∧
      s'.journal.errorCount = s.journal.errorCount ∧
      parsed.map Item.shape = ItemShape.foldAll (s.table.naming c [rootBlock]) shapes := by
  have hwithin := ItemOutline.allWithin_listOfTokens c.names endPos hhi ts hordered
  obtain ⟨trees, s', hrun, herrors, hshapes⟩ := items_written hconstants shapes hvalid hts hhi hwithin hr rfl
  refine ⟨trees,
    { s' with journal := s'.journal.note .debug "parser" ("parsed " ++ toString trees.length ++ " items") }, ?_, ?_,
    hshapes⟩
  · rw [program]
    exact run_bind_eq hrun (run_bind_eq rfl rfl)
  · rw [Journal.errorCount_note, herrors]

end

/-- An assignment, a function whose block has a function, a guard and a conditional in it, and calls of both
styles. -/
def layeredSource : Source :=
  .ofString "layered" ("base = 2 * pi; [shape x, k = -1] \x7b [twice y] y + y; + twice(x) ? x > base; " ++
    "* if x : k else -(x + k) * 2; \x7d [main t] shape(x = t, k *= 2) - sin(t);")

/-- The program that is written in `layeredSource`. -/
def layeredShapes : List ItemShape :=
  [.assignment 19 (.binary .mul (.number 2) (.var 2)),
    .function ⟨20, [⟨7, none⟩, ⟨21, some ⟨true, 1⟩⟩], .block
      [.closure ⟨22, [⟨23, none⟩], .binary .add (.var 23) (.var 23)⟩,
        .operator .add (.call 22 .ordered [.positional (.var 7)]) (some (.binary .greater (.var 7) (.var 19))),
        .operator .mul (.conditional (.var 7) (.var 21)
          (.binary .mul (.prefixed .neg (.binary .add (.var 7) (.var 21))) (.number 2))) none]⟩,
    .function ⟨0, [⟨24, none⟩], .binary .sub
      (.call 20 .named [.assign 7 (.var 24), .opAssign 21 .mul (.number 2)])
      (.call 6 .ordered [.positional (.var 24)])⟩]

/-- The names and constants that every program has. -/
def nativeContext : Context :=
  { names := Compilation.native.names, constants? := some Compilation.native.constants }

/-- The state before anything is read. -/
def nativeState : State :=
  ⟨Compilation.native.table, Compilation.native.journal⟩

theorem nativeState_reading : Reading [rootBlock] 0 nativeState.table := by
  simp only [nativeState, ← (Compilation.prepared_native default none false).1]
  exact (Compilation.prepared_starts default true none false).reading

/-- The tokens of `layeredSource`. -/
def layeredTokens : List Token :=
  (Lexer.run layeredSource nativeContext.names nativeState.journal).tokens

theorem program_written_layered :
    layeredTokens.map Token.kind = ItemShape.kindsOfAll layeredShapes ∧
      ∃ parsed s', (program nativeContext (ItemOutline.listOfTokens nativeContext.names .start layeredTokens)).run
          nativeState = (.ok parsed, s') ∧
        s'.journal.errorCount = nativeState.journal.errorCount ∧
        parsed.map Item.shape =
          ItemShape.foldAll (nativeState.table.naming nativeContext [rootBlock]) layeredShapes := by
  have hvalid : ItemShape.AllValid (nativeState.table.naming nativeContext [rootBlock]) layeredShapes := by
    decide +kernel
  have hts : layeredTokens.map Token.kind = ItemShape.kindsOfAll layeredShapes := by decide +kernel
  have hsize : layeredSource.text.length < UInt64.size := by decide +kernel
  have hordered : Token.Ordered 0 layeredSource.text.length layeredTokens :=
    Lexer.ordered_run layeredSource nativeContext.names nativeState.journal hsize
  have hconstants : nativeContext.constants? = some Compilation.native.constants := rfl
  exact ⟨hts, program_written hconstants nativeState_reading hvalid hts hsize hordered .start⟩

end Resolution
end ToneScript
