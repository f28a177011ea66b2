import ToneScript.Proofs.Outline.Extent
import ToneScript.Proofs.Scope.Lookup
import ToneScript.Proofs.Syntax.Rule
import ToneScript.Typing.Signature

/-! Where the parts of a program stand, against a symbol table. The parts of a program take up intervals of
the text, and a block of the table holds what is declared in the intervals of its entries and nothing
else. -/
namespace ToneScript

namespace FunctionDef

/-- The declaration of a function. It can be used from its own bracket on. -/
def declaration (f : FunctionDef) : Declaration :=
  ⟨f.scope, f.name, f.pos, f.argsKey, some (.function f.name), false⟩

/-- The declaration of a parameter. -/
def paramDeclaration (f : FunctionDef) (p : Param) : Declaration :=
  ⟨f.bodyScope, p.name, p.pos, f.argsKey, some .number, false⟩

end FunctionDef

namespace SymbolTable

/-- No block of a chain gets a declaration between two offsets. -/
def Clear (t : SymbolTable) (scope : List BlockKey) (lo hi : Nat) : Prop :=
  ∀ key ∈ scope, ∀ name d, t.find? key name = some d → d.builtin = false →
    d.visibleFrom.toNat < lo ∨ hi ≤ d.visibleFrom.toNat

/-- A block that opens after an offset and holds only what is declared from `first` on. -/
def Opens (t : SymbolTable) (key : BlockKey) (lo first : Nat) : Prop :=
  lo ≤ key.toNat ∧ key ≠ rootBlock ∧
    ∀ name d, t.find? key name = some d → d.builtin = false ∧ first ≤ d.visibleFrom.toNat

theorem Clear.narrow {t : SymbolTable} {scope : List BlockKey} {lo hi lo' hi' : Nat}
    (h : t.Clear scope lo hi) (hlo : lo ≤ lo') (hhi : hi' ≤ hi) : t.Clear scope lo' hi' := by
  intro key hkey name d hd hsource
  rcases h key hkey name d hd hsource with h | h
  · exact .inl (Nat.lt_of_lt_of_le h hlo)
  · exact .inr (Nat.le_trans hhi h)

theorem Clear.join {t : SymbolTable} {scope : List BlockKey} {lo hi : Nat}
    (h : t.Clear (scope.take 1) lo hi) (h' : t.Clear (scope.drop 1) lo hi) : t.Clear scope lo hi := by
  intro key hkey
  rw [← List.take_append_drop 1 scope, List.mem_append] at hkey
  exact hkey.elim (h key) (h' key)

end SymbolTable

section

variable (constants : List (Ident × Value)) (t : SymbolTable)

/-- An arithmetic expression whose names are used within an interval. A name alone that stands for an argument
is a variable of that name, or the value of a built-in one. -/
def Rule.named (lo hi : Nat) : Rule where
  var _ _ pos := pos.Between lo hi
  call p site args :=
    site.pos.Between lo hi ∧ SiteArgument.toArguments site.args = .ok args ∧
    (∀ arg ∈ site.args, arg.name? = none ↔ site.style = .ordered) ∧
    ∀ name value pos, .shorthand name value pos ∈ site.args → pos.Between lo hi ∧
      (value.cells = [.slot name pos] ∨ ∃ v d crossed, value.cells = [.value v pos] ∧
        t.resolve p name pos = some (d, crossed) ∧ d.builtin = true ∧
        constants.lookup name = some v)
  block _ _ := False
  conditional _ _ _ _ := False

mutual

/-- An expression between two offsets, in a chain of blocks with the innermost first. -/
def Expr.Placed (scope : List BlockKey) (lo hi : Nat) : Expr → Prop
  | .conditional c e e' _ =>
    ∃ m n, c.Placed scope lo m ∧ e.Placed scope m n ∧ e'.Placed scope n hi
  | .block key entries _ =>
    t.Opens key lo (key.toNat + 1) ∧ BlockEntry.AllPlaced (key :: scope) (key.toNat + 1) hi entries
  | .span compiled tree =>
    lo ≤ hi ∧ Cell.toTrees [] compiled.cells = .ok [tree] ∧
      tree.Obeys (.named constants t lo hi) scope
  | .number .. => False
  | .boolean .. => False
  | .var .. => False
  | .prefixed .. => False
  | .binary .. => False
  | .call .. => False

/-- An entry of the innermost block. -/
def BlockEntry.Placed (scope : List BlockKey) (lo hi : Nat) : BlockEntry → Prop
  | .operator _ value guard _ =>
    t.Clear (scope.take 1) lo hi ∧
      ∃ m, value.Placed scope lo m ∧ Expr.OptionPlaced scope m hi guard
  | .closure f _ => f.Placed scope lo hi

/-- Entries that follow each other. -/
def BlockEntry.AllPlaced (scope : List BlockKey) (lo hi : Nat) : List BlockEntry → Prop
  | [] => lo ≤ hi
  | item :: items => ∃ m, item.Placed scope lo m ∧ BlockEntry.AllPlaced scope m hi items

/-- An expression that may be absent. -/
def Expr.OptionPlaced (scope : List BlockKey) (lo hi : Nat) : Option Expr → Prop
  | none => lo ≤ hi
  | some e => e.Placed scope lo hi

/-- A function that is declared in the innermost block, where nothing else is declared in its interval. Its
parameters are what its own block holds. -/
def FunctionDef.Placed (scope : List BlockKey) (lo hi : Nat) : FunctionDef → Prop
  | ⟨name, pos, params, argsKey, around, body⟩ =>
    let f : FunctionDef := ⟨name, pos, params, argsKey, around, body⟩
    t.Opens argsKey lo argsKey.toNat ∧ around = scope.reverse ∧ (params.map Param.name).Nodup ∧
      (∀ key ∈ scope.take 1, t.find? key name = some f.declaration ∧
        ∀ other d, t.find? key other = some d → d.builtin = false → lo ≤ d.visibleFrom.toNat →
          d.visibleFrom.toNat < hi → d = f.declaration) ∧
      (∀ p ∈ params, t.find? argsKey p.name = some (f.paramDeclaration p)) ∧
      (∀ other d, t.find? argsKey other = some d → d.visibleFrom.toNat < hi →
        ∃ p ∈ params, d = f.paramDeclaration p) ∧
      body.Placed (argsKey :: scope) (argsKey.toNat + 1) hi

end

/-- An item between two offsets. The name of an assignment can be used after its value. -/
def Item.Placed (lo hi : Nat) : Item → Prop
  | .function f _ => f.Placed constants t [rootBlock] lo hi
  | .assignment name value _ => ∃ m d, value.Placed constants t [rootBlock] lo m ∧
      t.find? rootBlock name = some d ∧ d.builtin = false ∧ d.isFunction = false ∧
      m ≤ d.visibleFrom.toNat ∧ d.visibleFrom.toNat < hi ∧
      ∀ other d', t.find? rootBlock other = some d' → d'.builtin = false →
        lo ≤ d'.visibleFrom.toNat → d'.visibleFrom.toNat < hi → d' = d

/-- Items that follow each other between two offsets. -/
def Item.AllPlaced (lo hi : Nat) : List Item → Prop
  | [] => lo ≤ hi ∧ t.Clear [rootBlock] lo hi
  | item :: items => ∃ m, item.Placed constants t lo m ∧ Item.AllPlaced m hi items

end

mutual

/-- The functions defined in an expression. -/
def Expr.functions : Expr → List FunctionDef
  | .block _ entries _ => BlockEntry.functionsOfAll entries
  | .conditional c t e _ => c.functions ++ t.functions ++ e.functions
  | .number .. | .boolean .. | .var .. | .prefixed .. | .binary .. | .call .. | .span .. => []

/-- The functions defined in an entry of a block. -/
def BlockEntry.functions : BlockEntry → List FunctionDef
  | .operator _ value guard _ => value.functions ++ Expr.functionsOfOption guard
  | .closure definition _ => definition.functions

/-- The functions defined in the entries of a block. -/
def BlockEntry.functionsOfAll : List BlockEntry → List FunctionDef
  | [] => []
  | e :: es => e.functions ++ BlockEntry.functionsOfAll es

/-- The functions defined in an expression that may be absent. -/
def Expr.functionsOfOption : Option Expr → List FunctionDef
  | none => []
  | some e => e.functions

/-- A function and those defined in its body. -/
def FunctionDef.functions : FunctionDef → List FunctionDef
  | ⟨name, pos, params, argsKey, scope, body⟩ =>
    ⟨name, pos, params, argsKey, scope, body⟩ :: body.functions

end

/-- The functions defined in an item. -/
def Item.functions : Item → List FunctionDef
  | .function definition _ => definition.functions
  | .assignment _ value _ => value.functions

/-- The functions of a program, in the order of the text. -/
def Program.functions (program : Program) : List FunctionDef :=
  program.flatMap Item.functions

theorem FunctionDef.functions_eq (f : FunctionDef) : f.functions = f :: f.body.functions := by
  cases f
  rw [FunctionDef.functions]

mutual

theorem Expr.definitions_subset (e : Expr) : e.definitions ⊆ e.functions := by
  cases e with
  | block key entries pos =>
    rw [Expr.definitions, Expr.functions]
    exact BlockEntry.definitionsOfAll_subset entries
  | conditional c t e pos =>
    have hc := Expr.definitions_subset c
    have ht := Expr.definitions_subset t
    have he := Expr.definitions_subset e
    intro f hf
    simp only [Expr.definitions, Expr.functions, List.mem_append] at hf ⊢
    grind
  | number | boolean | var | prefixed | binary | call | span => simp [Expr.definitions]

theorem BlockEntry.definitions_subset (item : BlockEntry) : item.definitions ⊆ item.functions := by
  cases item with
  | operator op value guard pos =>
    have hvalue := Expr.definitions_subset value
    intro f hf
    simp only [BlockEntry.definitions, BlockEntry.functions, List.mem_append] at hf ⊢
    exact .inl (hvalue hf)
  | closure f pos =>
    rw [BlockEntry.definitions, BlockEntry.functions]
    exact FunctionDef.definitions_subset f

theorem BlockEntry.definitionsOfAll_subset (items : List BlockEntry) :
    BlockEntry.definitionsOfAll items ⊆ BlockEntry.functionsOfAll items := by
  cases items with
  | nil => simp [BlockEntry.definitionsOfAll]
  | cons item items =>
    have hitem := BlockEntry.definitions_subset item
    have hitems := BlockEntry.definitionsOfAll_subset items
    intro f hf
    simp only [BlockEntry.definitionsOfAll, BlockEntry.functionsOfAll, List.mem_append] at hf ⊢
    exact hf.imp (hitem ·) (hitems ·)

theorem FunctionDef.definitions_subset (f : FunctionDef) : f.definitions ⊆ f.functions := by
  obtain ⟨name, pos, params, argsKey, scope, body⟩ := f
  rw [FunctionDef.definitions, FunctionDef.functions]
  exact List.cons_subset_cons _ (Expr.definitions_subset body)

end

theorem Program.definitions_subset (program : Program) :
    program.flatMap Item.definitions ⊆ program.functions := by
  intro f hf
  obtain ⟨item, hitem, hf⟩ := List.mem_flatMap.1 hf
  refine List.mem_flatMap.2 ⟨item, hitem, ?_⟩
  cases item with
  | function definition _ => exact FunctionDef.definitions_subset definition hf
  | assignment _ value _ => exact Expr.definitions_subset value hf

namespace FunctionDef

/-- Functions that follow each other between two offsets. -/
def InOrder (lo hi : Nat) (fs : List FunctionDef) : Prop :=
  lo ≤ hi ∧ fs.Pairwise (·.argsKey.toNat < ·.argsKey.toNat) ∧
    ∀ f ∈ fs, lo ≤ f.argsKey.toNat ∧ f.argsKey.toNat < hi

theorem InOrder.nil {lo hi : Nat} (h : lo ≤ hi) : InOrder lo hi [] :=
  ⟨h, .nil, by simp⟩

theorem InOrder.append {lo mid hi : Nat} {fs gs : List FunctionDef} (hf : InOrder lo mid fs)
    (hg : InOrder mid hi gs) : InOrder lo hi (fs ++ gs) := by
  obtain ⟨hlo, hfs, hfb⟩ := hf
  obtain ⟨hhi, hgs, hgb⟩ := hg
  refine ⟨Nat.le_trans hlo hhi, List.pairwise_append.2 ⟨hfs, hgs, ?_⟩, ?_⟩
  · intro f hf g hg
    exact Nat.lt_of_lt_of_le (hfb f hf).2 (hgb g hg).1
  · intro f hf
    rcases List.mem_append.1 hf with hf | hf
    · exact ⟨(hfb f hf).1, Nat.lt_of_lt_of_le (hfb f hf).2 hhi⟩
    · exact ⟨Nat.le_trans hlo (hgb f hf).1, (hgb f hf).2⟩

/-- Functions that stand in order are told apart by where they open. -/
theorem InOrder.eq_of_argsKey_eq {lo hi : Nat} {fs : List FunctionDef} (h : InOrder lo hi fs)
    {f g : FunctionDef} (hf : f ∈ fs) (hg : g ∈ fs) (heq : f.argsKey = g.argsKey) : f = g := by
  have hordered := h.2.1
  clear h
  induction hordered with
  | nil => cases hf
  | cons hfirst _ ih =>
    rcases List.mem_cons.1 hf with rfl | hf' <;> rcases List.mem_cons.1 hg with rfl | hg'
    · rfl
    · exact absurd (hfirst g hg') (by simp [heq])
    · exact absurd (hfirst f hf') (by simp [heq])
    · exact ih hf' hg'

end FunctionDef

section

variable {constants : List (Ident × Value)} {t : SymbolTable}

theorem FunctionDef.placed_iff {scope : List BlockKey} {lo hi : Nat} {f : FunctionDef} :
    f.Placed constants t scope lo hi ↔
      t.Opens f.argsKey lo f.argsKey.toNat ∧ f.scope = scope.reverse ∧ (f.params.map Param.name).Nodup ∧
      (∀ key ∈ scope.take 1, t.find? key f.name = some f.declaration ∧
        ∀ other d, t.find? key other = some d → d.builtin = false → lo ≤ d.visibleFrom.toNat →
          d.visibleFrom.toNat < hi → d = f.declaration) ∧
      (∀ p ∈ f.params, t.find? f.argsKey p.name = some (f.paramDeclaration p)) ∧
      (∀ other d, t.find? f.argsKey other = some d → d.visibleFrom.toNat < hi →
        ∃ p ∈ f.params, d = f.paramDeclaration p) ∧
      f.body.Placed constants t (f.argsKey :: scope) (f.argsKey.toNat + 1) hi := by
  cases f
  exact Iff.rfl

mutual

theorem Expr.Placed.inOrder {scope : List BlockKey} {lo hi : Nat} (e : Expr)
    (h : e.Placed constants t scope lo hi) : FunctionDef.InOrder lo hi e.functions := by
  cases e with
  | conditional c e e' pos =>
    obtain ⟨m, n, hc, he, he'⟩ := h
    rw [Expr.functions]
    exact ((Expr.Placed.inOrder c hc).append (Expr.Placed.inOrder e he)).append
      (Expr.Placed.inOrder e' he')
  | block key entries pos =>
    obtain ⟨hopens, hentries⟩ := h
    have hkey : FunctionDef.InOrder lo (key.toNat + 1) [] := .nil (Nat.le_succ_of_le hopens.1)
    rw [Expr.functions]
    exact hkey.append (BlockEntry.AllPlaced.inOrder entries hentries)
  | span compiled tree => exact .nil h.1
  | number | boolean | var | prefixed | binary | call => cases h

theorem BlockEntry.Placed.inOrder {scope : List BlockKey} {lo hi : Nat} (item : BlockEntry)
    (h : item.Placed constants t scope lo hi) : FunctionDef.InOrder lo hi item.functions := by
  cases item with
  | operator op value guard pos =>
    obtain ⟨_, m, hvalue, hguard⟩ := h
    rw [BlockEntry.functions]
    exact (Expr.Placed.inOrder value hvalue).append (Expr.OptionPlaced.inOrder guard hguard)
  | closure f pos =>
    rw [BlockEntry.functions]
    exact FunctionDef.Placed.inOrder f h

theorem BlockEntry.AllPlaced.inOrder {scope : List BlockKey} {lo hi : Nat} (items : List BlockEntry)
    (h : BlockEntry.AllPlaced constants t scope lo hi items) :
    FunctionDef.InOrder lo hi (BlockEntry.functionsOfAll items) := by
  cases items with
  | nil => exact .nil h
  | cons item items =>
    obtain ⟨m, hitem, hitems⟩ := h
    rw [BlockEntry.functionsOfAll]
    exact (BlockEntry.Placed.inOrder item hitem).append (BlockEntry.AllPlaced.inOrder items hitems)

theorem Expr.OptionPlaced.inOrder {scope : List BlockKey} {lo hi : Nat} (e : Option Expr)
    (h : Expr.OptionPlaced constants t scope lo hi e) :
    FunctionDef.InOrder lo hi (Expr.functionsOfOption e) := by
  cases e with
  | none => exact .nil h
  | some e =>
    rw [Expr.functionsOfOption]
    exact Expr.Placed.inOrder e h

theorem FunctionDef.Placed.inOrder {scope : List BlockKey} {lo hi : Nat} (f : FunctionDef)
    (h : f.Placed constants t scope lo hi) : FunctionDef.InOrder lo hi f.functions := by
  obtain ⟨name, pos, params, argsKey, around, body⟩ := f
  obtain ⟨hopens, _, _, _, _, _, hbody⟩ := h
  obtain ⟨hle, hpairs, hbounds⟩ := Expr.Placed.inOrder body hbody
  have hlo := hopens.1
  rw [FunctionDef.functions]
  refine ⟨by omega, List.pairwise_cons.2 ⟨fun g hg => (hbounds g hg).1, hpairs⟩, ?_⟩
  intro g hg
  rcases List.mem_cons.1 hg with rfl | hg
  · exact ⟨hlo, hle⟩
  · have := hbounds g hg
    omega

end

theorem Item.AllPlaced.inOrder {lo hi : Nat} {items : List Item}
    (h : Item.AllPlaced constants t lo hi items) :
    FunctionDef.InOrder lo hi (Program.functions items) := by
  induction items generalizing lo with
  | nil => exact .nil h.1
  | cons item items ih =>
    obtain ⟨m, hitem, hitems⟩ := h
    have hfirst : FunctionDef.InOrder lo m item.functions := by
      cases item with
      | function f _ => exact FunctionDef.Placed.inOrder f hitem
      | assignment name value _ =>
        obtain ⟨n, d, hvalue, _, _, _, hle, hlt, _⟩ := hitem
        obtain ⟨hlo, hpairs, hbounds⟩ := Expr.Placed.inOrder value hvalue
        refine ⟨by omega, hpairs, fun f hf => ?_⟩
        have := hbounds f hf
        omega
    exact hfirst.append (ih hitems)

/-- The block that holds a function, where it is declared. -/
theorem FunctionDef.Placed.find? {key : BlockKey} {scope : List BlockKey} {lo hi : Nat} {f : FunctionDef}
    (h : f.Placed constants t (key :: scope) lo hi) :
    f.block = key ∧ t.find? key f.name = some f.declaration := by
  obtain ⟨_, hscope, _, hdecl, _⟩ := FunctionDef.placed_iff.1 h
  refine ⟨?_, (hdecl key (by simp)).1⟩
  simp [FunctionDef.block, hscope]

/-- What a function and the blocks around it declare in its interval is itself. -/
theorem FunctionDef.Placed.declared {scope : List BlockKey} {lo hi : Nat} {f : FunctionDef}
    (h : f.Placed constants t scope lo hi) (hclear : t.Clear (scope.drop 1) lo hi) {key : BlockKey}
    (hkey : key ∈ scope) {name : Ident} {d : Declaration} (hfind : t.find? key name = some d)
    (hsource : d.builtin = false) (hlo : lo ≤ d.visibleFrom.toNat) (hhi : d.visibleFrom.toNat < hi) :
    f.key = (key, name) ∧ d = f.declaration := by
  obtain ⟨_, hscope, _, hdecl, _⟩ := FunctionDef.placed_iff.1 h
  cases scope with
  | nil => cases hkey
  | cons first rest =>
    rcases List.mem_cons.1 hkey with rfl | hmem
    · have heq := (hdecl key (by simp)).2 name d hfind hsource hlo hhi
      have hname := SymbolTable.find?_name hfind
      rw [heq] at hname
      refine ⟨Prod.ext ?_ hname, heq⟩
      simp [FunctionDef.key, FunctionDef.block, hscope]
    · rcases hclear key hmem name d hfind hsource with hlt | hle
      · omega
      · omega

/-- Nothing is declared around the body of a function in its interval. -/
theorem FunctionDef.Placed.clear {scope : List BlockKey} {lo hi : Nat} {f : FunctionDef}
    (h : f.Placed constants t scope lo hi) (hclear : t.Clear (scope.drop 1) lo hi) :
    t.Clear (f.argsKey :: scope) (f.argsKey.toNat + 1) hi := by
  obtain ⟨⟨hlo, _, _⟩, _, _, _, _, hparams, _⟩ := FunctionDef.placed_iff.1 h
  intro key hkey name d hd hsource
  by_cases hhi : hi ≤ d.visibleFrom.toNat
  · exact .inr hhi
  left
  rcases List.mem_cons.1 hkey with rfl | hmem
  · obtain ⟨p, _, rfl⟩ := hparams name d hd (Nat.not_le.1 hhi)
    exact Nat.lt_succ_self _
  · by_cases hold : d.visibleFrom.toNat < lo
    · omega
    · obtain ⟨_, rfl⟩ := h.declared hclear hmem hd hsource (Nat.not_lt.1 hold) (Nat.not_le.1 hhi)
      exact Nat.lt_succ_self _

/-- A function is placed somewhere in the interval of what it is defined in, in a longer chain of blocks. -/
def FunctionDef.PlacedWithin (constants : List (Ident × Value)) (t : SymbolTable) (scope : List BlockKey)
    (lo hi : Nat) (f : FunctionDef) : Prop :=
  ∃ scope' lo' hi', scope <:+ scope' ∧ lo ≤ lo' ∧ hi' ≤ hi ∧ f.Placed constants t scope' lo' hi'

theorem FunctionDef.PlacedWithin.widen {scope scope' : List BlockKey} {lo lo' hi hi' : Nat}
    {f : FunctionDef} (h : f.PlacedWithin constants t scope' lo' hi') (hscope : scope <:+ scope')
    (hlo : lo ≤ lo') (hhi : hi' ≤ hi) : f.PlacedWithin constants t scope lo hi := by
  obtain ⟨scope₁, lo₁, hi₁, hscope₁, hlo₁, hhi₁, hf⟩ := h
  exact ⟨scope₁, lo₁, hi₁, hscope.trans hscope₁, Nat.le_trans hlo hlo₁, Nat.le_trans hhi₁ hhi, hf⟩

mutual

theorem Expr.Placed.placedWithin {scope : List BlockKey} {lo hi : Nat} (e : Expr)
    (h : e.Placed constants t scope lo hi) :
    ∀ f ∈ e.functions, f.PlacedWithin constants t scope lo hi := by
  cases e with
  | conditional c e e' pos =>
    obtain ⟨m, n, hc, he, he'⟩ := h
    have hlo := (Expr.Placed.inOrder c hc).1
    have hmid := (Expr.Placed.inOrder e he).1
    have hhi := (Expr.Placed.inOrder e' he').1
    intro f hf
    simp only [Expr.functions, List.mem_append] at hf
    rcases hf with (hf | hf) | hf
    · exact (Expr.Placed.placedWithin c hc f hf).widen List.suffix_rfl (Nat.le_refl _) (by omega)
    · exact (Expr.Placed.placedWithin e he f hf).widen List.suffix_rfl hlo hhi
    · exact (Expr.Placed.placedWithin e' he' f hf).widen List.suffix_rfl (by omega) (Nat.le_refl _)
  | block key entries pos =>
    obtain ⟨hopens, hentries⟩ := h
    intro f hf
    rw [Expr.functions] at hf
    exact (BlockEntry.AllPlaced.placedWithin entries hentries f hf).widen (List.suffix_cons _ _)
      (Nat.le_succ_of_le hopens.1) (Nat.le_refl _)
  | span | number | boolean | var | prefixed | binary | call => simp [Expr.functions]

theorem BlockEntry.Placed.placedWithin {scope : List BlockKey} {lo hi : Nat} (item : BlockEntry)
    (h : item.Placed constants t scope lo hi) :
    ∀ f ∈ item.functions, f.PlacedWithin constants t scope lo hi := by
  cases item with
  | operator op value guard pos =>
    obtain ⟨_, m, hvalue, hguard⟩ := h
    intro f hf
    simp only [BlockEntry.functions, List.mem_append] at hf
    rcases hf with hf | hf
    · exact (Expr.Placed.placedWithin value hvalue f hf).widen List.suffix_rfl (Nat.le_refl _)
        (Expr.OptionPlaced.inOrder guard hguard).1
    · exact (Expr.OptionPlaced.placedWithin guard hguard f hf).widen List.suffix_rfl
        (Expr.Placed.inOrder value hvalue).1 (Nat.le_refl _)
  | closure f pos =>
    rw [BlockEntry.functions]
    exact FunctionDef.Placed.placedWithin f h

theorem BlockEntry.AllPlaced.placedWithin {scope : List BlockKey} {lo hi : Nat} (items : List BlockEntry)
    (h : BlockEntry.AllPlaced constants t scope lo hi items) :
    ∀ f ∈ BlockEntry.functionsOfAll items, f.PlacedWithin constants t scope lo hi := by
  cases items with
  | nil => simp [BlockEntry.functionsOfAll]
  | cons item items =>
    obtain ⟨m, hitem, hitems⟩ := h
    intro f hf
    simp only [BlockEntry.functionsOfAll, List.mem_append] at hf
    rcases hf with hf | hf
    · exact (BlockEntry.Placed.placedWithin item hitem f hf).widen List.suffix_rfl (Nat.le_refl _)
        (BlockEntry.AllPlaced.inOrder items hitems).1
    · exact (BlockEntry.AllPlaced.placedWithin items hitems f hf).widen List.suffix_rfl
        (BlockEntry.Placed.inOrder item hitem).1 (Nat.le_refl _)

theorem Expr.OptionPlaced.placedWithin {scope : List BlockKey} {lo hi : Nat} (e : Option Expr)
    (h : Expr.OptionPlaced constants t scope lo hi e) :
    ∀ f ∈ Expr.functionsOfOption e, f.PlacedWithin constants t scope lo hi := by
  cases e with
  | none => simp [Expr.functionsOfOption]
  | some e =>
    rw [Expr.functionsOfOption]
    exact Expr.Placed.placedWithin e h

theorem FunctionDef.Placed.placedWithin {scope : List BlockKey} {lo hi : Nat} (f : FunctionDef)
    (h : f.Placed constants t scope lo hi) :
    ∀ g ∈ f.functions, g.PlacedWithin constants t scope lo hi := by
  obtain ⟨name, pos, params, argsKey, around, body⟩ := f
  intro g hg
  rw [FunctionDef.functions] at hg
  rcases List.mem_cons.1 hg with rfl | hg
  · exact ⟨scope, lo, hi, List.suffix_rfl, Nat.le_refl _, Nat.le_refl _, h⟩
  · obtain ⟨hopens, _, _, _, _, _, hbody⟩ := h
    exact (Expr.Placed.placedWithin body hbody g hg).widen (List.suffix_cons _ _)
      (Nat.le_succ_of_le hopens.1) (Nat.le_refl _)

end

theorem Item.Placed.le {lo hi : Nat} {item : Item} (h : item.Placed constants t lo hi) : lo ≤ hi := by
  cases item with
  | function f _ => exact (FunctionDef.Placed.inOrder f h).1
  | assignment name value _ =>
    obtain ⟨m, d, hvalue, _, _, _, hle, hlt, _⟩ := h
    have := (Expr.Placed.inOrder value hvalue).1
    omega

theorem Item.AllPlaced.placedWithin {lo hi : Nat} {items : List Item}
    (h : Item.AllPlaced constants t lo hi items) :
    ∀ f ∈ Program.functions items, f.PlacedWithin constants t [rootBlock] lo hi := by
  induction items generalizing lo with
  | nil => simp [Program.functions]
  | cons item items ih =>
    obtain ⟨m, hitem, hitems⟩ := h
    have hle := (Item.AllPlaced.inOrder hitems).1
    intro f hf
    rw [Program.functions, List.flatMap_cons, List.mem_append] at hf
    rcases hf with hf | hf
    · cases item with
      | function g _ =>
        exact (FunctionDef.Placed.placedWithin g hitem f hf).widen List.suffix_rfl (Nat.le_refl _) hle
      | assignment name value _ =>
        obtain ⟨n, d, hvalue, _, _, _, hn, hlt, _⟩ := hitem
        exact (Expr.Placed.placedWithin value hvalue f hf).widen List.suffix_rfl (Nat.le_refl _) (by omega)
    · exact (ih hitems f hf).widen List.suffix_rfl (Item.Placed.le hitem) (Nat.le_refl _)

/-- What the outermost block declares between two offsets is declared by the items there. -/
theorem Item.AllPlaced.declared {lo hi : Nat} {items : List Item}
    (h : Item.AllPlaced constants t lo hi items) {name : Ident} {d : Declaration}
    (hfind : t.find? rootBlock name = some d) (hsource : d.builtin = false)
    (hlo : lo ≤ d.visibleFrom.toNat) (hhi : d.visibleFrom.toNat < hi) :
    (∃ f pos, .function f pos ∈ items ∧ d = f.declaration) ∨
      (d.isFunction = false ∧ ∃ value pos, .assignment name value pos ∈ items) := by
  induction items generalizing lo with
  | nil =>
    rcases h.2 rootBlock (List.mem_singleton_self _) name d hfind hsource with hlt | hle
    · omega
    · omega
  | cons item items ih =>
    obtain ⟨m, hitem, hrest⟩ := h
    by_cases hm : d.visibleFrom.toNat < m
    · cases item with
      | function f pos =>
        obtain ⟨_, heq⟩ := FunctionDef.Placed.declared hitem nofun (List.mem_singleton_self _) hfind
          hsource hlo hm
        exact .inl ⟨f, pos, List.mem_cons_self, heq⟩
      | assignment other value pos =>
        obtain ⟨_, d', _, hd', _, hvariable, _, _, hunique⟩ := hitem
        cases hunique name d hfind hsource hlo hm
        have hname := (SymbolTable.find?_name hfind).symm.trans (SymbolTable.find?_name hd')
        subst hname
        exact .inr ⟨hvariable, value, pos, List.mem_cons_self⟩
    · rcases ih hrest (Nat.not_lt.1 hm) with ⟨f, pos, hmem, heq⟩ | ⟨hvariable, value, pos, hmem⟩
      · exact .inl ⟨f, pos, List.mem_cons_of_mem _ hmem, heq⟩
      · exact .inr ⟨hvariable, value, pos, List.mem_cons_of_mem _ hmem⟩

end

end ToneScript
