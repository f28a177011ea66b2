import ToneScript.Proofs.Scope.Uses

/-! The functions around a function. The blocks around it declare nothing but functions and the parameters of these, and
whether a variable is found there can be told by how many blocks are crossed to reach it, because the blocks of a chain
open one after the other. -/
namespace ToneScript

namespace SymbolTable

/-- What the blocks of a chain declare before an offset, but for the outermost one: functions, and the parameters of
given functions. -/
def Encloses (t : SymbolTable) (around : List FunctionDef) (scope : List BlockKey) (lo : Nat) : Prop :=
  ∀ key ∈ scope, key ≠ rootBlock → ∀ name d, t.find? key name = some d → d.builtin = false →
    d.visibleFrom.toNat < lo → d.isFunction = true ∨ ∃ g ∈ around, ∃ p ∈ g.params, d = g.paramDeclaration p

section Encloses

variable {constants : List (Ident × Value)} {t : SymbolTable} {around : List FunctionDef} {scope : List BlockKey}
  {lo hi : Nat}

theorem Encloses.outermost (t : SymbolTable) (lo : Nat) : t.Encloses [] [rootBlock] lo :=
  fun _ hkey hne => absurd (List.mem_singleton.1 hkey) hne

/-- Where nothing is declared between two offsets. -/
theorem Encloses.advance (h : t.Encloses around scope lo) (hclear : t.Clear scope lo hi) :
    t.Encloses around scope hi := by
  intro key hkey hne name d hd hsource hlt
  refine h key hkey hne name d hd hsource ?_
  have hcase := hclear key hkey name d hd hsource
  omega

/-- A block that opens now declares nothing yet. -/
theorem Encloses.enterBlock (h : t.Encloses around scope lo) (hclear : t.Clear scope lo hi) {key : BlockKey}
    (hopens : t.Opens key lo (key.toNat + 1)) (hhi : key.toNat + 1 ≤ hi) :
    t.Encloses around (key :: scope) (key.toNat + 1) := by
  intro key' hkey' hne name d hd hsource hlt
  rcases List.mem_cons.1 hkey' with rfl | hmem
  · have hfirst := (hopens.2.2 name d hd).2
    omega
  · exact h.advance (hclear.narrow (Nat.le_refl lo) hhi) key' hmem hne name d hd hsource hlt

/-- After a function. -/
theorem Encloses.define (h : t.Encloses around scope lo) {f : FunctionDef}
    (hplaced : f.Placed constants t scope lo hi) (hclear : t.Clear (scope.drop 1) lo hi) {mid : Nat}
    (hmid : mid ≤ hi) : t.Encloses around scope mid := by
  intro key hkey hne name d hd hsource hlt
  by_cases hold : d.visibleFrom.toNat < lo
  · exact h key hkey hne name d hd hsource hold
  · obtain ⟨_, rfl⟩ := hplaced.declared hclear hkey hd hsource (Nat.not_lt.1 hold) (Nat.lt_of_lt_of_le hlt hmid)
    exact .inl rfl

/-- In the body of a function. -/
theorem Encloses.enterBody (h : t.Encloses around scope lo) {f : FunctionDef}
    (hplaced : f.Placed constants t scope lo hi) (hclear : t.Clear (scope.drop 1) lo hi) :
    t.Encloses (f :: around) (f.argsKey :: scope) (f.argsKey.toNat + 1) := by
  obtain ⟨_, _, _, _, _, hparams, hbody⟩ := FunctionDef.placed_iff.1 hplaced
  have hhi : f.argsKey.toNat + 1 ≤ hi := (Expr.Placed.inOrder f.body hbody).1
  intro key hkey hne name d hd hsource hlt
  rcases List.mem_cons.1 hkey with rfl | hmem
  · obtain ⟨p, hp, heq⟩ := hparams name d hd (Nat.lt_of_lt_of_le hlt hhi)
    exact .inr ⟨f, List.mem_cons_self, p, hp, heq⟩
  · refine (h.define hplaced hclear hhi key hmem hne name d hd hsource hlt).imp_right ?_
    rintro ⟨g, hg, hparam⟩
    exact ⟨g, List.mem_cons_of_mem f hg, hparam⟩

end Encloses
end SymbolTable

section Situated

variable (constants : List (Ident × Value)) (t : SymbolTable)

/-- A function that is placed with other ones around it, each of which is among the given ones or is one of `fs` that
the function is defined in. -/
def FunctionDef.Situated (around fs : List FunctionDef) (f : FunctionDef) : Prop :=
  ∃ outer scope lo hi, f.Placed constants t scope lo hi ∧ t.Clear (scope.drop 1) lo hi ∧
    t.Encloses outer scope lo ∧ ∀ g ∈ outer, g ∈ around ∨ g ∈ fs ∧ f ∈ g.body.functions

variable {constants t} {around fs gs : List FunctionDef} {scope : List BlockKey} {lo hi : Nat}

theorem FunctionDef.Situated.mono {f : FunctionDef} (h : f.Situated constants t around fs) (hsub : fs ⊆ gs) :
    f.Situated constants t around gs := by
  obtain ⟨outer, scope, lo, hi, hplaced, hclear, hencloses, houter⟩ := h
  refine ⟨outer, scope, lo, hi, hplaced, hclear, hencloses, fun g hg => ?_⟩
  exact (houter g hg).imp_right fun ⟨hmem, hdefined⟩ => ⟨hsub hmem, hdefined⟩

mutual

theorem Expr.Placed.situated {around : List FunctionDef} {scope : List BlockKey} {lo hi : Nat} (e : Expr)
    (hplaced : e.Placed constants t scope lo hi) (hclear : t.Clear scope lo hi) (h : t.Encloses around scope lo) :
    ∀ f ∈ e.functions, f.Situated constants t around e.functions := by
  cases e with
  | conditional c e e' pos =>
    obtain ⟨m, n, hc, he, he'⟩ := hplaced
    have hle₁ := (Expr.Placed.inOrder c hc).1
    have hle₂ := (Expr.Placed.inOrder e he).1
    have hle₃ := (Expr.Placed.inOrder e' he').1
    have hclear₁ := hclear.narrow (Nat.le_refl lo) (Nat.le_trans hle₂ hle₃)
    have hclear₂ := hclear.narrow hle₁ hle₃
    have hclear₃ := hclear.narrow (Nat.le_trans hle₁ hle₂) (Nat.le_refl hi)
    have hfirst := Expr.Placed.situated c hc hclear₁ h
    have hsecond := Expr.Placed.situated e he hclear₂ (h.advance hclear₁)
    have hthird := Expr.Placed.situated e' he' hclear₃ ((h.advance hclear₁).advance hclear₂)
    rw [Expr.functions, List.forall_mem_append, List.forall_mem_append]
    refine ⟨⟨fun f hf => (hfirst f hf).mono ?_, fun f hf => (hsecond f hf).mono ?_⟩,
      fun f hf => (hthird f hf).mono (List.subset_append_right _ _)⟩
    · exact List.subset_append_of_subset_left _ (List.subset_append_left _ _)
    · exact List.subset_append_of_subset_left _ (List.subset_append_right _ _)
  | block key items pos =>
    obtain ⟨hopens, hitems⟩ := hplaced
    have hhi := (BlockEntry.AllPlaced.inOrder items hitems).1
    have hlo : lo ≤ key.toNat := hopens.1
    rw [Expr.functions]
    exact BlockEntry.AllPlaced.situated items hitems (hclear.narrow (Nat.le_succ_of_le hlo) (Nat.le_refl hi))
      (h.enterBlock hclear hopens hhi)
  | span | number | boolean | var | prefixed | binary | call => simp [Expr.functions]

theorem BlockEntry.AllPlaced.situated {around : List FunctionDef} {scope : List BlockKey} {lo hi : Nat}
    (items : List BlockEntry) (hplaced : BlockEntry.AllPlaced constants t scope lo hi items)
    (hclear : t.Clear (scope.drop 1) lo hi) (h : t.Encloses around scope lo) :
    ∀ f ∈ BlockEntry.functionsOfAll items, f.Situated constants t around (BlockEntry.functionsOfAll items) := by
  cases items with
  | nil => simp [BlockEntry.functionsOfAll]
  | cons item items =>
    obtain ⟨m, hitem, hitems⟩ := hplaced
    have hlo := (BlockEntry.Placed.inOrder item hitem).1
    have hhi := (BlockEntry.AllPlaced.inOrder items hitems).1
    obtain ⟨hfirst, hmid⟩ := BlockEntry.Placed.situated item hitem (hclear.narrow (Nat.le_refl lo) hhi) h
    have hrest := BlockEntry.AllPlaced.situated items hitems (hclear.narrow hlo (Nat.le_refl hi)) hmid
    rw [BlockEntry.functionsOfAll, List.forall_mem_append]
    exact ⟨fun f hf => (hfirst f hf).mono (List.subset_append_left _ _),
      fun f hf => (hrest f hf).mono (List.subset_append_right _ _)⟩

theorem BlockEntry.Placed.situated {around : List FunctionDef} {scope : List BlockKey} {lo hi : Nat}
    (item : BlockEntry) (hplaced : item.Placed constants t scope lo hi) (hclear : t.Clear (scope.drop 1) lo hi)
    (h : t.Encloses around scope lo) :
    (∀ f ∈ item.functions, f.Situated constants t around item.functions) ∧ t.Encloses around scope hi := by
  cases item with
  | operator op value guard pos =>
    obtain ⟨hown, m, hvalue, hguard⟩ := hplaced
    have hle₁ := (Expr.Placed.inOrder value hvalue).1
    have hle₂ := (Expr.OptionPlaced.inOrder guard hguard).1
    have hclear' := hown.join hclear
    have hclear₁ := hclear'.narrow (Nat.le_refl lo) hle₂
    have hclear₂ := hclear'.narrow hle₁ (Nat.le_refl hi)
    have hfirst := Expr.Placed.situated value hvalue hclear₁ h
    have hsecond := Expr.OptionPlaced.situated guard hguard hclear₂ (h.advance hclear₁)
    constructor
    · rw [BlockEntry.functions, List.forall_mem_append]
      exact ⟨fun f hf => (hfirst f hf).mono (List.subset_append_left _ _),
        fun f hf => (hsecond f hf).mono (List.subset_append_right _ _)⟩
    · exact h.advance hclear'
  | closure f pos =>
    constructor
    · rw [BlockEntry.functions]
      exact FunctionDef.Placed.situated f hplaced hclear h
    · exact h.define hplaced hclear (Nat.le_refl hi)

theorem Expr.OptionPlaced.situated {around : List FunctionDef} {scope : List BlockKey} {lo hi : Nat}
    (e : Option Expr) (hplaced : Expr.OptionPlaced constants t scope lo hi e) (hclear : t.Clear scope lo hi)
    (h : t.Encloses around scope lo) :
    ∀ f ∈ Expr.functionsOfOption e, f.Situated constants t around (Expr.functionsOfOption e) := by
  cases e with
  | none => simp [Expr.functionsOfOption]
  | some e =>
    rw [Expr.functionsOfOption]
    exact Expr.Placed.situated e hplaced hclear h

theorem FunctionDef.Placed.situated {around : List FunctionDef} {scope : List BlockKey} {lo hi : Nat}
    (f : FunctionDef) (hplaced : f.Placed constants t scope lo hi) (hclear : t.Clear (scope.drop 1) lo hi)
    (h : t.Encloses around scope lo) :
    ∀ g ∈ f.functions, g.Situated constants t around f.functions := by
  have hinside := h.enterBody hplaced hclear
  have hclear' := FunctionDef.Placed.clear hplaced hclear
  obtain ⟨name, pos, params, argsKey, surrounding, body⟩ := f
  obtain ⟨_, _, _, _, _, _, hbody⟩ := id hplaced
  have hrest := Expr.Placed.situated body hbody hclear' hinside
  rw [FunctionDef.functions, List.forall_mem_cons]
  constructor
  · exact ⟨around, scope, lo, hi, hplaced, hclear, h, fun g hg => .inl hg⟩
  · intro g hg
    obtain ⟨outer, scope', lo', hi', hg', hclear'', hencloses, houter⟩ := hrest g hg
    refine ⟨outer, scope', lo', hi', hg', hclear'', hencloses, fun k hk => ?_⟩
    rcases houter k hk with hmem | ⟨hmem, hdefined⟩
    · rcases List.mem_cons.1 hmem with rfl | hmem
      · exact .inr ⟨List.mem_cons_self, hg⟩
      · exact .inl hmem
    · exact .inr ⟨List.mem_cons_of_mem _ hmem, hdefined⟩

end

/-- Every function of a program is placed with nothing but functions of the program around it. -/
theorem Item.AllPlaced.situated {items : List Item} (hplaced : Item.AllPlaced constants t lo hi items) :
    ∀ f ∈ Program.functions items, f.Situated constants t [] (Program.functions items) := by
  have houtermost := SymbolTable.Encloses.outermost t
  induction items generalizing lo with
  | nil => simp [Program.functions]
  | cons item items ih =>
    obtain ⟨m, hitem, hitems⟩ := hplaced
    have hfirst : ∀ f ∈ item.functions, f.Situated constants t [] item.functions := by
      cases item with
      | function f pos =>
        have hclear : t.Clear ([rootBlock].drop 1) lo m := fun key hkey => absurd hkey List.not_mem_nil
        exact FunctionDef.Placed.situated f hitem hclear (houtermost lo)
      | assignment name value pos =>
        obtain ⟨n, d, hvalue, _, _, _, hn, hlt, hunique⟩ := hitem
        have hclear : t.Clear [rootBlock] lo n := by
          intro key hkey other d' hd' hsource
          cases List.mem_singleton.1 hkey
          by_cases hbetween : d'.visibleFrom.toNat < lo ∨ n ≤ d'.visibleFrom.toNat
          · exact hbetween
          · have heq := hunique other d' hd' hsource (by omega) (by omega)
            subst heq
            omega
        exact Expr.Placed.situated value hvalue hclear (houtermost lo)
    rw [Program.functions, List.flatMap_cons, List.forall_mem_append]
    exact ⟨fun f hf => (hfirst f hf).mono (List.subset_append_left _ _),
      fun f hf => (ih hitems f hf).mono (List.subset_append_right _ _)⟩

end Situated

theorem FunctionDef.block_paramDeclaration (f : FunctionDef) (p : Param) :
    (f.paramDeclaration p).block = f.argsKey := by
  simp [FunctionDef.paramDeclaration, Declaration.block, FunctionDef.bodyScope]

/-- Whether a use of a variable in a function finds a parameter of a function around it. -/
def Use.IsOuter (t : SymbolTable) (program : Program) (f : FunctionDef) (u : Use) : Prop :=
  ∃ g ∈ program.functions, f ∈ g.body.functions ∧
    ∃ p ∈ g.params, ∃ crossed, t.resolve u.scope u.name u.pos = some (g.paramDeclaration p, crossed)

section Outer

variable {constants : List (Ident × Value)} {t : SymbolTable} {lo hi : Nat} {program : Program} {f : FunctionDef}
  {u : Use}

/-- A parameter of a function around another one is found beyond the parameters of the latter, because the blocks of a
chain open one after the other. -/
theorem Item.AllPlaced.length_lt_crossed (hplaced : Item.AllPlaced constants t lo hi program)
    (hproper : ∀ key name d, t.find? key name = some d → d.Proper key) {g : FunctionDef} (hg : g ∈ program.functions)
    (hdefined : f ∈ g.body.functions) {inner outer : List BlockKey}
    (hinner : ∀ key ∈ inner, f.argsKey.toNat < key.toNat) {name : Ident} {pos : Position} {p : Param} {crossed : Nat}
    (h : t.resolve (inner ++ f.argsKey :: outer) name pos = some (g.paramDeclaration p, crossed)) :
    inner.length < crossed := by
  obtain ⟨_, _, _, _, _, _, hgplaced⟩ := hplaced.placedWithin g hg
  obtain ⟨_, _, _, _, _, _, hgbody⟩ := FunctionDef.placed_iff.1 hgplaced
  have hfirst : g.argsKey.toNat + 1 ≤ f.argsKey.toNat := ((Expr.Placed.inOrder g.body hgbody).2.2 f hdefined).1
  obtain ⟨key, hkey, hfind, _⟩ := SymbolTable.resolve_some h
  have hgkey : key = g.argsKey := (hproper key _ _ hfind).block.symm.trans (g.block_paramDeclaration p)
  by_contra hle
  rcases Nat.lt_or_eq_of_le (Nat.not_lt.1 hle) with hlt | rfl
  · rw [List.getElem?_append_left hlt] at hkey
    have hlate := hinner key (List.mem_of_getElem? hkey)
    rw [hgkey] at hlate
    omega
  · rw [List.getElem?_append_right (Nat.le_refl _), Nat.sub_self, List.getElem?_cons_zero] at hkey
    rw [← hgkey, ← Option.some.inj hkey] at hfirst
    omega

/-- What is captured is a parameter of a function that the function with the use is defined in. -/
theorem Use.isCaptured_iff (hplaced : Item.AllPlaced constants t lo hi program)
    (hproper : ∀ key name d, t.find? key name = some d → d.Proper key) (hf : f ∈ program.functions)
    (hu : u ∈ f.uses) : u.isCaptured t f.scope.length = true ↔ u.IsOuter t program f := by
  obtain ⟨outer, scope, lo', hi', hfplaced, hclear, hencloses, houter⟩ := hplaced.situated f hf
  obtain ⟨⟨_, hlast⟩, inner, huscope, hinner⟩ := hfplaced.uses u hu
  have hlength : f.scope.length = scope.length := by
    rw [(FunctionDef.placed_iff.1 hfplaced).2.1, List.length_reverse]
  have hulength : u.scope.length = inner.length + 1 + scope.length := by
    rw [huscope, List.length_append, List.length_cons]
    omega
  unfold Use.isCaptured SymbolTable.target?
  rw [Option.any_map, Option.any_eq_true]
  constructor
  · rintro ⟨⟨d, crossed⟩, hresolve, hcaptured⟩
    simp only [Bool.and_eq_true, decide_eq_true_eq, bne_iff_ne, Bool.not_eq_true'] at hcaptured
    obtain ⟨⟨hcrossed, hblock⟩, hvariable⟩ := hcaptured
    obtain ⟨key, hkey, hfind, hvisible⟩ := SymbolTable.resolve_some hresolve
    have hd := hproper key _ d hfind
    rw [hd.block] at hblock
    -- The block is one of those around the function.
    have hmem : key ∈ scope := by
      have hlt := (List.getElem?_eq_some_iff.1 hkey).1
      rw [huscope, List.getElem?_append_right (by omega)] at hkey
      obtain ⟨n, hn⟩ : ∃ n, crossed - inner.length = n + 1 := ⟨crossed - inner.length - 1, by omega⟩
      rw [hn, List.getElem?_cons_succ] at hkey
      exact List.mem_of_getElem? hkey
    have hsource : d.builtin = false := by
      by_contra hbuiltin
      exact hblock (hd.builtin (by simpa using hbuiltin))
    have hbefore : d.visibleFrom.toNat < hi' := by
      rw [Declaration.visibleAt, hsource, Bool.false_or, decide_eq_true_eq, UInt64.le_iff_toNat_le] at hvisible
      omega
    rcases hencloses.define hfplaced hclear (Nat.le_refl hi') key hmem hblock _ d hfind hsource hbefore with
      hfunction | ⟨g, hg, p, hp, rfl⟩
    · rw [hvariable] at hfunction
      cases hfunction
    · obtain ⟨hmem, hdefined⟩ := (houter g hg).resolve_left List.not_mem_nil
      exact ⟨g, hmem, hdefined, p, hp, crossed, hresolve⟩
  · rintro ⟨g, hg, hdefined, p, hp, crossed, hresolve⟩
    obtain ⟨_, _, _, _, _, _, hgplaced⟩ := hplaced.placedWithin g hg
    have hroot : g.argsKey ≠ rootBlock := (FunctionDef.placed_iff.1 hgplaced).1.2.1
    have hcrossed : inner.length < crossed :=
      hplaced.length_lt_crossed hproper hg hdefined hinner (huscope ▸ hresolve)
    obtain ⟨_, hkey, _⟩ := SymbolTable.resolve_some hresolve
    have hlt := (List.getElem?_eq_some_iff.1 hkey).1
    refine ⟨_, hresolve, ?_⟩
    simp only [Bool.and_eq_true, decide_eq_true_eq, bne_iff_ne, Bool.not_eq_true', g.block_paramDeclaration]
    exact ⟨⟨by omega, hroot⟩, rfl⟩

/-- A parameter of a function hides those of the functions around it. -/
theorem Use.IsOuter.name_ne (h : u.IsOuter t program f) (hplaced : Item.AllPlaced constants t lo hi program)
    (hproper : ∀ key name d, t.find? key name = some d → d.Proper key) (hf : f ∈ program.functions) (hu : u ∈ f.uses)
    {p : Param} (hp : p ∈ f.params) : u.name ≠ p.name := by
  rintro heq
  obtain ⟨g, hg, hdefined, q, _, crossed, hresolve⟩ := h
  obtain ⟨_, _, _, _, _, _, hfplaced⟩ := hplaced.placedWithin f hf
  obtain ⟨⟨hfirst, _⟩, inner, huscope, hinner⟩ := hfplaced.uses u hu
  have hown := (FunctionDef.placed_iff.1 hfplaced).2.2.2.2.1 p hp
  rw [huscope, heq] at hresolve
  have hfar : inner.length < crossed := hplaced.length_lt_crossed hproper hg hdefined hinner hresolve
  have hvisible : (f.paramDeclaration p).visibleAt u.pos.index = true :=
    decide_eq_true (UInt64.le_iff_toNat_le.2 (Nat.le_of_lt hfirst))
  exact absurd (SymbolTable.crossed_le hresolve hown hvisible) (Nat.not_le.2 hfar)

/-- What a use of a parameter of a function around it refers to is not declared in the outermost block. -/
theorem Use.IsOuter.inner (h : u.IsOuter t program f) (hplaced : Item.AllPlaced constants t lo hi program) :
    ∃ d crossed, t.resolve u.scope u.name u.pos = some (d, crossed) ∧ d.block ≠ rootBlock ∧ d.builtin = false ∧
      d.isFunction = false := by
  obtain ⟨g, hg, _, p, _, crossed, hresolve⟩ := h
  obtain ⟨_, _, _, _, _, _, hgplaced⟩ := hplaced.placedWithin g hg
  refine ⟨_, crossed, hresolve, ?_, rfl, rfl⟩
  rw [g.block_paramDeclaration]
  exact (FunctionDef.placed_iff.1 hgplaced).1.2.1

end Outer

end ToneScript
