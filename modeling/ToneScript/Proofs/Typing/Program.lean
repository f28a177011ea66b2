import ToneScript.Proofs.Typing.Checked

/-! The check of a whole program. Items are checked in the order of the text, and an assigned name gets its type
after its value has been checked. -/
namespace ToneScript

/-- The name that an item assigns. -/
def Item.assigned? : Item → Option Ident
  | .function .. => none
  | .assignment name _ _ => some name

/-- The names that a program assigns, in the order of the text. -/
def Program.assigned (program : Program) : List Ident :=
  program.filterMap Item.assigned?

section

variable {constants : List (Ident × Value)} {t : SymbolTable}

/-- The names that are assigned between two offsets are declared there, each once. -/
theorem Item.AllPlaced.assigned {lo hi : Nat} {items : List Item}
    (h : Item.AllPlaced constants t lo hi items) :
    (Program.assigned items).Nodup ∧ ∀ name ∈ Program.assigned items, ∃ d,
      t.find? rootBlock name = some d ∧ d.builtin = false ∧ d.isFunction = false ∧
        lo ≤ d.visibleFrom.toNat := by
  induction items generalizing lo with
  | nil => simp [Program.assigned]
  | cons item items ih =>
    obtain ⟨m, hitem, hitems⟩ := h
    have hle := hitem.le
    obtain ⟨hnodup, hdeclared⟩ := ih hitems
    have hrest : ∀ name ∈ Program.assigned items, ∃ d, t.find? rootBlock name = some d ∧
        d.builtin = false ∧ d.isFunction = false ∧ lo ≤ d.visibleFrom.toNat := by
      intro name hname
      obtain ⟨d, hd, hsource, hvariable, hm⟩ := hdeclared name hname
      exact ⟨d, hd, hsource, hvariable, Nat.le_trans hle hm⟩
    cases item with
    | function f pos => exact ⟨hnodup, hrest⟩
    | assignment name value pos =>
      obtain ⟨n, d, hvalue, hd, hsource, hvariable, hn, hlt, _⟩ := hitem
      have hlo := (Expr.Placed.inOrder value hvalue).1
      have hassigned : Program.assigned (.assignment name value pos :: items) =
          name :: Program.assigned items := rfl
      rw [hassigned, List.nodup_cons, List.forall_mem_cons]
      refine ⟨⟨fun hmem => ?_, hnodup⟩, ⟨d, hd, hsource, hvariable, Nat.le_trans hlo hn⟩, hrest⟩
      obtain ⟨d', hd', _, _, hm⟩ := hdeclared name hmem
      rw [hd] at hd'
      cases hd'
      omega

end

namespace SymbolTable

theorem setTypeIn_eq {t : SymbolTable} {key : BlockKey} {name : Ident} {d : Declaration}
    (h : t.find? key name = some d) (ty : Ty) :
    t.setTypeIn key name ty = t.put key { d with ty? := some ty } := by
  rw [setTypeIn, h]

@[simp] theorem frame_setTypeIn (t : SymbolTable) (key : BlockKey) (name : Ident) (ty : Ty) :
    (t.setTypeIn key name ty).frame = t.frame := by
  unfold setTypeIn
  split
  · rfl
  · rfl

/-- What is found after a type has been set. -/
theorem find?_setTypeIn {t : SymbolTable} {key : BlockKey} {name : Ident} {d : Declaration}
    (h : t.find? key name = some d) (ty : Ty) (key' : BlockKey) (name' : Ident) :
    (t.setTypeIn key name ty).find? key' name' =
      if key = key' ∧ name = name' then some { d with ty? := some ty } else t.find? key' name' := by
  rw [setTypeIn_eq h, find?_put]
  simp only [find?_name h]

theorem later_setTypeIn {t : SymbolTable} {key : BlockKey} {name : Ident} {d : Declaration}
    (h : t.find? key name = some d) (hnone : d.ty? = none) {ty : Ty} (hty : ty.IsKind) (hi : Nat) :
    Later hi t (t.setTypeIn key name ty) where
  kept key' name' d' hd' := by
    rw [find?_setTypeIn h]
    split
    · rename_i heq
      obtain ⟨rfl, rfl⟩ := heq
      rw [h] at hd'
      cases hd'
      exact ⟨_, rfl, .inr ⟨hnone, ty, hty, rfl⟩⟩
    · exact ⟨d', hd', .refl d'⟩
  added key' name' d' hnone' hd' := by
    rw [find?_setTypeIn h] at hd'
    split at hd'
    · rename_i heq
      obtain ⟨rfl, rfl⟩ := heq
      simp [h] at hnone'
    · simp [hnone'] at hd'

end SymbolTable

theorem Ty.isKind_of {ty : Ty} (hdet : ty.isDeterminate = true) (hplain : ty.isFunction = false) :
    ty.IsKind := by
  cases ty with
  | number => exact .inl rfl
  | boolean => exact .inr rfl
  | function | indeterminate => contradiction

namespace Check

variable {names : NameTable} {w : Elaboration} {size lo hi : Nat} {s s' s'' : State}

/-- What checking items does to a state: types of assigned names become known. -/
structure State.Evolves (s s' : State) : Prop where
  table : ∀ hi, s.table.Later hi s'.table
  framed : s.table.Framed → s'.table.Framed
  errors : s.journal.errorCount ≤ s'.journal.errorCount
  functions : FunctionTable.Grows s.typing.functions s'.typing.functions

theorem State.Evolves.trans (h : s.Evolves s') (h' : s'.Evolves s'') : s.Evolves s'' where
  table hi := (h.table hi).trans (h'.table hi)
  framed := h'.framed ∘ h.framed
  errors := Nat.le_trans h.errors h'.errors
  functions := h.functions.trans h'.functions

theorem State.Grows.evolves (h : s.Grows s') : s.Evolves s' where
  table hi := by
    rw [h.table]
    exact .refl hi s.table
  framed := by
    rw [h.table]
    exact id
  errors := h.errors
  functions := h.functions

theorem State.LeadsTo.of_evolves (h : s'.LeadsTo w) (he : s.Evolves s') : s.LeadsTo w where
  table hi := (he.table hi).trans (h.table hi)
  functions := he.functions.settles h.functions
  count := he.functions.length.symm.trans h.count
  clean := Nat.le_zero.1 (h.clean ▸ he.errors)

theorem Grows.resolveOnce (key : FunctionKey) : Grows (resolveOnce names key) := by
  intro s a s' hframed h
  unfold Check.resolveOnce at h
  obtain ⟨s₀, s₁, hget, h₁⟩ := run_bind_ok h
  cases hget
  split at h₁
  · rename_i f hpending
    obtain ⟨signature, hrun⟩ := discard_ok h₁
    exact resolve_grows key f _ _ _ hpending hrun
  · cases h₁
    exact .refl s

/-- The names that items assign have no types yet. -/
structure State.Awaits (s : State) (is : List Item) : Prop where
  nodup : (Program.assigned is).Nodup
  untyped : ∀ name ∈ Program.assigned is, ∃ d, s.table.find? rootBlock name = some d ∧ d.ty? = none

theorem State.Awaits.head {i : Item} {is : List Item} (h : s.Awaits (i :: is)) {name : Ident}
    (hname : i.assigned? = some name) : ∃ d, s.table.find? rootBlock name = some d ∧ d.ty? = none := by
  refine h.untyped name ?_
  rw [Program.assigned, List.filterMap_cons_some hname]
  exact List.mem_cons_self

/-- What checking an item does to a table in which the name it assigns has no type yet. -/
theorem item_evolves {i : Item} {is : List Item} {u : Unit} (hframed : s.table.Framed)
    (hplain : s.typing.functions.Plain) (hawaits : s.Awaits (i :: is))
    (h : (item names i).run s = .ok (u, s')) : s.Evolves s' ∧ s'.Awaits is := by
  have htail : Program.assigned is ⊆ Program.assigned (i :: is) :=
    ((List.sublist_cons_self i is).filterMap _).subset
  have hnodup : (Program.assigned is).Nodup :=
    hawaits.nodup.sublist ((List.sublist_cons_self i is).filterMap _)
  cases i with
  | function f pos =>
    have hg := Grows.resolveOnce f.key _ _ _ hframed h
    refine ⟨hg.evolves, hnodup, ?_⟩
    rw [hg.table]
    exact fun name hname => hawaits.untyped name (htail hname)
  | assignment name value pos =>
    rw [item] at h
    obtain ⟨ty, s₁, hvalue, hrest⟩ := run_bind_ok h
    have hg := Grows.expr names resolve_grows none value _ _ _ hframed hvalue
    have hfunction := Yields.expr names resolve_grows resolve_good.2 none value _ _ _ hframed hplain hvalue
    have hawaits₁ : s₁.Awaits is := by
      refine ⟨hnodup, ?_⟩
      rw [hg.table]
      exact fun other hother => hawaits.untyped other (htail hother)
    split at hrest
    · rename_i hdet
      cases hrest
      obtain ⟨d, hd, hnone⟩ := hawaits.head rfl
      rw [← hg.table] at hd
      refine ⟨hg.evolves.trans ⟨?_, ?_, Nat.le_refl _, .refl _⟩, hnodup, fun other hother => ?_⟩
      · exact SymbolTable.later_setTypeIn hd hnone (Ty.isKind_of hdet hfunction)
      · intro hf
        show (s₁.table.setTypeIn rootBlock name ty).Framed
        rw [SymbolTable.setTypeIn_eq hd]
        exact hf
      · show ∃ d, (s₁.table.setTypeIn rootBlock name ty).find? rootBlock other = some d ∧ d.ty? = none
        rw [SymbolTable.find?_setTypeIn hd, if_neg]
        · exact hawaits₁.untyped other hother
        · rintro ⟨_, rfl⟩
          exact (List.nodup_cons.1 hawaits.nodup).1 hother
    · cases hrest
      exact ⟨hg.evolves, hawaits₁⟩

theorem items_evolve {is : List Item} {u : Unit} (hframed : s.table.Framed)
    (hplain : s.typing.functions.Plain) (hawaits : s.Awaits is)
    (h : (items names is).run s = .ok (u, s')) : s.Evolves s' := by
  induction is generalizing s with
  | nil =>
    cases h
    exact (State.Grows.refl _).evolves
  | cons i is ih =>
    rw [items] at h
    obtain ⟨⟨⟩, s₁, hitem, hrest⟩ := run_bind_ok h
    obtain ⟨hevolves, hawaits₁⟩ := item_evolves hframed hplain hawaits hitem
    exact hevolves.trans (ih (hevolves.framed hframed) (hevolves.functions.plain hplain) hawaits₁ hrest)

/-- At the outermost level no call stands in the body of a function. -/
theorem not_isProvisional (hlaid : w.LaidOut size) (e : Expr) : e.isProvisional w [rootBlock] = false := by
  cases e with
  | call site args =>
    rw [Expr.isProvisional, Elaboration.isRecursive, Elaboration.callee?]
    cases hresolve : w.table.resolve [rootBlock] site.callee site.pos with
    | none => rfl
    | some r =>
      obtain ⟨d, crossed⟩ := r
      obtain ⟨key, _, hfind, _⟩ := SymbolTable.resolve_some hresolve
      rw [Option.map_some, Option.any_some, Bool.and_eq_false_iff]
      cases hsource : d.builtin with
      | true => exact .inl rfl
      | false =>
        right
        have hlt := hlaid.bound key _ d hfind hsource
        have hsize := hlaid.size_lt
        have hroot : rootBlock.toNat = UInt64.size - 1 := rfl
        simp only [List.contains_cons, List.contains_nil, Bool.or_false, beq_eq_false_iff_ne, ne_eq]
        intro heq
        rw [heq] at hlt
        omega
  | conditional c t e pos =>
    rw [Expr.isProvisional, not_isProvisional hlaid t, Bool.false_and]
  | span compiled tree =>
    rw [Expr.isProvisional]
    exact not_isProvisional hlaid tree
  | number | boolean | var | prefixed | binary | block => rfl

/-- After a name of the outermost level has got the type of its value. Nothing else is declared at that level from there
on up to the end of its item. -/
theorem State.At.assign (h : s.At w [rootBlock] lo) (hto : s.LeadsTo w) (hle : lo ≤ hi) {name : Ident}
    {d d₀ : Declaration} {ty : Ty} (hd₀ : s.table.find? rootBlock name = some d₀) (hkind : ty.IsKind)
    (hd : w.table.find? rootBlock name = some d) (hvariable : d.isFunction = false)
    (hunique : ∀ other d', w.table.find? rootBlock other = some d' → d'.builtin = false →
      lo ≤ d'.visibleFrom.toNat → d'.visibleFrom.toNat < hi → d' = d) :
    State.At w [rootBlock] hi { s with table := s.table.setTypeIn rootBlock name ty } := by
  have hfind := SymbolTable.find?_setTypeIn hd₀ ty
  constructor
  case toLearned => exact ⟨h.unpoisoned, h.known⟩
  case frame => rw [SymbolTable.frame_setTypeIn, h.frame]
  case keys => simp
  case framed =>
    rw [SymbolTable.setTypeIn_eq hd₀]
    exact h.framed
  case proper =>
    intro key other e he
    rw [hfind] at he
    split at he
    · rename_i heq
      obtain ⟨rfl, rfl⟩ := heq
      cases he
      have hproper := h.proper rootBlock name d₀ hd₀
      refine ⟨hproper.block, hproper.builtin, nofun, fun ty' hty' => .inr ?_⟩
      cases hty'
      exact hkind
    · exact h.proper key other e he
  case collected => exact h.collected
  case intrinsic => exact h.intrinsic
  case builtin => exact h.builtin
  case ready =>
    intro key hkey other e he hfunction hsource hlt
    by_cases hold : e.visibleFrom.toNat < lo
    · exact h.ready key hkey other e he hfunction hsource hold
    · cases List.mem_singleton.1 hkey
      rw [hunique other e he hsource (Nat.not_lt.1 hold) hlt, hvariable] at hfunction
      cases hfunction
  case before =>
    intro key f hkey
    exact Nat.lt_of_lt_of_le (h.before key f hkey) hle
  case typed =>
    intro other e he hsource hlt
    rw [hfind] at he
    split at he
    · cases he
      nofun
    · rename_i hne
      by_cases hold : e.visibleFrom.toNat < lo
      · exact h.typed other e he hsource hold
      · obtain ⟨e', he', hbecomes⟩ := (hto.table hi).kept rootBlock other e he
        have heq := hunique other e' he' (by rw [hbecomes.builtin_eq, hsource])
          (by rw [hbecomes.visibleFrom_eq]; exact Nat.not_lt.1 hold) (by rw [hbecomes.visibleFrom_eq]; exact hlt)
        refine absurd ⟨rfl, ?_⟩ hne
        rw [← SymbolTable.find?_name hd, ← heq]
        exact SymbolTable.find?_name he'

/-- A function of the outermost level that waits for its check is checked with its item. -/
theorem item_function_ok (hlaid : w.LaidOut size) {f : FunctionDef} {pos : Position} {progress : Progress}
    (hplaced : f.Placed w.constants w.table [rootBlock] lo hi) (hsub : f.functions ⊆ w.program.functions)
    (hlookup : s.typing.functions.lookup f.key = some ⟨some f, progress⟩) (hat : s.At w [rootBlock] lo) {u : Unit}
    (h : (item names (.function f pos)).run s = .ok (u, s')) (hto : s'.LeadsTo w) :
    s'.Learned w ∧ (∃ signature, s'.typing.functions.lookup f.key = some ⟨some f, .resolved signature⟩) ∧
      s.Marks w [] s' := by
  have hroot : rootBlock ∈ [rootBlock] := List.mem_singleton_self _
  rw [item] at h
  unfold resolveOnce at h
  obtain ⟨s₀, s₁, hget, h₁⟩ := run_bind_ok h
  cases hget
  rw [hlookup] at h₁
  cases progress with
  | pending =>
    obtain ⟨signature, hrun⟩ := discard_ok h₁
    exact resolve_sound hlaid _ lo hi f _ signature s' (Nat.zero_le _) hplaced hsub nofun hroot hat hlookup hrun hto
  | active =>
    have hlo := (FunctionDef.placed_iff.1 hplaced).1.1
    have := hat.before _ _ hlookup
    omega
  | resolved signature =>
    cases h₁
    exact ⟨hat.toLearned, ⟨signature, hlookup⟩, .refl s⟩

/-- A check that has gone through all items between two offsets. -/
theorem item_ok (hlaid : w.LaidOut size) {i : Item} (hplaced : i.Placed w.constants w.table lo hi)
    (hsub : i.functions ⊆ w.program.functions)
    (hcollected : ∀ f pos, i = .function f pos → ∃ progress,
      s.typing.functions.lookup f.key = some ⟨some f, progress⟩)
    (hwaiting : ∀ name, i.assigned? = some name →
      ∃ d, s.table.find? rootBlock name = some d ∧ d.ty? = none)
    (hat : s.At w [rootBlock] lo) {u : Unit} (h : (item names i).run s = .ok (u, s'))
    (hto₀ : s.LeadsTo w) (hto : s'.LeadsTo w) :
    s'.At w [rootBlock] hi ∧ i.Obeys (.checked w) ∧ s.Marks w i.nodes s' := by
  have hroot : rootBlock ∈ [rootBlock] := List.mem_singleton_self _
  cases i with
  | function f pos =>
    have hg := Grows.resolveOnce f.key _ _ _ hat.framed h
    obtain ⟨progress, hlookup⟩ := hcollected f pos rfl
    obtain ⟨hlearned, ⟨signature, hresolved⟩, hmarks⟩ := item_function_ok hlaid hplaced hsub hlookup hat h hto
    exact ⟨hat.define hplaced nofun hroot hto₀ hg hlearned hresolved, hlearned.obeys hto hresolved _,
      hmarks.resolved hresolved⟩
  | assignment name value pos =>
    obtain ⟨m, d, hvalue, hd, hsource, hvariable, hm, hlt, hunique⟩ := hplaced
    have hle := (Expr.Placed.inOrder value hvalue).1
    have hclear : w.table.Clear [rootBlock] lo m := by
      intro key hkey other d' hd' hsource'
      cases List.mem_singleton.1 hkey
      by_cases hbetween : d'.visibleFrom.toNat < lo ∨ m ≤ d'.visibleFrom.toNat
      · exact hbetween
      · have heq := hunique other d' hd' hsource' (by omega) (by omega)
        subst heq
        omega
    rw [item] at h
    obtain ⟨ty, s₁, hrun, hrest⟩ := run_bind_ok h
    have hg := Grows.expr names resolve_grows none value _ _ _ hat.framed hrun
    have hrest' : s'.typing = s₁.typing ∧ s'.journal = s₁.journal := by
      split at hrest <;> cases hrest <;> exact ⟨rfl, rfl⟩
    have hto₁ : s₁.LeadsTo w := by
      refine ⟨?_, hrest'.1 ▸ hto.functions, hrest'.1 ▸ hto.count, hrest'.2 ▸ hto.clean⟩
      rw [hg.table]
      exact hto₀.table
    obtain ⟨hlearned, hobeys, htypes, hmarks⟩ := expr_ok hlaid resolve_grows (resolve_sound hlaid) none value
      (Nat.zero_le _) hvalue hsub hclear hroot hat hrun hto₁
    have hat₁ := hat.advance hg hlearned hto₀ hclear hroot hle
    have hprov := not_isProvisional hlaid value
    have hdet : ty.isDeterminate = true := by rw [htypes.determinate, hprov]; rfl
    obtain ⟨hty, hkind⟩ := htypes
    rw [hprov, if_neg Bool.false_ne_true] at hty
    rw [if_pos hdet] at hrest
    cases hrest
    obtain ⟨d₀, hd₀, hnone⟩ := hwaiting name rfl
    rw [← hg.table] at hd₀
    -- The name has the type of its value from now on.
    have htyped : w.table.find? rootBlock name = some { d₀ with ty? := some ty } := by
      obtain ⟨d', hd', hbecomes⟩ := (hto.table hi).kept rootBlock name { d₀ with ty? := some ty }
        (by rw [SymbolTable.find?_setTypeIn hd₀, if_pos ⟨rfl, rfl⟩])
      rw [hbecomes.eq_of_typed (by simp)] at hd'
      exact hd'
    have hd' : d = { d₀ with ty? := some ty } := Option.some.inj (hd.symm.trans htyped)
    have hat' := hat₁.assign hto₁ (Nat.le_trans hm (Nat.le_of_lt hlt)) hd₀ (hty ▸ hkind hprov) hd hvariable
      fun other d' hd' hsource' hlo => hunique other d' hd' hsource' (Nat.le_trans hle hlo)
    exact ⟨hat', ⟨⟨d, hd, by rw [hd', hty], hprov⟩, hobeys⟩, hmarks.kept, hmarks.added, hmarks.marked, hmarks.recorded⟩

/-- By induction on the items, from the outermost level at the beginning to that at the end. -/
theorem items_ok (hlaid : w.LaidOut size) {is : List Item}
    (hplaced : Item.AllPlaced w.constants w.table lo hi is)
    (hsub : Program.functions is ⊆ w.program.functions)
    (hcollected : ∀ f pos, .function f pos ∈ is → ∃ progress,
      s.typing.functions.lookup f.key = some ⟨some f, progress⟩)
    (hplain : s.typing.functions.Plain) (hawaits : s.Awaits is) (hat : s.At w [rootBlock] lo) {u : Unit}
    (h : (items names is).run s = .ok (u, s')) (hto : s'.LeadsTo w) :
    s'.Learned w ∧ Program.Obeys (.checked w) is ∧ s.Marks w (Program.nodes is) s' := by
  induction is generalizing lo s with
  | nil =>
    cases h
    exact ⟨hat.toLearned, nofun, .refl _⟩
  | cons i is ih =>
    obtain ⟨m, hitem, hitems⟩ := hplaced
    rw [Program.functions, List.flatMap_cons, List.append_subset] at hsub
    rw [items] at h
    obtain ⟨⟨⟩, s₁, hrun, hrest⟩ := run_bind_ok h
    obtain ⟨hevolves, hawaits₁⟩ := item_evolves hat.framed hplain hawaits hrun
    have hplain₁ := hevolves.functions.plain hplain
    have hto₁ := hto.of_evolves (items_evolve (hevolves.framed hat.framed) hplain₁ hawaits₁ hrest)
    obtain ⟨hat₁, hobeys₁, hmarks₁⟩ := item_ok hlaid hitem hsub.1
      (fun f pos heq => hcollected f pos (heq ▸ List.mem_cons_self)) (fun name hname => hawaits.head hname)
      hat hrun (hto₁.of_evolves hevolves) hto₁
    have hcollected₁ (f : FunctionDef) (pos : Position) (hmem : Item.function f pos ∈ is) :
        ∃ progress, s₁.typing.functions.lookup f.key = some ⟨some f, progress⟩ := by
      obtain ⟨progress, hlookup⟩ := hcollected f pos (List.mem_cons_of_mem _ hmem)
      obtain ⟨⟨_, progress'⟩, hlookup', hdef, _⟩ := hevolves.functions.present _ _ hlookup
      cases hdef
      exact ⟨progress', hlookup'⟩
    obtain ⟨hlearned, hobeys₂, hmarks₂⟩ := ih hitems hsub.2 hcollected₁ hplain₁ hawaits₁ hat₁ hrest
    exact ⟨hlearned, List.forall_mem_cons.2 ⟨hobeys₁, hobeys₂⟩, hmarks₁.trans hmarks₂⟩

/-- What a signature that was looked for is in the end. -/
theorem resolveOnce_done {key : FunctionKey} {u : Unit} (h : (resolveOnce names key).run s = .ok (u, s'))
    (hframed : s.table.Framed) {f : FunctionDef} :
    s'.typing.functions.lookup key ≠ some ⟨some f, .pending⟩ := by
  have hg := Grows.resolveOnce key _ _ _ hframed h
  unfold resolveOnce at h
  obtain ⟨s₀, s₁, hget, h₁⟩ := run_bind_ok h
  cases hget
  split at h₁
  · rename_i g hpending
    obtain ⟨signature, hrun⟩ := discard_ok h₁
    unfold resolve at hrun
    obtain ⟨s₂, s₃, hget, hrun⟩ := run_bind_ok hrun
    cases hget
    cases hlength : s.typing.functions.length with
    | zero =>
      rw [List.length_eq_zero_iff] at hlength
      simp [hlength] at hpending
    | succ nesting =>
      rw [hlength] at hrun
      obtain ⟨ty, mid, _, _, _, hfunctions, _⟩ := resolveWithin_ok hrun
      intro hlookup
      rw [hfunctions] at hlookup
      rcases FunctionTable.of_setProgress hlookup with ⟨_, hprogress, _⟩ | ⟨hne, _⟩
      · cases hprogress
      · exact hne rfl
  · rename_i hnot
    cases h₁
    exact hnot f

theorem Grows.resolveAll (keys : List FunctionKey) : Grows (resolveAll names keys) := by
  induction keys with
  | nil => exact .pure _
  | cons key keys ih => exact .bind (.resolveOnce key) fun _ => ih

theorem resolveAll_done {keys : List FunctionKey} {u : Unit}
    (h : (resolveAll names keys).run s = .ok (u, s')) (hframed : s.table.Framed) {key : FunctionKey}
    (hkey : key ∈ keys) {f : FunctionDef} :
    s'.typing.functions.lookup key ≠ some ⟨some f, .pending⟩ := by
  induction keys generalizing s with
  | nil => cases hkey
  | cons first keys ih =>
    rw [resolveAll] at h
    obtain ⟨⟨⟩, s₁, hfirst, hrest⟩ := run_bind_ok h
    have hg₁ := Grows.resolveOnce first _ _ _ hframed hfirst
    have hf₁ := hg₁.framed hframed
    rcases List.mem_cons.1 hkey with rfl | hmem
    · -- Once it is there, a signature stays.
      intro hlookup
      have hg₂ := Grows.resolveAll keys _ _ _ hf₁ hrest
      obtain ⟨progress, hmid⟩ := hg₂.functions.origin hlookup
      obtain ⟨info, hinfo, _, hprogress⟩ := hg₂.functions.present _ _ hmid
      rw [hlookup] at hinfo
      cases hinfo
      rcases hprogress with heq | ⟨_, signature, heq, _⟩
      · cases heq
        exact resolveOnce_done hfirst hframed hmid
      · cases heq
    · exact ih hrest hf₁ hmem

end Check

namespace FunctionTable

theorem lookup_insert (t : FunctionTable) (key key' : FunctionKey) (info : FunctionInfo) :
    (t.insert key info).lookup key' = if key = key' then some info else t.lookup key' := by
  induction t with
  | nil =>
    rw [insert, List.lookup_cons]
    by_cases hkey : key = key'
    · simp [hkey]
    · simp [hkey, beq_false_of_ne (Ne.symm hkey)]
  | cons entry t ih =>
    rw [insert]
    by_cases hkey : key = key'
    · subst hkey
      rw [if_pos rfl]
      split
      · simp
      · rename_i hne
        split
        · simp
        · have hbeq : (key == entry.1) = false := by simpa using hne
          rw [List.lookup_cons, hbeq]
          simpa using ih
    · have hbeq : (key' == key) = false := beq_false_of_ne (Ne.symm hkey)
      rw [if_neg hkey] at ih ⊢
      split
      · rename_i heq
        rw [beq_iff_eq] at heq
        subst heq
        obtain ⟨key₀, info₀⟩ := entry
        simp only [List.lookup_cons, hbeq]
      · split
        · simp only [List.lookup_cons, hbeq]
        · obtain ⟨key₀, info₀⟩ := entry
          simp only [List.lookup_cons, ih]

/-- What is found after several functions have been added. -/
theorem lookup_foldl_insert {α : Type} (key : α → FunctionKey) (info : α → FunctionInfo) (xs : List α)
    (t : FunctionTable) (key' : FunctionKey) :
    (∃ x ∈ xs, key x = key' ∧
      (xs.foldl (fun t x => t.insert (key x) (info x)) t).lookup key' = some (info x)) ∨
    (∀ x ∈ xs, key x ≠ key') ∧
      (xs.foldl (fun t x => t.insert (key x) (info x)) t).lookup key' = t.lookup key' := by
  induction xs generalizing t with
  | nil => exact .inr ⟨by simp, rfl⟩
  | cons x xs ih =>
    rw [List.foldl_cons]
    rcases ih (t.insert (key x) (info x)) with ⟨y, hy, hkey, hfound⟩ | ⟨hnone, hfound⟩
    · exact .inl ⟨y, List.mem_cons_of_mem _ hy, hkey, hfound⟩
    · rw [lookup_insert] at hfound
      by_cases hkey : key x = key'
      · rw [if_pos hkey] at hfound
        exact .inl ⟨x, List.mem_cons_self, hkey, hfound⟩
      · rw [if_neg hkey] at hfound
        exact .inr ⟨List.forall_mem_cons.2 ⟨hkey, hnone⟩, hfound⟩

end FunctionTable

theorem Typing.functions_addDefinitions (definitions : List FunctionDef) (typing : Typing) :
    (definitions.foldl Typing.addDefinition typing).functions =
      definitions.foldl (fun (t : FunctionTable) f => t.insert f.key ⟨some f, .pending⟩) typing.functions := by
  induction definitions generalizing typing with
  | nil => rfl
  | cons f definitions ih => exact ih _

end ToneScript
