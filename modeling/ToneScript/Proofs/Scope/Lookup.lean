import ToneScript.Scope.SymbolTable

/-! Laws of the symbol table: what a declaration changes, what the innermost visible declaration is, and
what stays found when a table grows. -/
namespace ToneScript

theorem mem_of_lookup {α β : Type} [BEq α] [LawfulBEq α] {entries : List (α × β)} {a : α} {b : β}
    (h : entries.lookup a = some b) : (a, b) ∈ entries := by
  obtain ⟨before, after, hsplit, _⟩ := List.lookup_eq_some_iff.1 h
  simp [hsplit]

namespace SymbolTable

@[simp] theorem find?_put (t : SymbolTable) (key key' : BlockKey) (d : Declaration) (name : Ident) :
    (t.put key d).find? key' name =
      if key = key' ∧ d.name = name then some d else t.find? key' name := by
  unfold put find?
  rw [List.find?_cons]
  by_cases h : key = key' ∧ d.name = name
  · simp [h]
  · rw [if_neg h]
    have hfirst : (key == key' && d.name == name) = false := by
      rw [← Bool.not_eq_true, Bool.and_eq_true, beq_iff_eq, beq_iff_eq]
      exact h
    simp only [hfirst]
    congr 1
    rw [List.find?_filter]
    congr 1
    funext entry
    by_cases hentry : entry.1 = key' ∧ entry.2.name = name
    · obtain ⟨rfl, rfl⟩ := hentry
      grind
    · grind

theorem find?_mem {t : SymbolTable} {key : BlockKey} {name : Ident} {d : Declaration}
    (h : t.find? key name = some d) : (key, d) ∈ t.declarations ∧ d.name = name := by
  unfold find? at h
  obtain ⟨entry, hentry, rfl⟩ := Option.map_eq_some_iff.1 h
  have hkey := List.find?_some hentry
  simp only [Bool.and_eq_true, beq_iff_eq] at hkey
  rw [← hkey.1]
  exact ⟨List.mem_of_find?_eq_some hentry, hkey.2⟩

theorem find?_name {t : SymbolTable} {key : BlockKey} {name : Ident} {d : Declaration}
    (h : t.find? key name = some d) : d.name = name :=
  (find?_mem h).2

@[simp] theorem find?_enterBlock (t : SymbolTable) (block key : BlockKey) (name : Ident) :
    (t.enterBlock block).find? key name = t.find? key name := rfl

@[simp] theorem find?_enterScope (t : SymbolTable) (chain : List BlockKey) (key : BlockKey)
    (name : Ident) : (t.enterScope chain).find? key name = t.find? key name := rfl

/-- What is found after a name has been declared in the current block. -/
theorem find?_declare (t : SymbolTable) (name : Ident) (pos : Position) (visibleFrom : UInt64) (ty? : Option Ty)
    (builtin : Bool) (key : BlockKey) (name' : Ident) :
    (t.declare name pos visibleFrom ty? builtin).find? key name' =
      if t.currentBlock = key ∧ name = name' then some (t.declaration name pos visibleFrom ty? builtin)
      else t.find? key name' :=
  find?_put ..

theorem declarations_leave {t t' : SymbolTable} (h : t.leave = .ok t') : t'.declarations = t.declarations := by
  unfold leave at h
  split at h
  · cases h
  · cases h
    rfl

/-- The innermost declaration of a name that a use at a position can see, along a chain of blocks with
the innermost first, and how many blocks are crossed to reach it. -/
def resolve (t : SymbolTable) (scope : List BlockKey) (name : Ident) (pos : Position) :
    Option (Declaration × Nat) :=
  t.findAlong? (·.visibleAt pos.index) name scope

theorem lookupBefore?_eq_resolve {t : SymbolTable} {scope : List BlockKey} (h : t.frame = scope)
    (name : Ident) (pos : Position) :
    t.lookupBefore? name pos.index = t.resolve scope name pos := by
  rw [lookupBefore?, h, resolve]

theorem resolve_cons_visible {t : SymbolTable} {key : BlockKey} {scope : List BlockKey} {name : Ident}
    {pos : Position} {d : Declaration} (hfind : t.find? key name = some d)
    (hvisible : d.visibleAt pos.index = true) :
    t.resolve (key :: scope) name pos = some (d, 0) := by
  unfold resolve findAlong?
  rw [hfind, Option.filter_some, if_pos hvisible]

theorem resolve_cons_hidden {t : SymbolTable} {key : BlockKey} {scope : List BlockKey} {name : Ident}
    {pos : Position} (hhidden : ∀ d, t.find? key name = some d → d.visibleAt pos.index = false) :
    t.resolve (key :: scope) name pos =
      (t.resolve scope name pos).map fun (d, crossed) => (d, crossed + 1) := by
  have hnone : (t.find? key name).filter (·.visibleAt pos.index) = none := by
    rw [Option.filter_eq_none_iff]
    intro d hd
    simp [hhidden d hd]
  rw [resolve, findAlong?, hnone]
  rfl

/-- A block shows a name to a use, or hides what it declares under the name. -/
theorem visible_or_hidden (t : SymbolTable) (key : BlockKey) (name : Ident) (pos : Position) :
    (∃ d, t.find? key name = some d ∧ d.visibleAt pos.index = true) ∨
      ∀ d, t.find? key name = some d → d.visibleAt pos.index = false := by
  by_cases hvisible : ∃ d, t.find? key name = some d ∧ d.visibleAt pos.index = true
  · exact .inl hvisible
  · exact .inr fun d hd => by simpa using fun hv => hvisible ⟨d, hd, hv⟩

/-- A resolved name is declared in the block that is reached, where the use can see it. -/
theorem resolve_some {t : SymbolTable} {scope : List BlockKey} {name : Ident} {pos : Position}
    {d : Declaration} {crossed : Nat} (h : t.resolve scope name pos = some (d, crossed)) :
    ∃ key, scope[crossed]? = some key ∧ t.find? key name = some d ∧
      d.visibleAt pos.index = true := by
  induction scope generalizing crossed with
  | nil => simp [resolve, findAlong?] at h
  | cons key scope ih =>
    rcases t.visible_or_hidden key name pos with ⟨d', hfind, hvisible⟩ | hhidden
    · rw [resolve_cons_visible hfind hvisible] at h
      cases h
      exact ⟨key, rfl, hfind, hvisible⟩
    · rw [resolve_cons_hidden hhidden] at h
      obtain ⟨⟨d', crossed'⟩, hrest, heq⟩ := Option.map_eq_some_iff.1 h
      cases heq
      simpa using ih hrest

end SymbolTable

namespace Ty

/-- Whether a type is one that values have. -/
def IsKind (ty : Ty) : Prop :=
  ty = .number ∨ ty = .boolean

end Ty

namespace Declaration

/-- What may happen to a declaration later: the type of an assigned name becomes known. -/
def Becomes (d d' : Declaration) : Prop :=
  d' = d ∨ d.ty? = none ∧ ∃ ty : Ty, ty.IsKind ∧ d' = { d with ty? := some ty }

namespace Becomes

variable {d d' d'' : Declaration}

theorem refl (d : Declaration) : d.Becomes d :=
  .inl rfl

theorem trans (h : d.Becomes d') (h' : d'.Becomes d'') : d.Becomes d'' := by
  rcases h with rfl | ⟨hnone, ty, hty, rfl⟩
  · exact h'
  · rcases h' with rfl | ⟨hnone', _⟩
    · exact .inr ⟨hnone, ty, hty, rfl⟩
    · cases hnone'

theorem visibleAt_eq (h : d.Becomes d') (index : UInt64) : d'.visibleAt index = d.visibleAt index := by
  rcases h with rfl | ⟨_, _, _, rfl⟩ <;> rfl

theorem visibleFrom_eq (h : d.Becomes d') : d'.visibleFrom = d.visibleFrom := by
  rcases h with rfl | ⟨_, _, _, rfl⟩ <;> rfl

theorem builtin_eq (h : d.Becomes d') : d'.builtin = d.builtin := by
  rcases h with rfl | ⟨_, _, _, rfl⟩ <;> rfl

theorem block_eq (h : d.Becomes d') : d'.block = d.block := by
  rcases h with rfl | ⟨_, _, _, rfl⟩ <;> rfl

theorem name_eq (h : d.Becomes d') : d'.name = d.name := by
  rcases h with rfl | ⟨_, _, _, rfl⟩ <;> rfl

theorem isFunction_eq (h : d.Becomes d') : d'.isFunction = d.isFunction := by
  rcases h with rfl | ⟨hnone, ty, hty, rfl⟩
  · rfl
  · rcases hty with rfl | rfl <;> simp [isFunction, hnone, Ty.isFunction]

/-- A declaration whose type is known stays as it is. -/
theorem eq_of_typed (h : d.Becomes d') (htyped : d.ty? ≠ none) : d' = d := by
  rcases h with rfl | ⟨hnone, _⟩
  · rfl
  · exact absurd hnone htyped

end Becomes
end Declaration

namespace SymbolTable

/-- One table comes after another one at an offset: nothing is lost, and what is new can be used only from
that offset on. -/
structure Later (hi : Nat) (t t' : SymbolTable) : Prop where
  kept : ∀ key name d, t.find? key name = some d → ∃ d', t'.find? key name = some d' ∧ d.Becomes d'
  added : ∀ key name d, t.find? key name = none → t'.find? key name = some d →
    hi ≤ d.visibleFrom.toNat ∧ d.builtin = false

namespace Later

variable {lo hi hi' : Nat} {t t' t'' : SymbolTable}

theorem refl (hi : Nat) (t : SymbolTable) : Later hi t t where
  kept _ _ d h := ⟨d, h, .refl d⟩
  added _ _ _ hnone h := by simp [hnone] at h

theorem weaken (h : Later hi t t') (hle : lo ≤ hi) : Later lo t t' where
  kept := h.kept
  added key name d hnone hfind :=
    ⟨Nat.le_trans hle (h.added key name d hnone hfind).1, (h.added key name d hnone hfind).2⟩

theorem trans (h : Later hi t t') (h' : Later hi t' t'') : Later hi t t'' where
  kept key name d hd := by
    obtain ⟨d', hd', hbecomes⟩ := h.kept key name d hd
    obtain ⟨d'', hd'', hbecomes'⟩ := h'.kept key name d' hd'
    exact ⟨d'', hd'', hbecomes.trans hbecomes'⟩
  added key name d hnone hd := by
    cases hmid : t'.find? key name with
    | none => exact h'.added key name d hmid hd
    | some d' =>
      obtain ⟨hle, hbuiltin⟩ := h.added key name d' hnone hmid
      obtain ⟨d'', hd'', hbecomes⟩ := h'.kept key name d' hmid
      rw [hd''] at hd
      cases hd
      rw [hbecomes.visibleFrom_eq, hbecomes.builtin_eq]
      exact ⟨hle, hbuiltin⟩

/-- A declaration of the later table that can be used before the offset was there already. -/
theorem find?_of_lt (h : Later hi t t') {key : BlockKey} {name : Ident} {d' : Declaration}
    (hfind : t'.find? key name = some d') (hlt : d'.builtin = true ∨ d'.visibleFrom.toNat < hi) :
    ∃ d, t.find? key name = some d ∧ d.Becomes d' := by
  cases hd : t.find? key name with
  | none =>
    have := h.added key name d' hd hfind
    rcases hlt with hbuiltin | hlt
    · simp [hbuiltin] at this
    · omega
  | some d =>
    obtain ⟨d'', hd'', hbecomes⟩ := h.kept key name d hd
    rw [hd''] at hfind
    cases hfind
    exact ⟨d, rfl, hbecomes⟩

/-- What a use before the offset refers to is settled. -/
theorem resolve_eq (h : Later hi t t') (scope : List BlockKey) (name : Ident) {pos : Position}
    (hpos : pos.index.toNat < hi) :
    (t.resolve scope name pos = none ∧ t'.resolve scope name pos = none) ∨
      ∃ d d' crossed, t.resolve scope name pos = some (d, crossed) ∧
        t'.resolve scope name pos = some (d', crossed) ∧ d.Becomes d' := by
  induction scope with
  | nil => exact .inl ⟨rfl, rfl⟩
  | cons key scope ih =>
    rcases t.visible_or_hidden key name pos with ⟨d, hd, hvisible⟩ | hhidden
    · obtain ⟨d', hd', hbecomes⟩ := h.kept key name d hd
      rw [resolve_cons_visible hd hvisible,
        resolve_cons_visible hd' (by rw [hbecomes.visibleAt_eq, hvisible])]
      exact .inr ⟨d, d', 0, rfl, rfl, hbecomes⟩
    · have hhidden' (d' : Declaration) (hd' : t'.find? key name = some d') :
          d'.visibleAt pos.index = false := by
        cases hd : t.find? key name with
        | none =>
          obtain ⟨hle, hbuiltin⟩ := h.added key name d' hd hd'
          simp only [Declaration.visibleAt, hbuiltin, Bool.false_or, decide_eq_false_iff_not,
            UInt64.le_iff_toNat_le]
          omega
        | some d =>
          obtain ⟨d'', hd'', hbecomes⟩ := h.kept key name d hd
          rw [hd''] at hd'
          cases hd'
          rw [hbecomes.visibleAt_eq, hhidden d hd]
      rw [resolve_cons_hidden hhidden, resolve_cons_hidden hhidden']
      rcases ih with ⟨hnone, hnone'⟩ | ⟨d, d', crossed, hd, hd', hbecomes⟩
      · exact .inl ⟨by rw [hnone]; rfl, by rw [hnone']; rfl⟩
      · exact .inr ⟨d, d', crossed + 1, by rw [hd]; rfl, by rw [hd']; rfl, hbecomes⟩

end Later
end SymbolTable
end ToneScript
