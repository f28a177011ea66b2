import Mathlib.Data.List.Nodup
import ToneScript.Proofs.Scope.Lookup

/-! What can be seen of a symbol table. A block declares each name at most once, and so the names that a use at an offset
can see are those that a lookup from there finds: a declaration that is hidden from the use hides no outer one, neither
from a lookup nor from the list of names. -/
namespace ToneScript.SymbolTable

variable {t t' : SymbolTable} {index : UInt64} {key : BlockKey} {name : Ident} {d : Declaration}

/-- The tables that come about from the outermost block alone by entering and leaving blocks, and by declaring names and
setting their types. -/
inductive Reachable : SymbolTable → Prop
  | fresh : Reachable {}
  | enterBlock {t : SymbolTable} (before : Reachable t) (key : BlockKey) : Reachable (t.enterBlock key)
  | enterScope {t : SymbolTable} (before : Reachable t) (chain : List BlockKey) : Reachable (t.enterScope chain)
  | leave {t t' : SymbolTable} (before : Reachable t) (left : t.leave = .ok t') : Reachable t'
  | declare {t : SymbolTable} (before : Reachable t) (name : Ident) (pos : Position) (visibleFrom : UInt64)
      (ty? : Option Ty) (builtin : Bool) : Reachable (t.declare name pos visibleFrom ty? builtin)
  | setTypeIn {t : SymbolTable} (before : Reachable t) (key : BlockKey) (name : Ident) (ty : Ty) :
      Reachable (t.setTypeIn key name ty)
  | setType {t : SymbolTable} (before : Reachable t) (name : Ident) (pos : Position) (ty : Ty) :
      Reachable (t.setType name pos ty)

/-- Whether a use at an offset sees a name, where a block of the frame declares it. -/
def Sees (t : SymbolTable) (index : UInt64) (name : Ident) : Prop :=
  ∃ key ∈ t.frame, ∃ d, (key, d) ∈ t.declarations ∧ d.name = name ∧ d.visibleAt index = true

/-- Whether no block declares a name twice. -/
def Distinct (t : SymbolTable) : Prop :=
  (t.declarations.map fun entry => (entry.1, entry.2.name)).Nodup

theorem Distinct.put (h : t.Distinct) (key : BlockKey) (d : Declaration) : (t.put key d).Distinct := by
  refine List.nodup_cons.2 ⟨fun hmem => ?_, h.sublist (List.filter_sublist.map _)⟩
  obtain ⟨entry, hentry, heq⟩ := List.mem_map.1 hmem
  obtain ⟨hkey, hname⟩ := Prod.mk.inj heq
  have hother := (List.mem_filter.1 hentry).2
  simp [hkey, hname] at hother

theorem Distinct.setTypeIn (h : t.Distinct) (key : BlockKey) (name : Ident) (ty : Ty) :
    (t.setTypeIn key name ty).Distinct := by
  unfold SymbolTable.setTypeIn
  split
  · exact h.put key _
  · exact h

/-- Declaring a name replaces what its block declares under the name. -/
theorem Reachable.distinct (h : t.Reachable) : t.Distinct := by
  induction h with
  | fresh => exact List.nodup_nil
  | enterBlock _ _ ih | enterScope _ _ ih => exact ih
  | leave _ left ih =>
    rw [Distinct, declarations_leave left]
    exact ih
  | declare _ name pos visibleFrom ty? builtin ih => exact ih.put _ _
  | setTypeIn _ key name ty ih => exact ih.setTypeIn key name ty
  | @setType t _ name pos ty ih =>
    unfold SymbolTable.setType
    split
    · exact ih.setTypeIn _ name ty
    · exact ih.put _ _

theorem Distinct.find?_eq_some_iff (h : t.Distinct) :
    t.find? key name = some d ↔ (key, d) ∈ t.declarations ∧ d.name = name := by
  refine ⟨find?_mem, fun ⟨hmem, hname⟩ => ?_⟩
  cases hfind : t.find? key name with
  | none =>
    have hnot := List.find?_eq_none.1 (Option.map_eq_none_iff.1 hfind) (key, d) hmem
    simp [hname] at hnot
  | some d' =>
    obtain ⟨hmem', hname'⟩ := find?_mem hfind
    have hsame := List.inj_on_of_nodup_map h hmem' hmem (by simp [hname, hname'])
    rw [(Prod.mk.inj hsame).2]

theorem mem_visibleIn : name ∈ t.visibleIn index key ↔
    ∃ d, (key, d) ∈ t.declarations ∧ d.name = name ∧ d.visibleAt index = true := by
  simp only [visibleIn, List.mem_filterMap]
  constructor
  · rintro ⟨⟨key', d⟩, hmem, hsome⟩
    split at hsome
    · rename_i hvisible
      obtain ⟨hkey, hvisible⟩ := Bool.and_eq_true_iff.1 hvisible
      have hkey : key' = key := beq_iff_eq.1 hkey
      exact ⟨d, hkey ▸ hmem, Option.some.inj hsome, hvisible⟩
    · cases hsome
  · rintro ⟨d, hmem, rfl, hvisible⟩
    exact ⟨(key, d), hmem, by simp [hvisible]⟩

/-- By induction on the names, from those that were met before. -/
theorem mem_foldl_insertNew (names seen : List Ident) :
    name ∈ names.foldl (fun names name => if name ∈ names then names else names ++ [name]) seen ↔
      name ∈ seen ∨ name ∈ names := by
  induction names generalizing seen with
  | nil => simp
  | cons first names ih =>
    rw [List.foldl_cons, ih, List.mem_cons, ← or_assoc]
    refine or_congr_left ?_
    split
    · rename_i hfirst
      exact ⟨.inl, fun h => h.elim id (· ▸ hfirst)⟩
    · rw [List.mem_append, List.mem_singleton]

theorem mem_visibleNames : name ∈ t.visibleNames index ↔ t.Sees index name := by
  rw [visibleNames, mem_foldl_insertNew, List.mem_flatMap]
  simp only [List.not_mem_nil, false_or, mem_visibleIn, Sees]

theorem nodup_foldl_insertNew {names seen : List Ident} (h : seen.Nodup) :
    (names.foldl (fun names name => if name ∈ names then names else names ++ [name]) seen).Nodup := by
  induction names generalizing seen with
  | nil => exact h
  | cons first names ih =>
    rw [List.foldl_cons]
    apply ih
    split
    · exact h
    · rename_i hfirst
      exact List.nodup_append_comm.1 (List.nodup_cons.2 ⟨hfirst, h⟩)

theorem nodup_visibleNames (t : SymbolTable) (index : UInt64) : (t.visibleNames index).Nodup :=
  nodup_foldl_insertNew List.nodup_nil

/-- What is found along a chain of blocks is declared in one of them. -/
theorem exists_findAlong?_iff {p : Declaration → Bool} {blocks : List BlockKey} :
    (∃ d crossed, t.findAlong? p name blocks = some (d, crossed)) ↔
      ∃ key ∈ blocks, ∃ d, t.find? key name = some d ∧ p d = true := by
  induction blocks with
  | nil => simp [findAlong?]
  | cons key blocks ih =>
    simp only [List.mem_cons, exists_eq_or_imp, ← ih]
    rw [findAlong?]
    cases hfirst : (t.find? key name).filter p with
    | some d =>
      have hhere : ∃ d, t.find? key name = some d ∧ p d = true := ⟨d, Option.filter_eq_some_iff.1 hfirst⟩
      exact iff_of_true ⟨d, 0, rfl⟩ (.inl hhere)
    | none =>
      have hnot : ¬∃ d, t.find? key name = some d ∧ p d = true := by
        rintro ⟨d, hfind, hp⟩
        exact Option.filter_eq_none_iff.1 hfirst d hfind hp
      rw [or_iff_right hnot]
      constructor
      · rintro ⟨d, crossed, hfound⟩
        obtain ⟨⟨d', crossed'⟩, hrest, _⟩ := Option.map_eq_some_iff.1 hfound
        exact ⟨d', crossed', hrest⟩
      · rintro ⟨d, crossed, hrest⟩
        exact ⟨d, crossed + 1, by rw [hrest]; rfl⟩

/-- A name that can be seen is one that a lookup finds. -/
theorem Distinct.sees_iff (h : t.Distinct) :
    t.Sees index name ↔ ∃ d crossed, t.lookupBefore? name index = some (d, crossed) := by
  rw [lookupBefore?, exists_findAlong?_iff]
  simp only [Sees, h.find?_eq_some_iff, and_assoc]

/-- In every table that can come about, the names that a use at an offset can see are those that a lookup from the offset
finds, each listed once. -/
theorem visibleNames_found (h : t.Reachable) (index : UInt64) :
    (∀ name, name ∈ t.visibleNames index ↔ ∃ d crossed, t.lookupBefore? name index = some (d, crossed)) ∧
      (t.visibleNames index).Nodup :=
  ⟨fun _ => mem_visibleNames.trans h.distinct.sees_iff, t.nodup_visibleNames index⟩

/-- A name that is declared around a block, in it for uses further down only, and below the frame with another one. -/
theorem visibleNames_found_hidden :
    let outer : SymbolTable := (declare {} 1 .start 0 none false).declare 3 .start 90 none true
    let inner := ((outer.enterBlock 10).declare 2 .start 12 none false).enterScope [rootBlock, 30]
    let t := inner.declare 1 .start 50 (some .number) false
    t.Reachable ∧ t.visibleNames 20 = [3, 1] ∧ (t.lookupBefore? 1 20).map Prod.snd = some 1 ∧
      (∃ d crossed, t.lookupBefore? 1 20 = some (d, crossed)) ∧ ¬∃ d crossed, t.lookupBefore? 2 20 = some (d, crossed) := by
  intro outer inner t
  have houter : outer.Reachable := (Reachable.fresh.declare 1 .start 0 none false).declare 3 .start 90 none true
  have ht : t.Reachable :=
    (((houter.enterBlock 10).declare 2 .start 12 none false).enterScope [rootBlock, 30]).declare 1 .start 50 _ false
  have hnames : t.visibleNames 20 = [3, 1] := by decide
  obtain ⟨hfound, -⟩ := visibleNames_found ht 20
  refine ⟨ht, hnames, by decide, (hfound 1).1 ?_, fun hother => ?_⟩
  · rw [hnames]
    decide
  · have hmem := (hfound 2).2 hother
    rw [hnames] at hmem
    revert hmem
    decide

end ToneScript.SymbolTable
