import Mathlib.Data.List.Nodup
import ToneScript.Token.Lexer

/-! Handles of names. Names are interned once, so that the handles that come out of a text are told apart by their
names. -/
namespace ToneScript

namespace NameTable

/-- Whether a handle is that of a name in a table. -/
def Holds (t : NameTable) (id : Ident) : Prop :=
  id.toNat < t.size
deriving Decidable

/-- Whether all of several handles are those of names in a table. -/
def HoldsAll (t : NameTable) (ids : List Ident) : Prop :=
  ∀ id ∈ ids, t.Holds id

-- Handles are finitely many, and an instance that goes through all of them would never end.
instance (t : NameTable) (ids : List Ident) : Decidable (t.HoldsAll ids) :=
  List.decidableBAll t.Holds ids

/-- One table has all the names of another one, and none twice unless that has. -/
structure Grows (t t' : NameTable) : Prop where
  size : t.size ≤ t'.size
  distinct : t.names.Nodup → t'.names.Nodup

theorem Grows.refl (t : NameTable) : t.Grows t :=
  ⟨Nat.le_refl _, id⟩

theorem Grows.trans {t t' t'' : NameTable} (h : t.Grows t') (h' : t'.Grows t'') : t.Grows t'' :=
  ⟨Nat.le_trans h.size h'.size, h'.distinct ∘ h.distinct⟩

theorem Grows.holds {t t' : NameTable} (h : t.Grows t') {id : Ident} (hid : t.Holds id) : t'.Holds id :=
  Nat.lt_of_lt_of_le hid h.size

theorem Grows.holdsAll {t t' : NameTable} (h : t.Grows t') {ids : List Ident} (hids : t.HoldsAll ids) :
    t'.HoldsAll ids :=
  fun id hid => h.holds (hids id hid)

/-- In a table of distinct names a handle is told by its name. -/
theorem eq_of_name_eq {t : NameTable} (hdistinct : t.names.Nodup) {id id' : Ident} (hid : t.Holds id)
    (hid' : t.Holds id') (h : t.name id = t.name id') : id = id' := by
  have hlt : id.toNat < t.names.length := hid
  have hlt' : id'.toNat < t.names.length := hid'
  rw [name, name, List.getD_eq_getElem?_getD, List.getD_eq_getElem?_getD, List.getElem?_eq_getElem hlt,
    List.getElem?_eq_getElem hlt'] at h
  exact UInt32.toNat_inj.1 ((List.Nodup.getElem_inj_iff hdistinct).1 h)

theorem nodup_names {t : NameTable} (hdistinct : t.names.Nodup) {ids : List Ident} (hids : ids.Nodup)
    (hheld : t.HoldsAll ids) : (ids.map t.name).Nodup := by
  refine hids.map_on fun id hid id' hid' heq => ?_
  exact eq_of_name_eq hdistinct (hheld id hid) (hheld id' hid') heq

/-- The handle of a place in a table is in the table, even where handles wrap. -/
theorem holds_toUInt32 {t : NameTable} {i : Nat} (h : i < t.size) : t.Holds i.toUInt32 := by
  have hle : i.toUInt32.toNat ≤ i := by
    rw [UInt32.toNat_ofNat']
    exact Nat.mod_le _ _
  exact Nat.lt_of_le_of_lt hle h

theorem grows_intern (t : NameTable) (name : String) : t.Grows (t.intern name).2 := by
  unfold intern
  split
  · exact .refl t
  · rename_i hnone
    have hnew : name ∉ t.names := by
      intro hmem
      rw [find?, Option.map_eq_none_iff, List.findIdx?_eq_none_iff] at hnone
      simpa using hnone name hmem
    constructor
    · show t.names.length ≤ (t.names ++ [name]).length
      rw [List.length_append]
      exact Nat.le_add_right _ _
    · intro hdistinct
      refine List.nodup_append.2 ⟨hdistinct, List.pairwise_singleton _ _, fun other hother => ?_⟩
      rintro _ hmem rfl
      rw [List.mem_singleton.1 hmem] at hother
      exact hnew hother

theorem holds_intern (t : NameTable) (name : String) : (t.intern name).2.Holds (t.intern name).1 := by
  unfold intern
  split
  · rename_i id hsome
    obtain ⟨i, hi, rfl⟩ := Option.map_eq_some_iff.1 hsome
    exact holds_toUInt32 (List.findIdx?_eq_some_iff_getElem.1 hi).1
  · refine holds_toUInt32 ?_
    show t.names.length < (t.names ++ [name]).length
    rw [List.length_append]
    exact Nat.lt_succ_self _

end NameTable

namespace Lexer

/-- A piece that is a name brings it into the table. -/
theorem tokenKind?_grows (names : NameTable) (piece : Piece) :
    names.Grows (tokenKind? names piece).2 ∧
      ∀ id, (tokenKind? names piece).1 = some (.ident id) → (tokenKind? names piece).2.Holds id := by
  unfold tokenKind?
  split
  case h_4 =>
    simp only [wordKind]
    split
    · exact ⟨.refl _, nofun⟩
    split
    · exact ⟨.refl _, nofun⟩
    · refine ⟨names.grows_intern _, ?_⟩
      rintro _ ⟨⟩
      exact names.holds_intern _
  all_goals exact ⟨.refl _, nofun⟩

/-- The names of all tokens are in the table in the end. -/
theorem tokensFrom_grows (pieces : List Piece) (p : Position) (names : NameTable) (journal : Journal) :
    names.Grows (tokensFrom p names journal pieces).names ∧
      ∀ t ∈ (tokensFrom p names journal pieces).tokens, ∀ id, t.kind = .ident id →
        (tokensFrom p names journal pieces).names.Holds id := by
  induction pieces generalizing p names journal with
  | nil => exact ⟨.refl _, nofun⟩
  | cons piece rest ih =>
    obtain ⟨hfirst, hname⟩ := tokenKind?_grows names piece
    rcases hkind : tokenKind? names piece with ⟨kind?, names'⟩
    rw [hkind] at hfirst hname
    obtain ⟨hrest, hnames⟩ := ih (advance p piece) names'
      (if piece.kind = .unknown then journal.report (.error p "unrecognized token") else journal)
    rw [tokensFrom, hkind]
    cases kind? with
    | none => exact ⟨hfirst.trans hrest, hnames⟩
    | some kind =>
      refine ⟨hfirst.trans hrest, fun t ht id hid => ?_⟩
      rcases List.mem_cons.1 ht with rfl | ht
      · exact hrest.holds (hname id (congrArg some hid))
      · exact hnames t ht id hid

theorem run_grows (source : Source) (names : NameTable) (journal : Journal) :
    names.Grows (run source names journal).names ∧
      ∀ t ∈ (run source names journal).tokens, ∀ id, t.kind = .ident id →
        (run source names journal).names.Holds id :=
  tokensFrom_grows (pieces source.text) .start names journal

end Lexer
end ToneScript
