import ToneScript.Token.Lexer

/-! What tokens a text can hold. -/
namespace ToneScript

namespace Token

/-- Whether a token is one that a source can hold: neither the end of the source, nor an operator that no text
stands for. -/
def IsWritten (t : Token) : Prop :=
  t.kind ≠ .eof ∧ t.kind ≠ .operator .neg

instance (t : Token) : Decidable t.IsWritten :=
  inferInstanceAs (Decidable (_ ∧ _))

end Token

theorem Operator.ofText?_ne_neg (s : String) : Operator.ofText? s ≠ some .neg := by
  intro h
  have hmem := List.mem_of_find?_eq_some h
  revert hmem
  decide

namespace Lexer

/-- No piece of a text is a minus sign before its operand: which minus signs are is found out later. -/
theorem pieceAt_ne_neg (c : Char) (cs : List Char) : (pieceAt c cs).1 ≠ .operator .neg := by
  have hpair : ∀ cs op, operatorPair? cs = some op → op ≠ .neg := by
    rintro cs op hop rfl
    unfold operatorPair? at hop
    split at hop
    · exact Operator.ofText?_ne_neg _ hop
    · cases hop
  unfold pieceAt
  repeat' split
  any_goals simp only [ne_eq, reduceCtorEq, not_false_eq_true]
  · rename_i op hop
    exact fun h => hpair _ op hop (Piece.Kind.operator.inj h)
  · rename_i op hop
    exact fun h => Operator.ofText?_ne_neg _ (Piece.Kind.operator.inj h ▸ hop)

theorem kind_ne_neg_of_mem_pieces {cs : List Char} {piece : Piece} (h : piece ∈ pieces cs) :
    piece.kind ≠ .operator .neg := by
  fun_induction pieces cs with
  | case1 => cases h
  | case2 c cs kind n hkind ih =>
    rcases List.mem_cons.1 h with rfl | hmem
    · have hne := pieceAt_ne_neg c cs
      rw [hkind] at hne
      exact hne
    · exact ih hmem

theorem wordKind_isWritten (names : NameTable) (text : String) :
    (wordKind names text).1 ≠ .eof ∧ (wordKind names text).1 ≠ .operator .neg := by
  unfold wordKind
  split
  · exact ⟨nofun, nofun⟩
  · split <;> exact ⟨nofun, nofun⟩

theorem tokenKind?_isWritten {piece : Piece} (h : piece.kind ≠ .operator .neg) (names : NameTable) :
    ∀ kind, (tokenKind? names piece).1 = some kind → kind ≠ .eof ∧ kind ≠ .operator .neg := by
  intro kind hkind
  unfold tokenKind? at hkind
  split at hkind
  · rename_i op hop
    cases hkind
    exact ⟨nofun, fun heq => h (by rw [hop, Token.Kind.operator.inj heq])⟩
  · cases hkind
    exact ⟨nofun, nofun⟩
  · cases hkind
    exact ⟨nofun, nofun⟩
  · cases hkind
    exact wordKind_isWritten names _
  · cases hkind
  · cases hkind
  · cases hkind
  · cases hkind

/-- The tokens of a text are those that a text can hold. -/
theorem isWritten_of_mem_tokensFrom {p : Position} {names : NameTable} {journal : Journal} {ps : List Piece}
    (hps : ∀ piece ∈ ps, piece.kind ≠ .operator .neg) {t : Token}
    (h : t ∈ (tokensFrom p names journal ps).tokens) : t.IsWritten := by
  induction ps generalizing p names journal with
  | nil => cases h
  | cons piece rest ih =>
    obtain ⟨hpiece, hrest⟩ := List.forall_mem_cons.1 hps
    rw [tokensFrom] at h
    split at h
    rename_i kind? names' hkind
    cases kind? with
    | none => exact ih hrest h
    | some kind =>
      rcases List.mem_cons.1 h with rfl | hmem
      · have hwritten := tokenKind?_isWritten hpiece names
        rw [hkind] at hwritten
        exact hwritten kind rfl
      · exact ih hrest hmem

theorem isWritten_of_mem_run {source : Source} {names : NameTable} {journal : Journal} {t : Token}
    (h : t ∈ (run source names journal).tokens) : t.IsWritten :=
  isWritten_of_mem_tokensFrom (fun _ hpiece => kind_ne_neg_of_mem_pieces hpiece) h

end Lexer
end ToneScript
