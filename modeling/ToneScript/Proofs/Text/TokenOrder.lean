import Mathlib.Algebra.GroupWithZero.Nat
import ToneScript.Token.Lexer

/-! Tokens stand in the order of the text: each ends before the next one starts, and offsets do not wrap
in a text of fewer than two to the power 64 characters. -/
namespace ToneScript

theorem toNat_add_toUInt64 (a : UInt64) (n : Nat) (h : a.toNat + n < UInt64.size) :
    (a + n.toUInt64).toNat = a.toNat + n := by
  have hn : n < UInt64.size := by omega
  rw [UInt64.toNat_add, UInt64.toNat_ofNat_of_lt' hn]
  exact Nat.mod_eq_of_lt h

namespace Token

/-- Offset of the first character. -/
def offset (t : Token) : Nat :=
  t.pos.index.toNat

/-- Offset after the last character. -/
def limit (t : Token) : Nat :=
  t.offset + t.lexeme.length

theorem toNat_limit {t : Token} (h : t.limit < UInt64.size) :
    (t.pos.index + t.lexeme.length.toUInt64).toNat = t.limit :=
  toNat_add_toUInt64 t.pos.index t.lexeme.length h

/-- Tokens that follow each other between two offsets, none of them empty. -/
def Ordered (lo hi : Nat) : List Token → Prop
  | [] => lo ≤ hi
  | t :: ts => lo ≤ t.offset ∧ t.offset < t.limit ∧ Ordered t.limit hi ts

namespace Ordered

variable {lo lo' hi hi' : Nat} {t : Token} {ts : List Token}

theorem le (h : Ordered lo hi ts) : lo ≤ hi := by
  induction ts generalizing lo with
  | nil => exact h
  | cons t ts ih =>
    obtain ⟨hlo, hlt, hts⟩ := h
    have := ih hts
    omega

theorem weaken (h : Ordered lo hi ts) (hlo : lo' ≤ lo) (hhi : hi ≤ hi') : Ordered lo' hi' ts := by
  induction ts generalizing lo lo' with
  | nil => exact Nat.le_trans hlo (Nat.le_trans h hhi)
  | cons t ts ih =>
    obtain ⟨h₁, h₂, h₃⟩ := h
    exact ⟨Nat.le_trans hlo h₁, h₂, ih h₃ (Nat.le_refl _)⟩

theorem bounds (h : Ordered lo hi ts) (ht : t ∈ ts) : lo ≤ t.offset ∧ t.limit ≤ hi := by
  induction ts generalizing lo with
  | nil => cases ht
  | cons u us ih =>
    obtain ⟨h₁, h₂, h₃⟩ := h
    rcases List.mem_cons.1 ht with rfl | ht
    · exact ⟨h₁, h₃.le⟩
    · have := ih h₃ ht
      omega

theorem lt_limit (h : Ordered lo hi ts) (ht : t ∈ ts) : t.offset < t.limit := by
  induction ts generalizing lo with
  | nil => cases ht
  | cons u us ih =>
    rcases List.mem_cons.1 ht with rfl | ht
    · exact h.2.1
    · exact ih h.2.2 ht

/-- Cutting a span leaves an offset that parts its two pieces. -/
theorem split (h : Ordered lo hi ts) (n : Nat) :
    ∃ mid, Ordered lo mid (ts.take n) ∧ Ordered mid hi (ts.drop n) := by
  induction ts generalizing lo n with
  | nil =>
    rw [List.take_nil, List.drop_nil]
    exact ⟨lo, Nat.le_refl lo, h⟩
  | cons t ts ih =>
    cases n with
    | zero => exact ⟨lo, Nat.le_refl lo, h⟩
    | succ n =>
      obtain ⟨mid, h₁, h₂⟩ := ih h.2.2 n
      exact ⟨mid, ⟨h.1, h.2.1, h₁⟩, h₂⟩

theorem take (h : Ordered lo hi ts) (n : Nat) : Ordered lo hi (ts.take n) := by
  obtain ⟨mid, h₁, h₂⟩ := h.split n
  exact h₁.weaken (Nat.le_refl _) h₂.le

theorem drop (h : Ordered lo hi ts) (n : Nat) : Ordered lo hi (ts.drop n) := by
  obtain ⟨mid, h₁, h₂⟩ := h.split n
  exact h₂.weaken h₁.le (Nat.le_refl _)

/-- The end of the last token of the first piece parts the two. -/
theorem split_last (h : Ordered lo hi ts) (n : Nat) (hne : ts.take n ≠ []) :
    Ordered lo ((ts.take n).getLast hne).limit (ts.take n) ∧
      Ordered ((ts.take n).getLast hne).limit hi (ts.drop n) := by
  induction ts generalizing lo n with
  | nil => simp at hne
  | cons t ts ih =>
    cases n with
    | zero => simp at hne
    | succ n =>
      obtain ⟨h₁, h₂, h₃⟩ := h
      simp only [List.take_succ_cons, List.drop_succ_cons]
      by_cases hempty : ts.take n = []
      · simp only [hempty, List.getLast_singleton]
        exact ⟨⟨h₁, h₂, Nat.le_refl _⟩, h₃.drop n⟩
      · rw [List.getLast_cons hempty]
        obtain ⟨htake, hdrop⟩ := ih h₃ n hempty
        exact ⟨⟨h₁, h₂, htake⟩, hdrop⟩

theorem tail (h : Ordered lo hi (t :: ts)) : Ordered (t.offset + 1) hi ts :=
  h.2.2.weaken h.2.1 (Nat.le_refl _)

end Ordered
end Token

namespace Lexer

/-- What holds of a piece that is cut from a text: it is not empty, and a line break has at most two
characters. -/
structure Piece.Sound (p : Piece) : Prop where
  nonempty : p.text ≠ []
  lineBreak : p.kind = .lineBreak → p.text.length ≤ 2

theorem pieceAt_lineBreak {c : Char} {cs : List Char} (h : (pieceAt c cs).1 = .lineBreak) :
    (pieceAt c cs).2 ≤ 1 := by
  unfold pieceAt at h ⊢
  split
  · simp_all
  split
  · simp_all
  split
  · simp
  split
  · simp
  split
  · simp_all
  split
  · simp_all
  split
  · simp_all
  split
  · simp_all
  split <;> simp_all

theorem pieces_sound (cs : List Char) : ∀ p ∈ pieces cs, Piece.Sound p := by
  fun_induction pieces cs with
  | case1 => simp
  | case2 c cs kind n heq ih =>
    intro p hp
    rcases List.mem_cons.1 hp with rfl | hp
    · refine ⟨by simp, fun hk => ?_⟩
      have hone : (pieceAt c cs).2 ≤ 1 := pieceAt_lineBreak (by rw [heq]; exact hk)
      rw [heq] at hone
      simp only [List.length_cons, List.length_take]
      omega
    · exact ih p hp

/-- The number of characters of several pieces. -/
def extent (ps : List Piece) : Nat :=
  (ps.map fun p => p.text.length).sum

theorem extent_pieces (cs : List Char) : extent (pieces cs) = cs.length := by
  fun_induction pieces cs with
  | case1 => rfl
  | case2 c cs kind n _ ih =>
    simp only [extent, List.map_cons, List.sum_cons, List.length_cons, List.length_take] at ih ⊢
    rw [ih, List.length_drop]
    omega

theorem advance_index {p : Position} {piece : Piece} (hp : Piece.Sound piece)
    (h : p.index.toNat + piece.text.length < UInt64.size) :
    (advance p piece).index.toNat = p.index.toNat + piece.text.length := by
  have hone (a : UInt64) (ha : a.toNat + 1 < UInt64.size) : (a + 1).toNat = a.toNat + 1 :=
    toNat_add_toUInt64 a 1 ha
  obtain ⟨kind, text⟩ := piece
  have hne : text ≠ [] := hp.nonempty
  unfold advance
  split
  · rename_i a b hk ht
    have hb : text = [a, b] := ht
    subst hb
    simp only [List.length_cons, List.length_nil] at h ⊢
    have h₁ := hone p.index (by omega)
    have h₂ := hone (p.index + 1) (by omega)
    simp only [Position.addLine, Position.addReturn]
    omega
  · rename_i hk ht
    have hlen := hp.lineBreak hk
    have hone' : text.length = 1 := by
      match text, hne, hlen, ht with
      | [_], _, _, _ => rfl
      | [a, b], _, _, ht => exact absurd rfl (ht a b)
      | _ :: _ :: _ :: _, _, hlen, _ => simp at hlen
    simp only [hone'] at h ⊢
    exact hone p.index h
  · exact toNat_add_toUInt64 p.index text.length h

theorem ordered_tokensFrom {ps : List Piece} (hps : ∀ p ∈ ps, Piece.Sound p) (p : Position)
    (names : NameTable) (journal : Journal) (h : p.index.toNat + extent ps < UInt64.size) :
    Token.Ordered p.index.toNat (p.index.toNat + extent ps)
      (tokensFrom p names journal ps).tokens := by
  induction ps generalizing p names journal with
  | nil => exact Nat.le_add_right _ _
  | cons piece ps ih =>
    have hpiece := hps piece (by simp)
    have hlen : 0 < piece.text.length := List.length_pos_iff.2 hpiece.nonempty
    have hext : extent (piece :: ps) = piece.text.length + extent ps := rfl
    rw [hext] at h ⊢
    have hadv := advance_index (p := p) hpiece (by omega)
    have hrest (names : NameTable) (journal : Journal) := ih (fun q hq => hps q (by simp [hq]))
      (advance p piece) names journal (by omega)
    simp only [hadv, Nat.add_assoc] at hrest
    unfold tokensFrom
    simp only
    split
    · have hlimit (kind : Token.Kind) : (Token.mk kind p (String.ofList piece.text)).limit =
          p.index.toNat + piece.text.length := by
        simp [Token.limit, Token.offset]
      refine ⟨(Nat.le_refl _), ?_, ?_⟩
      · rw [hlimit]
        exact Nat.lt_add_of_pos_right hlen
      · rw [hlimit]
        exact hrest _ _
    · exact (hrest _ _).weaken (Nat.le_add_right _ _) (Nat.le_refl _)

/-- The tokens of a source stand in order within its text. -/
theorem ordered_run (source : Source) (names : NameTable) (journal : Journal)
    (h : source.text.length < UInt64.size) :
    Token.Ordered 0 source.text.length (run source names journal).tokens := by
  have hstart : Position.start.index.toNat = 0 := rfl
  have := ordered_tokensFrom (pieces_sound source.text) .start names journal
    (by rw [extent_pieces, hstart, Nat.zero_add]; exact h)
  rwa [extent_pieces, hstart, Nat.zero_add] at this

end Lexer
end ToneScript
