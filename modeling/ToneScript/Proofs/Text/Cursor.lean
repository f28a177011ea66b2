import ToneScript.Proofs.Text.Pattern

/-! The position that lexing keeps while it goes through a text is that which the table of lines gives. -/
namespace ToneScript

theorem toUInt32_add (a b : Nat) : (a + b).toUInt32 = a.toUInt32 + b.toUInt32 :=
  UInt32.ofNat_add a b

theorem toUInt64_add (a b : Nat) : (a + b).toUInt64 = a.toUInt64 + b.toUInt64 :=
  UInt64.ofNat_add a b

namespace Source

variable {source : Source} {starts : List Nat} {lineStart n : Nat} {w rest : List Char}

theorem lt_of_mem_breaksFrom {cs : List Char} {i s : Nat} (h : s ∈ breaksFrom i cs) : i < s := by
  fun_induction breaksFrom i cs with
  | case1 => cases h
  | case2 i cs ih =>
    rcases List.mem_cons.1 h with rfl | h
    · omega
    · have := ih h
      omega
  | case3 i c cs _ hc ih =>
    rcases List.mem_cons.1 h with rfl | h
    · omega
    · have := ih h
      omega
  | case4 i c cs _ hc ih =>
    have := ih h
    omega

theorem breaksFrom_append (hw : ∀ c ∈ w, isBreak c = false) (i : Nat) (rest : List Char) :
    breaksFrom i (w ++ rest) = breaksFrom (i + w.length) rest := by
  induction w generalizing i with
  | nil => rfl
  | cons c w ih =>
    obtain ⟨hc, hw⟩ := List.forall_mem_cons.1 hw
    have hnot : ¬(c = '\n' ∨ c = '\r') := by simpa [isBreak] using hc
    rw [List.cons_append, breaksFrom, if_neg hnot, ih hw, List.length_cons, Nat.add_assoc, Nat.add_comm 1]
    rintro _ rfl
    exact absurd (.inr rfl) hnot

/-- An offset of a source before which lines start at some offsets, the last of them at `lineStart`, and after which
`rest` stands. It parts no line break in two. -/
structure Reached (source : Source) (starts : List Nat) (lineStart n : Nat) (rest : List Char) : Prop where
  lineStarts : source.lineStarts = starts ++ lineStart :: breaksFrom n rest
  before : ∀ s ∈ starts, s ≤ n
  lineStart_le : lineStart ≤ n

theorem reached_start (source : Source) : source.Reached [] 0 0 source.text :=
  ⟨rfl, List.forall_mem_nil _, Nat.le_refl 0⟩

namespace Reached

theorem position_eq (h : source.Reached starts lineStart n rest) :
    source.position n = ⟨(starts.length + 1).toUInt32, (n - lineStart).toUInt32 + 1, n.toUInt64, lineStart.toUInt64⟩ := by
  have hbefore : source.lineStarts.takeWhile (· ≤ n) = starts ++ [lineStart] := by
    have hsplit : source.lineStarts = (starts ++ [lineStart]) ++ breaksFrom n rest := by
      rw [h.lineStarts, List.append_assoc, List.singleton_append]
    have hle : ∀ s ∈ starts ++ [lineStart], decide (s ≤ n) = true := by
      intro s hs
      rcases List.mem_append.1 hs with hs | hs
      · exact decide_eq_true (h.before s hs)
      · rw [List.mem_singleton.1 hs]
        exact decide_eq_true h.lineStart_le
    rw [hsplit, List.takeWhile_append_of_pos hle]
    cases hrest : breaksFrom n rest with
    | nil => simp
    | cons s ss =>
      have hlt := lt_of_mem_breaksFrom (hrest ▸ List.mem_cons_self : s ∈ breaksFrom n rest)
      rw [List.takeWhile_cons_of_neg (by simpa using hlt), List.append_nil]
  simp only [Source.position, hbefore, List.length_append, List.length_singleton, List.getLastD_eq_getLast?,
    List.getLast?_append, List.getLast?_singleton, Option.some_or, Option.getD_some]

/-- Characters that end no line. -/
theorem within (h : source.Reached starts lineStart n (w ++ rest)) (hw : ∀ c ∈ w, isBreak c = false) :
    source.Reached starts lineStart (n + w.length) rest where
  lineStarts := by rw [h.lineStarts, breaksFrom_append hw]
  before s hs := Nat.le_trans (h.before s hs) (Nat.le_add_right _ _)
  lineStart_le := Nat.le_trans h.lineStart_le (Nat.le_add_right _ _)

/-- A line break. -/
theorem lineBreak (h : source.Reached starts lineStart n (w ++ rest)) (hw : Pattern.lineBreak.Longest w (w ++ rest)) :
    source.Reached (starts ++ [lineStart]) (n + w.length) (n + w.length) rest where
  lineStarts := by
    have hbreak : breaksFrom n (w ++ rest) = (n + w.length) :: breaksFrom (n + w.length) rest := by
      rcases Pattern.mem_lineBreak.1 hw.mem with rfl | ⟨c, hc, rfl⟩
      · rfl
      · have hc' : c = '\n' ∨ c = '\r' := by simpa [isBreak] using hc
        rw [List.singleton_append, breaksFrom, if_pos hc', List.length_singleton]
        -- A carriage return before a line feed would not be the longest match.
        rintro cs rfl rfl
        have hle := hw.longest ['\r', '\n'] (Pattern.mem_lineBreak.2 (.inl rfl)) (by simp)
        simp at hle
    rw [h.lineStarts, hbreak, List.append_assoc, List.singleton_append]
  before s hs := by
    rcases List.mem_append.1 hs with hs | hs
    · exact Nat.le_trans (h.before s hs) (Nat.le_add_right _ _)
    · rw [List.mem_singleton.1 hs]
      exact Nat.le_trans h.lineStart_le (Nat.le_add_right _ _)
  lineStart_le := Nat.le_refl _

end Reached
theorem isBreak_eq_false {p : Char → Bool} (hlineFeed : p '\n' = false) (hreturn : p '\r' = false) {c : Char}
    (h : p c = true) : isBreak c = false := by
  by_contra hbreak
  rw [Bool.not_eq_false, isBreak, Bool.or_eq_true, beq_iff_eq, beq_iff_eq] at hbreak
  rcases hbreak with rfl | rfl
  · rw [hlineFeed] at h
    cases h
  · rw [hreturn] at h
    cases h

end Source

open Source in
/-- Only a line break ends a line. -/
theorem Pattern.isBreak_eq_false {p : Pattern} (hp : p ≠ .lineBreak) {w : List Char} (hw : w ∈ p.language) :
    ∀ c ∈ w, isBreak c = false := by
  cases p with
  | lineBreak => exact absurd rfl hp
  | comment =>
    obtain ⟨cs, rfl, hcs⟩ := mem_comment.1 hw
    refine List.forall_mem_cons.2 ⟨rfl, List.forall_mem_cons.2 ⟨rfl, fun c hc => ?_⟩⟩
    simpa using hcs c hc
  | blanks =>
    obtain ⟨c, cs, hc, hcs, rfl⟩ := mem_one_mul.1 hw
    refine List.forall_mem_cons.2 ⟨Source.isBreak_eq_false rfl rfl hc, fun d hd => ?_⟩
    exact Source.isBreak_eq_false rfl rfl (mem_kstar_one.1 hcs d hd)
  | word | operatorPair | operator | symbol | number =>
    intro c hc
    exact (Bool.or_eq_false_iff.1 (forall_isGap_eq_false rfl hw c hc)).2

namespace Lexer

variable {source : Source} {starts : List Nat} {lineStart n : Nat} {rest : List Char} {piece : Piece}

theorem kind_eq_lineBreak : piece.kind = .lineBreak ↔ Pattern.ofPiece? piece = some .lineBreak := by
  obtain ⟨kind, text⟩ := piece
  cases kind <;> simp [Pattern.ofPiece?]
  split <;> simp

theorem advance_eq_addChars (p : Position) (h : piece.kind ≠ .lineBreak) :
    advance p piece = p.addChars piece.text.length := by
  unfold advance
  split
  · exact absurd (by assumption) h
  · exact absurd (by assumption) h
  · rfl

/-- The position after a piece is that of the offset after it. -/
theorem advance_position (h : source.Reached starts lineStart n (piece.text ++ rest))
    (hfront : Pattern.IsFront (Pattern.ofPiece? piece) piece.text (piece.text ++ rest)) :
    advance (source.position n) piece = source.position (n + piece.text.length) ∧
      ∃ starts' lineStart', source.Reached starts' lineStart' (n + piece.text.length) rest := by
  by_cases hkind : piece.kind = .lineBreak
  · rw [kind_eq_lineBreak.1 hkind] at hfront
    have hnext := h.lineBreak hfront.1
    refine ⟨?_, _, _, hnext⟩
    rw [h.position_eq, hnext.position_eq, Nat.sub_self, List.length_append, List.length_singleton,
      toUInt32_add (starts.length + 1) 1]
    obtain ⟨kind, text⟩ := piece
    obtain rfl : kind = .lineBreak := hkind
    rcases Pattern.mem_lineBreak.1 hfront.1.mem with htext | ⟨c, _, htext⟩
    · obtain rfl : text = ['\r', '\n'] := htext
      have htwo : (n + 2).toUInt64 = n.toUInt64 + 1 + 1 := by rw [toUInt64_add n 2, UInt64.add_assoc]; rfl
      simp only [List.length_cons, List.length_nil, Nat.zero_add, Nat.reduceAdd, htwo]
      rfl
    · obtain rfl : text = [c] := htext
      simp only [List.length_singleton, toUInt64_add n 1]
      rfl
  · have hw : ∀ c ∈ piece.text, Source.isBreak c = false := by
      cases hpattern : Pattern.ofPiece? piece with
      | some p =>
        rw [hpattern] at hfront
        refine Pattern.isBreak_eq_false ?_ hfront.1.mem
        rintro rfl
        exact hkind (kind_eq_lineBreak.2 hpattern)
      | none =>
        rw [hpattern] at hfront
        obtain ⟨⟨c, hc⟩, _, hnone⟩ := hfront
        have hbreak := hnone .lineBreak
        rw [hc, List.singleton_append, Pattern.matches_lineBreak, Bool.not_eq_true] at hbreak
        rwa [hc, List.forall_mem_singleton]
    have hnext := h.within hw
    refine ⟨?_, _, _, hnext⟩
    rw [advance_eq_addChars _ hkind, h.position_eq, hnext.position_eq, Position.addChars]
    have hoffset : n + piece.text.length - lineStart = n - lineStart + piece.text.length :=
      Nat.sub_add_comm h.lineStart_le
    have hcolumn (a k : UInt32) : a + 1 + k = a + k + 1 := by
      rw [UInt32.add_assoc, UInt32.add_comm 1, ← UInt32.add_assoc]
    rw [hoffset, toUInt32_add (n - lineStart), toUInt64_add]
    simp only [hcolumn]

end Lexer
end ToneScript
