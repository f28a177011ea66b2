import ToneScript.Proofs.Text.Splitting
import ToneScript.Proofs.Text.TokenOrder

/-! Where tokens stand. The position that lexing gives to a token or to an issue is the one that the table of lines gives
for its offset, and the line of a token, from the column of the token on, begins with the token. -/
namespace ToneScript

namespace Source

variable {source : Source} {starts : List Nat} {lineStart n : Nat} {w rest : List Char}

/-- Each line but the first follows a character that ends a line. -/
theorem length_breaksFrom_le (i : Nat) (cs : List Char) : (breaksFrom i cs).length ≤ cs.countP isBreak := by
  fun_induction breaksFrom i cs with
  | case1 => exact Nat.le_refl 0
  | case2 i cs ih =>
    have hcount : ('\r' :: '\n' :: cs).countP isBreak = cs.countP isBreak + 2 := by simp [isBreak]
    rw [hcount, List.length_cons]
    omega
  | case3 i c cs _ hc ih =>
    have hbreak : isBreak c = true := by simpa [isBreak] using hc
    rw [List.countP_cons_of_pos hbreak, List.length_cons]
    omega
  | case4 i c cs _ hc ih =>
    have hbreak : ¬isBreak c = true := by simpa [isBreak] using hc
    rwa [List.countP_cons_of_neg hbreak]

/-- A line keeps what stands in it before a character that ends no line. -/
theorem exists_stripped_eq (hne : w ≠ []) (hw : ∀ c ∈ w, isBreak c = false) (front tail : List Char) :
    ∃ more, ((front ++ w ++ tail).reverse.dropWhile isBreak).reverse = front ++ w ++ more := by
  obtain ⟨init, c, rfl⟩ := (List.eq_nil_or_concat' w).resolve_left hne
  have hc : ¬isBreak c = true := by
    rw [hw c (List.mem_append_right _ (List.mem_singleton_self c))]
    exact Bool.false_ne_true
  have hkept : (front ++ (init ++ [c])).reverse.dropWhile isBreak = (front ++ (init ++ [c])).reverse := by
    rw [← List.append_assoc, List.reverse_append, List.reverse_singleton, List.singleton_append,
      List.dropWhile_cons_of_neg hc]
  rw [List.reverse_append, List.dropWhile_append]
  split
  · rw [hkept, List.reverse_reverse]
    exact ⟨[], (List.append_nil _).symm⟩
  · rw [List.reverse_append, List.reverse_reverse]
    exact ⟨_, rfl⟩

/-- The line of a text without line breaks begins with the text, from its offset within the line on. -/
theorem Reached.prefix_line (h : source.Reached starts lineStart n (w ++ rest)) (htext : w ++ rest = source.text.drop n)
    (hne : w ≠ []) (hw : ∀ c ∈ w, isBreak c = false) :
    w <+: (source.line (starts.length + 1)).drop (n - lineStart) := by
  have hle := h.lineStart_le
  have hlimit : n + w.length ≤ source.length := by
    have hlength := congrArg List.length htext
    have hpos := List.length_pos_iff.2 hne
    rw [List.length_append, List.length_drop] at hlength
    rw [Source.length]
    omega
  have htable := h.lineStarts
  rw [breaksFrom_append hw] at htable
  have hfirst : source.lineStarts[starts.length]? = some lineStart := by simp [htable]
  -- The line ends after the text, where the next line starts or at the end of the source.
  have hlast : n + w.length ≤ source.lineStarts.getD (starts.length + 1) source.length := by
    have hnext : source.lineStarts[starts.length + 1]? = (breaksFrom (n + w.length) rest)[0]? := by
      rw [htable, List.getElem?_append_right (Nat.le_succ _), Nat.succ_sub (Nat.le_refl _), Nat.sub_self]
      rfl
    rw [List.getD_eq_getElem?_getD, hnext]
    cases hbreaks : breaksFrom (n + w.length) rest with
    | nil => exact hlimit
    | cons s ss =>
      exact Nat.le_of_lt (lt_of_mem_breaksFrom (hbreaks ▸ List.mem_cons_self : s ∈ breaksFrom (n + w.length) rest))
  have hsplit : source.text.drop lineStart = (source.text.drop lineStart).take (n - lineStart) ++ w ++ rest := by
    have hdrop : (source.text.drop lineStart).drop (n - lineStart) = w ++ rest := by
      rw [List.drop_drop, Nat.add_sub_cancel' hle, htext]
    rw [List.append_assoc, ← hdrop, List.take_append_drop]
  have hlength : ((source.text.drop lineStart).take (n - lineStart)).length = n - lineStart := by
    rw [Source.length] at hlimit
    rw [List.length_take, List.length_drop]
    omega
  generalize (source.text.drop lineStart).take (n - lineStart) = front at hsplit hlength
  rw [Source.line]
  simp only [hfirst]
  rw [hsplit, List.take_append, List.take_of_length_le (by rw [List.length_append]; omega)]
  obtain ⟨more, hmore⟩ := exists_stripped_eq hne hw front (rest.take (_ - (front ++ w).length))
  rw [hmore, List.append_assoc, ← hlength, List.drop_left]
  exact List.prefix_append w more

/-- A text that stands at an offset of a source which lexing reaches. -/
structure Stands (source : Source) (w : List Char) (n : Nat) : Prop where
  reached : ∃ starts lineStart, source.Reached starts lineStart n (source.text.drop n)
  front : w <+: source.text.drop n

namespace Stands

theorem offset_lt (h : source.Stands w n) (hne : w ≠ []) : n < source.length := by
  have hpos := List.length_pos_iff.2 hne
  have hle := h.front.length_le
  rw [List.length_drop] at hle
  rw [length]
  omega

/-- A source with a character that ends no line has no more lines than characters. -/
theorem length_lineStarts_le (h : source.Stands w n) (hne : w ≠ []) (hw : ∀ c ∈ w, isBreak c = false) :
    source.lineStarts.length ≤ source.length := by
  obtain ⟨c, hc⟩ := List.exists_mem_of_ne_nil w hne
  have hmem : c ∈ source.text := List.drop_subset n _ (h.front.subset hc)
  have hlt : source.text.countP isBreak < source.length := by
    refine Nat.lt_of_le_of_ne List.countP_le_length fun hall => ?_
    have hbreak := List.countP_eq_length.1 hall c hmem
    rw [hw c hc] at hbreak
    cases hbreak
  have hle := length_breaksFrom_le 0 source.text
  rw [lineStarts, List.length_cons]
  omega

/-- In a source that is not too long, the line of a text begins with the text, from its column on. -/
theorem prefix_line (h : source.Stands w n) (hne : w ≠ []) (hw : ∀ c ∈ w, isBreak c = false)
    (hsize : source.length < UInt32.size) :
    w <+: (source.line (source.position n).line.toNat).drop ((source.position n).column.toNat - 1) := by
  have hlt := h.offset_lt hne
  have hlines := h.length_lineStarts_le hne hw
  obtain ⟨⟨starts, lineStart, hreached⟩, rest, hrest⟩ := h
  have hline : (source.position n).line.toNat = starts.length + 1 := by
    rw [hreached.lineStarts, List.length_append, List.length_cons] at hlines
    rw [hreached.position_eq]
    exact UInt32.toNat_ofNat_of_lt' (by omega)
  have hcolumn : (source.position n).column.toNat - 1 = n - lineStart := by
    have htoNat : (n - lineStart + 1).toUInt32.toNat = n - lineStart + 1 := UInt32.toNat_ofNat_of_lt' (by omega)
    rw [toUInt32_add] at htoNat
    rw [hreached.position_eq]
    exact Nat.sub_eq_of_eq_add htoNat
  rw [← hrest] at hreached
  rw [hline, hcolumn]
  exact hreached.prefix_line hrest hne hw

end Stands
end Source

namespace Pattern

variable {pattern? : Option Pattern} {w text : List Char}

theorem IsFront.isPrefix (h : IsFront pattern? w text) : w <+: text := by
  cases pattern? with
  | some p => exact h.1.isPrefix
  | none => exact h.2.1

/-- No line ends within a token. -/
theorem IsFront.isBreak_eq_false (h : IsFront pattern? w text) (htoken : pattern?.any isToken = true) :
    ∀ c ∈ w, Source.isBreak c = false := by
  cases pattern? with
  | none => cases htoken
  | some p =>
    refine Pattern.isBreak_eq_false ?_ h.1.mem
    rintro rfl
    cases htoken

end Pattern

namespace Lexer

open Stretch

variable {source : Source} {p : Position} {s : Stretch} {n : Nat}

/-- What lexing cuts from the rest of a source is placed at the position of the offset at which it stands. -/
theorem stands_of_mem_place {cs : List Char} (hcs : source.text.drop n = cs)
    (h : ∃ starts lineStart, source.Reached starts lineStart n cs)
    (hmem : (p, s) ∈ place source n ((pieces cs).map ofPiece)) :
    ∃ offset, p = source.position offset ∧ source.Stands s.text offset ∧
      Pattern.IsFront s.pattern? s.text (source.text.drop offset) := by
  fun_induction pieces cs generalizing n with
  | case1 => cases hmem
  | case2 c cs kind k heq ih =>
    obtain ⟨happend, hfront⟩ := isFront_piece heq
    rw [List.map_cons, place, List.mem_cons] at hmem
    rcases hmem with hfirst | hmem
    · obtain ⟨rfl, rfl⟩ := Prod.mk.inj hfirst
      rw [happend, ← hcs] at hfront
      exact ⟨n, rfl, ⟨hcs.symm ▸ h, hfront.isPrefix⟩, hfront⟩
    · obtain ⟨starts, lineStart, hreached⟩ := h
      have hnext := (advance_position (happend.symm ▸ hreached) hfront).2
      refine ih ?_ hnext hmem
      rw [← List.drop_drop, hcs, ← happend, List.drop_left]

theorem stands_of_mem_tokens {names : NameTable} {journal : Journal} {t : Token}
    (ht : t ∈ (run source names journal).tokens) :
    ∃ offset, t.pos = source.position offset ∧ source.Stands t.lexeme.toList offset ∧ t.lexeme.toList ≠ [] ∧
      ∀ c ∈ t.lexeme.toList, Source.isBreak c = false := by
  have htokens := (tokensFrom_spec source.text names journal source.reached_start).1
  have hlexeme : (t.pos, t.lexeme) ∈ lexemes (place source 0 ((pieces source.text).map ofPiece)) := by
    rw [← htokens, source.reached_start.position_eq]
    exact List.mem_map.2 ⟨t, ht, rfl⟩
  obtain ⟨⟨p, s⟩, hs, heq⟩ := List.mem_map.1 hlexeme
  obtain ⟨hmem, htoken⟩ := List.mem_filter.1 hs
  obtain ⟨hpos, htext⟩ := Prod.mk.inj heq
  obtain ⟨offset, hoffset, hstands, hfront⟩ := stands_of_mem_place rfl ⟨_, _, source.reached_start⟩ hmem
  have hlist : t.lexeme.toList = s.text := by rw [← htext, String.toList_ofList]
  rw [hlist, ← hpos]
  exact ⟨offset, hoffset, hstands, hfront.ne_nil, hfront.isBreak_eq_false htoken⟩

theorem stands_of_mem_unmatched
    (hp : p ∈ unmatched (place source 0 ((pieces source.text).map ofPiece))) :
    ∃ offset < source.length, p = source.position offset := by
  obtain ⟨⟨p, s⟩, hs, rfl⟩ := List.mem_map.1 hp
  have hmem := (List.mem_filter.1 hs).1
  obtain ⟨offset, hoffset, hstands, hfront⟩ := stands_of_mem_place rfl ⟨_, _, source.reached_start⟩ hmem
  exact ⟨offset, hstands.offset_lt hfront.ne_nil, hoffset⟩

/-- The offset that a position of a source carries. -/
theorem toNat_index_position (hsize : source.length < UInt64.size) (hn : n ≤ source.length) :
    (source.position n).index.toNat = n :=
  UInt64.toNat_ofNat_of_lt' (Nat.lt_of_le_of_lt hn hsize)

/-- The position of every token, that of the end of the source too, and every position that lexing reports is the
one that the table of lines gives for its offset, and the text of the token stands at the offset. In a source that is
not too long for lines and columns, the line of a token begins with the token, from the column of the token on. -/
theorem run_positions (source : Source) (names : NameTable) (journal : Journal)
    (hsize : source.length < UInt64.size) :
    (∀ t ∈ (run source names journal).allTokens,
      source.position t.offset = t.pos ∧ t.lexeme.toList <+: source.text.drop t.offset) ∧
    (∃ reported, (run source names journal).journal.issues = journal.issues ++ reported ∧
      ∀ issue ∈ reported, ∃ p, issue.pos? = some p ∧ source.position p.index.toNat = p) ∧
    (source.length < UInt32.size → ∀ t ∈ (run source names journal).tokens,
      t.lexeme.toList ≠ [] ∧
      t.lexeme.toList <+: (source.line t.pos.line.toNat).drop (t.pos.column.toNat - 1)) := by
  obtain ⟨-, hend, hissues⟩ := tokensFrom_spec source.text names journal source.reached_start
  have hstart : source.position 0 = .start := source.reached_start.position_eq
  rw [hstart] at hend hissues
  rw [← Journal.issues_note] at hissues
  refine ⟨fun t ht => ?_, ⟨_, hissues, fun issue hissue => ?_⟩, fun hlong t ht => ?_⟩
  · rcases List.mem_append.1 ht with ht | ht
    · obtain ⟨offset, hpos, hstands, hne, -⟩ := stands_of_mem_tokens ht
      have hoffset : t.offset = offset := by
        rw [Token.offset, hpos, toNat_index_position hsize (Nat.le_of_lt (hstands.offset_lt hne))]
      rw [hoffset]
      exact ⟨hpos.symm, hstands.front⟩
    · rw [List.mem_singleton.1 ht]
      have hpos : (run source names journal).eof.pos = source.position source.length := by
        rw [Source.length, ← Nat.zero_add source.text.length, ← hend]
        rfl
      have hoffset : (run source names journal).eof.offset = source.length := by
        rw [Token.offset, hpos, toNat_index_position hsize (Nat.le_refl _)]
      rw [hoffset]
      exact ⟨hpos.symm, List.nil_prefix⟩
  · obtain ⟨p, hp, rfl⟩ := List.mem_map.1 hissue
    obtain ⟨offset, hlt, rfl⟩ := stands_of_mem_unmatched hp
    refine ⟨_, rfl, ?_⟩
    rw [toNat_index_position hsize (Nat.le_of_lt hlt)]
  · obtain ⟨offset, hpos, hstands, hne, hbreak⟩ := stands_of_mem_tokens ht
    rw [hpos]
    exact ⟨hne, hstands.prefix_line hne hbreak hlong⟩

/-- A text with lines that end in each of the ways, a tab, a comment and characters that begin nothing. -/
def mixedLines : Source :=
  .ofString "mixed" "a\r\n\tf(b) // c\r#\n\r$x\n\r\n12"

theorem run_positions_mixedLines :
    mixedLines.length < UInt64.size ∧
    (run mixedLines {} {}).allTokens.map (fun t => (t.lexeme.toList, t.pos.line, t.pos.column, t.offset)) =
      [(['a'], 1, 1, 0), (['f'], 2, 2, 4), (['('], 2, 3, 5), (['b'], 2, 4, 6), ([')'], 2, 5, 7), (['x'], 5, 2, 18),
        (['1', '2'], 7, 1, 22), ([], 7, 3, 24)] ∧
    (run mixedLines {} {}).journal.issues.map (fun issue => issue.pos?.map fun p => (p.line, p.column, p.index)) =
      [some (3, 1, 14), some (5, 1, 17)] ∧
    (∀ t ∈ (run mixedLines {} {}).allTokens,
      mixedLines.position t.offset = t.pos ∧ t.lexeme.toList <+: mixedLines.text.drop t.offset) ∧
    ∀ t ∈ (run mixedLines {} {}).tokens,
      t.lexeme.toList <+: (mixedLines.line t.pos.line.toNat).drop (t.pos.column.toNat - 1) := by
  have hsize : mixedLines.length < UInt64.size := by decide +kernel
  obtain ⟨htokens, -, hlines⟩ := run_positions mixedLines {} {} hsize
  exact ⟨hsize, by decide +kernel, by decide +kernel, htokens, fun t ht => (hlines (by decide +kernel) t ht).2⟩

end Lexer
end ToneScript
