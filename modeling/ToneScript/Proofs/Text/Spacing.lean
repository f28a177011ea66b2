import ToneScript.Proofs.Text.Splitting

/-! Gaps between tokens. A token that stands alone, up to a blank, a line break or the end of the text, is read as it was
read where it came from, so that lexing the tokens of a text again, with other gaps between them, gives the same tokens. -/
namespace ToneScript

namespace Lexer

/-- Words that make up a text, in order. A word is followed by a gap or by the end of the text, and there may be a gap
before the first word. -/
inductive Spaced : List String → List Char → Prop
  | done : Spaced [] []
  | gap {c : Char} {words : List String} {text : List Char} (isGap_eq : isGap c = true) (rest : Spaced words text) :
      Spaced words (c :: text)
  | word (w : String) {words : List String} {text : List Char} (apart : ∀ c ∈ text.head?, isGap c = true)
      (rest : Spaced words text) : Spaced (w :: words) (w.toList ++ text)

/-- Words that are joined by gaps. -/
theorem Spaced.join (first : String) (more : List (List Char × String))
    (hmore : ∀ m ∈ more, m.1 ≠ [] ∧ m.1.all isGap = true) :
    Spaced (first :: more.map Prod.snd) (first.toList ++ more.flatMap fun m => m.1 ++ m.2.toList) := by
  have hgaps (gap : List Char) {words : List String} {text : List Char} (hgap : ∀ c ∈ gap, isGap c = true)
      (h : Spaced words text) : Spaced words (gap ++ text) := by
    induction gap with
    | nil => exact h
    | cons c gap ih =>
      obtain ⟨hc, hgap⟩ := List.forall_mem_cons.1 hgap
      exact .gap hc (ih hgap)
  induction more generalizing first with
  | nil => exact .word first (fun c hc => absurd hc (by simp)) .done
  | cons m more ih =>
    obtain ⟨⟨hne, hgap⟩, hmore⟩ := List.forall_mem_cons.1 hmore
    obtain ⟨c, cs, hcons⟩ := List.exists_cons_of_ne_nil hne
    have hrest := hgaps m.1 (List.all_eq_true.1 hgap) (ih m.2 hmore)
    rw [List.flatMap_cons, List.append_assoc, List.map_cons]
    refine .word first (fun d hd => ?_) hrest
    rw [hcons, List.cons_append, List.head?_cons, Option.mem_some_iff] at hd
    exact List.all_eq_true.1 hgap d (by rw [hcons, ← hd]; exact List.mem_cons_self)

end Lexer

namespace Pattern

open Lexer (isGap)

variable {p q : Pattern} {pattern? : Option Pattern} {c : Char} {cs w w' rest rest' : List Char}

/-- A text without gaps at the front of another one ends before the first gap. -/
theorem prefix_of_apart (hw' : ∀ c ∈ w', isGap c = false) (hrest : ∀ c ∈ rest.head?, isGap c = true)
    (hfront : w' <+: w ++ rest) : w' <+: w := by
  rcases List.prefix_or_prefix_of_prefix hfront (List.prefix_append w rest) with hle | ⟨tail, rfl⟩
  · exact hle
  have htail : tail <+: rest := (List.prefix_append_right_inj w).1 hfront
  cases tail with
  | nil => rw [List.append_nil]
  | cons c tail =>
    obtain ⟨more, rfl⟩ := htail
    have hgap := hrest c rfl
    rw [hw' c (by simp)] at hgap
    cases hgap

/-- Whatever pattern matches where no gap is, matches without a gap: of a comment, take its first two characters. -/
theorem Matches.exists_apart (h : q.Matches (c :: cs)) (hc : isGap c = false) :
    ∃ w ∈ q.language, w <+: c :: cs ∧ ∀ d ∈ w, isGap d = false := by
  obtain ⟨hblank, hbreak⟩ := Bool.or_eq_false_iff.1 hc
  by_cases htoken : q.isToken = true
  · obtain ⟨w, hw, hfront⟩ := h
    exact ⟨w, hw, hfront, forall_isGap_eq_false htoken hw⟩
  · cases q with
    | comment =>
      obtain ⟨rfl, hhead⟩ := matches_comment.1 h
      obtain ⟨ds, rfl⟩ := List.head?_eq_some_iff.1 hhead
      exact ⟨['/', '/'], mem_comment.2 ⟨[], rfl, List.forall_mem_nil _⟩, by simp,
        List.forall_mem_cons.2 ⟨rfl, List.forall_mem_singleton.2 rfl⟩⟩
    | blanks =>
      rw [matches_blanks, hblank] at h
      cases h
    | lineBreak =>
      rw [matches_lineBreak, hbreak] at h
      cases h
    | operatorPair | symbol | word | operator | number => exact absurd rfl htoken

/-- A token is at the front of any text in which a gap or the end follows it. -/
theorem IsFront.apart (h : IsFront (some p) w (w ++ rest)) (hp : p.isToken = true)
    (hrest' : ∀ c ∈ rest'.head?, isGap c = true) : IsFront (some p) w (w ++ rest') := by
  have hw := forall_isGap_eq_false hp h.1.mem
  have hlongest : p.Longest w (w ++ rest') := by
    refine ⟨h.1.mem, List.prefix_append w rest', fun w' hw' hfront => ?_⟩
    exact (prefix_of_apart (forall_isGap_eq_false hp hw') hrest' hfront).length_le
  refine ⟨hlongest, fun q hq hmatches => ?_⟩
  -- What an earlier pattern would match lies within the token, so it would match where the token came from.
  obtain ⟨c, cs, hcons⟩ := List.exists_cons_of_ne_nil h.ne_nil
  have hc : isGap c = false := hw c (hcons ▸ List.mem_cons_self)
  obtain ⟨w', hw', hfront, hapart⟩ : ∃ w' ∈ q.language, w' <+: w ++ rest' ∧ ∀ d ∈ w', isGap d = false := by
    rw [hcons, List.cons_append] at hmatches ⊢
    exact hmatches.exists_apart hc
  have hwithin := prefix_of_apart hapart hrest' hfront
  exact h.2 q hq ⟨w', hw', hwithin.trans (List.prefix_append w rest)⟩

/-- At a character of a gap there is a stretch of blanks or a line break. -/
theorem IsFront.of_isGap (h : IsFront pattern? w (c :: cs)) (hc : isGap c = true) :
    pattern? = some .blanks ∨ pattern? = some .lineBreak := by
  have hmatches : blanks.Matches (c :: cs) ∨ lineBreak.Matches (c :: cs) := by
    rw [matches_blanks, matches_lineBreak]
    exact (Bool.or_eq_true _ _).mp hc
  cases pattern? with
  | none => exact absurd hmatches (not_or.2 ⟨h.2.2 blanks, h.2.2 lineBreak⟩)
  | some p =>
    by_cases hearlier : blanks ∈ p.earlier ∧ lineBreak ∈ p.earlier
    · exact absurd hmatches (not_or.2 ⟨h.2 blanks hearlier.1, h.2 lineBreak hearlier.2⟩)
    · cases p with
      | blanks => exact .inl rfl
      | lineBreak => exact .inr rfl
      | comment =>
        obtain ⟨rfl, _⟩ := matches_comment.1 h.1.matches
        cases hc
      | operatorPair | symbol | word | operator | number => exact absurd (by decide) hearlier

theorem isGap_of_mem_blanks (hw : w ∈ blanks.language) : ∀ c ∈ w, isGap c = true := by
  obtain ⟨c, cs, hc, hcs, rfl⟩ := mem_one_mul.1 hw
  exact List.forall_mem_cons.2 ⟨by rw [isGap, hc, Bool.true_or], fun d hd => by
    rw [isGap, mem_kstar_one.1 hcs d hd, Bool.true_or]⟩

theorem isGap_of_mem_lineBreak (hw : w ∈ lineBreak.language) : ∀ c ∈ w, isGap c = true := by
  rcases mem_lineBreak.1 hw with rfl | ⟨c, hc, rfl⟩
  · exact List.forall_mem_cons.2 ⟨rfl, List.forall_mem_singleton.2 rfl⟩
  · exact List.forall_mem_singleton.2 (by rw [isGap, hc, Bool.or_true])

end Pattern

namespace Stretch

/-- What the piece of a stretch is: which operator and which symbol, its text says. -/
def kind? (s : Stretch) : Option Piece.Kind :=
  match s.pattern? with
  | some .comment => some .comment
  | some .blanks => some .blanks
  | some .lineBreak => some .lineBreak
  | some .operatorPair | some .operator => (Operator.ofText? (String.ofList s.text)).map .operator
  | some .symbol => (Symbol.ofText? (String.ofList s.text)).map .symbol
  | some .word => some .word
  | some .number => some .number
  | none => some .unknown

theorem kind?_operator {op : Operator} {text : List Char} (h : Operator.ofText? (String.ofList text) = some op) :
    (ofPiece ⟨.operator op, text⟩).kind? = some (.operator op) := by
  have hpattern : (ofPiece ⟨.operator op, text⟩).pattern? = some (if text.length = 2 then .operatorPair else .operator) :=
    rfl
  have htext : (ofPiece ⟨.operator op, text⟩).text = text := rfl
  rw [kind?, hpattern, htext, h]
  by_cases hlength : text.length = 2
  · rw [if_pos hlength]
    rfl
  · rw [if_neg hlength]
    rfl

/-- The stretch at the front of a text says what the piece there is. -/
theorem kind?_frontPiece (c : Char) (cs : List Char) :
    (ofPiece (Pattern.frontPiece c cs)).kind? = some (Pattern.frontPiece c cs).kind := by
  unfold Pattern.frontPiece Lexer.pieceAt
  repeat' split
  · rfl
  · rfl
  · rfl
  · rfl
  · rename_i op hop
    cases cs with
    | nil => cases hop
    | cons d ds => exact kind?_operator hop
  · rename_i s hs
    simp only [ofPiece, Pattern.ofPiece?, kind?, List.take_zero, hs, Option.map_some]
  · rfl
  · rename_i op hop
    exact kind?_operator hop
  · rfl
  · rfl

theorem frontPiece_eq {c c' : Char} {cs cs' : List Char}
    (h : ofPiece (Pattern.frontPiece c cs) = ofPiece (Pattern.frontPiece c' cs')) :
    Pattern.frontPiece c cs = Pattern.frontPiece c' cs' := by
  have hkind : some (Pattern.frontPiece c cs).kind = some (Pattern.frontPiece c' cs').kind := by
    rw [← kind?_frontPiece, h, kind?_frontPiece]
  have htext : (Pattern.frontPiece c cs).text = (Pattern.frontPiece c' cs').text := congrArg Stretch.text h
  exact congrArg₂ Piece.mk (Option.some.inj hkind) htext

end Stretch

namespace Lexer

open Stretch (ofPiece)
open Pattern (ofPiece? frontPiece IsFront)

variable {c : Char} {cs gap text rest : List Char} {words : List String} {piece : Piece}

/-- Whether a piece is a token. -/
def isToken (piece : Piece) : Bool :=
  (ofPiece piece).isToken

/-- Whether a piece is one that lexing cuts from the front of some text. -/
def IsCut (piece : Piece) : Prop :=
  ∃ c cs, piece = frontPiece c cs

theorem IsCut.of_mem (h : piece ∈ pieces text) : IsCut piece := by
  fun_induction pieces text with
  | case1 => cases h
  | case2 c cs kind n heq ih =>
    rcases List.mem_cons.1 h with rfl | hmem
    · exact ⟨c, cs, by rw [frontPiece, heq]⟩
    · exact ih hmem

theorem IsCut.isFront (h : IsCut piece) : ∃ rest, IsFront (ofPiece? piece) piece.text (piece.text ++ rest) := by
  obtain ⟨c, cs, rfl⟩ := h
  obtain ⟨happend, hfront⟩ := Stretch.isFront_piece (Prod.eta (pieceAt c cs)).symm
  exact ⟨_, hfront⟩

theorem exists_pattern (htoken : isToken piece = true) : ∃ p, ofPiece? piece = some p ∧ p.isToken = true :=
  (Option.any_eq_true _ _).1 htoken

/-- A token is no empty text, and there is no gap in it. -/
theorem IsCut.isGap_eq_false (h : IsCut piece) (htoken : isToken piece = true) :
    piece.text ≠ [] ∧ ∀ c ∈ piece.text, isGap c = false := by
  obtain ⟨rest, hfront⟩ := h.isFront
  obtain ⟨p, hpattern, hp⟩ := exists_pattern htoken
  rw [hpattern] at hfront
  exact ⟨hfront.ne_nil, Pattern.forall_isGap_eq_false hp hfront.1.mem⟩

/-- A token is cut again from any text that it begins and in which a gap or the end follows it. -/
theorem IsCut.frontPiece_eq (h : IsCut piece) (htoken : isToken piece = true)
    (hrest : ∀ c ∈ rest.head?, isGap c = true) (htext : piece.text ++ rest = c :: cs) : frontPiece c cs = piece := by
  obtain ⟨rest', hfront⟩ := h.isFront
  obtain ⟨p, hpattern, hp⟩ := exists_pattern htoken
  rw [hpattern] at hfront
  have hagain := hfront.apart hp hrest
  rw [htext, ← hpattern] at hagain
  obtain ⟨hsame, htext⟩ := (Pattern.isFront_frontPiece c cs).unique hagain
  obtain ⟨d, ds, rfl⟩ := h
  exact Stretch.frontPiece_eq (congrArg₂ Stretch.mk hsame htext)

/-- What lexing cuts from the front of a text that begins with a gap is a gap. -/
theorem isGap_frontPiece (hc : isGap c = true) (cs : List Char) : isToken (frontPiece c cs) = false ∧
    (frontPiece c cs).kind ≠ .unknown ∧ ∀ d ∈ (frontPiece c cs).text, isGap d = true := by
  have hfront := Pattern.isFront_frontPiece c cs
  have hnone : (ofPiece? (frontPiece c cs)).isNone = false → (frontPiece c cs).kind ≠ .unknown :=
    fun hsome hunknown => Bool.false_ne_true (hsome.symm.trans (kind_eq_unknown.1 hunknown))
  rw [isToken, Stretch.isToken, ofPiece]
  rcases hfront.of_isGap hc with hpattern | hpattern
  · rw [hpattern] at hfront hnone ⊢
    exact ⟨rfl, hnone rfl, Pattern.isGap_of_mem_blanks hfront.1.mem⟩
  · rw [hpattern] at hfront hnone ⊢
    exact ⟨rfl, hnone rfl, Pattern.isGap_of_mem_lineBreak hfront.1.mem⟩

namespace Spaced

/-- Where a word stands first, the text begins with it. -/
theorem of_isGap_eq_false (h : Spaced words (c :: cs)) (hc : isGap c = false) :
    ∃ w more rest, words = w :: more ∧ c :: cs = w.toList ++ rest ∧ (∀ d ∈ rest.head?, isGap d = true) ∧ Spaced more rest := by
  generalize htext : c :: cs = text at h
  cases h with
  | done => cases htext
  | gap hgap _ =>
    obtain ⟨rfl, rfl⟩ := List.cons.inj htext
    rw [hc] at hgap
    cases hgap
  | word w apart rest => exact ⟨w, _, _, rfl, rfl, apart, rest⟩

/-- There is no word in the empty text. -/
theorem eq_nil (hwords : ∀ w ∈ words, ∃ d ∈ w.toList.head?, isGap d = false) (h : Spaced words []) : words = [] := by
  generalize htext : [] = text at h
  cases h with
  | done => rfl
  | gap _ _ => cases htext
  | word w _ _ =>
    obtain ⟨d, hd, -⟩ := hwords w List.mem_cons_self
    rw [(List.append_eq_nil_iff.1 htext.symm).1] at hd
    cases hd

/-- A gap before the words may be left out. -/
theorem of_append (hwords : ∀ w ∈ words, ∃ d ∈ w.toList.head?, isGap d = false) (hgap : ∀ d ∈ gap, isGap d = true)
    (h : Spaced words (gap ++ rest)) : Spaced words rest := by
  induction gap with
  | nil => exact h
  | cons c gap ih =>
    obtain ⟨hc, hgap⟩ := List.forall_mem_cons.1 hgap
    refine ih hgap ?_
    rw [List.cons_append] at h
    generalize htext : c :: (gap ++ rest) = text at h
    cases h with
    | done => cases htext
    | gap _ hrest => exact (List.cons.inj htext).2.symm ▸ hrest
    | word w _ _ =>
      obtain ⟨d, hd, hapart⟩ := hwords w List.mem_cons_self
      obtain ⟨ds, hds⟩ := List.head?_eq_some_iff.1 hd
      rw [hds] at htext
      rw [← (List.cons.inj htext).1, hc] at hapart
      cases hapart

end Spaced

/-- Words that are the texts of tokens begin with no gap. -/
theorem exists_head_of_mem {tokens : List Piece} (htokens : ∀ piece ∈ tokens, isToken piece = true ∧ IsCut piece)
    {w : String} (hw : w ∈ tokens.map fun piece => String.ofList piece.text) :
    ∃ d ∈ w.toList.head?, isGap d = false := by
  obtain ⟨piece, hmem, rfl⟩ := List.mem_map.1 hw
  obtain ⟨htoken, hcut⟩ := htokens piece hmem
  obtain ⟨hne, hapart⟩ := hcut.isGap_eq_false htoken
  obtain ⟨d, ds, hcons⟩ := List.exists_cons_of_ne_nil hne
  exact ⟨d, by rw [String.toList_ofList, hcons]; rfl, hapart d (hcons ▸ List.mem_cons_self)⟩

/-- From a text that the texts of tokens make up, lexing cuts the tokens and gaps between them. -/
theorem filter_pieces_of_spaced {tokens : List Piece} (htokens : ∀ piece ∈ tokens, isToken piece = true ∧ IsCut piece)
    (h : Spaced (tokens.map fun piece => String.ofList piece.text) text) :
    (pieces text).filter isToken = tokens ∧ ∀ piece ∈ pieces text, piece.kind ≠ .unknown := by
  fun_induction pieces text generalizing tokens with
  | case1 =>
    have hnil := h.eq_nil fun w => exists_head_of_mem htokens
    rw [List.map_eq_nil_iff.1 hnil]
    exact ⟨rfl, List.forall_mem_nil _⟩
  | case2 c cs kind n heq ih =>
    have hpiece : frontPiece c cs = ⟨kind, c :: cs.take n⟩ := by rw [frontPiece, heq]
    rw [← hpiece, List.forall_mem_cons]
    by_cases hc : isGap c = true
    · obtain ⟨htoken, hkind, hgap⟩ := isGap_frontPiece hc cs
      rw [← List.take_append_drop n cs, ← List.cons_append, ← (Piece.mk.inj hpiece).2] at h
      have hrest := h.of_append (fun w => exists_head_of_mem htokens) hgap
      obtain ⟨hfilter, hkinds⟩ := ih htokens hrest
      rw [List.filter_cons_of_neg (by rw [htoken]; exact Bool.false_ne_true)]
      exact ⟨hfilter, hkind, hkinds⟩
    · obtain ⟨w, more, rest, hwords, htext, hrest, hmore⟩ := h.of_isGap_eq_false (Bool.not_eq_true _ ▸ hc)
      obtain ⟨piece, tokens, rfl, rfl, rfl⟩ := List.map_eq_cons_iff.1 hwords
      obtain ⟨⟨htoken, hcut⟩, htokens⟩ := List.forall_mem_cons.1 htokens
      rw [String.toList_ofList] at htext
      have hsame := hcut.frontPiece_eq htoken hrest htext.symm
      have hdrop : cs.drop n = rest := by
        have hall : piece.text ++ cs.drop n = piece.text ++ rest := by
          rw [← htext, ← hsame, hpiece, List.cons_append, List.take_append_drop]
        exact List.append_cancel_left hall
      obtain ⟨hfilter, hkinds⟩ := ih htokens (hdrop ▸ hmore)
      rw [hsame, List.filter_cons_of_pos htoken, hfilter]
      refine ⟨rfl, fun hunknown => ?_, hkinds⟩
      rw [isToken, Stretch.isToken, Option.isNone_iff_eq_none.1 (kind_eq_unknown.1 hunknown)] at htoken
      cases htoken

/-- A piece that is no token leaves the names as they are. -/
theorem tokenKind?_eq_none (names : NameTable) (h : isToken piece = false) : tokenKind? names piece = (none, names) := by
  have hsome := isSome_tokenKind? names piece
  unfold isToken at h
  rw [h] at hsome
  unfold tokenKind? at hsome ⊢
  split <;> simp_all

/-- The kinds and the texts of tokens, and the names after them, hang on the pieces that are tokens. -/
theorem tokensFrom_filter (p p' : Position) (names : NameTable) (journal journal' : Journal) (ps : List Piece) :
    (tokensFrom p names journal ps).tokens.map (fun t => (t.kind, t.lexeme)) =
        (tokensFrom p' names journal' (ps.filter isToken)).tokens.map (fun t => (t.kind, t.lexeme)) ∧
      (tokensFrom p names journal ps).names = (tokensFrom p' names journal' (ps.filter isToken)).names := by
  induction ps generalizing p p' names journal journal' with
  | nil => exact ⟨rfl, rfl⟩
  | cons piece ps ih =>
    by_cases htoken : isToken piece = true
    · obtain ⟨kind, hkind⟩ := Option.isSome_iff_exists.1 ((isSome_tokenKind? names piece).trans htoken)
      obtain ⟨htokens, hnames⟩ := ih (advance p piece) (advance p' piece) (tokenKind? names piece).2
        (reported p journal piece) (reported p' journal' piece)
      rw [List.filter_cons_of_pos htoken, tokensFrom, tokensFrom]
      simp only [hkind, List.map_cons]
      exact ⟨congrArg _ htokens, hnames⟩
    · have hnone := tokenKind?_eq_none names (Bool.not_eq_true _ ▸ htoken)
      rw [List.filter_cons_of_neg htoken, tokensFrom, hnone]
      exact ih (advance p piece) p' names (reported p journal piece) journal'

/-- Nothing is reported where every character begins something. -/
theorem journal_tokensFrom {p : Position} {names : NameTable} {journal : Journal} {ps : List Piece}
    (h : ∀ piece ∈ ps, piece.kind ≠ .unknown) : (tokensFrom p names journal ps).journal = journal := by
  induction ps generalizing p names with
  | nil => rfl
  | cons piece ps ih =>
    obtain ⟨hkind, hps⟩ := List.forall_mem_cons.1 h
    obtain ⟨names', -, hjournal, -⟩ := tokensFrom_cons p names journal piece ps
    rw [hjournal, reported, if_neg hkind, ih hps]

/-- The texts of the tokens are those of the pieces that are tokens. -/
theorem lexemes_tokensFrom (p : Position) (names : NameTable) (journal : Journal) (ps : List Piece) :
    (tokensFrom p names journal ps).tokens.map Token.lexeme =
      (ps.filter isToken).map fun piece => String.ofList piece.text := by
  induction ps generalizing p names journal with
  | nil => rfl
  | cons piece ps ih =>
    obtain ⟨names', -, -, htokens⟩ := tokensFrom_cons p names journal piece ps
    have hlexemes := congrArg (List.map Prod.snd) htokens
    rw [List.map_append, List.map_map, List.map_map] at hlexemes
    have hrest := ih (advance p piece) names' (reported p journal piece)
    by_cases htoken : isToken piece = true
    · rw [List.filter_cons_of_pos htoken, List.map_cons, ← hrest]
      have hfirst : (ofPiece piece).isToken = true := htoken
      rw [if_pos hfirst] at hlexemes
      exact hlexemes
    · rw [List.filter_cons_of_neg htoken, ← hrest]
      have hfirst : ¬(ofPiece piece).isToken = true := htoken
      rw [if_neg hfirst] at hlexemes
      exact hlexemes

/-- The tokens of a source do not depend on the gaps between them: a text that consists of the texts of the tokens, in
their order and apart from each other, has tokens of the same kinds and texts, with the same identifiers and the same
numbers, and nothing in it is reported. -/
theorem run_spaced (source : Source) (names : NameTable) (journal journal' : Journal) (name : String) (text : List Char)
    (h : Spaced ((run source names journal).tokens.map Token.lexeme) text) :
    (run ⟨name, text⟩ names journal').allTokens.map (fun t => (t.kind, t.lexeme)) =
        (run source names journal).allTokens.map (fun t => (t.kind, t.lexeme)) ∧
      (run ⟨name, text⟩ names journal').names = (run source names journal).names ∧
      (run ⟨name, text⟩ names journal').journal.issues = journal'.issues := by
  have htokens : ∀ piece ∈ (pieces source.text).filter isToken, isToken piece = true ∧ IsCut piece := by
    intro piece hpiece
    obtain ⟨hmem, htoken⟩ := List.mem_filter.1 hpiece
    exact ⟨htoken, .of_mem hmem⟩
  have hlexemes : (run source names journal).tokens.map Token.lexeme =
      ((pieces source.text).filter isToken).map fun piece => String.ofList piece.text :=
    lexemes_tokensFrom .start names journal (pieces source.text)
  rw [hlexemes] at h
  obtain ⟨hfilter, hkinds⟩ := filter_pieces_of_spaced htokens h
  obtain ⟨hkept, hnames⟩ := tokensFrom_filter .start .start names journal journal' (pieces source.text)
  obtain ⟨hkept', hnames'⟩ := tokensFrom_filter .start .start names journal' journal' (pieces text)
  rw [hfilter] at hkept' hnames'
  refine ⟨?_, hnames'.trans hnames.symm, ?_⟩
  · simp only [Result.allTokens, List.map_append]
    exact congrArg₂ _ (hkept'.trans hkept.symm) rfl
  · rw [run, Journal.issues_note, journal_tokensFrom hkinds]

/-- A text whose tokens stand close together: numbers that end before a letter or a point, a name that ends in a tilde
before an equals sign, operators that begin with other operators, a keyword that begins a name, a comment and a
character that begins nothing. -/
def crowded : Source :=
  .ofString "crowded" "1e+f~=3~=if(iffy.5e2.7^^^<<=//b\n==$a~!=f"

/-- The tokens of `crowded` after the first, each with a gap before it. -/
def crowdedRest : List (List Char × String) :=
  [([' '], "e"), (['\t', ' '], "+"), (['\n'], "f~"), (['\r', '\n'], "="), ([' '], "3"), (['\n', '\r'], "~="), ([' '], "if"),
    ([' '], "("), (['\r'], "iffy"), ([' '], "."), ([' '], "5e2"), (['\t'], "."), ([' '], "7"), ([' '], "^^"), ([' '], "^"),
    ([' ', '\n'], "<"), ([' '], "<="), ([' '], "=="), ([' '], "a~"), (['\t', '\t'], "!="), (['\r', '\r'], "f")]

theorem run_spaced_crowded :
    let text := "1".toList ++ crowdedRest.flatMap fun m => m.1 ++ m.2.toList
    Spaced ((run crowded {} {}).tokens.map Token.lexeme) text ∧
      (run ⟨"spaced", text⟩ {} {}).allTokens.map (fun t => (t.kind, t.lexeme)) =
        (run crowded {} {}).allTokens.map (fun t => (t.kind, t.lexeme)) ∧
      (run ⟨"spaced", text⟩ {} {}).names = (run crowded {} {}).names ∧
      (run ⟨"spaced", text⟩ {} {}).journal.issues = [] := by
  have hlexemes : (run crowded {} {}).tokens.map Token.lexeme = "1" :: crowdedRest.map Prod.snd := by decide +kernel
  have hspaced : Spaced ((run crowded {} {}).tokens.map Token.lexeme)
      ("1".toList ++ crowdedRest.flatMap fun m => m.1 ++ m.2.toList) := by
    rw [hlexemes]
    exact Spaced.join "1" crowdedRest (by decide)
  exact ⟨hspaced, run_spaced crowded {} {} {} "spaced" _ hspaced⟩

end Lexer
end ToneScript
