import ToneScript.Proofs.Text.Cursor
import ToneScript.Proofs.Text.Written

/-! How lexing splits a text. The stretches of a text are the longest matches of its patterns and the characters that
match none; lexing makes a token of some, skips others, and reports the characters that match nothing. -/
namespace ToneScript

/-- A stretch of a text, with the pattern that it matches. A character that matches no pattern is a stretch of its
own. -/
structure Stretch where
  pattern? : Option Pattern
  text : List Char

namespace Stretch

/-- Whether a stretch is a token. -/
def isToken (s : Stretch) : Bool :=
  s.pattern?.any Pattern.isToken

/-- A text and the stretches that it consists of, from left to right. -/
inductive Cut : List Char → List Stretch → Prop
  | done : Cut [] []
  | front {s : Stretch} {rest : List Char} {more : List Stretch} (first : Pattern.IsFront s.pattern? s.text (s.text ++ rest))
      (cut : Cut rest more) : Cut (s.text ++ rest) (s :: more)

/-- Stretches with the positions at which they start in a source, the first of them at an offset. -/
def place (source : Source) (offset : Nat) : List Stretch → List (Position × Stretch)
  | [] => []
  | s :: rest => (source.position offset, s) :: place source (offset + s.text.length) rest

/-- The tokens among stretches that are placed in a source: where they are and what they say. -/
def lexemes (placed : List (Position × Stretch)) : List (Position × String) :=
  (placed.filter (·.2.isToken)).map fun s => (s.1, String.ofList s.2.text)

/-- Where stretches that are placed in a source match no pattern. -/
def unmatched (placed : List (Position × Stretch)) : List Position :=
  (placed.filter (·.2.pattern?.isNone)).map Prod.fst

theorem lexemes_cons (p : Position) (s : Stretch) (placed : List (Position × Stretch)) :
    lexemes ((p, s) :: placed) = (if s.isToken then [(p, String.ofList s.text)] else []) ++ lexemes placed := by
  unfold lexemes
  rw [List.filter_cons]
  simp only
  split <;> rfl

theorem unmatched_cons (p : Position) (s : Stretch) (placed : List (Position × Stretch)) :
    unmatched ((p, s) :: placed) = (if s.pattern?.isNone then [p] else []) ++ unmatched placed := by
  unfold unmatched
  rw [List.filter_cons]
  simp only
  split <;> rfl

/-- The stretch that a piece of a text is. -/
def ofPiece (piece : Piece) : Stretch :=
  ⟨Pattern.ofPiece? piece, piece.text⟩

/-- The piece that lexing cuts from a text stands at its front. -/
theorem isFront_piece {c : Char} {cs : List Char} {kind : Piece.Kind} {n : Nat}
    (h : Lexer.pieceAt c cs = (kind, n)) :
    (c :: cs.take n) ++ cs.drop n = c :: cs ∧
      Pattern.IsFront (Pattern.ofPiece? ⟨kind, c :: cs.take n⟩) (c :: cs.take n) ((c :: cs.take n) ++ cs.drop n) := by
  have happend : (c :: cs.take n) ++ cs.drop n = c :: cs := by rw [List.cons_append, List.take_append_drop]
  have hfront := Pattern.isFront_frontPiece c cs
  rw [Pattern.frontPiece, h] at hfront
  exact ⟨happend, happend.symm ▸ hfront⟩

/-- Lexing cuts a text into its stretches. -/
theorem cut_pieces (text : List Char) : Cut text ((Lexer.pieces text).map ofPiece) := by
  fun_induction Lexer.pieces text with
  | case1 => exact .done
  | case2 c cs kind n heq ih =>
    obtain ⟨happend, hfront⟩ := isFront_piece heq
    have hcut : Cut ((ofPiece ⟨kind, c :: cs.take n⟩).text ++ cs.drop n) _ := .front hfront ih
    rwa [← happend]

theorem Cut.flatMap_text {text : List Char} {stretches : List Stretch} (h : Cut text stretches) :
    stretches.flatMap Stretch.text = text := by
  induction h with
  | done => rfl
  | front _ _ ih => rw [List.flatMap_cons, ih]

/-- A text is cut in one way only. -/
theorem Cut.unique {text : List Char} {stretches stretches' : List Stretch} (h : Cut text stretches)
    (h' : Cut text stretches') : stretches = stretches' := by
  induction h generalizing stretches' with
  | done =>
    generalize htext : ([] : List Char) = text at h'
    cases h' with
    | done => rfl
    | front first _ =>
      have hnil := (List.append_eq_nil_iff.1 htext.symm).1
      exact absurd hnil first.ne_nil
  | @front s rest more first cut ih =>
    generalize htext : s.text ++ rest = text at h'
    cases h' with
    | done =>
      have hnil := (List.append_eq_nil_iff.1 htext).1
      exact absurd hnil first.ne_nil
    | @front s' rest' more' first' cut' =>
      obtain ⟨hpattern, hsame⟩ := first.unique (htext ▸ first')
      obtain rfl : s = s' := by
        cases s
        cases s'
        exact congr (congrArg _ hpattern) hsame
      rw [List.append_cancel_left htext] at ih
      rw [ih cut']

end Stretch

namespace Lexer

open Stretch

variable {source : Source}

theorem isSome_tokenKind? (names : NameTable) (piece : Piece) :
    (tokenKind? names piece).1.isSome = (ofPiece piece).isToken := by
  obtain ⟨kind, text⟩ := piece
  cases kind with
  | operator op =>
    have hpattern : (ofPiece ⟨.operator op, text⟩).pattern? = some (if text.length = 2 then .operatorPair else .operator) :=
      rfl
    rw [isToken, hpattern]
    split <;> rfl
  | comment | blanks | lineBreak | symbol | number | unknown => rfl
  | word => rfl

theorem kind_eq_unknown {piece : Piece} : piece.kind = .unknown ↔ (ofPiece piece).pattern?.isNone = true := by
  obtain ⟨kind, text⟩ := piece
  cases kind <;> simp [ofPiece, Pattern.ofPiece?]

/-- The journal after a piece. -/
def reported (p : Position) (journal : Journal) (piece : Piece) : Journal :=
  if piece.kind = .unknown then journal.report (.error p "unrecognized token") else journal

theorem issues_reported (p : Position) (journal : Journal) (piece : Piece) (placed : List (Position × Stretch)) :
    (reported p journal piece).issues ++ (unmatched placed).map (Issue.error · "unrecognized token") =
      journal.issues ++ (unmatched ((p, ofPiece piece) :: placed)).map (Issue.error · "unrecognized token") := by
  rw [unmatched_cons, reported]
  by_cases hunknown : piece.kind = .unknown
  · rw [if_pos hunknown, if_pos (kind_eq_unknown.1 hunknown), Journal.issues_report, List.append_assoc]
    rfl
  · rw [if_neg hunknown, if_neg (mt kind_eq_unknown.2 hunknown), List.nil_append]

/-- What lexing makes of a piece, before it goes on to the others. -/
theorem tokensFrom_cons (p : Position) (names : NameTable) (journal : Journal) (piece : Piece) (rest : List Piece) :
    ∃ names', let result := tokensFrom (advance p piece) names' (reported p journal piece) rest
      (tokensFrom p names journal (piece :: rest)).endPos = result.endPos ∧
      (tokensFrom p names journal (piece :: rest)).journal = result.journal ∧
      (tokensFrom p names journal (piece :: rest)).tokens.map (fun t => (t.pos, t.lexeme)) =
        (if (ofPiece piece).isToken then [(p, String.ofList piece.text)] else []) ++
          result.tokens.map (fun t => (t.pos, t.lexeme)) := by
  refine ⟨(tokenKind? names piece).2, ?_⟩
  have htoken := isSome_tokenKind? names piece
  rw [tokensFrom, ← htoken]
  obtain ⟨kind?, names'⟩ := tokenKind? names piece
  cases kind? with
  | some kind => exact ⟨rfl, rfl, rfl⟩
  | none => exact ⟨rfl, rfl, rfl⟩

/-- Lexing takes the tokens of a text and reports what matches nothing, each at its position. -/
theorem tokensFrom_spec (cs : List Char) {starts : List Nat} {lineStart n : Nat} (names : NameTable) (journal : Journal)
    (h : source.Reached starts lineStart n cs) :
    let result := tokensFrom (source.position n) names journal (pieces cs)
    let placed := place source n ((pieces cs).map ofPiece)
    result.tokens.map (fun t => (t.pos, t.lexeme)) = lexemes placed ∧
      result.endPos = source.position (n + cs.length) ∧
      result.journal.issues = journal.issues ++ (unmatched placed).map (Issue.error · "unrecognized token") := by
  fun_induction pieces cs generalizing starts lineStart n names journal with
  | case1 => exact ⟨rfl, rfl, (List.append_nil _).symm⟩
  | case2 c cs kind k heq ih =>
    obtain ⟨happend, hfront⟩ := isFront_piece heq
    obtain ⟨hpos, starts', lineStart', hnext⟩ := advance_position (happend.symm ▸ h) hfront
    have hlength : n + (c :: cs).length = n + (c :: cs.take k).length + (cs.drop k).length := by
      rw [← happend, List.length_append, Nat.add_assoc]
    obtain ⟨names', hend, hjournal, htokens⟩ :=
      tokensFrom_cons (source.position n) names journal ⟨kind, c :: cs.take k⟩ (pieces (cs.drop k))
    rw [hpos] at hend hjournal htokens
    obtain ⟨hlexemes, hendPos, hissues⟩ := ih names' (reported (source.position n) journal ⟨kind, c :: cs.take k⟩) hnext
    refine ⟨?_, ?_, ?_⟩
    · rw [htokens, hlexemes, List.map_cons, place, lexemes_cons]
      rfl
    · rw [hend, hendPos, hlength]
    · rw [hjournal, hissues, issues_reported]
      rfl

/-- Lexing loses nothing of a text and invents nothing. There is one way to cut the text into the longest matches of
the first pattern that matches and into characters that match none; the tokens are the matches that are no
comments, blanks or line breaks, followed by the end of the source, and each character that matches nothing is
reported at its position. -/
theorem run_cut (source : Source) (names : NameTable) (journal : Journal) :
    ∃ stretches, Cut source.text stretches ∧ (∀ others, Cut source.text others → others = stretches) ∧
      stretches.flatMap Stretch.text = source.text ∧
      (run source names journal).tokens.map (fun t => (t.pos, t.lexeme)) = lexemes (place source 0 stretches) ∧
      (∀ t ∈ (run source names journal).tokens, t.kind ≠ .eof) ∧
      (run source names journal).allTokens =
        (run source names journal).tokens ++ [⟨.eof, source.position source.length, ""⟩] ∧
      (run source names journal).journal.issues =
        journal.issues ++ (unmatched (place source 0 stretches)).map (Issue.error · "unrecognized token") := by
  have hcut := cut_pieces source.text
  obtain ⟨hlexemes, hend, hissues⟩ := tokensFrom_spec source.text names journal source.reached_start
  have hstart : source.position 0 = .start := source.reached_start.position_eq
  rw [hstart] at hlexemes hend hissues
  refine ⟨_, hcut, fun others hothers => hothers.unique hcut, hcut.flatMap_text, hlexemes,
    fun t ht => (isWritten_of_mem_run ht).1, ?_, ?_⟩
  · rw [Nat.zero_add] at hend
    rw [Result.allTokens, Result.eof, Source.length, ← hend]
    rfl
  · rw [run, Journal.issues_note, hissues]

end Lexer
end ToneScript
