import Mathlib.Computability.Language
import ToneScript.Token.Lexer

/-! The patterns of source text, as languages, and their longest matches. -/
namespace ToneScript

open Computability

/-- What a stretch of source text can match. -/
inductive Pattern where
  | comment | blanks | lineBreak | operatorPair | symbol | word | operator | number
deriving DecidableEq, Repr

theorem Symbol.mem_all (s : Symbol) : s ∈ Symbol.all := by
  rcases s with _ | _ | _ | _ | _ | _ | _ | _ | _ | ⟨_ | _ | _⟩ | ⟨_ | _ | _⟩ <;> decide

namespace Lexer

/-- Characters of gaps: blanks and the characters that end a line. -/
def isGap (c : Char) : Bool :=
  isBlank c || Source.isBreak c

end Lexer

namespace Pattern

/-- The texts of one character of a class. -/
def one (p : Char → Bool) : Language Char :=
  {w | ∃ c, p c = true ∧ w = [c]}

/-- The texts of one or more decimal digits. -/
def digits : Language Char :=
  one Lexer.isDigit * (one Lexer.isDigit)∗

/-- A point and the digits after it, if any. -/
def fraction : Language Char :=
  one (· == '.') * (1 + digits)

/-- A letter `e`, a sign or none, and digits. -/
def exponent : Language Char :=
  one (fun c => c == 'e' || c == 'E') * (1 + one fun c => c == '+' || c == '-') * digits

/-- The texts that match a pattern. -/
def language : Pattern → Language Char
  | comment => one (· == '/') * one (· == '/') * (one (!Source.isBreak ·))∗
  | blanks => one Lexer.isBlank * (one Lexer.isBlank)∗
  | lineBreak => one (· == '\r') * one (· == '\n') + one Source.isBreak
  | operatorPair => {w | w.length = 2 ∧ ∃ op ∈ Operator.lexical, op.text.toList = w}
  | symbol => {w | w.length = 1 ∧ ∃ s : Symbol, s.text.toList = w}
  | word => one Lexer.isWordStart * (one Lexer.isWordRest)∗
  | operator => {w | w.length = 1 ∧ ∃ op ∈ Operator.lexical, op.text.toList = w}
  | number => digits * (1 + fraction) * (1 + exponent)

/-- The patterns in the order in which they are tried. -/
def order : List Pattern :=
  [comment, blanks, lineBreak, operatorPair, symbol, word, operator, number]

/-- The patterns that are tried before another. -/
def earlier (p : Pattern) : List Pattern :=
  order.takeWhile (· ≠ p)

/-- Whether the text that matches a pattern becomes a token. -/
def isToken : Pattern → Bool
  | comment | blanks | lineBreak => false
  | operatorPair | symbol | word | operator | number => true

/-- Whether a pattern matches at the front of a text. -/
def Matches (p : Pattern) (text : List Char) : Prop :=
  ∃ w ∈ p.language, w <+: text

/-- The longest match of a pattern at the front of a text. -/
structure Longest (p : Pattern) (w text : List Char) : Prop where
  mem : w ∈ p.language
  isPrefix : w <+: text
  longest : ∀ w' ∈ p.language, w' <+: text → w'.length ≤ w.length

variable {p q : Char → Bool} {c : Char} {cs w : List Char}

theorem mem_one : w ∈ one p ↔ ∃ c, p c = true ∧ w = [c] :=
  Iff.rfl

theorem mem_one_mul {L : Language Char} : w ∈ one p * L ↔ ∃ c cs, p c = true ∧ cs ∈ L ∧ w = c :: cs := by
  rw [Language.mem_mul]
  constructor
  · rintro ⟨_, ⟨c, hc, rfl⟩, cs, hcs, rfl⟩
    exact ⟨c, cs, hc, hcs, rfl⟩
  · rintro ⟨c, cs, hc, hcs, rfl⟩
    exact ⟨[c], ⟨c, hc, rfl⟩, cs, hcs, rfl⟩

theorem mem_kstar_one : w ∈ (one p)∗ ↔ ∀ c ∈ w, p c = true := by
  rw [Language.mem_kstar]
  constructor
  · rintro ⟨ws, rfl, hws⟩ c hc
    obtain ⟨w, hw, hmem⟩ := List.mem_flatten.1 hc
    obtain ⟨d, hd, rfl⟩ := hws w hw
    rw [List.mem_singleton.1 hmem]
    exact hd
  · intro h
    refine ⟨w.map fun c => [c], by rw [← List.flatMap_def, List.flatMap_singleton'], fun v hv => ?_⟩
    obtain ⟨c, hc, rfl⟩ := List.mem_map.1 hv
    exact ⟨c, h c hc, rfl⟩

/-- A run of characters of a class goes no further than the longest one. -/
theorem length_le_takeWhile (hw : ∀ c ∈ w, p c = true) (hfront : w <+: cs) :
    w.length ≤ (cs.takeWhile p).length := by
  obtain ⟨rest, rfl⟩ := hfront
  rw [List.takeWhile_append_of_pos hw, List.length_append]
  exact Nat.le_add_right _ _

theorem take_takeWhile (p : Char → Bool) (cs : List Char) : cs.take (cs.takeWhile p).length = cs.takeWhile p :=
  (List.prefix_iff_eq_take.1 (List.takeWhile_prefix p)).symm

theorem forall_mem_takeWhile (p : Char → Bool) (cs : List Char) : ∀ c ∈ cs.takeWhile p, p c = true :=
  List.all_eq_true.1 List.all_takeWhile

/-- The longest match of a character and then any number of characters of a class. -/
theorem longest_run {pattern : Pattern} (hlanguage : pattern.language = one p * (one q)∗) (hc : p c = true)
    (cs : List Char) :
    pattern.Longest (c :: cs.take (cs.takeWhile q).length) (c :: cs) := by
  rw [take_takeWhile]
  refine ⟨?_, List.cons_prefix_cons.2 ⟨rfl, List.takeWhile_prefix q⟩, ?_⟩
  · rw [hlanguage, mem_one_mul]
    exact ⟨c, _, hc, mem_kstar_one.2 (forall_mem_takeWhile q cs), rfl⟩
  · intro w hw hfront
    rw [hlanguage, mem_one_mul] at hw
    obtain ⟨d, ds, _, hds, rfl⟩ := hw
    exact Nat.succ_le_succ (length_le_takeWhile (mem_kstar_one.1 hds) (List.cons_prefix_cons.1 hfront).2)

theorem matches_run {pattern : Pattern} (hlanguage : pattern.language = one p * (one q)∗) :
    pattern.Matches (c :: cs) ↔ p c = true := by
  constructor
  · rintro ⟨w, hw, hfront⟩
    rw [hlanguage, mem_one_mul] at hw
    obtain ⟨d, ds, hd, _, rfl⟩ := hw
    rwa [(List.cons_prefix_cons.1 hfront).1] at hd
  · intro hc
    have hlongest := longest_run hlanguage hc cs
    exact ⟨_, hlongest.mem, hlongest.isPrefix⟩

/-- A run of characters of a class that is followed by no more of them is the longest one. -/
theorem takeWhile_append_of_head {rest : List Char} (hw : ∀ c ∈ w, p c = true)
    (hrest : ∀ c, rest.head? = some c → p c = false) : (w ++ rest).takeWhile p = w := by
  rw [List.takeWhile_append_of_pos hw]
  cases rest with
  | nil => exact List.append_nil w
  | cons c rest => rw [List.takeWhile_cons_of_neg (by simp [hrest c rfl]), List.append_nil]

section Number

theorem mem_digits : w ∈ digits ↔ w ≠ [] ∧ ∀ c ∈ w, Lexer.isDigit c = true := by
  rw [digits, mem_one_mul]
  constructor
  · rintro ⟨c, cs, hc, hcs, rfl⟩
    exact ⟨List.cons_ne_nil c cs, List.forall_mem_cons.2 ⟨hc, mem_kstar_one.1 hcs⟩⟩
  · rintro ⟨hne, hw⟩
    obtain ⟨c, cs, rfl⟩ := List.exists_cons_of_ne_nil hne
    obtain ⟨hc, hcs⟩ := List.forall_mem_cons.1 hw
    exact ⟨c, cs, hc, mem_kstar_one.2 hcs, rfl⟩

theorem mem_fraction : w ∈ fraction ↔ ∃ ds, w = '.' :: ds ∧ ∀ c ∈ ds, Lexer.isDigit c = true := by
  rw [fraction, mem_one_mul]
  constructor
  · rintro ⟨c, ds, hc, hds, rfl⟩
    refine ⟨ds, by rw [eq_of_beq hc], ?_⟩
    rcases (Language.mem_add _ _ _).1 hds with hnil | hds
    · rw [(Language.mem_one _).1 hnil]
      exact List.forall_mem_nil _
    · exact (mem_digits.1 hds).2
  · rintro ⟨ds, rfl, hds⟩
    refine ⟨'.', ds, rfl, (Language.mem_add _ _ _).2 ?_, rfl⟩
    by_cases hnil : ds = []
    · exact .inl hnil
    · exact .inr (mem_digits.2 ⟨hnil, hds⟩)

/-- Whether a character begins an exponent. -/
def isMarker (c : Char) : Bool :=
  c == 'e' || c == 'E'

/-- Whether a character is a sign of an exponent. -/
def isSign (c : Char) : Bool :=
  c == '+' || c == '-'

theorem mem_exponent : w ∈ exponent ↔ ∃ c sign ds, w = c :: (sign ++ ds) ∧ isMarker c = true ∧
    (sign = [] ∨ ∃ s, sign = [s] ∧ isSign s = true) ∧ ds ≠ [] ∧ ∀ d ∈ ds, Lexer.isDigit d = true := by
  rw [exponent, Language.mem_mul]
  constructor
  · rintro ⟨_, hmarked, ds, hds, rfl⟩
    obtain ⟨c, sign, hc, hsign, rfl⟩ := mem_one_mul.1 hmarked
    refine ⟨c, sign, ds, rfl, hc, ?_, mem_digits.1 hds⟩
    rcases (Language.mem_add _ _ _).1 hsign with hnil | ⟨s, hs, rfl⟩
    · exact .inl ((Language.mem_one _).1 hnil)
    · exact .inr ⟨s, rfl, hs⟩
  · rintro ⟨c, sign, ds, rfl, hc, hsign, hds⟩
    refine ⟨c :: sign, mem_one_mul.2 ⟨c, sign, hc, (Language.mem_add _ _ _).2 ?_, rfl⟩, ds, mem_digits.2 hds, rfl⟩
    rcases hsign with rfl | ⟨s, rfl, hs⟩
    · exact .inl rfl
    · exact .inr ⟨s, hs, rfl⟩

/-- The fraction of a number is read to its end. -/
theorem fractionLength_append {f rest : List Char} (hf : f ∈ 1 + fraction)
    (hrest : ∀ c, rest.head? = some c → c ≠ '.' ∧ Lexer.isDigit c = false) :
    Lexer.fractionLength (f ++ rest) = f.length := by
  rcases (Language.mem_add _ _ _).1 hf with hnil | hf
  · rw [(Language.mem_one _).1 hnil]
    cases rest with
    | nil => rfl
    | cons c rest =>
      unfold Lexer.fractionLength
      split
      · rename_i heq
        exact absurd (List.cons.inj heq).1 (hrest c rfl).1
      · rfl
  · obtain ⟨ds, rfl, hds⟩ := mem_fraction.1 hf
    rw [List.cons_append, Lexer.fractionLength, takeWhile_append_of_head hds fun c hc => (hrest c hc).2,
      List.length_cons, Nat.add_comm]

theorem length_le_fractionLength {f : List Char} (hf : f ∈ 1 + fraction) (hfront : f <+: cs) :
    f.length ≤ Lexer.fractionLength cs := by
  rcases (Language.mem_add _ _ _).1 hf with hnil | hf
  · rw [(Language.mem_one _).1 hnil]
    exact Nat.zero_le _
  · obtain ⟨ds, rfl, hds⟩ := mem_fraction.1 hf
    obtain ⟨rest, rfl⟩ := hfront
    have hle := length_le_takeWhile hds (List.prefix_append ds rest)
    rw [List.cons_append, Lexer.fractionLength, List.length_cons]
    omega

theorem take_fractionLength (cs : List Char) : cs.take (Lexer.fractionLength cs) ∈ 1 + fraction := by
  rw [Language.mem_add]
  unfold Lexer.fractionLength
  split
  · rename_i cs
    rw [Nat.add_comm, List.take_succ_cons, take_takeWhile]
    exact .inr (mem_fraction.2 ⟨_, rfl, forall_mem_takeWhile _ cs⟩)
  · exact .inl rfl

/-- How many characters the sign at the front of a text has. -/
def signLength (cs : List Char) : Nat :=
  if cs.head?.any isSign then 1 else 0

/-- The digits of the exponent at the front of a text, after its first character. -/
def exponentDigits (cs : List Char) : List Char :=
  (cs.drop (signLength cs)).takeWhile Lexer.isDigit

theorem exponentLength_cons (c : Char) (cs : List Char) :
    Lexer.exponentLength (c :: cs) =
      if isMarker c = true ∧ exponentDigits cs ≠ [] then 1 + signLength cs + (exponentDigits cs).length else 0 := by
  have hsign (s : Char) (cs : List Char) :
      signLength (s :: cs) = if (s == '+' || s == '-') = true then 1 else 0 := rfl
  have hmarker : isMarker c = (c == 'e' || c == 'E') := rfl
  unfold exponentDigits Lexer.exponentLength
  rw [hmarker]
  by_cases hc : (c == 'e' || c == 'E') = true
  · cases cs with
    | nil => simp
    | cons s cs =>
      simp only [hsign, hc, if_true, true_and]
      split
      · rename_i hnil
        rw [if_neg (not_not_intro hnil)]
      · rename_i hsome
        rw [if_pos fun hnil => hsome hnil]
  · simp only [hc, Bool.false_eq_true, if_false, false_and]

theorem length_le_exponentLength {e : List Char} (he : e ∈ 1 + exponent) (hfront : e <+: cs) :
    e.length ≤ Lexer.exponentLength cs := by
  rcases (Language.mem_add _ _ _).1 he with hnil | he
  · rw [(Language.mem_one _).1 hnil]
    exact Nat.zero_le _
  · obtain ⟨c, sign, ds, rfl, hc, hsign, hne, hds⟩ := mem_exponent.1 he
    obtain ⟨rest, rfl⟩ := hfront
    have hlength : signLength (sign ++ ds ++ rest) = sign.length := by
      rcases hsign with rfl | ⟨s, rfl, hs⟩
      · obtain ⟨d, ds, rfl⟩ := List.exists_cons_of_ne_nil hne
        have hdigit := (List.forall_mem_cons.1 hds).1
        have hnot : isSign d = false := by
          by_contra hsign
          rw [Bool.not_eq_false, isSign, Bool.or_eq_true, beq_iff_eq, beq_iff_eq] at hsign
          rcases hsign with rfl | rfl <;> cases hdigit
        simp [signLength, hnot]
      · simp [signLength, hs]
    have hle := length_le_takeWhile hds (List.prefix_append ds rest)
    have hpos := List.length_pos_iff.2 hne
    have hdigits : exponentDigits (sign ++ ds ++ rest) = (ds ++ rest).takeWhile Lexer.isDigit := by
      rw [exponentDigits, hlength, List.append_assoc, List.drop_left]
    rw [List.cons_append, exponentLength_cons, hdigits, hlength,
      if_pos ⟨hc, List.length_pos_iff.1 (Nat.lt_of_lt_of_le hpos hle)⟩]
    simp only [List.length_cons, List.length_append]
    omega

theorem take_exponentLength (cs : List Char) : cs.take (Lexer.exponentLength cs) ∈ 1 + exponent := by
  rw [Language.mem_add]
  cases cs with
  | nil => exact .inl rfl
  | cons c cs =>
    rw [exponentLength_cons]
    split
    · rename_i hexponent
      obtain ⟨hc, hne⟩ := hexponent
      rw [Nat.add_assoc, Nat.add_comm 1, List.take_succ_cons, List.take_add]
      refine .inr (mem_exponent.2 ⟨c, cs.take (signLength cs), exponentDigits cs, ?_, hc, ?_, hne, forall_mem_takeWhile _ _⟩)
      · rw [exponentDigits, take_takeWhile]
      · unfold signLength
        split
        · rename_i hsign
          obtain ⟨s, hs, hsome⟩ := (Option.any_eq_true _ _).1 hsign
          obtain ⟨rest, rfl⟩ := List.head?_eq_some_iff.1 hs
          exact .inr ⟨s, rfl, hsome⟩
        · exact .inl rfl
    · exact .inl rfl

theorem mem_number : w ∈ number.language ↔
    ∃ d f e, w = d ++ f ++ e ∧ d ∈ digits ∧ f ∈ 1 + fraction ∧ e ∈ 1 + exponent := by
  have hnumber : number.language = digits * (1 + fraction) * (1 + exponent) := rfl
  rw [hnumber, Language.mem_mul]
  constructor
  · rintro ⟨_, hdf, e, he, rfl⟩
    obtain ⟨d, hd, f, hf, rfl⟩ := Language.mem_mul.1 hdf
    exact ⟨d, f, e, rfl, hd, hf, he⟩
  · rintro ⟨d, f, e, rfl, hd, hf, he⟩
    exact ⟨d ++ f, Language.mem_mul.2 ⟨d, hd, f, hf, rfl⟩, e, he, rfl⟩

theorem not_digit_of_mem_fraction {f : List Char} (h : f ∈ fraction) (c : Char) (hc : f.head? = some c) :
    Lexer.isDigit c = false := by
  obtain ⟨ds, rfl, _⟩ := mem_fraction.1 h
  cases hc
  rfl

theorem not_digit_of_mem_exponent {e : List Char} (h : e ∈ exponent) (c : Char) (hc : e.head? = some c) :
    c ≠ '.' ∧ Lexer.isDigit c = false := by
  obtain ⟨d, sign, ds, rfl, hd, _⟩ := mem_exponent.1 h
  cases hc
  rw [isMarker, Bool.or_eq_true, beq_iff_eq, beq_iff_eq] at hd
  rcases hd with rfl | rfl <;> decide

/-- No match of a number goes further than its digits, fraction and exponent go one after the other. -/
theorem length_le_numberLength (hw : w ∈ number.language) (hfront : w <+: cs) :
    w.length ≤ Lexer.numberLength cs := by
  obtain ⟨d, f, e, rfl, hd, hf, he⟩ := mem_number.1 hw
  obtain ⟨rest, rfl⟩ := hfront
  have hdigits := (mem_digits.1 hd).2
  unfold Lexer.numberLength
  simp only [List.append_assoc, List.length_append]
  -- What follows the digits begins with no digit, unless nothing follows them.
  by_cases hnil : f ++ e = []
  · obtain ⟨rfl, rfl⟩ := List.append_eq_nil_iff.1 hnil
    have hle := length_le_takeWhile hdigits (List.prefix_append d ([] ++ ([] ++ rest)))
    simp only [List.length_nil]
    omega
  · have hhead : ∀ c, (f ++ (e ++ rest)).head? = some c → Lexer.isDigit c = false := by
      intro c hc
      rcases (Language.mem_add _ _ _).1 hf with hfnil | hfraction
      · obtain rfl := (Language.mem_one _).1 hfnil
        rcases (Language.mem_add _ _ _).1 he with henil | hexponent
        · exact absurd ((Language.mem_one _).1 henil) hnil
        · obtain ⟨x, xs, rfl⟩ := List.exists_cons_of_ne_nil hnil
          exact (not_digit_of_mem_exponent hexponent c hc).2
      · obtain ⟨ds, rfl, _⟩ := mem_fraction.1 hfraction
        exact not_digit_of_mem_fraction hfraction c hc
    rw [takeWhile_append_of_head hdigits hhead, List.drop_left]
    rcases (Language.mem_add _ _ _).1 he with henil | hexponent
    · obtain rfl := (Language.mem_one _).1 henil
      have hle := length_le_fractionLength hf (List.prefix_append f ([] ++ rest))
      simp only [List.length_nil]
      omega
    · have hstop : ∀ c, (e ++ rest).head? = some c → c ≠ '.' ∧ Lexer.isDigit c = false := by
        intro c hc
        obtain ⟨x, sign, ds, rfl, _⟩ := mem_exponent.1 hexponent
        exact not_digit_of_mem_exponent hexponent c hc
      have hle := length_le_exponentLength he (List.prefix_append e rest)
      have hdrop : (d ++ (f ++ (e ++ rest))).drop (d.length + f.length) = e ++ rest := by
        rw [← List.drop_drop, List.drop_left, List.drop_left]
      rw [fractionLength_append hf hstop, hdrop]
      omega

/-- The longest match of a number goes as far as its digits, fraction and exponent go one after the other. -/
theorem longest_number (hc : Lexer.isDigit c = true) (cs : List Char) :
    number.Longest ((c :: cs).take (Lexer.numberLength (c :: cs))) (c :: cs) := by
  refine ⟨?_, List.take_prefix _ _, fun w hw hfront => ?_⟩
  · unfold Lexer.numberLength
    simp only [List.take_add, take_takeWhile]
    refine mem_number.2 ⟨_, _, _, rfl, mem_digits.2 ⟨?_, forall_mem_takeWhile _ _⟩, take_fractionLength _, ?_⟩
    · rw [List.takeWhile_cons_of_pos hc]
      exact List.cons_ne_nil _ _
    · exact take_exponentLength _
  · have hle := length_le_numberLength hw hfront
    rw [List.length_take, Nat.le_min]
    exact ⟨hle, hfront.length_le⟩

/-- A number has at least the digit at its front. -/
theorem longest_number_cons (hc : Lexer.isDigit c = true) (cs : List Char) :
    number.Longest (c :: cs.take (Lexer.numberLength (c :: cs) - 1)) (c :: cs) := by
  have hdigit : number.language [c] :=
    mem_number.2 ⟨[c], [], [], rfl, mem_digits.2 ⟨by simp, by simpa using hc⟩, .inl rfl, .inl rfl⟩
  have hpos : 1 ≤ Lexer.numberLength (c :: cs) := length_le_numberLength hdigit (by simp)
  have hlongest := longest_number hc cs
  obtain ⟨n, hn⟩ := Nat.exists_eq_add_of_le' hpos
  rw [hn, List.take_succ_cons] at hlongest
  rwa [hn, Nat.add_sub_cancel]

end Number

section Comment

theorem mem_comment : w ∈ comment.language ↔
    ∃ cs, w = '/' :: '/' :: cs ∧ ∀ c ∈ cs, (!Source.isBreak c) = true := by
  have hcomment : comment.language = one (· == '/') * (one (· == '/') * (one (!Source.isBreak ·))∗) :=
    mul_assoc _ _ _
  rw [hcomment, mem_one_mul]
  constructor
  · rintro ⟨c, _, hc, hrest, rfl⟩
    obtain ⟨d, cs, hd, hcs, rfl⟩ := mem_one_mul.1 hrest
    exact ⟨cs, by rw [eq_of_beq hc, eq_of_beq hd], mem_kstar_one.1 hcs⟩
  · rintro ⟨cs, rfl, hcs⟩
    exact ⟨'/', _, rfl, mem_one_mul.2 ⟨'/', cs, rfl, mem_kstar_one.2 hcs, rfl⟩, rfl⟩

theorem longest_comment (cs : List Char) :
    comment.Longest ('/' :: ('/' :: cs).take (('/' :: cs).takeWhile (!Source.isBreak ·)).length) ('/' :: '/' :: cs) := by
  rw [take_takeWhile, List.takeWhile_cons_of_pos (by decide)]
  refine ⟨mem_comment.2 ⟨_, rfl, forall_mem_takeWhile _ cs⟩, ?_, fun w hw hfront => ?_⟩
  · simpa using List.takeWhile_prefix _
  · obtain ⟨ds, rfl, hds⟩ := mem_comment.1 hw
    have hrest : ds <+: cs := by simpa using hfront
    have hle := length_le_takeWhile hds hrest
    simp only [List.length_cons]
    omega

theorem matches_comment : comment.Matches (c :: cs) ↔ c = '/' ∧ cs.head? = some '/' := by
  constructor
  · rintro ⟨w, hw, hfront⟩
    obtain ⟨ds, rfl, _⟩ := mem_comment.1 hw
    obtain ⟨rest, heq⟩ := hfront
    obtain ⟨rfl, rfl⟩ := List.cons.inj heq
    exact ⟨rfl, rfl⟩
  · rintro ⟨rfl, hhead⟩
    obtain ⟨ds, rfl⟩ := List.head?_eq_some_iff.1 hhead
    have hlongest := longest_comment ds
    exact ⟨_, hlongest.mem, hlongest.isPrefix⟩

end Comment

section Fixed

/-- A match is the longest one where no text of the pattern has more characters. -/
theorem longest_of_length {pattern : Pattern} {n : Nat} (hlanguage : ∀ w ∈ pattern.language, w.length ≤ n)
    (hw : w ∈ pattern.language) (hfront : w <+: cs) (hlength : w.length = n) : pattern.Longest w cs :=
  ⟨hw, hfront, fun w' hw' _ => hlength ▸ hlanguage w' hw'⟩

theorem mem_lineBreak : w ∈ lineBreak.language ↔ w = ['\r', '\n'] ∨ ∃ c, Source.isBreak c = true ∧ w = [c] := by
  have hlineBreak : lineBreak.language = one (· == '\r') * one (· == '\n') + one Source.isBreak := rfl
  rw [hlineBreak, Language.mem_add, mem_one_mul]
  refine or_congr_left ⟨?_, ?_⟩
  · rintro ⟨c, _, hc, ⟨d, hd, rfl⟩, rfl⟩
    rw [eq_of_beq hc, eq_of_beq hd]
  · rintro rfl
    exact ⟨'\r', _, rfl, ⟨'\n', rfl, rfl⟩, rfl⟩

theorem matches_lineBreak : lineBreak.Matches (c :: cs) ↔ Source.isBreak c = true := by
  constructor
  · rintro ⟨w, hw, hfront⟩
    rcases mem_lineBreak.1 hw with rfl | ⟨d, hd, rfl⟩
    · rw [← (List.cons_prefix_cons.1 hfront).1]
      decide
    · rwa [← (List.cons_prefix_cons.1 hfront).1]
  · intro hc
    exact ⟨[c], mem_lineBreak.2 (.inr ⟨c, hc, rfl⟩), by simp⟩

theorem longest_lineBreak_pair (cs : List Char) : lineBreak.Longest ['\r', '\n'] ('\r' :: '\n' :: cs) := by
  refine longest_of_length (fun w hw => ?_) (mem_lineBreak.2 (.inl rfl)) (by simp) rfl
  rcases mem_lineBreak.1 hw with rfl | ⟨c, _, rfl⟩ <;> simp

theorem longest_lineBreak (hc : Source.isBreak c = true) (hpair : ¬(c = '\r' ∧ cs.head? = some '\n')) :
    lineBreak.Longest [c] (c :: cs) := by
  refine ⟨mem_lineBreak.2 (.inr ⟨c, hc, rfl⟩), by simp, fun w hw hfront => ?_⟩
  rcases mem_lineBreak.1 hw with rfl | ⟨d, _, rfl⟩
  · obtain ⟨rest, heq⟩ := hfront
    obtain ⟨rfl, rfl⟩ := List.cons.inj heq
    exact absurd ⟨rfl, rfl⟩ hpair
  · rfl

/-- An operator is found by its text. -/
theorem isSome_operator_ofText? : (Operator.ofText? (String.ofList w)).isSome = true ↔
    ∃ op ∈ Operator.lexical, op.text.toList = w := by
  rw [Operator.ofText?, List.find?_isSome]
  simp only [beq_iff_eq, String.ext_iff, String.toList_ofList]

theorem isSome_symbol_ofText? : (Symbol.ofText? (String.ofList w)).isSome = true ↔ ∃ s : Symbol, s.text.toList = w := by
  rw [Symbol.ofText?, List.find?_isSome]
  simp only [beq_iff_eq, String.ext_iff, String.toList_ofList, Symbol.mem_all, true_and]

/-- A pattern all of whose texts have the same number of characters. -/
theorem matches_fixed {pattern : Pattern} {n : Nat} {P : List Char → Prop}
    (hlanguage : ∀ w, w ∈ pattern.language ↔ w.length = n ∧ P w) {text : List Char} :
    pattern.Matches text ↔ n ≤ text.length ∧ P (text.take n) := by
  constructor
  · rintro ⟨w, hw, hfront⟩
    obtain ⟨hlength, hP⟩ := (hlanguage w).1 hw
    rw [← hlength, ← List.prefix_iff_eq_take.1 hfront]
    exact ⟨hfront.length_le, hP⟩
  · rintro ⟨hle, hP⟩
    exact ⟨text.take n, (hlanguage _).2 ⟨List.length_take_of_le hle, hP⟩, List.take_prefix n text⟩

theorem longest_fixed {pattern : Pattern} {n : Nat} {P : List Char → Prop}
    (hlanguage : ∀ w, w ∈ pattern.language ↔ w.length = n ∧ P w) {text : List Char}
    (h : pattern.Matches text) : pattern.Longest (text.take n) text := by
  obtain ⟨hle, hP⟩ := (matches_fixed hlanguage).1 h
  have hlength := List.length_take_of_le hle
  exact longest_of_length (fun w hw => (((hlanguage w).1 hw).1).le) ((hlanguage _).2 ⟨hlength, hP⟩)
    (List.take_prefix n text) hlength

theorem longest_operatorPair {text : List Char} (h : operatorPair.Matches text) :
    operatorPair.Longest (text.take 2) text :=
  longest_fixed (fun _ => Iff.rfl) h

theorem longest_symbol {text : List Char} (h : symbol.Matches text) : symbol.Longest (text.take 1) text :=
  longest_fixed (fun _ => Iff.rfl) h

theorem longest_operator {text : List Char} (h : operator.Matches text) : operator.Longest (text.take 1) text :=
  longest_fixed (fun _ => Iff.rfl) h

theorem matches_operatorPair {text : List Char} :
    operatorPair.Matches text ↔ (Lexer.operatorPair? text).isSome = true := by
  rw [matches_fixed (fun _ => Iff.rfl)]
  unfold Lexer.operatorPair?
  split
  · rename_i c d cs
    rw [isSome_operator_ofText?]
    simp
  · rename_i hshort
    refine iff_of_false (fun h => ?_) (by simp)
    obtain ⟨hle, _⟩ := h
    obtain ⟨c, cs, rfl⟩ := List.exists_cons_of_length_pos (Nat.lt_of_lt_of_le Nat.zero_lt_two hle)
    obtain ⟨d, ds, rfl⟩ := List.exists_cons_of_length_pos (Nat.le_of_succ_le_succ hle)
    exact hshort c d ds rfl

theorem matches_symbol : symbol.Matches (c :: cs) ↔ (Symbol.ofText? (String.ofList [c])).isSome = true := by
  rw [matches_fixed (fun _ => Iff.rfl), isSome_symbol_ofText?]
  simp

theorem matches_operator : operator.Matches (c :: cs) ↔ (Operator.ofText? (String.ofList [c])).isSome = true := by
  rw [matches_fixed (fun _ => Iff.rfl), isSome_operator_ofText?]
  simp

theorem matches_number : number.Matches (c :: cs) ↔ Lexer.isDigit c = true := by
  constructor
  · rintro ⟨w, hw, hfront⟩
    obtain ⟨d, f, e, rfl, hd, _⟩ := mem_number.1 hw
    obtain ⟨hne, hdigits⟩ := mem_digits.1 hd
    obtain ⟨x, xs, rfl⟩ := List.exists_cons_of_ne_nil hne
    rw [← (List.cons_prefix_cons.1 hfront).1]
    exact hdigits x List.mem_cons_self
  · intro hc
    have hlongest := longest_number hc cs
    exact ⟨_, hlongest.mem, hlongest.isPrefix⟩

end Fixed

/-- Whether a piece of a kind is a token, and of which pattern it is a match. -/
def ofPiece? (piece : Piece) : Option Pattern :=
  match piece.kind with
  | .comment => some comment
  | .blanks => some blanks
  | .lineBreak => some lineBreak
  | .operator _ => some (if piece.text.length = 2 then operatorPair else operator)
  | .symbol _ => some symbol
  | .word => some word
  | .number => some number
  | .unknown => none

/-- The piece at the front of a text. -/
def frontPiece (c : Char) (cs : List Char) : Piece :=
  ⟨(Lexer.pieceAt c cs).1, c :: cs.take (Lexer.pieceAt c cs).2⟩

/-- A stretch at the front of a text is the longest match of the first pattern that matches there, or one
character where none does. -/
def IsFront (pattern? : Option Pattern) (w text : List Char) : Prop :=
  match pattern? with
  | some p => p.Longest w text ∧ ∀ q ∈ p.earlier, ¬q.Matches text
  | none => (∃ c, w = [c]) ∧ w <+: text ∧ ∀ q : Pattern, ¬q.Matches text

theorem matches_blanks : blanks.Matches (c :: cs) ↔ Lexer.isBlank c = true :=
  matches_run rfl

theorem matches_word : word.Matches (c :: cs) ↔ Lexer.isWordStart c = true :=
  matches_run rfl

/-- The piece at the front of a text is the longest match of the first pattern that matches, in their order. -/
theorem isFront_frontPiece (c : Char) (cs : List Char) :
    IsFront (ofPiece? (frontPiece c cs)) (frontPiece c cs).text (c :: cs) := by
  unfold frontPiece Lexer.pieceAt
  split
  · rename_i h
    obtain ⟨rfl, hhead⟩ : c = '/' ∧ cs.head? = some '/' := by simpa using h
    obtain ⟨ds, rfl⟩ := List.head?_eq_some_iff.1 hhead
    exact ⟨longest_comment ds, List.forall_mem_nil _⟩
  rename_i h
  have hcomment : ¬comment.Matches (c :: cs) := by simpa [matches_comment] using h
  split
  · rename_i hblank
    exact ⟨longest_run rfl hblank cs, by simp [earlier, order, hcomment]⟩
  rename_i h
  have hblanks : ¬blanks.Matches (c :: cs) := mt matches_blanks.1 h
  split
  · rename_i h
    obtain ⟨rfl, hhead⟩ : c = '\r' ∧ cs.head? = some '\n' := by simpa using h
    obtain ⟨ds, rfl⟩ := List.head?_eq_some_iff.1 hhead
    exact ⟨longest_lineBreak_pair ds, by simp [earlier, order, hcomment, hblanks]⟩
  rename_i hpair
  split
  · rename_i hbreak
    exact ⟨longest_lineBreak hbreak (by simpa using hpair), by simp [earlier, order, hcomment, hblanks]⟩
  rename_i h
  have hlineBreak : ¬lineBreak.Matches (c :: cs) := mt matches_lineBreak.1 h
  split
  · rename_i op hop
    have hmatches : operatorPair.Matches (c :: cs) := matches_operatorPair.2 (by rw [hop]; rfl)
    have hlongest : operatorPair.Longest (c :: cs.take 1) (c :: cs) := longest_operatorPair hmatches
    have htwo : (c :: cs.take 1).length = 2 := hlongest.mem.1
    rw [ofPiece?, if_pos htwo]
    exact ⟨hlongest, by simp [earlier, order, hcomment, hblanks, hlineBreak]⟩
  rename_i hnone
  have hoperatorPair : ¬operatorPair.Matches (c :: cs) := by
    rw [matches_operatorPair, Option.isSome_iff_exists]
    rintro ⟨op, hop⟩
    exact hnone op hop
  split
  · rename_i s hs
    have hmatches : symbol.Matches (c :: cs) := matches_symbol.2 (by rw [hs]; rfl)
    have hlongest : symbol.Longest [c] (c :: cs) := longest_symbol hmatches
    exact ⟨hlongest, by simp [earlier, order, hcomment, hblanks, hlineBreak, hoperatorPair]⟩
  rename_i hnone
  have hsymbol : ¬symbol.Matches (c :: cs) := by
    rw [matches_symbol, Option.isSome_iff_exists]
    rintro ⟨s, hs⟩
    exact hnone s hs
  split
  · rename_i hword
    exact ⟨longest_run rfl hword cs, by simp [earlier, order, hcomment, hblanks, hlineBreak, hoperatorPair, hsymbol]⟩
  rename_i h
  have hword : ¬word.Matches (c :: cs) := mt matches_word.1 h
  split
  · rename_i op hop
    have hmatches : operator.Matches (c :: cs) := matches_operator.2 (by rw [hop]; rfl)
    have hlongest : operator.Longest [c] (c :: cs) := longest_operator hmatches
    exact ⟨hlongest, by simp [earlier, order, hcomment, hblanks, hlineBreak, hoperatorPair, hsymbol, hword]⟩
  rename_i hnone
  have hoperator : ¬operator.Matches (c :: cs) := by
    rw [matches_operator, Option.isSome_iff_exists]
    rintro ⟨op, hop⟩
    exact hnone op hop
  split
  · rename_i hdigit
    exact ⟨longest_number_cons hdigit cs,
      by simp [earlier, order, hcomment, hblanks, hlineBreak, hoperatorPair, hsymbol, hword, hoperator]⟩
  rename_i h
  have hnumber : ¬number.Matches (c :: cs) := mt matches_number.1 h
  refine ⟨⟨c, rfl⟩, by simp, fun q => ?_⟩
  cases q with
  | comment => exact hcomment
  | blanks => exact hblanks
  | lineBreak => exact hlineBreak
  | operatorPair => exact hoperatorPair
  | symbol => exact hsymbol
  | word => exact hword
  | operator => exact hoperator
  | number => exact hnumber

section Gaps

open Lexer (isGap)

/-- A class of characters that leaves out the four characters of gaps. -/
theorem isGap_eq_false {r : Char → Bool} (hr : [' ', '\t', '\n', '\r'].any r = false) (hc : r c = true) :
    isGap c = false := by
  by_contra hgap
  have hmem : c ∈ [' ', '\t', '\n', '\r'] := by
    simpa [isGap, Lexer.isBlank, Source.isBreak, or_assoc] using (Bool.not_eq_false _).mp hgap
  exact List.any_eq_false.1 hr c hmem hc

theorem any_isGap_operator (op : Operator) : op.text.toList.any isGap = false := by
  cases op <;> rfl

theorem any_isGap_symbol (s : Symbol) : s.text.toList.any isGap = false := by
  rcases s with _ | _ | _ | _ | _ | _ | _ | _ | _ | ⟨_ | _ | _⟩ | ⟨_ | _ | _⟩ <;> rfl

/-- There is no gap within a token. -/
theorem forall_isGap_eq_false {pattern : Pattern} (hp : pattern.isToken = true)
    (hw : w ∈ pattern.language) : ∀ c ∈ w, isGap c = false := by
  cases pattern with
  | comment | blanks | lineBreak => cases hp
  | operatorPair | operator =>
    obtain ⟨_, op, _, rfl⟩ := hw
    simpa using List.any_eq_false.1 (any_isGap_operator op)
  | symbol =>
    obtain ⟨_, s, rfl⟩ := hw
    simpa using List.any_eq_false.1 (any_isGap_symbol s)
  | word =>
    obtain ⟨c, cs, hc, hcs, rfl⟩ := mem_one_mul.1 hw
    have hstart : isGap c = false := isGap_eq_false rfl hc
    exact List.forall_mem_cons.2 ⟨hstart, fun d hd => isGap_eq_false rfl (mem_kstar_one.1 hcs d hd)⟩
  | number =>
    have hdigits {ds : List Char} (hds : ∀ d ∈ ds, Lexer.isDigit d = true) : ∀ d ∈ ds, isGap d = false :=
      fun d hd => isGap_eq_false rfl (hds d hd)
    obtain ⟨d, f, e, rfl, hd, hf, he⟩ := mem_number.1 hw
    have hfraction : ∀ c ∈ f, isGap c = false := by
      rcases (Language.mem_add _ _ _).1 hf with hnil | hf
      · rw [(Language.mem_one _).1 hnil]
        exact List.forall_mem_nil _
      · obtain ⟨ds, rfl, hds⟩ := mem_fraction.1 hf
        exact List.forall_mem_cons.2 ⟨rfl, hdigits hds⟩
    have hexponent : ∀ c ∈ e, isGap c = false := by
      rcases (Language.mem_add _ _ _).1 he with hnil | he
      · rw [(Language.mem_one _).1 hnil]
        exact List.forall_mem_nil _
      · obtain ⟨x, sign, ds, rfl, hx, hsign, _, hds⟩ := mem_exponent.1 he
        refine List.forall_mem_cons.2 ⟨isGap_eq_false rfl hx, List.forall_mem_append.2 ⟨?_, hdigits hds⟩⟩
        rcases hsign with rfl | ⟨s, rfl, hs⟩
        · exact List.forall_mem_nil _
        · exact List.forall_mem_singleton.2 (isGap_eq_false rfl hs)
    exact List.forall_mem_append.2 ⟨List.forall_mem_append.2 ⟨hdigits (mem_digits.1 hd).2, hfraction⟩, hexponent⟩

end Gaps

/-- No pattern matches the empty text. -/
theorem nil_notMem_language (p : Pattern) : [] ∉ p.language := by
  intro h
  cases p with
  | comment =>
    obtain ⟨cs, heq, _⟩ := mem_comment.1 h
    cases heq
  | blanks | word =>
    obtain ⟨c, cs, _, _, heq⟩ := mem_one_mul.1 h
    cases heq
  | lineBreak =>
    rcases mem_lineBreak.1 h with heq | ⟨c, _, heq⟩ <;> cases heq
  | operatorPair | symbol | operator => cases h.1
  | number =>
    obtain ⟨d, f, e, heq, hd, _⟩ := mem_number.1 h
    have hnil := (List.append_eq_nil_iff.1 (List.append_eq_nil_iff.1 heq.symm).1).1
    exact (mem_digits.1 hd).1 hnil

theorem IsFront.ne_nil {pattern? : Option Pattern} {text : List Char} (h : IsFront pattern? w text) : w ≠ [] := by
  rintro rfl
  cases pattern? with
  | some p => exact nil_notMem_language p h.1.mem
  | none =>
    obtain ⟨c, hc⟩ := h.1
    cases hc

theorem Longest.matches {pattern : Pattern} {text : List Char} (h : pattern.Longest w text) : pattern.Matches text :=
  ⟨w, h.mem, h.isPrefix⟩

theorem Longest.unique {pattern : Pattern} {w' text : List Char} (h : pattern.Longest w text)
    (h' : pattern.Longest w' text) : w = w' := by
  have hlength := Nat.le_antisymm (h'.longest w h.mem h.isPrefix) (h.longest w' h'.mem h'.isPrefix)
  exact (List.prefix_of_prefix_length_le h.isPrefix h'.isPrefix hlength.le).eq_of_length hlength

/-- Of two patterns one is tried before the other. -/
theorem eq_or_mem_earlier (p q : Pattern) : p = q ∨ p ∈ q.earlier ∨ q ∈ p.earlier := by
  cases p <;> cases q <;> decide

/-- What stands at the front of a text is determined by the text. -/
theorem IsFront.unique {pattern? pattern?' : Option Pattern} {w' text : List Char} (h : IsFront pattern? w text)
    (h' : IsFront pattern?' w' text) : pattern? = pattern?' ∧ w = w' := by
  cases pattern? with
  | none =>
    cases pattern?' with
    | none =>
      obtain ⟨⟨c, rfl⟩, hfront, _⟩ := h
      obtain ⟨⟨c', rfl⟩, hfront', _⟩ := h'
      exact ⟨rfl, (List.prefix_of_prefix_length_le hfront hfront' (Nat.le_refl 1)).eq_of_length rfl⟩
    | some q => exact absurd h'.1.matches (h.2.2 q)
  | some p =>
    cases pattern?' with
    | none => exact absurd h.1.matches (h'.2.2 p)
    | some q =>
      rcases eq_or_mem_earlier p q with rfl | hp | hq
      · exact ⟨rfl, h.1.unique h'.1⟩
      · exact absurd h.1.matches (h'.2 p hp)
      · exact absurd h'.1.matches (h.2 q hq)

end Pattern
end ToneScript
