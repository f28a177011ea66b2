import ToneScript.Token.Stream

/-! Streams over parts of one list of tokens. Whatever is done with them, a stream stays within its span,
and that lies within the span of each stream it was cut out of. -/
namespace ToneScript.TokenStream

/-- A stream with the streams that it was cut out of, the last one first. -/
structure Derived where
  stream : TokenStream
  origins : List TokenStream
deriving DecidableEq, Repr

/-- What can be done with one of several streams, given by its place among them. -/
inductive Move where
  | next (n : Nat)
  | skipTo (n i : Nat)
  | slice (n first last : Nat)
  | rest (n : Nat)
  | copy (n : Nat)
deriving DecidableEq, Repr

namespace Derived

/-- A part of the stream, which has this stream as an origin. -/
def part (d : Derived) (stream : TokenStream) : Derived :=
  ⟨stream, d.stream :: d.origins⟩

/-- The streams after a move: `next` and `skipTo` change one, the others add one. -/
def perform (streams : List Derived) : Move → List Derived
  | .next n => streams.modify n fun d => { d with stream := d.stream.next.2 }
  | .skipTo n i => streams.modify n fun d => { d with stream := d.stream.skipTo i }
  | .slice n first last => streams ++ (streams[n]?.map fun d => d.part (d.stream.slice first last)).toList
  | .rest n => streams ++ (streams[n]?.map fun d => d.part d.stream.rest).toList
  | .copy n => streams ++ streams[n]?.toList

/-- The streams that moves give from one stream over all tokens. -/
def run (tokens : List Token) (moves : List Move) : List Derived :=
  moves.foldl perform [⟨ofTokens tokens, []⟩]

/-- The cursor stands in the span or at its end, and the span is within that of each origin. -/
structure Contained (tokens : List Token) (d : Derived) : Prop where
  tokens_eq : d.stream.tokens = tokens
  first_le : d.stream.first ≤ d.stream.cursor
  le_last : d.stream.cursor ≤ d.stream.last
  last_le : d.stream.last ≤ (ofTokens tokens).last
  nested : ∀ s ∈ d.origins, s.first ≤ d.stream.first ∧ d.stream.last ≤ s.last

/-- A token that is at an index within the span and those of the origins, and is not the end of the source. -/
structure Reads (tokens : List Token) (d : Derived) (i : Nat) (t : Token) : Prop where
  get : tokens[i]? = some t
  inside : ∀ s ∈ d.stream :: d.origins, s.first ≤ i ∧ i < s.last
  notEnd : ¬(i + 1 = tokens.length ∧ t.isEof = true)

end Derived

theorem clamp_mem {low high : Nat} (h : low ≤ high) (i : Nat) : low ≤ clamp low high i ∧ clamp low high i ≤ high := by
  rw [clamp]
  split
  · exact ⟨Nat.le_refl _, h⟩
  · split <;> omega

theorem ofTokens_start (tokens : List Token) :
    (ofTokens tokens).tokens = tokens ∧ (ofTokens tokens).first = 0 ∧ (ofTokens tokens).cursor = 0 := by
  rw [ofTokens]
  split
  · exact ⟨rfl, rfl, rfl⟩
  · split <;> exact ⟨rfl, rfl, rfl⟩

theorem last_ofTokens_le (tokens : List Token) : (ofTokens tokens).last ≤ tokens.length := by
  rw [ofTokens]
  split
  · exact Nat.zero_le _
  · split
    · exact Nat.sub_le _ _
    · exact Nat.le_refl _

/-- A last token that ends the source is left out of the span. -/
theorem last_ofTokens_le_of_isEof {tokens : List Token} {i : Nat} {t : Token} (hget : tokens[i]? = some t)
    (hi : i + 1 = tokens.length) (ht : t.isEof = true) : (ofTokens tokens).last ≤ i := by
  have hlast : tokens.getLast? = some t := by
    rw [List.getLast?_eq_getElem?, ← hi, Nat.add_sub_cancel, hget]
  rw [ofTokens, hlast]
  simp only [ht, if_true]
  omega

namespace Derived

variable {tokens : List Token} {d : Derived} {streams : List Derived}

namespace Contained

theorem ofTokens (tokens : List Token) : Contained tokens ⟨ofTokens tokens, []⟩ := by
  obtain ⟨htokens, hfirst, hcursor⟩ := ofTokens_start tokens
  refine ⟨htokens, ?_, ?_, Nat.le_refl _, fun _ hs => nomatch hs⟩
  · rw [hfirst]
    exact Nat.zero_le _
  · rw [hcursor]
    exact Nat.zero_le _

theorem next (h : Contained tokens d) : Contained tokens { d with stream := d.stream.next.2 } := by
  rw [TokenStream.next]
  split
  · exact h
  · rename_i hempty
    have hlt : d.stream.cursor < d.stream.last := Nat.lt_of_not_le (by simpa [isEmpty] using hempty)
    exact ⟨h.tokens_eq, Nat.le_succ_of_le h.first_le, hlt, h.last_le, h.nested⟩

theorem skipTo (h : Contained tokens d) (i : Nat) : Contained tokens { d with stream := d.stream.skipTo i } := by
  have hmem := clamp_mem (Nat.le_trans h.first_le h.le_last) i
  exact ⟨h.tokens_eq, hmem.1, hmem.2, h.last_le, h.nested⟩

theorem slice (h : Contained tokens d) (first last : Nat) :
    Contained tokens (d.part (d.stream.slice first last)) := by
  have hlow := clamp_mem (Nat.le_trans h.first_le h.le_last) first
  have hhigh := clamp_mem hlow.2 last
  refine ⟨h.tokens_eq, Nat.le_refl _, hhigh.1, Nat.le_trans hhigh.2 h.last_le, ?_⟩
  rintro s (_ | ⟨_, hs⟩)
  · exact ⟨hlow.1, hhigh.2⟩
  · obtain ⟨hfirst, hlast⟩ := h.nested s hs
    exact ⟨Nat.le_trans hfirst hlow.1, Nat.le_trans hhigh.2 hlast⟩

end Contained

/-- Every move keeps streams within their spans. -/
theorem perform_contained (h : ∀ d ∈ streams, Contained tokens d) (move : Move) :
    ∀ d ∈ perform streams move, Contained tokens d := by
  have hmodify (n : Nat) {f : Derived → Derived} (hf : ∀ d, Contained tokens d → Contained tokens (f d)) :
      ∀ d ∈ streams.modify n f, Contained tokens d := by
    intro d hd
    obtain ⟨i, hi⟩ := List.mem_iff_getElem?.1 hd
    rw [List.getElem?_modify] at hi
    obtain ⟨e, he, rfl⟩ := Option.map_eq_some_iff.1 hi
    have hcontained := h e (List.mem_of_getElem? he)
    split
    · exact hf e hcontained
    · exact hcontained
  have happend (n : Nat) {f : Derived → Derived} (hf : ∀ d, Contained tokens d → Contained tokens (f d)) :
      ∀ d ∈ streams ++ (streams[n]?.map f).toList, Contained tokens d := by
    intro d hd
    obtain hd | hd := List.mem_append.1 hd
    · exact h d hd
    · obtain ⟨e, he, rfl⟩ := Option.map_eq_some_iff.1 (Option.mem_toList.1 hd)
      exact hf e (h e (List.mem_of_getElem? he))
  cases move with
  | next n => exact hmodify n fun _ hd => hd.next
  | skipTo n i => exact hmodify n fun _ hd => hd.skipTo i
  | slice n first last => exact happend n fun _ hd => hd.slice first last
  | rest n => exact happend n fun _ hd => hd.slice _ _
  | copy n => simpa [perform] using happend n (f := id) fun _ hd => hd

theorem run_contained (tokens : List Token) (moves : List Move) : ∀ d ∈ run tokens moves, Contained tokens d := by
  have hmoves (streams : List Derived) (h : ∀ d ∈ streams, Contained tokens d) :
      ∀ d ∈ moves.foldl perform streams, Contained tokens d := by
    induction moves generalizing streams with
    | nil => exact h
    | cons move moves ih => exact ih _ (perform_contained h move)
  exact hmoves _ fun d hd => List.mem_singleton.1 hd ▸ .ofTokens tokens

namespace Contained

/-- What is at an index of the span. -/
theorem reads (h : Contained tokens d) {i : Nat} {t : Token} (hget : tokens[i]? = some t)
    (hfirst : d.stream.first ≤ i) (hlast : i < d.stream.last) : Reads tokens d i t where
  get := hget
  inside := by
    rintro s (_ | ⟨_, hs⟩)
    · exact ⟨hfirst, hlast⟩
    · obtain ⟨hs, hs'⟩ := h.nested s hs
      exact ⟨Nat.le_trans hs hfirst, Nat.lt_of_lt_of_le hlast hs'⟩
  notEnd := fun ⟨hend, ht⟩ =>
    Nat.not_lt_of_le (Nat.le_trans h.last_le (last_ofTokens_le_of_isEof hget hend ht)) hlast

theorem exists_reads (h : Contained tokens d) {i : Nat} (hfirst : d.stream.first ≤ i) (hlast : i < d.stream.last) :
    ∃ t, d.stream.tokens[i]? = some t ∧ Reads tokens d i t := by
  have hlt : i < tokens.length :=
    Nat.lt_of_lt_of_le hlast (Nat.le_trans h.last_le (last_ofTokens_le tokens))
  have hget : tokens[i]? = some tokens[i] := List.getElem?_eq_getElem hlt
  exact ⟨tokens[i], by rw [h.tokens_eq, hget], h.reads hget hfirst hlast⟩

end Contained

/-- `o` is the token at an index if that is within the limits of what may be read, and nothing otherwise. -/
def Gives (tokens : List Token) (d : Derived) (i : Nat) (within : Prop) (o : Option Token) : Prop :=
  (within → ∃ t, o = some t ∧ Reads tokens d i t) ∧ (¬within → o = none)

/-- Whatever is done with streams over parts of a list of tokens, the cursor of each stays within its span
and that within the span of every stream it was cut out of. So it only gives tokens of all those spans: as
many as remain, and not the end of the source. Only for `peek?` does it matter that indices are words, which those of
steps below `2 ^ 63` are in a list of no more tokens than that. -/
theorem run_stays_within (tokens : List Token) (moves : List Move) :
    ∀ d ∈ run tokens moves,
      (d.stream.first ≤ d.stream.cursor ∧ d.stream.cursor ≤ d.stream.last) ∧
      (∀ s ∈ TokenStream.ofTokens tokens :: d.origins, s.first ≤ d.stream.first ∧ d.stream.last ≤ s.last) ∧
      d.stream.remaining + d.stream.cursor = d.stream.last ∧
      (∀ n, tokens.length + n < UInt64.size →
        Gives tokens d (d.stream.cursor + n) (n < d.stream.remaining) (d.stream.peek? n)) ∧
      (∀ i, Gives tokens d i (d.stream.first ≤ i ∧ i < d.stream.last) (d.stream.at? i)) ∧
      Gives tokens d d.stream.cursor (0 < d.stream.remaining) d.stream.next.1 := by
  intro d hd
  have h := run_contained tokens moves d hd
  have hroom := h.first_le
  have hspan := h.le_last
  have hremaining : d.stream.remaining = d.stream.last - d.stream.cursor := rfl
  refine ⟨⟨hroom, hspan⟩, ?_, by omega, fun n hn => ?_, fun i => ?_, ?_⟩
  · rintro s (_ | ⟨_, hs⟩)
    · exact ⟨(ofTokens_start tokens).2.1 ▸ Nat.zero_le _, h.last_le⟩
    · exact h.nested s hs
  · have hlast : d.stream.last ≤ tokens.length := Nat.le_trans h.last_le (last_ofTokens_le tokens)
    have hmod : (d.stream.cursor + n) % UInt64.size = d.stream.cursor + n := Nat.mod_eq_of_lt (by omega)
    rw [Gives, peek?, hmod]
    refine ⟨fun hwithin => ?_, fun hwithin => if_neg (by omega)⟩
    simp only [if_pos (show d.stream.cursor + n < d.stream.last by omega)]
    exact h.exists_reads (by omega) (by omega)
  · rw [Gives, at?]
    refine ⟨fun hwithin => ?_, fun hwithin => if_neg hwithin⟩
    rw [if_pos hwithin]
    exact h.exists_reads hwithin.1 hwithin.2
  · rw [Gives, next]
    refine ⟨fun hwithin => ?_, fun hwithin => ?_⟩
    · rw [if_neg (by simp only [isEmpty, decide_eq_true_eq]; omega)]
      exact h.exists_reads hroom (by omega)
    · rw [if_pos (by simp only [isEmpty, decide_eq_true_eq]; omega)]

/-- The tokens `(,;)` and the end of the source. -/
def bracketTokens : List Token :=
  let symbols : List Symbol := [.left .round, .comma, .semicolon, .right .round]
  symbols.map (fun s => ⟨.symbol s, .start, s.text⟩) ++ [⟨.eof, .start, ""⟩]

/-- Moves with bounds beyond the span and with bounds the wrong way round. -/
def bracketMoves : List Move :=
  [.slice 0 1 9, .next 1, .rest 1, .slice 2 7 1, .skipTo 0 100, .copy 2]

/-- The copied part, of two tokens, with the two streams that it was cut out of. -/
def bracketPart : Derived :=
  let all := ofTokens bracketTokens
  ⟨⟨bracketTokens, 2, 4, 2, .start⟩, [⟨bracketTokens, 1, 4, 2, .start⟩, all]⟩

theorem run_stays_within_bracketMoves :
    bracketPart ∈ run bracketTokens bracketMoves ∧ bracketTokens.length + 2 < UInt64.size ∧
      (∀ s ∈ ofTokens bracketTokens :: bracketPart.origins, s.first ≤ 2 ∧ 4 ≤ s.last) ∧
      (∃ t, bracketPart.stream.peek? 1 = some t ∧ Reads bracketTokens bracketPart 3 t) ∧
      bracketPart.stream.peek? 2 = none := by
  have hmem : bracketPart ∈ run bracketTokens bracketMoves := by decide +kernel
  obtain ⟨-, hnested, -, hpeek, -⟩ := run_stays_within bracketTokens bracketMoves bracketPart hmem
  exact ⟨hmem, by decide, hnested, (hpeek 1 (by decide)).1 (by decide), (hpeek 2 (by decide)).2 (by decide)⟩

end Derived

end ToneScript.TokenStream
