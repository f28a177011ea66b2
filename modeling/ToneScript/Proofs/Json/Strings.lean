import Mathlib.Order.Defs.LinearOrder
import ToneScript.Proofs.Json.Decoding

/-! Strings are read as they were before their characters were escaped. -/
namespace ToneScript.Json

variable {c : Char} {s : List Char}

/-- A string with one more character in front. -/
def prepend (c : Char) : List Char × List Char → List Char × List Char :=
  Prod.map (List.cons c) id

/-- Whether a character stands for itself inside a string. -/
def Verbatim (c : Char) : Prop :=
  c ≠ '"' ∧ c ≠ '\\' ∧ 0x20 ≤ c.toNat

instance (c : Char) : Decidable (Verbatim c) :=
  inferInstanceAs (Decidable (_ ∧ _ ∧ _))

/-- Whether every character of a text stands for itself inside a string. -/
def AllVerbatim (cs : List Char) : Prop :=
  ∀ c ∈ cs, Verbatim c

/-- Whether a text holds no control characters. -/
def AllPrinted (cs : List Char) : Prop :=
  ∀ c ∈ cs, 0x20 ≤ c.toNat

-- Only the characters of the text are looked at here. There are finitely many characters, so an instance found by search
-- may go through all of them.
instance (cs : List Char) : Decidable (AllVerbatim cs) :=
  List.decidableBAll _ cs

instance (cs : List Char) : Decidable (AllPrinted cs) :=
  List.decidableBAll _ cs

theorem AllVerbatim.printed {cs : List Char} (h : AllVerbatim cs) : AllPrinted cs :=
  fun c hc => (h c hc).2.2

theorem allPrinted_flatMap {f : Char → List Char} (h : ∀ c ∈ s, AllPrinted (f c)) : AllPrinted (s.flatMap f) := by
  intro d hd
  obtain ⟨c, hc, hd⟩ := List.mem_flatMap.1 hd
  exact h c hc d hd

theorem string?_quote (cs : List Char) : string? ('"' :: cs) = some ([], cs) := by
  rw [string?]

theorem string?_backslash (cs : List Char) :
    string? ('\\' :: cs) = (unescape? cs).bind fun r => (string? r.2).map (prepend r.1) := by
  rw [string?]
  split
  · rename_i hescape
    rw [hescape]
    rfl
  · rename_i c rest hescape
    rw [hescape]
    rfl

theorem string?_verbatim (h : Verbatim c) (cs : List Char) : string? (c :: cs) = (string? cs).map (prepend c) := by
  obtain ⟨hquote, hbackslash, hprinted⟩ := h
  have hcontrol : ¬c.toNat < 0x20 := by omega
  rw [string?.eq_4 _ _ hquote hbackslash, if_neg hcontrol]
  rfl

theorem string?_control (h : c.toNat < 0x20) (cs : List Char) : string? (c :: cs) = none := by
  have hquote : c ≠ '"' := by rintro rfl; revert h; decide
  have hbackslash : c ≠ '\\' := by rintro rfl; revert h; decide
  rw [string?.eq_4 _ _ hquote hbackslash, if_pos h]

/-- Characters that stand for themselves are read as they are. -/
theorem string?_append (h : AllVerbatim s) (rest : List Char) :
    string? (s ++ '"' :: rest) = some (s, rest) := by
  induction s with
  | nil => exact string?_quote rest
  | cons c s ih =>
    have hfirst : Verbatim c := h c List.mem_cons_self
    have hrest : AllVerbatim s := fun d hd => h d (List.mem_cons_of_mem c hd)
    rw [List.cons_append, string?_verbatim hfirst, ih hrest]
    rfl

/-! Escapes. -/

theorem digit?_hexDigit (n : Nat) : Number.digit? 16 (hexDigit n) = some (n % 16) := by
  have hdigits : ∀ d < 16, Number.digit? 16 (Nat.digitChar d) = some d := by decide
  exact hdigits (n % 16) (Nat.mod_lt n (by decide))

theorem unescape?_code (h : c.toNat < 0x20) (cs : List Char) :
    unescape? ('u' :: '0' :: '0' :: hexDigit (c.toNat / 16) :: hexDigit c.toNat :: cs) = some (c, cs) := by
  have hzero : Number.digit? 16 '0' = some 0 := by decide
  have hunit : codeUnit? ('0' :: '0' :: hexDigit (c.toNat / 16) :: hexDigit c.toNat :: cs) = some (c.toNat, cs) := by
    have hvalue : Number.ofDigits 16 [0, 0, c.toNat / 16 % 16, c.toNat % 16] = c.toNat := by
      simp only [Number.ofDigits, List.foldl_cons, List.foldl_nil]
      omega
    simp [codeUnit?, hzero, digit?_hexDigit, hvalue]
  have hhigh : ¬(0xD800 ≤ c.toNat ∧ c.toNat < 0xDC00) := by omega
  have hlow : ¬(0xDC00 ≤ c.toNat ∧ c.toNat < 0xE000) := by omega
  simp only [unescape?, unicode?, hunit, Option.bind_eq_bind, Option.bind_some, if_neg hhigh, if_neg hlow,
    Char.ofNat_toNat]

theorem string?_shortEscape {e : List Char} (h : shortEscape? c = some e) (cs : List Char) :
    string? (e ++ cs) = (string? cs).map (prepend c) := by
  unfold shortEscape? at h
  split at h
  all_goals first
    | cases h
      rw [List.cons_append, List.cons_append, List.nil_append, string?_backslash, unescape?]
      rfl
    | cases h

/-- What has no short escape stands for itself, or is a control character. -/
theorem verbatim_of_shortEscape? (h : shortEscape? c = none) (hprinted : 0x20 ≤ c.toNat) : Verbatim c := by
  refine ⟨?_, ?_, hprinted⟩ <;> rintro rfl <;> cases h

/-- An escaped character is read as that character. -/
theorem string?_escapeChar (c : Char) (cs : List Char) :
    string? (escapeChar c ++ cs) = (string? cs).map (prepend c) := by
  unfold escapeChar
  split
  · rename_i e he
    exact string?_shortEscape he cs
  · rename_i hshort
    split
    · rename_i hcontrol
      simp only [List.cons_append, List.nil_append]
      rw [string?_backslash, unescape?_code hcontrol]
      rfl
    · rename_i hprinted
      exact string?_verbatim (verbatim_of_shortEscape? hshort (not_lt.1 hprinted)) cs

theorem allPrinted_of_shortEscape? {e : List Char} (h : shortEscape? c = some e) : AllPrinted e := by
  unfold shortEscape? at h
  split at h
  all_goals first
    | cases h
      decide
    | cases h

theorem printed_hexDigit (n : Nat) : 0x20 ≤ (hexDigit n).toNat := by
  have hdigits : ∀ d < 16, 0x20 ≤ (Nat.digitChar d).toNat := by decide
  exact hdigits (n % 16) (Nat.mod_lt n (by decide))

theorem allPrinted_escapeChar (c : Char) : AllPrinted (escapeChar c) := by
  unfold escapeChar
  split
  · rename_i e he
    exact allPrinted_of_shortEscape? he
  · split
    · intro d hd
      simp only [List.mem_cons, List.not_mem_nil, or_false] at hd
      rcases hd with rfl | rfl | rfl | rfl | rfl | rfl
      all_goals first | decide | exact printed_hexDigit _
    · rename_i hprinted
      intro d hd
      rw [List.mem_singleton.1 hd]
      omega

theorem string?_escape (s : List Char) (rest : List Char) :
    string? (s.flatMap escapeChar ++ '"' :: rest) = some (s, rest) := by
  induction s with
  | nil => exact string?_quote rest
  | cons c s ih =>
    rw [List.flatMap_cons, List.append_assoc, string?_escapeChar, ih]
    rfl

/-! Short escapes only. -/

/-- Whether a short escape is enough for a character if it needs one: of the control characters, only for line feed,
carriage return and tab. -/
def ShortlyEscaped (c : Char) : Prop :=
  c.toNat < 0x20 → c = '\n' ∨ c = '\r' ∨ c = '\t'

instance (c : Char) : Decidable (ShortlyEscaped c) :=
  inferInstanceAs (Decidable (_ → _))

/-- Whether short escapes are enough for a text. -/
def AllShortlyEscaped (cs : List Char) : Prop :=
  ∀ c ∈ cs, ShortlyEscaped c

instance (cs : List Char) : Decidable (AllShortlyEscaped cs) :=
  List.decidableBAll _ cs

theorem allShortlyEscaped_cons {cs : List Char} :
    AllShortlyEscaped (c :: cs) ↔ ShortlyEscaped c ∧ AllShortlyEscaped cs :=
  List.forall_mem_cons

theorem shortEscape?_eq_none_iff (h : c.toNat < 0x20) : shortEscape? c = none ↔ ¬(c = '\n' ∨ c = '\r' ∨ c = '\t') := by
  have hquote : c ≠ '"' := by rintro rfl; revert h; decide
  have hbackslash : c ≠ '\\' := by rintro rfl; revert h; decide
  unfold shortEscape?
  split <;> simp_all

theorem ShortlyEscaped.verbatim (h : ShortlyEscaped c) (hshort : shortEscape? c = none) : Verbatim c := by
  have hprinted : 0x20 ≤ c.toNat := by
    by_contra hcontrol
    have hcontrol : c.toNat < 0x20 := by omega
    exact (shortEscape?_eq_none_iff hcontrol).1 hshort (h hcontrol)
  exact verbatim_of_shortEscape? hshort hprinted

theorem string?_escapeCharShort (h : ShortlyEscaped c) (cs : List Char) :
    string? (escapeCharShort c ++ cs) = (string? cs).map (prepend c) := by
  unfold escapeCharShort
  cases hshort : shortEscape? c with
  | some e => exact string?_shortEscape hshort cs
  | none => exact string?_verbatim (h.verbatim hshort) cs

theorem allPrinted_escapeCharShort (h : ShortlyEscaped c) : AllPrinted (escapeCharShort c) := by
  unfold escapeCharShort
  cases hshort : shortEscape? c with
  | some e => exact allPrinted_of_shortEscape? hshort
  | none =>
    have hverbatim : Verbatim c := h.verbatim hshort
    intro d hd
    rw [Option.getD_none, List.mem_singleton] at hd
    exact hd ▸ hverbatim.2.2

/-- Any other control character is left as it is, and then there is no string. -/
theorem string?_bare (h : ¬ShortlyEscaped c) (cs : List Char) : string? (escapeCharShort c ++ cs) = none := by
  have hcontrol : c.toNat < 0x20 := by
    by_contra hprinted
    exact h fun hcontrol => absurd hcontrol hprinted
  have hshort : shortEscape? c = none := (shortEscape?_eq_none_iff hcontrol).2 fun hlisted => h fun _ => hlisted
  rw [escapeCharShort, hshort, Option.getD_none, List.singleton_append, string?_control hcontrol]

theorem string?_escapeShort (s rest : List Char) : string? (s.flatMap escapeCharShort ++ '"' :: rest) =
    if AllShortlyEscaped s then some (s, rest) else none := by
  induction s with
  | nil => exact string?_quote rest
  | cons c s ih =>
    rw [List.flatMap_cons, List.append_assoc]
    by_cases hc : ShortlyEscaped c
    · rw [string?_escapeCharShort hc, ih]
      by_cases hs : AllShortlyEscaped s
      · rw [if_pos hs, if_pos (allShortlyEscaped_cons.2 ⟨hc, hs⟩)]
        rfl
      · rw [if_neg hs, if_neg fun h => hs (allShortlyEscaped_cons.1 h).2]
        rfl
    · rw [string?_bare hc, if_neg fun h => hc (allShortlyEscaped_cons.1 h).1]

/-! No escapes at all. -/

/-- What an escape takes of a text in front of a quote, from its second character on. -/
theorem unescape?_append {d : Char} {m rest rest' : List Char} (h : unescape? (d :: (m ++ '"' :: rest)) = some (c, rest')) :
    ∃ ds m', m = ds ++ m' ∧ rest' = m' ++ '"' :: rest := by
  obtain ⟨_, ds, hcons, hds⟩ := unescape?_eq_some h
  have htext : m ++ '"' :: rest = ds ++ rest' := (List.cons.inj hcons).2
  rcases List.append_eq_append_iff.1 htext with ⟨ds', hds', hrest⟩ | ⟨m', hm, hrest⟩
  · cases ds' with
    | nil => exact ⟨m, [], by simp, by simpa using hrest.symm⟩
    | cons e ds' =>
      cases (List.cons.inj hrest).1
      exact absurd (hds' ▸ by simp) hds
  · exact ⟨ds, m', hm, hrest⟩

/-- How a text `m` reads that stands between quotes as it is, where a comma and a quote come next: as itself, or as a
shorter text; or it ends with a backslash, which takes the quote into the string. -/
def ReadsAs (m s : List Char) : Prop :=
  (s = m ∧ AllVerbatim m) ∨ s.length < m.length ∨ (m.getLast? = some '\\' ∧ s.getLast? = some ',')

theorem ReadsAs.cons {m : List Char} (h : ReadsAs m s) (hc : Verbatim c) : ReadsAs (c :: m) (c :: s) := by
  rcases h with ⟨rfl, hall⟩ | hshort | ⟨hm, hs⟩
  · exact .inl ⟨rfl, List.forall_mem_cons.2 ⟨hc, hall⟩⟩
  · exact .inr (.inl (Nat.succ_lt_succ hshort))
  · exact .inr (.inr ⟨by simp [List.getLast?_cons, hm], by simp [List.getLast?_cons, hs]⟩)

/-- An escape is longer than the character it stands for. -/
theorem ReadsAs.escape {m : List Char} (h : ReadsAs m s) (d e : Char) (ds : List Char) :
    ReadsAs ('\\' :: d :: (ds ++ m)) (e :: s) := by
  have hlength : m.length + 2 ≤ ('\\' :: d :: (ds ++ m)).length := by
    simp only [List.length_cons, List.length_append]
    omega
  have hcons : (e :: s).length = s.length + 1 := List.length_cons
  rcases h with ⟨rfl, -⟩ | hshort | ⟨hm, hs⟩
  · exact .inr (.inl (by omega))
  · exact .inr (.inl (by omega))
  · exact .inr (.inr ⟨by simp [List.getLast?_cons, hm], by simp [List.getLast?_cons, hs]⟩)

theorem string?_readsAs (m : List Char) {rest rest' : List Char}
    (h : string? (m ++ '"' :: ',' :: '"' :: rest) = some (s, rest')) : ReadsAs m s := by
  -- By the length of the text, of which an escape takes several characters at once.
  induction hlength : m.length using Nat.strong_induction_on generalizing m s with
  | h n ih =>
    subst hlength
    cases m with
    | nil =>
      rw [List.nil_append, string?_quote] at h
      cases h
      exact .inl ⟨rfl, nofun⟩
    | cons c m =>
      rw [List.cons_append] at h
      by_cases hquote : c = '"'
      · subst hquote
        rw [string?_quote] at h
        cases h
        exact .inr (.inl (Nat.succ_pos _))
      by_cases hbackslash : c = '\\'
      · subst hbackslash
        rw [string?_backslash] at h
        cases m with
        | nil =>
          have hcomma : Verbatim ',' := by decide
          rw [List.nil_append, unescape?, Option.bind_some, string?_verbatim hcomma, string?_quote] at h
          cases h
          exact .inr (.inr ⟨rfl, rfl⟩)
        | cons d m =>
          obtain ⟨⟨e, cs⟩, hescape, h⟩ := Option.bind_eq_some_iff.1 h
          obtain ⟨ds, m', rfl, rfl⟩ := unescape?_append hescape
          obtain ⟨⟨s', _⟩, hread, hs⟩ := Option.map_eq_some_iff.1 h
          cases hs
          have hshorter : m'.length < ('\\' :: d :: (ds ++ m')).length := by
            simp only [List.length_cons, List.length_append]
            omega
          exact (ih _ hshorter m' hread rfl).escape d e ds
      by_cases hcontrol : c.toNat < 0x20
      · rw [string?_control hcontrol] at h
        cases h
      have hverbatim : Verbatim c := ⟨hquote, hbackslash, not_lt.1 hcontrol⟩
      rw [string?_verbatim hverbatim] at h
      obtain ⟨⟨s', _⟩, hread, hs⟩ := Option.map_eq_some_iff.1 h
      cases hs
      exact (ih _ (Nat.lt_succ_self _) m hread rfl).cons hverbatim

/-- Only characters that stand for themselves can be left unescaped. -/
theorem allVerbatim_of_string? {m rest rest' : List Char}
    (h : string? (m ++ '"' :: ',' :: '"' :: rest) = some (m, rest')) : AllVerbatim m := by
  rcases string?_readsAs m h with ⟨-, hall⟩ | hshort | ⟨hbackslash, hcomma⟩
  · exact hall
  · exact absurd hshort (Nat.lt_irrefl _)
  · rw [hbackslash] at hcomma
    exact absurd (Option.some.inj hcomma) (by decide)

end ToneScript.Json
