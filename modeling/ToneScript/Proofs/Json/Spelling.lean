import ToneScript.Diagnostic.Render
import ToneScript.Proofs.Json.Strings
import ToneScript.Proofs.Text.Pattern

/-! Values that are written on one line are read again, whatever item, member or bracket comes next. -/
namespace ToneScript.Json

variable {c : Char} {s cs rest t : List Char} {v : Value}

theorem skipBlanks_cons (h : isBlank c = false) (cs : List Char) : skipBlanks (c :: cs) = c :: cs := by
  simp [skipBlanks, h]

/-! Numbers. -/

/-- Whether no number goes on with what comes next. -/
def IsEnd (rest : List Char) : Prop :=
  ∀ c, rest.head? = some c → c = ',' ∨ c = ']' ∨ c = '\x7d'

theorem isEnd_nil : IsEnd [] :=
  nofun

theorem isEnd_cons (h : c = ',' ∨ c = ']' ∨ c = '\x7d') (cs : List Char) : IsEnd (c :: cs) := by
  intro d hd
  cases hd
  exact h

theorem isDigit_of_mem_toDigits {n : Nat} (h : c ∈ Nat.toDigits 10 n) : c.isDigit = true :=
  Nat.isDigit_of_mem_toDigits (by decide) (by decide) h

theorem allPrinted_toDigits (n : Nat) : AllPrinted (Nat.toDigits 10 n) := by
  intro c hc
  have hdigit := isDigit_of_mem_toDigits hc
  simp only [Char.isDigit, Bool.and_eq_true, decide_eq_true_eq] at hdigit
  exact le_trans (by decide) hdigit.1

/-- No decimal but zero starts with a zero. -/
theorem eq_zero_of_head?_toDigits {n : Nat} (h : (Nat.toDigits 10 n).head? = some '0') : n = 0 := by
  induction n using Nat.strong_induction_on with
  | h n ih =>
    by_cases hn : n < 10
    · rw [Nat.toDigits_of_lt_base hn, List.head?_cons, Option.some.injEq] at h
      exact Nat.digitChar_eq_zero.1 h
    · have hhead : (Nat.toDigits 10 (n / 10)).head? = some '0' := by
        rwa [Nat.toDigits_of_base_le (by decide) (by omega), List.head?_append_of_ne_nil _ Nat.toDigits_ne_nil] at h
      have hzero := ih (n / 10) (by omega) hhead
      omega

theorem digits?_toDigits (n : Nat) (h : IsEnd rest) :
    digits? (Nat.toDigits 10 n ++ rest) = some (Nat.toDigits 10 n, rest) := by
  have hstop (c : Char) (hc : rest.head? = some c) : c.isDigit = false := by
    rcases h c hc with rfl | rfl | rfl <;> decide
  have hspan : (Nat.toDigits 10 n ++ rest).takeWhile Char.isDigit = Nat.toDigits 10 n :=
    Pattern.takeWhile_append_of_head (fun _ => isDigit_of_mem_toDigits) hstop
  simp only [digits?, hspan, if_neg Nat.toDigits_ne_nil, List.drop_left]

theorem whole?_toDigits (n : Nat) (h : IsEnd rest) :
    whole? (Nat.toDigits 10 n ++ rest) = some (Nat.toDigits 10 n, rest) := by
  have hzero : ¬((Nat.toDigits 10 n).head? = some '0' ∧ Nat.toDigits 10 n ≠ ['0']) := by
    rintro ⟨hhead, hne⟩
    rw [eq_zero_of_head?_toDigits hhead] at hne
    exact hne rfl
  simp only [whole?, digits?_toDigits n h, Option.bind_eq_bind, Option.bind_some, if_neg hzero]

theorem magnitude?_toDigits (n : Nat) (h : IsEnd rest) :
    magnitude? (Nat.toDigits 10 n ++ rest) = some ((n : ℚ), rest) := by
  have hfraction : fraction? rest = some ([], rest) := by
    cases rest with
    | nil => rfl
    | cons c cs => rcases h c rfl with rfl | rfl | rfl <;> rfl
  have hexponent : exponent? rest = some (0, rest) := by
    cases rest with
    | nil => rfl
    | cons c cs => rcases h c rfl with rfl | rfl | rfl <;> rfl
  simp [magnitude?, whole?_toDigits n h, hfraction, hexponent]

/-- A digit is no blank, no bracket and no sign. -/
theorem front_of_isDigit (h : c.isDigit = true) : isBlank c = false ∧ c ≠ ']' ∧ c ≠ '-' := by
  refine ⟨?_, ?_, ?_⟩
  · by_contra hc
    simp only [isBlank, Bool.not_eq_false, Bool.or_eq_true, beq_iff_eq] at hc
    rcases hc with ((rfl | rfl) | rfl) | rfl <;> revert h <;> decide
  · rintro rfl
    revert h
    decide
  · rintro rfl
    revert h
    decide

theorem number?_toDigits (n : Nat) (h : IsEnd rest) : number? (Nat.toDigits 10 n ++ rest) = some ((n : ℚ), rest) := by
  have hmagnitude := magnitude?_toDigits n h
  obtain ⟨c, cs, hcs⟩ := List.exists_cons_of_ne_nil (Nat.toDigits_ne_nil (n := n) (b := 10))
  have hdigit : c.isDigit = true := isDigit_of_mem_toDigits (n := n) (by simp [hcs])
  rw [hcs, List.cons_append] at hmagnitude ⊢
  rw [number?.eq_2 _ fun cs' heq => (front_of_isDigit hdigit).2.2 (List.cons.inj heq).1]
  exact hmagnitude

/-! Values. -/

/-- Whether a text without control characters stands for a value in front of any text with which it ends. -/
structure Spells (v : Value) (t : List Char) : Prop where
  printed : AllPrinted t
  front : ∃ c cs, t = c :: cs ∧ isBlank c = false ∧ c ≠ ']'
  read (rest : List Char) : IsEnd rest → value? (t ++ rest) = some (v, rest)

theorem Spells.skipBlanks_append (h : Spells v t) (rest : List Char) : skipBlanks (t ++ rest) = t ++ rest := by
  obtain ⟨c, cs, rfl, hblank, -⟩ := h.front
  exact skipBlanks_cons hblank (cs ++ rest)

theorem Spells.decode (h : Spells v t) : decode t = some v := by
  have hskip := h.skipBlanks_append []
  have hread := h.read [] isEnd_nil
  rw [List.append_nil] at hskip hread
  rw [Json.decode, hskip, hread]
  rfl

theorem value?_of_decode (h : Json.decode t = some v) : ∃ rest, value? (skipBlanks t) = some (v, rest) := by
  rw [Json.decode, Option.bind_eq_bind, Option.bind_eq_some_iff] at h
  obtain ⟨⟨v', rest⟩, hvalue, h⟩ := h
  dsimp only at h
  split at h
  · exact ⟨rest, Option.some.inj h ▸ hvalue⟩
  · cases h

theorem spells_null : Spells .null "null".toList := by
  refine ⟨by decide, ⟨'n', "ull".toList, by decide, by decide, by decide⟩, fun rest _ => ?_⟩
  have htext : "null".toList ++ rest = 'n' :: 'u' :: 'l' :: 'l' :: rest := rfl
  rw [htext, value?]
  rfl

/-- A text between brackets. -/
theorem allPrinted_bracketed {left right : Char} (hleft : 0x20 ≤ left.toNat) (hright : 0x20 ≤ right.toNat)
    (h : AllPrinted t) : AllPrinted (left :: (t ++ [right])) := by
  intro c hc
  simp only [List.mem_cons, List.mem_append, List.not_mem_nil, or_false] at hc
  rcases hc with rfl | hc | rfl
  · exact hleft
  · exact h c hc
  · exact hright

theorem value?_quote (cs : List Char) :
    value? ('"' :: cs) = (string? cs).map fun r => (.string (String.ofList r.1), r.2) := by
  rw [value?]

/-- A text between quotes. -/
def quoted (body : List Char) : List Char :=
  '"' :: (body ++ ['"'])

theorem spells_string {s body : List Char} (hread : ∀ rest, string? (body ++ '"' :: rest) = some (s, rest))
    (hprinted : AllPrinted body) : Spells (.string (String.ofList s)) (quoted body) := by
  refine ⟨allPrinted_bracketed (by decide) (by decide) hprinted, ⟨'"', _, rfl, by decide, by decide⟩, fun rest _ => ?_⟩
  rw [quoted, List.cons_append, List.append_assoc, List.singleton_append, value?_quote, hread, Option.map_some]

theorem spells_verbatim {s : String} (h : AllVerbatim s.toList) : Spells (.string s) (quoted s.toList) := by
  have hspells := spells_string (string?_append h) h.printed
  rwa [String.ofList_toList] at hspells

theorem spells_quote (s : String) : Spells (.string s) (Issue.quote s).toList := by
  have htext : (Issue.quote s).toList = quoted (s.toList.flatMap escapeChar) := by
    simp [Issue.quote, escape, quoted]
  have hprinted : AllPrinted (s.toList.flatMap escapeChar) := allPrinted_flatMap fun c _ => allPrinted_escapeChar c
  have hspells := spells_string (string?_escape s.toList) hprinted
  rwa [htext, ← String.ofList_toList (s := s), String.toList_ofList]

theorem spells_escapeShort {s : String} (h : AllShortlyEscaped s.toList) :
    Spells (.string s) (quoted (s.toList.flatMap escapeCharShort)) := by
  have hread (rest : List Char) : string? (s.toList.flatMap escapeCharShort ++ '"' :: rest) = some (s.toList, rest) := by
    rw [string?_escapeShort, if_pos h]
  have hprinted : AllPrinted (s.toList.flatMap escapeCharShort) :=
    allPrinted_flatMap fun c hc => allPrinted_escapeCharShort (h c hc)
  have hspells := spells_string hread hprinted
  rwa [String.ofList_toList] at hspells

/-- A digit or a sign starts no value but a number. -/
theorem value?_number (h : c.isDigit = true ∨ c = '-') (cs : List Char) :
    value? (c :: cs) = (number? (c :: cs)).map fun r => (.number r.1, r.2) := by
  have hother (d : Char) (hd : d.isDigit = false ∧ d ≠ '-') (cs' : List Char) : c :: cs = d :: cs' → False := by
    rintro heq
    cases (List.cons.inj heq).1
    rcases h with h | h
    · exact absurd h (by simp [hd.1])
    · exact hd.2 h
  rw [value?.eq_7 _ (hother _ (by decide)) (hother _ (by decide)) (hother _ (by decide)) (hother _ (by decide))
    (hother _ (by decide)) (hother _ (by decide))]

theorem spells_natural (n : Nat) : Spells (.number n) (toString n).toList := by
  rw [Nat.toString_eq_ofList_toDigits, String.toList_ofList]
  obtain ⟨c, cs, hcs⟩ := List.exists_cons_of_ne_nil (Nat.toDigits_ne_nil (n := n) (b := 10))
  have hdigit : c.isDigit = true := isDigit_of_mem_toDigits (n := n) (by simp [hcs])
  obtain ⟨hblank, hclose, -⟩ := front_of_isDigit hdigit
  refine ⟨allPrinted_toDigits n, ⟨c, cs, hcs, hblank, hclose⟩, fun rest hrest => ?_⟩
  have hread := number?_toDigits n hrest
  rw [hcs, List.cons_append] at hread ⊢
  rw [value?_number (.inl hdigit), hread, Option.map_some]

theorem spells_integer (z : Int) : Spells (.number z) (toString z).toList := by
  have htext : toString z = if 0 ≤ z then z.toNat.repr else "-" ++ (-z).toNat.repr := Int.repr_eq_if
  rw [htext]
  split
  · rename_i hz
    obtain ⟨n, rfl⟩ := Int.eq_ofNat_of_zero_le hz
    exact spells_natural n
  · rename_i hz
    obtain ⟨n, hn⟩ := Int.eq_ofNat_of_zero_le (a := -z) (by omega)
    have hvalue : (z : ℚ) = -(n : ℚ) := by
      rw [← neg_neg z, hn]
      simp
    have hdigits : ("-" ++ n.repr).toList = '-' :: Nat.toDigits 10 n := by
      simp [Nat.repr_eq_ofList_toDigits]
    have hprinted : AllPrinted ('-' :: Nat.toDigits 10 n) :=
      List.forall_mem_cons.2 ⟨by decide, allPrinted_toDigits n⟩
    rw [hn, hvalue, Int.toNat_natCast, hdigits]
    refine ⟨hprinted, ⟨'-', _, rfl, by decide, by decide⟩, fun rest hrest => ?_⟩
    rw [List.cons_append, value?_number (.inr rfl), number?, magnitude?_toDigits n hrest]
    rfl

/-! Lists of items or members. -/

/-- Whether a text stands for a part of a list in front of any text with which it ends. `list?` reads the list from a part
on, and `after?` from behind a part. -/
structure IsPart {α : Type} (list? : List Char → Option (List α × List Char))
    (after? : α → List Char → Option (List α × List Char)) (x : α) (t : List Char) : Prop where
  printed : AllPrinted t
  front : ∃ c cs, t = c :: cs ∧ isBlank c = false
  read (rest : List Char) : IsEnd rest → list? (t ++ rest) = after? x rest

section List

variable {α : Type} {list? : List Char → Option (List α × List Char)}
  {after? : α → List Char → Option (List α × List Char)} {parts : List (α × List Char)}

/-- Parts as they are written one after another, with commas between them. -/
def joined (parts : List (α × List Char)) : List Char :=
  [','].intercalate (parts.map Prod.snd)

@[simp]
theorem joined_singleton (p : α × List Char) : joined [p] = p.2 :=
  List.intercalate_singleton

theorem joined_cons_cons (p q : α × List Char) (parts : List (α × List Char)) :
    joined (p :: q :: parts) = p.2 ++ ',' :: joined (q :: parts) := by
  simp [joined, List.intercalate_cons_cons]

theorem exists_joined_eq (p : α × List Char) (parts : List (α × List Char)) : ∃ cs, joined (p :: parts) = p.2 ++ cs := by
  cases parts with
  | nil => exact ⟨[], by simp⟩
  | cons q parts => exact ⟨_, joined_cons_cons p q parts⟩

theorem allPrinted_joined (h : ∀ p ∈ parts, IsPart list? after? p.1 p.2) : AllPrinted (joined parts) := by
  induction parts with
  | nil => exact nofun
  | cons p parts ih =>
    have hfirst := (h p List.mem_cons_self).printed
    have hothers := ih fun q hq => h q (List.mem_cons_of_mem p hq)
    cases parts with
    | nil =>
      intro c hc
      rw [joined_singleton] at hc
      exact hfirst c hc
    | cons q parts =>
      intro c hc
      rw [joined_cons_cons, List.mem_append, List.mem_cons] at hc
      rcases hc with hc | rfl | hc
      · exact hfirst c hc
      · decide
      · exact hothers c hc

/-- A list is read part by part, by induction on its parts. -/
theorem read_joined {close : Char} (hend : close = ',' ∨ close = ']' ∨ close = '\x7d')
    (hclose : ∀ x cs, after? x (close :: cs) = some ([x], cs))
    (hcomma : ∀ x cs, after? x (',' :: cs) = (list? (skipBlanks cs)).map fun r => (x :: r.1, r.2))
    (h : ∀ p ∈ parts, IsPart list? after? p.1 p.2) (hparts : parts ≠ []) (rest : List Char) :
    list? (joined parts ++ close :: rest) = some (parts.map Prod.fst, rest) := by
  induction parts with
  | nil => exact absurd rfl hparts
  | cons p parts ih =>
    have hfirst := h p List.mem_cons_self
    have hothers : ∀ q ∈ parts, IsPart list? after? q.1 q.2 := fun q hq => h q (List.mem_cons_of_mem p hq)
    cases parts with
    | nil =>
      rw [joined_singleton, hfirst.read _ (isEnd_cons hend rest), hclose]
      rfl
    | cons q parts =>
      have hskip : skipBlanks (joined (q :: parts) ++ close :: rest) = joined (q :: parts) ++ close :: rest := by
        obtain ⟨c, cs, htext, hblank⟩ := (hothers q List.mem_cons_self).front
        obtain ⟨cs', hjoined⟩ := exists_joined_eq q parts
        rw [hjoined, htext]
        exact skipBlanks_cons hblank _
      rw [joined_cons_cons, List.append_assoc, List.cons_append, hfirst.read _ (isEnd_cons (.inl rfl) _), hcomma, hskip,
        ih hothers (List.cons_ne_nil q parts)]
      rfl

end List

/-! Arrays. -/

theorem items?_of_value? (h : value? cs = some (v, rest)) (hrest : rest.length ≤ cs.length) :
    items? cs = itemsAfter? v rest := by
  rw [items?, h]
  exact if_pos hrest

theorem itemsAfter?_close (v : Value) (cs : List Char) : itemsAfter? v (']' :: cs) = some ([v], cs) := by
  rw [itemsAfter?.eq_def, skipBlanks_cons (by decide)]
  rfl

theorem itemsAfter?_comma (v : Value) (cs : List Char) :
    itemsAfter? v (',' :: cs) = (items? (skipBlanks cs)).map fun r => (v :: r.1, r.2) := by
  rw [itemsAfter?.eq_def, skipBlanks_cons (by decide)]
  rfl

theorem Spells.item (h : Spells v t) : IsPart items? itemsAfter? v t := by
  obtain ⟨c, cs, htext, hblank, -⟩ := h.front
  refine ⟨h.printed, ⟨c, cs, htext, hblank⟩, fun rest hrest => ?_⟩
  have hforward : rest.length ≤ (t ++ rest).length := by simp
  exact items?_of_value? (h.read rest hrest) hforward

theorem value?_emptyArray (rest : List Char) : value? ('[' :: ']' :: rest) = some (.array [], rest) := by
  rw [value?, skipBlanks_cons (by decide)]
  rfl

theorem value?_items (hblank : isBlank c = false) (hclose : c ≠ ']') (cs : List Char) :
    value? ('[' :: c :: cs) = (items? (c :: cs)).map fun r => (.array r.1, r.2) := by
  rw [value?, skipBlanks_cons hblank]
  split
  · rename_i heq
    exact absurd (List.cons.inj heq).1 hclose
  · rfl

theorem spells_array {items : List (Value × List Char)} (h : ∀ i ∈ items, Spells i.1 i.2) :
    Spells (.array (items.map Prod.fst)) ('[' :: (joined items ++ [']'])) := by
  have hparts : ∀ i ∈ items, IsPart items? itemsAfter? i.1 i.2 := fun i hi => (h i hi).item
  refine ⟨allPrinted_bracketed (by decide) (by decide) (allPrinted_joined hparts), ⟨'[', _, rfl, by decide, by decide⟩,
    fun rest _ => ?_⟩
  rw [List.cons_append, List.append_assoc, List.singleton_append]
  cases items with
  | nil => exact value?_emptyArray rest
  | cons i items =>
    have hread := read_joined (.inr (.inl rfl)) itemsAfter?_close itemsAfter?_comma hparts (List.cons_ne_nil i items) rest
    obtain ⟨c, cs, htext, hblank, hclose⟩ := (h i List.mem_cons_self).front
    obtain ⟨cs', hjoined⟩ := exists_joined_eq i items
    rw [hjoined, htext, List.cons_append, List.cons_append] at hread ⊢
    rw [value?_items hblank hclose, hread]
    rfl

/-! Objects. -/

/-- A member of an object as it is written. -/
def memberText (name : String) (t : List Char) : List Char :=
  '"' :: (name.toList ++ '"' :: ':' :: t)

theorem member?_memberText {name : String} (h : AllVerbatim name.toList) (hc : isBlank c = false) (cs : List Char) :
    member? (memberText name (c :: cs)) = (value? (c :: cs)).map fun r => ((name, r.1), r.2) := by
  have hname := string?_append h (':' :: c :: cs)
  have hcolon : skipBlanks (':' :: c :: cs) = ':' :: c :: cs := skipBlanks_cons (by decide) (c :: cs)
  have hvalue : skipBlanks (c :: cs) = c :: cs := skipBlanks_cons hc cs
  rw [memberText, member?]
  split
  · rename_i hnone
    rw [hname] at hnone
    cases hnone
  · rename_i name' after hsome
    rw [hname] at hsome
    cases hsome
    split
    · rename_i rest hrest
      cases hcolon.symm.trans hrest
      rw [hvalue, String.ofList_toList]
    · rename_i hother
      exact absurd hcolon (hother _)

theorem members?_of_member? {m : String × Value} (h : member? cs = some (m, rest)) (hrest : rest.length ≤ cs.length) :
    members? cs = membersAfter? m rest := by
  rw [members?, h]
  exact if_pos hrest

theorem members?_quoted {name : String} (h : AllVerbatim name.toList) (body rest : List Char) :
    members? (memberText name (quoted body ++ rest)) =
      (string? (body ++ '"' :: rest)).bind fun r => membersAfter? (name, .string (String.ofList r.1)) r.2 := by
  have hquoted : quoted body ++ rest = '"' :: (body ++ '"' :: rest) := by simp [quoted]
  have hmember := member?_memberText h (c := '"') (by decide) (body ++ '"' :: rest)
  rw [value?_quote] at hmember
  rw [hquoted]
  cases hread : string? (body ++ '"' :: rest) with
  | none =>
    rw [hread] at hmember
    rw [members?, hmember]
    rfl
  | some r =>
    have hshorter := length_string?_lt hread
    rw [hread] at hmember
    refine members?_of_member? hmember ?_
    simp only [memberText, List.length_cons, List.length_append] at hshorter ⊢
    omega

theorem membersAfter?_close (m : String × Value) (cs : List Char) : membersAfter? m ('\x7d' :: cs) = some ([m], cs) := by
  rw [membersAfter?.eq_def, skipBlanks_cons (by decide)]
  rfl

theorem membersAfter?_comma (m : String × Value) (cs : List Char) :
    membersAfter? m (',' :: cs) = (members? (skipBlanks cs)).map fun r => (m :: r.1, r.2) := by
  rw [membersAfter?.eq_def, skipBlanks_cons (by decide)]
  rfl

theorem eq_cons_of_membersAfter? {m : String × Value} {ms : List (String × Value)}
    (h : membersAfter? m cs = some (ms, rest)) : ∃ ms', ms = m :: ms' := by
  rw [membersAfter?.eq_def] at h
  split at h
  · cases h
    exact ⟨[], rfl⟩
  · obtain ⟨⟨ms', cs'⟩, -, hms⟩ := Option.map_eq_some_iff.1 h
    cases hms
    exact ⟨ms', rfl⟩
  · cases h

theorem Spells.member (h : Spells v t) {name : String} (hname : AllVerbatim name.toList) :
    IsPart members? membersAfter? (name, v) (memberText name t) := by
  have hprinted : AllPrinted (memberText name t) := by
    intro c hc
    simp only [memberText, List.mem_cons, List.mem_append] at hc
    rcases hc with rfl | hc | rfl | rfl | hc
    · decide
    · exact hname.printed c hc
    · decide
    · decide
    · exact h.printed c hc
  refine ⟨hprinted, ⟨'"', _, rfl, by decide⟩, fun rest hrest => ?_⟩
  have hread := h.read rest hrest
  obtain ⟨c, cs, htext, hblank, -⟩ := h.front
  have happend : memberText name t ++ rest = memberText name (c :: (cs ++ rest)) := by simp [memberText, htext]
  rw [htext, List.cons_append] at hread
  have hmember := member?_memberText hname hblank (cs ++ rest)
  rw [hread, ← happend] at hmember
  have hforward : rest.length ≤ (memberText name t ++ rest).length := by simp
  exact members?_of_member? hmember hforward

theorem value?_members (cs : List Char) :
    value? ('\x7b' :: '"' :: cs) = (members? ('"' :: cs)).map fun r => (.object r.1, r.2) := by
  rw [value?, skipBlanks_cons (by decide)]
  rfl

/-- Whether a member comes with a text that stands for it: its name as it is, and a text of its value. -/
def IsMember (m : (String × Value) × List Char) : Prop :=
  AllVerbatim m.1.1.toList ∧ ∃ t, m.2 = memberText m.1.1 t ∧ Spells m.1.2 t

theorem Spells.isMember (h : Spells v t) {name : String} (hname : AllVerbatim name.toList) :
    IsMember ((name, v), memberText name t) :=
  ⟨hname, t, rfl, h⟩

theorem IsMember.isPart {m : (String × Value) × List Char} (h : IsMember m) : IsPart members? membersAfter? m.1 m.2 := by
  obtain ⟨hname, t, htext, hspells⟩ := h
  exact htext ▸ hspells.member hname

/-- A member before another one. -/
theorem IsMember.members?_append {m : (String × Value) × List Char} (h : IsMember m) (cs : List Char) :
    members? (m.2 ++ ',' :: '"' :: cs) = (members? ('"' :: cs)).map fun r => (m.1 :: r.1, r.2) := by
  rw [h.isPart.read _ (isEnd_cons (.inl rfl) _), membersAfter?_comma, skipBlanks_cons (by decide)]

theorem spells_object {members : List ((String × Value) × List Char)} (hmembers : members ≠ [])
    (h : ∀ m ∈ members, IsMember m) :
    Spells (.object (members.map Prod.fst)) ('\x7b' :: (joined members ++ ['\x7d'])) := by
  have hparts : ∀ m ∈ members, IsPart members? membersAfter? m.1 m.2 := fun m hm => (h m hm).isPart
  refine ⟨allPrinted_bracketed (by decide) (by decide) (allPrinted_joined hparts), ⟨'\x7b', _, rfl, by decide, by decide⟩,
    fun rest _ => ?_⟩
  have hread := read_joined (.inr (.inr rfl)) membersAfter?_close membersAfter?_comma hparts hmembers rest
  obtain ⟨m, members, rfl⟩ := List.exists_cons_of_ne_nil hmembers
  obtain ⟨-, t, htext, -⟩ := h m List.mem_cons_self
  obtain ⟨cs, hjoined⟩ := exists_joined_eq m members
  rw [List.cons_append, List.append_assoc, List.singleton_append]
  rw [hjoined, htext, memberText, List.cons_append, List.cons_append] at hread ⊢
  rw [value?_members, hread, Option.map_some]

end ToneScript.Json
