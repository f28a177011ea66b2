import ToneScript.Token.Span

/-! Scans over brackets that match. A scan passes over what stands between the brackets of a pair. -/
namespace ToneScript.Span

/-- Lists of tokens whose brackets match. -/
inductive Balanced : List Token → Prop where
  | nil : Balanced []
  | plain {t : Token} {ts : List Token} (hleft : t.isLeft = false) (hright : t.isRight = false)
      (rest : Balanced ts) : Balanced (t :: ts)
  | pair {b : Bracket} {opening closing : Token} {inner ts : List Token}
      (hopening : opening.kind = .symbol (.left b)) (hclosing : closing.kind = .symbol (.right b))
      (inside : Balanced inner) (rest : Balanced ts) : Balanced (opening :: (inner ++ closing :: ts))

namespace Balanced

theorem append {ts us : List Token} (hts : Balanced ts) (hus : Balanced us) : Balanced (ts ++ us) := by
  induction hts with
  | nil => exact hus
  | plain hleft hright _ ih => exact .plain hleft hright ih
  | pair hopening hclosing hinside _ _ ih =>
    rw [List.cons_append, List.append_assoc]
    exact .pair hopening hclosing hinside ih

end Balanced

theorem isSymbol_left {t : Token} (h : t.isLeft = false) (b : Bracket) : t.isSymbol (.left b) = false := by
  obtain ⟨kind, pos, lexeme⟩ := t
  cases kind with
  | symbol s => cases s <;> first | rfl | cases h
  | ident | const | operator | eof => rfl

theorem isSymbol_right {t : Token} (h : t.isRight = false) (b : Bracket) : t.isSymbol (.right b) = false := by
  obtain ⟨kind, pos, lexeme⟩ := t
  cases kind with
  | symbol s => cases s <;> first | rfl | cases h
  | ident | const | operator | eof => rfl

theorem closingIndex?_left {t : Token} {b : Bracket} (h : t.isSymbol (.left b) = true) (depth : Nat)
    (ts : List Token) : closingIndex? b depth (t :: ts) = (closingIndex? b (depth + 1) ts).map (· + 1) := by
  rw [closingIndex?.eq_def]
  simp only [h, if_true]

theorem closingIndex?_plain {t : Token} {b : Bracket} (hleft : t.isSymbol (.left b) = false)
    (hright : t.isSymbol (.right b) = false) (depth : Nat) (ts : List Token) :
    closingIndex? b depth (t :: ts) = (closingIndex? b depth ts).map (· + 1) := by
  rw [closingIndex?.eq_def]
  simp only [hleft, hright, Bool.false_eq_true, if_false]

theorem closingIndex?_right {t : Token} {b : Bracket} (h : t.kind = .symbol (.right b)) (depth : Nat)
    (ts : List Token) : closingIndex? b (depth + 1) (t :: ts) = (closingIndex? b depth ts).map (· + 1) := by
  rw [closingIndex?, Token.isSymbol, Token.isSymbol, h]
  simp

/-- The search for the closing bracket of a pair passes over balanced tokens. -/
theorem closingIndex?_append {b : Bracket} {ts : List Token} (h : Balanced ts) (depth : Nat) (rest : List Token) :
    closingIndex? b depth (ts ++ rest) = (closingIndex? b depth rest).map (· + ts.length) := by
  induction h generalizing depth rest with
  | nil => simp
  | plain hleft hright _ ih =>
    rw [List.cons_append, closingIndex?_plain (isSymbol_left hleft _) (isSymbol_right hright _), ih]
    simp [Function.comp_def, Nat.add_assoc]
  | @pair b' opening closing inner ts hopening hclosing _ _ ihinner ih =>
    have hpair : closingIndex? b depth (opening :: (inner ++ closing :: (ts ++ rest))) =
        (closingIndex? b depth (ts ++ rest)).map (· + (inner.length + 2)) := by
      by_cases hb : b' = b
      · subst hb
        have hopen : opening.isSymbol (.left b') = true := by rw [Token.isSymbol, hopening, beq_self_eq_true]
        rw [closingIndex?_left hopen, ihinner, closingIndex?_right hclosing, Option.map_map, Option.map_map]
        congr 1
        funext i
        simp
        omega
      · have hopen : opening.isSymbol (.left b) = false := by simp [Token.isSymbol, hopening, hb]
        have hopen' : opening.isSymbol (.right b) = false := by simp [Token.isSymbol, hopening]
        have hclose : closing.isSymbol (.left b) = false := by simp [Token.isSymbol, hclosing]
        have hclose' : closing.isSymbol (.right b) = false := by simp [Token.isSymbol, hclosing, hb]
        rw [closingIndex?_plain hopen hopen', ihinner, closingIndex?_plain hclose hclose', Option.map_map,
          Option.map_map]
        congr 1
        funext i
        simp
        omega
    rw [List.cons_append, List.append_assoc, List.cons_append, hpair, ih, Option.map_map]
    congr 1
    funext i
    simp
    omega

/-- The index of the bracket that closes a pair with balanced tokens inside. -/
theorem matching?_pair {b : Bracket} (opening closing : Token) {inner : List Token}
    (hopening : opening.kind = .symbol (.left b)) (hclosing : closing.kind = .symbol (.right b))
    (h : Balanced inner) (rest : List Token) :
    matching? (opening :: (inner ++ closing :: rest)) = some (inner.length + 1) := by
  have hnot : closing.isSymbol (.left b) = false := by simp [Token.isSymbol, hclosing]
  have hclose : closing.isSymbol (.right b) = true := by simp [Token.isSymbol, hclosing]
  rw [matching?, hopening]
  simp only
  rw [closingIndex?_append h, closingIndex?, hnot, hclose]
  simp

theorem depthAfter_plain {t : Token} (hleft : t.isLeft = false) (hright : t.isRight = false) (depth : Nat) :
    depthAfter depth t = depth := by
  rw [depthAfter, hleft, hright]
  rfl

theorem depthAfter_left {t : Token} {b : Bracket} (h : t.kind = .symbol (.left b)) (depth : Nat) :
    depthAfter depth t = depth + 1 := by
  rw [depthAfter, Token.isLeft, h]
  rfl

theorem depthAfter_right {t : Token} {b : Bracket} (h : t.kind = .symbol (.right b)) (depth : Nat) :
    depthAfter depth t = depth - 1 := by
  rw [depthAfter, Token.isLeft, Token.isRight, h]
  rfl

/-- Inside brackets a search passes over balanced tokens. -/
theorem findFrom?_inside (p : Token → Bool) {ts : List Token} (h : Balanced ts) {depth : Nat}
    (hdepth : 0 < depth) (rest : List Token) :
    findFrom? p depth (ts ++ rest) = (findFrom? p depth rest).map (· + ts.length) := by
  have houtside : ∀ depth : Nat, 0 < depth → (depth == 0) = false := fun depth h => by
    simpa using Nat.ne_of_gt h
  induction h generalizing depth rest with
  | nil => simp
  | plain hleft hright _ ih =>
    rw [List.cons_append, findFrom?, houtside depth hdepth, depthAfter_plain hleft hright, ih hdepth]
    simp [Function.comp_def, Nat.add_assoc]
  | pair hopening hclosing _ _ ihinner ih =>
    rw [List.cons_append, List.append_assoc, List.cons_append, findFrom?, houtside depth hdepth,
      depthAfter_left hopening, ihinner (Nat.succ_pos _), findFrom?, houtside _ (Nat.succ_pos _),
      depthAfter_right hclosing, Nat.succ_sub_one, ih hdepth]
    simp only [Bool.false_and, Bool.false_eq_true, if_false, Option.map_map]
    congr 1
    funext i
    simp
    omega

/-- A search passes over a token outside all brackets that it is not for. -/
theorem findFrom?_plain {p : Token → Bool} {t : Token} (hp : p t = false) (hleft : t.isLeft = false)
    (hright : t.isRight = false) (rest : List Token) :
    findFrom? p 0 (t :: rest) = (findFrom? p 0 rest).map (· + 1) := by
  rw [findFrom?, hp, depthAfter_plain hleft hright]
  rfl

/-- A search passes over a pair of brackets. -/
theorem findFrom?_pair {p : Token → Bool} {b : Bracket} {opening closing : Token} {inner : List Token}
    (hopening : opening.kind = .symbol (.left b)) (hclosing : closing.kind = .symbol (.right b))
    (h : Balanced inner) (hp : p opening = false) (rest : List Token) :
    findFrom? p 0 (opening :: (inner ++ closing :: rest)) =
      (findFrom? p 0 rest).map (· + (inner.length + 2)) := by
  rw [findFrom?, hp, depthAfter_left hopening, findFrom?_inside p h (Nat.succ_pos 0), findFrom?,
    depthAfter_right hclosing]
  simp only [Bool.and_false, Bool.false_eq_true, if_false, Option.map_map]
  rw [show ((0 + 1 == 0 && p closing) = false) from rfl]
  simp only [Bool.false_eq_true, if_false, Option.map_map]
  congr 1
  funext i
  simp
  omega

/-- What is before a token of a list, and what is after it. -/
theorem eq_append_of_getElem? {ts : List Token} {t : Token} {i : Nat} (h : ts[i]? = some t) :
    ts = ts.take i ++ t :: ts.drop (i + 1) := by
  obtain ⟨hlt, rfl⟩ := List.getElem?_eq_some_iff.1 h
  rw [← List.drop_eq_getElem_cons hlt, List.take_append_drop]

/-- What is before the first of the tokens that a list has from an index on. -/
theorem eq_take_append_of_drop {ts us : List Token} {t : Token} {n : Nat} (h : ts.drop n = t :: us) :
    ts = ts.take n ++ t :: us ∧ (ts.take n).length = n := by
  have hlt : n < ts.length := by
    refine Nat.lt_of_not_le fun hge => ?_
    rw [List.drop_eq_nil_of_le hge] at h
    cases h
  refine ⟨?_, List.length_take_of_le (Nat.le_of_lt hlt)⟩
  rw [← h, List.take_append_drop]

/-- What is before a token with a property, where no other token has it. -/
theorem eq_take_of_append {ts us vs : List Token} {t : Token} {p : Token → Bool} {n : Nat} (hts : ts = us ++ t :: vs)
    (ht : p t = true) (honly : ∀ i < ts.length, ts[i]?.any p = true → i = n) : us = ts.take n := by
  have hlength : us.length = n := by
    refine honly us.length (by rw [hts]; simp) ?_
    rw [hts, List.getElem?_append_right (Nat.le_refl _), Nat.sub_self]
    exact ht
  rw [hts, List.take_left' hlength]

/-- What a search finds, between what is before it and what is after it. -/
theorem eq_append_of_findFrom? {p : Token → Bool} {depth : Nat} {ts : List Token} {i : Nat}
    (h : findFrom? p depth ts = some i) : ∃ t, ts = ts.take i ++ t :: ts.drop (i + 1) ∧ p t = true := by
  induction ts generalizing depth i with
  | nil => cases h
  | cons t ts ih =>
    rw [findFrom?] at h
    split at h
    · rename_i hfound
      cases h
      exact ⟨t, rfl, (Bool.and_eq_true _ _ ▸ hfound).2⟩
    · obtain ⟨j, hj, rfl⟩ := Option.map_eq_some_iff.1 h
      obtain ⟨u, heq, hu⟩ := ih hj
      exact ⟨u, congrArg (t :: ·) heq, hu⟩

theorem getElem?_of_findFrom? {p : Token → Bool} {depth : Nat} {ts : List Token} {i : Nat}
    (h : findFrom? p depth ts = some i) : ∃ t, ts[i]? = some t ∧ p t = true := by
  obtain ⟨t, hts, ht⟩ := eq_append_of_findFrom? h
  have hlt : i < ts.length := findFrom?_lt h
  have hget : ts[i]? = some ts[i] := List.getElem?_eq_getElem hlt
  have heq := List.append_cancel_left ((eq_append_of_getElem? hget).symm.trans hts)
  cases heq
  exact ⟨_, hget, ht⟩

theorem getElem?_of_find? {s : Symbol} {ts : List Token} {i : Nat} (h : find? s ts = some i) :
    ∃ t, ts[i]? = some t ∧ t.kind = .symbol s := by
  obtain ⟨t, hget, ht⟩ := getElem?_of_findFrom? h
  exact ⟨t, hget, of_decide_eq_true ht⟩

theorem eq_append_of_closingIndex? {b : Bracket} {depth : Nat} {ts : List Token} {i : Nat}
    (h : closingIndex? b depth ts = some i) :
    ∃ t, ts = ts.take i ++ t :: ts.drop (i + 1) ∧ t.isSymbol (.right b) = true := by
  induction ts generalizing depth i with
  | nil => cases h
  | cons t ts ih =>
    have step {d : Nat} (h : (closingIndex? b d ts).map (· + 1) = some i) :
        ∃ u, t :: ts = (t :: ts).take i ++ u :: (t :: ts).drop (i + 1) ∧ u.isSymbol (.right b) = true := by
      obtain ⟨j, hj, rfl⟩ := Option.map_eq_some_iff.1 h
      obtain ⟨u, heq, hu⟩ := ih hj
      exact ⟨u, congrArg (t :: ·) heq, hu⟩
    unfold closingIndex? at h
    split at h
    · exact step h
    · split at h
      · rename_i hright
        split at h
        · cases h
          exact ⟨t, rfl, hright⟩
        · exact step h
      · exact step h

/-- The bracket that closes the first token, between what is inside the pair and what is after it. -/
theorem eq_pair_of_matching? {opening : Token} {ts : List Token} {b : Bracket} {i : Nat}
    (hopening : opening.kind = .symbol (.left b)) (h : matching? (opening :: ts) = some i) :
    ∃ inner closing rest, ts = inner ++ closing :: rest ∧ closing.kind = .symbol (.right b) ∧
      ((opening :: ts).take i).drop 1 = inner ∧ (opening :: ts).drop (i + 1) = rest := by
  rw [matching?, hopening] at h
  obtain ⟨j, hj, rfl⟩ := Option.map_eq_some_iff.1 h
  obtain ⟨closing, heq, hclosing⟩ := eq_append_of_closingIndex? hj
  exact ⟨_, closing, _, heq, of_decide_eq_true hclosing, rfl, rfl⟩

/-- What is before the first separator outside all brackets, and what is after it. -/
theorem eq_append_separator {s : Symbol} {t : Token} {ts : List Token} {stop : Nat}
    (h : (find? s (t :: ts)).getD (ts.length + 1) = stop) :
    (t :: ts = (t :: ts).take stop ∧ ts.drop stop = []) ∨
      ∃ separator, separator.kind = .symbol s ∧ t :: ts = (t :: ts).take stop ++ separator :: ts.drop stop := by
  cases hfind : find? s (t :: ts) with
  | none =>
    rw [hfind] at h
    left
    rw [← h]
    exact ⟨(List.take_length).symm, List.drop_eq_nil_of_le (Nat.le_succ _)⟩
  | some i =>
    rw [hfind] at h
    cases h
    right
    obtain ⟨separator, heq, hseparator⟩ := eq_append_of_findFrom? hfind
    exact ⟨separator, of_decide_eq_true hseparator, heq⟩

end ToneScript.Span
