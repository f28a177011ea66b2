import Mathlib.Order.Bounds.Basic
import ToneScript.Proofs.Text.Brackets
import ToneScript.Token.Stream

/-! The two scans over brackets and the nesting of the brackets. The search for a closing bracket counts
brackets of one kind, the search for a symbol counts those of all kinds and passes over one that closes
nothing; where brackets are properly nested both follow the nesting. -/
namespace ToneScript

namespace Span

/-- The two brackets of a pair by their indices: of one kind, with balanced tokens between them. -/
structure Partners (ts : List Token) (i j : Nat) : Prop where
  lt : i < j
  kind : ∃ b opening closing, (ts[i]? = some opening ∧ opening.kind = .symbol (.left b)) ∧
    ts[j]? = some closing ∧ closing.kind = .symbol (.right b)
  inside : Balanced ((ts.take j).drop (i + 1))

/-- An index between the brackets of no pair. -/
def Outside (ts : List Token) (i : Nat) : Prop :=
  ∀ ⦃a b⦄, Partners ts a b → ¬(a < i ∧ i < b)

/-- An index that holds a symbol. -/
def Holds (ts : List Token) (sym : Symbol) (i : Nat) : Prop :=
  ∃ t, ts[i]? = some t ∧ t.kind = .symbol sym

variable {ts us : List Token} {i j k n : Nat}

theorem partners_drop : Partners (ts.drop n) i j ↔ Partners ts (n + i) (n + j) := by
  have hinside : ((ts.drop n).take j).drop (i + 1) = (ts.take (n + j)).drop (n + i + 1) := by
    rw [List.take_drop, List.drop_drop, Nat.add_assoc]
  constructor <;> rintro ⟨hlt, hkind, h⟩
  · exact ⟨by omega, by simpa only [List.getElem?_drop] using hkind, hinside ▸ h⟩
  · exact ⟨by omega, by simpa only [List.getElem?_drop] using hkind, hinside ▸ h⟩

theorem holds_drop {sym : Symbol} : Holds (ts.drop n) sym i ↔ Holds ts sym (n + i) := by
  simp only [Holds, List.getElem?_drop]

namespace Partners

theorem append_right (h : Partners ts i j) : Partners (ts ++ us) i j := by
  obtain ⟨b, opening, closing, ⟨hi, hopening⟩, hj, hclosing⟩ := h.kind
  obtain ⟨hjlt, -⟩ := List.getElem?_eq_some_iff.1 hj
  have hilt : i < ts.length := Nat.lt_trans h.lt hjlt
  refine ⟨h.lt, ⟨b, opening, closing, ⟨?_, hopening⟩, ?_, hclosing⟩, ?_⟩
  · rwa [List.getElem?_append_left hilt]
  · rwa [List.getElem?_append_left hjlt]
  · rw [List.take_append_of_le_length (Nat.le_of_lt hjlt)]
    exact h.inside

/-- What a pair is made of, between what is before it and what is after it. -/
theorem drop_eq (h : Partners ts i j) : ∃ b opening closing, opening.kind = .symbol (.left b) ∧
    closing.kind = .symbol (.right b) ∧
    ts.drop i = opening :: ((ts.take j).drop (i + 1) ++ closing :: ts.drop (j + 1)) := by
  obtain ⟨b, opening, closing, ⟨hi, hopening⟩, hj, hclosing⟩ := h.kind
  refine ⟨b, opening, closing, hopening, hclosing, ?_⟩
  have hlength : (ts.take j).length = j := List.length_take_of_le (Nat.le_of_lt (List.getElem?_eq_some_iff.1 hj).1)
  have hlt := h.lt
  have hopen : ts.drop i = opening :: ts.drop (i + 1) := by
    obtain ⟨hlt, rfl⟩ := List.getElem?_eq_some_iff.1 hi
    exact List.drop_eq_getElem_cons hlt
  rw [hopen]
  conv_lhs => rw [eq_append_of_getElem? hj, List.drop_append_of_le_length (by omega)]

/-- The search for a closing bracket finds the partner. -/
theorem matching? (h : Partners ts i j) : Span.matching? (ts.drop i) = some (j - i) := by
  obtain ⟨b, opening, closing, hopening, hclosing, hdrop⟩ := h.drop_eq
  obtain ⟨-, -, closing', -, hj, -⟩ := h.kind
  have hjlt := (List.getElem?_eq_some_iff.1 hj).1
  have hlt := h.lt
  rw [hdrop, matching?_pair opening closing hopening hclosing h.inside, List.length_drop,
    List.length_take_of_le (Nat.le_of_lt hjlt)]
  congr 1
  omega

/-- An opening bracket has one partner. -/
theorem unique (h : Partners ts i j) (h' : Partners ts i k) : k = j := by
  have heq := Option.some.inj (h'.matching?.symm.trans h.matching?)
  have hlt := h.lt
  have hlt' := h'.lt
  omega

/-- The brackets around balanced tokens. -/
theorem pair {b : Bracket} {opening closing : Token} {inner : List Token}
    (hopening : opening.kind = .symbol (.left b)) (hclosing : closing.kind = .symbol (.right b))
    (h : Balanced inner) : Partners (opening :: (inner ++ closing :: ts)) 0 (inner.length + 1) where
  lt := Nat.succ_pos _
  kind := ⟨b, opening, closing, ⟨rfl, hopening⟩, by simp, hclosing⟩
  inside := by simpa using h

end Partners

theorem drop_pair {opening closing : Token} {inner : List Token} :
    (opening :: (inner ++ closing :: ts)).drop (i + (inner.length + 2)) = ts.drop i := by
  have h : opening :: (inner ++ closing :: ts) = opening :: (inner ++ [closing]) ++ ts := by simp
  have hlength : inner.length + 2 = (opening :: (inner ++ [closing])).length := by simp
  rw [h, hlength, Nat.add_comm, List.drop_length_add_append]

/-- Within balanced tokens every opening bracket has a partner. -/
theorem Balanced.exists_partner (h : Balanced ts) {t : Token} (hget : ts[i]? = some t) (hleft : t.isLeft = true) :
    ∃ j, Partners ts i j := by
  induction h generalizing i with
  | nil => cases hget
  | @plain u us hplain _ _ ih =>
    cases i with
    | zero =>
      cases hget
      rw [hplain] at hleft
      cases hleft
    | succ i =>
      obtain ⟨j, hj⟩ := ih hget
      have hj' : Partners (u :: us) (1 + i) (1 + j) := partners_drop.1 hj
      exact ⟨_, by rwa [Nat.add_comm 1 i] at hj'⟩
  | @pair b opening closing inner us hopening hclosing inside _ ihinner ih =>
    obtain rfl | hinner | rfl | hrest : i = 0 ∨ (0 < i ∧ i ≤ inner.length) ∨ i = inner.length + 1 ∨
        inner.length + 2 ≤ i := by omega
    · exact ⟨_, .pair hopening hclosing inside⟩
    · obtain ⟨i, rfl⟩ : ∃ n, i = n + 1 := ⟨i - 1, by omega⟩
      rw [List.getElem?_cons_succ, List.getElem?_append_left (by omega)] at hget
      obtain ⟨j, hj⟩ := ihinner hget
      have hj' : Partners (opening :: (inner ++ closing :: us)) (1 + i) (1 + j) := partners_drop.1 hj.append_right
      exact ⟨_, by rwa [Nat.add_comm 1 i] at hj'⟩
    · rw [List.getElem?_cons_succ, List.getElem?_append_right (Nat.le_refl _), Nat.sub_self] at hget
      cases hget
      rw [Token.isLeft, hclosing] at hleft
      cases hleft
    · have hdrop : (opening :: (inner ++ closing :: us)).drop (inner.length + 2) = us := by
        rw [← Nat.zero_add (inner.length + 2), drop_pair, List.drop_zero]
      obtain ⟨n, rfl⟩ := Nat.exists_eq_add_of_le hrest
      rw [← List.getElem?_drop, hdrop] at hget
      obtain ⟨j, hj⟩ := ih hget
      exact ⟨inner.length + 2 + j, partners_drop.1 (by rwa [hdrop])⟩

/-- From an index outside all brackets on, the pairs are those of the rest. -/
theorem Outside.drop (h : Outside ts n) : Outside (ts.drop n) i ↔ Outside ts (n + i) := by
  constructor
  · intro hi a b hab hbetween
    by_cases ha : n ≤ a
    · obtain ⟨a, rfl⟩ := Nat.exists_eq_add_of_le ha
      have hlt := hab.lt
      obtain ⟨b, rfl⟩ := Nat.exists_eq_add_of_le (show n ≤ b by omega)
      exact hi (partners_drop.2 hab) (by omega)
    · exact h hab (by omega)
  · intro hi a b hab hbetween
    exact hi (partners_drop.1 hab) (by omega)

/-- No pair reaches over the end of balanced tokens. -/
theorem Balanced.outside_length (h : Balanced ts) : Outside (ts ++ us) ts.length := by
  intro a b hab hbetween
  obtain ⟨kind, opening, -, ⟨ha, hopening⟩, -⟩ := hab.kind
  rw [List.getElem?_append_left hbetween.1] at ha
  obtain ⟨j, hj⟩ := h.exists_partner ha (by rw [Token.isLeft, hopening]; rfl)
  have hbj : b = j := hj.append_right.unique hab
  obtain ⟨-, -, closing, -, hclosing, -⟩ := hj.kind
  have hlt := (List.getElem?_eq_some_iff.1 hclosing).1
  omega

theorem Balanced.outside_append (h : Balanced ts) : Outside (ts ++ us) (ts.length + i) ↔ Outside us i := by
  rw [← h.outside_length.drop, List.drop_left]

theorem outside_plain {t : Token} (hleft : t.isLeft = false) (hright : t.isRight = false) :
    Outside (t :: ts) (i + 1) ↔ Outside ts i := by
  have hplain : Balanced [t] := .plain hleft hright .nil
  have h : Outside (t :: ts) (1 + i) ↔ Outside ts i := hplain.outside_append
  rwa [Nat.add_comm 1 i] at h

section Pair

variable {b : Bracket} {opening closing : Token} {inner : List Token}

theorem holds_pair {sym : Symbol} :
    Holds (opening :: (inner ++ closing :: ts)) sym (i + (inner.length + 2)) ↔ Holds ts sym i := by
  rw [← Nat.add_zero (i + _), ← holds_drop, drop_pair, holds_drop, Nat.add_zero]

theorem outside_pair (hopening : opening.kind = .symbol (.left b)) (hclosing : closing.kind = .symbol (.right b))
    (h : Balanced inner) :
    Outside (opening :: (inner ++ closing :: ts)) (i + (inner.length + 2)) ↔ Outside ts i := by
  have hlength : (opening :: (inner ++ [closing])).length = inner.length + 2 := by simp
  have hpair : Balanced (opening :: (inner ++ [closing])) := .pair hopening hclosing h .nil
  have h : Outside (opening :: (inner ++ [closing]) ++ ts) ((opening :: (inner ++ [closing])).length + i) ↔
      Outside ts i := hpair.outside_append
  rwa [hlength, Nat.add_comm _ i, List.cons_append, List.append_assoc, List.singleton_append] at h

/-- An index outside all brackets that is on or after a pair is that of one of its brackets, or after it. -/
theorem Outside.eq_or_eq_or (hopening : opening.kind = .symbol (.left b))
    (hclosing : closing.kind = .symbol (.right b)) (h : Balanced inner)
    (houtside : Outside (opening :: (inner ++ closing :: ts)) i) :
    i = 0 ∨ i = inner.length + 1 ∨ ∃ j, i = j + (inner.length + 2) := by
  have hnot := houtside (.pair hopening hclosing h)
  obtain hi | hi | hi : i = 0 ∨ i = inner.length + 1 ∨ inner.length + 2 ≤ i := by omega
  · exact .inl hi
  · exact .inr (.inl hi)
  · exact .inr (.inr ⟨i - (inner.length + 2), by omega⟩)

end Pair

/-- What the least element of a set of numbers is, if there is one. -/
def IsFirst (S : Set Nat) : Option Nat → Prop
  | some i => IsLeast S i
  | none => S = ∅

theorem IsFirst.shift {S T : Set Nat} {o : Option Nat} (h : IsFirst T o)
    (hmem : ∀ i, i ∈ S ↔ ∃ j ∈ T, i = j + n) : IsFirst S (o.map (· + n)) := by
  cases o with
  | none =>
    refine Set.eq_empty_of_forall_notMem fun i hi => ?_
    obtain ⟨j, hj, -⟩ := (hmem i).1 hi
    rw [show T = ∅ from h] at hj
    exact hj
  | some j =>
    refine ⟨(hmem _).2 ⟨j, h.1, rfl⟩, fun i hi => ?_⟩
    obtain ⟨k, hk, rfl⟩ := (hmem i).1 hi
    exact Nat.add_le_add_right (h.2 hk) n

/-- Within balanced tokens the search for a symbol finds the first one outside all brackets. -/
theorem Balanced.isFirst_find? (h : Balanced ts) {sym : Symbol} (hsym : sym.bracket? = none) :
    IsFirst {i | Holds ts sym i ∧ Outside ts i} (find? sym ts) := by
  have hbracket {t : Token} {s : Symbol} (ht : t.kind = .symbol s) (hs : s.bracket? ≠ none) :
      t.kind ≠ .symbol sym := fun heq => by
    cases ht.symm.trans heq
    exact hs hsym
  induction h with
  | nil =>
    refine Set.eq_empty_of_forall_notMem ?_
    rintro i ⟨⟨t, hget, -⟩, -⟩
    cases hget
  | @plain t us hleft hright _ ih =>
    by_cases ht : t.kind = .symbol sym
    · rw [show find? sym (t :: us) = some 0 by simp [find?, findFrom?, Token.isSymbol, ht]]
      exact ⟨⟨⟨t, rfl, ht⟩, fun _ _ _ hbetween => Nat.not_lt_zero _ hbetween.1⟩, fun _ _ => Nat.zero_le _⟩
    · rw [find?, findFrom?_plain (p := (·.isSymbol sym)) (beq_eq_false_iff_ne.2 ht) hleft hright]
      refine ih.shift fun i => ⟨?_, ?_⟩
      · rintro ⟨⟨u, hget, hu⟩, houtside⟩
        cases i with
        | zero =>
          cases hget
          exact absurd hu ht
        | succ i => exact ⟨i, ⟨⟨u, hget, hu⟩, (outside_plain hleft hright).1 houtside⟩, rfl⟩
      · rintro ⟨j, ⟨hholds, houtside⟩, rfl⟩
        exact ⟨hholds, (outside_plain hleft hright).2 houtside⟩
  | @pair b opening closing inner us hopening hclosing inside _ _ ih =>
    have hfirst := hbracket hopening (by simp [Symbol.bracket?])
    have hlast := hbracket hclosing (by simp [Symbol.bracket?])
    rw [find?, findFrom?_pair (p := (·.isSymbol sym)) hopening hclosing inside (beq_eq_false_iff_ne.2 hfirst)]
    refine ih.shift fun i => ⟨?_, ?_⟩
    · rintro ⟨hholds, houtside⟩
      obtain rfl | rfl | ⟨j, rfl⟩ := houtside.eq_or_eq_or hopening hclosing inside
      · obtain ⟨t, hget, ht⟩ := hholds
        cases hget
        exact absurd ht hfirst
      · obtain ⟨t, hget, ht⟩ := hholds
        rw [List.getElem?_cons_succ, List.getElem?_append_right (Nat.le_refl _), Nat.sub_self] at hget
        cases hget
        exact absurd ht hlast
      · exact ⟨j, ⟨holds_pair.1 hholds, (outside_pair hopening hclosing inside).1 houtside⟩, rfl⟩
    · rintro ⟨j, ⟨hholds, houtside⟩, rfl⟩
      exact ⟨holds_pair.2 hholds, (outside_pair hopening hclosing inside).2 houtside⟩

/-- From an index outside all brackets on, tokens are balanced, but that index may hold the closing
bracket of a pair. -/
theorem Balanced.drop_outside (h : Balanced ts) (houtside : Outside ts n) :
    Balanced (ts.drop n) ∨
      ∃ b closing rest, closing.kind = .symbol (.right b) ∧ ts.drop n = closing :: rest ∧ Balanced rest := by
  induction h generalizing n with
  | nil => exact .inl (by simpa using .nil)
  | @plain u us hleft hright hrest ih =>
    cases n with
    | zero => exact .inl (.plain hleft hright hrest)
    | succ n => exact ih ((outside_plain hleft hright).1 houtside)
  | @pair b opening closing inner us hopening hclosing inside hrest _ ih =>
    obtain rfl | rfl | ⟨n, rfl⟩ := houtside.eq_or_eq_or hopening hclosing inside
    · exact .inl (.pair hopening hclosing inside hrest)
    · exact .inr ⟨b, closing, us, hclosing, by simp, hrest⟩
    · rw [drop_pair]
      exact ih ((outside_pair hopening hclosing inside).1 houtside)

/-- A search that starts outside all brackets of balanced tokens finds the first symbol from there on that
is outside them. -/
theorem Balanced.isFirst_find?_drop (h : Balanced ts) {sym : Symbol} (hsym : sym.bracket? = none)
    (houtside : Outside ts n) :
    IsFirst {i | n ≤ i ∧ Holds ts sym i ∧ Outside ts i} ((find? sym (ts.drop n)).map (· + n)) := by
  have hbalanced {n : Nat} (hrest : Balanced (ts.drop n)) (houtside : Outside ts n) :
      IsFirst {i | n ≤ i ∧ Holds ts sym i ∧ Outside ts i} ((find? sym (ts.drop n)).map (· + n)) := by
    refine (hrest.isFirst_find? hsym).shift fun i => ⟨?_, ?_⟩
    · rintro ⟨hle, hholds, hi⟩
      obtain ⟨j, rfl⟩ := Nat.exists_eq_add_of_le hle
      exact ⟨j, ⟨holds_drop.2 hholds, houtside.drop.2 hi⟩, Nat.add_comm _ _⟩
    · rintro ⟨j, ⟨hholds, hj⟩, rfl⟩
      rw [Nat.add_comm]
      exact ⟨Nat.le_add_right _ _, holds_drop.1 hholds, houtside.drop.1 hj⟩
  obtain hrest | ⟨b, closing, rest, hclosing, hdrop, hrest⟩ := h.drop_outside houtside
  · exact hbalanced hrest houtside
  -- A closing bracket at the start does not count, and nothing opens there.
  have hget : ts[n]? = some closing := by rw [← Nat.add_zero n, ← List.getElem?_drop, hdrop]; rfl
  have hnext : ts.drop (n + 1) = rest := by rw [← List.drop_drop, hdrop]; rfl
  have hkind : closing.kind ≠ .symbol sym := fun heq => by
    cases hclosing.symm.trans heq
    cases hsym
  have houtside' : Outside ts (n + 1) := by
    intro i j hij hbetween
    obtain ⟨kind, opening, -, ⟨hi, hopening⟩, -⟩ := hij.kind
    obtain rfl | hlt : i = n ∨ i < n := by omega
    · cases hi.symm.trans hget
      cases hopening.symm.trans hclosing
    · exact houtside hij ⟨hlt, by omega⟩
  have hset : {i | n ≤ i ∧ Holds ts sym i ∧ Outside ts i} = {i | n + 1 ≤ i ∧ Holds ts sym i ∧ Outside ts i} := by
    ext i
    refine ⟨fun ⟨hle, hholds, hi⟩ => ⟨Nat.lt_of_le_of_ne hle ?_, hholds, hi⟩,
      fun ⟨hle, hholds, hi⟩ => ⟨Nat.le_of_succ_le hle, hholds, hi⟩⟩
    rintro rfl
    obtain ⟨t, ht, hsymbol⟩ := hholds
    cases ht.symm.trans hget
    exact hkind hsymbol
  have hfind : find? sym (ts.drop n) = (find? sym (ts.drop (n + 1))).map (· + 1) := by
    rw [hdrop, hnext, find?, findFrom?, Token.isSymbol, beq_eq_false_iff_ne.2 hkind, depthAfter_right hclosing]
    rfl
  rw [hset, hfind, Option.map_map]
  have hstep := hbalanced (hnext ▸ hrest) houtside'
  rwa [show ((· + n) ∘ (· + 1) : Nat → Nat) = (· + (n + 1)) by funext i; simp; omega]

end Span

namespace TokenStream

/-- The tokens of the span. -/
def span (s : TokenStream) : List Token :=
  (s.tokens.take s.last).drop s.first

/-- The two brackets of a pair of the span, by their indices. -/
def Partners (s : TokenStream) (i j : Nat) : Prop :=
  s.first ≤ i ∧ Span.Partners (s.tokens.take s.last) i j

/-- An index between the brackets of no pair of the span. -/
def Outside (s : TokenStream) (i : Nat) : Prop :=
  ∀ ⦃a b⦄, s.Partners a b → ¬(a < i ∧ i < b)

/-- An index of the span that holds a symbol. -/
def Holds (s : TokenStream) (sym : Symbol) (i : Nat) : Prop :=
  ∃ t, s.at? i = some t ∧ t.kind = .symbol sym

variable {s : TokenStream} {i j : Nat}

theorem at?_add (s : TokenStream) (i : Nat) : s.at? (s.first + i) = s.span[i]? := by
  rw [at?, span, List.getElem?_drop, List.getElem?_take]
  simp

theorem partners_add : s.Partners (s.first + i) (s.first + j) ↔ Span.Partners s.span i j := by
  rw [Partners, span, Span.partners_drop]
  exact and_iff_right (Nat.le_add_right _ _)

theorem holds_add {sym : Symbol} : s.Holds sym (s.first + i) ↔ Span.Holds s.span sym i := by
  rw [Holds, Span.Holds, at?_add]

theorem le_of_at? {t : Token} (h : s.at? i = some t) : s.first ≤ i := by
  rw [at?] at h
  split at h
  · rename_i hspan
    exact hspan.1
  · cases h

theorem exists_of_partners (h : s.Partners i j) :
    ∃ a b, i = s.first + a ∧ j = s.first + b ∧ Span.Partners s.span a b := by
  obtain ⟨a, rfl⟩ := Nat.exists_eq_add_of_le h.1
  have hlt := h.2.lt
  obtain ⟨b, rfl⟩ := Nat.exists_eq_add_of_le (show s.first ≤ j by omega)
  exact ⟨a, b, rfl, rfl, partners_add.1 h⟩

theorem outside_add : s.Outside (s.first + i) ↔ Span.Outside s.span i := by
  constructor
  · intro h a b hab hbetween
    exact h (partners_add.2 hab) (by omega)
  · intro h a b hab hbetween
    obtain ⟨c, d, rfl, rfl, hcd⟩ := exists_of_partners hab
    exact h hcd (by omega)

theorem findMatching?_add (s : TokenStream) (i : Nat) :
    s.findMatching? (s.first + i) = (Span.matching? (s.span.drop i)).map (· + (s.first + i)) := by
  rw [findMatching?, span, List.drop_drop]

theorem findSymbol?_eq (s : TokenStream) (sym : Symbol) (i : Nat) :
    s.findSymbol? sym i =
      ((Span.find? sym (s.span.drop (i - s.first))).map (· + (i - s.first))).map (· + s.first) := by
  rw [findSymbol?, span, List.drop_drop, Option.map_map, show s.first + (i - s.first) = max i s.first by omega]
  congr 1
  funext j
  simp
  omega

/-- In a span whose brackets are properly nested every opening bracket has one partner, and the search for
its closing bracket finds that one. A search for a symbol that starts outside all brackets finds the first
such symbol from there on that is outside all brackets, and nothing if there is none. -/
theorem scans_follow_nesting (s : TokenStream) (h : Span.Balanced s.span) :
    (∀ i opening, s.at? i = some opening → opening.isLeft = true →
      ∃ j, s.Partners i j ∧ (∀ k, s.Partners i k → k = j) ∧ s.findMatching? i = some j) ∧
    ∀ (sym : Symbol) (start : Nat), sym.bracket? = none → s.Outside start →
      Span.IsFirst {i | start ≤ i ∧ s.Holds sym i ∧ s.Outside i} (s.findSymbol? sym start) := by
  constructor
  · intro i opening hget hleft
    obtain ⟨i, rfl⟩ := Nat.exists_eq_add_of_le (le_of_at? hget)
    rw [at?_add] at hget
    obtain ⟨j, hj⟩ := h.exists_partner hget hleft
    refine ⟨s.first + j, partners_add.2 hj, fun k hk => ?_, ?_⟩
    · obtain ⟨a, b, ha, rfl, hab⟩ := exists_of_partners hk
      cases Nat.add_left_cancel ha
      rw [hj.unique hab]
    · have hlt := hj.lt
      rw [findMatching?_add, hj.matching?, Option.map_some]
      congr 1
      omega
  · intro sym start hsym houtside
    rw [findSymbol?_eq]
    have hstart : Span.Outside s.span (start - s.first) := by
      obtain hle | hlt : s.first ≤ start ∨ start < s.first := by omega
      · rw [← outside_add, Nat.add_sub_cancel' hle]
        exact houtside
      · rw [Nat.sub_eq_zero_of_le (Nat.le_of_lt hlt)]
        exact fun a b _ hbetween => Nat.not_lt_zero _ hbetween.1
    refine (h.isFirst_find?_drop hsym hstart).shift fun i => ⟨?_, ?_⟩
    · rintro ⟨hle, hholds, hi⟩
      obtain ⟨t, hget, ht⟩ := hholds
      obtain ⟨i, rfl⟩ := Nat.exists_eq_add_of_le (le_of_at? hget)
      exact ⟨i, ⟨by omega, holds_add.1 ⟨t, hget, ht⟩, outside_add.1 hi⟩, Nat.add_comm _ _⟩
    · rintro ⟨i, ⟨hle, hholds, hi⟩, rfl⟩
      rw [Nat.add_comm]
      exact ⟨by omega, holds_add.2 hholds, outside_add.2 hi⟩

/-- The span `([,]),` between two brackets that have no partner. -/
def nestedSpan : TokenStream :=
  let symbols : List Symbol :=
    [.right .curly, .left .round, .left .square, .comma, .right .square, .right .round, .comma, .left .curly]
  (ofTokens (symbols.map fun s => ⟨.symbol s, .start, s.text⟩)).slice 1 7

theorem scans_follow_nesting_nestedSpan :
    Span.Balanced nestedSpan.span ∧
      (∃ j, nestedSpan.Partners 1 j ∧ (∀ k, nestedSpan.Partners 1 k → k = j) ∧
        nestedSpan.findMatching? 1 = some j) ∧
      Symbol.comma.bracket? = none ∧ nestedSpan.Outside 1 ∧
      IsLeast {i | 1 ≤ i ∧ nestedSpan.Holds .comma i ∧ nestedSpan.Outside i} 6 := by
  have hcomma : Span.Balanced ((nestedSpan.span.drop 2).take 1) := .plain rfl rfl .nil
  have hsquare : Span.Balanced ((nestedSpan.span.drop 1).take 3) := .pair (b := .square) rfl rfl hcomma .nil
  have hspan : Span.Balanced nestedSpan.span := .pair (b := .round) rfl rfl hsquare (.plain rfl rfl .nil)
  have houtside : nestedSpan.Outside 1 := fun a b hab hbetween =>
    Nat.not_le_of_lt hbetween.1 hab.1
  have h := scans_follow_nesting nestedSpan hspan
  have hopening : nestedSpan.at? 1 = some ⟨.symbol (.left .round), .start, "("⟩ := by decide +kernel
  refine ⟨hspan, h.1 1 _ hopening rfl, rfl, houtside, ?_⟩
  have hfirst := h.2 .comma 1 rfl houtside
  rwa [show nestedSpan.findSymbol? .comma 1 = some 6 by decide +kernel] at hfirst

end TokenStream

end ToneScript
