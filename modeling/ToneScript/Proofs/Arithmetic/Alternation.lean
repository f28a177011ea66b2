import Mathlib.Algebra.Ring.Int.Defs
import ToneScript.Proofs.Arithmetic.Grammar

/-! Spans in which operands and operators alternate. A span is cut into parts: operands, signs, operators and
parentheses. Where the parts come in turn and the parentheses match, the span has a parse tree. Where no operand
directly follows another, counting operands and operators decides whether the parts come in turn. -/
namespace ToneScript

/-- A part of an expression. A call is one operand with its arguments. -/
inductive Part where
  | operand (e : Infix)
  | sign (sign : Sign) (mark : Mark)
  | operator (op : Operator) (mark : Mark)
  | left (mark : Mark)
  | right (mark : Mark)

namespace Part

/-- The tokens of a part. -/
def tokens : Part → List Token
  | operand e => e.tokens
  | sign s m => [m.token (.operator s.written)]
  | operator op m => [m.token (.operator op)]
  | left m => [m.token (.symbol (.left .round))]
  | right m => [m.token (.symbol (.right .round))]

/-- Whether a part is what it stands for: an operand of the grammar, an operator that stands between two. -/
def WellFormed : Part → Prop
  | operand e => e.IsAtom ∧ e.Fits topTier
  | operator op _ => op.isPrefix = false
  | sign .. | left _ | right _ => True

/-- How many values a part adds to those that there are. -/
def balance : Part → Int
  | operand _ => 1
  | operator .. => -1
  | sign .. | left _ | right _ => 0

/-- Whether no operand is directly followed by another, nor by a sign or a parenthesis that opens. The flag tells
whether an operand stands before the first part. -/
def Apart : Bool → List Part → Prop
  | _, [] => True
  | afterOperand, operand _ :: ps => afterOperand = false ∧ Apart true ps
  | afterOperand, sign .. :: ps => afterOperand = false ∧ Apart false ps
  | afterOperand, left _ :: ps => afterOperand = false ∧ Apart false ps
  | _, operator .. :: ps => Apart false ps
  | _, right _ :: ps => Apart true ps

/-- Whether parentheses match, with some to be closed that stand before. -/
def Nested : Nat → List Part → Prop
  | depth, [] => depth = 0
  | depth, left _ :: ps => Nested (depth + 1) ps
  | 0, right _ :: _ => False
  | depth + 1, right _ :: ps => Nested depth ps
  | depth, _ :: ps => Nested depth ps

/-- Whether operands and operators come in turn and parentheses match. -/
def Alternate : Bool → Nat → List Part → Prop
  | true, depth, [] => depth = 0
  | false, depth, operand _ :: ps => Alternate true depth ps
  | false, depth, sign .. :: ps => Alternate false depth ps
  | false, depth, left _ :: ps => Alternate false (depth + 1) ps
  | true, depth, operator .. :: ps => Alternate false depth ps
  | true, depth + 1, right _ :: ps => Alternate true depth ps
  | _, _, _ => False

/-- Where no operand directly follows another, no part of a span leaves more than one value, and where one is
left, operands and operators come in turn. -/
theorem Apart.alternate {afterOperand : Bool} {ps : List Part} (h : Apart afterOperand ps) :
    (ps.map balance).sum ≤ (if afterOperand then 0 else 1) ∧
      ∀ depth, Nested depth ps → (ps.map balance).sum = (if afterOperand then 0 else 1) →
        Alternate afterOperand depth ps := by
  induction ps generalizing afterOperand with
  | nil =>
    cases afterOperand with
    | true => exact ⟨by simp, fun depth hnested _ => hnested⟩
    | false => exact ⟨by simp, fun depth _ hsum => by simp at hsum⟩
  | cons p ps ih =>
    rw [List.map_cons, List.sum_cons]
    cases p with
    | operand e =>
      obtain ⟨rfl, hrest⟩ := h
      obtain ⟨hle, halternate⟩ := ih hrest
      simp only [if_true] at hle halternate
      simp only [balance, Bool.false_eq_true, if_false]
      exact ⟨by omega, fun depth hnested hsum => halternate depth hnested (by omega)⟩
    | sign sign m =>
      obtain ⟨rfl, hrest⟩ := h
      obtain ⟨hle, halternate⟩ := ih hrest
      simp only [Bool.false_eq_true, if_false] at hle halternate
      simp only [balance, Bool.false_eq_true, if_false]
      exact ⟨by omega, fun depth hnested hsum => halternate depth hnested (by omega)⟩
    | left m =>
      obtain ⟨rfl, hrest⟩ := h
      obtain ⟨hle, halternate⟩ := ih hrest
      simp only [Bool.false_eq_true, if_false] at hle halternate
      simp only [balance, Bool.false_eq_true, if_false]
      exact ⟨by omega, fun depth hnested hsum => halternate (depth + 1) hnested (by omega)⟩
    | operator op m =>
      obtain ⟨hle, halternate⟩ := ih (show Apart false ps from h)
      simp only [Bool.false_eq_true, if_false] at hle halternate
      simp only [balance]
      cases afterOperand with
      | true =>
        simp only [if_true]
        exact ⟨by omega, fun depth hnested hsum => halternate depth hnested (by omega)⟩
      | false =>
        simp only [Bool.false_eq_true, if_false]
        exact ⟨by omega, fun depth hnested hsum => by omega⟩
    | right m =>
      obtain ⟨hle, halternate⟩ := ih (show Apart true ps from h)
      simp only [if_true] at hle halternate
      simp only [balance]
      cases afterOperand with
      | true =>
        simp only [if_true]
        refine ⟨by omega, fun depth hnested hsum => ?_⟩
        cases depth with
        | zero => exact hnested.elim
        | succ depth => exact halternate depth hnested (by omega)
      | false =>
        simp only [Bool.false_eq_true, if_false]
        exact ⟨by omega, fun depth hnested hsum => by omega⟩

end Part

namespace Infix

/-- A sign before an expression is a sign before its first operand. -/
theorem exists_signed (sign : Sign) (m : Mark) {tier : Nat} (e : Infix) (h : e.Fits tier) :
    ∃ e' : Infix, e'.Fits tier ∧ e'.tokens = m.token (.operator sign.written) :: e.tokens := by
  cases e with
  | const v m' => exact ⟨.prefixed sign m (.const v m'), trivial, rfl⟩
  | name id m' => exact ⟨.prefixed sign m (.name id m'), trivial, rfl⟩
  | call callee m' opening args closing =>
    exact ⟨.prefixed sign m (.call callee m' opening args closing), h, rfl⟩
  | group opening inner closing => exact ⟨.prefixed sign m (.group opening inner closing), h, rfl⟩
  | prefixed sign' m' operand => exact ⟨.prefixed sign m (.prefixed sign' m' operand), h, rfl⟩
  | power left m' right => exact ⟨.prefixed sign m (.power left m' right), h, rfl⟩
  | binary op left m' right =>
    obtain ⟨n, hop, hle, hleft, hright⟩ := h
    obtain ⟨left', hfits, htokens⟩ := exists_signed sign m left hleft
    exact ⟨.binary op left' m' right, ⟨n, hop, hle, hfits, hright⟩, by rw [tokens, htokens]; rfl⟩

theorem IsAtom.fits {atom : Infix} (hatom : atom.IsAtom) {tier : Nat} (h : atom.Fits tier) (tier' : Nat) :
    atom.Fits tier' := by
  cases atom with
  | const | name => trivial
  | call | group => exact h
  | prefixed | power | binary => cases hatom

/-- A power of which an expression is the exponent takes its first operand. -/
theorem exists_raised {atom : Infix} (hatom : atom.IsAtom) (hatomFits : atom.Fits topTier) (m : Mark)
    {tier : Nat} (e : Infix) (h : e.Fits tier) :
    ∃ e' : Infix, e'.Fits tier ∧ e'.tokens = atom.tokens ++ m.token (.operator .exp) :: e.tokens := by
  cases e with
  | const v m' => exact ⟨.power atom m (.const v m'), ⟨hatom, hatomFits, trivial⟩, rfl⟩
  | name id m' => exact ⟨.power atom m (.name id m'), ⟨hatom, hatomFits, trivial⟩, rfl⟩
  | call callee m' opening args closing =>
    exact ⟨.power atom m (.call callee m' opening args closing), ⟨hatom, hatomFits, h⟩, rfl⟩
  | group opening inner closing =>
    exact ⟨.power atom m (.group opening inner closing), ⟨hatom, hatomFits, h⟩, rfl⟩
  | prefixed sign m' operand =>
    exact ⟨.power atom m (.prefixed sign m' operand), ⟨hatom, hatomFits, h⟩, rfl⟩
  | power left m' right => exact ⟨.power atom m (.power left m' right), ⟨hatom, hatomFits, h⟩, rfl⟩
  | binary op left m' right =>
    obtain ⟨n, hop, hle, hleft, hright⟩ := h
    obtain ⟨left', hfits, htokens⟩ := exists_raised hatom hatomFits m left hleft
    refine ⟨.binary op left' m' right, ⟨n, hop, hle, hfits, hright⟩, ?_⟩
    rw [tokens, htokens, tokens, List.append_assoc, List.cons_append]

/-- An operand and an operator before an expression. The operator takes all that binds more tightly than it. -/
theorem exists_joined {atom : Infix} (hatom : atom.IsAtom) (hatomFits : atom.Fits topTier) {op : Operator}
    {n : Nat} (hop : op.tier? = some n) (m : Mark) {tier : Nat} (e : Infix) (h : e.Fits tier) :
    ∃ e' : Infix, e'.Fits (min tier n) ∧ e'.tokens = atom.tokens ++ m.token (.operator op) :: e.tokens := by
  have hjoin (hright : e.Fits (n + 1)) :
      ∃ e' : Infix, e'.Fits (min tier n) ∧ e'.tokens = atom.tokens ++ m.token (.operator op) :: e.tokens :=
    ⟨.binary op atom m e, ⟨n, hop, Nat.min_le_right _ _, hatom.fits hatomFits n, hright⟩, rfl⟩
  cases e with
  | const | name => exact hjoin trivial
  | call | group | prefixed | power => exact hjoin h
  | binary op' left m' right =>
    obtain ⟨n', hop', hle, hleft, hright⟩ := h
    rcases Nat.lt_or_ge n n' with hlt | hge
    · exact hjoin ⟨n', hop', hlt, hleft, hright⟩
    · obtain ⟨left', hfits, htokens⟩ := exists_joined hatom hatomFits hop m left hleft
      rw [Nat.min_eq_left hge] at hfits
      refine ⟨.binary op' left' m' right, ⟨n', hop', Nat.le_trans (Nat.min_le_left _ _) hle, hfits, hright⟩, ?_⟩
      rw [tokens, htokens, tokens, List.append_assoc, List.cons_append]

/-- An operand, an operator and an expression are an expression. -/
theorem exists_binary {atom : Infix} (hatom : atom.IsAtom) (hatomFits : atom.Fits topTier) {op : Operator}
    (hop : op.isPrefix = false) (m : Mark) (e : Infix) (h : e.Fits 0) :
    ∃ e' : Infix, e'.Fits 0 ∧ e'.tokens = atom.tokens ++ m.token (.operator op) :: e.tokens := by
  cases htier : op.tier? with
  | some n =>
    obtain ⟨e', hfits, htokens⟩ := exists_joined hatom hatomFits htier m e h
    rw [Nat.zero_min] at hfits
    exact ⟨e', hfits, htokens⟩
  | none =>
    cases op with
    | exp => exact exists_raised hatom hatomFits m e h
    | neg | not => cases hop
    | add | sub | mul | div | mod | less | greater | lessEqual | greaterEqual | equ | notEqu | approxEqu | and
    | or | xor => cases htier

end Infix

namespace Part

mutual

/-- The front of a list of parts that come in turn has a parse tree. It ends at a parenthesis that closes what
stands before it, or with the list. -/
theorem Alternate.exists_expression {depth : Nat} (ps : List Part) (hwell : ∀ p ∈ ps, p.WellFormed)
    (h : Alternate false depth ps) :
    ∃ (e : Infix) (rest : List Part), e.Fits 0 ∧ ps.flatMap tokens = e.tokens ++ rest.flatMap tokens ∧
      rest.length < ps.length ∧ (∀ p ∈ rest, p.WellFormed) ∧ Alternate true depth rest ∧
      (rest = [] ∨ ∃ m rest', rest = .right m :: rest') := by
  cases ps with
  | nil => cases h
  | cons p ps =>
    obtain ⟨hp, hps⟩ := List.forall_mem_cons.1 hwell
    cases p with
    | operand atom =>
      obtain ⟨e, rest, hfits, htokens, hlength, hrest⟩ := Alternate.exists_expression_from atom hp.1 hp.2 ps hps h
      refine ⟨e, rest, hfits, ?_, Nat.lt_succ_of_le hlength, hrest⟩
      rw [List.flatMap_cons, ← htokens, tokens]
    | sign sign m =>
      obtain ⟨e, rest, hfits, htokens, hlength, hrest⟩ := Alternate.exists_expression ps hps h
      obtain ⟨e', hfits', htokens'⟩ := e.exists_signed sign m hfits
      refine ⟨e', rest, hfits', ?_, Nat.lt_succ_of_lt hlength, hrest⟩
      rw [List.flatMap_cons, htokens, htokens', tokens]
      rfl
    | left opening =>
      obtain ⟨inner, rest, hfits, htokens, hlength, hwell', halternate, hend⟩ := Alternate.exists_expression ps hps h
      obtain rfl | ⟨closing, rest', rfl⟩ := hend
      · cases halternate
      · have hshorter : rest'.length < ps.length := Nat.lt_of_succ_lt hlength
        obtain ⟨e, rest, hfits', htokens', hlength', hrest⟩ :=
          Alternate.exists_expression_from (.group opening inner closing) trivial hfits rest'
            (List.forall_mem_cons.1 hwell').2 halternate
        refine ⟨e, rest, hfits', ?_, ?_, hrest⟩
        · rw [List.flatMap_cons, htokens, List.flatMap_cons, ← htokens', tokens, tokens, Infix.tokens]
          simp
        · rw [List.length_cons]
          omega
    | operator op m | right m => cases h
termination_by ps.length
decreasing_by
  all_goals
    subst_vars
    rw [List.length_cons]
    omega

/-- An expression goes on after its first operand where an operator follows. -/
theorem Alternate.exists_expression_from {depth : Nat} (atom : Infix) (hatom : atom.IsAtom)
    (hatomFits : atom.Fits topTier) (ps : List Part) (hwell : ∀ p ∈ ps, p.WellFormed)
    (h : Alternate true depth ps) :
    ∃ (e : Infix) (rest : List Part), e.Fits 0 ∧
      atom.tokens ++ ps.flatMap tokens = e.tokens ++ rest.flatMap tokens ∧
      rest.length ≤ ps.length ∧ (∀ p ∈ rest, p.WellFormed) ∧ Alternate true depth rest ∧
      (rest = [] ∨ ∃ m rest', rest = .right m :: rest') := by
  cases ps with
  | nil => exact ⟨atom, [], hatom.fits hatomFits 0, rfl, Nat.le_refl _, hwell, h, .inl rfl⟩
  | cons p ps =>
    obtain ⟨hp, hps⟩ := List.forall_mem_cons.1 hwell
    cases p with
    | right m =>
      exact ⟨atom, .right m :: ps, hatom.fits hatomFits 0, rfl, Nat.le_refl _, hwell, h, .inr ⟨m, ps, rfl⟩⟩
    | operator op m =>
      obtain ⟨e, rest, hfits, htokens, hlength, hrest⟩ := Alternate.exists_expression ps hps h
      obtain ⟨e', hfits', htokens'⟩ := Infix.exists_binary hatom hatomFits hp m e hfits
      refine ⟨e', rest, hfits', ?_, Nat.le_succ_of_le (Nat.le_of_lt hlength), hrest⟩
      rw [List.flatMap_cons, htokens, htokens', tokens]
      simp
    | operand e | sign sign m | left m => cases h
termination_by ps.length
decreasing_by
  all_goals
    subst_vars
    rw [List.length_cons]
    omega

end

/-- Parts that come in turn make up an expression. -/
theorem Alternate.exists_tokens_eq {ps : List Part} (hwell : ∀ p ∈ ps, p.WellFormed)
    (h : Alternate false 0 ps) : ∃ e : Infix, e.Fits 0 ∧ e.tokens = ps.flatMap tokens := by
  obtain ⟨e, rest, hfits, htokens, _, _, halternate, hend⟩ := Alternate.exists_expression ps hwell h
  obtain rfl | ⟨m, rest', rfl⟩ := hend
  · refine ⟨e, hfits, ?_⟩
    rw [htokens, List.flatMap_nil, List.append_nil]
  · cases halternate

end Part
end ToneScript
