import ToneScript.Outline.OfTokens
import ToneScript.Proofs.Syntax.Balance

/-! Reading the outline of a source comes to an end. What is read is read in rounds, each of which takes tokens away from
the front, and in parts, each of which has fewer tokens than the whole. The functions that read are taken apart here into
plans, which ask for the parts and put them together. -/
namespace ToneScript

/-- What can be read. -/
inductive Parse.Kind where
  | items
  | definition
  | expression
  | entries
  | terms
  | arguments

/-- What is read, and the tokens it is read from. The entries of a block and the arguments of a call are read from the
token on that stands before them: the bracket that opens them, or the last token of the round before. -/
structure Parse where
  kind : Parse.Kind
  span : List Token
  /-- Whether an operand stands before the terms. -/
  afterOperand : Bool := false

namespace Parse

/-- What comes of reading. -/
@[reducible]
def Kind.Yield : Kind → Type
  | items => List ItemOutline
  | definition => FunctionOutline
  | expression => Outline
  | entries => List EntryOutline
  | terms => List Term
  | arguments => List ArgumentOutline

/-- Which kinds hand all their tokens on to another kind. -/
def Kind.rank : Kind → Nat
  | items | expression => 1
  | definition | entries | terms | arguments => 0

/-- What something is read for. -/
inductive Role where
  /-- The next round of the same. -/
  | round
  /-- The same tokens, or some from their front, by the rule that they begin with. -/
  | dispatch
  | assignment
  | body
  | entry
  | guard
  | condition
  | branch
  | call
  | argument

/-- One step of reading, which asks for what else must be read, and ends with what comes of it. -/
inductive Plan (α : Type) : Type where
  | done (a : α)
  | ask (role : Role) (p : Parse) (next : p.kind.Yield → Plan α)

namespace Plan

variable {α β : Type}

def bind (x : Plan α) (f : α → Plan β) : Plan β :=
  match x with
  | done a => f a
  | ask role p next => ask role p fun answer => (next answer).bind f

instance : Monad Plan where
  pure := done
  bind := bind

/-- Asks for one thing. -/
def request (role : Role) (p : Parse) : Plan p.kind.Yield :=
  ask role p done

/-- What comes of a plan when all that it asks for is answered. -/
def run (answer : (p : Parse) → p.kind.Yield) : Plan α → α
  | done a => a
  | ask _ p next => (next (answer p)).run answer

/-- What comes of a plan when some of what it asks for is answered. -/
def run? (answer? : (p : Parse) → Option p.kind.Yield) : Plan α → Option α
  | done a => some a
  | ask _ p next => (answer? p).bind fun answer => (next answer).run? answer?

/-- Whether all that a plan asks for satisfies `P`, whatever the answers are. -/
def Each (P : Role → Parse → Prop) : Plan α → Prop
  | done _ => True
  | ask role p next => P role p ∧ ∀ answer, (next answer).Each P

variable {answer : (p : Parse) → p.kind.Yield} {P : Role → Parse → Prop} {role : Role} {p : Parse}

@[simp]
theorem run_pure (a : α) : (pure a : Plan α).run answer = a :=
  rfl

@[simp]
theorem run_bind (x : Plan α) (f : α → Plan β) : (x >>= f).run answer = (f (x.run answer)).run answer := by
  induction x with
  | done a => rfl
  | ask role p next ih => exact ih (answer p)

theorem Each.pure (a : α) : (pure a : Plan α).Each P :=
  trivial

theorem Each.request (h : P role p) : (request role p).Each P :=
  ⟨h, fun _ => trivial⟩

theorem Each.bind {x : Plan α} {f : α → Plan β} (hx : x.Each P) (hf : ∀ a, (f a).Each P) : (x >>= f).Each P := by
  induction x with
  | done a => exact hf a
  | ask role p next ih => exact ⟨hx.1, fun answer => ih answer (hx.2 answer)⟩

theorem Each.mono {Q : Role → Parse → Prop} {x : Plan α} (h : x.Each P) (hPQ : ∀ role q, P role q → Q role q) :
    x.Each Q := by
  induction x with
  | done a => trivial
  | ask role p next ih => exact ⟨hPQ role p h.1, fun answer => ih answer (h.2 answer)⟩

/-- A plan comes to an end if all that it asks for does. -/
theorem run?_eq_some {answer? : (p : Parse) → Option p.kind.Yield} {x : Plan α}
    (h : x.Each fun _ q => answer? q = some (answer q)) : x.run? answer? = some (x.run answer) := by
  induction x with
  | done a => rfl
  | ask role p next ih =>
    rw [run?, h.1]
    exact ih _ (h.2 _)

end Plan

open Plan

/-- One round of reading the items of a source. -/
def itemsPlan (endPos : Position) : List Token → Plan (List ItemOutline)
  | [] => return []
  | t :: rest =>
    if t.isSymbol .semicolon then request .round ⟨.items, rest, false⟩
    else if t.isSymbol (.left .square) then do
      let n := functionLength t rest
      let definition : FunctionOutline ← request .dispatch ⟨.definition, t :: rest.take n, false⟩
      let after := rest.drop n
      let unended? :=
        if definition.hasBlock then none
        else (after.head?.filter (·.isSymbol (.left .square))).map Token.pos
      let skip := if after.head?.any (·.isSymbol .semicolon) then n + 1 else n
      let others ← request .round ⟨.items, rest.drop skip, false⟩
      return .function definition unended? t.pos :: others
    else
      let semicolon? := Span.find? .semicolon (t :: rest)
      match t.kind, rest.head?.any (·.isSymbol .equals) with
      | .ident id, true =>
        match semicolon? with
        | none => return [.flawed (.located endPos .assignmentNotEnded)]
        | some stop => do
          let tokens := (t :: rest).take stop
          let last := tokens.getLastD t
          let value ← request .assignment ⟨.expression, tokens.drop 2, false⟩
          let others ← request .round ⟨.items, rest.drop stop, false⟩
          return .assignment id value (last.pos.index + last.lexeme.length.toUInt64) t.pos :: others
      | _, _ => do
        let others ← request .round ⟨.items, rest.drop (semicolon?.getD rest.length), false⟩
        return .flawed (.located t.pos (.expectedItem (.ofToken t))) :: others

/-- Reading a function definition. -/
def definitionPlan (names : NameTable) (endPos : Position) : List Token → Plan FunctionOutline
  | [] => return .flawed (.located endPos (.expectedDefinition .eof))
  | t :: rest =>
    if t.isSymbol (.left .square) then
      match readHeader names endPos t.pos rest with
      | .error e => return .flawed e
      | .ok (header, n) =>
        if rest.drop n = [] then return .bodiless header (.located endPos .expectedBody)
        else do
          let body ← request .body ⟨.expression, rest.drop n, false⟩
          return .defined header body
    else return .flawed (.located t.pos (.expectedDefinition (.ofToken t)))

/-- Reading an expression. -/
def expressionPlan (endPos : Position) : List Token → Plan Outline
  | [] => return .arithmetic [.flawed ⟨.emptyExpression, none⟩] endPos
  | t :: rest =>
    if t.isSymbol .kwIf then
      match Span.find? .colon rest with
      | none => return .flawed (.located endPos .expectedColon)
      | some colon =>
        match findElse? 0 (rest.drop (colon + 1)) with
        | none => return .flawed (.located endPos .expectedElse)
        | some n => do
          let condition ← request .condition ⟨.expression, rest.take colon, false⟩
          let thenBranch ← request .branch ⟨.expression, (rest.drop (colon + 1)).take n, false⟩
          let elseBranch ← request .branch ⟨.expression, rest.drop (colon + 1 + n + 1), false⟩
          return .conditional condition thenBranch elseBranch t.pos
    else if t.isSymbol (.left .curly) then
      match Span.matching? (t :: rest) with
      | none => do
        let entries ← request .dispatch ⟨.entries, t :: rest, false⟩
        return .block entries (some (.located endPos (.expectedEntry .eof))) t.pos
      | some close => do
        let entries ← request .dispatch ⟨.entries, t :: rest.take (close - 1), false⟩
        let flaw? := (rest.drop close).head?.map fun extra => .located extra.pos (.expectedBlockEnd (.ofToken extra))
        return .block entries flaw? t.pos
    else do
      let terms ← request .dispatch ⟨.terms, t :: rest, false⟩
      return .arithmetic terms t.pos

/-- Reading the guard of an entry, from the tokens after its operator. -/
def guardPlan (extent : EntryExtent) (rest : List Token) : Plan (Option Outline) :=
  match extent.question? with
  | none => return none
  | some question => do
    let tokens := (rest.drop (question + 1)).take (extent.semicolon - (question + 1))
    let guard ← request .guard ⟨.expression, tokens, false⟩
    return some guard

/-- One round of reading the entries of a block. -/
def entriesPlan (endPos : Position) : List Token → Plan (List EntryOutline)
  | [] | [_] => return []
  | _ :: t :: rest =>
    match t.kind with
    | .symbol .semicolon => request .round ⟨.entries, t :: rest, false⟩
    | .symbol (.left .square) => do
      let stop := (Span.find? .semicolon (t :: rest)).getD (rest.length + 1)
      let definition ← request .entry ⟨.definition, (t :: rest).take stop, false⟩
      let others ← request .round ⟨.entries, (t :: rest).drop stop, false⟩
      return .closure definition t.pos :: others
    | .operator op =>
      match EntryExtent.of endPos rest with
      | .error e => return [.flawed e]
      | .ok extent => do
        let value ← request .entry ⟨.expression, rest.take (extent.question?.getD extent.semicolon), false⟩
        let guard ← guardPlan extent rest
        let others ← request .round ⟨.entries, rest.drop extent.semicolon, false⟩
        return .operator op value guard t.pos :: others
    | _ => return [.flawed (.located t.pos (.expectedEntry (.ofToken t)))]

/-- One round of reading the terms of an arithmetic expression. -/
def termsPlan (afterOperand : Bool) : List Token → Plan (List Term)
  | [] => return []
  | t :: rest =>
    match t.kind with
    | .const v => do
      let others ← request .round ⟨.terms, rest, true⟩
      return .const v t.pos :: others
    | .operator op => do
      let others ← request .round ⟨.terms, rest, false⟩
      return .operator (if op = .sub ∧ !afterOperand then .neg else op) t.pos :: others
    | .ident id =>
      if rest.head?.any (·.isSymbol (.left .round)) then
        match Span.matching? rest with
        | none => return [.flawed (.located t.pos .unterminatedCall)]
        | some close => do
          let args ← request .call ⟨.arguments, rest.take close, false⟩
          let others ← request .round ⟨.terms, rest.drop (close + 1), true⟩
          return .call id args t.pos :: others
      else do
        let others ← request .round ⟨.terms, rest, true⟩
        return .name id t.pos :: others
    | .symbol (.left .round) => do
      let others ← request .round ⟨.terms, rest, false⟩
      return .left t.pos :: others
    | .symbol (.right .round) => do
      let others ← request .round ⟨.terms, rest, true⟩
      return .right t.pos :: others
    | .symbol _ => return [.flawed (.located t.pos (.unexpectedSymbol t.describe))]
    | .eof => request .round ⟨.terms, rest, afterOperand⟩

/-- One round of reading the arguments of a call. -/
def argumentsPlan (endPos : Position) : List Token → Plan (List ArgumentOutline)
  | [] | [_] => return []
  | _ :: t :: rest =>
    let stop := (Span.find? .comma (t :: rest)).getD (rest.length + 1)
    if stop = 0 then return [.missing t.pos]
    else do
      let tokens := (t :: rest).take stop
      let form := readForm tokens
      let value := tokens.drop form.2
      let terms ←
        if value = [] then pure [.flawed ⟨.emptyExpression, none⟩] else request .argument ⟨.terms, value, false⟩
      let others ← request .round ⟨.arguments, (t :: rest).drop stop, false⟩
      return .given form.1 terms (headPos endPos value) t.pos :: others

variable (names : NameTable) (endPos : Position)

/-- How something is read. -/
def plan : (p : Parse) → Plan p.kind.Yield
  | ⟨.items, ts, _⟩ => itemsPlan endPos ts
  | ⟨.definition, ts, _⟩ => definitionPlan names endPos ts
  | ⟨.expression, ts, _⟩ => expressionPlan endPos ts
  | ⟨.entries, ts, _⟩ => entriesPlan endPos ts
  | ⟨.terms, ts, afterOperand⟩ => termsPlan afterOperand ts
  | ⟨.arguments, ts, _⟩ => argumentsPlan endPos ts

/-- What is read. -/
def outcome : (p : Parse) → p.kind.Yield
  | ⟨.items, ts, _⟩ => ItemOutline.listOfTokens names endPos ts
  | ⟨.definition, ts, _⟩ => FunctionOutline.ofTokens names endPos ts
  | ⟨.expression, ts, _⟩ => Outline.ofTokens names endPos ts
  | ⟨.entries, ts, _⟩ => EntryOutline.listOfTokens names endPos ts.tail
  | ⟨.terms, ts, afterOperand⟩ => Term.listOfTokens names endPos afterOperand ts
  | ⟨.arguments, ts, _⟩ => ArgumentOutline.listOfTokens names endPos ts.tail

variable {names endPos}

theorem run_itemsPlan (ts : List Token) :
    (itemsPlan endPos ts).run (outcome names endPos) = ItemOutline.listOfTokens names endPos ts := by
  cases ts with
  | nil => rw [ItemOutline.listOfTokens, itemsPlan, run_pure]
  | cons t rest =>
    rw [ItemOutline.listOfTokens, itemsPlan]
    split
    · rfl
    split
    · rfl
    cases t.kind with
    | ident id =>
      cases rest.head?.any (·.isSymbol .equals) with
      | true => cases Span.find? .semicolon (t :: rest) <;> rfl
      | false => rfl
    | _ => rfl

theorem run_definitionPlan (ts : List Token) :
    (definitionPlan names endPos ts).run (outcome names endPos) = FunctionOutline.ofTokens names endPos ts := by
  cases ts with
  | nil => rw [FunctionOutline.ofTokens, definitionPlan, run_pure]
  | cons t rest =>
    rw [FunctionOutline.ofTokens, definitionPlan]
    split
    · cases readHeader names endPos t.pos rest with
      | error e => rfl
      | ok header =>
        dsimp only
        split <;> rfl
    · rfl

theorem run_expressionPlan (ts : List Token) :
    (expressionPlan endPos ts).run (outcome names endPos) = Outline.ofTokens names endPos ts := by
  cases ts with
  | nil => rw [Outline.ofTokens, expressionPlan, run_pure]
  | cons t rest =>
    rw [Outline.ofTokens, expressionPlan]
    split
    · cases Span.find? .colon rest with
      | none => rfl
      | some colon =>
        dsimp only
        cases findElse? 0 (rest.drop (colon + 1)) <;> rfl
    · split
      · cases Span.matching? (t :: rest) <;> rfl
      · rfl

theorem run_guardPlan (extent : EntryExtent) (rest : List Token) :
    (guardPlan extent rest).run (outcome names endPos) =
      extent.question?.map fun question => Outline.ofTokens names endPos
        ((rest.drop (question + 1)).take (extent.semicolon - (question + 1))) := by
  unfold guardPlan
  cases extent.question? <;> rfl

theorem tail_drop_cons (t : Token) (rest : List Token) (n : Nat) : ((t :: rest).drop n).tail = rest.drop n := by
  rw [List.tail_drop, List.drop_succ_cons]

theorem run_entriesPlan (ts : List Token) :
    (entriesPlan endPos ts).run (outcome names endPos) = EntryOutline.listOfTokens names endPos ts.tail := by
  match ts with
  | [] => rw [List.tail_nil, EntryOutline.listOfTokens, entriesPlan, run_pure]
  | [_] => rw [List.tail_cons, EntryOutline.listOfTokens, entriesPlan, run_pure]
  | _ :: t :: rest =>
    rw [List.tail_cons, EntryOutline.listOfTokens, entriesPlan]
    cases t.kind with
    | symbol s => cases s with
      | semicolon => rfl
      | left b =>
        cases b with
        | square =>
          dsimp only
          rw [← tail_drop_cons t rest]
          rfl
        | _ => rfl
      | _ => rfl
    | operator op =>
      cases EntryExtent.of endPos rest with
      | error e => rfl
      | ok extent =>
        dsimp only
        rw [Plan.run_bind, Plan.run_bind, run_guardPlan, ← List.tail_drop]
        cases extent.question? <;> rfl
    | _ => rfl

theorem run_termsPlan (afterOperand : Bool) (ts : List Token) :
    (termsPlan afterOperand ts).run (outcome names endPos) = Term.listOfTokens names endPos afterOperand ts := by
  cases ts with
  | nil => rw [Term.listOfTokens, termsPlan, run_pure]
  | cons t rest =>
    rw [Term.listOfTokens, termsPlan]
    cases t.kind with
    | ident id =>
      dsimp only
      split
      · cases Span.matching? rest with
        | none => rfl
        | some close =>
          dsimp only
          rw [List.drop_one]
          rfl
      · rfl
    | symbol s => cases s with
      | left b | right b => cases b <;> rfl
      | _ => rfl
    | _ => rfl

theorem run_argumentsPlan (ts : List Token) :
    (argumentsPlan endPos ts).run (outcome names endPos) = ArgumentOutline.listOfTokens names endPos ts.tail := by
  match ts with
  | [] => rw [List.tail_nil, ArgumentOutline.listOfTokens, argumentsPlan, run_pure]
  | [_] => rw [List.tail_cons, ArgumentOutline.listOfTokens, argumentsPlan, run_pure]
  | _ :: t :: rest =>
    rw [List.tail_cons, ArgumentOutline.listOfTokens, argumentsPlan]
    dsimp only
    split
    · rfl
    · rw [← tail_drop_cons t rest]
      split <;> rfl

theorem run_plan (p : Parse) : (p.plan names endPos).run (outcome names endPos) = p.outcome names endPos :=
  match p with
  | ⟨.items, ts, _⟩ => run_itemsPlan ts
  | ⟨.definition, ts, _⟩ => run_definitionPlan ts
  | ⟨.expression, ts, _⟩ => run_expressionPlan ts
  | ⟨.entries, ts, _⟩ => run_entriesPlan ts
  | ⟨.terms, ts, afterOperand⟩ => run_termsPlan afterOperand ts
  | ⟨.arguments, ts, _⟩ => run_argumentsPlan ts

/-- What a parse may ask for. A round leaves fewer tokens to the next one, and a part has fewer tokens than the whole; what
is read from the same tokens is of a kind that hands them on no further. -/
def Advances (p : Parse) : Role → Parse → Prop
  | .round, q => q.kind = p.kind ∧ q.span <:+ p.span ∧ q.span.length < p.span.length
  | .dispatch, q => q.kind.rank < p.kind.rank ∧ q.span <+: p.span
  | _, q => q.span <:+: p.span ∧ q.span.length < p.span.length

/-- What goes down with all that is asked for. -/
def weight (p : Parse) : Nat :=
  2 * p.span.length + p.kind.rank

theorem Kind.rank_le (kind : Kind) : kind.rank ≤ 1 := by
  cases kind <;> decide

theorem Advances.weight_lt {p q : Parse} {role : Role} (h : p.Advances role q) : q.weight < p.weight := by
  have hrank := q.kind.rank_le
  unfold weight
  cases role with
  | round =>
    have hlength := h.2.2
    omega
  | dispatch =>
    have hlength := h.2.length_le
    have hlower := h.1
    omega
  | _ =>
    have hlength : q.span.length < p.span.length := h.2
    omega

section

variable {ts rest : List Token}

theorem part (t : Token) (h : ts <:+: rest) : ts <:+: t :: rest ∧ ts.length < (t :: rest).length :=
  ⟨List.infix_cons h, Nat.lt_succ_of_le h.length_le⟩

theorem remainder (t : Token) (h : ts <:+ rest) : ts <:+ t :: rest ∧ ts.length < (t :: rest).length :=
  ⟨h.trans (List.suffix_cons t rest), Nat.lt_succ_of_le h.length_le⟩

theorem front (t : Token) (h : ts <+: rest) : t :: ts <+: t :: rest :=
  (List.prefix_cons_inj t).2 h

end

theorem each_itemsPlan (ts : List Token) : (itemsPlan endPos ts).Each (Advances ⟨.items, ts, false⟩) := by
  cases ts with
  | nil => exact .pure _
  | cons t rest =>
    have hround (n : Nat) : Advances ⟨.items, t :: rest, false⟩ .round ⟨.items, rest.drop n, false⟩ :=
      ⟨rfl, remainder t (List.drop_suffix n rest)⟩
    rw [itemsPlan]
    split
    · exact .request (hround 0)
    split
    · have hitem : rest.take (functionLength t rest) <+: rest := List.take_prefix _ _
      refine .bind (.request ⟨Nat.zero_lt_one, front t hitem⟩) fun definition => ?_
      exact .bind (.request (hround _)) fun others => .pure _
    · dsimp only
      split
      · split
        · exact .pure _
        · rename_i stop _
          have hvalue : ((t :: rest).take stop).drop 2 <:+: rest := by
            cases stop with
            | zero => exact List.nil_infix
            | succ n => exact (List.drop_suffix 1 _).isInfix.trans (List.take_prefix n rest).isInfix
          refine .bind (.request (part t hvalue)) fun value => ?_
          exact .bind (.request (hround _)) fun others => .pure _
      · exact .bind (.request (hround _)) fun others => .pure _

theorem each_definitionPlan (ts : List Token) :
    (definitionPlan names endPos ts).Each (Advances ⟨.definition, ts, false⟩) := by
  cases ts with
  | nil => exact .pure _
  | cons t rest =>
    rw [definitionPlan]
    split
    · split
      · exact .pure _
      · split
        · exact .pure _
        · exact .bind (.request (part t (List.drop_suffix _ _).isInfix)) fun body => .pure _
    · exact .pure _

theorem each_expressionPlan (ts : List Token) :
    (expressionPlan endPos ts).Each (Advances ⟨.expression, ts, false⟩) := by
  cases ts with
  | nil => exact .pure _
  | cons t rest =>
    rw [expressionPlan]
    split
    · split
      · exact .pure _
      · split
        · exact .pure _
        · rename_i colon _ _ n _
          have hcondition : rest.take colon <:+: rest := (List.take_prefix _ _).isInfix
          have hthen : (rest.drop (colon + 1)).take n <:+: rest :=
            (List.take_prefix _ _).isInfix.trans (List.drop_suffix _ _).isInfix
          have helse : rest.drop (colon + 1 + n + 1) <:+: rest := (List.drop_suffix _ _).isInfix
          refine .bind (.request (part t hcondition)) fun condition => ?_
          refine .bind (.request (part t hthen)) fun thenBranch => ?_
          exact .bind (.request (part t helse)) fun elseBranch => .pure _
    · split
      · split
        · exact .bind (.request ⟨Nat.zero_lt_one, List.prefix_rfl⟩) fun entries => .pure _
        · exact .bind (.request ⟨Nat.zero_lt_one, front t (List.take_prefix _ _)⟩) fun entries => .pure _
      · exact .bind (.request ⟨Nat.zero_lt_one, List.prefix_rfl⟩) fun terms => .pure _

theorem each_guardPlan (opening t : Token) (extent : EntryExtent) (rest : List Token) :
    (guardPlan extent rest).Each (Advances ⟨.entries, opening :: t :: rest, false⟩) := by
  unfold guardPlan
  split
  · exact .pure _
  · rename_i question _
    have hguard : (rest.drop (question + 1)).take (extent.semicolon - (question + 1)) <:+: t :: rest :=
      List.infix_cons ((List.take_prefix _ _).isInfix.trans (List.drop_suffix _ _).isInfix)
    exact .bind (.request (part opening hguard)) fun guard => .pure _

theorem each_entriesPlan (ts : List Token) : (entriesPlan endPos ts).Each (Advances ⟨.entries, ts, false⟩) := by
  match ts with
  | [] | [_] => exact .pure _
  | opening :: t :: rest =>
    have hround {others : List Token} (h : others <:+ t :: rest) :
        Advances ⟨.entries, opening :: t :: rest, false⟩ .round ⟨.entries, others, false⟩ :=
      ⟨rfl, remainder opening h⟩
    rw [entriesPlan]
    split
    · exact .request (hround List.suffix_rfl)
    · refine .bind (.request (part opening (List.take_prefix _ _).isInfix)) fun definition => ?_
      exact .bind (.request (hround (List.drop_suffix _ _))) fun others => .pure _
    · split
      · exact .pure _
      · rename_i extent _
        have hvalue : rest.take (extent.question?.getD extent.semicolon) <:+: t :: rest :=
          List.infix_cons (List.take_prefix _ _).isInfix
        have hothers : rest.drop extent.semicolon <:+ t :: rest :=
          (List.drop_suffix _ _).trans (List.suffix_cons t rest)
        refine .bind (.request (part opening hvalue)) fun value => ?_
        refine .bind (each_guardPlan opening t extent rest) fun guard => ?_
        exact .bind (.request (hround hothers)) fun others => .pure _
    · exact .pure _

theorem each_termsPlan (afterOperand : Bool) (ts : List Token) :
    (termsPlan afterOperand ts).Each (Advances ⟨.terms, ts, afterOperand⟩) := by
  cases ts with
  | nil => exact .pure _
  | cons t rest =>
    have hround (n : Nat) (after : Bool) :
        Advances ⟨.terms, t :: rest, afterOperand⟩ .round ⟨.terms, rest.drop n, after⟩ :=
      ⟨rfl, remainder t (List.drop_suffix n rest)⟩
    have hsingle (after : Bool) (term : Term) :
        (do let others ← request .round ⟨.terms, rest, after⟩
            return term :: others : Plan (List Term)).Each (Advances ⟨.terms, t :: rest, afterOperand⟩) :=
      .bind (.request (hround 0 after)) fun others => .pure _
    rw [termsPlan]
    split
    case h_3 =>
      split
      · split
        · exact .pure _
        · refine .bind (.request (part t (List.take_prefix _ _).isInfix)) fun args => ?_
          exact .bind (.request (hround _ _)) fun others => .pure _
      · exact hsingle _ _
    case h_6 => exact .pure _
    case h_7 => exact .request (hround 0 _)
    all_goals exact hsingle _ _

theorem each_argumentsPlan (ts : List Token) :
    (argumentsPlan endPos ts).Each (Advances ⟨.arguments, ts, false⟩) := by
  match ts with
  | [] | [_] => exact .pure _
  | opening :: t :: rest =>
    rw [argumentsPlan]
    dsimp only
    split
    · exact .pure _
    · have hothers (n : Nat) :
          Advances ⟨.arguments, opening :: t :: rest, false⟩ .round ⟨.arguments, (t :: rest).drop n, false⟩ :=
        ⟨rfl, remainder opening (List.drop_suffix _ _)⟩
      have hvalue (m n : Nat) : ((t :: rest).take m).drop n <:+: t :: rest :=
        (List.drop_suffix _ _).isInfix.trans (List.take_prefix _ _).isInfix
      split
      · exact .bind (.pure _) fun terms => .bind (.request (hothers _)) fun others => .pure _
      · refine .bind (.request (part opening (hvalue _ _))) fun terms => ?_
        exact .bind (.request (hothers _)) fun others => .pure _

/-- All that is asked for advances, whatever was read before it. -/
theorem each_plan (p : Parse) : (p.plan names endPos).Each p.Advances :=
  match p with
  | ⟨.items, ts, _⟩ => each_itemsPlan ts
  | ⟨.definition, ts, _⟩ => each_definitionPlan ts
  | ⟨.expression, ts, _⟩ => each_expressionPlan ts
  | ⟨.entries, ts, _⟩ => each_entriesPlan ts
  | ⟨.terms, ts, afterOperand⟩ => each_termsPlan afterOperand ts
  | ⟨.arguments, ts, _⟩ => each_argumentsPlan ts

/-- What comes of reading that asks no more than so many levels deep. -/
def within (names : NameTable) (endPos : Position) : Nat → (p : Parse) → Option p.kind.Yield
  | 0, _ => none
  | n + 1, p => (p.plan names endPos).run? (within names endPos n)

theorem within_eq_some {n : Nat} {p : Parse} (h : p.weight < n) :
    p.within names endPos n = some (p.outcome names endPos) := by
  induction n generalizing p with
  | zero => exact absurd h (Nat.not_lt_zero _)
  | succ n ih =>
    have hanswers : (p.plan names endPos).Each fun _ q => q.within names endPos n = some (q.outcome names endPos) :=
      (each_plan p).mono fun role q hq => ih (Nat.lt_of_lt_of_le hq.weight_lt (Nat.le_of_lt_succ h))
    rw [within, run?_eq_some hanswers, run_plan]

/-- Whatever tokens are read, reading them comes to an end. It asks for what else must be read until all is read; each
round takes at least one token away from the front, each part has fewer tokens than the whole, and so it asks at most
about twice as many levels deep as there are tokens. A program is always read to the end. -/
theorem reading_advances (names : NameTable) (endPos : Position) :
    (∀ p : Parse, (p.plan names endPos).Each p.Advances) ∧
      (∀ p : Parse, (p.plan names endPos).run (outcome names endPos) = p.outcome names endPos) ∧
      (∀ (p : Parse) (extra : Nat),
        p.within names endPos (2 * p.span.length + 2 + extra) = some (p.outcome names endPos)) ∧
      ∀ (c : Resolution.Context) (ts : List Token) (s : Resolution.State), ∃ trees s',
        (Resolution.program c (ItemOutline.listOfTokens c.names endPos ts)).run s = (.ok trees, s') := by
  refine ⟨each_plan, run_plan, fun p extra => within_eq_some ?_, fun c ts s => ?_⟩
  · have hrank := p.kind.rank_le
    unfold weight
    omega
  · obtain ⟨trees, s', hitems⟩ := Resolution.exists_items c (ItemOutline.listOfTokens c.names endPos ts) s
    let journal := s'.journal.note .debug "parser" ("parsed " ++ toString trees.length ++ " items")
    refine ⟨trees, ⟨s'.table, journal⟩, ?_⟩
    rw [Resolution.program, ToneScript.run_bind, hitems]
    rfl

end Parse

end ToneScript
