import ToneScript.Proofs.Arithmetic.Acceptance
import ToneScript.Proofs.Syntax.Inversion
import ToneScript.Proofs.Text.Written

/-! Accepted spans and the grammar. An accepted span has a parse tree exactly when in it no operand directly
follows another. -/
namespace ToneScript

namespace Token

/-- Whether an operand may end with a token. -/
def endsOperand (t : Token) : Bool :=
  match t.kind with
  | .const _ | .ident _ | .symbol (.right .round) => true
  | .operator _ | .symbol _ | .eof => false

/-- Whether an operand must start with a token. A minus sign may also stand between two operands. -/
def startsOperand (t : Token) : Bool :=
  match t.kind with
  | .const _ | .ident _ | .operator .not | .symbol (.left .round) => true
  | .operator _ | .symbol _ | .eof => false

/-- Whether a token is the name of a function, in front of its arguments. -/
def calls (t u : Token) : Bool :=
  match t.kind, u.kind with
  | .ident _, .symbol (.left .round) => true
  | _, _ => false

/-- Whether a token is the operator that an argument is assigned with, in front of the rest of it. -/
def assigns (t : Token) (rest : List Token) : Bool :=
  match t.kind with
  | .operator _ => rest.head?.any (·.isSymbol .equals)
  | _ => false

/-- Whether a token ends an operand that another one follows directly. -/
def Abuts (t u : Token) : Prop :=
  t.endsOperand = true ∧ u.startsOperand = true ∧ t.calls u = false

theorem calls_eq_false {t u : Token} (h : u.isSymbol (.left .round) = false) : t.calls u = false := by
  rw [calls]
  split
  · rename_i hkind
    rw [isSymbol, hkind] at h
    cases h
  · rfl

end Token

/-- Whether in a span an operand directly follows another: whether a constant, a name, a sign that is no minus or a
parenthesis that opens comes right after the end of an operand. -/
def Juxtaposed : List Token → Prop
  | [] | [_] => False
  | t :: u :: rest => (t.Abuts u ∧ u.assigns rest = false) ∨ Juxtaposed (u :: rest)

namespace Juxtaposed

theorem cons {t : Token} {ts : List Token} (h : Juxtaposed ts) : Juxtaposed (t :: ts) := by
  cases ts with
  | nil => exact h
  | cons u rest => exact .inr h

theorem append_right {ts us : List Token} (h : Juxtaposed us) : Juxtaposed (ts ++ us) := by
  induction ts with
  | nil => exact h
  | cons t ts ih => exact ih.cons

theorem append_left {ts us : List Token} (h : Juxtaposed ts)
    (hequals : us.head?.any (·.isSymbol .equals) = false) : Juxtaposed (ts ++ us) := by
  induction ts with
  | nil => exact h.elim
  | cons t ts ih =>
    cases ts with
    | nil => exact h.elim
    | cons u rest =>
      rcases h with ⟨habuts, hassigns⟩ | h
      · refine .inl ⟨habuts, ?_⟩
        cases rest with
        | nil =>
          have hnone : u.assigns us = false := by
            rw [Token.assigns, hequals]
            split <;> rfl
          exact hnone
        | cons v rest => exact hassigns
      · exact .inr (ih h)

theorem of_abuts {t u : Token} {rest : List Token} (h : ¬ Juxtaposed (t :: u :: rest)) (habuts : t.Abuts u) :
    u.assigns rest = true := by
  cases hassigns : u.assigns rest with
  | true => rfl
  | false => exact absurd (.inl ⟨habuts, hassigns⟩) h

/-- Where a token that ends no operand comes first, it can be left out. -/
theorem of_cons {t : Token} {ts : List Token} (h : Juxtaposed (t :: ts)) (hends : t.endsOperand = false) :
    Juxtaposed ts := by
  cases ts with
  | nil => exact h
  | cons u rest =>
    rcases h with ⟨⟨hends', _⟩, _⟩ | h
    · rw [hends] at hends'
      cases hends'
    · exact h

/-- A token that starts no operand parts what is before it from what is after it. -/
theorem of_append {ts us : List Token} {u : Token} (h : Juxtaposed (ts ++ u :: us))
    (hstarts : u.startsOperand = false) : Juxtaposed ts ∨ Juxtaposed (u :: us) := by
  induction ts with
  | nil => exact .inr h
  | cons t ts ih =>
    cases ts with
    | nil =>
      rcases h with ⟨⟨_, hstarts', _⟩, _⟩ | h
      · rw [hstarts] at hstarts'
        cases hstarts'
      · exact .inr h
    | cons v rest =>
      rcases h with ⟨habuts, hassigns⟩ | h
      · refine .inl (.inl ⟨habuts, ?_⟩)
        cases rest with
        | nil =>
          rw [Token.assigns]
          split <;> rfl
        | cons w rest => exact hassigns
      · exact (ih h).imp_left .inr

end Juxtaposed

/-- Whether a span may go on where an operand has been read, if one has: a token that starts an operand is then the operator
that an argument is assigned with. -/
def Resumes (afterOperand : Bool) (ts : List Token) : Prop :=
  afterOperand = true → ∀ t rest, ts = t :: rest → t.startsOperand = true → t.assigns rest = true

/-- Where an operand starts, none has just been read. -/
theorem Resumes.eq_false {afterOperand : Bool} {t : Token} {rest : List Token}
    (h : Resumes afterOperand (t :: rest)) (hstarts : t.startsOperand = true) (hassigns : t.assigns rest = false) :
    afterOperand = false := by
  cases hflag : afterOperand with
  | false => rfl
  | true =>
    rw [h hflag t rest rfl hstarts] at hassigns
    cases hassigns

theorem Juxtaposed.resumes {afterOperand : Bool} {t : Token} {rest : List Token} (h : ¬ Juxtaposed (t :: rest))
    (hends : t.endsOperand = true) (hcalls : ∀ u ∈ rest.head?, t.calls u = false) : Resumes afterOperand rest := by
  rintro - u rest' rfl hstarts
  exact of_abuts h ⟨hends, hstarts, hcalls u rfl⟩

mutual

/-- In an expression of the grammar no operand directly follows another. -/
theorem Infix.not_juxtaposed {tier : Nat} (e : Infix) (h : e.Fits tier) : ¬ Juxtaposed e.tokens := by
  cases e with
  | const v m | name id m => exact fun h => h
  | call callee m opening args closing =>
    rintro (⟨⟨_, _, hcalls⟩, _⟩ | hargs)
    · cases hcalls
    · rcases (hargs.of_cons rfl).of_append rfl with hargs | hnone
      · exact InfixArguments.not_juxtaposed args h hargs
      · exact hnone
  | group opening inner closing =>
    intro hgroup
    rcases (hgroup.of_cons rfl).of_append rfl with hinner | hnone
    · exact Infix.not_juxtaposed inner h hinner
    · exact hnone
  | prefixed sign m operand => exact fun hsigned => Infix.not_juxtaposed operand h (hsigned.of_cons rfl)
  | power left m right =>
    intro hpower
    rcases hpower.of_append rfl with hleft | hright
    · exact Infix.not_juxtaposed left h.2.1 hleft
    · exact Infix.not_juxtaposed right h.2.2 (hright.of_cons rfl)
  | binary op left m right =>
    obtain ⟨n, hop, _, hfitsLeft, hfitsRight⟩ := h
    have hstarts : (m.token (.operator op)).startsOperand = false := by cases op <;> first | rfl | cases hop
    intro hbinary
    rcases hbinary.of_append hstarts with hleft | hright
    · exact Infix.not_juxtaposed left hfitsLeft hleft
    · exact Infix.not_juxtaposed right hfitsRight (hright.of_cons rfl)

theorem InfixArgument.not_juxtaposed (arg : InfixArgument) (h : arg.Fits) : ¬ Juxtaposed arg.tokens := by
  cases arg with
  | positional value => exact Infix.not_juxtaposed value h
  | assign id m equals value =>
    rintro (⟨⟨_, hstarts, _⟩, _⟩ | hvalue)
    · cases hstarts
    · exact Infix.not_juxtaposed value h (hvalue.of_cons rfl)
  | opAssign id m op opMark equals value =>
    rintro (⟨_, hassigns⟩ | hvalue)
    · cases hassigns
    · exact Infix.not_juxtaposed value h ((hvalue.of_cons rfl).of_cons rfl)

theorem InfixArguments.not_juxtaposed (args : InfixArguments) (h : args.Fit) : ¬ Juxtaposed args.tokens := by
  cases args with
  | none => exact fun h => h
  | last arg => exact InfixArgument.not_juxtaposed arg h
  | more arg comma rest =>
    intro hargs
    rcases hargs.of_append rfl with hfirst | hrest
    · exact InfixArgument.not_juxtaposed arg h.1 hfirst
    · exact InfixArguments.not_juxtaposed rest h.2 (hrest.of_cons rfl)

end

namespace Resolution

variable {c : Context}

/-- The cell of a name is an operand. -/
theorem isOperand_cell_name {id : Ident} {pos : Position} {s s' : State} {x : Cell}
    (h : (cell c (.name id pos)).run s = (.ok x, s')) : x.isOperand = true := by
  rw [cell] at h
  obtain ⟨_, _, _, _, ⟨_, _, rfl⟩ | ⟨_, rfl⟩⟩ := variableCell_ok h <;> rfl

/-- Where the tree of a call can be built, so can those of its arguments, apart from names that stand alone. -/
theorem exists_toExpr_of_callSite {callee : String} {id : Ident} {args : List SiteArgument} {pos : Position}
    {site : CallSite} (h : callSite callee id args pos = .ok site) {tree : Expr}
    (htree : site.toExpr = .ok tree) :
    ∀ arg ∈ args, (∃ name value pos, arg = .shorthand name value pos) ∨ ∃ tree, arg.value.toExpr = .ok tree := by
  intro arg harg
  obtain ⟨trees, _, htrees⟩ := CallSite.toExpr_eq_ok htree
  rw [callSite] at h
  split at h
  · split at h <;> cases h
    obtain ⟨tree, _, harg⟩ := exists_toArgument htrees harg
    cases arg with
    | shorthand name value pos => exact .inl ⟨name, value, pos, rfl⟩
    | assign name value pos | opAssign name op value pos | positional value pos =>
      obtain ⟨e, hvalue, _⟩ := bind_eq_ok.1 harg
      exact .inr ⟨e, hvalue⟩
  · cases h
    obtain ⟨tree, _, harg⟩ := exists_toArgument htrees (List.mem_map_of_mem harg)
    obtain ⟨e, hvalue, _⟩ := bind_eq_ok.1 harg
    exact .inr ⟨e, hvalue⟩

end Resolution

/-- The calls of a sequence from which a tree is built all have trees. -/
theorem Cell.exists_toExpr {stack stack' : List Expr} {cells : List Cell} (h : toTrees stack cells = .ok stack')
    {site : CallSite} (hsite : .call site ∈ cells) : ∃ tree, site.toExpr = .ok tree := by
  rw [toTrees_eq_ok_iff] at h
  induction h with
  | nil => cases hsite
  | cons first _ ih =>
    rcases List.mem_cons.1 hsite with rfl | hmem
    · cases first with
      | call htree => exact ⟨_, htree⟩
    · exact ih hmem

/-- The calls of an expression that is accepted all have trees. -/
theorem Postfix.exists_toExpr {cells result : List Cell} (hconvert : convert cells = .ok result) {pos : Position}
    {tree : Expr} (htree : (Compiled.mk result pos).toExpr = .ok tree) {site : CallSite}
    (hsite : .call site ∈ cells) : ∃ tree, site.toExpr = .ok tree := by
  obtain ⟨_, _, htrees⟩ := Compiled.toExpr_eq_ok htree
  refine Cell.exists_toExpr htrees ((convert_perm hconvert).mem_iff.2 ?_)
  exact List.mem_filter.2 ⟨hsite, rfl⟩

/-- The form of an argument shows what stands before its value. -/
theorem InfixArgument.exists_of_form {t : Token} {ts : List Token}
    (h : (∀ id, (readForm (t :: ts)).1 ≠ .shorthand id) →
      ∃ e : Infix, e.Fits 0 ∧ e.tokens = (t :: ts).drop (readForm (t :: ts)).2) :
    ∃ a : InfixArgument, a.tokens = t :: ts ∧ a.Fits := by
  rw [readForm.eq_def] at h
  simp only at h
  split at h
  · rename_i id hkind
    split at h
    · exact ⟨.positional (.name id t.mark), congrArg (· :: []) (Token.token_mark hkind), trivial⟩
    · rename_i u us
      split at h
      · rename_i hequals
        obtain ⟨e, hfits, htokens⟩ := h fun _ he => by cases he
        refine ⟨.assign id t.mark u.mark e, ?_, hfits⟩
        rw [InfixArgument.tokens, htokens, Token.token_mark hkind,
          Token.token_mark (k := .symbol .equals) (of_decide_eq_true hequals)]
        rfl
      · split at h
        · rename_i op hop
          split at h
          · rename_i hequals
            cases us with
            | nil => cases hequals
            | cons v vs =>
              obtain ⟨e, hfits, htokens⟩ := h fun _ he => by cases he
              refine ⟨.opAssign id t.mark op u.mark v.mark e, ?_, hfits⟩
              rw [InfixArgument.tokens, htokens, Token.token_mark hkind, Token.token_mark hop,
                Token.token_mark (k := .symbol .equals) (of_decide_eq_true hequals)]
              rfl
          · obtain ⟨e, hfits, htokens⟩ := h fun _ he => by cases he
            exact ⟨.positional e, htokens, hfits⟩
        · obtain ⟨e, hfits, htokens⟩ := h fun _ he => by cases he
          exact ⟨.positional e, htokens, hfits⟩
  · obtain ⟨e, hfits, htokens⟩ := h fun _ he => by cases he
    exact ⟨.positional e, htokens, hfits⟩

/-- Whether a span can be cut into parts that are read as cells, and in which no operand directly follows
another. -/
def Part.Cut (afterOperand : Bool) (ts : List Token) (cells : List Cell) : Prop :=
  ∃ ps : List Part, ps.flatMap Part.tokens = ts ∧ (∀ p ∈ ps, p.WellFormed) ∧ Part.Apart afterOperand ps ∧
    List.Forall₂ Part.Reads ps cells

theorem Part.Cut.cons (before : Bool) (p : Part) (x : Cell) {after : Bool} {ts : List Token} {cells : List Cell}
    (hwell : p.WellFormed) (hreads : p.Reads x) (hapart : ∀ ps, Part.Apart after ps → Part.Apart before (p :: ps))
    (hrest : Part.Cut after ts cells) : Part.Cut before (p.tokens ++ ts) (x :: cells) := by
  obtain ⟨ps, rfl, hwells, haparts, hall⟩ := hrest
  exact ⟨p :: ps, rfl, List.forall_mem_cons.2 ⟨hwell, hwells⟩, hapart ps haparts, .cons hreads hall⟩

/-- An operator of one operand that a source can hold is the negation of truth values. -/
theorem Token.eq_not_of_isPrefix {t : Token} {op : Operator} (hkind : t.kind = .operator op)
    (hneg : t.kind ≠ .operator .neg) (h : op.isPrefix = true) : op = .not := by
  cases op <;> first | rfl | cases h; done | exact absurd hkind hneg

namespace Part.Cut

variable {afterOperand : Bool} {t : Token} {ts : List Token} {cells : List Cell}

theorem const {v : Number} (hkind : t.kind = .const v) (hflag : afterOperand = false) (hrest : Part.Cut true ts cells) :
    Part.Cut afterOperand (t :: ts) (.value (.number v) t.pos :: cells) := by
  have hcons := cons afterOperand (.operand (.const v t.mark)) (.value (.number v) t.pos)
    ⟨trivial, trivial⟩ rfl (fun _ h => ⟨hflag, h⟩) hrest
  rwa [Part.tokens, Infix.tokens, Token.token_mark hkind] at hcons

theorem name {id : Ident} {x : Cell} (hkind : t.kind = .ident id) (hx : x.isOperand = true)
    (hflag : afterOperand = false) (hrest : Part.Cut true ts cells) : Part.Cut afterOperand (t :: ts) (x :: cells) := by
  have hcons := cons afterOperand (.operand (.name id t.mark)) x ⟨trivial, trivial⟩ hx (fun _ h => ⟨hflag, h⟩) hrest
  rwa [Part.tokens, Infix.tokens, Token.token_mark hkind] at hcons

theorem call {id : Ident} {opening closing : Token} {args : InfixArguments} {site : CallSite}
    (hkind : t.kind = .ident id) (hopening : opening.kind = .symbol (.left .round))
    (hclosing : closing.kind = .symbol (.right .round)) (hargs : args.Fit) (hflag : afterOperand = false)
    (hrest : Part.Cut true ts cells) :
    Part.Cut afterOperand (t :: opening :: (args.tokens ++ closing :: ts)) (.call site :: cells) := by
  have hcons := cons afterOperand (.operand (.call id t.mark opening.mark args closing.mark)) (.call site)
    ⟨trivial, hargs⟩ rfl (fun _ h => ⟨hflag, h⟩) hrest
  rw [Part.tokens, Infix.tokens, Token.token_mark hkind, Token.token_mark hopening, Token.token_mark hclosing] at hcons
  simpa using hcons

theorem left (hkind : t.kind = .symbol (.left .round)) (hflag : afterOperand = false)
    (hrest : Part.Cut false ts cells) : Part.Cut afterOperand (t :: ts) (.left t.pos :: cells) := by
  have hcons := cons afterOperand (.left t.mark) (.left t.pos) trivial ⟨t.pos, rfl⟩ (fun _ h => ⟨hflag, h⟩) hrest
  rwa [Part.tokens, Token.token_mark hkind] at hcons

theorem right (hkind : t.kind = .symbol (.right .round)) (hrest : Part.Cut true ts cells) :
    Part.Cut afterOperand (t :: ts) (.right t.pos :: cells) := by
  have hcons := cons afterOperand (.right t.mark) (.right t.pos) trivial ⟨t.pos, rfl⟩ (fun _ h => h) hrest
  rwa [Part.tokens, Token.token_mark hkind] at hcons

/-- A minus sign is a negation where no operand has just been read. -/
theorem operator {op : Operator} (hkind : t.kind = .operator op) (hneg : t.kind ≠ .operator .neg)
    (hflag : op.isPrefix = true → afterOperand = false) (hrest : Part.Cut false ts cells) :
    Part.Cut afterOperand (t :: ts)
      (.operator (if op = .sub ∧ (!afterOperand) = true then .neg else op) t.pos :: cells) := by
  cases hunary : op.isPrefix with
  | true =>
    obtain rfl := Token.eq_not_of_isPrefix hkind hneg hunary
    have hcons := cons afterOperand (.sign .bang t.mark) (.operator .not t.pos) trivial ⟨t.pos, rfl⟩
      (fun _ h => ⟨hflag hunary, h⟩) hrest
    rw [Part.tokens, Token.token_mark (k := .operator Sign.bang.written) hkind] at hcons
    exact hcons
  | false =>
    by_cases hsign : op = .sub ∧ (!afterOperand) = true
    · obtain ⟨rfl, hawaited⟩ := hsign
      have hcons := cons afterOperand (.sign .minus t.mark) (.operator .neg t.pos) trivial ⟨t.pos, rfl⟩
        (fun _ h => ⟨Bool.not_eq_true' _ ▸ hawaited, h⟩) hrest
      rw [Part.tokens, Token.token_mark (k := .operator Sign.minus.written) hkind] at hcons
      rw [if_pos ⟨rfl, hawaited⟩]
      exact hcons
    · rw [if_neg hsign]
      have hcons := cons afterOperand (.operator op t.mark) (.operator op t.pos) hunary ⟨t.pos, rfl⟩
        (fun _ h => h) hrest
      rwa [Part.tokens, Token.token_mark hkind] at hcons

end Part.Cut

section Reading

variable (c : Resolution.Context) (endPos : Position)

/-- No expression goes on with an equals sign. -/
theorem Term.not_ok_of_equals {ts : List Token} (hequals : ts.head?.any (·.isSymbol .equals) = true)
    {afterOperand : Bool} {s s' : Resolution.State} {cells : List Cell}
    (h : (Resolution.cells c (Term.listOfTokens c.names endPos afterOperand ts)).run s = (.ok cells, s')) :
    False := by
  cases ts with
  | nil => cases hequals
  | cons t rest =>
    have hkind : t.kind = .symbol .equals := of_decide_eq_true hequals
    rw [Term.listOfTokens, hkind] at h
    exact Resolution.cells_flawed h

mutual

/-- The tokens of an accepted span can be cut into parts. -/
theorem Term.cut_listOfTokens (afterOperand : Bool) (ts : List Token) (hwritten : ∀ t ∈ ts, t.IsWritten)
    (hapart : ¬ Juxtaposed ts) (hresumes : Resumes afterOperand ts) {s s' : Resolution.State} {cells : List Cell}
    (h : (Resolution.cells c (Term.listOfTokens c.names endPos afterOperand ts)).run s = (.ok cells, s'))
    (hsites : ∀ site, .call site ∈ cells → ∃ tree, site.toExpr = .ok tree) :
    Part.Cut afterOperand ts cells := by
  cases ts with
  | nil =>
    rw [Term.listOfTokens, Resolution.cells] at h
    cases h
    exact ⟨[], rfl, nofun, trivial, .nil⟩
  | cons t rest =>
    obtain ⟨⟨heof, hneg⟩, hwrittenRest⟩ := List.forall_mem_cons.1 hwritten
    have hapartRest : ¬ Juxtaposed rest := fun h => hapart h.cons
    have hterms := h
    rw [Term.listOfTokens] at h
    split at h
    · -- a constant
      rename_i v hkind
      obtain ⟨x, xs, mid, rfl, hfirst, hrest⟩ := Resolution.cells_cons_ok h
      rw [Resolution.cell] at hfirst
      cases hfirst
      have hnext : Resumes true rest :=
        Juxtaposed.resumes hapart (by rw [Token.endsOperand, hkind]) fun u _ => by rw [Token.calls, hkind]
      refine .const hkind (hresumes.eq_false (by rw [Token.startsOperand, hkind]) (by rw [Token.assigns, hkind])) ?_
      exact Term.cut_listOfTokens true rest hwrittenRest hapartRest hnext hrest
        fun site hmem => hsites site (List.mem_cons_of_mem _ hmem)
    · -- an operator
      rename_i op hkind
      obtain ⟨x, xs, mid, rfl, hfirst, hrest⟩ := Resolution.cells_cons_ok h
      rw [Resolution.cell] at hfirst
      cases hfirst
      refine .operator hkind hneg (fun hunary => ?_)
        (Term.cut_listOfTokens false rest hwrittenRest hapartRest nofun hrest
          fun site hmem => hsites site (List.mem_cons_of_mem _ hmem))
      obtain rfl := Token.eq_not_of_isPrefix hkind hneg hunary
      refine hresumes.eq_false (by rw [Token.startsOperand, hkind]) ?_
      rw [Token.assigns, hkind]
      exact Bool.eq_false_iff.2 fun hequals => Term.not_ok_of_equals c endPos hequals hrest
    · rename_i id hkind
      have hflag := hresumes.eq_false (by rw [Token.startsOperand, hkind]) (by rw [Token.assigns, hkind])
      by_cases hopen : rest.head?.any (·.isSymbol (.left .round)) = true
      · cases rest with
        | nil => cases hopen
        | cons opening rest =>
          -- a call
          have hopening : opening.kind = .symbol (.left .round) := of_decide_eq_true hopen
          obtain ⟨inner, closing, after, args, site, xs, mid, rfl, hclosing, rfl, hargs, hsite, hrest⟩ :=
            Resolution.cells_call_ok c.names endPos hkind hopening hterms
          obtain ⟨tree, htree⟩ := hsites site List.mem_cons_self
          obtain ⟨_, hwrittenPair⟩ := List.forall_mem_cons.1 hwrittenRest
          obtain ⟨hwrittenInner, hwrittenAfter⟩ := List.forall_mem_append.1 hwrittenPair
          have hnotEquals : (closing :: after).head?.any (·.isSymbol .equals) = false := by
            rw [List.head?_cons, Option.any_some, Token.isSymbol, hclosing]
            rfl
          have hapartAfter : ¬ Juxtaposed (closing :: after) := fun h => hapartRest (.cons h.append_right)
          obtain ⟨e, rfl, hfit⟩ := ArgumentOutline.exists_arguments inner hwrittenInner
            (fun h => hapartRest (h.append_left hnotEquals).cons) hargs
            (Resolution.exists_toExpr_of_callSite hsite htree)
          refine .call hkind hopening hclosing hfit hflag ?_
          exact Term.cut_listOfTokens true after (List.forall_mem_cons.1 hwrittenAfter).2 (fun h => hapartAfter h.cons)
            (Juxtaposed.resumes hapartAfter (by rw [Token.endsOperand, hclosing])
              fun u _ => by rw [Token.calls, hclosing])
            hrest fun site hmem => hsites site (List.mem_cons_of_mem _ hmem)
      · -- a name
        rw [if_neg hopen] at h
        obtain ⟨x, xs, mid, rfl, hfirst, hrest⟩ := Resolution.cells_cons_ok h
        have hnext : Resumes true rest := Juxtaposed.resumes hapart (by rw [Token.endsOperand, hkind])
          fun u hu => by
            rw [Option.mem_def.1 hu, Option.any_some, Bool.not_eq_true] at hopen
            exact Token.calls_eq_false hopen
        refine .name hkind (Resolution.isOperand_cell_name hfirst) hflag ?_
        exact Term.cut_listOfTokens true rest hwrittenRest hapartRest hnext hrest
          fun site hmem => hsites site (List.mem_cons_of_mem _ hmem)
    · -- a parenthesis that opens
      rename_i hkind
      obtain ⟨x, xs, mid, rfl, hfirst, hrest⟩ := Resolution.cells_cons_ok h
      rw [Resolution.cell] at hfirst
      cases hfirst
      refine .left hkind (hresumes.eq_false (by rw [Token.startsOperand, hkind]) (by rw [Token.assigns, hkind])) ?_
      exact Term.cut_listOfTokens false rest hwrittenRest hapartRest nofun hrest
        fun site hmem => hsites site (List.mem_cons_of_mem _ hmem)
    · -- a parenthesis that closes
      rename_i hkind
      obtain ⟨x, xs, mid, rfl, hfirst, hrest⟩ := Resolution.cells_cons_ok h
      rw [Resolution.cell] at hfirst
      cases hfirst
      have hnext : Resumes true rest :=
        Juxtaposed.resumes hapart (by rw [Token.endsOperand, hkind]) fun u _ => by rw [Token.calls, hkind]
      refine .right hkind ?_
      exact Term.cut_listOfTokens true rest hwrittenRest hapartRest hnext hrest
        fun site hmem => hsites site (List.mem_cons_of_mem _ hmem)
    · exact (Resolution.cells_flawed h).elim
    · exact absurd (by assumption) heof
termination_by 2 * ts.length

/-- The tokens of accepted arguments are those of arguments of the grammar. -/
theorem ArgumentOutline.exists_arguments (ts : List Token) (hwritten : ∀ t ∈ ts, t.IsWritten)
    (hapart : ¬ Juxtaposed ts) {callee : String} {s s' : Resolution.State} {args : List SiteArgument}
    (h : (Resolution.arguments c callee (ArgumentOutline.listOfTokens c.names endPos ts)).run s = (.ok args, s'))
    (hargs : ∀ arg ∈ args, (∃ name value pos, arg = .shorthand name value pos) ∨
      ∃ tree, arg.value.toExpr = .ok tree) :
    ∃ e : InfixArguments, e.tokens = ts ∧ e.Fit := by
  cases ts with
  | nil => exact ⟨.none, rfl, trivial⟩
  | cons t rest =>
    obtain ⟨first, us, cells, result, args', mid, mid', hle, hsplit, _, hcells, hconvert, rfl, hrest⟩ :=
      Resolution.arguments_first_ok c.names endPos h
    have hwrittenFirst : ∀ u ∈ t :: first, u.IsWritten := by
      rcases hsplit with ⟨rfl, _⟩ | ⟨comma, _, rfl⟩
      · exact hwritten
      · exact (List.forall_mem_append.1 hwritten).1
    have hapartFirst : ¬ Juxtaposed (t :: first) := by
      rcases hsplit with ⟨rfl, _⟩ | ⟨comma, hcomma, rfl⟩
      · exact hapart
      · refine fun hfirst => hapart (hfirst.append_left ?_)
        rw [List.head?_cons, Option.any_some, Token.isSymbol, hcomma]
        rfl
    -- the value of the argument is an expression, unless the argument is a name alone
    have hvalue : (∀ id, (readForm (t :: first)).1 ≠ .shorthand id) →
        ∃ e : Infix, e.Fits 0 ∧ e.tokens = (t :: first).drop (readForm (t :: first)).2 := by
      intro hform
      generalize readForm (t :: first) = form at hform hcells hargs
      obtain ⟨form, skipped⟩ := form
      have hapartValue : ¬ Juxtaposed ((t :: first).drop skipped) := fun h => hapartFirst (by
        rw [← List.take_append_drop skipped (t :: first)]
        exact h.append_right)
      have htree : ∃ tree, (Compiled.mk result (headPos endPos ((t :: first).drop skipped))).toExpr = .ok tree := by
        rcases hargs _ List.mem_cons_self with ⟨name, value, pos, heq⟩ | hvalue
        · cases form <;> first | cases heq; done | exact absurd rfl (hform _)
        · cases form <;> exact hvalue
      obtain ⟨tree, htree⟩ := htree
      obtain ⟨ps, hps, hwell, happarts, hreads⟩ := Term.cut_listOfTokens false ((t :: first).drop skipped)
        (fun u hu => hwrittenFirst u (List.mem_of_mem_drop hu)) hapartValue nofun hcells
        (fun site hsite => Postfix.exists_toExpr hconvert htree hsite)
      rw [← hps]
      exact Part.exists_tokens_eq hreads hwell happarts hconvert htree
    obtain ⟨a, htokens, hfits⟩ := InfixArgument.exists_of_form hvalue
    rcases hsplit with ⟨rfl, _⟩ | ⟨comma, hcomma, rfl⟩
    · exact ⟨.last a, htokens, hfits⟩
    · obtain ⟨e, hrestTokens, hfit⟩ := ArgumentOutline.exists_arguments us
        (fun u hu => hwritten u (List.mem_cons_of_mem _ (List.mem_append_right _ (List.mem_cons_of_mem _ hu))))
        (fun h => hapart (.cons h.cons.append_right)) hrest (fun arg harg => hargs arg (List.mem_cons_of_mem _ harg))
      refine ⟨.more a comma.mark e, ?_, hfits, hfit⟩
      rw [InfixArguments.tokens, htokens, hrestTokens, Token.token_mark hcomma]
      rfl
termination_by 2 * ts.length + 1
decreasing_by
  all_goals
    subst_vars
    simp only [List.length_drop, List.length_cons, List.length_append]
    omega

end

/-- How an arithmetic expression comes to be accepted. -/
theorem Resolution.span_ok {ts : List Token} {s s' : Resolution.State} {compiled : Compiled} {tree : Expr}
    (h : (Resolution.expr c (Outline.ofTokens c.names endPos ts)).run s = (.ok (.span compiled tree), s')) :
    ∃ cells mid result pos,
      (Resolution.cells c (Term.listOfTokens c.names endPos false ts)).run s = (.ok cells, mid) ∧
      Postfix.convert cells = .ok result ∧ (Compiled.mk result pos).toExpr = .ok (.span compiled tree) := by
  cases ts with
  | nil =>
    rw [Outline.ofTokens] at h
    obtain ⟨_, _, _, hcells, _⟩ := Resolution.expr_arithmetic_ok h
    exact (Resolution.cells_flawed hcells).elim
  | cons t rest =>
    generalize hterms : Term.listOfTokens c.names endPos false (t :: rest) = terms
    rw [Outline.ofTokens, hterms] at h
    split at h
    · split at h
      · rw [Resolution.expr] at h
        cases h
      · split at h
        · rw [Resolution.expr] at h
          cases h
        · obtain ⟨_, _, _, _, _, heq, _⟩ := Resolution.expr_conditional_ok h
          cases heq
    · split at h
      · split at h <;>
        · obtain ⟨_, _, _, heq, _⟩ := Resolution.expr_block_ok h
          cases heq
      · obtain ⟨cells, mid, result, hcells, hconvert, hexpr, _⟩ := Resolution.expr_arithmetic_ok h
        exact ⟨cells, mid, result, t.pos, hcells, hconvert, hexpr⟩

/-- An accepted arithmetic expression is one of the grammar exactly when in it no operand directly follows
another. -/
theorem Infix.exists_tokens_eq_iff {ts : List Token} (hwritten : ∀ t ∈ ts, t.IsWritten) {s s' : Resolution.State}
    {compiled : Compiled} {tree : Expr}
    (h : (Resolution.expr c (Outline.ofTokens c.names endPos ts)).run s = (.ok (.span compiled tree), s')) :
    (∃ e : Infix, e.Fits 0 ∧ e.tokens = ts) ↔ ¬ Juxtaposed ts := by
  refine ⟨fun ⟨e, hfits, htokens⟩ => htokens ▸ e.not_juxtaposed hfits, fun hapart => ?_⟩
  obtain ⟨cells, mid, result, pos, hcells, hconvert, htree⟩ := Resolution.span_ok c endPos h
  obtain ⟨ps, rfl, hwell, haparts, hreads⟩ := Term.cut_listOfTokens c endPos false ts hwritten hapart
    nofun hcells (fun site hsite => Postfix.exists_toExpr hconvert htree hsite)
  exact Part.exists_tokens_eq hreads hwell haparts hconvert htree

end Reading

/-- A negated difference of two numbers. -/
def negatedDifference : List Token :=
  [⟨.operator .sub, .start, "-"⟩, ⟨.symbol (.left .round), .addChars .start 1, "("⟩,
    ⟨.const 1, .addChars .start 2, "1"⟩, ⟨.operator .sub, .addChars .start 4, "-"⟩,
    ⟨.const 2, .addChars .start 6, "2"⟩, ⟨.symbol (.right .round), .addChars .start 7, ")"⟩]

theorem Infix.exists_tokens_negatedDifference :
    (∃ compiled tree s', (Resolution.expr {names := {}} (Outline.ofTokens {} .start negatedDifference)).run
        ⟨{}, {}⟩ = (.ok (.span compiled tree), s')) ∧
      ∃ e : Infix, e.Fits 0 ∧ e.tokens = negatedDifference := by
  have hwritten : ∀ t ∈ negatedDifference, t.IsWritten := by decide
  have haccepted : ∃ compiled tree s',
      (Resolution.expr {names := {}} (Outline.ofTokens {} .start negatedDifference)).run ⟨{}, {}⟩ =
        (.ok (.span compiled tree), s') := by
    simp only [negatedDifference, Outline.ofTokens, Term.listOfTokens]
    exact ⟨_, _, _, rfl⟩
  obtain ⟨compiled, tree, s', hrun⟩ := haccepted
  refine ⟨⟨compiled, tree, s', hrun⟩, (exists_tokens_eq_iff {names := {}} .start hwritten hrun).2 ?_⟩
  simp [negatedDifference, Juxtaposed, Token.Abuts, Token.endsOperand, Token.startsOperand]

/-- Two numbers and the operator after them. -/
def sumAfterOperands : List Token :=
  [⟨.const 1, .start, "1"⟩, ⟨.const 2, .addChars .start 2, "2"⟩, ⟨.operator .add, .addChars .start 4, "+"⟩]

/-- A span that is accepted though its operator stands after both operands. -/
theorem Infix.not_exists_tokens_sumAfterOperands :
    (∀ t ∈ sumAfterOperands, t.IsWritten) ∧
      (∃ compiled tree s', (Resolution.expr {names := {}} (Outline.ofTokens {} .start sumAfterOperands)).run
        ⟨{}, {}⟩ = (.ok (.span compiled tree), s')) ∧
      ¬ ∃ e : Infix, e.Fits 0 ∧ e.tokens = sumAfterOperands := by
  refine ⟨by decide, ?_, ?_⟩
  · simp only [sumAfterOperands, Outline.ofTokens, Term.listOfTokens]
    exact ⟨_, _, _, rfl⟩
  · rintro ⟨e, hfits, htokens⟩
    refine e.not_juxtaposed hfits ?_
    rw [htokens]
    exact .inl ⟨⟨rfl, rfl, rfl⟩, rfl⟩

end ToneScript
