import ToneScript.Proofs.Arithmetic.Alternation
import ToneScript.Proofs.Arithmetic.Conversion
import ToneScript.Proofs.Arithmetic.Reading
import ToneScript.Proofs.Rendering.Shape

/-! Arithmetic expressions that are written out have parse trees, with parentheses where a shape has none. -/
namespace ToneScript

mutual

/-- The shape of a parse tree: what is left of it without parentheses and marks. -/
def Infix.shape : Infix → Shape
  | .const v _ => .number v
  | .name x _ => .var x
  | .call callee _ _ args _ =>
    .call callee (if args.named then .named else .ordered) (args.shapes args.named)
  | .group _ inner _ => inner.shape
  | .prefixed sign _ operand => .prefixed sign.operator operand.shape
  | .power left _ right => .binary .exp left.shape right.shape
  | .binary op left _ right => .binary op left.shape right.shape

/-- The shape of an argument of a call, which may give arguments by name. -/
def InfixArgument.shape (named : Bool) : InfixArgument → ArgumentShape
  | .positional (.name x _) => if named then .shorthand x else .positional (.var x)
  | .positional value => .positional value.shape
  | .assign x _ _ value => .assign x value.shape
  | .opAssign x _ op _ _ value => .opAssign x op value.shape

/-- The shapes of the arguments of a call. -/
def InfixArguments.shapes (named : Bool) : InfixArguments → List ArgumentShape
  | .none => []
  | .last arg => [arg.shape named]
  | .more arg _ rest => arg.shape named :: rest.shapes named

end

theorem InfixArgument.shape_positional (value : Infix) :
    (InfixArgument.positional value).shape false = .positional value.shape := by
  cases value <;> rfl

/-- The arguments of a call all name parameters, and one of them is assigned, or none does. -/
theorem CallStyle.Admits.exists_named {style : CallStyle} {args : List ArgumentShape} (h : style.Admits args) :
    ∃ named : Bool, (if named then .named else .ordered) = style ∧ (∀ arg ∈ args, arg.isNamed = named) ∧
      args.any ArgumentShape.isAssignment = named := by
  cases style with
  | named => exact ⟨true, rfl, h.2, h.1⟩
  | ordered =>
    refine ⟨false, rfl, h, List.any_eq_false.2 fun arg harg => ?_⟩
    have hordered := h arg harg
    cases arg with
    | positional value => exact Bool.false_ne_true
    | shorthand | assign | opAssign => cases hordered

theorem Operator.written_of_ne {op : Operator} (h : op ≠ .neg) : op.written = op := by
  cases op <;> first | rfl | exact absurd rfl h

/-- An operator before its operand is that of a sign. -/
theorem Operator.exists_sign {op : Operator} (h : op.isPrefix = true) :
    ∃ sign : Sign, sign.operator = op ∧ sign.written = op.written := by
  cases op with
  | neg => exact ⟨.minus, rfl, rfl⟩
  | not => exact ⟨.bang, rfl, rfl⟩
  | _ => cases h

/-- An operator between operands that is in no tier is that of a power. -/
theorem Operator.eq_exp {op : Operator} (h : op.isPrefix = false) (htier : op.tier? = none) : op = .exp := by
  revert h htier
  cases op <;> decide

/-- Whether tokens are those of an expression of the grammar from a tier on, with a given shape. Above all tiers this
is a constant, a name, a call or in parentheses. -/
def Written (s : Shape) (tier : Nat) (ts : List Token) : Prop :=
  ∃ e : Infix, e.tokens = ts ∧ e.shape = s ∧ e.Fits tier ∧ (topTier < tier → e.IsAtom)

/-- An expression in parentheses stands in any place. -/
theorem Written.parenthesized {s : Shape} {kinds : List Token.Kind} {needed : Bool} {tier : Nat} {ts : List Token}
    (hts : ts.map Token.kind = parenthesized needed kinds) (hneeded : topTier < tier → needed = true)
    (hbare : ∀ us : List Token, us.map Token.kind = kinds →
      ∃ e : Infix, e.tokens = us ∧ e.shape = s ∧ e.Fits 0 ∧ (needed = false → e.Fits tier)) :
    Written s tier ts := by
  cases needed with
  | false =>
    obtain ⟨e, rfl, hshape, _, hfits⟩ := hbare ts hts
    exact ⟨e, rfl, hshape, hfits rfl, fun hlt => absurd (hneeded hlt) Bool.false_ne_true⟩
  | true =>
    obtain ⟨opening, _, rfl, hopening, hrest⟩ := List.map_eq_cons_iff.1 hts
    obtain ⟨us, _, rfl, hus, hlast⟩ := List.map_eq_append_iff.1 hrest
    obtain ⟨closing, rfl, hclosing⟩ := List.map_eq_singleton_iff.1 hlast
    obtain ⟨e, rfl, hshape, hfits, _⟩ := hbare us hus
    refine ⟨.group opening.mark e closing.mark, ?_, hshape, hfits, fun _ => trivial⟩
    rw [Infix.tokens, Token.token_mark hopening, Token.token_mark hclosing]

section

variable {n : Naming}

mutual

/-- An arithmetic expression that is written out has a parse tree. -/
theorem Shape.written (s : Shape) (h : s.Formula n) {tier : Nat} {ts : List Token}
    (hts : ts.map Token.kind = s.kinds tier) : Written s tier ts := by
  cases s with
  | number v =>
    obtain ⟨t, rfl, ht⟩ := List.map_eq_singleton_iff.1 hts
    exact ⟨.const v t.mark, congrArg (· :: []) (Token.token_mark ht), rfl, trivial, fun _ => trivial⟩
  | var x =>
    obtain ⟨t, rfl, ht⟩ := List.map_eq_singleton_iff.1 hts
    exact ⟨.name x t.mark, congrArg (· :: []) (Token.token_mark ht), rfl, trivial, fun _ => trivial⟩
  | prefixed op operand =>
    obtain ⟨sign, rfl, hwritten⟩ := Operator.exists_sign h.1
    rw [Shape.kinds, ← hwritten] at hts
    refine .parenthesized hts (by simp) fun us hus => ?_
    obtain ⟨t, us, rfl, ht, hus⟩ := List.map_eq_cons_iff.1 hus
    obtain ⟨e, rfl, rfl, hfits, _⟩ := Shape.written operand h.2 hus
    exact ⟨.prefixed sign t.mark e, congrArg (· :: e.tokens) (Token.token_mark ht), rfl, hfits, fun _ => hfits⟩
  | binary op left right =>
    obtain ⟨hbetween, hleft, hright⟩ := h
    rw [Shape.kinds] at hts
    split at hts
    · rename_i k htier
      have hk := (Operator.of_tier? htier).2.2.2
      refine .parenthesized hts (by simp; omega) fun us hus => ?_
      obtain ⟨ls, _, rfl, hls, hrest⟩ := List.map_eq_append_iff.1 hus
      obtain ⟨t, rs, rfl, ht, hrs⟩ := List.map_eq_cons_iff.1 hrest
      obtain ⟨l, rfl, rfl, hl, _⟩ := Shape.written left hleft hls
      obtain ⟨r, rfl, rfl, hr, _⟩ := Shape.written right hright hrs
      refine ⟨.binary op l t.mark r, by rw [Infix.tokens, Token.token_mark ht], rfl,
        ⟨k, htier, Nat.zero_le _, hl, hr⟩, fun hle => ⟨k, htier, by simpa using hle, hl, hr⟩⟩
    · rename_i htier
      cases Operator.eq_exp hbetween htier
      refine .parenthesized hts (by simp) fun us hus => ?_
      obtain ⟨ls, _, rfl, hls, hrest⟩ := List.map_eq_append_iff.1 hus
      obtain ⟨t, rs, rfl, ht, hrs⟩ := List.map_eq_cons_iff.1 hrest
      obtain ⟨l, rfl, rfl, hl, hatom⟩ := Shape.written left hleft hls
      obtain ⟨r, rfl, rfl, hr, _⟩ := Shape.written right hright hrs
      have hpower : (Infix.power l t.mark r).Fits 0 :=
        ⟨hatom (Nat.lt_succ_self _), (hatom (Nat.lt_succ_self _)).fits hl topTier, hr⟩
      exact ⟨.power l t.mark r, by rw [Infix.tokens, Token.token_mark ht], rfl, hpower, fun _ => hpower⟩
  | call callee style args =>
    obtain ⟨_, hadmits, hargs⟩ := h
    obtain ⟨t, _, rfl, ht, hrest⟩ := List.map_eq_cons_iff.1 hts
    obtain ⟨opening, _, rfl, hopening, hrest'⟩ := List.map_eq_cons_iff.1 hrest
    obtain ⟨us, _, rfl, hus, hlast⟩ := List.map_eq_append_iff.1 hrest'
    obtain ⟨closing, rfl, hclosing⟩ := List.map_eq_singleton_iff.1 hlast
    obtain ⟨named, hstyle, hnamed, hany⟩ := hadmits.exists_named
    obtain ⟨as, rfl, hshapes, hfit, hassigned⟩ := ArgumentShape.allWritten named args hargs hnamed hus
    refine ⟨.call callee t.mark opening.mark as closing.mark, ?_, ?_, hfit, fun _ => trivial⟩
    · rw [Infix.tokens, Token.token_mark ht, Token.token_mark hopening, Token.token_mark hclosing]
    · rw [Infix.shape, hassigned, hany, hshapes, hstyle]
  | boolean | block | conditional => exact h.elim

/-- Arguments that are written out have parse trees. -/
theorem ArgumentShape.allWritten (named : Bool) (args : List ArgumentShape) (h : ArgumentShape.AllFormula n args)
    (hnamed : ∀ arg ∈ args, arg.isNamed = named) {ts : List Token}
    (hts : ts.map Token.kind = separated (ArgumentShape.kindsOfAll args)) :
    ∃ as : InfixArguments, as.tokens = ts ∧ as.shapes named = args ∧ as.Fit ∧
      as.named = args.any ArgumentShape.isAssignment := by
  cases args with
  | nil =>
    rw [List.map_eq_nil_iff.1 hts]
    exact ⟨.none, rfl, rfl, trivial, rfl⟩
  | cons arg args =>
    obtain ⟨harg, hargs⟩ := h
    obtain ⟨hfirst, hrest⟩ := List.forall_mem_cons.1 hnamed
    cases args with
    | nil =>
      simp only [ArgumentShape.kindsOfAll, separated, List.intercalate_singleton] at hts
      obtain ⟨a, rfl, hshape, hfits, hassigned⟩ := ArgumentShape.written named arg harg hfirst hts
      refine ⟨.last a, rfl, by rw [InfixArguments.shapes, hshape], hfits, ?_⟩
      simp [InfixArguments.named, InfixArguments.toList, hassigned]
    | cons arg' args' =>
      rw [ArgumentShape.kindsOfAll, ArgumentShape.kindsOfAll, separated, List.intercalate_cons_cons,
        List.append_assoc] at hts
      obtain ⟨us, _, rfl, hus, hrest'⟩ := List.map_eq_append_iff.1 hts
      obtain ⟨comma, vs, rfl, hcomma, hvs⟩ := List.map_eq_cons_iff.1 hrest'
      obtain ⟨a, rfl, hshape, hfits, hassigned⟩ := ArgumentShape.written named arg harg hfirst hus
      obtain ⟨as, rfl, hshapes, hfit, hassigneds⟩ := ArgumentShape.allWritten named (arg' :: args') hargs hrest hvs
      refine ⟨.more a comma.mark as, ?_, by rw [InfixArguments.shapes, hshape, hshapes], ⟨hfits, hfit⟩, ?_⟩
      · rw [InfixArguments.tokens, Token.token_mark hcomma]
      · rw [InfixArguments.named] at hassigneds ⊢
        rw [InfixArguments.toList, List.any_cons, List.any_cons, hassigned, hassigneds]

/-- An argument that is written out has a parse tree. -/
theorem ArgumentShape.written (named : Bool) (arg : ArgumentShape) (h : arg.Formula n) (hnamed : arg.isNamed = named)
    {ts : List Token} (hts : ts.map Token.kind = arg.kinds) :
    ∃ a : InfixArgument, a.tokens = ts ∧ a.shape named = arg ∧ a.Fits ∧ a.isAssignment = arg.isAssignment := by
  cases arg with
  | shorthand x =>
    subst hnamed
    obtain ⟨t, rfl, ht⟩ := List.map_eq_singleton_iff.1 hts
    exact ⟨.positional (.name x t.mark), congrArg (· :: []) (Token.token_mark ht), rfl, trivial, rfl⟩
  | assign x value =>
    subst hnamed
    obtain ⟨t, _, rfl, ht, hrest⟩ := List.map_eq_cons_iff.1 hts
    obtain ⟨equals, us, rfl, hequals, hus⟩ := List.map_eq_cons_iff.1 hrest
    obtain ⟨e, rfl, rfl, hfits, _⟩ := Shape.written value h hus
    refine ⟨.assign x t.mark equals.mark e, ?_, rfl, hfits, rfl⟩
    rw [InfixArgument.tokens, Token.token_mark ht, Token.token_mark hequals]
  | opAssign x op value =>
    subst hnamed
    rw [ArgumentShape.kinds, Operator.written_of_ne h.1] at hts
    obtain ⟨t, _, rfl, ht, hrest⟩ := List.map_eq_cons_iff.1 hts
    obtain ⟨t', _, rfl, hop, hrest'⟩ := List.map_eq_cons_iff.1 hrest
    obtain ⟨equals, us, rfl, hequals, hus⟩ := List.map_eq_cons_iff.1 hrest'
    obtain ⟨e, rfl, rfl, hfits, _⟩ := Shape.written value h.2 hus
    refine ⟨.opAssign x t.mark op t'.mark equals.mark e, ?_, rfl, hfits, rfl⟩
    rw [InfixArgument.tokens, Token.token_mark ht, Token.token_mark hop, Token.token_mark hequals]
  | positional value =>
    subst hnamed
    obtain ⟨e, rfl, rfl, hfits, _⟩ := Shape.written value h hts
    exact ⟨.positional e, rfl, InfixArgument.shape_positional e, hfits, rfl⟩

end

end

end ToneScript
