import Mathlib.Data.List.Basic
import ToneScript.Proofs.Text.Brackets
import ToneScript.Syntax.OfOutline

/-! The grammar of programs: which tokens make up which items, down to the parameters of definitions, the entries of
blocks and the arguments of calls. Of an arithmetic expression it gives the cells in the order of the text; how they
group is left to their conversion. -/
namespace ToneScript

/-- What the lists of the grammar may have too much, or too little, at their ends. -/
structure Leniency where
  /-- Whether a comma may follow the last parameter of a definition or the last argument of a call. -/
  trailingComma : Bool
  /-- Whether a closure that ends its block may be without a semicolon. -/
  openClosure : Bool
deriving DecidableEq

/-- Everything that reading lets pass. -/
def Leniency.full : Leniency :=
  ⟨true, true⟩

/-- Tokens of the members of a list, with commas between them. -/
inductive Separated {α : Type} (Derived : List Token → α → Prop) (trailingComma : Bool) :
    List Token → List α → Prop where
  | nil : Separated Derived trailingComma [] []
  | last {ts : List Token} {a : α} (member : Derived ts a) : Separated Derived trailingComma ts [a]
  | more {ts us : List Token} {comma : Token} {a : α} {as : List α} (member : Derived ts a)
      (hcomma : comma.kind = .symbol .comma) (rest : Separated Derived trailingComma us as)
      (hlast : us = [] → trailingComma = true) : Separated Derived trailingComma (ts ++ comma :: us) (a :: as)

/-- Tokens of a parameter: its name, and perhaps a default. -/
inductive Param.Derived : List Token → Param → Prop where
  | required {name : Token} {id : Ident} (hname : name.kind = .ident id) :
      Param.Derived [name] ⟨id, none, name.pos⟩
  | default {name equals value : Token} {id : Ident} {v : Number} (hname : name.kind = .ident id)
      (hequals : equals.kind = .symbol .equals) (hvalue : value.kind = .const v) :
      Param.Derived [name, equals, value] ⟨id, some v, name.pos⟩
  | negative {name equals minus value : Token} {id : Ident} {v : Number} (hname : name.kind = .ident id)
      (hequals : equals.kind = .symbol .equals) (hminus : minus.kind = .operator .sub)
      (hvalue : value.kind = .const v) : Param.Derived [name, equals, minus, value] ⟨id, some (-v), name.pos⟩

/-- The cells that a token may stand for by itself. A name stands for a variable or for its value, a minus sign for a
subtraction or a negation. -/
inductive Cell.OfToken : Token → Cell → Prop where
  | const {t : Token} {v : Number} (h : t.kind = .const v) : Cell.OfToken t (.value (.number v) t.pos)
  | slot {t : Token} {id : Ident} (h : t.kind = .ident id) : Cell.OfToken t (.slot id t.pos)
  | value {t : Token} {id : Ident} {v : Value} (h : t.kind = .ident id) : Cell.OfToken t (.value v t.pos)
  | operator {t : Token} {op : Operator} (h : t.kind = .operator op) : Cell.OfToken t (.operator op t.pos)
  | negation {t : Token} (h : t.kind = .operator .sub) : Cell.OfToken t (.operator .neg t.pos)
  | left {t : Token} (h : t.kind = .symbol (.left .round)) : Cell.OfToken t (.left t.pos)
  | right {t : Token} (h : t.kind = .symbol (.right .round)) : Cell.OfToken t (.right t.pos)

mutual

/-- Tokens of an arithmetic expression and its cells. A name with a parenthesis after it is that of a call. -/
inductive Cell.AllDerived (l : Leniency) : List Token → List Cell → Prop where
  | nil : Cell.AllDerived l [] []
  | eof {t : Token} {ts : List Token} {cells : List Cell} (heof : t.kind = .eof)
      (rest : Cell.AllDerived l ts cells) : Cell.AllDerived l (t :: ts) cells
  | token {t : Token} {ts : List Token} {cell : Cell} {cells : List Cell} (first : Cell.OfToken t cell)
      (hcalls : ∀ id, t.kind = .ident id → ts.head?.any (·.isSymbol (.left .round)) = false)
      (rest : Cell.AllDerived l ts cells) : Cell.AllDerived l (t :: ts) (cell :: cells)
  | call {name opening closing : Token} {inner ts : List Token} {id : Ident} {callee : String}
      {args : List SiteArgument} {site : CallSite} {cells : List Cell} (hname : name.kind = .ident id)
      (hopening : opening.kind = .symbol (.left .round))
      (args_derived : Separated (SiteArgument.Derived l) l.trailingComma inner args)
      (hclosing : closing.kind = .symbol (.right .round))
      (hsite : Resolution.callSite callee id args name.pos = .ok site) (rest : Cell.AllDerived l ts cells) :
      Cell.AllDerived l (name :: opening :: (inner ++ closing :: ts)) (.call site :: cells)

/-- Tokens of an arithmetic expression and the sequence that they are compiled to. -/
inductive Compiled.Derived (l : Leniency) : List Token → Compiled → Prop where
  | convert {t : Token} {ts : List Token} {cells sequence : List Cell} (cells_derived : Cell.AllDerived l (t :: ts) cells)
      (hconvert : Postfix.convert cells = .ok sequence) : Compiled.Derived l (t :: ts) ⟨sequence, t.pos⟩

/-- Tokens of an argument of a call: a name alone, an assignment, an assignment with an operator, or a value. -/
inductive SiteArgument.Derived (l : Leniency) : List Token → SiteArgument → Prop where
  | shorthand {name : Token} {id : Ident} {value : Compiled} (hname : name.kind = .ident id)
      (value_derived : Compiled.Derived l [name] value) : SiteArgument.Derived l [name] (.shorthand id value name.pos)
  | assign {name equals : Token} {ts : List Token} {id : Ident} {value : Compiled} (hname : name.kind = .ident id)
      (hequals : equals.kind = .symbol .equals) (value_derived : Compiled.Derived l ts value) :
      SiteArgument.Derived l (name :: equals :: ts) (.assign id value name.pos)
  | opAssign {name operator equals : Token} {ts : List Token} {id : Ident} {op : Operator} {value : Compiled}
      (hname : name.kind = .ident id) (hoperator : operator.kind = .operator op)
      (hequals : equals.kind = .symbol .equals) (value_derived : Compiled.Derived l ts value) :
      SiteArgument.Derived l (name :: operator :: equals :: ts) (.opAssign id op value name.pos)
  | positional {t : Token} {ts : List Token} {value : Compiled} (value_derived : Compiled.Derived l (t :: ts) value) :
      SiteArgument.Derived l (t :: ts) (.positional value t.pos)

end

mutual

/-- Tokens of an expression. -/
inductive Expr.Derived (l : Leniency) : List Token → Expr → Prop where
  | conditional {keyword colon other : Token} {conditionTokens thenTokens elseTokens : List Token}
      {condition thenBranch elseBranch : Expr} (hkeyword : keyword.kind = .symbol .kwIf)
      (condition_derived : Expr.Derived l conditionTokens condition) (hcolon : colon.kind = .symbol .colon)
      (then_derived : Expr.Derived l thenTokens thenBranch) (hother : other.kind = .symbol .kwElse)
      (else_derived : Expr.Derived l elseTokens elseBranch) :
      Expr.Derived l (keyword :: (conditionTokens ++ colon :: (thenTokens ++ other :: elseTokens)))
        (.conditional condition thenBranch elseBranch keyword.pos)
  | block {opening closing : Token} {ts : List Token} {entries : List BlockEntry}
      (hopening : opening.kind = .symbol (.left .curly)) (entries_derived : BlockEntry.AllDerived l ts entries)
      (hclosing : closing.kind = .symbol (.right .curly)) :
      Expr.Derived l (opening :: (ts ++ [closing])) (.block opening.pos.index entries opening.pos)
  | arithmetic {ts : List Token} {compiled : Compiled} {e : Expr} (compiled_derived : Compiled.Derived l ts compiled)
      (htree : compiled.toExpr = .ok e) : Expr.Derived l ts e

/-- Tokens of the entries of a block. A semicolon by itself is no entry. -/
inductive BlockEntry.AllDerived (l : Leniency) : List Token → List BlockEntry → Prop where
  | nil : BlockEntry.AllDerived l [] []
  | semicolon {t : Token} {ts : List Token} {entries : List BlockEntry} (hsemicolon : t.kind = .symbol .semicolon)
      (rest : BlockEntry.AllDerived l ts entries) : BlockEntry.AllDerived l (t :: ts) entries
  | closure {opening semicolon : Token} {ts us : List Token} {f : FunctionDef} {entries : List BlockEntry}
      (function_derived : FunctionDef.Derived l (opening :: ts) f) (hsemicolon : semicolon.kind = .symbol .semicolon)
      (rest : BlockEntry.AllDerived l us entries) :
      BlockEntry.AllDerived l (opening :: (ts ++ semicolon :: us)) (.closure f opening.pos :: entries)
  | openClosure {opening : Token} {ts : List Token} {f : FunctionDef} (hopen : l.openClosure = true)
      (function_derived : FunctionDef.Derived l (opening :: ts) f) :
      BlockEntry.AllDerived l (opening :: ts) [.closure f opening.pos]
  | operator {t semicolon : Token} {ts us : List Token} {op : Operator} {value : Expr} {entries : List BlockEntry}
      (hoperator : t.kind = .operator op) (value_derived : Expr.Derived l ts value)
      (hsemicolon : semicolon.kind = .symbol .semicolon) (rest : BlockEntry.AllDerived l us entries) :
      BlockEntry.AllDerived l (t :: (ts ++ semicolon :: us)) (.operator op value none t.pos :: entries)
  | guarded {t question semicolon : Token} {ts guardTokens us : List Token} {op : Operator} {value guard : Expr}
      {entries : List BlockEntry} (hoperator : t.kind = .operator op) (value_derived : Expr.Derived l ts value)
      (hquestion : question.kind = .symbol .questionMark) (guard_derived : Expr.Derived l guardTokens guard)
      (hsemicolon : semicolon.kind = .symbol .semicolon) (rest : BlockEntry.AllDerived l us entries) :
      BlockEntry.AllDerived l (t :: (ts ++ question :: (guardTokens ++ semicolon :: us)))
        (.operator op value (some guard) t.pos :: entries)

/-- Tokens of a function definition: its header in square brackets, and its body. -/
inductive FunctionDef.Derived (l : Leniency) : List Token → FunctionDef → Prop where
  | function {opening name closing : Token} {paramTokens bodyTokens : List Token} {id : Ident} {params : List Param}
      {scope : List BlockKey} {body : Expr} (hopening : opening.kind = .symbol (.left .square))
      (hname : name.kind = .ident id) (params_derived : Separated Param.Derived l.trailingComma paramTokens params)
      (hclosing : closing.kind = .symbol (.right .square)) (body_derived : Expr.Derived l bodyTokens body) :
      FunctionDef.Derived l (opening :: name :: (paramTokens ++ closing :: bodyTokens))
        ⟨id, name.pos, params, opening.pos.index, scope, body⟩

end

/-- Tokens of the items of a program. A semicolon by itself is no item; it ends a function whose body is no block,
unless the source ends there. -/
inductive Item.AllDerived (l : Leniency) : List Token → List Item → Prop where
  | nil : Item.AllDerived l [] []
  | semicolon {t : Token} {ts : List Token} {items : List Item} (hsemicolon : t.kind = .symbol .semicolon)
      (rest : Item.AllDerived l ts items) : Item.AllDerived l (t :: ts) items
  | function {opening : Token} {ts us : List Token} {f : FunctionDef} {items : List Item}
      (function_derived : FunctionDef.Derived l (opening :: ts) f)
      (hends : f.body.isBlock = false → ∀ t ∈ us.head?, t.kind = .symbol .semicolon)
      (rest : Item.AllDerived l us items) : Item.AllDerived l (opening :: (ts ++ us)) (.function f opening.pos :: items)
  | assignment {name equals semicolon : Token} {ts us : List Token} {id : Ident} {value : Expr} {items : List Item}
      (hname : name.kind = .ident id) (hequals : equals.kind = .symbol .equals) (value_derived : Expr.Derived l ts value)
      (hsemicolon : semicolon.kind = .symbol .semicolon) (rest : Item.AllDerived l us items) :
      Item.AllDerived l (name :: equals :: (ts ++ semicolon :: us)) (.assignment id value name.pos :: items)

/-- Lists whose members hold no brackets hold none. -/
theorem Separated.balanced {α : Type} {Derived : List Token → α → Prop} {trailingComma : Bool} {ts : List Token}
    {as : List α} (h : Separated Derived trailingComma ts as)
    (hmember : ∀ us a, Derived us a → Span.Balanced us) : Span.Balanced ts := by
  induction h with
  | nil => exact .nil
  | last member => exact hmember _ _ member
  | @more ts us comma a as member hcomma rest hlast ih =>
    have hleft : comma.isLeft = false := by rw [Token.isLeft, hcomma]; rfl
    have hright : comma.isRight = false := by rw [Token.isRight, hcomma]; rfl
    exact (hmember _ _ member).append (.plain hleft hright ih)

/-- A member of a list is made up of some of its tokens. -/
theorem Separated.derived_of_mem {α : Type} {Derived : List Token → α → Prop} {trailingComma : Bool} {ts : List Token}
    {as : List α} (h : Separated Derived trailingComma ts as) {a : α} (ha : a ∈ as) : ∃ us, us ⊆ ts ∧ Derived us a := by
  induction h with
  | nil => cases ha
  | @last ts b member =>
    rw [List.mem_singleton.1 ha]
    exact ⟨ts, List.Subset.refl _, member⟩
  | @more ts us comma b bs member hcomma rest hlast ih =>
    rcases List.mem_cons.1 ha with rfl | ha
    · exact ⟨ts, List.subset_append_left _ _, member⟩
    · obtain ⟨vs, hvs, hderived⟩ := ih ha
      exact ⟨vs, fun t ht => List.mem_append_right _ (List.mem_cons_of_mem _ (hvs ht)), hderived⟩

theorem Param.Derived.balanced {ts : List Token} {p : Param} (h : Param.Derived ts p) : Span.Balanced ts := by
  have hplain {t : Token} {us : List Token} {k : Token.Kind} (hkind : t.kind = k)
      (hleft : (Token.mk k t.pos t.lexeme).isLeft = false) (hright : (Token.mk k t.pos t.lexeme).isRight = false)
      (hus : Span.Balanced us) : Span.Balanced (t :: us) := by
    subst hkind
    exact .plain hleft hright hus
  cases h with
  | required hname => exact hplain hname rfl rfl .nil
  | default hname hequals hvalue =>
    exact hplain hname rfl rfl (hplain hequals rfl rfl (hplain hvalue rfl rfl .nil))
  | negative hname hequals hminus hvalue =>
    exact hplain hname rfl rfl (hplain hequals rfl rfl (hplain hminus rfl rfl (hplain hvalue rfl rfl .nil)))

/-- A list that ends with a comma, though none of its members does, is one where a comma may follow the last. -/
theorem Separated.trailingComma {α : Type} {Derived : List Token → α → Prop} {trailingComma : Bool} {ts : List Token}
    {as : List α} (h : Separated Derived trailingComma ts as)
    (hmember : ∀ us a, Derived us a → ∀ t ∈ us.getLast?, t.kind ≠ .symbol .comma)
    (hlast : ∃ t ∈ ts.getLast?, t.kind = .symbol .comma) : trailingComma = true := by
  induction h with
  | nil =>
    obtain ⟨t, ht, _⟩ := hlast
    cases ht
  | last member =>
    obtain ⟨t, ht, hcomma⟩ := hlast
    exact absurd hcomma (hmember _ _ member t ht)
  | @more us vs comma a as member _ rest hrest ih =>
    cases vs with
    | nil => exact hrest rfl
    | cons v vs =>
      refine ih ?_
      rwa [List.getLast?_append_cons, List.getLast?_cons_cons] at hlast

/-- The name of a parameter is that of a token. -/
theorem Param.Derived.name_mem {ts : List Token} {p : Param} (h : Param.Derived ts p) :
    ∃ t ∈ ts, t.kind = .ident p.name := by
  cases h with
  | required hname | default hname | negative hname => exact ⟨_, List.mem_cons_self, hname⟩

theorem Param.Derived.getLast?_ne_comma {ts : List Token} {p : Param} (h : Param.Derived ts p) :
    ∀ t ∈ ts.getLast?, t.kind ≠ .symbol .comma := by
  intro t ht hcomma
  cases h with
  | required hlast | default _ _ hlast | negative _ _ _ hlast =>
    cases ht
    cases hlast.symm.trans hcomma

theorem FunctionDef.Derived.params_mem {l : Leniency} {ts : List Token} {f : FunctionDef}
    (h : FunctionDef.Derived l ts f) : ∀ p ∈ f.params, ∃ t ∈ ts, t.kind = .ident p.name := by
  cases h with
  | function _ _ params_derived _ _ =>
    intro p hp
    obtain ⟨us, hus, hderived⟩ := params_derived.derived_of_mem hp
    obtain ⟨t, ht, hkind⟩ := hderived.name_mem
    exact ⟨t, List.mem_cons_of_mem _ (List.mem_cons_of_mem _ (List.mem_append_left _ (hus ht))), hkind⟩

theorem getLast?_of_append_semicolon {ts us : List Token} {semicolon t : Token}
    (hsemicolon : semicolon.kind = .symbol .semicolon) (h : (ts ++ semicolon :: us).getLast? = some t)
    (ht : t.kind ≠ .symbol .semicolon) : us.getLast? = some t := by
  rw [List.getLast?_append_cons] at h
  cases us with
  | nil =>
    cases h
    exact absurd hsemicolon ht
  | cons u us => rwa [List.getLast?_cons_cons] at h

/-- Entries that do not end with a semicolon end with a closure that lacks it. -/
theorem BlockEntry.AllDerived.openClosure_of_getLast? {l : Leniency} {ts : List Token} {entries : List BlockEntry}
    (h : BlockEntry.AllDerived l ts entries) {t : Token} (hlast : ts.getLast? = some t)
    (ht : t.kind ≠ .symbol .semicolon) : l.openClosure = true := by
  cases h with
  | nil => cases hlast
  | openClosure hopen _ => exact hopen
  | semicolon hsemicolon rest =>
    exact rest.openClosure_of_getLast? (@getLast?_of_append_semicolon [] _ _ _ hsemicolon hlast ht) ht
  | @closure opening _ ts _ _ _ _ hsemicolon rest =>
    exact rest.openClosure_of_getLast? (@getLast?_of_append_semicolon (opening :: ts) _ _ _ hsemicolon hlast ht) ht
  | @operator first _ ts _ _ _ _ _ _ hsemicolon rest =>
    exact rest.openClosure_of_getLast? (@getLast?_of_append_semicolon (first :: ts) _ _ _ hsemicolon hlast ht) ht
  | @guarded first question _ ts guardTokens _ _ _ _ _ _ _ _ _ hsemicolon rest =>
    refine rest.openClosure_of_getLast? (@getLast?_of_append_semicolon (first :: (ts ++ question :: guardTokens))
      _ _ _ hsemicolon ?_ ht) ht
    simpa using hlast
termination_by ts.length

theorem Cell.not_allDerived_cons {l : Leniency} {t : Token} {ts : List Token} {cells : List Cell} {b : Bracket}
    (hkind : t.kind = .symbol (.left b)) (hb : b ≠ .round) : ¬ Cell.AllDerived l (t :: ts) cells := by
  intro h
  cases h with
  | eof hother | call hother => cases hkind.symm.trans hother
  | token first _ _ =>
    cases first with
    | left hother =>
      cases hkind.symm.trans hother
      exact hb rfl
    | const hother | slot hother | value hother | operator hother | negation hother | right hother =>
      cases hkind.symm.trans hother

/-- An expression that starts with a curly bracket is a block. -/
theorem Expr.Derived.of_left_curly {l : Leniency} {ts : List Token} {e : Expr} (h : Expr.Derived l ts e)
    {opening : Token} {us vs : List Token} (hopening : opening.kind = .symbol (.left .curly))
    (hts : ts ++ us = opening :: vs) : ∃ inner closing entries, vs = inner ++ closing :: us ∧
      closing.kind = .symbol (.right .curly) ∧ BlockEntry.AllDerived l inner entries := by
  cases h with
  | conditional hkeyword =>
    cases (List.cons.inj hts).1
    cases hopening.symm.trans hkeyword
  | arithmetic compiled_derived =>
    cases compiled_derived with
    | convert cells_derived =>
      cases (List.cons.inj hts).1
      exact absurd cells_derived (Cell.not_allDerived_cons hopening nofun)
  | @block _ closing inner entries _ entries_derived hclosing =>
    refine ⟨inner, closing, entries, ?_, hclosing, entries_derived⟩
    have htail : inner ++ [closing] ++ us = vs := (List.cons.inj hts).2
    rw [← htail, List.append_assoc, List.singleton_append]

/-- What follows a definition, if what follows the semicolon after it is derived where it has one. -/
theorem Item.AllDerived.after_definition {l : Leniency} {rest : List Token} {n : Nat} {items : List Item}
    (h : Item.AllDerived l
      (rest.drop (if (rest.drop n).head?.any (·.isSymbol .semicolon) then n + 1 else n)) items) :
    Item.AllDerived l (rest.drop n) items := by
  split at h
  · rename_i hsemicolon
    rw [← List.drop_drop] at h
    cases hafter : rest.drop n with
    | nil =>
      rw [hafter] at hsemicolon
      cases hsemicolon
    | cons t ts =>
      rw [hafter] at hsemicolon h
      exact .semicolon (of_decide_eq_true hsemicolon) h
  · exact h

end ToneScript
