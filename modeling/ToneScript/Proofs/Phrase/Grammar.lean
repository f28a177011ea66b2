import ToneScript.Proofs.Syntax.Grammar
import ToneScript.Proofs.Syntax.Success

/-! The grammar of expressions. A parse tree of an expression is an arithmetic expression, a block or a conditional; it
holds all that its tokens hold, and says nothing of how they are cut apart. -/
namespace ToneScript

mutual

/-- A parse tree of an expression. -/
inductive Phrase where
  | arithmetic (e : Infix)
  | block (opening : Mark) (entries : PhraseEntries) (closing : Mark)
  | conditional (keyword : Mark) (condition : Phrase) (colon : Mark) (thenBranch : Phrase) (other : Mark)
      (elseBranch : Phrase)

/-- Entries of a block, each with its semicolon. A semicolon may stand alone. -/
inductive PhraseEntries where
  | none
  | semicolon (mark : Mark) (rest : PhraseEntries)
  | more (entry : PhraseEntry) (semicolon : Mark) (rest : PhraseEntries)

/-- An entry of a block: an operator and a value, perhaps with a guard, or a function with its parameters. -/
inductive PhraseEntry where
  | operator (op : Operator) (mark : Mark) (value : Phrase)
  | guarded (op : Operator) (mark : Mark) (value : Phrase) (question : Mark) (guard : Phrase)
  | closure (opening : Mark) (name : Ident) (mark : Mark) (paramTokens : List Token) (params : List Param)
      (closing : Mark) (body : Phrase)

end

mutual

/-- The tokens of an expression. -/
def Phrase.tokens : Phrase → List Token
  | .arithmetic e => e.tokens
  | .block opening entries closing =>
    opening.token (.symbol (.left .curly)) :: (entries.tokens ++ [closing.token (.symbol (.right .curly))])
  | .conditional keyword condition colon thenBranch other elseBranch =>
    keyword.token (.symbol .kwIf) :: (condition.tokens ++ colon.token (.symbol .colon) ::
      (thenBranch.tokens ++ other.token (.symbol .kwElse) :: elseBranch.tokens))

/-- The tokens of entries. -/
def PhraseEntries.tokens : PhraseEntries → List Token
  | .none => []
  | .semicolon m rest => m.token (.symbol .semicolon) :: rest.tokens
  | .more entry semicolon rest => entry.tokens ++ semicolon.token (.symbol .semicolon) :: rest.tokens

/-- The tokens of an entry. -/
def PhraseEntry.tokens : PhraseEntry → List Token
  | .operator op m value => m.token (.operator op) :: value.tokens
  | .guarded op m value question guard =>
    m.token (.operator op) :: (value.tokens ++ question.token (.symbol .questionMark) :: guard.tokens)
  | .closure opening name m paramTokens _ closing body =>
    opening.token (.symbol (.left .square)) :: m.token (.ident name) ::
      (paramTokens ++ closing.token (.symbol (.right .square)) :: body.tokens)

end

mutual

/-- Whether the arithmetic expressions and the parameters in an expression are those of the grammar. -/
def Phrase.Fits : Phrase → Prop
  | .arithmetic e => e.Fits 0
  | .block _ entries _ => entries.Fit
  | .conditional _ condition _ thenBranch _ elseBranch => condition.Fits ∧ thenBranch.Fits ∧ elseBranch.Fits

/-- Whether entries are those of the grammar. -/
def PhraseEntries.Fit : PhraseEntries → Prop
  | .none => True
  | .semicolon _ rest => rest.Fit
  | .more entry _ rest => entry.Fits ∧ rest.Fit

/-- Whether an entry is one of the grammar. -/
def PhraseEntry.Fits : PhraseEntry → Prop
  | .operator _ _ value => value.Fits
  | .guarded _ _ value _ guard => value.Fits ∧ guard.Fits
  | .closure _ _ _ paramTokens params _ body => Separated Param.Derived true paramTokens params ∧ body.Fits

end

/-- Whether an expression is a conditional that is in no block. -/
def Phrase.isConditional : Phrase → Bool
  | .conditional .. => true
  | .arithmetic _ | .block .. => false

mutual

/-- Whether no condition in an expression is itself a conditional, unless it is in a block. -/
def Phrase.Splits : Phrase → Prop
  | .arithmetic _ => True
  | .block _ entries _ => entries.Split
  | .conditional _ condition _ thenBranch _ elseBranch =>
    condition.isConditional = false ∧ condition.Splits ∧ thenBranch.Splits ∧ elseBranch.Splits

/-- Whether no condition in entries is itself a conditional. -/
def PhraseEntries.Split : PhraseEntries → Prop
  | .none => True
  | .semicolon _ rest => rest.Split
  | .more entry _ rest => entry.Splits ∧ rest.Split

/-- Whether no condition in an entry is itself a conditional. -/
def PhraseEntry.Splits : PhraseEntry → Prop
  | .operator _ _ value => value.Splits
  | .guarded _ _ value _ guard => value.Splits ∧ guard.Splits
  | .closure _ _ _ _ _ _ body => body.Splits

end

/-! ### Names in scope -/

mutual

/-- The symbol table after an expression is read. -/
def Phrase.after (t : SymbolTable) : Phrase → SymbolTable
  | .arithmetic _ => t
  | .block opening entries _ => (entries.after (t.enterBlock opening.pos.index)).left
  | .conditional _ condition _ thenBranch _ elseBranch =>
    elseBranch.after (thenBranch.after (condition.after t))

/-- The symbol table after entries are read. -/
def PhraseEntries.after (t : SymbolTable) : PhraseEntries → SymbolTable
  | .none => t
  | .semicolon _ rest => rest.after t
  | .more entry _ rest => rest.after (entry.after t)

/-- The symbol table after an entry is read. -/
def PhraseEntry.after (t : SymbolTable) : PhraseEntry → SymbolTable
  | .operator _ _ value => value.after t
  | .guarded _ _ value _ guard => guard.after (value.after t)
  | .closure opening name m _ params _ body => (body.after (t.enterFunction ⟨name, m.pos, params, opening.pos⟩)).left

end

section

variable (c : Resolution.Context)

mutual

/-- Whether the names in an expression are in scope where they are used, if the expression is read from left to right,
and each function in it is a new name in its block. -/
def Phrase.Resolves (t : SymbolTable) : Phrase → Prop
  | .arithmetic e => e.Resolves c t
  | .block opening entries _ => entries.Resolve (t.enterBlock opening.pos.index)
  | .conditional _ condition _ thenBranch _ elseBranch =>
    condition.Resolves t ∧ thenBranch.Resolves (condition.after t) ∧
      elseBranch.Resolves (thenBranch.after (condition.after t))

/-- Whether the names in entries are in scope. -/
def PhraseEntries.Resolve (t : SymbolTable) : PhraseEntries → Prop
  | .none => True
  | .semicolon _ rest => rest.Resolve t
  | .more entry _ rest => entry.Resolves t ∧ rest.Resolve (entry.after t)

/-- Whether the names in an entry are in scope. The parameters of a function have different names. -/
def PhraseEntry.Resolves (t : SymbolTable) : PhraseEntry → Prop
  | .operator _ _ value => value.Resolves t
  | .guarded _ _ value _ guard => value.Resolves t ∧ guard.Resolves (value.after t)
  | .closure opening name m _ params _ body =>
    t.find? t.currentBlock name = none ∧ (params.map Param.name).Nodup ∧
      body.Resolves (t.enterFunction ⟨name, m.pos, params, opening.pos⟩)

end

end

end ToneScript
