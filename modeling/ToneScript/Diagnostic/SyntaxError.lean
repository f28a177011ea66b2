import ToneScript.Diagnostic.Issue
import ToneScript.Token.Basic
/-! Errors of syntax and name resolution. -/
namespace ToneScript

/-- What was met where something else was expected. -/
inductive Found where
  | eof
  | lexeme (text : String)
deriving DecidableEq, Repr, Inhabited

/-- What a token shows of itself. -/
def Found.ofToken (t : Token) : Found :=
  if t.isEof then .eof else .lexeme t.lexeme

/-- Text of what was met. -/
def Found.text : Found → String
  | eof => "EOF"
  | lexeme t => "`" ++ t ++ "`"

/-- What is wrong with a stretch of source text. -/
inductive SyntaxError.Cause where
  | emptyExpression
  | unexpectedSymbol (text : String)
  | unterminatedCall
  | closedTooOften
  | neverClosed
  | tooFewOperands
  | parenthesisInSequence
  | noOperand
  | tooManyOperands
  | callsUnsupported
  | expectedDefinition (found : Found)
  | expectedFunctionName (found : Found)
  | expectedParameterEnd (found : Found)
  | expectedParameterName (found : Found)
  | parameterTwice (name : String) (first : Position)
  | expectedConstant (found : Found)
  | expectedBody
  | expectedItem (found : Found)
  | assignmentNotEnded
  | builtinRedefined (name : String)
  | alreadyDefined (name : String) (previous : Position)
  | undefinedVariable (name : String) (similar : Option String)
  | undefinedFunction (name : String) (similar : Option String)
  | expectedArgument (callee : String)
  | mixedArguments (callee : String)
  | expectedEntry (found : Found)
  | expectedBlockEnd (found : Found)
  | guardNotEnded
  | entryNotEnded
  | expectedColon
  | expectedElse
deriving DecidableEq, Repr, Inhabited

namespace SyntaxError.Cause

/-- A name in quotes. -/
def quote (name : String) : String :=
  "`" ++ name ++ "`"

/-- Message of a cause. -/
def message : Cause → String
  | emptyExpression => "empty expression in file"
  | unexpectedSymbol text => "unexpected " ++ quote text ++ " in expression"
  | unterminatedCall => "unexpected end of file in function call"
  | closedTooOften => "mismatched parens: skewed right"
  | neverClosed => "mismatched parens: skewed left"
  | tooFewOperands => "not enough values for operator"
  | parenthesisInSequence => "unexpected paren in postfix expression"
  | noOperand => "zero values in expression"
  | tooManyOperands => "too many values in expression"
  | callsUnsupported => "calls are not supported here"
  | expectedDefinition found => "expected `[` to begin a function definition, got " ++ found.text
  | expectedFunctionName found => "expected function name, got " ++ found.text
  | expectedParameterEnd found => "expected `=`, `,` or `]`, got " ++ found.text
  | expectedParameterName found => "expected argument name, got " ++ found.text
  | parameterTwice name _ => "argument " ++ quote name ++ " defined twice"
  | expectedConstant found => "expected numerical constant, got " ++ found.text
  | expectedBody => "expected block, got EOF"
  | expectedItem found => "expected function definition or assignment, got " ++ found.text
  | assignmentNotEnded => "expected `;` to end assignment, got EOF"
  | builtinRedefined name => quote name ++ " is a built-in and cannot be redefined"
  | alreadyDefined name _ => quote name ++ " is already defined in this block"
  | undefinedVariable name _ =>
    "variable " ++ quote name ++ " appears in expression but is not defined in scope"
  | undefinedFunction name _ =>
    "function " ++ quote name ++ " appears in expression but is not defined in scope"
  | expectedArgument callee => "expected argument in call to " ++ quote callee ++ ", got `,`"
  | mixedArguments callee => "cannot mix named and ordered arguments in call to " ++ quote callee
  | expectedEntry found => "expected operator, `;` or `\x7d`, got " ++ found.text
  | expectedBlockEnd found => "expected `;` after block, got " ++ found.text
  | guardNotEnded => "expected `;` to end condition, got EOF"
  | entryNotEnded => "expected `;` or `?` to end expression, got EOF"
  | expectedColon => "expected `:` after condition, got EOF"
  | expectedElse => "expected `else` in conditional, got EOF"

/-- Notes of a cause. -/
def notes : Cause → List String
  | parameterTwice _ first => ["first defined at " ++ first.toText]
  | alreadyDefined _ previous => ["previous definition at " ++ previous.toText]
  | undefinedVariable _ similar | undefinedFunction _ similar =>
    similar.toList.map fun name => "did you mean " ++ quote name ++ "?"
  | _ => []

end SyntaxError.Cause

/-- An error of syntax or name resolution, with its place if it has one. -/
structure SyntaxError where
  cause : SyntaxError.Cause
  pos? : Option Position
deriving DecidableEq, Repr, Inhabited

namespace SyntaxError

/-- An error at a position. -/
def located (pos : Position) (cause : Cause) : SyntaxError :=
  ⟨cause, some pos⟩

/-- The issue that reports an error. -/
def toIssue (e : SyntaxError) : Issue :=
  ⟨.error, e.pos?, e.cause.message, e.cause.notes⟩

end SyntaxError
end ToneScript
