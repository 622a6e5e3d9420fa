import ScriptEngine.Token.Basic

/-!
# Syntax errors

Why a source text is refused.

## Main definitions

* `SyntaxCause`, `SyntaxCause.message` — what is wrong with a text, and the
  message that says so.
* `SyntaxError` — a cause and its place.
-/

namespace ScriptEngine

/-- What is wrong with a source text. -/
inductive SyntaxCause where
  | unfinishedComment
  | unfinishedString
  | unfinishedLongString
  | invalidEscape
  | malformedNumber (text : String)
  | unexpectedCharacter (c : Char)
  /-- A text that goes on behind its last statement. -/
  | unexpectedText (text : String)
  /-- A token that begins no expression. -/
  | unexpectedToken (kind : TokenKind)
  | expected (wanted got : TokenKind)
  | missingEnd
  | tooManyLevels
  | breakOutsideLoop
  | notAssignable
  | methodDefinition
  | methodCall
deriving DecidableEq, Repr

/-- A syntax error: a cause and the place it is reported at. -/
structure SyntaxError where
  cause : SyntaxCause
  position : Position
deriving DecidableEq, Repr

/-- A message about some text in single quotes. -/
def quoting (before text : String) : String := before ++ "'" ++ text ++ "'"

/-- The message for a cause. -/
def SyntaxCause.message : SyntaxCause → String
  | unfinishedComment => "Unfinished long comment"
  | unfinishedString => "String literal is not finished properly"
  | unfinishedLongString => "Unfinished long string"
  | invalidEscape => "Invalid escape sequence"
  | malformedNumber text => quoting "Malformed number " text
  | unexpectedCharacter c => quoting "Unexpected character " (String.singleton c)
  | unexpectedText text => quoting "unexpected " text
  | unexpectedToken kind => quoting "unexpected " kind.describe
  | expected wanted got =>
    quoting "expected " wanted.describe ++ quoting ", got " got.describe ++ " instead"
  | missingEnd => "Missing 'end'"
  | tooManyLevels => "chunk has too many syntax levels"
  | breakOutsideLoop => "'break' outside a loop"
  | notAssignable => "cannot assign to this expression"
  | methodDefinition => "method definitions are not supported"
  | methodCall => "method calls are not supported"

end ScriptEngine
