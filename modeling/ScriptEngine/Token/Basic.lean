import ScriptEngine.Position

/-!
# Tokens

The words and symbols that a source text is made of.

## Main definitions

* `TokenKind` — the sorts of tokens.
* `TokenKind.keyword?`, `TokenKind.double?`, `TokenKind.single?` — the tokens
  that have a fixed spelling.
* `TokenKind.describe` — how messages speak of a token.
* `Token` — a token with its text and its place.
-/

namespace ScriptEngine

/-- The sorts of tokens. -/
inductive TokenKind where
  | eof
  | name
  | number
  | string
  | longString
  -- reserved words
  | andWord
  | breakWord
  | doWord
  | elseWord
  | elseIfWord
  | endWord
  | falseWord
  | forWord
  | functionWord
  | ifWord
  | inWord
  | localWord
  | nilWord
  | notWord
  | orWord
  | repeatWord
  | returnWord
  | thenWord
  | trueWord
  | untilWord
  | whileWord
  -- operators
  | plus
  | minus
  | star
  | slash
  | doubleSlash
  | percent
  | caret
  | hash
  | ampersand
  | tilde
  | pipe
  | shiftLeft
  | shiftRight
  | equals
  | notEquals
  | lessEquals
  | greaterEquals
  | less
  | greater
  | assign
  | concat
  -- punctuation
  | openParen
  | closeParen
  | openBrace
  | closeBrace
  | openSquare
  | closeSquare
  | semicolon
  | comma
  | dot
  | colon
deriving DecidableEq, Repr

namespace TokenKind

/-- The reserved words. -/
def keywords : List (String × TokenKind) :=
  [("and", andWord), ("break", breakWord), ("do", doWord), ("else", elseWord),
    ("elseif", elseIfWord), ("end", endWord), ("false", falseWord), ("for", forWord),
    ("function", functionWord), ("if", ifWord), ("in", inWord), ("local", localWord),
    ("nil", nilWord), ("not", notWord), ("or", orWord), ("repeat", repeatWord),
    ("return", returnWord), ("then", thenWord), ("true", trueWord), ("until", untilWord),
    ("while", whileWord)]

/-- The keyword a word is, if it is reserved. -/
def keyword? (word : String) : Option TokenKind := keywords.lookup word

/-- The symbols of two characters.  They take precedence over those of one. -/
def double? : List Char → Option TokenKind
  | ['/', '/'] => some doubleSlash
  | ['<', '<'] => some shiftLeft
  | ['>', '>'] => some shiftRight
  | ['=', '='] => some equals
  | ['~', '='] => some notEquals
  | ['<', '='] => some lessEquals
  | ['>', '='] => some greaterEquals
  | ['.', '.'] => some concat
  | _ => none

/-- The symbols of one character. -/
def single? : Char → Option TokenKind
  | '+' => some plus
  | '-' => some minus
  | '*' => some star
  | '/' => some slash
  | '%' => some percent
  | '^' => some caret
  | '#' => some hash
  | '&' => some ampersand
  | '~' => some tilde
  | '|' => some pipe
  | '<' => some less
  | '>' => some greater
  | '=' => some assign
  | '(' => some openParen
  | ')' => some closeParen
  | '\x7b' => some openBrace
  | '\x7d' => some closeBrace
  | '[' => some openSquare
  | ']' => some closeSquare
  | ';' => some semicolon
  | ',' => some comma
  | '.' => some dot
  | ':' => some colon
  | _ => none

/-- How messages speak of a token: by its spelling, or by its sort if it has no
fixed one. -/
def describe : TokenKind → String
  | eof => "EOF"
  | name => "Name"
  | number => "Number"
  | string => "String"
  | longString => "String"
  | andWord => "and"
  | breakWord => "break"
  | doWord => "do"
  | elseWord => "else"
  | elseIfWord => "elseif"
  | endWord => "end"
  | falseWord => "false"
  | forWord => "for"
  | functionWord => "function"
  | ifWord => "if"
  | inWord => "in"
  | localWord => "local"
  | nilWord => "nil"
  | notWord => "not"
  | orWord => "or"
  | repeatWord => "repeat"
  | returnWord => "return"
  | thenWord => "then"
  | trueWord => "true"
  | untilWord => "until"
  | whileWord => "while"
  | plus => "+"
  | minus => "-"
  | star => "*"
  | slash => "/"
  | doubleSlash => "//"
  | percent => "%"
  | caret => "^"
  | hash => "#"
  | ampersand => "&"
  | tilde => "~"
  | pipe => "|"
  | shiftLeft => "<<"
  | shiftRight => ">>"
  | equals => "=="
  | notEquals => "~="
  | lessEquals => "<="
  | greaterEquals => ">="
  | less => "<"
  | greater => ">"
  | assign => "="
  | concat => ".."
  | openParen => "("
  | closeParen => ")"
  | openBrace => "\x7b"
  | closeBrace => "\x7d"
  | openSquare => "["
  | closeSquare => "]"
  | semicolon => ";"
  | comma => ","
  | dot => "."
  | colon => ":"

end TokenKind

/-- A token of a source text.  The text of a quoted string is what stands
between the quotes, escapes still in place. -/
structure Token where
  kind : TokenKind
  text : String
  position : Position
deriving DecidableEq, Repr

namespace Token

/-- The token of a word: the keyword, if the word is reserved, or a name. -/
def word (text : String) (position : Position) : Token :=
  ⟨(TokenKind.keyword? text).getD .name, text, position⟩

/-- The token behind the last one. -/
def atEnd (position : Position) : Token := ⟨.eof, "", position⟩

instance : Inhabited Token := ⟨atEnd .nowhere⟩

end Token

end ScriptEngine
