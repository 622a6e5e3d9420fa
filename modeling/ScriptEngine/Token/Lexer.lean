import ScriptEngine.Number.Numeral
import ScriptEngine.SyntaxError
import ScriptEngine.Token.Escape

/-!
# Lexer

Reads a source text token by token.  A lexer can be asked for the next token
and for tokens further ahead, also after it has reported an error: it goes on
where the failed attempt stopped.

## Main definitions

* `Cursor` — the part of a text that is still to be read.
* `Answer` — what asking for a token gives.
* `Cursor.lex` — reads one token.
* `Lexer.next`, `Lexer.peek` — takes a token, or looks ahead without taking any.
* `tokenize` — the tokens of a text up to its end or its first error.
-/

namespace ScriptEngine

/-- The part of a source text that is still to be read, and where it begins.
The text is read in bytes, and a refused escape takes one byte only; if that
byte began a longer character the cursor is torn: it stands inside of that
character, with `rest` behind it. -/
structure Cursor where
  rest : List Char
  position : Position
  torn : Bool
deriving DecidableEq, Repr

/-- What asking for a token gives. -/
inductive Answer where
  | token (t : Token)
  | error (e : SyntaxError)
  /-- The cursor stands inside of a character, so that no text can be read. -/
  | insideCharacter
deriving DecidableEq, Repr

/-- The place behind a text that begins at `p`. -/
def Position.afterAll (p : Position) (cs : List Char) : Position := cs.foldl Position.after p

namespace Cursor

/-- The cursor before a text that begins at a place. -/
def before (rest : List Char) (position : Position) : Cursor := ⟨rest, position, false⟩

/-- The cursor at the beginning of a text. -/
def ofText (source : String) : Cursor := .before source.toList .start

end Cursor

/-! ### Classes of characters -/

/-- White space between tokens. -/
def isSpace (c : Char) : Bool :=
  c = ' ' || c = '\t' || c = '\n' || c = '\r' || c = '\x0c'

/-- The letters that words are made of. -/
def isLetter (c : Char) : Bool :=
  (97 ≤ c.toNat && c.toNat ≤ 122) || (65 ≤ c.toNat && c.toNat ≤ 90) || c = '_'

/-- The characters that continue a word. -/
def isWordCharacter (c : Char) : Bool := isLetter c || Number.isDigit c

/-! ### Gaps between tokens -/

/-- Where the reader of a gap is: between comments, in a comment that ends with
its line, or in a bracketed comment that was opened at a place. -/
inductive Gap where
  | between
  | line
  | long (opened : Position)
deriving DecidableEq, Repr

/-- Skips white space and comments. -/
def skipGap : Gap → Position → List Char → Option SyntaxError × Cursor
  | .between, p, [] => (none, .before [] p)
  | .between, p, c :: rest =>
    if isSpace c then skipGap .between (p.after c) rest
    else if c = '-' then
      match rest with
      | '-' :: '[' :: '[' :: rest =>
        skipGap (.long p) (p.afterAll ['-', '-', '[', '[']) rest
      | '-' :: rest => skipGap .line (p.afterAll ['-', '-']) rest
      | rest => (none, .before ('-' :: rest) p)
    else (none, .before (c :: rest) p)
  | .line, p, [] => (none, .before [] p)
  | .line, p, c :: rest =>
    skipGap (if c = '\n' then .between else .line) (p.after c) rest
  | .long opened, p, [] => (some ⟨.unfinishedComment, opened⟩, .before [] p)
  | .long opened, p, c :: rest =>
    if c = ']' then
      match rest with
      | ']' :: rest => skipGap .between (p.afterAll [']', ']']) rest
      | rest => skipGap (.long opened) (p.after ']') rest
    else skipGap (.long opened) (p.after c) rest

/-! ### Tokens -/

/-- Splits the spelling of a number off a text that begins with one.  A point is
part of it unless another point follows. -/
def splitNumber (cs : List Char) : List Char × List Char :=
  match cs with
  | '0' :: 'x' :: rest =>
    ('0' :: 'x' :: rest.takeWhile Number.isHexDigit, rest.dropWhile Number.isHexDigit)
  | '0' :: 'X' :: rest =>
    ('0' :: 'X' :: rest.takeWhile Number.isHexDigit, rest.dropWhile Number.isHexDigit)
  | cs =>
    let front := cs.takeWhile Number.isDigit
    let rest := cs.dropWhile Number.isDigit
    let (fraction, rest) :=
      match rest with
      | '.' :: '.' :: _ => ([], rest)
      | '.' :: tail => ('.' :: tail.takeWhile Number.isDigit, tail.dropWhile Number.isDigit)
      | _ => ([], rest)
    let (mark, rest) :=
      match rest with
      | 'e' :: '+' :: tail => (['e', '+'], tail)
      | 'e' :: '-' :: tail => (['e', '-'], tail)
      | 'e' :: tail => (['e'], tail)
      | 'E' :: '+' :: tail => (['E', '+'], tail)
      | 'E' :: '-' :: tail => (['E', '-'], tail)
      | 'E' :: tail => (['E'], tail)
      | _ => ([], rest)
    let (exponent, rest) :=
      if mark.isEmpty then ([], rest)
      else (rest.takeWhile Number.isDigit, rest.dropWhile Number.isDigit)
    (front ++ fraction ++ mark ++ exponent, rest)

/-- Reads the number that a text at `p` begins with. -/
def lexNumber (p : Position) (cs : List Char) : Answer × Cursor :=
  let (spelling, rest) := splitNumber cs
  let text := String.ofList spelling
  let behind := Cursor.before rest (p.afterAll spelling)
  match Number.parse text with
  | some _ => (.token ⟨.number, text, p⟩, behind)
  | none => (.error ⟨.malformedNumber text, p⟩, behind)

/-- Reads a quoted string behind its opening quote.  The string was opened at
`opened`, and `read` is what has been read of it, last character first. -/
def lexString (quote : Char) (opened : Position) (read : List Char) (p : Position) :
    List Char → Answer × Cursor
  | [] => (.error ⟨.unfinishedString, opened⟩, .before [] p)
  | c :: rest =>
    if c = '\n' then (.error ⟨.unfinishedString, opened⟩, .before rest (p.after c))
    else if c = '\\' then
      match rest with
      | [] => (.error ⟨.invalidEscape, p.after c⟩, .before [] (p.after c))
      | e :: rest =>
        if Escape.isValid e then
          lexString quote opened (e :: c :: read) ((p.after c).after e) rest
        else
          (.error ⟨.invalidEscape, p.after c⟩, ⟨rest, (p.after c).after e, 128 ≤ e.toNat⟩)
    else if c = quote then
      (.token ⟨.string, String.ofList read.reverse, opened⟩, .before rest (p.after c))
    else lexString quote opened (c :: read) (p.after c) rest

/-- Splits a text at the first two closing brackets. -/
def splitLong : List Char → Option (List Char × List Char)
  | [] => none
  | c :: rest =>
    if c = ']' then
      match rest with
      | ']' :: rest => some ([], rest)
      | rest => (splitLong rest).map fun (inner, behind) => (']' :: inner, behind)
    else (splitLong rest).map fun (inner, behind) => (c :: inner, behind)

/-- The contents of a bracketed string without a newline at the beginning. -/
def dropFirstNewline : List Char → List Char
  | '\n' :: rest => rest
  | '\r' :: '\n' :: rest => rest
  | cs => cs

/-- Reads a bracketed string behind its opening brackets. -/
def lexLongString (opened p : Position) (cs : List Char) : Answer × Cursor :=
  match splitLong cs with
  | none => (.error ⟨.unfinishedLongString, opened⟩, .before [] (p.afterAll cs))
  | some (inner, rest) =>
    (.token ⟨.longString, String.ofList (dropFirstNewline inner), opened⟩,
      .before rest ((p.afterAll inner).afterAll [']', ']']))

/-- Reads the word that a text at `p` begins with. -/
def lexWord (p : Position) (cs : List Char) : Answer × Cursor :=
  let spelling := cs.takeWhile isWordCharacter
  (.token (.word (String.ofList spelling) p),
    .before (cs.dropWhile isWordCharacter) (p.afterAll spelling))

/-- Reads the symbol that a text at `p` begins with.  An unknown character is
not taken. -/
def lexSymbol (p : Position) (c : Char) (rest : List Char) : Answer × Cursor :=
  match TokenKind.double? (c :: rest.take 1) with
  | some kind =>
    let spelling := c :: rest.take 1
    (.token ⟨kind, String.ofList spelling, p⟩, .before (rest.drop 1) (p.afterAll spelling))
  | none =>
    match TokenKind.single? c with
    | some kind => (.token ⟨kind, String.singleton c, p⟩, .before rest (p.after c))
    | none => (.error ⟨.unexpectedCharacter c, p⟩, .before (c :: rest) p)

/-- Reads the token that a text at `p` begins with. -/
def lexAt (p : Position) : List Char → Answer × Cursor
  | [] => (.token (.atEnd p), .before [] p)
  | c :: rest =>
    if c = '\x22' || c = '\x27' then lexString c p [] (p.after c) rest
    else if c = '[' && rest.head? = some '[' then
      lexLongString p (p.afterAll ['[', '[']) rest.tail
    else if c = '.' && rest.head?.any Number.isDigit then lexNumber p (c :: rest)
    else if Number.isDigit c then lexNumber p (c :: rest)
    else if isLetter c then lexWord p (c :: rest)
    else lexSymbol p c rest

/-- Reads one token.  Behind the last one there is an end token, as often as one
asks. -/
def Cursor.lex (cursor : Cursor) : Answer × Cursor :=
  if cursor.torn then (.insideCharacter, cursor)
  else
    match skipGap .between cursor.position cursor.rest with
    | (some e, behind) => (.error e, behind)
    | (none, behind) => lexAt behind.position behind.rest

/-- A cursor and the tokens that were looked at and not taken yet. -/
structure Lexer where
  cursor : Cursor
  queue : List Token
deriving DecidableEq, Repr

namespace Lexer

/-- The lexer at the beginning of a text. -/
def ofText (source : String) : Lexer := ⟨.ofText source, []⟩

/-- Takes the next token. -/
def next (lexer : Lexer) : Answer × Lexer :=
  match lexer.queue with
  | t :: queue => (.token t, ⟨lexer.cursor, queue⟩)
  | [] =>
    let (answer, cursor) := lexer.cursor.lex
    (answer, ⟨cursor, []⟩)

/-- Reads `n` tokens into the queue, or stops with the answer that is none. -/
def fetch : Nat → Lexer → Option Answer × Lexer
  | 0, lexer => (none, lexer)
  | n + 1, lexer =>
    match lexer.cursor.lex with
    | (.token t, cursor) => fetch n ⟨cursor, lexer.queue ++ [t]⟩
    | (answer, cursor) => (some answer, ⟨cursor, lexer.queue⟩)

/-- Looks at the token that `ahead` further ones stand before, taking none. -/
def peek (lexer : Lexer) (ahead : Nat) : Answer × Lexer :=
  match lexer.fetch (ahead + 1 - lexer.queue.length) with
  | (some answer, lexer) => (answer, lexer)
  | (none, lexer) => (.token (lexer.queue.getD ahead default), lexer)

end Lexer

/-! ### Whole texts -/

/-- The tokens from a cursor on, at most `fuel` of them, up to the end of the
text or the first error. -/
def tokensFrom : Nat → Cursor → List (Except SyntaxError Token)
  | 0, _ => []
  | fuel + 1, cursor =>
    match cursor.lex with
    | (.token t, behind) => .ok t :: if t.kind = .eof then [] else tokensFrom fuel behind
    | (.error e, _) => [.error e]
    | (.insideCharacter, _) => []

/-- The tokens of a text up to its end or its first error.  Every token but the
last takes at least one character. -/
def tokenize (source : String) : List (Except SyntaxError Token) :=
  tokensFrom (source.length + 1) (.ofText source)

end ScriptEngine
