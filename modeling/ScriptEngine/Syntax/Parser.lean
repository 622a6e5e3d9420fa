import ScriptEngine.Syntax.Operator
import ScriptEngine.Token.Lexer

/-!
# Parser

Puts the tokens of a text together to a syntax tree, by recursive descent with
precedence climbing for operators.  The depth of blocks, operands, chains of
operators and chains of suffixes is limited.

## Main definitions

* `Parser` — computations that read tokens and may fail with a syntax error.
* `Parser.block`, `Parser.statement`, `Parser.operand` — the parts of the
  grammar.
* `parse` — the syntax tree of a text.

The mutually recursive functions take a bound on their depth of recursion as
their first argument.  Every token is read after a bounded number of calls, so
that a multiple of the number of tokens suffices.
-/

namespace ScriptEngine

/-- The deepest nesting of blocks, operands, operators and suffixes. -/
def maxSyntaxLevels : Nat := 200

/-- A computation that reads tokens and may fail with a syntax error.  An error
of the text itself is met when the token there is looked at. -/
abbrev Parser := StateT (List (Except SyntaxError Token)) (Except SyntaxError)

namespace Parser

/-! ### Reading tokens -/

/-- Fails with a cause at a place. -/
def fail {α : Type} (cause : SyntaxCause) (position : Position) : Parser α :=
  throw ⟨cause, position⟩

/-- The first of some tokens. -/
def firstOf : List (Except SyntaxError Token) → Except SyntaxError Token
  | [] => .ok default
  | t :: _ => t

/-- Looks at the next token. -/
def peek : Parser Token := do
  firstOf (← get)

/-- Looks at the token behind the next one. -/
def peekSecond : Parser Token := do
  let _ ← peek
  firstOf ((← get).drop 1)

/-- Takes the next token.  The end of a text is never passed. -/
def next : Parser Token := do
  let t ← peek
  unless t.kind = .eof do modify (·.drop 1)
  pure t

/-- Takes the next token if it is of a kind. -/
def check (kind : TokenKind) : Parser (Option Token) := do
  if (← peek).kind = kind then some <$> next else pure none

/-- Takes a token, which has to be of a kind. -/
def expect (kind : TokenKind) : Parser Token := do
  let t ← next
  if t.kind = kind then pure t else fail (.expected kind t.kind) t.position

/-- Takes the word that closes a block. -/
def expectEnd : Parser Unit := do
  let t ← peek
  if t.kind = .endWord then discard next else fail .missingEnd t.position

/-- Takes a name. -/
def expectName : Parser Identifier := do
  let t ← expect .name
  pure ⟨t.text, t.position⟩

/-- Fails if another level would be one too many. -/
def enter (level : Nat) (position : Position) : Parser Unit :=
  if maxSyntaxLevels < level + 1 then fail .tooManyLevels position else pure ()

/-- Gives up because the bound on the depth of recursion is used up. -/
def exhausted {α : Type} : Parser α := do
  fail .tooManyLevels (← peek).position

/-- Names behind commas. -/
def moreNames : Nat → Parser (List Identifier)
  | 0 => exhausted
  | n + 1 => do
    match ← check .comma with
    | none => pure []
    | some _ => do
      let name ← expectName
      let names ← moreNames n
      pure (name :: names)

/-- Whether a token stands behind the last statement of a block. -/
def endsBlock : TokenKind → Bool
  | .endWord => true
  | .elseWord => true
  | .elseIfWord => true
  | .untilWord => true
  | .eof => true
  | _ => false

/-- Whether a token begins something that is attached to an expression. -/
def opensSuffix : TokenKind → Bool
  | .dot => true
  | .openSquare => true
  | .openParen => true
  | .string => true
  | .longString => true
  | .openBrace => true
  | _ => false

/-- The literal that a token is. -/
def literalOf (t : Token) : Parser (Option Literal) :=
  match t.kind with
  | .number =>
    match Number.parse t.text with
    | some x => pure (some (.number x))
    | none => fail (.malformedNumber t.text) t.position
  | .string => pure (some (.string (Escape.unescape t.text)))
  | .longString => pure (some (.string t.text))
  | .nilWord => pure (some .nil)
  | .trueWord => pure (some (.boolean true))
  | .falseWord => pure (some (.boolean false))
  | _ => pure none

/-- An expression in parentheses.  Only around a call do they make a
difference. -/
def grouped (position : Position) (inner : Expr) : Expr :=
  if inner.isCall then .group position inner else inner

/-- The first target that cannot be assigned to. -/
def checkTargets : List Expr → Parser Unit
  | [] => pure ()
  | target :: rest =>
    if target.isTarget then checkTargets rest else fail .notAssignable target.position

/-- The names behind `function` in a statement: a variable and fields of it. -/
def functionTarget (target : Expr) : Nat → Parser Expr
  | 0 => exhausted
  | n + 1 => do
    match ← check .dot with
    | none => pure target
    | some dot => do
      let field ← expectName
      functionTarget (.index dot.position target (.literal field.position (.string field.name))) n

/-! ### The grammar -/

mutual

/-- A block, up to the token that ends it. -/
def block : Nat → Nat → Bool → Parser Chunk
  | 0, _, _ => exhausted
  | n + 1, level, inLoop => do
    enter level (← peek).position
    statements n (level + 1) inLoop

/-- The statements up to the token that ends their block. -/
def statements : Nat → Nat → Bool → Parser Chunk
  | 0, _, _ => exhausted
  | n + 1, level, inLoop => do
    let t ← peek
    if endsBlock t.kind then pure []
    else if t.kind = .semicolon then do
      discard next
      statements n level inLoop
    else do
      let first ← statement n level inLoop
      let rest ← statements n level inLoop
      pure (first :: rest)

/-- One statement. -/
def statement : Nat → Nat → Bool → Parser Stat
  | 0, _, _ => exhausted
  | n + 1, level, inLoop => do
    match (← peek).kind with
    | .ifWord => conditional n level inLoop
    | .whileWord => do
      let opened ← expect .whileWord
      let condition ← expression n level
      discard (expect .doWord)
      let body ← block n level true
      expectEnd
      pure (.whileLoop opened.position condition body)
    | .doWord => do
      discard (expect .doWord)
      let body ← block n level inLoop
      expectEnd
      pure (.block body)
    | .forWord => forLoop n level
    | .repeatWord => do
      let opened ← expect .repeatWord
      let body ← block n level true
      discard (expect .untilWord)
      let condition ← expression n level
      pure (.repeatLoop opened.position body condition)
    | .functionWord => functionStatement n level
    | .localWord => localStatement n level
    | .returnWord => do
      let opened ← expect .returnWord
      let following ← peek
      let values ←
        if endsBlock following.kind || following.kind = .semicolon then pure []
        else expressions n level
      discard (check .semicolon)
      pure (.result opened.position values)
    | .breakWord => do
      let opened ← expect .breakWord
      if inLoop then pure (.leave opened.position)
      else fail .breakOutsideLoop opened.position
    | _ => expressionStatement n level

/-- A statement that begins with `if`. -/
def conditional : Nat → Nat → Bool → Parser Stat
  | 0, _, _ => exhausted
  | n + 1, level, inLoop => do
    let opened ← expect .ifWord
    let condition ← expression n level
    discard (expect .thenWord)
    let body ← block n level inLoop
    let branches ← elseIfs n level inLoop
    let otherwise ← elseBranch n level inLoop
    expectEnd
    pure (.conditional opened.position ((condition, body) :: branches) otherwise)

/-- The further branches of a conditional. -/
def elseIfs : Nat → Nat → Bool → Parser (List (Expr × List Stat))
  | 0, _, _ => exhausted
  | n + 1, level, inLoop => do
    match ← check .elseIfWord with
    | none => pure []
    | some _ => do
      let condition ← expression n level
      discard (expect .thenWord)
      let body ← block n level inLoop
      let branches ← elseIfs n level inLoop
      pure ((condition, body) :: branches)

/-- The branch of a conditional that has no condition. -/
def elseBranch : Nat → Nat → Bool → Parser (Option (List Stat))
  | 0, _, _ => exhausted
  | n + 1, level, inLoop => do
    match ← check .elseWord with
    | none => pure none
    | some _ => some <$> block n level inLoop

/-- A statement that begins with `for`. -/
def forLoop : Nat → Nat → Parser Stat
  | 0, _ => exhausted
  | n + 1, level => do
    let opened ← expect .forWord
    let first ← expectName
    match ← check .assign with
    | some _ => do
      let start ← expression n level
      discard (expect .comma)
      let stop ← expression n level
      let step ← forStep n level
      discard (expect .doWord)
      let body ← block n level true
      expectEnd
      pure (.numericFor first start stop step body)
    | none => do
      let names ← moreNames n
      discard (expect .inWord)
      let iterators ← expressions n level
      discard (expect .doWord)
      let body ← block n level true
      expectEnd
      pure (.genericFor opened.position (first :: names) iterators body)

/-- The step of a loop that counts. -/
def forStep : Nat → Nat → Parser (Option Expr)
  | 0, _ => exhausted
  | n + 1, level => do
    match ← check .comma with
    | none => pure none
    | some _ => some <$> expression n level

/-- A statement that begins with `function`: an assignment of a function. -/
def functionStatement : Nat → Nat → Parser Stat
  | 0, _ => exhausted
  | n + 1, level => do
    let opened ← expect .functionWord
    let name ← expectName
    let target ← functionTarget (.var name.position name.name) n
    match ← check .colon with
    | some colon => fail .methodDefinition colon.position
    | none => do
      let function ← functionBody n level opened.position
      pure (.assignment target.position false [target] [function])

/-- A statement that begins with `local`. -/
def localStatement : Nat → Nat → Parser Stat
  | 0, _ => exhausted
  | n + 1, level => do
    let opened ← expect .localWord
    match ← check .functionWord with
    | some word => do
      let name ← expectName
      let function ← functionBody n level word.position
      pure (.localFunction name function)
    | none => do
      let first ← expectName
      let names ← moreNames n
      match ← check .assign with
      | none => pure (.declaration (first :: names))
      | some _ => do
        let values ← expressions n level
        let targets := (first :: names).map fun name => .var name.position name.name
        pure (.assignment opened.position true targets values)

/-- An expression used as a statement, or an assignment. -/
def expressionStatement : Nat → Nat → Parser Stat
  | 0, _ => exhausted
  | n + 1, level => do
    let first ← expression n level
    let following ← peek
    if following.kind = .comma || following.kind = .assign then do
      let targets ← moreExpressions n level
      discard (expect .assign)
      checkTargets (first :: targets)
      let values ← expressions n level
      pure (.assignment first.position false (first :: targets) values)
    else pure (.expression first)

/-- The parameters and the body of a function whose place is known. -/
def functionBody : Nat → Nat → Position → Parser Expr
  | 0, _, _ => exhausted
  | n + 1, level, position => do
    discard (expect .openParen)
    let following ← peek
    let parameters ←
      if following.kind = .closeParen then pure []
      else do
        let first ← expectName
        let names ← moreNames n
        pure (first :: names)
    discard (expect .closeParen)
    let body ← block n level false
    expectEnd
    pure (.function position parameters body)

/-- One or more expressions between commas. -/
def expressions : Nat → Nat → Parser (List Expr)
  | 0, _ => exhausted
  | n + 1, level => do
    let first ← expression n level
    let rest ← moreExpressions n level
    pure (first :: rest)

/-- Expressions behind commas. -/
def moreExpressions : Nat → Nat → Parser (List Expr)
  | 0, _ => exhausted
  | n + 1, level => do
    match ← check .comma with
    | none => pure []
    | some _ => do
      let first ← expression n level
      let rest ← moreExpressions n level
      pure (first :: rest)

/-- An expression. -/
def expression : Nat → Nat → Parser Expr
  | 0, _ => exhausted
  | n + 1, level => operand n level 0

/-- An expression whose operators bind tighter than `limit`. -/
def operand : Nat → Nat → Nat → Parser Expr
  | 0, _, _ => exhausted
  | n + 1, level, limit => do
    let t ← peek
    enter level t.position
    match t.kind.unary? with
    | some operator => do
      discard next
      let inner ← operand n (level + 1) UnaryOperator.priority
      operators n (level + 1) limit (.unary t.position operator inner)
    | none => do
      let first ← simple n (level + 1)
      operators n (level + 1) limit first

/-- The operators behind an operand that bind tighter than `limit`.  Each of them
opens a level. -/
def operators : Nat → Nat → Nat → Expr → Parser Expr
  | 0, _, _, _ => exhausted
  | n + 1, level, limit, lhs => do
    let t ← peek
    match t.kind.binary? with
    | none => pure lhs
    | some operator =>
      if operator.priority.1 ≤ limit then pure lhs
      else do
        discard next
        enter level t.position
        let rhs ← operand n (level + 1) operator.priority.2
        operators n (level + 1) limit (.binary t.position operator lhs rhs)

/-- An expression without operators. -/
def simple : Nat → Nat → Parser Expr
  | 0, _ => exhausted
  | n + 1, level => do
    let t ← peek
    match ← literalOf t with
    | some value => do
      discard next
      pure (.literal t.position value)
    | none =>
      match t.kind with
      | .functionWord => do
        discard next
        functionBody n level t.position
      | .openBrace => tableConstructor n level
      | _ => do
        let first ← primary n level
        suffixes n level first

/-- A name or an expression in parentheses. -/
def primary : Nat → Nat → Parser Expr
  | 0, _ => exhausted
  | n + 1, level => do
    let t ← next
    match t.kind with
    | .name => pure (.var t.position t.text)
    | .openParen => do
      let inner ← expression n level
      discard (expect .closeParen)
      pure (grouped t.position inner)
    | kind => fail (.unexpectedToken kind) t.position

/-- The calls and indices attached to an expression.  Each of them opens a
level. -/
def suffixes : Nat → Nat → Expr → Parser Expr
  | 0, _, _ => exhausted
  | n + 1, level, result => do
    let t ← peek
    if t.kind = .colon then fail .methodCall t.position
    else if !opensSuffix t.kind then pure result
    else do
      enter level t.position
      match t.kind with
      | .dot => do
        discard next
        let field ← expectName
        suffixes n (level + 1)
          (.index result.position result (.literal field.position (.string field.name)))
      | .openSquare => do
        discard next
        let key ← expression n (level + 1)
        discard (expect .closeSquare)
        suffixes n (level + 1) (.index result.position result key)
      | .openParen => do
        discard next
        let following ← peek
        let arguments ←
          if following.kind = .closeParen || following.kind = .eof then pure []
          else expressions n (level + 1)
        discard (expect .closeParen)
        suffixes n (level + 1) (.call result.position result arguments)
      | _ => do
        let argument ← simple n (level + 1)
        suffixes n (level + 1) (.call result.position result [argument])

/-- A table in braces. -/
def tableConstructor : Nat → Nat → Parser Expr
  | 0, _ => exhausted
  | n + 1, level => do
    let opened ← expect .openBrace
    let entries ← tableEntries n level 1
    discard (expect .closeBrace)
    pure (.table opened.position entries)

/-- The entries of a table up to its closing brace.  The next entry without a key
gets the key `index`. -/
def tableEntries : Nat → Nat → Nat → Parser (List (Expr × Expr))
  | 0, _, _ => exhausted
  | n + 1, level, index => do
    let first ← peek
    if first.kind = .closeBrace then pure []
    else do
      let second ← peekSecond
      if first.kind = .openSquare then do
        discard next
        let key ← expression n level
        discard (expect .closeSquare)
        discard (expect .assign)
        let value ← expression n level
        moreEntries n level index (key, value)
      else if second.kind = .assign && (first.kind = .name || first.kind = .string) then do
        discard next
        discard next
        let name := if first.kind = .string then Escape.unescape first.text else first.text
        let value ← expression n level
        moreEntries n level index (.literal first.position (.string name), value)
      else do
        let value ← expression n level
        moreEntries n level (index + 1)
          (.literal value.position (.number (Number.ofNat index)), value)

/-- The entries from one that has been read, if a separator follows it. -/
def moreEntries : Nat → Nat → Nat → Expr × Expr → Parser (List (Expr × Expr))
  | 0, _, _, _ => exhausted
  | n + 1, level, index, entry => do
    match ← check .comma with
    | some _ => do
      let rest ← tableEntries n level index
      pure (entry :: rest)
    | none => do
      match ← check .semicolon with
      | some _ => do
        let rest ← tableEntries n level index
        pure (entry :: rest)
      | none => pure [entry]

end

/-- A whole text: a block that only the end of the text ends. -/
def chunk (fuel : Nat) : Parser Chunk := do
  let body ← block fuel 0 false
  let t ← next
  if t.kind = .eof then pure body else fail (.unexpectedText t.text) t.position

/-- The bound on the depth of recursion for a number of tokens. -/
def fuelFor (tokens : List (Except SyntaxError Token)) : Nat := 16 * (tokens.length + 1)

end Parser

/-- The syntax tree of a list of tokens. -/
def parseTokens (tokens : List (Except SyntaxError Token)) : Except SyntaxError Chunk :=
  (Parser.chunk (Parser.fuelFor tokens)).run' tokens

/-- The syntax tree of a source text. -/
def parse (source : String) : Except SyntaxError Chunk := parseTokens (tokenize source)

end ScriptEngine
