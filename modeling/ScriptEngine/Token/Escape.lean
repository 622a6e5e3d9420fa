/-!
# Escapes in string literals

## Main definitions

* `Escape.isValid` — the characters that may follow a backslash.
* `Escape.resolve` — the character an escape stands for.
* `Escape.unescape` — a literal's text with its escapes resolved.
-/

namespace ScriptEngine.Escape

/-- The characters that may follow a backslash in a string literal. -/
def isValid (c : Char) : Bool :=
  c = 'n' || c = 't' || c = 'r' || c = 'a' || c = 'b' || c = '0' || c = '\\' || c = '\x22'
    || c = '\x27' || c = '\n'

/-- The character that a backslash and `c` stand for.  What is no letter of an
escape stands for itself. -/
def resolve (c : Char) : Char :=
  if c = 'n' then '\n'
  else if c = 't' then '\t'
  else if c = 'r' then '\r'
  else if c = 'a' then '\x07'
  else if c = 'b' then '\x08'
  else if c = '0' then '\x00'
  else c

/-- Resolves the escapes of a list of characters.  A backslash at the end is
dropped. -/
def resolveAll : List Char → List Char
  | [] => []
  | c :: rest =>
    if c = '\\' then
      match rest with
      | [] => []
      | e :: rest => resolve e :: resolveAll rest
    else c :: resolveAll rest

/-- The text of a literal with its escapes resolved. -/
def unescape (text : String) : String := String.ofList (resolveAll text.toList)

@[simp] theorem resolveAll_nil : resolveAll [] = [] := rfl

theorem resolveAll_cons_of_ne {c : Char} (rest : List Char) (h : c ≠ '\\') :
    resolveAll (c :: rest) = c :: resolveAll rest := by
  cases rest <;> simp [resolveAll, h]

end ScriptEngine.Escape
