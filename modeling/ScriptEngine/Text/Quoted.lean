import ScriptEngine.Number.Written
import ScriptEngine.Text.Case
import ScriptEngine.Text.HiddenTable

/-!
# Quoted text

A text in double quotes, for people who look at the state of a machine: what
could not be told apart by eye is written as an escape.

## Main definitions

* `Text.quote` — the quoted form.
-/

namespace ScriptEngine.Text

/-- An escape by code point, such as `\u{7}`. -/
def codePointEscape (c : Char) : List Char :=
  '\\' :: 'u' :: '\x7b' :: (Nat.toDigits 16 c.toNat ++ ['\x7d'])

/-- The form of one character between the quotes. -/
def quoteChar (c : Char) : List Char :=
  if c.toNat = 0 then ['\\', '0']
  else if c = '\t' then ['\\', 't']
  else if c = '\r' then ['\\', 'r']
  else if c = '\n' then ['\\', 'n']
  else if c.toNat = 0x22 || c.toNat = 0x5C then ['\\', c]
  else if 0x20 ≤ c.toNat && c.toNat < 0x7F then [c]
  else if inRanges hiddenRanges c.toNat then codePointEscape c
  else [c]

/-- The text in double quotes. -/
def quote (text : String) : String :=
  String.ofList ('\x22' :: (text.toList.flatMap quoteChar ++ ['\x22']))

end ScriptEngine.Text
