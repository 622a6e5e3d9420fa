/-!
# Layout of text in columns

## Main definitions

* `Text.padStart`, `Text.padEnd` — a text filled up with blanks to a width.
* `Text.joinWith` — texts with a separator between them.
-/

namespace ScriptEngine.Text

/-- A run of one character. -/
def fill (n : Nat) (c : Char) : String := String.ofList (List.replicate n c)

/-- The text, filled up in front to `width` characters. -/
def padStart (width : Nat) (text : String) : String :=
  fill (width - text.length) ' ' ++ text

/-- The text, filled up at its end to `width` characters. -/
def padEnd (width : Nat) (text : String) : String :=
  text ++ fill (width - text.length) ' '

/-- The texts with `separator` between each two. -/
def joinWith (separator : String) : List String → String
  | [] => ""
  | first :: rest => rest.foldl (fun joined next => joined ++ separator ++ next) first

end ScriptEngine.Text
