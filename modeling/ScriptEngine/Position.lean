/-!
# Source positions

Every token, node of a syntax tree and instruction carries the place of the
source text it stems from.

## Main definitions

* `Position` — a line and a column.
* `Position.text` — how a position is written in messages and listings.
-/

namespace ScriptEngine

/-- A place in a source text: a line and a column, both counted from one.
Columns count characters.  Code that no text was written for stands at
`0:0`. -/
structure Position where
  line : Nat
  column : Nat
deriving DecidableEq, Repr

namespace Position

/-- The place of what no source text holds. -/
def nowhere : Position := ⟨0, 0⟩

instance : Inhabited Position := ⟨nowhere⟩

/-- The first character of a text. -/
def start : Position := ⟨1, 1⟩

/-- The place after a character that stands at `p`: a newline opens the next
line, any other character takes one column. -/
def after (p : Position) (c : Char) : Position :=
  if c = '\n' then ⟨p.line + 1, 1⟩ else ⟨p.line, p.column + 1⟩

/-- The written form, `line:column`. -/
def text (p : Position) : String :=
  p.line.repr ++ ":" ++ p.column.repr

@[simp] theorem after_newline (p : Position) : p.after '\n' = ⟨p.line + 1, 1⟩ := rfl

theorem after_of_ne {c : Char} (p : Position) (h : c ≠ '\n') :
    p.after c = ⟨p.line, p.column + 1⟩ := if_neg h

end Position

end ScriptEngine
