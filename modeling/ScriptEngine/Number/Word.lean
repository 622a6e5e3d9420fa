import ScriptEngine.Number.Power

/-!
# Words of 64 bits

A word is a natural number below `Word.count`.  Those from `Word.half` on stand
for the negative integers.

## Main definitions

* `Word.IsSigned` — the integers that words stand for.
* `Word.ofInt`, `Word.toInt` — the word of an integer, and the integer of a
  word.
* `Word.shiftLeft` — shifts of a word in both directions.
-/

namespace ScriptEngine.Word

/-- How many words there are. -/
def count : Nat := 0x10000000000000000

/-- The first word that stands for a negative integer. -/
def half : Nat := 0x8000000000000000

/-- Whether a word stands for an integer. -/
abbrev IsSigned (i : Int) : Prop := -(half : Int) ≤ i ∧ i < half

/-- The word of an integer. -/
def ofInt (i : Int) : Nat := (i % count).toNat

/-- The integer that a word stands for. -/
def toInt (w : Nat) : Int := if w < half then (w : Int) else (w : Int) - count

/-- Logical shift of a word to the left; a negative amount shifts to the right.
Amounts of 64 and more leave nothing. -/
def shiftLeft (w : Nat) (amount : Int) : Nat :=
  if amount ≤ -64 ∨ 64 ≤ amount then 0
  else w * Number.pow2 amount % count / Number.pow2 (-amount)

end ScriptEngine.Word
