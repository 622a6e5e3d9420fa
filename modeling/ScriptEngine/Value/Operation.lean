import ScriptEngine.Cause
import ScriptEngine.Number.Numeral
import ScriptEngine.Number.Remainder

/-!
# Operations on values

The operators of the language on values that need no store: arithmetic, bitwise
operations, concatenation and order.  Strings that spell a number are converted
by arithmetic, and numbers are written out by concatenation.

## Main definitions

* `Value.toNumber?`, `Value.toInteger` — conversion to a number and to an
  integer of 64 bits.
* `Value.arith`, `Value.concat`, `Value.lessThan`, `Value.lessEquals`,
  `Value.negate`, `Value.bitNot` — the operators.
-/

namespace ScriptEngine

/-- The bitwise operators on integers of 64 bits.  The other operators have
nothing to do here and give zero. -/
def Arith.onIntegers (operator : Arith) (a b : Int) : Int :=
  let v := Word.ofInt a
  let w := Word.ofInt b
  match operator with
  | bitAnd => Word.toInt (v &&& w)
  | bitOr => Word.toInt (v ||| w)
  | bitXor => Word.toInt (v ^^^ w)
  | shiftLeft => Word.toInt (Word.shiftLeft v b)
  | shiftRight => Word.toInt (Word.shiftLeft v (-b))
  | _ => 0

/-- The arithmetic operators on numbers.  The bitwise operators have nothing to
do here and give zero. -/
def Arith.onNumbers (operator : Arith) (a b : Float) : Float :=
  match operator with
  | add => a + b
  | subtract => a - b
  | multiply => a * b
  | divide => a / b
  | floorDivide => (a / b).floor
  | modulo => Number.modulo a b
  | exponent => a.pow b
  | _ => 0

/-- Whether an operator works on the bits of integers. -/
def Arith.isBitwise : Arith → Bool
  | bitAnd => true
  | bitOr => true
  | bitXor => true
  | shiftLeft => true
  | shiftRight => true
  | _ => false

namespace Value

/-- The number that a value is, or that a string spells. -/
def toNumber? : Value → Option Float
  | number x => some x
  | string s => Number.parse s
  | _ => none

/-- The integer that an operand of a bitwise operator is. -/
def toInteger (v : Value) : Except Cause Int :=
  match v.toNumber? with
  | none => .error (.bitwise v.kind)
  | some x =>
    match Number.integer? x with
    | none => .error .notAnInteger
    | some i => .ok i

/-- The number that an operand of an arithmetic operator is. -/
def toOperand (v : Value) : Except Cause Float :=
  match v.toNumber? with
  | none => .error (.arithmetic v.kind)
  | some x => .ok x

/-- An arithmetic or bitwise operator.  The left operand is checked first. -/
def arith (operator : Arith) (lhs rhs : Value) : Except Cause Value :=
  if operator.isBitwise then do
    let a ← lhs.toInteger
    let b ← rhs.toInteger
    pure (.number (Number.ofInt (operator.onIntegers a b)))
  else do
    let a ← lhs.toOperand
    let b ← rhs.toOperand
    pure (.number (operator.onNumbers a b))

/-- The negative of a number. -/
def negate (v : Value) : Except Cause Value := do
  pure (.number (-(← v.toOperand)))

/-- The integer with all bits flipped. -/
def bitNot (v : Value) : Except Cause Value := do
  pure (.number (Number.ofInt (-(← v.toInteger) - 1)))

/-- The text that an operand of a concatenation contributes. -/
def toPiece : Value → Except Cause String
  | string s => .ok s
  | number x => .ok (Number.text x)
  | v => .error (.concatenation v.kind)

/-- Concatenation of strings and written numbers. -/
def concat (lhs rhs : Value) : Except Cause Value := do
  let a ← lhs.toPiece
  let b ← rhs.toPiece
  pure (.string (a ++ b))

/-- The order of numbers and of strings.  Strings are ordered as their bytes
are. -/
def lessThan (lhs rhs : Value) : Except Cause Bool :=
  match lhs, rhs with
  | number a, number b => .ok (a < b)
  | string a, string b => .ok (a < b)
  | _, _ => .error (.comparison lhs.kind rhs.kind)

@[inherit_doc lessThan]
def lessEquals (lhs rhs : Value) : Except Cause Bool :=
  match lhs, rhs with
  | number a, number b => .ok (a ≤ b)
  | string a, string b => .ok !(b < a)
  | _, _ => .error (.comparison lhs.kind rhs.kind)

end Value

end ScriptEngine
