import ScriptEngine.Library.Arguments
import ScriptEngine.Proofs.Number.Count

/-!
# Integers as arguments

Library functions that count positions, or take bytes, read their arguments as integers.

## Main definitions

* `Value.IsInteger` — that a value is passed as an integer.

## Main results

* `Arguments.integer_of_isInteger`, `Arguments.integerOr_of_isInteger` — such an argument is read
  as this integer.
* `Value.isInteger_byte` — a byte is passed as its own number.
-/

namespace ScriptEngine

/-- That a value is passed as an integer: a number that is equal to it, or a string that spells
one. -/
def Value.IsInteger (v : Value) (i : Int) : Prop := v.toNumber?.bind Number.integer? = some i

theorem Value.isInteger_byte (b : UInt8) :
    (Value.number (Number.ofNat b.toNat)).IsInteger b.toNat := by
  change Number.integer? (Number.ofNat b.toNat) = some (b.toNat : Int)
  rcases Nat.eq_zero_or_pos b.toNat with hzero | hpos
  · rw [hzero]
    decide +kernel
  · have hlt := b.toNat_lt
    have hbound : 256 ≤ Number.mantissaBound := by decide
    exact Number.integer?_ofNat hpos (by omega)

theorem Value.isInteger_minusOne : (Value.number (Number.ofInt (-1))).IsInteger (-1) := by
  unfold IsInteger
  decide +kernel

namespace Arguments

variable {args : Arguments} {index : Nat} {v : Value} {i : Int}

theorem integer_of_isInteger (function : String) (harg : args[index]? = some v)
    (hv : v.IsInteger i) : args.integer index function = .ok i := by
  obtain ⟨x, hnumber, hinteger⟩ := Option.bind_eq_some_iff.1 hv
  have hx : args.number index function = .ok x := by
    rw [number, harg, Option.bind_some, hnumber]
  simp only [integer, hx, bind, Except.bind, hinteger]

/-- An argument that is passed as an integer is not absent. -/
theorem integerOr_of_isInteger (function : String) (otherwise : Int)
    (harg : args[index]? = some v) (hv : v.IsInteger i) :
    args.integerOr index function otherwise = .ok i := by
  have hnil : (args.value index).isNil = false := by
    rw [value, List.getD_eq_getElem?_getD, harg, Option.getD_some]
    cases v with
    | nil => cases hv
    | _ => rfl
  rw [integerOr, if_neg (by simp [hnil]), integer_of_isInteger function harg hv]

end Arguments

end ScriptEngine
