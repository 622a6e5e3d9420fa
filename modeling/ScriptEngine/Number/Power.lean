/-!
# Powers of two and ten

Fractions with powers in them are compared and divided as pairs of natural
numbers: a factor with a negative exponent goes to the other side.

## Main definitions

* `Number.pow2`, `Number.pow10` — the powers, a negative exponent counting as
  zero.
-/

namespace ScriptEngine.Number

/-- Two to the power of `e`, and one for a negative `e`. -/
def pow2 (e : Int) : Nat := Nat.pow 2 e.toNat

/-- Ten to the power of `e`, and one for a negative `e`. -/
def pow10 (e : Int) : Nat := Nat.pow 10 e.toNat

theorem pow2_of_nonpos {e : Int} (h : e ≤ 0) : pow2 e = 1 := by
  simp [pow2, Int.toNat_of_nonpos h]

end ScriptEngine.Number
