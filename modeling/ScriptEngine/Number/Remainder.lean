import ScriptEngine.Number.Binary64

/-!
# Remainders

## Main definitions

* `Number.remainder` — what is left of the dividend after taking out the
  divisor as often as it goes in; it has the dividend's sign.
* `Number.modulo` — the remainder that has the divisor's sign.
* `Number.larger`, `Number.smaller` — the larger and the smaller of two
  numbers, passing over NaN.
-/

namespace ScriptEngine.Number

/-- The exact remainder of the division of `a` by `b`, rounded toward zero.  The
remainder of an infinite dividend or by zero is NaN. -/
def remainder (a b : Float) : Float :=
  match read a, read b with
  | .nan, _ => a
  | _, .nan => b
  | .infinite _, _ => 0 / 0
  | .finite .., .infinite _ => a
  | .finite negative m e, .finite _ n f =>
    if n = 0 then 0 / 0
    else
      let unit := min e f
      pack negative (m * pow2 (e - unit) % (n * pow2 (f - unit))) unit

/-- The remainder moved to the divisor's sign. -/
def modulo (a b : Float) : Float :=
  let m := remainder a b
  if m != 0 && decide (m < 0) != decide (b < 0) then m + b else m

/-- The larger of two numbers.  NaN gives way to the other one, and two equal
numbers give the second. -/
def larger (a b : Float) : Float :=
  if b.isNaN || a > b then a else b

/-- The smaller of two numbers.  NaN gives way to the other one, and two equal
numbers give the second. -/
def smaller (a b : Float) : Float :=
  if b.isNaN || a < b then a else b

end ScriptEngine.Number
