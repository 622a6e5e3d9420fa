import ScriptEngine.Number.Shortest

/-!
# Written numbers

How numbers are written: by scripts that print or concatenate them, and with a
fixed number of places.

## Main definitions

* `Number.text` — the written form of a number: whole numbers below `10 ^ 16`
  as integers, all others by their shortest decimal in plain notation.
* `Number.fixed` — a fixed number of places, a half going to the even
  neighbour.
* `Number.hexadecimal` — base sixteen.
-/

namespace ScriptEngine.Number

/-- The written form of an integer. -/
def integerText (i : Int) : String :=
  match i with
  | .ofNat n => n.repr
  | .negSucc n => "-" ++ (n + 1).repr

/-- Whole numbers below this bound are written as integers. -/
def integerTextBound : Nat := 10000000000000000

/-- The written form of a number.  Both zeros are written `0`. -/
def text (x : Float) : String :=
  match read x with
  | .nan => "nan"
  | .infinite negative => if negative then "-inf" else "inf"
  | .finite negative m e =>
    if isWhole m e && wholePart m e < integerTextBound then
      integerText (signed negative (wholePart m e))
    else (if negative then "-" else "") ++ (shortest m e).plain

/-- The quotient of `n` by `d` rounded to the nearest integer, a half going to
the even neighbour. -/
def roundDiv (n d : Nat) : Nat :=
  let q := n / d
  let r := n % d
  if d < 2 * r || (2 * r = d && q % 2 = 1) then q + 1 else q

/-- The number `x` with `places` digits after the point.  The sign of a zero is
written. -/
def fixed (places : Nat) (x : Float) : String :=
  match read x with
  | .nan => "NaN"
  | .infinite negative => if negative then "-inf" else "inf"
  | .finite negative m e =>
    let units := roundDiv (m * pow2 e * pow10 places) (pow2 (-e))
    (if negative then "-" else "") ++ String.ofList (placePoint (digitChars units) places)

/-- The digits of `n` in base sixteen. -/
def hexadecimal (n : Nat) : String := String.ofList (Nat.toDigits 16 n)

end ScriptEngine.Number
