import ScriptEngine.Number.Binary64

/-!
# Shortest decimals

The shortest decimal that reads back as a given number.  Around `m · 2 ^ q`
lies the interval of reals that round to it; on the grids of one, two, three, …
significant digits the two neighbours of the value are tried until one falls
into the interval.

## Main definitions

* `Number.Decimal` — a decimal `digits · 10 ^ exponent`.
* `Number.shortest` — the shortest decimal in the rounding interval; of two of
  the same length the nearer one, of two equally near ones the greater.
* `Number.Decimal.plain` — a decimal written without an exponent.
-/

namespace ScriptEngine.Number

/-- The decimal `digits · 10 ^ exponent`. -/
structure Decimal where
  digits : Nat
  exponent : Int
deriving DecidableEq, Repr

/-- The number of digits before the point of `m · 2 ^ q`, for `0 < m`; zero or
negative below one tenth and so on. -/
def decimalPlaces (m : Nat) (q : Int) : Int :=
  let guess := (q + m.log2) * 30103 / 100000
  -- `10 ^ (guess + 1) ≤ m · 2 ^ q`, multiplied out
  if pow10 (guess + 1) * pow2 (-q) ≤ m * pow2 q * pow10 (-(guess + 1)) then guess + 2
  else guess + 1

/-- Tries the grids of step `10 ^ (places - n)` for `n = 18 - fuel, …, 17`. -/
def shortestFrom (m : Nat) (q places : Int) : Nat → Decimal
  | 0 => ⟨0, 0⟩
  | fuel + 1 =>
    let step := places - (17 - fuel : Nat)
    let scale := pow2 (q - 2) * pow10 (-step)
    let unit := pow2 (2 - q) * pow10 step
    -- the value and the ends of its interval, in quarters of `2 ^ q`
    let value := 4 * m * scale
    let low := (4 * m - (if m = hiddenBit then 1 else 2)) * scale
    let high := (4 * m + 2) * scale
    let below := value / unit
    let inside (x : Nat) : Bool :=
      if m % 2 = 0 then low ≤ x && x ≤ high else low < x && x < high
    let lowHit := inside (below * unit)
    let highHit := inside ((below + 1) * unit)
    if highHit && (!lowHit || unit ≤ 2 * (value - below * unit)) then ⟨below + 1, step⟩
    else if lowHit then ⟨below, step⟩
    else shortestFrom m q places fuel

/-- The shortest decimal that reads back as `m · 2 ^ q`. -/
def shortest (m : Nat) (q : Int) : Decimal :=
  if m = 0 then ⟨0, 0⟩ else shortestFrom m q (decimalPlaces m q) 17

/-- The digits of `n`, most significant first. -/
def digitChars (n : Nat) : List Char := Nat.toDigits 10 n

/-- Digits with a point before the last `places` of them, and at least one digit
before the point. -/
def placePoint (digits : List Char) (places : Nat) : List Char :=
  let padded := List.replicate (places + 1 - digits.length) '0' ++ digits
  let front := padded.take (padded.length - places)
  if places = 0 then front else front ++ '.' :: padded.drop (padded.length - places)

/-- A decimal without trailing zeros among its digits. -/
def Decimal.trim (d : Decimal) : Decimal :=
  let zeros := ((digitChars d.digits).reverse.takeWhile (· = '0')).length
  if d.digits = 0 then ⟨0, 0⟩ else ⟨d.digits / pow10 zeros, d.exponent + zeros⟩

/-- A decimal in plain notation: no exponent, and a point only before digits
that are needed. -/
def Decimal.plain (d : Decimal) : String :=
  let t := d.trim
  if 0 ≤ t.exponent then
    String.ofList (digitChars t.digits ++ List.replicate t.exponent.toNat '0')
  else String.ofList (placePoint (digitChars t.digits) (-t.exponent).toNat)

end ScriptEngine.Number
