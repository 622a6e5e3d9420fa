import ScriptEngine.Number.Binary64
import ScriptEngine.Text.Whitespace

/-!
# Numerals

Texts that spell a number: the number literals of a source text and the
strings that arithmetic converts.

## Main definitions

* `Number.parseDecimal` — digits with an optional point and exponent, at least
  one digit before the exponent, rounded to the nearest number.
* `Number.parseRadix` — an optional sign and digits of a base.
* `Number.parse` — what scripts accept as the spelling of a number.
* `Number.parseAny` — decimals with a sign, and the words for infinity and NaN.
-/

namespace ScriptEngine.Number

/-- The value of a digit in bases up to thirty-six. -/
def digitValue? (c : Char) : Option Nat :=
  let n := c.toNat
  if 48 ≤ n ∧ n ≤ 57 then some (n - 48)
  else if 97 ≤ n ∧ n ≤ 122 then some (n - 87)
  else if 65 ≤ n ∧ n ≤ 90 then some (n - 55)
  else none

/-- Whether `c` is a decimal digit. -/
def isDigit (c : Char) : Bool := 48 ≤ c.toNat && c.toNat ≤ 57

/-- Whether `c` is a digit of base sixteen. -/
def isHexDigit (c : Char) : Bool :=
  isDigit c || (97 ≤ c.toNat && c.toNat ≤ 102) || (65 ≤ c.toNat && c.toNat ≤ 70)

/-- The value of a run of digits in base `base`, behind a value read so far. -/
def digitsValue? (base : Nat) : Nat → List Char → Option Nat
  | value, [] => some value
  | value, c :: rest =>
    match digitValue? c with
    | some d => if d < base then digitsValue? base (value * base + d) rest else none
    | none => none

/-- The value of one or more digits in base `base`. -/
def parseDigits (base : Nat) : List Char → Option Nat
  | [] => none
  | cs => digitsValue? base 0 cs

/-- The value of a run of decimal digits. -/
def decimalValue (cs : List Char) : Nat :=
  cs.foldl (fun value c => value * 10 + (c.toNat - 48)) 0

/-- The number nearest to `digits · 10 ^ exponent`.  Powers far outside of the
range of the numbers are decided by the position of the first digit. -/
def ofDecimal (digits : Nat) (exponent : Int) : Float :=
  if digits = 0 then 0
  else
    let places := exponent + (Nat.toDigits 10 digits).length
    if 400 < places then 1 / 0
    else if places < -400 then 0
    else if 0 ≤ exponent then Float.ofScientific digits false exponent.toNat
    else Float.ofScientific digits true (-exponent).toNat

/-- The exponent part of a decimal: nothing, or `e` with an optional sign and
one or more digits. -/
def parseExponent : List Char → Option Int
  | [] => some 0
  | c :: rest =>
    if c = 'e' ∨ c = 'E' then
      let (negative, digits) :=
        match rest with
        | '-' :: digits => (true, digits)
        | '+' :: digits => (false, digits)
        | digits => (false, digits)
      if digits.isEmpty || !digits.all isDigit then none
      else some (signed negative (decimalValue digits))
    else none

/-- Digits with an optional point and an optional exponent. -/
def parseDecimal (cs : List Char) : Option Float :=
  let front := cs.takeWhile isDigit
  let rest := cs.dropWhile isDigit
  let (fraction, rest) :=
    match rest with
    | '.' :: rest => (rest.takeWhile isDigit, rest.dropWhile isDigit)
    | rest => ([], rest)
  if front.isEmpty && fraction.isEmpty then none
  else
    (parseExponent rest).map fun exponent =>
      ofDecimal (decimalValue (front ++ fraction)) (exponent - fraction.length)

/-- A sign in front of a text, and the text behind it. -/
def splitSign : List Char → Bool × List Char
  | '-' :: rest => (true, rest)
  | '+' :: rest => (false, rest)
  | cs => (false, cs)

/-- An integer that a word stands for, in base `base` and with an optional
sign. -/
def parseRadix (base : Nat) (cs : List Char) : Option Int :=
  let (negative, digits) := splitSign cs
  match parseDigits base digits with
  | some n =>
    let i := signed negative n
    if Word.IsSigned i then some i else none
  | none => none

/-- The digits behind `0x`: an unsigned 64-bit integer in base sixteen, which
may have a plus sign. -/
def parseHexadecimal (cs : List Char) : Option Float :=
  let digits :=
    match cs with
    | '+' :: rest => rest
    | cs => cs
  match parseDigits 16 digits with
  | some n => if n < Word.count then some (ofNat n) else none
  | none => none

/-- An unsigned spelling of a number. -/
def parseMagnitude : List Char → Option Float
  | '0' :: 'x' :: rest => parseHexadecimal rest
  | '0' :: 'X' :: rest => parseHexadecimal rest
  | [] => none
  | c :: rest => if isDigit c || c = '.' then parseDecimal (c :: rest) else none

/-- The number a text spells: blanks around an optional minus sign and a decimal
or, behind `0x`, digits of base sixteen. -/
def parse (text : String) : Option Float :=
  match Text.trim text.toList with
  | '-' :: rest => (parseMagnitude rest).map fun x => -x
  | cs => parseMagnitude cs

/-- The words for what is not a finite number, in any case of letters. -/
def parseWord (cs : List Char) : Option Float :=
  let word := String.ofList (cs.map Char.toLower)
  if word = "inf" ∨ word = "infinity" then some (1 / 0)
  else if word = "nan" then some (0 / 0)
  else none

/-- A decimal or one of the words for infinity and NaN, with an optional
sign. -/
def parseAny (text : String) : Option Float :=
  let (negative, cs) := splitSign text.toList
  let magnitude := (parseDecimal cs).orElse fun _ => parseWord cs
  magnitude.map fun x => if negative then -x else x

end ScriptEngine.Number
