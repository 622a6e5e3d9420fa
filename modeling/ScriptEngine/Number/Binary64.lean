import ScriptEngine.Number.Word

/-!
# Binary64 numbers

The numbers of the language are IEEE 754 binary64 words.  This module reads a
word as a sign, a mantissa and a power of two, and converts between words and
integers.

## Main definitions

* `Number.Reading`, `Number.read` — what a word stands for.
* `Number.pack` — the word of `± m · 2 ^ e` for values that fit.
* `Number.ofNat`, `Number.ofInt` — the nearest number to an integer, a half
  going to the even neighbour.
* `Number.integer?` — the integer a number is equal to, if it fits 64 bits.
* `Number.toCount`, `Number.toOffset` — truncation to an unsigned or a signed
  64-bit integer, out of range values going to the nearest end.
-/

namespace ScriptEngine.Number

/-- What a binary64 word stands for. -/
inductive Reading where
  | nan
  | infinite (negative : Bool)
  /-- The value `mantissa · 2 ^ exponent` under a sign; the zeros have mantissa
  zero. -/
  | finite (negative : Bool) (mantissa : Nat) (exponent : Int)
deriving DecidableEq, Repr

/-- The bit of a mantissa that its field has no place for. -/
def hiddenBit : Nat := 0x10000000000000

/-- The largest mantissa of a number, plus one. -/
def mantissaBound : Nat := 0x20000000000000

/-- The power of two of the smallest positive number. -/
def leastExponent : Int := -1074

/-- Reads the sign, the exponent field and the mantissa field of a word. -/
def readBits (bits : Nat) : Reading :=
  let negative := bits / Word.half % 2 == 1
  let exponent : Nat := bits / hiddenBit % 2048
  let mantissa := bits % hiddenBit
  if exponent = 2047 then
    if mantissa = 0 then .infinite negative else .nan
  else if exponent = 0 then .finite negative mantissa leastExponent
  else .finite negative (hiddenBit + mantissa) ((exponent : Int) - 1075)

/-- What the number `x` stands for. -/
def read (x : Float) : Reading := readBits x.toBits.toNat

/-- The word of `± m · 2 ^ e`, for `m` below `mantissaBound` and `e` from
`leastExponent` up to where the numbers end. -/
def packBits (negative : Bool) (m : Nat) (e : Int) : Nat :=
  let shift := min (52 - m.log2) (e - leastExponent).toNat
  let mantissa := m * pow2 shift
  let exponent := e - shift
  let sign := if negative then Word.half else 0
  if mantissa < hiddenBit then sign + mantissa
  else sign + (exponent + 1075).toNat * hiddenBit + (mantissa - hiddenBit)

/-- The number `± m · 2 ^ e`, for `m` below `mantissaBound` and `e` from
`leastExponent` up to where the numbers end. -/
def pack (negative : Bool) (m : Nat) (e : Int) : Float :=
  Float.ofBits (packBits negative m e).toUInt64

/-- The number nearest to `n`.  Below `mantissaBound` it is `n` itself. -/
def ofNat (n : Nat) : Float :=
  if n < mantissaBound then pack false n 0 else Float.ofNat n

/-- The number nearest to `i`. -/
def ofInt : Int → Float
  | .ofNat n => ofNat n
  | .negSucc n => -ofNat (n + 1)

/-- The magnitude `m · 2 ^ e` without its fraction. -/
def wholePart (m : Nat) (e : Int) : Nat := m * pow2 e / pow2 (-e)

/-- Whether `m · 2 ^ e` has no fraction. -/
def isWhole (m : Nat) (e : Int) : Bool := m % pow2 (-e) == 0

/-- Puts a sign on a magnitude. -/
def signed (negative : Bool) (n : Nat) : Int :=
  if negative then -(n : Int) else n

/-- The integer that `x` is equal to, if there is one. -/
def whole? (x : Float) : Option Int :=
  match read x with
  | .finite negative m e =>
    if isWhole m e then some (signed negative (wholePart m e)) else none
  | _ => none

/-- The integer that `x` is equal to, if there is one that a word stands for. -/
def integer? (x : Float) : Option Int :=
  match whole? x with
  | some i => if Word.IsSigned i then some i else none
  | none => none

/-- Truncation of `x` to an unsigned 64-bit integer: negative numbers and NaN
count as zero, numbers beyond the range as its upper end. -/
def toCount (x : Float) : Nat :=
  match read x with
  | .nan => 0
  | .infinite negative => if negative then 0 else Word.count - 1
  | .finite negative m e => if negative then 0 else min (wholePart m e) (Word.count - 1)

/-- Truncation of `x` to a signed 64-bit integer: NaN counts as zero, numbers
beyond the range as its nearest end. -/
def toOffset (x : Float) : Int :=
  match read x with
  | .nan => 0
  | .infinite negative => if negative then -Word.half else Word.half - 1
  | .finite negative m e =>
    max (-Word.half) (min (signed negative (wholePart m e)) (Word.half - 1))

/-- Whether the sign bit of `x` is set. -/
def isNegative (x : Float) : Bool :=
  match read x with
  | .nan => false
  | .infinite negative => negative
  | .finite negative _ _ => negative

end ScriptEngine.Number
