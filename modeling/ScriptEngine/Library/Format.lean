import ScriptEngine.Library.Arguments
import ScriptEngine.Text.Layout

/-!
# Formatting

Texts with conversions such as `%5.2f`: flags, a width, a precision and the
letter of the conversion.

## Main definitions

* `Format.Spec`, `Format.readSpec` — a conversion, and reading one.
* `Format.Spec.pad` — filling a converted text up to its width.
* `Format.convert` — the text of an argument.
* `Library.format` — the function.
-/

namespace ScriptEngine

namespace Format

/-- How an argument is to be converted. -/
structure Spec where
  left : Bool
  zero : Bool
  plus : Bool
  width : Nat
  precision : Option Nat
deriving DecidableEq, Repr

/-- Splits a sign off a number. -/
def splitSign : List Char → List Char × List Char
  | '-' :: digits => (['-'], digits)
  | '+' :: digits => (['+'], digits)
  | digits => ([], digits)

/-- A converted text filled up to the width.  Zeros go between the sign and the
digits of a number. -/
def Spec.pad (spec : Spec) (text : String) (numeric : Bool) : String :=
  let missing := spec.width - text.length
  if missing = 0 then text
  else if spec.left then text ++ Text.fill missing ' '
  else if spec.zero && numeric then
    let (sign, digits) := splitSign text.toList
    String.ofList (sign ++ List.replicate missing '0' ++ digits)
  else Text.fill missing ' ' ++ text

/-- Reads flags. -/
def readFlags (spec : Spec) : List Char → Spec × List Char
  | '-' :: rest => readFlags { spec with left := true } rest
  | '0' :: rest => readFlags { spec with zero := true } rest
  | '+' :: rest => readFlags { spec with plus := true } rest
  | cs => (spec, cs)

/-- Reads a width or a precision of at most two digits. -/
def readDigits (cs : List Char) : Except Cause (Nat × List Char) :=
  let digits := cs.takeWhile Number.isDigit
  if 2 < digits.length then .error .conversionTooLong
  else .ok (Number.decimalValue digits, cs.dropWhile Number.isDigit)

/-- Reads a conversion behind its percent sign: how, its letter, and what
follows. -/
def readSpec (cs : List Char) : Except Cause (Spec × Char × List Char) := do
  let (spec, cs) := readFlags ⟨false, false, false, 0, none⟩ cs
  let (width, cs) ← readDigits cs
  let (precision, cs) ←
    match cs with
    | '.' :: rest => do
      let (precision, rest) ← readDigits rest
      pure (some precision, rest)
    | cs => pure (none, cs)
  match cs with
  | [] => .error (.invalidConversion none)
  | letter :: rest => .ok ({ spec with width := width, precision := precision }, letter, rest)

/-- The plus sign, if there is to be one. -/
def Spec.sign (spec : Spec) (nonnegative : Bool) : String :=
  if spec.plus && nonnegative then "+" else ""

/-- The character of a code point, a question mark if there is none. -/
def charOfCode (i : Int) : Char :=
  if 0 ≤ i ∧ (i < 0xD800 ∨ 0xE000 ≤ i ∧ i < 0x110000) then Char.ofNat i.toNat else '?'

/-- The text of the argument at an index. -/
def convert (spec : Spec) (letter : Char) (args : Arguments) (index : Nat) :
    Except Cause String := do
  match letter with
  | 'd' | 'i' => do
    let i ← args.integer index "format"
    pure (spec.pad (spec.sign (0 ≤ i) ++ Number.integerText i) true)
  | 'f' | 'F' => do
    let x ← args.number index "format"
    pure (spec.pad (spec.sign (0 ≤ x) ++ Number.fixed (spec.precision.getD 6) x) true)
  | 'g' => do
    let x ← args.number index "format"
    pure (spec.pad (Number.text x) true)
  | 'x' => do
    let i ← args.integer index "format"
    pure (spec.pad (Number.hexadecimal (Word.ofInt i)) true)
  | 'X' => do
    let i ← args.integer index "format"
    let digits := (Nat.toDigits 16 (Word.ofInt i)).map Char.toUpper
    pure (spec.pad (String.ofList digits) true)
  | 'c' => do
    let i ← args.integer index "format"
    pure (spec.pad (String.singleton (charOfCode i)) false)
  | 's' => do
    let v ← args.any index "format"
    let text :=
      match spec.precision with
      | some precision => String.ofList (v.text.toList.take precision)
      | none => v.text
    pure (spec.pad text false)
  | other => .error (.invalidConversion (some other))

/-- The text that a format and the arguments from an index on give, behind what
has been `written`, which is given last character first.  Every conversion takes
at least one character of the format, so that their number bounds the
recursion. -/
def formatOnto (args : Arguments) (written : List Char) :
    Nat → Nat → List Char → Except Cause (List Char)
  | 0, _, _ => .ok written.reverse
  | _, _, [] => .ok written.reverse
  | fuel + 1, index, c :: rest =>
    if c = '%' then
      match rest with
      | '%' :: rest => formatOnto args ('%' :: written) fuel index rest
      | rest => do
        let (spec, letter, rest) ← readSpec rest
        let text ← convert spec letter args index
        formatOnto args (text.toList.reverse ++ written) fuel (index + 1) rest
    else formatOnto args (c :: written) fuel index rest

end Format

/-- The text that a format and its arguments give. -/
def Library.format (args : Arguments) : Except Cause (List Value) := do
  let text ← args.string 0 "format"
  let formatted ← Format.formatOnto args [] text.length 1 text.toList
  pure [.string (String.ofList formatted)]

end ScriptEngine
