import ScriptEngine.Library.Arguments
import ScriptEngine.Text.Case
import ScriptEngine.Text.Utf8

/-!
# The string library

## Main definitions

* `Text.byteRange` — the bytes that a pair of indices selects; indices count
  from one, negative ones from the end.
* `Library.repeated` — a text several times, with a separator.
* `Library.sub`, `Library.byte`, `Library.char`, … — the functions.
-/

namespace ScriptEngine

/-- The bytes from `start` to `stop`, both included, as a range from one offset up
to another.  Positions count from one; a negative index counts from the end. -/
def Text.byteRange (length : Nat) (start stop : Int) : Option (Nat × Nat) :=
  let first := if start < 0 then max (length + start + 1) 1 else if start = 0 then 1 else start
  let last := if stop < 0 then length + stop + 1 else min stop length
  if first ≤ last then some (first.toNat - 1, last.toNat) else none

/-- A text `n` times.  Halving `n` keeps the number of concatenations small. -/
def Text.times (text : String) (n : Nat) : String :=
  if n = 0 then ""
  else
    let half := Text.times text (n / 2)
    if n % 2 = 0 then half ++ half else half ++ half ++ text
termination_by n
decreasing_by omega

namespace Library

/-- The longest string that repetition makes, in bytes. -/
def maxStringSize : Nat := 0x10000000

/-- A text several times, with a separator between each two. -/
def repeated (text separator : String) (count : Nat) : String :=
  match count with
  | 0 => ""
  | n + 1 => text ++ Text.times (separator ++ text) n

/-- The number of bytes. -/
def len (args : Arguments) : Except Cause (List Value) := do
  let text ← args.string 0 "len"
  pure [.number (Number.ofNat text.utf8ByteSize)]

/-- The uppercase mapping. -/
def upper (args : Arguments) : Except Cause (List Value) := do
  let text ← args.string 0 "upper"
  pure [.string (Text.upper text)]

/-- The lowercase mapping. -/
def lower (args : Arguments) : Except Cause (List Value) := do
  let text ← args.string 0 "lower"
  pure [.string (Text.lower text)]

/-- A text several times. -/
def rep (args : Arguments) : Except Cause (List Value) := do
  let text ← args.string 0 "rep"
  let count ← args.integer 1 "rep"
  let separator ← args.stringOrEmpty 2 "rep"
  if count ≤ 0 then pure [.string ""]
  else
    let n := count.toNat
    let size := text.utf8ByteSize * n + separator.utf8ByteSize * (n - 1)
    if size = 0 then pure [.string ""]
    else if size ≤ maxStringSize then pure [.string (repeated text separator n)]
    else .error .stringTooLarge

/-- The bytes of a text in a range. -/
def bytesIn (text : String) (start stop : Int) : List UInt8 :=
  match Text.byteRange text.utf8ByteSize start stop with
  | some (first, last) => ((Text.bytes text).drop first).take (last - first)
  | none => []

/-- The part of a text between two indices. -/
def sub (args : Arguments) : Except Cause (List Value) := do
  let text ← args.string 0 "sub"
  let start ← args.integerOr 1 "sub" 1
  let stop ← args.integerOr 2 "sub" (-1)
  pure [.string (Text.ofBytes (bytesIn text start stop))]

/-- The characters from the last to the first. -/
def reverse (args : Arguments) : Except Cause (List Value) := do
  let text ← args.string 0 "reverse"
  pure [.string (String.ofList text.toList.reverse)]

/-- The bytes between two indices as numbers. -/
def byte (args : Arguments) : Except Cause (List Value) := do
  let text ← args.string 0 "byte"
  let start ← args.integerOr 1 "byte" 1
  let stop ← args.integerOr 2 "byte" start
  pure ((bytesIn text start stop).map fun b => .number (Number.ofNat b.toNat))

/-- The bytes that the arguments from an index on are. -/
def byteArguments (args : Arguments) : Nat → Nat → Except Cause (List UInt8)
  | 0, _ => pure []
  | n + 1, index => do
    let i ← args.integer index "char"
    if 0 ≤ i ∧ i < 256 then do
      let rest ← byteArguments args n (index + 1)
      pure (UInt8.ofNat i.toNat :: rest)
    else .error (.argument (index + 1) "char" .valueOutOfRange)

/-- The text of the bytes that the arguments are. -/
def char (args : Arguments) : Except Cause (List Value) := do
  let bytes ← byteArguments args args.length 0
  pure [.string (Text.ofBytes bytes)]

end Library

end ScriptEngine
