import ScriptEngine.Library.Format
import ScriptEngine.Library.Mathematics
import ScriptEngine.Library.Strings
import ScriptEngine.Library.Tables

/-!
# The standard library

The functions that are globals of their own, and the store that holds the whole
library.

## Main definitions

* `Library.base` — the functions that are globals of their own.
* `Library.run` — what native functions do, given those of a host.
* `Library.install` — a store with the library in it.
-/

namespace ScriptEngine.Library

/-- Puts out the written forms of the arguments in a line. -/
def print (args : Arguments) : Action (List Value) := fun s =>
  .ok [] (s.emit (.printed (Text.joinWith "\t" (args.map Value.text) ++ "\n")))

/-- The name of the type of a value. -/
def type (args : Arguments) : Except Cause (List Value) := do
  let v ← args.any 0 "type"
  pure [.string v.kind.name]

/-- The written form of a value. -/
def tostring (args : Arguments) : Except Cause (List Value) := do
  let v ← args.any 0 "tostring"
  pure [.string v.text]

/-- The number that a value is or spells, in a base if one is given. -/
def tonumber (args : Arguments) : Except Cause (List Value) := do
  let v ← args.any 0 "tonumber"
  if (args.value 1).isNil then pure [(v.toNumber?.map Value.number).getD .nil]
  else do
    let base ← args.integer 1 "tonumber"
    if base < 2 ∨ 36 < base then .error (.argument 2 "tonumber" .baseOutOfRange)
    else do
      let text ← args.string 0 "tonumber"
      match Number.parseRadix base.toNat (Text.trim text.toList) with
      | some i => pure [.number (Number.ofInt i)]
      | none => pure [.nil]

/-- Makes a native function of its own. -/
def newNative (f : BaseFunction) : Action Value := fun s =>
  let (v, s) := s.newNative f.name (.base f)
  .ok v s

/-- What a loop over all entries of a table needs. -/
def pairs (args : Arguments) : Action (List Value) := do
  let ref ← lift (args.table 0 "pairs")
  pure [← newNative .next, .table ref, .nil]

/-- The entry of a table behind a key. -/
def next (args : Arguments) : Action (List Value) := do
  let ref ← lift (args.table 0 "next")
  let key ←
    if (args.value 1).isNil then pure none else some <$> lift (Key.ofValue (args.value 1))
  match ← lift ((← contents ref).next key) with
  | some (key, v) => pure [key.toValue, v]
  | none => pure [.nil]

/-- What a loop over the values up to a border needs. -/
def ipairs (args : Arguments) : Action (List Value) := do
  let ref ← lift (args.table 0 "ipairs")
  pure [← newNative .ipairsStep, .table ref, .number 0]

/-- The index behind an index, and its value, unless that is `nil`. -/
def ipairsStep (args : Arguments) : Action (List Value) := do
  let ref ← lift (args.table 0 "ipairs")
  let index ← lift (args.number 1 "ipairs")
  let v := (← contents ref).get (.number (index + 1))
  if v.isNil then pure [.nil] else pure [.number (index + 1), v]

/-- The arguments from an index on, or their number. -/
def select (args : Arguments) : Except Cause (List Value) := do
  if args.value 0 = .string "#" then pure [.number (Number.ofNat (args.length - 1))]
  else do
    let n ← args.integer 0 "select"
    let rest := args.drop 1
    let index : Int := if n < 0 then rest.length + n else n - 1
    if index < 0 then .error (.argument 1 "select" .indexOutOfRange)
    else pure (rest.drop index.toNat)

/-- The arguments, if the first counts as true. -/
def assert (args : Arguments) : Except Cause (List Value) :=
  if (args.value 0).isTruthy then .ok args
  else if (args.value 1).isNil then .error .assertion
  else .error (.raised (args.value 1).text)

/-- Raises an error. -/
def error (args : Arguments) : Except Cause (List Value) := .error (.raised (args.value 0).text)

/-- The functions that are globals of their own. -/
def base (f : BaseFunction) (args : Arguments) : Action (List Value) :=
  match f with
  | .print => print args
  | .type => lift (type args)
  | .tostring => lift (tostring args)
  | .tonumber => lift (tonumber args)
  | .pairs => pairs args
  | .next => next args
  | .ipairs => ipairs args
  | .ipairsStep => ipairsStep args
  | .select => lift (select args)
  | .assert => lift (assert args)
  | .error => lift (error args)

/-- The functions of the table `string`. -/
def string (f : StringFunction) (args : Arguments) : Except Cause (List Value) :=
  match f with
  | .len => len args
  | .upper => upper args
  | .lower => lower args
  | .rep => rep args
  | .sub => sub args
  | .reverse => reverse args
  | .byte => byte args
  | .char => char args
  | .format => format args

/-- What native functions do, given those of a host by their key. -/
def run (hosts : String → NativeBody) : Builtin → NativeBody
  | .base f => fun _ args => base f args
  | .string f => fun _ args => lift (string f args)
  | .table f => table f
  | .math f => fun _ args => lift (math f args)
  | .host key => hosts key

/-! ### The library in a store -/

/-- The functions that are globals of their own. -/
def baseFunctions : List BaseFunction :=
  [.print, .type, .tostring, .tonumber, .pairs, .next, .ipairs, .select, .assert, .error]

/-- The functions of the table `string`. -/
def stringFunctions : List StringFunction :=
  [.len, .upper, .lower, .rep, .sub, .reverse, .byte, .char, .format]

/-- The functions of the table `table`. -/
def tableFunctions : List TableFunction := [.insert, .remove, .concat, .pack, .unpack, .sort]

/-- The functions of the table `math`. -/
def mathFunctions : List MathFunction :=
  [.abs, .ceil, .floor, .sqrt, .exp, .sin, .cos, .tan, .log, .fmod, .max, .min, .tointeger, .type]

/-- The numbers of the table `math`. -/
def mathConstants : List (String × Float) :=
  [("pi", 3.141592653589793), ("huge", 1 / 0), ("maxinteger", Number.ofInt (Word.half - 1)),
    ("mininteger", Number.ofInt (-Word.half))]

/-- Makes native functions one after another. -/
def makeNatives (functions : List (String × Builtin)) (s : Store) :
    List (String × Value) × Store :=
  functions.foldl
    (fun (made, s) (name, body) =>
      let (v, s) := s.newNative name body
      (made ++ [(name, v)], s))
    ([], s)

/-- Makes a global table of native functions and numbers. -/
def installTable (name : String) (functions : List (String × Builtin))
    (constants : List (String × Float)) (s : Store) : Store :=
  let (made, s) := makeNatives functions s
  let entries := made ++ constants.map fun (name, x) => (name, .number x)
  let (ref, s) := s.newTable (.ofEntries (entries.map fun (name, v) => (.text name, v)))
  s.setGlobal name (.table ref)

/-- A store with the library in it. -/
def install (s : Store) : Store :=
  let (made, s) := makeNatives (baseFunctions.map fun f => (f.name, .base f)) s
  let s := made.foldl (fun s (name, v) => s.setGlobal name v) s
  let s := installTable "string" (stringFunctions.map fun f => (f.name, .string f)) [] s
  let s := installTable "table" (tableFunctions.map fun f => (f.name, .table f)) [] s
  installTable "math" (mathFunctions.map fun f => (f.name, .math f)) mathConstants s

end ScriptEngine.Library
