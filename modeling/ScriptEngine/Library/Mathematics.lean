import ScriptEngine.Library.Arguments

/-!
# The mathematics library

## Main definitions

* `Library.math` — its functions.
-/

namespace ScriptEngine.Library

/-- A function of one number. -/
def onNumber (name : String) (f : Float → Float) (args : Arguments) :
    Except Cause (List Value) := do
  let x ← args.number 0 name
  pure [.number (f x)]

/-- The logarithm, to a base if one is given. -/
def logarithm (args : Arguments) : Except Cause (List Value) := do
  let x ← args.number 0 "log"
  if (args.value 1).isNil then pure [.number x.log]
  else do
    let base ← args.number 1 "log"
    if base == 2 then pure [.number x.log2]
    else if base == 10 then pure [.number x.log10]
    else pure [.number (x.log / base.log)]

/-- Combines a number with the arguments from an index on. -/
def combine (name : String) (f : Float → Float → Float) (args : Arguments) :
    Nat → Nat → Float → Except Cause Float
  | 0, _, x => pure x
  | n + 1, index, x => do
    let y ← args.number index name
    combine name f args n (index + 1) (f x y)

/-- Combines all arguments, of which there must be one. -/
def combineAll (name : String) (f : Float → Float → Float) (args : Arguments) :
    Except Cause (List Value) := do
  let x ← args.number 0 name
  let y ← combine name f args (args.length - 1) 1 x
  pure [.number y]

/-- The remainder with the dividend's sign. -/
def fmod (args : Arguments) : Except Cause (List Value) := do
  let x ← args.number 0 "fmod"
  let y ← args.number 1 "fmod"
  pure [.number (Number.remainder x y)]

/-- A number that is an integer, and `nil` for all else. -/
def tointeger (args : Arguments) : Except Cause (List Value) :=
  match args.value 0 with
  | .number x => pure [if (Number.integer? x).isSome then .number x else .nil]
  | _ => pure [.nil]

/-- Whether a number is an integer. -/
def numberType (args : Arguments) : Except Cause (List Value) := do
  match ← args.any 0 "type" with
  | .number x => pure [.string (if (Number.integer? x).isSome then "integer" else "float")]
  | _ => pure [.nil]

/-- The functions of the table `math`. -/
def math (f : MathFunction) (args : Arguments) : Except Cause (List Value) :=
  match f with
  | .abs => onNumber "abs" Float.abs args
  | .ceil => onNumber "ceil" Float.ceil args
  | .floor => onNumber "floor" Float.floor args
  | .sqrt => onNumber "sqrt" Float.sqrt args
  | .exp => onNumber "exp" Float.exp args
  | .sin => onNumber "sin" Float.sin args
  | .cos => onNumber "cos" Float.cos args
  | .tan => onNumber "tan" Float.tan args
  | .log => logarithm args
  | .fmod => fmod args
  | .max => combineAll "max" Number.larger args
  | .min => combineAll "min" Number.smaller args
  | .tointeger => tointeger args
  | .type => numberType args

end ScriptEngine.Library
