/-!
# Native functions

The functions that are not written in the language itself: the standard
library, and the functions that a host adds to an engine.

## Main definitions

* `Builtin` — which function a native function is.
* `Native` — a native function as a value: its name and its identity.
-/

namespace ScriptEngine

/-- The functions that are globals of their own. -/
inductive BaseFunction where
  | print
  | type
  | tostring
  | tonumber
  | pairs
  | next
  | ipairs
  | ipairsStep
  | select
  | assert
  | error
deriving DecidableEq, Repr

/-- The functions of the table `string`. -/
inductive StringFunction where
  | len
  | upper
  | lower
  | rep
  | sub
  | reverse
  | byte
  | char
  | format
deriving DecidableEq, Repr

/-- The functions of the table `table`. -/
inductive TableFunction where
  | insert
  | remove
  | concat
  | pack
  | unpack
  | sort
deriving DecidableEq, Repr

/-- The functions of the table `math`. -/
inductive MathFunction where
  | abs
  | ceil
  | floor
  | sqrt
  | exp
  | sin
  | cos
  | tan
  | log
  | fmod
  | max
  | min
  | tointeger
  | type
deriving DecidableEq, Repr

/-- Which function a native function is.  A host tells its own functions apart
by a key. -/
inductive Builtin where
  | base (f : BaseFunction)
  | string (f : StringFunction)
  | table (f : TableFunction)
  | math (f : MathFunction)
  | host (key : String)
deriving DecidableEq, Repr

/-- A native function as a value.  Two of them are equal if they were made in one
go, so that each gets an identity when it is made. -/
structure Native where
  identity : Nat
  name : String
  body : Builtin
deriving DecidableEq, Repr

/-- The name a function of the library is made with. -/
def BaseFunction.name : BaseFunction → String
  | print => "print"
  | type => "type"
  | tostring => "tostring"
  | tonumber => "tonumber"
  | pairs => "pairs"
  | next => "next"
  | ipairs => "ipairs"
  | ipairsStep => "ipairs_step"
  | select => "select"
  | assert => "assert"
  | error => "error"

@[inherit_doc BaseFunction.name]
def StringFunction.name : StringFunction → String
  | len => "len"
  | upper => "upper"
  | lower => "lower"
  | rep => "rep"
  | sub => "sub"
  | reverse => "reverse"
  | byte => "byte"
  | char => "char"
  | format => "format"

@[inherit_doc BaseFunction.name]
def TableFunction.name : TableFunction → String
  | insert => "insert"
  | remove => "remove"
  | concat => "concat"
  | pack => "pack"
  | unpack => "unpack"
  | sort => "sort"

@[inherit_doc BaseFunction.name]
def MathFunction.name : MathFunction → String
  | abs => "abs"
  | ceil => "ceil"
  | floor => "floor"
  | sqrt => "sqrt"
  | exp => "exp"
  | sin => "sin"
  | cos => "cos"
  | tan => "tan"
  | log => "log"
  | fmod => "fmod"
  | max => "max"
  | min => "min"
  | tointeger => "tointeger"
  | type => "type"

end ScriptEngine
