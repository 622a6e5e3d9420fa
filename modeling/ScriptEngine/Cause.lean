import ScriptEngine.Value.Basic

/-!
# Causes of runtime errors

What can go wrong while a program runs, and the messages that say so.

## Main definitions

* `MachineCause` — what the machine itself checks of the code it runs.
* `ArgumentProblem` — what can be wrong with an argument of a library function.
* `Cause`, `Cause.message` — all causes, and their messages.
-/

namespace ScriptEngine

/-- What the machine checks of the code it runs. -/
inductive MachineCause where
  | stackUnderflow
  | noAssignment
  | notACount (got : Kind)
  | noScope (name : String)
  | jumpOutside
  | unresolvedBreak
deriving DecidableEq, Repr

/-- What can be wrong with an argument of a library function. -/
inductive ArgumentProblem where
  /-- Another type was expected; `none` stands for an absent argument. -/
  | expected (what : Kind) (got : Option Kind)
  | absent
  | notAnInteger
  | baseOutOfRange
  | indexOutOfRange
  | valueOutOfRange
  | positionOutOfBounds
deriving DecidableEq, Repr

/-- What went wrong while a program ran. -/
inductive Cause where
  | arithmetic (on : Kind)
  | bitwise (on : Kind)
  | notAnInteger
  | length (of : Kind)
  | concatenation (of : Kind)
  | comparison (lhs rhs : Kind)
  | nanKey
  | nilKey
  | invalidKey (got : Kind)
  | unknownKey
  | indexing (of : Kind)
  | calling (of : Kind)
  | stackOverflow
  | machine (cause : MachineCause)
  | argument (number : Nat) (function : String) (problem : ArgumentProblem)
  | argumentCount (function : String)
  | unjoinable (index : Int) (got : Kind)
  | tooManyResults
  | stringTooLarge
  | conversionTooLong
  | invalidConversion (conversion : Option Char)
  | assertion
  /-- A script or a host function raised an error of its own. -/
  | raised (message : String)
deriving DecidableEq, Repr

/-- The message for a failed check of the machine. -/
def MachineCause.message : MachineCause → String
  | stackUnderflow => "operand stack underflow"
  | noAssignment => "no assignment in progress"
  | notACount got => "expected a value count, got " ++ got.name
  | noScope name => "no scope to declare '" ++ name ++ "' in"
  | jumpOutside => "jump out of the program"
  | unresolvedBreak => "'break' was not resolved"

/-- The words for a problem with an argument. -/
def ArgumentProblem.message : ArgumentProblem → String
  | expected what got =>
    what.name ++ " expected, got " ++ (got.map Kind.name).getD "no value"
  | absent => "value expected"
  | notAnInteger => "number has no integer representation"
  | baseOutOfRange => "base out of range"
  | indexOutOfRange => "index out of range"
  | valueOutOfRange => "value out of range"
  | positionOutOfBounds => "position out of bounds"

/-- The message for a cause. -/
def Cause.message : Cause → String
  | arithmetic on => "attempt to perform arithmetic on a " ++ on.name ++ " value"
  | bitwise on => "attempt to perform bitwise operation on a " ++ on.name ++ " value"
  | notAnInteger => "number has no integer representation"
  | length of => "attempt to get length of a " ++ of.name ++ " value"
  | concatenation of => "attempt to concatenate a " ++ of.name ++ " value"
  | comparison lhs rhs =>
    if lhs = rhs then "attempt to compare two " ++ lhs.name ++ " values"
    else "attempt to compare " ++ lhs.name ++ " with " ++ rhs.name
  | nanKey => "table index is NaN"
  | nilKey => "table index is nil"
  | invalidKey got => "Invalid index, must be a number or string, got " ++ got.name
  | unknownKey => "invalid key to 'next'"
  | indexing of => "attempt to index a " ++ of.name ++ " value"
  | calling of => "attempt to call a " ++ of.name ++ " value"
  | stackOverflow => "stack overflow"
  | machine cause => cause.message
  | argument number function problem =>
    "bad argument #" ++ number.repr ++ " to '" ++ function ++ "' (" ++ problem.message ++ ")"
  | argumentCount function => "wrong number of arguments to '" ++ function ++ "'"
  | unjoinable index got =>
    "invalid value (at index " ++ Number.integerText index ++ ") in table for 'concat' ("
      ++ got.name ++ ")"
  | tooManyResults => "too many results to unpack"
  | stringTooLarge => "resulting string too large"
  | conversionTooLong => "invalid conversion to 'format' (width or precision too long)"
  | invalidConversion conversion =>
    "invalid conversion '%" ++ (conversion.map String.singleton).getD "" ++ "' to 'format'"
  | assertion => "assertion failed!"
  | raised message => message

end ScriptEngine
