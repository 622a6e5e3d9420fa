import ScriptEngine.Cause
import ScriptEngine.SyntaxError

/-!
# Errors of an engine

## Main definitions

* `Error` — what an engine reports to its host.
* `Interrupt` — why a call into an engine has no result.
* `Failure`, `Failure.located` — why an instruction or a native function has no
  result, and what becomes of it where the place is known.
-/

namespace ScriptEngine

/-- What an engine reports to its host. -/
inductive Error where
  /-- A text was refused, and nothing was run. -/
  | malformed (e : SyntaxError)
  /-- An instruction failed. -/
  | runtime (cause : Cause) (position : Position)
  /-- A run used up its steps. -/
  | ranTooLong (limit : Nat)
deriving DecidableEq, Repr

namespace Error

/-- Where the error is, if it is somewhere. -/
def position? : Error → Option Position
  | malformed e => some e.position
  | runtime _ position => some position
  | ranTooLong _ => none

/-- The text of the error. -/
def text : Error → String
  | malformed e => e.position.text ++ ": " ++ e.cause.message
  | runtime cause position => position.text ++ ": " ++ cause.message
  | ranTooLong limit => "Program ran for too long (more than " ++ limit.repr ++ " steps)"

end Error

/-- Why a call into an engine has no result: an error, or a nesting of native
functions that is deeper than the bound the host set. -/
inductive Interrupt where
  | error (e : Error)
  | outOfFuel
deriving DecidableEq, Repr

/-- Why an instruction or a native function has no result: a cause whose place is
not known yet, or what a call back into the engine met. -/
inductive Failure where
  | cause (c : Cause)
  | interrupt (i : Interrupt)
deriving DecidableEq, Repr

/-- A cause becomes a runtime error at the place; what a call back into the
engine met stays as it is. -/
def Failure.located (position : Position) : Failure → Interrupt
  | cause c => .error (.runtime c position)
  | interrupt i => i

end ScriptEngine
