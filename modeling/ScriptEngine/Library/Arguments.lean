import ScriptEngine.Value.Operation

/-!
# Arguments of library functions

## Main definitions

* `Arguments.number`, `Arguments.integer`, `Arguments.string`,
  `Arguments.table`, `Arguments.any` — an argument of a type, with the
  conversions that a script can count on, or the complaint about it.
-/

namespace ScriptEngine

/-- The arguments of a call. -/
abbrev Arguments := List Value

namespace Arguments

/-- The argument at an index, `nil` if it is absent. -/
def value (args : Arguments) (index : Nat) : Value := args.getD index .nil

/-- The complaint about the type of an argument. -/
def complain {α : Type} (args : Arguments) (index : Nat) (function : String) (what : Kind) :
    Except Cause α :=
  .error (.argument (index + 1) function (.expected what ((args[index]?).map Value.kind)))

/-- A number, or a string that spells one. -/
def number (args : Arguments) (index : Nat) (function : String) : Except Cause Float :=
  match (args[index]?).bind Value.toNumber? with
  | some x => .ok x
  | none => args.complain index function .number

/-- A number that is an integer of 64 bits. -/
def integer (args : Arguments) (index : Nat) (function : String) : Except Cause Int := do
  let x ← args.number index function
  match Number.integer? x with
  | some i => .ok i
  | none => .error (.argument (index + 1) function .notAnInteger)

/-- An integer, with one to take if the argument is absent or `nil`. -/
def integerOr (args : Arguments) (index : Nat) (function : String) (otherwise : Int) :
    Except Cause Int :=
  if (args.value index).isNil then .ok otherwise else args.integer index function

/-- A string, or a number in its written form. -/
def string (args : Arguments) (index : Nat) (function : String) : Except Cause String :=
  match args[index]? with
  | some (.string s) => .ok s
  | some (.number x) => .ok (Number.text x)
  | _ => args.complain index function .string

/-- A string, with the empty one to take if the argument is absent or `nil`. -/
def stringOrEmpty (args : Arguments) (index : Nat) (function : String) : Except Cause String :=
  if (args.value index).isNil then .ok "" else args.string index function

/-- A table. -/
def table (args : Arguments) (index : Nat) (function : String) : Except Cause TableRef :=
  match args[index]? with
  | some (.table ref) => .ok ref
  | _ => args.complain index function .table

/-- Any value, which must be there. -/
def any (args : Arguments) (index : Nat) (function : String) : Except Cause Value :=
  match args[index]? with
  | some v => .ok v
  | none => .error (.argument (index + 1) function .absent)

end Arguments

end ScriptEngine
