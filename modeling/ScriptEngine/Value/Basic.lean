import ScriptEngine.Native
import ScriptEngine.Number.Written
import ScriptEngine.Syntax.Basic

/-!
# Values

The values that scripts compute with.  Tables and scopes live in a store;
values refer to them.

## Main definitions

* `Value` — the values.
* `Kind` — the types that scripts and messages know.
* `Value.isTruthy` — what counts as true in a condition.
* `Value.text` — the written form of a value.
-/

namespace ScriptEngine

/-- A table of a store. -/
structure TableRef where
  index : Nat
deriving DecidableEq, Repr

/-- A scope of a store. -/
structure ScopeRef where
  index : Nat
deriving DecidableEq, Repr

/-- A value. -/
inductive Value where
  | nil
  | boolean (b : Bool)
  | number (x : Float)
  | string (s : String)
  | table (ref : TableRef)
  /-- A script function: where its body begins, and the scopes it closed over,
  innermost first. -/
  | function (entry : Nat) (captured : List ScopeRef)
  | native (f : Native)
deriving DecidableEq, Repr

instance : Inhabited Value := ⟨.nil⟩

/-- The types of values. -/
inductive Kind where
  | nil
  | boolean
  | number
  | string
  | table
  | function
deriving DecidableEq, Repr

/-- The name of a type. -/
def Kind.name : Kind → String
  | nil => "nil"
  | boolean => "boolean"
  | number => "number"
  | string => "string"
  | table => "table"
  | function => "function"

/-- The value that a literal stands for. -/
def Literal.toValue : Literal → Value
  | nil => .nil
  | boolean b => .boolean b
  | number x => .number x
  | string s => .string s

namespace Value

/-- The literal that stands for a value, if one does. -/
def toLiteral? : Value → Option Literal
  | nil => some .nil
  | boolean b => some (.boolean b)
  | number x => some (.number x)
  | string s => some (.string s)
  | _ => none

/-- The type of a value. -/
def kind : Value → Kind
  | nil => .nil
  | boolean _ => .boolean
  | number _ => .number
  | string _ => .string
  | table _ => .table
  | function _ _ => .function
  | native _ => .function

/-- Whether a value is `nil`. -/
def isNil : Value → Bool
  | nil => true
  | _ => false

/-- What counts as true: all but `nil`, `false`, the zeros and the empty
string. -/
def isTruthy : Value → Bool
  | nil => false
  | boolean b => b
  | number x => x != 0
  | string s => s != ""
  | table _ => true
  | function _ _ => true
  | native _ => true

/-- The number that a value is. -/
def asNumber? : Value → Option Float
  | number x => some x
  | _ => none

/-- The string that a value is. -/
def asString? : Value → Option String
  | string s => some s
  | _ => none

/-- The table that a value is. -/
def asTable? : Value → Option TableRef
  | table ref => some ref
  | _ => none

/-- Zeros in front of a hexadecimal number, up to a width. -/
def zeroFilled (width : Nat) (digits : String) : String :=
  String.ofList (List.replicate (width - digits.length) '0') ++ digits

/-- The written form of a value. -/
def text : Value → String
  | nil => "nil"
  | boolean b => if b then "true" else "false"
  | number x => Number.text x
  | string s => s
  | table ref => "table: 0x" ++ Number.hexadecimal ref.index
  | function entry _ => "function: 0x" ++ zeroFilled 4 (Number.hexadecimal entry)
  | native f => "builtin: " ++ f.name

@[simp] theorem toLiteral?_toValue (l : Literal) : l.toValue.toLiteral? = some l := by
  cases l <;> rfl

end Value

end ScriptEngine
