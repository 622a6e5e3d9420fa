import ScriptEngine.Store
import ScriptEngine.Value.Operation

/-!
# Operators

The operators of the language on values of a store.

## Main definitions

* `Store.compare`, `Store.binary` — operators on two values.
* `Store.length`, `Store.unary` — operators on one value.
-/

namespace ScriptEngine.Store

/-- Comparison of two values.  What is greater is compared the other way
round. -/
def compare (s : Store) (operator : Comparison) (lhs rhs : Value) : Except Cause Bool :=
  match operator with
  | .equals => .ok (s.equal lhs rhs)
  | .notEquals => .ok !(s.equal lhs rhs)
  | .lessThan => lhs.lessThan rhs
  | .lessEquals => lhs.lessEquals rhs
  | .greaterThan => rhs.lessThan lhs
  | .greaterEquals => rhs.lessEquals lhs

/-- An operator on two values. -/
def binary (s : Store) (operator : StrictOperator) (lhs rhs : Value) : Except Cause Value :=
  match operator with
  | .arith operator => Value.arith operator lhs rhs
  | .concat => lhs.concat rhs
  | .compare operator => Value.boolean <$> s.compare operator lhs rhs

/-- The number of bytes of a string, or the border of a table. -/
def length (s : Store) : Value → Except Cause Value
  | .string text => .ok (.number (Number.ofNat text.utf8ByteSize))
  | .table ref => .ok (.number (Number.ofNat (s.table ref).border))
  | v => .error (.length v.kind)

/-- An operator on one value. -/
def unary (s : Store) (operator : UnaryOperator) (v : Value) : Except Cause Value :=
  match operator with
  | .not => .ok (.boolean !v.isTruthy)
  | .negate => v.negate
  | .length => s.length v
  | .bitNot => v.bitNot

end ScriptEngine.Store
