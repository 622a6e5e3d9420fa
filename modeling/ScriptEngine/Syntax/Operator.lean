import ScriptEngine.Syntax.Basic
import ScriptEngine.Token.Basic

/-!
# Operators and their precedence

## Main definitions

* `TokenKind.unary?`, `TokenKind.binary?` — the operators that tokens stand for.
* `BinaryOperator.priority` — how tightly an operator binds to its left and to
  its right operand.
* `UnaryOperator.priority` — how tightly the operators in front of an operand
  bind.
-/

namespace ScriptEngine

/-- The operator that a token in front of an operand stands for. -/
def TokenKind.unary? : TokenKind → Option UnaryOperator
  | .notWord => some .not
  | .minus => some .negate
  | .hash => some .length
  | .tilde => some .bitNot
  | _ => none

/-- The operator that a token between two operands stands for. -/
def TokenKind.binary? : TokenKind → Option BinaryOperator
  | .plus => some (.strict (.arith .add))
  | .minus => some (.strict (.arith .subtract))
  | .star => some (.strict (.arith .multiply))
  | .slash => some (.strict (.arith .divide))
  | .doubleSlash => some (.strict (.arith .floorDivide))
  | .percent => some (.strict (.arith .modulo))
  | .caret => some (.strict (.arith .exponent))
  | .concat => some (.strict .concat)
  | .ampersand => some (.strict (.arith .bitAnd))
  | .pipe => some (.strict (.arith .bitOr))
  | .tilde => some (.strict (.arith .bitXor))
  | .shiftLeft => some (.strict (.arith .shiftLeft))
  | .shiftRight => some (.strict (.arith .shiftRight))
  | .equals => some (.strict (.compare .equals))
  | .notEquals => some (.strict (.compare .notEquals))
  | .less => some (.strict (.compare .lessThan))
  | .lessEquals => some (.strict (.compare .lessEquals))
  | .greater => some (.strict (.compare .greaterThan))
  | .greaterEquals => some (.strict (.compare .greaterEquals))
  | .andWord => some .and
  | .orWord => some .or
  | _ => none

/-- How tightly an operator binds to its left and to its right.  An operator
that groups to the right binds less tightly on that side. -/
def BinaryOperator.priority : BinaryOperator → Nat × Nat
  | .or => (1, 1)
  | .and => (2, 2)
  | .strict (.compare _) => (3, 3)
  | .strict (.arith .bitOr) => (4, 4)
  | .strict (.arith .bitXor) => (5, 5)
  | .strict (.arith .bitAnd) => (6, 6)
  | .strict (.arith .shiftLeft) => (7, 7)
  | .strict (.arith .shiftRight) => (7, 7)
  | .strict .concat => (9, 8)
  | .strict (.arith .add) => (10, 10)
  | .strict (.arith .subtract) => (10, 10)
  | .strict (.arith .multiply) => (11, 11)
  | .strict (.arith .divide) => (11, 11)
  | .strict (.arith .floorDivide) => (11, 11)
  | .strict (.arith .modulo) => (11, 11)
  | .strict (.arith .exponent) => (14, 13)

/-- How tightly operators in front of an operand bind.  Only the power binds
tighter. -/
def UnaryOperator.priority : Nat := 12

end ScriptEngine
