import ScriptEngine.Position

/-!
# Syntax trees

What a source text says once its tokens have been put together.

## Main definitions

* `Literal`, `BinaryOperator`, `UnaryOperator` — the leaves and operators.
* `Expr`, `Stat`, `Chunk` — expressions, statements, and lists of statements.
* `Expr.position` — where an expression stands.
* `Expr.isCall` — the expressions that can have any number of values.
-/

namespace ScriptEngine

/-- Operators on two numbers. -/
inductive Arith where
  | add
  | subtract
  | multiply
  | divide
  | floorDivide
  | modulo
  | exponent
  | bitAnd
  | bitOr
  | bitXor
  | shiftLeft
  | shiftRight
deriving DecidableEq, Repr

/-- Operators that compare two values. -/
inductive Comparison where
  | equals
  | notEquals
  | lessThan
  | lessEquals
  | greaterThan
  | greaterEquals
deriving DecidableEq, Repr

/-- Operators that need both of their operands. -/
inductive StrictOperator where
  | arith (operator : Arith)
  | concat
  | compare (operator : Comparison)
deriving DecidableEq, Repr

/-- Operators between two operands. -/
inductive BinaryOperator where
  | strict (operator : StrictOperator)
  | and
  | or
deriving DecidableEq, Repr

/-- Operators in front of an operand. -/
inductive UnaryOperator where
  | not
  | negate
  | length
  | bitNot
deriving DecidableEq, Repr

/-- Values that can be written down. -/
inductive Literal where
  | nil
  | boolean (b : Bool)
  | number (x : Float)
  | string (s : String)
deriving DecidableEq, Repr

/-- A name and where it is written. -/
structure Identifier where
  name : String
  position : Position
deriving DecidableEq, Repr

mutual

/-- An expression. -/
inductive Expr where
  | literal (position : Position) (value : Literal)
  | var (position : Position) (name : String)
  | function (position : Position) (parameters : List Identifier) (body : List Stat)
  /-- The entries in the order of the text.  Entries without a key of their own
  have got a number. -/
  | table (position : Position) (entries : List (Expr × Expr))
  | call (position : Position) (callee : Expr) (arguments : List Expr)
  | index (position : Position) (target : Expr) (key : Expr)
  /-- A call in parentheses, which has exactly one value. -/
  | group (position : Position) (inner : Expr)
  | binary (position : Position) (operator : BinaryOperator) (lhs rhs : Expr)
  | unary (position : Position) (operator : UnaryOperator) (operand : Expr)

/-- A statement. -/
inductive Stat where
  | expression (e : Expr)
  /-- Targets are variables and indexed expressions; those of a local assignment
  are the variables it declares. -/
  | assignment (position : Position) (isLocal : Bool) (targets values : List Expr)
  | declaration (names : List Identifier)
  /-- A local function, which its own body can name. -/
  | localFunction (name : Identifier) (function : Expr)
  | conditional (position : Position) (branches : List (Expr × List Stat))
      (otherwise : Option (List Stat))
  | whileLoop (position : Position) (condition : Expr) (body : List Stat)
  | numericFor (counter : Identifier) (start stop : Expr) (step : Option Expr)
      (body : List Stat)
  | genericFor (position : Position) (names : List Identifier) (iterators : List Expr)
      (body : List Stat)
  /-- The condition is in the scope of the body. -/
  | repeatLoop (position : Position) (body : List Stat) (condition : Expr)
  | block (body : List Stat)
  | result (position : Position) (values : List Expr)
  | leave (position : Position)

end

/-- A list of statements: a whole text, or the body of a function, a loop or a
block. -/
abbrev Chunk := List Stat

namespace Expr

/-- Where an expression stands. -/
def position : Expr → Position
  | literal p _ => p
  | var p _ => p
  | function p _ _ => p
  | table p _ => p
  | call p _ _ => p
  | index p _ _ => p
  | group p _ => p
  | binary p _ _ _ => p
  | unary p _ _ => p

/-- Whether an expression can have any number of values.  All others have
exactly one. -/
def isCall : Expr → Bool
  | call .. => true
  | _ => false

/-- The literal an expression is, if it is one. -/
def literal? : Expr → Option Literal
  | literal _ value => some value
  | _ => none

/-- Whether an expression can be assigned to. -/
def isTarget : Expr → Bool
  | var .. => true
  | index .. => true
  | _ => false

end Expr

end ScriptEngine
