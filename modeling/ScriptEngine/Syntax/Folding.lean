import ScriptEngine.Operator
import ScriptEngine.Syntax.Bound

/-!
# Constant folding

Replaces expressions of literals by their value, and local variables that are
bound once to a literal by that literal.  The operators are those that a
running program uses; an expression whose evaluation fails stays as it is.

Variables of the top level are never replaced, since later texts can read and
change them.

## Main definitions

* `Constants` — what is known about the variables in scope.
* `foldBinary`, `foldUnary` — an operator applied to folded operands.
* `Expr.fold`, `foldStats` — the pass over expressions and statements.
* `optimize` — the pass over a whole text.
-/

namespace ScriptEngine

/-- What is known about the variables in scope, innermost first: the literal that
a variable stands for, or that it stands for none. -/
abbrev Constants := List (String × Option Literal)

namespace Constants

/-- The literal that a variable stands for. -/
def find? : Constants → String → Option Literal
  | [], _ => none
  | (m, c) :: rest, n => if m = n then c else find? rest n

/-- Declares variables that stand for no literal. -/
def shadow (constants : Constants) (names : List Identifier) : Constants :=
  names.foldl (fun known name => (name.name, none) :: known) constants

end Constants

/-- An operator applied to folded operands.  The literal left operand of `and`
and `or` decides; the others need two literals. -/
def foldBinary (position : Position) (operator : BinaryOperator) (lhs rhs : Expr) : Expr :=
  match lhs.literal? with
  | none => .binary position operator lhs rhs
  | some a =>
    match operator with
    | .and => if a.toValue.isTruthy then rhs else lhs
    | .or => if a.toValue.isTruthy then lhs else rhs
    | .strict strict =>
      match rhs.literal? with
      | none => .binary position operator lhs rhs
      | some b =>
        match Store.empty.binary strict a.toValue b.toValue with
        | .error _ => .binary position operator lhs rhs
        | .ok v =>
          match v.toLiteral? with
          | none => .binary position operator lhs rhs
          | some value => .literal lhs.position value

/-- An operator applied to a folded operand. -/
def foldUnary (position : Position) (operator : UnaryOperator) (operand : Expr) : Expr :=
  match operand.literal? with
  | none => .unary position operator operand
  | some a =>
    match Store.empty.unary operator a.toValue with
    | .error _ => .unary position operator operand
    | .ok v =>
      match v.toLiteral? with
      | none => .unary position operator operand
      | some value => .literal operand.position value

/-- The literal that a local variable can be replaced by: its value is a literal,
and nothing else in the block, whose bindings are `bound`, binds its name. -/
def constant? (bound : List String) : Expr → Expr → Option (String × Literal)
  | .var _ name, .literal _ value => if bound.count name = 1 then some (name, value) else none
  | _, _ => none

/-- What is known after a target has been declared that is not replaced. -/
def declareTarget (constants : Constants) : Expr → Constants
  | .var _ name => (name, none) :: constants
  | _ => constants

/-- Declares the targets of a local assignment.  Pairs of a target and a value
that are replaced are dropped. -/
def declarePairs (bound : List String) (constants : Constants) :
    List (Expr × Expr) → List (Expr × Expr) × Constants
  | [] => ([], constants)
  | (target, value) :: rest =>
    match constant? bound target value with
    | some (name, literal) => declarePairs bound ((name, some literal) :: constants) rest
    | none =>
      let (kept, constants) := declarePairs bound (declareTarget constants target) rest
      ((target, value) :: kept, constants)

/-- A local assignment of folded values: what is left of it, and what is known
behind it. -/
def foldLocal (bound : List String) (root : Bool) (constants : Constants) (position : Position)
    (targets values : List Expr) : Option Stat × Constants :=
  if !root && targets.length == values.length && !values.any Expr.isCall then
    match declarePairs bound constants (targets.zip values) with
    | ([], constants) => (none, constants)
    | (kept, constants) =>
      (some (.assignment position true (kept.map (·.1)) (kept.map (·.2))), constants)
  else
    (some (.assignment position true targets values), targets.foldl declareTarget constants)

mutual

/-- Folds an expression. -/
def Expr.fold (constants : Constants) : Expr → Expr
  | .literal position value => .literal position value
  | .var position name =>
    match constants.find? name with
    | some value => .literal position value
    | none => .var position name
  | .function position parameters body =>
    .function position parameters
      (foldStats (boundNames body) false (constants.shadow parameters) body).1
  | .table position entries => .table position (foldEntries constants entries)
  | .call position callee arguments =>
    .call position (callee.fold constants) (foldAll constants arguments)
  | .index position target key => .index position (target.fold constants) (key.fold constants)
  | .group position inner => .group position (inner.fold constants)
  | .binary position operator lhs rhs =>
    foldBinary position operator (lhs.fold constants) (rhs.fold constants)
  | .unary position operator operand => foldUnary position operator (operand.fold constants)

/-- Folds a list of expressions. -/
def foldAll (constants : Constants) : List Expr → List Expr
  | [] => []
  | e :: rest => e.fold constants :: foldAll constants rest

/-- Folds the entries of a table. -/
def foldEntries (constants : Constants) : List (Expr × Expr) → List (Expr × Expr)
  | [] => []
  | (k, v) :: rest => (k.fold constants, v.fold constants) :: foldEntries constants rest

/-- Folds the targets of an assignment that declares nothing. -/
def foldTargets (constants : Constants) : List Expr → List Expr
  | [] => []
  | .index position target key :: rest =>
    .index position (target.fold constants) (key.fold constants) :: foldTargets constants rest
  | e :: rest => e :: foldTargets constants rest

/-- Folds the branches of a conditional. -/
def foldBranches (constants : Constants) : List (Expr × List Stat) → List (Expr × List Stat)
  | [] => []
  | (condition, body) :: rest =>
    (condition.fold constants, (foldStats (boundNames body) false constants body).1)
      :: foldBranches constants rest

/-- Folds a statement of a block whose bindings are `bound`: what is left of it,
and what is known behind it. -/
def Stat.fold (bound : List String) (root : Bool) (constants : Constants) :
    Stat → Option Stat × Constants
  | .expression e => (some (.expression (e.fold constants)), constants)
  | .assignment position true targets values =>
    foldLocal bound root constants position targets (foldAll constants values)
  | .assignment position false targets values =>
    (some (.assignment position false (foldTargets constants targets) (foldAll constants values)),
      constants)
  | .declaration names => (some (.declaration names), constants.shadow names)
  | .localFunction name function =>
    (some (.localFunction name (function.fold (constants.shadow [name]))),
      constants.shadow [name])
  | .conditional position branches none =>
    (some (.conditional position (foldBranches constants branches) none), constants)
  | .conditional position branches (some body) =>
    (some (.conditional position (foldBranches constants branches)
      (some (foldStats (boundNames body) false constants body).1)), constants)
  | .whileLoop position condition body =>
    (some (.whileLoop position (condition.fold constants)
      (foldStats (boundNames body) false constants body).1), constants)
  | .numericFor counter start stop none body =>
    (some (.numericFor counter (start.fold constants) (stop.fold constants) none
      (foldStats (boundNames body) false (constants.shadow [counter]) body).1), constants)
  | .numericFor counter start stop (some step) body =>
    (some (.numericFor counter (start.fold constants) (stop.fold constants)
      (some (step.fold constants))
      (foldStats (boundNames body) false (constants.shadow [counter]) body).1), constants)
  | .genericFor position names iterators body =>
    (some (.genericFor position names (foldAll constants iterators)
      (foldStats (boundNames body) false (constants.shadow names) body).1), constants)
  | .repeatLoop position body condition =>
    let folded := foldStats (boundNames body) false constants body
    (some (.repeatLoop position folded.1 (condition.fold folded.2)), constants)
  | .block body => (some (.block (foldStats (boundNames body) false constants body).1), constants)
  | .result position values => (some (.result position (foldAll constants values)), constants)
  | .leave position => (some (.leave position), constants)

/-- Folds the statements of a block whose bindings are `bound`: what is left of
them, and what is known behind them. -/
def foldStats (bound : List String) (root : Bool) (constants : Constants) :
    List Stat → List Stat × Constants
  | [] => ([], constants)
  | s :: rest =>
    let first := s.fold bound root constants
    let others := foldStats bound root first.2 rest
    (first.1.toList ++ others.1, others.2)

end

/-- Folds a whole text. -/
def optimize (chunk : Chunk) : Chunk := (foldStats (boundNames chunk) true [] chunk).1

end ScriptEngine
