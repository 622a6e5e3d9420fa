import ScriptEngine.Syntax.Basic

/-!
# Bound names

Every binding of a name in a piece of syntax: declarations, parameters, loop
variables and assignments, those inside of functions included.

## Main definitions

* `Expr.bound`, `Stat.bound`, `boundNames` — the names, one for each binding.
-/

namespace ScriptEngine

mutual

/-- The names that an expression binds. -/
def Expr.bound : Expr → List String
  | .literal _ _ => []
  | .var _ _ => []
  | .function _ parameters body => parameters.map (·.name) ++ boundNames body
  | .table _ entries => boundInEntries entries
  | .call _ callee arguments => callee.bound ++ boundInAll arguments
  | .index _ target key => target.bound ++ key.bound
  | .group _ inner => inner.bound
  | .binary _ _ lhs rhs => lhs.bound ++ rhs.bound
  | .unary _ _ operand => operand.bound

/-- The names that a list of expressions binds. -/
def boundInAll : List Expr → List String
  | [] => []
  | e :: rest => e.bound ++ boundInAll rest

/-- The names that the entries of a table bind. -/
def boundInEntries : List (Expr × Expr) → List String
  | [] => []
  | (k, v) :: rest => k.bound ++ v.bound ++ boundInEntries rest

/-- The names that the targets of an assignment bind. -/
def boundInTargets : List Expr → List String
  | [] => []
  | .var _ name :: rest => name :: boundInTargets rest
  | e :: rest => e.bound ++ boundInTargets rest

/-- The names that the branches of a conditional bind. -/
def boundInBranches : List (Expr × List Stat) → List String
  | [] => []
  | (condition, body) :: rest => condition.bound ++ boundNames body ++ boundInBranches rest

/-- The names that a statement binds. -/
def Stat.bound : Stat → List String
  | .expression e => e.bound
  | .assignment _ _ targets values => boundInTargets targets ++ boundInAll values
  | .declaration names => names.map (·.name)
  | .localFunction name function => name.name :: function.bound
  | .conditional _ branches none => boundInBranches branches
  | .conditional _ branches (some body) => boundInBranches branches ++ boundNames body
  | .whileLoop _ condition body => condition.bound ++ boundNames body
  | .numericFor counter start stop none body =>
    counter.name :: start.bound ++ stop.bound ++ boundNames body
  | .numericFor counter start stop (some step) body =>
    counter.name :: start.bound ++ stop.bound ++ step.bound ++ boundNames body
  | .genericFor _ names iterators body =>
    names.map (·.name) ++ boundInAll iterators ++ boundNames body
  | .repeatLoop _ body condition => boundNames body ++ condition.bound
  | .block body => boundNames body
  | .result _ values => boundInAll values
  | .leave _ => []

/-- The names that a list of statements binds. -/
def boundNames : List Stat → List String
  | [] => []
  | s :: rest => s.bound ++ boundNames rest

end

end ScriptEngine
