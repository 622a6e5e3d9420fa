import ScriptEngine.Proofs.Courses.Calls

/-!
# What expressions come to

The courses of expressions, said by recursion on their syntax.  Other than an evaluation, a course
knows the machine that it is the course of: the operands that lie on its stack meanwhile, and the
marks that are set in it.  Any number of courses may be nested in each other, as calls are.

## Main definitions

* `Setting.exprCourse`, `Setting.valuesCourse`, `Setting.entriesCourse` — the courses of
  expressions, of lists of them, and of the entries of tables.
* `Setting.callCourse` — the course of a call, given those of its arguments and its callee.

## Main results

* `Setting.length_of_valuesCourse` — a list without a call at its end has as many values as it has
  expressions.
-/

namespace ScriptEngine

/-- The result of an operator, or its failure at a place. -/
def Course.operator (position : Position) (r : Store → Except Cause Value) : Course Value :=
  .eval fun s => Eval.located position (r s) s

namespace Setting

/-- What a call comes to that a machine makes.  The arguments are evaluated first and the callee
after them, above the arguments.  If their number is not known before, the place where they begin
is marked while they are evaluated, and their number lies on top of them. -/
def callCourse (setting : Setting) (fuel : Nat) (position : Position) (m : Machine) (marked : Bool)
    (want : Option Nat) (values : Machine → Course (List Value)) (callee : Machine → Course Value) :
    Course (List Value) := do
  let vs ← values { m with marks := if marked then m.stack.length :: m.marks else m.marks }
  let counted := if marked then [.number (Number.ofNat vs.length)] else []
  let f ← callee { m with stack := counted ++ (vs.reverse ++ m.stack) }
  setting.answers fuel position m.waiting ⟨f, vs, m.stack, want⟩

section

variable (setting : Setting) (fuel : Nat) (places : List Nat) (constants : Constants)

mutual

/-- What an expression comes to that a machine evaluates, and whose first function has the number
`next`.  It is one value. -/
def exprCourse (next : Nat) (m : Machine) : Expr → Course Value
  | .literal _ value => pure value.toValue
  | .var _ name =>
    match constants.find? name with
    | some value => pure value.toValue
    | none => .eval (.fromStore fun s => s.read (Exec.reach m) name)
  | .function _ _ _ => pure (.function ((places[next]?).getD next) (Exec.reach m))
  | .table position entries => do
    let ref ← .eval .newTable
    let pairs ← entriesCourse next { m with stack := .table ref :: m.stack } entries
    .eval (putPairs position ref pairs)
    pure (.table ref)
  | .call position callee arguments => do
    let results ← setting.callCourse fuel position m (endsInCall arguments) (some 1)
      (fun m => valuesCourse next m arguments)
      (fun m => exprCourse (next + (valuesFunctions arguments).length) m callee)
    pure (results.headD .nil)
  | .index position table key => do
    let k ← exprCourse next m key
    let t ← exprCourse (next + key.functions.length) { m with stack := k :: m.stack } table
    .operator position fun s => s.index t k
  | .group _ inner => exprCourse next m inner
  | .binary _ .and lhs rhs => do
    let left ← exprCourse (next + rhs.functions.length) m lhs
    if left.isTruthy then exprCourse next m rhs else pure left
  | .binary _ .or lhs rhs => do
    let left ← exprCourse (next + rhs.functions.length) m lhs
    if left.isTruthy then pure left else exprCourse next m rhs
  | .binary position (.strict operator) lhs rhs => do
    let right ← exprCourse next m rhs
    let left ← exprCourse (next + rhs.functions.length) { m with stack := right :: m.stack } lhs
    .operator position fun s => s.binary operator left right
  | .unary position operator operand => do
    let v ← exprCourse next m operand
    .operator position fun s => s.unary operator v

/-- What a list of expressions comes to.  Each of them has one value, but a call at the end has all
of its results. -/
def valuesCourse (next : Nat) (m : Machine) : List Expr → Course (List Value)
  | [] => pure []
  | [.call position callee arguments] =>
    setting.callCourse fuel position m (endsInCall arguments) none
      (fun m => valuesCourse next m arguments)
      (fun m => exprCourse (next + (valuesFunctions arguments).length) m callee)
  | e :: rest => do
    let first ← exprCourse next m e
    let others ← valuesCourse (next + e.functions.length) { m with stack := first :: m.stack } rest
    pure (first :: others)

/-- What the entries of a table come to, from the last one to the first and the value of each before
its key. -/
def entriesCourse (next : Nat) (m : Machine) : List (Expr × Expr) → Course (List (Value × Value))
  | [] => pure []
  | (key, value) :: rest => do
    let others ← entriesCourse next m rest
    let v ← exprCourse (next + (entriesFunctions rest).length)
      { m with stack := stackedPairs others ++ m.stack } value
    let k ← exprCourse (next + (entriesFunctions rest).length + value.functions.length)
      { m with stack := v :: (stackedPairs others ++ m.stack) } key
    pure ((k, v) :: others)

end

end

variable {setting : Setting} {fuel : Nat} {places : List Nat} {constants : Constants}

/-- Parentheses change nothing but the number of values. -/
theorem exprCourse_group {next : Nat} {m : Machine} {position : Position} {inner : Expr} :
    setting.exprCourse fuel places constants next m (.group position inner) =
      setting.exprCourse fuel places constants next m inner := by
  rw [exprCourse]

theorem valuesCourse_cons {next : Nat} {m : Machine} {e : Expr} {rest : List Expr}
    (h : rest ≠ [] ∨ e.isCall = false) :
    setting.valuesCourse fuel places constants next m (e :: rest) = (do
      let first ← setting.exprCourse fuel places constants next m e
      let others ← setting.valuesCourse fuel places constants (next + e.functions.length)
        { m with stack := first :: m.stack } rest
      pure (first :: others)) := by
  rw [valuesCourse]
  rintro position callee arguments rfl rfl
  simp [Expr.isCall] at h

/-! ### Lists -/

/-- Expressions without a call at the end have as many values as they are. -/
theorem length_of_valuesCourse {next : Nat} {m : Machine} {es : List Expr} {s s' : Store}
    {vs : List Value} (hends : endsInCall es = false)
    (h : setting.valuesCourse fuel places constants next m es s (.ok vs s')) :
    vs.length = es.length := by
  induction es generalizing next m s vs with
  | nil =>
    rw [valuesCourse, Course.pure_iff] at h
    cases h
    rfl
  | cons e rest ih =>
    have hcons : rest ≠ [] ∨ e.isCall = false := by
      by_cases hrest : rest = []
      · subst hrest
        exact .inr hends
      · exact .inl hrest
    rw [valuesCourse_cons hcons] at h
    rw [endsInCall_cons hcons] at hends
    obtain ⟨first, s₁, -, h⟩ := Course.bind_ok_iff.1 h
    obtain ⟨others, s₂, hothers, h⟩ := Course.bind_ok_iff.1 h
    rw [Course.pure_iff] at h
    cases h
    rw [List.length_cons, List.length_cons, ih hends hothers]

theorem length_of_entriesCourse {next : Nat} {m : Machine} {es : List (Expr × Expr)} {s s' : Store}
    {pairs : List (Value × Value)}
    (h : setting.entriesCourse fuel places constants next m es s (.ok pairs s')) :
    pairs.length = es.length := by
  induction es generalizing s' pairs with
  | nil =>
    rw [entriesCourse, Course.pure_iff] at h
    cases h
    rfl
  | cons entry rest ih =>
    rw [entriesCourse] at h
    obtain ⟨others, s₁, hothers, h⟩ := Course.bind_ok_iff.1 h
    obtain ⟨v, s₂, -, h⟩ := Course.bind_ok_iff.1 h
    obtain ⟨k, s₃, -, h⟩ := Course.bind_ok_iff.1 h
    rw [Course.pure_iff] at h
    cases h
    rw [List.length_cons, List.length_cons, ih hothers]

end Setting

end ScriptEngine
