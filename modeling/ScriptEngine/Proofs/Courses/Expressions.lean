import ScriptEngine.Proofs.Courses.Evaluation
import ScriptEngine.Proofs.Pieces.Conditions

/-!
# The code of expressions and their courses

Wherever the code of an expression stands, and whatever lies on the stack of the machine that has
come to it, it runs as the course of the expression says and leaves its value on the stack.  The
same holds of the code of a list of expressions, which leaves all of their values.

## Main definitions

* `Setting.Stacks` — code puts what a course comes to on the stack.
* `Setting.StacksExpr` — the code of an expression does.

## Main results

* `Setting.stacks_callCode` — the code of a call does if the code of its arguments and of its
  callee does.
* `Setting.stacks_expr`, `Setting.stacks_values`, `Setting.stacks_entries` — so does the code of
  expressions, of lists and of entries.
-/

namespace ScriptEngine

namespace Setting

variable {setting : Setting} {talk : Talk} {fuel : Nat} {places : List Nat}
  {constants : Constants} {α β : Type}

/-! ### Code that puts results on the stack -/

variable (setting fuel places constants) in
/-- Wherever some code stands and whatever machine has come to it, it runs as a course says and puts
the result on the stack. -/
def Stacks (code : Code) (x : Machine → Course α) (stacked : α → List Value) : Prop :=
  ∀ ⦃exit : Option Nat⦄ ⦃ip stop : Nat⦄ (m : Machine) (s : Store),
    setting.program.Holds places exit ip code → stop = ip + code.length →
    setting.Runs fuel constants ⟨ip, stop, m.frames⟩ ⟨{ m with ip := ip }, s⟩ (x m)
      fun a => { m with ip := stop, stack := stacked a ++ m.stack }

/-- A machine at the end of a piece of code. -/
theorem not_inside_stop {start stop : Nat} {frames : List Frame} {m : Machine}
    (hip : m.ip = stop) (hframes : m.frames = frames) :
    ¬ Piece.Inside ⟨start, stop, frames⟩ m := fun hin => by
  subst hip hframes
  exact Nat.lt_irrefl _ (hin.2 rfl).2

section

variable {c : Piece} {m : Machine} {s : Store} {op : Op} {x : Course α} {arrive : α → Machine}

theorem Runs.of_regular {st : State}
    (h : setting.Regular fuel constants c st → setting.Runs fuel constants c st x arrive) :
    setting.Runs fuel constants c st x arrive := fun hregular => h hregular hregular

variable (honest : Honest setting.natives talk) (hp : setting.program.Verifying)
include honest hp

/-- An instruction comes first that changes the stack and the marks only. -/
theorem Runs.execute {start stop ip : Nat} {σ : List Value} {marks : List Nat} (σ' : List Value)
    (marks' : List Nat) (hop : setting.program.code[ip]? = some op) (hstart : start ≤ ip)
    (hstop : ip < stop)
    (hexecute : setting.execute (setting.callFrom fuel op.position m.depth) op
      ⟨{ m with ip := ip + 1, stack := σ, marks := marks }, s⟩ =
        .ok () ⟨{ m with ip := ip + 1, stack := σ', marks := marks' }, s⟩)
    (hrest : setting.Runs fuel constants ⟨start, stop, m.frames⟩
      ⟨{ m with ip := ip + 1, stack := σ', marks := marks' }, s⟩ x arrive) :
    setting.Runs fuel constants ⟨start, stop, m.frames⟩
      ⟨{ m with ip := ip, stack := σ, marks := marks }, s⟩ x arrive :=
  .step honest hp ((Piece.inside_iff rfl).2 ⟨hstart, hstop⟩)
    (step_of_execute (m := { m with ip := ip, stack := σ, marks := marks }) hop hexecute) hrest rfl

/-- An instruction that does what an evaluation says comes first. -/
theorem Runs.eval {start stop ip : Nat} {σ : List Value} {y : Eval β} {f : β → Course α}
    (σ' : β → List Value) (hop : setting.program.code[ip]? = some op) (hstart : start ≤ ip)
    (hstop : ip < stop)
    (hexecute : match y s with
      | .ok b s' => setting.execute (setting.callFrom fuel op.position m.depth) op
          ⟨{ m with ip := ip + 1, stack := σ }, s⟩ =
            .ok () ⟨{ m with ip := ip + 1, stack := σ' b }, s'⟩
      | .error (.interrupted i) s' => ∃ e m', setting.execute
          (setting.callFrom fuel op.position m.depth) op ⟨{ m with ip := ip + 1, stack := σ }, s⟩ =
            .error e ⟨m', s'⟩ ∧ i = e.located op.position
      | .error .undecided _ => False)
    (hrest : ∀ b s', setting.Runs fuel constants ⟨start, stop, m.frames⟩
      ⟨{ m with ip := ip + 1, stack := σ' b }, s'⟩ (f b) arrive) :
    setting.Runs fuel constants ⟨start, stop, m.frames⟩ ⟨{ m with ip := ip, stack := σ }, s⟩
      (.eval y >>= f) arrive := by
  have hin : Piece.Inside ⟨start, stop, m.frames⟩ { m with ip := ip, stack := σ } :=
    (Piece.inside_iff rfl).2 ⟨hstart, hstop⟩
  cases hy : y s with
  | ok b s' =>
    rw [hy] at hexecute
    exact .step honest hp hin
      (step_of_execute (m := { m with ip := ip, stack := σ }) hop hexecute) (hrest b s')
      (Course.bind_of_ok (Course.eval_of_ok hy))
  | error stop s' =>
    rw [hy] at hexecute
    cases stop with
    | undecided => exact hexecute.elim
    | interrupted i =>
      obtain ⟨e, m', hfails, rfl⟩ := hexecute
      exact .fail hin (step_of_execute_error (m := { m with ip := ip, stack := σ }) hop hfails)
        (Course.bind_of_error (Course.eval_of_error hy))

/-- The last instruction of a piece, which has the result of an operator. -/
theorem Runs.operator {start stop ip : Nat} {position : Position} {r : Store → Except Cause Value}
    {σ : List Value} (σ' : List Value) (hop : setting.program.code[ip]? = some op)
    (hposition : op.position = position) (hstart : start ≤ ip) (hstop : stop = ip + 1)
    (hexecute : setting.execute (setting.callFrom fuel op.position m.depth) op
      ⟨{ m with ip := ip + 1, stack := σ }, s⟩ =
        (Exec.ofExcept (r s) >>= fun v => Exec.push v) ⟨{ m with ip := ip + 1, stack := σ' }, s⟩) :
    setting.Runs fuel constants ⟨start, stop, m.frames⟩ ⟨{ m with ip := ip, stack := σ }, s⟩
      (.operator position r) fun v => { m with ip := stop, stack := v :: σ' } := by
  subst hposition hstop
  rw [← Course.bind_pure (Course.operator _ _)]
  refine .eval honest hp (· :: σ') hop hstart (Nat.lt_succ_self ip) ?_
    fun v s' => .pure rfl (not_inside_stop rfl rfl)
  cases hr : r s with
  | ok v =>
    rw [hr] at hexecute
    exact hexecute
  | error cause =>
    rw [hr] at hexecute
    exact ⟨_, _, hexecute, rfl⟩

/-! ### Calls -/

variable {values callee : Code} {arguments : List Expr} {position : Position} {want : Option Nat}
  {xs : Machine → Course (List Value)} {f : Machine → Course Value}

/-- The instruction of a call, the arguments, the callee and their number being on the stack. -/
theorem runs_callOp {v : Value} {vs : List Value} {ip stop : Nat}
    (hop : setting.program.code[ip]? = some (callOp want position)) (hstop : stop = ip + 1) :
    setting.Runs fuel constants ⟨ip, stop, m.frames⟩
      ⟨{ m with
        ip := ip
        stack := .number (Number.ofNat vs.length) :: v :: (vs.reverse ++ m.stack) }, s⟩
      (setting.answers fuel position m.waiting ⟨v, vs, m.stack, want⟩)
      fun results =>
        { m with ip := stop, stack := (adjustTo want results).reverse ++ m.stack } := by
  subst hstop
  refine .of_regular fun hregular => ?_
  have hlength : vs.reverse.length < Number.mantissaBound := by
    have hroom : (Value.number (Number.ofNat vs.length) :: v :: (vs.reverse ++ m.stack)).length <
        Number.mantissaBound := hregular.steady.room _ .refl
    simp only [List.length_cons, List.length_append] at hroom
    omega
  have hcount : IsCount (.number (Number.ofNat vs.length)) vs.reverse.length := by
    rw [List.length_reverse] at hlength ⊢
    exact isCount_ofNat hlength
  have hcode : (callOp want position).code = .call ∧ (callOp want position).count? = want ∧
      (callOp want position).position = position := by
    cases want <;> exact ⟨rfl, rfl, rfl⟩
  have hi := Machine.invocation?_of_ready (m := Machine.past { m with
    ip := ip
    stack := .number (Number.ofNat vs.length) :: v :: (vs.reverse ++ m.stack) }) hcode.1 rfl hcount
  rw [List.reverse_reverse, hcode.2.1] at hi
  have hruns : setting.Runs fuel constants ⟨ip, ip + 1, m.frames⟩ ⟨{ m with
      ip := ip
      stack := .number (Number.ofNat vs.length) :: v :: (vs.reverse ++ m.stack) }, s⟩ _ _ :=
    runs_invocation honest hp hop hi
  rw [hcode.2.2] at hruns
  exact hruns

/-- **The code of a call runs as the call does.** -/
theorem stacks_callCode
    (hvalues : setting.Stacks fuel places constants values xs List.reverse)
    (hlength : endsInCall arguments = false → ∀ m s vs s', xs m s (.ok vs s') →
      vs.length = arguments.length)
    (hcallee : setting.Stacks fuel places constants callee f ([·])) :
    setting.Stacks fuel places constants (callCode position arguments values callee want)
      (fun m => setting.callCourse fuel position m (endsInCall arguments) want xs f)
      fun results => (adjustTo want results).reverse := by
  intro exit ip stop m s h hstop
  cases hends : endsInCall arguments with
  | true =>
    rw [callCode_of_endsInCall hends] at h hstop
    simp only [List.length_append, List.length_cons, List.length_nil] at hstop
    simp only [callCourse, if_true]
    refine .execute (m := m) honest hp m.stack (m.stack.length :: m.marks)
      (h.left.left.left.left.head rfl) (Nat.le_refl ip) (by omega) rfl ?_
    refine (hvalues { m with marks := m.stack.length :: m.marks } s
      h.left.left.left.left.tail rfl).bind honest hp
      (Piece.partOf_of_le (Nat.le_succ _) (by omega)) fun vs s₁ _ => ?_
    refine .execute (m := m) honest hp (.number (Number.ofNat vs.length) :: (vs.reverse ++ m.stack))
      m.marks (h.left.left.left.right.headAt (by simp; omega) rfl) (by omega) (by omega)
      (assignCount_reverse_append vs) ?_
    refine (hcallee { m with stack := .number (Number.ofNat vs.length) :: (vs.reverse ++ m.stack) }
      s₁ (h.left.left.right.moved (by simp; omega)) rfl).bind honest hp
      (Piece.partOf_of_le (by omega) (by omega)) fun v s₂ _ => ?_
    refine .execute (m := m) honest hp
      (.number (Number.ofNat vs.length) :: v :: (vs.reverse ++ m.stack)) m.marks
      (h.left.right.headAt (by simp; omega) rfl) (by omega) (by omega) rfl ?_
    exact (runs_callOp honest hp (h.right.headAt (by simp; omega) (isFinal_callOp want position))
      (by omega)).last honest hp (Piece.partOf_of_le (by omega) (Nat.le_refl _))
      fun _ => not_inside_stop rfl rfl
  | false =>
    rw [callCode_of_not_endsInCall hends] at h hstop
    simp only [List.length_append, List.length_cons, List.length_nil] at hstop
    simp only [callCourse, Bool.false_eq_true, if_false]
    refine (hvalues m s h.left.left.left rfl).bind honest hp
      (Piece.partOf_of_le (Nat.le_refl _) (by omega)) fun vs s₁ hvs => ?_
    refine (hcallee { m with stack := vs.reverse ++ m.stack } s₁ h.left.left.right rfl).bind
      honest hp (Piece.partOf_of_le (by omega) (by omega)) fun v s₂ _ => ?_
    refine .execute (m := m) honest hp
      (.number (Number.ofNat arguments.length) :: v :: (vs.reverse ++ m.stack)) m.marks
      (h.left.right.headAt (by simp; omega) rfl) (by omega) (by omega) rfl ?_
    rw [← hlength hends m s vs s₁ hvs]
    exact (runs_callOp honest hp (h.right.headAt (by simp; omega) (isFinal_callOp want position))
      (by omega)).last honest hp (Piece.partOf_of_le (by omega) (Nat.le_refl _))
      fun _ => not_inside_stop rfl rfl

end

/-! ### Expressions -/

variable (setting fuel places constants) in
/-- The code of an expression whose literals are numbered from `next` on runs as the expression
says. -/
def StacksExpr (next : Nat) (e : Expr) : Prop :=
  setting.Stacks fuel places constants (e.code .value next).1
    (fun m => setting.exprCourse fuel places constants next m e) ([·])

section

variable {next : Nat} {position : Position} {entries : List (Expr × Expr)}
  {lhs rhs callee table key operand : Expr} {arguments : List Expr}
variable (honest : Honest setting.natives talk) (hp : setting.program.Verifying)
include honest hp

theorem stacks_literal (value : Literal) :
    setting.StacksExpr fuel places constants next (.literal position value) := by
  intro exit ip stop m s h hstop
  simp only [Expr.code, Gen.fst_pure, Target.finish, List.length_singleton] at h hstop
  subst hstop
  simp only [exprCourse]
  exact .execute (m := m) honest hp (value.toValue :: m.stack) m.marks
    (h.head (by cases value <;> rfl)) (Nat.le_refl ip) (Nat.lt_succ_self ip)
    (by cases value <;> rfl)
    (.pure rfl (not_inside_stop rfl rfl))

/-- A variable that is a constant to the folding is read from its scopes all the same. -/
theorem stacks_var (name : String) :
    setting.StacksExpr fuel places constants next (.var position name) := by
  intro exit ip stop m s h hstop
  simp only [Expr.code, Gen.fst_pure, Target.finish, List.length_singleton] at h hstop
  subst hstop
  simp only [exprCourse]
  have hop := h.head rfl
  cases hfind : constants.find? name with
  | none =>
    simp only
    rw [← Course.bind_pure (Course.eval _)]
    exact .eval (m := m) honest hp (· :: m.stack) hop (Nat.le_refl ip) (Nat.lt_succ_self ip) rfl
      fun v s' => .pure rfl (not_inside_stop rfl rfl)
  | some value =>
    simp only
    refine .of_regular fun hregular => ?_
    have hvalue : Exec.lookup m s name = value.toValue :=
      hregular.resolve _ .refl rfl name value hfind
    refine .execute (m := m) honest hp (value.toValue :: m.stack) m.marks hop (Nat.le_refl ip)
      (Nat.lt_succ_self ip) ?_ (.pure rfl (not_inside_stop rfl rfl))
    rw [← hvalue]
    rfl

/-- A literal of a function keeps the scopes that the machine reaches. -/
theorem stacks_function (parameters : List Identifier) (body : List Stat) :
    setting.StacksExpr fuel places constants next (.function position parameters body) := by
  intro exit ip stop m s h hstop
  simp only [Expr.code, Gen.fst_bind, Gen.fst_function, Gen.fst_pure, Target.finish,
    List.length_singleton] at h hstop
  subst hstop
  simp only [exprCourse]
  have hop := h.1
  rw [Op.settled_function] at hop
  exact .execute (m := m) honest hp
    (.function ((places[next]?).getD next) (Exec.reach m) :: m.stack) m.marks hop
    (Nat.le_refl ip) (Nat.lt_succ_self ip) rfl (.pure rfl (not_inside_stop rfl rfl))

/-- The code of a table runs as the table says if that of its entries does. -/
theorem stacks_table
    (ih : setting.Stacks fuel places constants (entriesCode entries next).1
      (fun m => setting.entriesCourse fuel places constants next m entries) stackedPairs) :
    setting.StacksExpr fuel places constants next (.table position entries) := by
  intro exit ip stop m s h hstop
  simp only [Expr.code, Gen.fst_bind, Gen.fst_pure, Target.finish] at h hstop
  simp only [List.length_append, List.length_cons] at hstop
  simp only [exprCourse]
  refine .eval (m := m) honest hp (fun ref => .table ref :: m.stack) (h.left.head rfl)
    (Nat.le_refl ip) (by omega) rfl fun ref s₁ => ?_
  refine (ih { m with stack := .table ref :: m.stack } s₁ h.left.tail rfl).bind honest hp
    (Piece.partOf_of_le (Nat.le_succ _) (by omega)) fun pairs s₂ hpairs => ?_
  have hlength := length_of_entriesCourse hpairs
  cases entries with
  | nil =>
    obtain rfl := List.length_eq_zero_iff.1 hlength
    have hput : Course.eval (putPairs position ref []) s₂ = (· = .ok () s₂) := rfl
    obtain rfl : stop = ip + 1 + (entriesCode [] next).1.length := by
      simp only [List.isEmpty_nil, if_true, List.length_nil] at hstop
      omega
    exact .congr (.pure (a := .table ref) rfl (not_inside_stop rfl rfl)) (Course.bind_of_ok hput)
  | cons entry rest =>
    simp only [List.isEmpty_cons, Bool.false_eq_true, if_false, List.length_singleton] at h hstop
    obtain rfl : stop = ip + 1 + (entriesCode (entry :: rest) next).1.length + 1 := by omega
    refine .eval (m := m) honest hp (fun _ => .table ref :: m.stack)
      (h.right.headAt (by simp; omega) rfl) (by omega) (by omega) ?_
      fun _ s₃ => .pure rfl (not_inside_stop rfl rfl)
    have hstore := storePairs_stackedPairs ref position (.table ref :: m.stack) pairs
      { m with ip := ip + 1 + (entriesCode (entry :: rest) next).1.length + 1 } s₂
    have hindex := storeIndex_stackedPairs (s := s₂)
      (m := { m with ip := ip + 1 + (entriesCode (entry :: rest) next).1.length + 1 })
      (.table ref) m.stack pairs
    rw [hlength] at hstore hindex
    cases hput : putPairs position ref pairs s₂ with
    | ok _ s₃ =>
      rw [hput] at hstore
      exact hindex.trans hstore
    | error i s₃ =>
      rw [hput] at hstore
      cases i with
      | undecided => exact hstore
      | interrupted i =>
        obtain ⟨e, m', hfails, hi⟩ := hstore
        exact ⟨e, m', hindex.trans hfails, hi⟩

theorem stacks_call
    (harguments : setting.Stacks fuel places constants (valuesCode arguments next).1
      (fun m => setting.valuesCourse fuel places constants next m arguments) List.reverse)
    (hcallee : setting.StacksExpr fuel places constants
      (next + (valuesFunctions arguments).length) callee) :
    setting.StacksExpr fuel places constants next (.call position callee arguments) := by
  intro exit ip stop m s h hstop
  simp only [Expr.code, Gen.fst_bind, Gen.fst_pure, Target.finish, bodies_valuesCode,
    length_functionCodes] at h hstop
  simp only [exprCourse]
  refine ((stacks_callCode honest hp harguments
    (fun hends m s vs s' => length_of_valuesCourse hends) hcallee) m s h hstop).bind
    honest hp (Piece.partOf_of_le (Nat.le_refl _) (Nat.le_refl _)) fun results s₁ _ => ?_
  refine .pure ?_ (not_inside_stop rfl rfl)
  simp only [adjustTo, adjust_one]
  rfl

theorem stacks_index (hkey : setting.StacksExpr fuel places constants next key)
    (htable : setting.StacksExpr fuel places constants (next + key.functions.length) table) :
    setting.StacksExpr fuel places constants next (.index position table key) := by
  intro exit ip stop m s h hstop
  simp only [Expr.code, Gen.fst_bind, Gen.fst_pure, Target.finish, Expr.bodies_code,
    length_functionCodes] at h hstop
  simp only [List.length_append, List.length_singleton] at hstop
  simp only [exprCourse]
  refine (hkey m s h.left.left rfl).bind honest hp
    (Piece.partOf_of_le (Nat.le_refl _) (by omega)) fun k s₁ _ => ?_
  refine (htable { m with stack := k :: m.stack } s₁ h.left.right rfl).bind honest hp
    (Piece.partOf_of_le (by omega) (by omega)) fun t s₂ _ => ?_
  exact .operator (m := m) honest hp m.stack (h.right.headAt (by simp; omega) rfl) rfl (by omega)
    (by omega) (loadIndex_cons _ t k m.stack)

/-- An operator that needs both of its operands has the second one first. -/
theorem stacks_strict {operator : StrictOperator}
    (hright : setting.StacksExpr fuel places constants next rhs)
    (hleft : setting.StacksExpr fuel places constants (next + rhs.functions.length) lhs) :
    setting.StacksExpr fuel places constants next
      (.binary position (.strict operator) lhs rhs) := by
  intro exit ip stop m s h hstop
  simp only [Expr.code, Gen.fst_bind, Gen.fst_pure, Target.finish, Expr.bodies_code,
    length_functionCodes] at h hstop
  simp only [List.length_append, List.length_singleton] at hstop
  simp only [exprCourse]
  refine (hright m s h.left.left rfl).bind honest hp
    (Piece.partOf_of_le (Nat.le_refl _) (by omega)) fun right s₁ _ => ?_
  refine (hleft { m with stack := right :: m.stack } s₁ h.left.right rfl).bind honest hp
    (Piece.partOf_of_le (by omega) (by omega)) fun left s₂ _ => ?_
  exact .operator (m := m) honest hp m.stack (h.right.headAt (by simp; omega) rfl) rfl (by omega)
    (by omega) rfl

theorem stacks_unary {operator : UnaryOperator}
    (hoperand : setting.StacksExpr fuel places constants next operand) :
    setting.StacksExpr fuel places constants next (.unary position operator operand) := by
  have hcode : ((Expr.unary position operator operand).code .value next).1 =
      (operand.code .value next).1 ++ [.plain (.unary operator) position] := by
    cases operator <;> simp only [Expr.code, Gen.fst_bind, Gen.fst_pure, Target.finish]
  rw [StacksExpr, hcode]
  intro exit ip stop m s h hstop
  rw [List.length_append, List.length_singleton] at hstop
  simp only [exprCourse]
  refine (hoperand m s h.left rfl).bind honest hp
    (Piece.partOf_of_le (Nat.le_refl _) (by omega)) fun v s₁ _ => ?_
  exact .operator (m := m) honest hp m.stack (h.right.head rfl) rfl (by omega) (by omega) rfl

/-- Operators that do not need their second operand if the first one counts as `stop`. -/
theorem stacks_shortcut (stop : Bool) {left right : Code} {x y : Machine → Course Value}
    (hleft : setting.Stacks fuel places constants left x ([·]))
    (hright : setting.Stacks fuel places constants right y ([·])) :
    setting.Stacks fuel places constants (shortcutCode stop position left right)
      (fun m => do
        let v ← x m
        if v.isTruthy = stop then pure v else y m) ([·]) := by
  intro exit ip behind m s h hbehind
  subst hbehind
  refine (hleft m s h.left.left rfl).bind honest hp (partOf_shortcutCode_left stop ip m.frames)
    fun v s₁ _ => ?_
  refine .of_traverses honest hp (traverses_between (m := m) stop v h) ?_ rfl
  by_cases hv : v.isTruthy = stop
  · simp only [if_pos hv]
    exact .pure rfl (not_inside_stop rfl rfl)
  · simp only [if_neg hv]
    have hend : ip + (shortcutCode stop position left right).length =
        ip + left.length + 3 + right.length := by
      rw [length_shortcutCode]
      omega
    exact (hright m s₁ (h.right.moved (by simp; omega)) hend).last honest hp
      (Piece.partOf_of_le (by omega) (Nat.le_refl _)) fun _ => not_inside_stop rfl rfl

theorem stacks_and (hright : setting.StacksExpr fuel places constants next rhs)
    (hleft : setting.StacksExpr fuel places constants (next + rhs.functions.length) lhs) :
    setting.StacksExpr fuel places constants next (.binary position .and lhs rhs) := by
  have hcode : ((Expr.binary position .and lhs rhs).code .value next).1 =
      shortcutCode false position (lhs.code .value (next + rhs.functions.length)).1
        (rhs.code .value next).1 := by
    simp only [Expr.code, Gen.fst_bind, Gen.fst_pure, Expr.bodies_code, length_functionCodes]
    rfl
  rw [StacksExpr, hcode]
  intro exit ip stop m s h hstop
  refine .congr (stacks_shortcut honest hp false hleft hright m s h hstop) ?_
  simp only [exprCourse]
  refine Course.bind_congr fun v s' _ => ?_
  cases v.isTruthy <;> rfl

theorem stacks_or (hright : setting.StacksExpr fuel places constants next rhs)
    (hleft : setting.StacksExpr fuel places constants (next + rhs.functions.length) lhs) :
    setting.StacksExpr fuel places constants next (.binary position .or lhs rhs) := by
  have hcode : ((Expr.binary position .or lhs rhs).code .value next).1 =
      shortcutCode true position (lhs.code .value (next + rhs.functions.length)).1
        (rhs.code .value next).1 := by
    simp only [Expr.code, Gen.fst_bind, Gen.fst_pure, Expr.bodies_code, length_functionCodes]
    rfl
  rw [StacksExpr, hcode]
  intro exit ip stop m s h hstop
  refine .congr (stacks_shortcut honest hp true hleft hright m s h hstop) ?_
  simp only [exprCourse]

/-- Expressions of which the first one is not a call at the end. -/
theorem stacks_values_cons {e : Expr} {rest : List Expr} (hcons : rest ≠ [] ∨ e.isCall = false)
    (hfirst : setting.Stacks fuel places constants (e.code .value next).1
      (fun m => setting.exprCourse fuel places constants next m e) ([·]))
    (hothers : setting.Stacks fuel places constants
      (valuesCode rest (next + e.functions.length)).1
      (fun m => setting.valuesCourse fuel places constants (next + e.functions.length) m rest)
      List.reverse) :
    setting.Stacks fuel places constants (valuesCode (e :: rest) next).1
      (fun m => setting.valuesCourse fuel places constants next m (e :: rest)) List.reverse := by
  intro exit ip stop m s h hstop
  rw [valuesCode_cons hcons] at h hstop
  simp only [Gen.fst_bind, Gen.fst_pure, Expr.bodies_code, length_functionCodes] at h hstop
  rw [List.length_append] at hstop
  simp only [valuesCourse_cons hcons]
  refine (hfirst m s h.left rfl).bind honest hp (Piece.partOf_of_le (Nat.le_refl _) (by omega))
    fun first s₁ _ => ?_
  refine (hothers { m with stack := first :: m.stack } s₁ h.right
    (by omega : stop = _)).bind honest hp (Piece.partOf_of_le (by omega) (Nat.le_refl _))
    fun others s₂ _ => ?_
  refine .pure ?_ (not_inside_stop rfl rfl)
  rw [List.reverse_cons, List.append_assoc]
  rfl

mutual

/-- **The code of an expression runs as the expression says.** -/
theorem stacks_expr : ∀ (e : Expr) {next : Nat},
    setting.Stacks fuel places constants (e.code .value next).1
      (fun m => setting.exprCourse fuel places constants next m e) ([·])
  | .literal _ value, _ => stacks_literal honest hp value
  | .var _ name, _ => stacks_var honest hp name
  | .function _ parameters body, _ => stacks_function honest hp parameters body
  | .table _ entries, _ => stacks_table honest hp (stacks_entries entries)
  | .call _ callee arguments, _ =>
    stacks_call honest hp (stacks_values arguments) (stacks_expr callee)
  | .index _ table key, _ => stacks_index honest hp (stacks_expr key) (stacks_expr table)
  | .group position inner, next => by
    intro exit ip stop m s h hstop
    simp only [Expr.code, Gen.fst_bind, Gen.fst_pure, Target.finish] at h hstop
    simp only [exprCourse_group]
    exact stacks_expr inner m s h hstop
  | .binary _ .and lhs rhs, _ => stacks_and honest hp (stacks_expr rhs) (stacks_expr lhs)
  | .binary _ .or lhs rhs, _ => stacks_or honest hp (stacks_expr rhs) (stacks_expr lhs)
  | .binary _ (.strict _) lhs rhs, _ =>
    stacks_strict honest hp (stacks_expr rhs) (stacks_expr lhs)
  | .unary _ _ operand, _ => stacks_unary honest hp (stacks_expr operand)

/-- **So does the code of a list of expressions.** -/
theorem stacks_values : ∀ (es : List Expr) {next : Nat},
    setting.Stacks fuel places constants (valuesCode es next).1
      (fun m => setting.valuesCourse fuel places constants next m es) List.reverse
  | [], next => by
    intro exit ip stop m s h hstop
    subst hstop
    simp only [valuesCourse]
    exact .pure rfl (not_inside_stop rfl rfl)
  | [e], next => by
    by_cases hcall : e.isCall = true
    · obtain ⟨position, callee, arguments, rfl⟩ : ∃ position callee arguments,
          e = .call position callee arguments := by
        cases e with
        | call position callee arguments => exact ⟨_, _, _, rfl⟩
        | _ => cases hcall
      simp only [valuesCode, Gen.fst_bind, Gen.fst_pure, bodies_valuesCode, length_functionCodes,
        valuesCourse]
      exact stacks_callCode honest hp (stacks_values arguments)
        (fun hends m s vs s' => length_of_valuesCourse hends) (stacks_expr callee)
    · exact stacks_values_cons honest hp (.inr (Bool.eq_false_iff.2 hcall)) (stacks_expr e)
        (stacks_values [])
  | e :: f :: rest, next =>
    stacks_values_cons honest hp (.inl (List.cons_ne_nil f rest)) (stacks_expr e)
      (stacks_values (f :: rest))

/-- And the code of the entries of a table. -/
theorem stacks_entries : ∀ (es : List (Expr × Expr)) {next : Nat},
    setting.Stacks fuel places constants (entriesCode es next).1
      (fun m => setting.entriesCourse fuel places constants next m es) stackedPairs
  | [], next => by
    intro exit ip stop m s h hstop
    subst hstop
    simp only [entriesCourse]
    exact .pure rfl (not_inside_stop rfl rfl)
  | (key, value) :: rest, next => by
    intro exit ip stop m s h hstop
    simp only [entriesCode, Gen.fst_bind, Gen.fst_pure, bodies_entriesCode, Expr.bodies_code,
      length_functionCodes] at h hstop
    simp only [List.length_append] at hstop
    simp only [entriesCourse]
    refine (stacks_entries rest m s h.left.left rfl).bind honest hp
      (Piece.partOf_of_le (Nat.le_refl _) (by omega)) fun others s₁ _ => ?_
    refine (stacks_expr value { m with stack := stackedPairs others ++ m.stack } s₁ h.left.right
      rfl).bind honest hp (Piece.partOf_of_le (by omega) (by omega)) fun v s₂ _ => ?_
    refine (stacks_expr key { m with stack := v :: (stackedPairs others ++ m.stack) } s₂
      (h.right.moved (by simp; omega) : setting.program.Holds places exit (ip + _ + _) _)
      (by omega : stop = _)).bind honest hp
      (Piece.partOf_of_le (by omega) (by omega)) fun k s₃ _ => ?_
    exact .pure rfl (not_inside_stop (by rfl) rfl)

end

end

end Setting

end ScriptEngine
