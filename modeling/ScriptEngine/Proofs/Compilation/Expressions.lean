import ScriptEngine.Proofs.Compilation.Instructions

/-!
# The code of expressions

Code and evaluation agree on expressions if they agree on all that is nested less
deeply.

## Main definitions

* `Setting.AgreesOn` — agreement on one expression.

## Main results

* `Setting.agreesOnExpr_succ`, `Setting.agreesOnCallExpr_succ`,
  `Setting.agreesOnValues_succ`, `Setting.agreesOnEntries_succ` — one level of
  nesting more.
-/

namespace ScriptEngine.Setting

variable {setting : Setting} {call : Position → Nat → Reentry} {functions : FunctionTable}
  {n : Nat} {places : List Nat} {exit : Option Nat} {ip : Nat} {m : Machine} {s : Store}

/-! ### Targets -/

/-- Code that leaves a value, with what its target asks for behind it. -/
theorem follows_finish {target : Target} {position : Position} {code : Code}
    {r : EStateM.Result Stop Store Value}
    (h : setting.program.Holds places exit ip (target.finish position code))
    (hcode : setting.Follows call ⟨{ m with ip := ip }, s⟩ r
      fun v s' st' => st' = ⟨{ m with ip := ip + code.length, stack := v :: m.stack }, s'⟩) :
    setting.Follows call ⟨{ m with ip := ip }, s⟩ r fun v s' st' =>
      st' = ⟨target.arrive m (ip + (target.finish position code).length) v, s'⟩ := by
  refine hcode.further fun v s' st' _ hst => ?_
  subst hst
  rcases target with _ | ⟨truth, distance⟩
  · exact .pure rfl
  · have hop : setting.program.code[ip + code.length]? =
        some (.jumping (cond truth .jumpIf .jumpIfNot) distance position) := by
      cases truth <;> exact h.right.head rfl
    have hlength : (Target.finish (.jumpWhen truth distance) position code).length =
        code.length + 1 := by
      cases truth <;> simp [Target.finish]
    refine follows_jumpWhen truth _ hop (Int.natCast_add _ _).symm (.pure ?_)
    rw [hlength, ← Nat.add_assoc]
    rfl

/-! ### Expressions -/

section Shortcuts

variable {x y : Eval Value} {f : Value → Eval Value} (truth : Bool) {left right : Code}

/-- An operator that does not need its second operand if the first one counts as
`truth`, where the value is left on the stack. -/
theorem follows_shortcut {position : Position}
    (hshort : ∀ v s, v.isTruthy = truth → f v s = .ok v s)
    (hlong : ∀ v s, v.isTruthy ≠ truth → f v s = y s)
    (h : setting.program.Holds places exit ip
      (left ++ [.plain .dup position,
        .jumping (cond truth .jumpIf .jumpIfNot) (right.length + 1 : Nat) position,
        .plain .pop position] ++ right))
    (hleft : setting.Follows call ⟨{ m with ip := ip }, s⟩ (x s)
      fun v s' st' => st' = ⟨{ m with ip := ip + left.length, stack := v :: m.stack }, s'⟩)
    (hright : ∀ s, setting.Follows call ⟨{ m with ip := ip + left.length + 3 }, s⟩ (y s)
      fun v s' st' => st' = ⟨{ m with
        ip := ip + left.length + 3 + right.length
        stack := v :: m.stack }, s'⟩) :
    setting.Follows call ⟨{ m with ip := ip }, s⟩ ((x >>= f) s)
      fun v s' st' => st' = ⟨{ m with
        ip := ip + left.length + 3 + right.length
        stack := v :: m.stack }, s'⟩ := by
  have hmiddle := h.left.right
  refine hleft.bind fun v s' st' _ hst => ?_
  subst hst
  refine Follows.step (hmiddle.head rfl) rfl ?_
  refine follows_jumpWhen truth _ (hmiddle.tail.head (by cases truth <;> rfl))
    (Int.natCast_add _ _).symm ?_
  by_cases htruth : v.isTruthy = truth
  · rw [if_pos htruth, hshort v s' htruth]
    exact .pure (state_at (by dsimp only; omega))
  · rw [if_neg htruth, hlong v s' htruth]
    exact Follows.step (hmiddle.tail.tail.head rfl) rfl (hright s')

/-- The same where code jumps: the code of the first operand jumps past that of
the second one, and on to where that one jumps if both jump alike. -/
theorem follows_shortcut_jump {t : Bool} {skip distance : Nat}
    (hshort : ∀ v s, v.isTruthy = truth → f v s = .ok v s)
    (hlong : ∀ v s, v.isTruthy ≠ truth → f v s = y s)
    (hskip : skip = right.length + if t = truth then distance else 0)
    (hleft : setting.Follows call ⟨{ m with ip := ip }, s⟩ (x s) fun v s' st' =>
      st' = ⟨(Target.jumpWhen truth skip).arrive m (ip + left.length) v, s'⟩)
    (hright : ∀ s, setting.Follows call ⟨{ m with ip := ip + left.length }, s⟩ (y s)
      fun v s' st' => st' =
        ⟨(Target.jumpWhen t distance).arrive m (ip + left.length + right.length) v, s'⟩) :
    setting.Follows call ⟨{ m with ip := ip }, s⟩ ((x >>= f) s) fun v s' st' =>
      st' = ⟨(Target.jumpWhen t distance).arrive m (ip + (left ++ right).length) v, s'⟩ := by
  rw [List.length_append, ← Nat.add_assoc]
  refine hleft.bind fun v s' st' _ hst => ?_
  subst hst
  by_cases htruth : v.isTruthy = truth
  · rw [hshort v s' htruth]
    refine .pure ?_
    simp only [Target.arrive, hskip, htruth, if_true]
    by_cases ht : t = truth
    · rw [if_pos ht, if_pos ht.symm, Nat.add_assoc, Nat.add_assoc, Nat.add_assoc]
    · rw [if_neg ht, if_neg (Ne.symm ht), Nat.add_zero]
  · rw [hlong v s' htruth]
    simp only [Target.arrive, if_neg htruth]
    exact hright s'

theorem and_short (y : Eval Value) {v : Value} (h : v.isTruthy = false) :
    (if v.isTruthy then y else pure v) s = .ok v s := by
  rw [h]
  rfl

theorem and_long (y : Eval Value) {v : Value} (h : v.isTruthy ≠ false) :
    (if v.isTruthy then y else pure v) s = y s := by
  rw [if_pos (by simpa using h)]

theorem or_short (y : Eval Value) {v : Value} (h : v.isTruthy = true) :
    (if v.isTruthy then pure v else y) s = .ok v s := by
  rw [h]
  rfl

theorem or_long (y : Eval Value) {v : Value} (h : v.isTruthy ≠ true) :
    (if v.isTruthy then pure v else y) s = y s := by
  rw [if_neg h]

end Shortcuts

/-- The code of an expression that leaves its value. -/
theorem Agrees.value (ih : setting.Agrees call functions n) {next : Nat} {e : Expr} (m : Machine)
    (s : Store) (h : setting.program.Holds places exit ip (e.code .value next).1) :
    setting.Follows call ⟨{ m with ip := ip }, s⟩
      (evalExpr (setting.world call functions) n (m.context places) next e s)
      fun v s' st' => st' = ⟨{ m with
        ip := ip + (e.code .value next).1.length
        stack := v :: m.stack }, s'⟩ :=
  ih.expr m s h

/-! ### One expression -/

variable (setting call functions) in
/-- Code and evaluation agree on one expression, whatever its target is. -/
def AgreesOn (n : Nat) (e : Expr) : Prop :=
  ∀ {target places exit next ip} (m : Machine) (s : Store),
    setting.program.Holds places exit ip (e.code target next).1 →
    setting.Follows call ⟨{ m with ip := ip }, s⟩
      (evalExpr (setting.world call functions) n (m.context places) next e s)
      fun v s' st' => st' = ⟨target.arrive m (ip + (e.code target next).1.length) v, s'⟩

section

variable (ih : setting.Agrees call functions n) (position : Position)
include ih

/-- A table: its entries are stored from where they stand above it. -/
theorem agreesOn_table (entries : List (Expr × Expr)) :
    setting.AgreesOn call functions (n + 1) (.table position entries) := by
  intro target places exit next ip m s h
  simp only [Expr.code, Gen.fst_bind, Gen.fst_pure, evalExpr] at h ⊢
  refine follows_finish h ?_
  have hcode := h.of_finish
  refine Follows.step (hcode.left.head rfl) rfl (.ok_bind rfl ?_)
  refine (ih.entries { m with stack := .table _ :: m.stack } _ hcode.left.tail).bind
    fun pairs s' st' _ hend => ?_
  obtain ⟨hlength, rfl⟩ := hend
  cases entries with
  | nil =>
    -- No instruction stores nothing.
    obtain rfl : pairs = [] := List.length_eq_zero_iff.1 hlength
    exact .ok_bind rfl (.pure rfl)
  | cons entry rest =>
    refine (follows_storeIndex (m := m) (hcode.right.headAt (by simp; omega) rfl) hlength).bind
      fun _ s'' st'' _ hst => .pure ?_
    exact hst.trans (state_at (by simp; omega))

/-- A call of which one result is wanted. -/
theorem agreesOn_call (callee : Expr) (arguments : List Expr) :
    setting.AgreesOn call functions (n + 1) (.call position callee arguments) := by
  intro target places exit next ip m s h
  simp only [Expr.code, Gen.fst_bind, Gen.fst_pure, bodies_valuesCode, length_functionCodes,
    evalExpr] at h ⊢
  refine follows_finish h ?_
  refine (ih.callExpr m s rfl h.of_finish).bind fun results s' st' _ hst => .pure ?_
  rw [hst, adjustTo, adjust_one]
  rfl

/-- An indexed expression: the key is computed first. -/
theorem agreesOn_index (table key : Expr) :
    setting.AgreesOn call functions (n + 1) (.index position table key) := by
  intro target places exit next ip m s h
  simp only [Expr.code, Gen.fst_bind, Gen.fst_pure, Expr.bodies_code, length_functionCodes,
    evalExpr] at h ⊢
  refine follows_finish h ?_
  have hcode := h.of_finish
  refine (ih.value m s hcode.left.left).bind fun k s₁ st₁ _ hst => ?_
  subst hst
  refine (ih.value { m with stack := k :: m.stack } s₁ hcode.left.right).bind
    fun t s₂ st₂ _ hst => ?_
  subst hst
  exact .ok_bind rfl (follows_operator (hcode.right.headAt (by simp; omega) rfl) rfl
    (loadIndex_cons _ t k m.stack) fun v => state_at (by simp; omega))

/-- An operator that needs both of its operands: the right one is computed first. -/
theorem agreesOn_strict (operator : StrictOperator) (lhs rhs : Expr) :
    setting.AgreesOn call functions (n + 1) (.binary position (.strict operator) lhs rhs) := by
  intro target places exit next ip m s h
  simp only [Expr.code, Gen.fst_bind, Gen.fst_pure, Expr.bodies_code, length_functionCodes,
    evalExpr] at h ⊢
  refine follows_finish h ?_
  have hcode := h.of_finish
  refine (ih.value m s hcode.left.left).bind fun right s₁ st₁ _ hst => ?_
  subst hst
  refine (ih.value { m with stack := right :: m.stack } s₁ hcode.left.right).bind
    fun left s₂ st₂ _ hst => ?_
  subst hst
  exact .ok_bind rfl (follows_operator (hcode.right.headAt (by simp; omega) rfl)
    rfl rfl fun v => state_at (by simp; omega))

theorem agreesOn_and (lhs rhs : Expr) :
    setting.AgreesOn call functions (n + 1) (.binary position .and lhs rhs) := by
  intro target places exit next ip m s h
  have hshort := fun (v : Value) s (hv : v.isTruthy = false) => and_short
    (evalExpr (setting.world call functions) n (m.context places) next rhs) (s := s) hv
  have hlong := fun (v : Value) s (hv : v.isTruthy ≠ false) => and_long
    (evalExpr (setting.world call functions) n (m.context places) next rhs) (s := s) hv
  rcases target with _ | ⟨_ | _, distance⟩
  · simp only [Expr.code, Gen.fst_bind, Gen.fst_pure, Expr.bodies_code, length_functionCodes,
      evalExpr] at h ⊢
    refine (follows_shortcut false hshort hlong h (ih.value m s h.left.left)
      fun s => ih.value m s (h.right.moved ?_)).imp fun v s' st' _ hst => hst.trans ?_
    · simp; omega
    · exact state_at (by simp; omega)
  all_goals
    simp only [Expr.code, Gen.fst_bind, Gen.fst_pure, Expr.bodies_code, length_functionCodes,
      evalExpr] at h ⊢
    exact follows_shortcut_jump false hshort hlong rfl (ih.expr m s h.left)
      fun s => ih.expr m s h.right

theorem agreesOn_or (lhs rhs : Expr) :
    setting.AgreesOn call functions (n + 1) (.binary position .or lhs rhs) := by
  intro target places exit next ip m s h
  have hshort := fun (v : Value) s (hv : v.isTruthy = true) => or_short
    (evalExpr (setting.world call functions) n (m.context places) next rhs) (s := s) hv
  have hlong := fun (v : Value) s (hv : v.isTruthy ≠ true) => or_long
    (evalExpr (setting.world call functions) n (m.context places) next rhs) (s := s) hv
  rcases target with _ | ⟨_ | _, distance⟩
  · simp only [Expr.code, Gen.fst_bind, Gen.fst_pure, Expr.bodies_code, length_functionCodes,
      evalExpr] at h ⊢
    refine (follows_shortcut true hshort hlong h (ih.value m s h.left.left)
      fun s => ih.value m s (h.right.moved ?_)).imp fun v s' st' _ hst => hst.trans ?_
    · simp; omega
    · exact state_at (by simp; omega)
  all_goals
    simp only [Expr.code, Gen.fst_bind, Gen.fst_pure, Expr.bodies_code, length_functionCodes,
      evalExpr] at h ⊢
    exact follows_shortcut_jump true hshort hlong rfl (ih.expr m s h.left)
      fun s => ih.expr m s h.right

/-- A negation: where code jumps, its operand jumps the other way. -/
theorem agreesOn_not (operand : Expr) :
    setting.AgreesOn call functions (n + 1) (.unary position .not operand) := by
  intro target places exit next ip m s h
  rcases target with _ | ⟨truth, distance⟩
  · simp only [Expr.code, Gen.fst_bind, Gen.fst_pure, evalExpr, Target.arrive] at h ⊢
    refine (ih.value m s h.left).bind fun v s' st' _ hst => ?_
    subst hst
    exact .ok_bind rfl (follows_operator (h.right.head rfl) rfl rfl
      fun v => state_at (by simp; omega))
  · simp only [Expr.code, evalExpr] at h ⊢
    refine (ih.expr m s h).bind fun v s' st' _ hst => .ok_bind rfl (.pure ?_)
    rw [hst, Target.arrive, Target.arrive]
    have htruth : (Value.boolean !v.isTruthy).isTruthy = truth ↔ v.isTruthy = !truth := by
      rw [Value.isTruthy]
      cases v.isTruthy <;> cases truth <;> decide
    simp only [htruth]

theorem agreesOn_unary (operator : UnaryOperator) (operand : Expr) :
    setting.AgreesOn call functions (n + 1) (.unary position operator operand) := by
  cases operator with
  | not => exact agreesOn_not ih position operand
  | _ =>
    intro target places exit next ip m s h
    simp only [Expr.code, Gen.fst_bind, Gen.fst_pure, evalExpr] at h ⊢
    refine follows_finish h ?_
    have hcode := h.of_finish
    refine (ih.value m s hcode.left).bind fun v s' st' _ hst => ?_
    subst hst
    exact .ok_bind rfl (follows_operator (hcode.right.head rfl) rfl rfl
      fun v => state_at (by simp; omega))

end

theorem agreesOnExpr_succ (ih : setting.Agrees call functions n) :
    setting.AgreesOnExpr call functions (n + 1) := by
  intro target places exit next ip e m s h
  cases e with
  | literal position value =>
    simp only [Expr.code, Gen.fst_pure, evalExpr] at h ⊢
    refine follows_finish h ?_
    have hop := h.of_finish
    cases value <;> exact Follows.step (hop.head rfl) rfl (.pure rfl)
  | var position name =>
    simp only [Expr.code, Gen.fst_pure, evalExpr] at h ⊢
    exact follows_finish h (Follows.step (h.of_finish.head rfl) rfl (.pure rfl))
  | function position parameters body =>
    simp only [Expr.code, Gen.fst_bind, Gen.fst_function, Gen.fst_pure, evalExpr] at h ⊢
    refine follows_finish h ?_
    have hop := h.of_finish.1
    rw [Op.settled_function] at hop
    exact Follows.step hop rfl (.pure rfl)
  | table position entries => exact agreesOn_table ih position entries m s h
  | call position callee arguments => exact agreesOn_call ih position callee arguments m s h
  | index position table key => exact agreesOn_index ih position table key m s h
  | group position inner =>
    simp only [Expr.code, Gen.fst_bind, Gen.fst_pure, evalExpr] at h ⊢
    exact follows_finish h (ih.value m s h.of_finish)
  | binary position operator lhs rhs =>
    cases operator with
    | strict operator => exact agreesOn_strict ih position operator lhs rhs m s h
    | and => exact agreesOn_and ih position lhs rhs m s h
    | or => exact agreesOn_or ih position lhs rhs m s h
  | unary position operator operand => exact agreesOn_unary ih position operator operand m s h

/-! ### Calls -/

theorem evalCall_of_le {w : World} {position : Position} {depth : Nat} {callee : Value}
    {arguments : List Value} (h : Number.mantissaBound ≤ arguments.length) :
    evalCall w n position depth callee arguments s = .error .undecided s := by
  cases n with
  | zero => rw [evalCall]; rfl
  | succ n => cases callee <;> rw [evalCall, if_pos h] <;> first | rfl | simp

/-- A call whose number of arguments and callee are on the stack. -/
theorem follows_callOp (ih : setting.Agrees call functions n) {want : Option Nat}
    {position : Position} {callee : Value} {arguments σ : List Value}
    (hop : setting.program.code[ip]? = some (callOp want position)) :
    setting.Follows call ⟨{ m with
        ip := ip
        stack := .number (Number.ofNat arguments.length) :: callee :: (arguments.reverse ++ σ) }, s⟩
      (evalCall (setting.world call functions) n position m.depth callee arguments s)
      fun results s' st' => st' = ⟨{ m with
        ip := ip + 1
        stack := (adjustTo want results).reverse ++ σ }, s'⟩ := by
  by_cases hcount : Number.mantissaBound ≤ arguments.length
  · rw [evalCall_of_le hcount]
    trivial
  · have hnonneg := Number.zero_le_ofNat (Nat.lt_of_not_le hcount)
    have hback := Number.toCount_ofNat (Nat.lt_of_not_le hcount)
    have hposition : (callOp want position).position = position := by cases want <;> rfl
    have hexecute : setting.execute (call position m.depth) (callOp want position) ⟨{ m with
        ip := ip + 1
        stack :=
          .number (Number.ofNat arguments.length) :: callee :: (arguments.reverse ++ σ) }, s⟩ =
        setting.callValue (call position m.depth) callee arguments.length want ⟨{ m with
          ip := ip + 1
          stack := arguments.reverse ++ σ }, s⟩ := by
      cases want <;>
      simp only [callOp, execute, Op.plain, Op.counted, Op.count?, Exec.popCount, Exec.pop, bind,
        EStateM.bind, if_pos hnonneg, hback] <;>
      rfl
    exact ih.callValue arguments { m with
        ip := ip
        stack := .number (Number.ofNat arguments.length) :: callee :: (arguments.reverse ++ σ) } s
      hop hposition hexecute

theorem agreesOnCallExpr_succ (ih : setting.Agrees call functions n) :
    setting.AgreesOnCallExpr call functions (n + 1) := by
  intro places exit next ip position callee arguments want code m s hcode h
  rw [evalCallExpr]
  cases hends : endsInCall arguments with
  | true =>
    rw [callCode_of_endsInCall hends] at hcode
    subst hcode
    refine Follows.step (h.left.left.left.left.head rfl) rfl ?_
    refine (ih.values { m with marks := m.stack.length :: m.marks } s
      h.left.left.left.left.tail).bind fun values s₁ st₁ _ hend => ?_
    obtain ⟨-, rfl⟩ := hend
    refine Follows.step (h.left.left.left.right.headAt (by simp; omega) rfl)
      (assignCount_reverse_append values) ?_
    refine (ih.value { m with
      stack := .number (Number.ofNat values.length) :: (values.reverse ++ m.stack) } s₁
      (h.left.left.right.moved (by simp; omega))).bind fun f s₂ st₂ _ hst => ?_
    subst hst
    refine Follows.step (h.left.right.headAt (by simp; omega) rfl) rfl ?_
    refine (follows_callOp ih (m := m) (h.right.headAt (by simp; omega)
      (isFinal_callOp want position))).imp fun results s₃ st₃ _ hst => hst.trans ?_
    exact state_at (by simp; omega)
  | false =>
    rw [callCode_of_not_endsInCall hends] at hcode
    subst hcode
    refine (ih.values m s h.left.left.left).bind fun values s₁ st₁ _ hend => ?_
    obtain ⟨hlength, rfl⟩ := hend
    refine (ih.value { m with stack := values.reverse ++ m.stack } s₁ h.left.left.right).bind
      fun f s₂ st₂ _ hst => ?_
    subst hst
    refine Follows.step (h.left.right.headAt (by simp; omega) rfl) rfl ?_
    rw [← hlength hends]
    refine (follows_callOp ih (m := m) (h.right.headAt (by simp; omega)
      (isFinal_callOp want position))).imp fun results s₃ st₃ _ hst => hst.trans ?_
    exact state_at (by simp; omega)

/-! ### Several expressions -/

theorem evalValues_cons {w : World} {c : Context} {next : Nat} {e : Expr} {rest : List Expr}
    (h : rest ≠ [] ∨ e.isCall = false) :
    evalValues w (n + 1) c next (e :: rest) = (do
      let first ← evalExpr w n c next e
      let others ← evalValues w n c (next + e.functions.length) rest
      pure (first :: others)) := by
  rw [evalValues]
  rintro position callee arguments rfl rfl
  simp [Expr.isCall] at h

/-- Expressions of which the first one is not a call at the end. -/
theorem follows_values_cons (ih : setting.Agrees call functions n) {next : Nat} {e : Expr}
    {rest : List Expr} (hcons : rest ≠ [] ∨ e.isCall = false)
    (h : setting.program.Holds places exit ip (valuesCode (e :: rest) next).1) :
    setting.Follows call ⟨{ m with ip := ip }, s⟩
      (evalValues (setting.world call functions) (n + 1) (m.context places) next (e :: rest) s)
      fun values s' st' =>
        (endsInCall (e :: rest) = false → values.length = (e :: rest).length) ∧
        st' = ⟨{ m with
          ip := ip + (valuesCode (e :: rest) next).1.length
          stack := values.reverse ++ m.stack }, s'⟩ := by
  rw [valuesCode_cons hcons] at h ⊢
  simp only [Gen.fst_bind, Gen.fst_pure, Expr.bodies_code, length_functionCodes] at h ⊢
  rw [evalValues_cons hcons, endsInCall_cons hcons]
  refine (ih.value m s h.left).bind fun first s₁ st₁ _ hst => ?_
  subst hst
  refine (ih.values { m with stack := first :: m.stack } s₁ h.right).bind
    fun others s₂ st₂ _ ⟨hlength, hst⟩ => .pure ⟨fun hends => ?_, hst.trans ?_⟩
  · rw [List.length_cons, List.length_cons, hlength hends]
  · rw [List.reverse_cons, List.append_assoc]
    exact state_at (by simp; omega)

theorem agreesOnValues_succ (ih : setting.Agrees call functions n) :
    setting.AgreesOnValues call functions (n + 1) := by
  intro places exit next ip es m s h
  rcases es with _ | ⟨e, _ | ⟨f, rest⟩⟩
  · simp only [valuesCode, evalValues]
    exact .pure ⟨fun _ => rfl, rfl⟩
  · cases e with
    | call position callee arguments =>
      simp only [valuesCode, Gen.fst_bind, Gen.fst_pure, bodies_valuesCode, length_functionCodes,
        evalValues] at h ⊢
      exact (ih.callExpr m s rfl h).imp fun results s' st' _ hst => ⟨by rintro ⟨⟩, hst⟩
    | _ => exact follows_values_cons ih (.inr rfl) h
  · exact follows_values_cons ih (.inl (List.cons_ne_nil f rest)) h

theorem agreesOnEntries_succ (ih : setting.Agrees call functions n) :
    setting.AgreesOnEntries call functions (n + 1) := by
  intro places exit next ip es m s h
  rcases es with _ | ⟨⟨key, value⟩, rest⟩
  · simp only [entriesCode, evalEntries]
    exact .pure ⟨rfl, rfl⟩
  · simp only [entriesCode, Gen.fst_bind, Gen.fst_pure, bodies_entriesCode, Expr.bodies_code,
      length_functionCodes, evalEntries] at h ⊢
    refine (ih.entries m s h.left.left).bind fun others s₁ st₁ _ hend => ?_
    obtain ⟨hlength, rfl⟩ := hend
    refine (ih.value { m with stack := stackedPairs others ++ m.stack } s₁ h.left.right).bind
      fun v s₂ st₂ _ hst => ?_
    subst hst
    refine (ih.value { m with stack := v :: (stackedPairs others ++ m.stack) } s₂
      (h.right.moved (by simp; omega))).bind fun k s₃ st₃ _ hst => .pure ⟨?_, hst.trans ?_⟩
    · rw [List.length_cons, List.length_cons, hlength]
    · exact state_at (by simp; omega)

end ScriptEngine.Setting
