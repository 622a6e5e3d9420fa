import ScriptEngine.Proofs.Compilation.Blocks

/-!
# Loops

Code and evaluation agree on loops.  Inside of a loop the code is that of a loop
whose end is known (`Program.holds_resolveBreaks`); a pass that ends in the
ordinary way jumps back to where the loop began, where the next pass is nested
less deeply in the evaluation.

## Main results

* `Setting.follows_whileLoop`, `Setting.follows_repeatLoop` — loops with a
  condition.
* `Setting.agreesOnCounting_succ`, `Setting.agreesOnIterating_succ` — the passes
  of loops that count, and of loops over an iterator.
-/

namespace ScriptEngine.Setting

variable {setting : Setting} {call : Position → Nat → Reentry} {functions : FunctionTable}
  {n : Nat} {places : List Nat} {exit k : Option Nat} {keep : Bool} {next ip : Nat} {m : Machine}
  {s : Store}

/-! ### Loops with a condition -/

section JumpBack

variable {α : Type} {r : EStateM.Result Stop Store α} {post : α → Store → State → Prop}
  {ip' : Nat} {position : Position} {code : Code}

/-- The jump back to the beginning of a loop. -/
theorem follows_jumpBack (ip : Nat)
    (hop : setting.program.code[ip']? = some (jumpBack position code))
    (hip : ip' = ip + code.length) (h : setting.Follows call ⟨{ m with ip := ip }, s⟩ r post) :
    setting.Follows call ⟨{ m with ip := ip' }, s⟩ r post :=
  follows_jump ip hop (by omega) h

/-- The jump back to the beginning of a loop unless a value counts as true. -/
theorem follows_jumpBackUnless (ip : Nat) {v : Value} {σ : List Value}
    (hop : setting.program.code[ip']? =
      some (.jumping .jumpIfNot (-(code.length + 1 : Nat)) position))
    (hip : ip' = ip + code.length)
    (h : setting.Follows call
      ⟨{ m with ip := if v.isTruthy = false then ip else ip' + 1, stack := σ }, s⟩ r post) :
    setting.Follows call ⟨{ m with ip := ip', stack := v :: σ }, s⟩ r post :=
  follows_jumpWhen false ip hop (by omega) h

end JumpBack

theorem follows_whileLoop (ih : setting.Agrees call functions n) {position : Position}
    {condition : Expr} {body : List Stat} (hgrounded : m.Grounded)
    (h : setting.program.Holds places exit ip
      ((Stat.whileLoop position condition body).code k keep next).1) :
    setting.Follows call ⟨{ m with ip := ip }, s⟩
      (evalStat (setting.world call functions) (n + 1) (m.context places) next keep
        (.whileLoop position condition body) s)
      (setting.Ended m exit k keep
        (ip + ((Stat.whileLoop position condition body).code k keep next).1.length)) := by
  have hwhole := h
  simp only [Stat.code, Gen.fst_bind, Gen.fst_pure, bodies_chunkCode, length_functionCodes,
    Program.length_resolveBreaks, evalStat] at h ⊢
  have hloop := Program.holds_resolveBreaks h rfl
  refine (ih.expr m s hloop.left.left).bind fun v s₁ st₁ _ hst => ?_
  subst hst
  cases hv : v.isTruthy with
  | false =>
    simp only [Target.arrive, hv, Bool.false_eq_true, if_false, if_true]
    exact .pure ⟨fun _ => rfl, state_at (by simp; omega)⟩
  | true =>
    simp only [Target.arrive, hv, Bool.true_eq_false, if_false, if_true]
    refine (ih.plainBlock m s₁ hgrounded (show Program.Holds _ _ _ _ (inScope position
      (chunkCode ((some 0).map (· + 1)) false body next).1) from hloop.left.right)).bind
        fun outcome s₂ st₂ _ hended => ?_
    cases outcome with
    | next kept =>
      obtain ⟨hkept, rfl⟩ := hended
      obtain rfl := hkept rfl
      refine follows_jumpBack ip (hloop.right.headAt (by simp; omega) rfl) (by simp; omega) ?_
      refine (ih.stat m s₂ hgrounded hwhole).imp fun outcome s₃ st₃ _ hended => ?_
      simpa only [Stat.code, Gen.fst_bind, Gen.fst_pure, bodies_chunkCode, length_functionCodes,
        Program.length_resolveBreaks] using hended
    | leave => exact .pure ⟨fun _ => rfl, hended _ rfl _ rfl⟩
    | result values => exact .pure hended

theorem follows_repeatLoop (ih : setting.Agrees call functions n) {position : Position}
    {condition : Expr} {body : List Stat} (hgrounded : m.Grounded)
    (h : setting.program.Holds places exit ip
      ((Stat.repeatLoop position body condition).code k keep next).1) :
    setting.Follows call ⟨{ m with ip := ip }, s⟩
      (evalStat (setting.world call functions) (n + 1) (m.context places) next keep
        (.repeatLoop position body condition) s)
      (setting.Ended m exit k keep
        (ip + ((Stat.repeatLoop position body condition).code k keep next).1.length)) := by
  have hwhole := h
  simp only [Stat.code, Gen.fst_bind, Gen.fst_pure, bodies_chunkCode, length_functionCodes,
    Program.length_resolveBreaks, evalStat] at h ⊢
  have hloop := Program.holds_resolveBreaks h rfl
  have hround := hloop.left.left
  refine Follows.step (hround.head rfl) rfl (.ok_bind rfl ?_)
  refine (ih.chunk { m with scopes := s.newScope.1 :: m.scopes } s.newScope.2
    (grounded_push hgrounded [] m.ip _) hround.tail.left).bind fun outcome s₁ st₁ _ hended => ?_
  cases outcome with
  | next kept =>
    obtain ⟨hkept, rfl⟩ := hended
    obtain rfl := hkept rfl
    refine (ih.value { m with scopes := s.newScope.1 :: m.scopes } s₁ hround.tail.right).bind
      fun v s₂ st₂ _ hst => ?_
    subst hst
    refine Follows.step (hloop.left.right.headAt (by simp; omega) rfl) rfl ?_
    refine follows_jumpBackUnless ip (m := m) (hloop.right.headAt (by simp [inScope]; omega) rfl)
      (by simp [inScope]; omega) ?_
    cases v.isTruthy with
    | true => exact .pure ⟨fun _ => rfl, state_at (by simp [inScope]; omega)⟩
    | false =>
      refine (ih.stat m s₂ hgrounded hwhole).imp fun outcome s₃ st₃ _ hended => ?_
      simpa only [Stat.code, Gen.fst_bind, Gen.fst_pure, bodies_chunkCode, length_functionCodes,
        Program.length_resolveBreaks] using hended
  | leave => exact .pure ⟨fun _ => rfl, hended _ rfl _ rfl⟩
  | result values =>
    refine .pure (hended.trans ?_)
    rw [← returned_of_grounded hgrounded values [] m.ip (s.newScope.1 :: m.scopes)]
    rfl

/-! ### Loops that count -/

/-- The variable of a loop that counts gets the counter on top of the stack. -/
theorem introduces_counter {counter : Identifier} {v : Value} {σ : List Value}
    (hstack : m.stack = v :: σ)
    (h : setting.program.Holds places exit ip
      (.plain .dup counter.position :: bindLocal counter.name counter.position)) :
    setting.Introduces call places ip
      (.plain .dup counter.position :: bindLocal counter.name counter.position) [counter] [v]
      m.stack m := by
  intro scope s
  have hdup : setting.execute (call counter.position m.depth) (.plain .dup counter.position)
      ⟨{ m with ip := ip + 1, scopes := scope :: m.scopes }, s⟩ =
      .ok () ⟨{ m with
        ip := ip + 1
        stack := v :: m.stack
        scopes := scope :: m.scopes }, s⟩ := by
    simp only [execute, Op.plain, Exec.machine, bind, EStateM.bind, hstack]
    rfl
  exact Follows.step (h.head rfl) hdup (.ok_bind rfl
    (follows_bindLocal (m := { m with scopes := scope :: m.scopes }) h.tail))

theorem agreesOnCounting_succ (ih : setting.Agrees call functions n) :
    setting.AgreesOnCounting call functions (n + 1) := by
  intro places exit k next ip x counter stop step body v round m s hgrounded hround hx h
  have hparts := h.left
  rw [hround] at hparts
  rw [evalCounting]
  -- The test.
  refine Follows.step (hparts.left.left.left.left.head rfl) rfl ?_
  refine (ih.value { m with stack := v :: v :: m.stack } s hparts.left.left.left.left.tail).bind
    fun limit s₁ st₁ _ hst => ?_
  subst hst
  refine Follows.step (hparts.left.left.left.right.headAt (by simp; omega) rfl) rfl ?_
  refine .ok_bind rfl ?_
  have hlength : round.length =
      (stop.code .value (next + (chunkFunctions body).length + step.functions.length)).1.length
        + (chunkCode (some 1) false body next).1.length
        + (step.code .value (next + (chunkFunctions body).length)).1.length + 9 := by
    rw [hround]
    simp [countingRound, inScope, bindLocal]
    omega
  refine follows_jumpWhen (m := m) false x
    (hparts.left.left.left.right.tail.headAt (by simp; omega) rfl)
    (by simp [inScope, bindLocal]; omega) ?_
  dsimp only
  by_cases hequal : s₁.equal limit v = true
  · rw [if_pos hequal, hequal]
    exact Follows.step (m := { m with ip := x, stack := v :: m.stack })
      (h.right.tail.headAt (by simp; omega) rfl) rfl (.pure ⟨fun _ => rfl, rfl⟩)
  · rw [if_neg hequal, Bool.eq_false_iff.2 hequal]
    simp only [Value.isTruthy, Bool.not_false, Bool.true_eq_false, if_false]
    have hpass := hparts.left.left.right
    refine (ih.block { m with stack := v :: m.stack } s₁
      (grounded_push hgrounded [v] m.ip m.scopes)
      (introduces_counter rfl (hpass.left.tail.left.moved ?_))
      (show Program.Holds _ _ _ _ (inScope _ (_ ++ (chunkCode ((some 0).map (· + 1)) false body
        next).1)) from hpass.moved ?_)).bind fun outcome s₂ st₂ _ hended => ?_
    · simp; omega
    · simp; omega
    cases outcome with
    | next kept =>
      obtain ⟨hkept, rfl⟩ := hended
      obtain rfl := hkept rfl
      refine (ih.value { m with stack := v :: m.stack } s₂
        (hparts.left.right.moved (by simp [inScope, bindLocal]; omega))).bind
        fun distance s₃ st₃ _ hst => ?_
      subst hst
      have hadd : setting.Follows call ⟨{ m with
            ip := ip + round.length - 1
            stack := distance :: v :: m.stack }, s₃⟩
          (Eval.located counter.position (distance.arith .add v) s₃) fun v' s' st' =>
            st' = ⟨{ m with ip := ip + round.length, stack := v' :: m.stack }, s'⟩ :=
        follows_operator (hparts.right.headAt (by simp [inScope, bindLocal]; omega) rfl) rfl rfl
          fun v' => state_at (by simp; omega)
      have hip : ip + round.length - 1 = ip + 1
          + (stop.code .value
              (next + (chunkFunctions body).length + step.functions.length)).1.length
          + 1 + 1 + (inScope counter.position
            ((.plain .dup counter.position :: bindLocal counter.name counter.position)
              ++ (chunkCode (some 1) false body next).1)).length
          + (step.code .value (next + (chunkFunctions body).length)).1.length := by
        simp [inScope, bindLocal]
        omega
      rw [hip] at hadd
      refine hadd.bind fun v' s₄ st₄ _ hst => ?_
      subst hst
      exact follows_jumpBack ip (m := { m with stack := v' :: m.stack }) (h.right.head rfl) rfl
        (ih.counting m s₄ hgrounded hround hx h)
    | leave =>
      rw [hended x rfl 0 rfl]
      exact Follows.step (h.right.tail.headAt (by simp; omega) rfl) rfl (.pure ⟨fun _ => rfl, rfl⟩)
    | result values =>
      refine .pure (hended.trans ?_)
      rw [← returned_of_grounded hgrounded values [v] m.ip m.scopes]
      rfl

/-! ### Loops over an iterator -/

section Iterator

variable {reenter : Reentry} {position : Position} {σ results : List Value} {marks : List Nat}

/-- The end of a loop over an iterator. -/
theorem iterJumpIfDone_of_isNil {offset : Int} (target : Nat)
    (hdone : (results.headD .nil).isNil = true) (htarget : (ip : Int) + offset = target) :
    iterJumpIfDone offset
      ⟨{ m with ip := ip, stack := results.reverse ++ σ, marks := σ.length :: marks }, s⟩ =
      .ok () ⟨{ m with ip := target, stack := σ, marks := marks }, s⟩ := by
  simp only [iterJumpIfDone, Exec.machine, bind, EStateM.bind, Stack.above_reverse_append, hdone,
    if_true, Exec.modifyMachine, Stack.cutTo_length_append]
  exact jump_eq (m := { m with ip := ip, stack := σ, marks := marks }) htarget

theorem iterJumpIfDone_of_not_isNil {offset : Int}
    (hdone : ¬ (results.headD .nil).isNil = true) :
    iterJumpIfDone offset
      ⟨{ m with ip := ip, stack := results.reverse ++ σ, marks := σ.length :: marks }, s⟩ =
      .ok ()
        ⟨{ m with ip := ip, stack := results.reverse ++ σ, marks := σ.length :: marks }, s⟩ := by
  simp only [iterJumpIfDone, Exec.machine, bind, EStateM.bind, Stack.above_reverse_append,
    if_neg hdone]
  rfl

/-- The control value of a loop over an iterator becomes the first result. -/
theorem iterUpdateState_reverse_append {count : Nat} (hcount : 0 < count) (control : Value) :
    iterUpdateState count
      ⟨{ m with ip := ip, stack := (adjust count results).reverse ++ control :: σ }, s⟩ =
      .ok () ⟨{ m with
        ip := ip
        stack := (adjust count results).reverse ++ results.headD .nil :: σ }, s⟩ := by
  obtain ⟨count, rfl⟩ := Nat.exists_eq_add_one_of_ne_zero (Nat.ne_of_gt hcount)
  have hrequire := require_of_le
    (m := { m with ip := ip, stack := (adjust (count + 1) results).reverse ++ control :: σ })
    (s := s) (n := count + 1 + 1) (by simp)
  have hfirst : ((adjust (count + 1) results).reverse ++ control :: σ).getD (count + 1 - 1) .nil =
      results.headD .nil := by
    rw [adjust_succ, List.reverse_cons, List.append_assoc, List.getD_eq_getElem?_getD,
      List.getElem?_append_right (by simp)]
    simp
  have hset : ((adjust (count + 1) results).reverse ++ control :: σ).set (count + 1)
      (results.headD .nil) = (adjust (count + 1) results).reverse ++ results.headD .nil :: σ := by
    rw [List.set_append_right _ _ (by simp)]
    simp
  simp only [iterUpdateState, bind, EStateM.bind, hrequire, Exec.modifyStack, Exec.modifyMachine,
    hfirst, hset]

/-- The variables of a loop over an iterator get the results on top of the stack. -/
theorem introduces_results {names : List Identifier}
    (h : setting.program.Holds places exit ip (bindLocals names)) :
    setting.Introduces call places ip (bindLocals names) names results
      ((adjust names.length results).reverse ++ m.stack) m := fun scope _ =>
  follows_bindLocals (m := { m with scopes := scope :: m.scopes }) h

end Iterator

theorem agreesOnIterating_succ (ih : setting.Agrees call functions n) :
    setting.AgreesOnIterating call functions (n + 1) := by
  intro places exit k next ip x position names body iterator state control round m s hgrounded
    hnames hround hx h
  have hparts := h.left
  rw [hround] at hparts
  have hlength : round.length = (bindLocals names).length
      + (chunkCode (some 1) false body next).1.length + 7 := by
    rw [hround]
    simp [iteratingRound, inScope]
    omega
  rw [evalIterating]
  refine Follows.step (hparts.left.head rfl) rfl ?_
  refine (ih.callValue [state, control] { m with
    ip := ip + 1
    stack := control :: state :: iterator :: m.stack
    marks := (control :: state :: iterator :: m.stack).length :: m.marks } s
    (hparts.left.tail.head rfl) rfl rfl).bind fun results s₁ st₁ _ hst => ?_
  subst hst
  have hjump := hparts.left.tail.tail.head rfl
  by_cases hdone : (results.headD .nil).isNil = true
  · rw [if_pos hdone]
    refine Follows.step hjump (iterJumpIfDone_of_isNil x hdone ?_) ?_
    · simp [inScope, Op.jumping, Op.offset]
      omega
    · exact Follows.step (h.right.tail.headAt (by simp; omega) rfl) rfl (.pure ⟨fun _ => rfl, rfl⟩)
  · rw [if_neg hdone]
    refine Follows.step hjump (iterJumpIfDone_of_not_isNil hdone) ?_
    refine Follows.step (hparts.left.tail.tail.tail.head rfl)
      (assignSet_reverse_append names.length results) ?_
    refine Follows.step (hparts.left.tail.tail.tail.tail.head rfl)
      (iterUpdateState_reverse_append (List.length_pos_iff.2 hnames) control) ?_
    have hpass := hparts.right
    refine (ih.block { m with stack := results.headD .nil :: state :: iterator :: m.stack } s₁
      (grounded_push hgrounded [_, _, _] m.ip m.scopes) (introduces_results hpass.left.tail.left)
      (show Program.Holds _ _ _ _ (inScope _ (_ ++ (chunkCode ((some 0).map (· + 1)) false body
        next).1)) from hpass)).bind fun outcome s₂ st₂ _ hended => ?_
    cases outcome with
    | next kept =>
      obtain ⟨hkept, rfl⟩ := hended
      obtain rfl := hkept rfl
      exact follows_jumpBack ip
        (m := { m with stack := results.headD .nil :: state :: iterator :: m.stack })
        (h.right.headAt (by simp [inScope]; omega) rfl) (by simp [inScope]; omega)
        (ih.iterating m s₂ hgrounded hnames hround hx h)
    | leave =>
      rw [hended x rfl 0 rfl]
      exact Follows.step (h.right.tail.headAt (by simp; omega) rfl) rfl (.pure ⟨fun _ => rfl, rfl⟩)
    | result values =>
      refine .pure (hended.trans ?_)
      rw [← returned_of_grounded hgrounded values
        [results.headD .nil, state, iterator] m.ip m.scopes]
      rfl

end ScriptEngine.Setting
