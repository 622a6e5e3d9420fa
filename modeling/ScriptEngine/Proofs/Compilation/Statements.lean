import ScriptEngine.Proofs.Compilation.Calls
import ScriptEngine.Proofs.Compilation.Loops

/-!
# Statements

Code and evaluation agree on statements, and with this on everything.

## Main results

* `Setting.agreesOnStat_succ` — one level of nesting more.
* `Setting.agrees` — **code and evaluation agree**, by induction on the depth of
  the evaluation.
-/

namespace ScriptEngine.Setting

variable {setting : Setting} {call : Position → Nat → Reentry} {functions : FunctionTable}
  {n : Nat} {places : List Nat} {exit k : Option Nat} {keep : Bool} {next ip : Nat} {m : Machine}
  {s : Store}

/-! ### Declarations -/

/-- Code that declares variables without a value. -/
theorem follows_declareAll {names : List Identifier}
    (h : setting.program.Holds places exit ip
      (names.map fun name => .named .makeLocal name.name name.position)) :
    setting.Follows call ⟨{ m with ip := ip }, s⟩ (declareAll (m.context places) names s)
      fun _ s' st' => st' = ⟨{ m with ip := ip + names.length }, s'⟩ := by
  induction names generalizing ip s with
  | nil => exact .pure rfl
  | cons name rest ih =>
    by_cases hnil : m.scopes = []
    · simp only [declareAll, Machine.context, hnil]
      trivial
    · obtain ⟨scope, scopes, hscopes⟩ := List.exists_cons_of_ne_nil hnil
      have hexecute : setting.execute (call name.position m.depth)
          (.named .makeLocal name.name name.position) ⟨{ m with ip := ip + 1 }, s⟩ =
          .ok () ⟨{ m with ip := ip + 1 }, s.declare scope name.name .nil⟩ := by
        simp only [execute, Op.named, Exec.machine, bind, EStateM.bind, hscopes]
        rfl
      have hdeclare : declareAll (m.context places) (name :: rest) s =
          declareAll (m.context places) rest (s.declare scope name.name .nil) := by
        simp only [declareAll, Machine.context, hscopes]
        rfl
      rw [hdeclare]
      refine Follows.step (h.head rfl) hexecute ((ih h.tail).imp fun _ s' st' _ hst => hst.trans ?_)
      rw [List.length_cons, Nat.add_assoc, Nat.add_comm 1]

/-! ### Assignments -/

/-- An assignment of one value to one target needs no mark. -/
theorem length_eq_of_isSingle {targets values : List Expr} (h : isSingle targets values = true) :
    targets.length = values.length ∧ endsInCall values = false := by
  rcases values with _ | ⟨e, _ | ⟨f, rest⟩⟩
  · simp [isSingle] at h
  · simpa [isSingle, endsInCall] using h
  · simp [isSingle] at h

theorem follows_assignment (ih : setting.Agrees call functions n) {position : Position}
    {isLocal : Bool} {targets values : List Expr}
    (h : setting.program.Holds places exit ip
      ((Stat.assignment position isLocal targets values).code k keep next).1) :
    setting.Follows call ⟨{ m with ip := ip }, s⟩
      (evalStat (setting.world call functions) (n + 1) (m.context places) next keep
        (.assignment position isLocal targets values) s)
      (setting.Ended m exit k keep
        (ip + ((Stat.assignment position isLocal targets values).code k keep next).1.length)) := by
  simp only [Stat.code, Gen.fst_bind, Gen.fst_pure, bodies_valuesCode, length_functionCodes,
    evalStat] at h ⊢
  cases hsingle : isSingle targets values with
  | true =>
    rw [hsingle, if_pos rfl] at h
    rw [if_pos rfl]
    refine (ih.values m s h.left).bind fun vs s₁ st₁ _ hend => ?_
    obtain ⟨hlength, rfl⟩ := hend
    obtain ⟨htargets, hends⟩ := length_eq_of_isSingle hsingle
    have hcount : vs.reverse = (adjust targets.length vs).reverse := by
      rw [htargets, ← hlength hends, adjust_length]
    rw [hcount]
    refine (ih.stores m s₁ h.right).bind fun _ s₂ st₂ _ hst => .pure ⟨fun _ => rfl, ?_⟩
    exact hst.trans (state_at (by rw [List.length_append, Nat.add_assoc]))
  | false =>
    rw [hsingle, if_neg Bool.false_ne_true] at h
    rw [if_neg Bool.false_ne_true]
    refine Follows.step (h.left.left.head rfl) rfl ?_
    refine (ih.values { m with marks := m.stack.length :: m.marks } s h.left.left.tail).bind
      fun vs s₁ st₁ _ hend => ?_
    obtain ⟨-, rfl⟩ := hend
    refine Follows.step (h.left.right.headAt (by simp; omega) rfl)
      (assignSet_reverse_append targets.length vs) ?_
    refine (ih.stores m s₁ (h.right.moved (by simp; omega))).bind
      fun _ s₂ st₂ _ hst => .pure ⟨fun _ => rfl, ?_⟩
    exact hst.trans (state_at (by simp; omega))

/-! ### Returns and leaves -/

theorem follows_result (ih : setting.Agrees call functions n) {position : Position}
    {values : List Expr} (hgrounded : m.Grounded)
    (h : setting.program.Holds places exit ip ((Stat.result position values).code k keep next).1) :
    setting.Follows call ⟨{ m with ip := ip }, s⟩
      (evalStat (setting.world call functions) (n + 1) (m.context places) next keep
        (.result position values) s)
      (setting.Ended m exit k keep
        (ip + ((Stat.result position values).code k keep next).1.length)) := by
  simp only [Stat.code, Gen.fst_bind, Gen.fst_pure, evalStat] at h ⊢
  cases hends : endsInCall values with
  | true =>
    rw [hends, if_pos rfl] at h
    refine Follows.step (h.left.head rfl) rfl ?_
    refine (ih.values { m with marks := m.stack.length :: m.marks } s h.left.tail).bind
      fun vs s₁ st₁ _ hend => ?_
    obtain ⟨-, rfl⟩ := hend
    refine Follows.step (h.right.headAt (by simp; omega) rfl)
      (ret_marked _ _ _ vs m.stack m.marks) (.pure ?_)
    rw [Ended, ← returned_of_grounded hgrounded vs []]
    rfl
  | false =>
    rw [hends, if_neg Bool.false_ne_true] at h
    refine (ih.values m s h.left).bind fun vs s₁ st₁ _ hend => ?_
    obtain ⟨hlength, rfl⟩ := hend
    have hop := h.right.head rfl
    rw [← hlength hends] at hop
    refine Follows.step hop (ret_counted _ _ _ vs m.stack) (.pure ?_)
    rw [Ended, ← returned_of_grounded hgrounded vs []]
    rfl

/-- Code that closes scopes. -/
theorem reaches_endBlocks {position : Position} (j : Nat)
    (h : setting.program.Holds places exit ip
      (List.replicate j (.plain .endBlock position))) :
    setting.Reaches call ⟨{ m with ip := ip }, s⟩
      ⟨{ m with ip := ip + j, scopes := m.scopes.drop j }, s⟩ := by
  induction j generalizing ip m with
  | zero => exact .refl
  | succ j ih =>
    have hrest := ih (m := { m with scopes := m.scopes.tail }) h.tail
    refine .head (step_of_execute (m := { m with ip := ip }) (h.head rfl) rfl) ?_
    rw [← List.drop_tail, Nat.add_comm j, ← Nat.add_assoc]
    exact hrest

theorem follows_leave {position : Position}
    (h : setting.program.Holds places exit ip (leaveCode k position)) :
    setting.Follows call ⟨{ m with ip := ip }, s⟩ (.ok .leave s)
      (setting.Ended m exit k keep (ip + (leaveCode k position).length)) := by
  cases exit with
  | none => exact .pure fun x hx => nomatch hx
  | some x =>
    cases k with
    | none => exact .pure fun x hx j hj => nomatch hj
    | some j =>
      refine Follows.trans (reaches_endBlocks j h.left) ?_
      have hop := h.right.1
      rw [List.length_replicate, Option.getD_some] at hop
      refine follows_jump (m := { m with scopes := m.scopes.drop j }) x hop (by omega) (.pure ?_)
      intro y hy i hi
      obtain rfl : x = y := Option.some.inj hy
      obtain rfl : j = i := Option.some.inj hi
      rfl

/-! ### Statements -/

/-- Statements that never leave a value. -/
theorem Ended.keeping {outcome : Outcome} {st : State}
    (h : setting.Ended m exit k false ip outcome s st) :
    setting.Ended m exit k keep ip outcome s st := by
  cases outcome with
  | next kept =>
    obtain ⟨hkept, hst⟩ := h
    exact ⟨fun _ => hkept rfl, hst⟩
  | leave => exact h
  | result values => exact h

/-- An expression whose value is dropped unless it is to be kept. -/
theorem follows_expression (ih : setting.Agrees call functions n) {e : Expr}
    (h : setting.program.Holds places exit ip
      (if keep then (e.code .value next).1
        else (e.code .value next).1 ++ [.plain .pop e.position])) :
    setting.Follows call ⟨{ m with ip := ip }, s⟩
      ((do
        let v ← evalExpr (setting.world call functions) n (m.context places) next e
        pure (.next (if keep then some v else none)) : Eval Outcome) s)
      (setting.Ended m exit k keep (ip + (if keep then (e.code .value next).1
        else (e.code .value next).1 ++ [.plain .pop e.position]).length)) := by
  cases keep with
  | true =>
    refine (ih.value m s h).bind fun v s₁ st₁ _ hst => .pure ⟨fun hkeep => ?_, hst⟩
    exact absurd hkeep.symm Bool.false_ne_true
  | false =>
    refine (ih.value m s h.left).bind fun v s₁ st₁ _ hst => ?_
    subst hst
    refine Follows.step (h.right.head rfl) rfl (.pure ⟨fun _ => rfl, ?_⟩)
    exact state_at (by simp; omega)

/-- The code of a loop that counts. -/
theorem code_numericFor (counter : Identifier) (start stop : Expr) (step : Option Expr)
    (body : List Stat) (round : Code)
    (hround : round = countingRound counter.position counter.name
      (stop.code .value
        (next + (chunkFunctions body).length + (stepExpr counter step).functions.length)).1
      ((stepExpr counter step).code .value (next + (chunkFunctions body).length)).1
      (chunkCode (some 1) false body next).1) :
    ((Stat.numericFor counter start stop step body).code k keep next).1 =
      (start.code .value (next + (chunkFunctions body).length
        + (stepExpr counter step).functions.length + stop.functions.length)).1
      ++ resolveBreaks 1
        (round ++ [jumpBack counter.position round, .plain .pop counter.position]) := by
  subst hround
  cases step <;>
  simp only [Stat.code, Gen.fst_bind, Gen.fst_pure, bodies_chunkCode, Expr.bodies_code,
    length_functionCodes] <;>
  rfl

/-- A call as a statement: what it returns is dropped, or its first result kept. -/
theorem follows_callStatement (ih : setting.Agrees call functions n) {position : Position}
    {callee : Expr} {arguments : List Expr}
    (h : setting.program.Holds places exit ip
      ((Stat.expression (.call position callee arguments)).code k keep next).1) :
    setting.Follows call ⟨{ m with ip := ip }, s⟩
      (evalStat (setting.world call functions) (n + 1) (m.context places) next keep
        (.expression (.call position callee arguments)) s)
      (setting.Ended m exit k keep
        (ip +
          ((Stat.expression (.call position callee arguments)).code k keep next).1.length)) := by
  simp only [Stat.code, Gen.fst_bind, Gen.fst_pure, bodies_valuesCode, length_functionCodes,
    evalStat] at h ⊢
  refine (ih.callExpr m s rfl h).bind fun results s₁ st₁ _ hst => .pure ⟨?_, hst.trans ?_⟩
  · intro hkeep
    rw [hkeep]
    rfl
  · cases keep with
    | true => rw [if_pos rfl, if_pos rfl, adjustTo, adjust_one]; rfl
    | false =>
      rw [if_neg Bool.false_ne_true, if_neg Bool.false_ne_true, adjustTo, adjust_zero]
      rfl

/-- A local function is declared before it is made, so that it can call itself. -/
theorem follows_localFunction (ih : setting.Agrees call functions n) {name : Identifier}
    {function : Expr}
    (h : setting.program.Holds places exit ip
      ((Stat.localFunction name function).code k keep next).1) :
    setting.Follows call ⟨{ m with ip := ip }, s⟩
      (evalStat (setting.world call functions) (n + 1) (m.context places) next keep
        (.localFunction name function) s)
      (setting.Ended m exit k keep
        (ip + ((Stat.localFunction name function).code k keep next).1.length)) := by
  simp only [Stat.code, Gen.fst_bind, Gen.fst_pure, evalStat] at h ⊢
  have hname : setting.program.Holds places exit ip
      ([name].map fun name => .named .makeLocal name.name name.position) := ⟨h.left.1, trivial⟩
  refine (follows_declareAll hname).bind fun _ s₁ st₁ _ hst => ?_
  subst hst
  refine (ih.value m s₁ h.left.tail).bind fun v s₂ st₂ _ hst => ?_
  subst hst
  refine Follows.step (h.right.headAt (by simp; omega) rfl) rfl (.ok_bind rfl (.pure ?_))
  exact ⟨fun _ => rfl, state_at (by simp; omega)⟩

theorem follows_numericFor (ih : setting.Agrees call functions n) {counter : Identifier}
    {start stop : Expr} {step : Option Expr} {body : List Stat} (hgrounded : m.Grounded)
    (h : setting.program.Holds places exit ip
      ((Stat.numericFor counter start stop step body).code k keep next).1) :
    setting.Follows call ⟨{ m with ip := ip }, s⟩
      (evalStat (setting.world call functions) (n + 1) (m.context places) next keep
        (.numericFor counter start stop step body) s)
      (setting.Ended m exit k keep
        (ip + ((Stat.numericFor counter start stop step body).code k keep next).1.length)) := by
  rw [code_numericFor counter start stop step body _ rfl] at h ⊢
  rw [evalStat]
  refine (ih.value m s h.left).bind fun v s₁ st₁ _ hst => ?_
  subst hst
  refine (ih.counting m s₁ hgrounded rfl rfl (Program.holds_resolveBreaks h.right ?_)).imp
    fun outcome s₂ st₂ _ hended => hended.keeping.moved ?_
  · simp only [List.length_append, List.length_cons, List.length_nil]
    omega
  · simp only [List.length_append, List.length_cons, List.length_nil,
      Program.length_resolveBreaks]
    omega

theorem follows_genericFor (ih : setting.Agrees call functions n) {position : Position}
    {names : List Identifier} {iterators : List Expr} {body : List Stat} (hgrounded : m.Grounded)
    (h : setting.program.Holds places exit ip
      ((Stat.genericFor position names iterators body).code k keep next).1) :
    setting.Follows call ⟨{ m with ip := ip }, s⟩
      (evalStat (setting.world call functions) (n + 1) (m.context places) next keep
        (.genericFor position names iterators body) s)
      (setting.Ended m exit k keep
        (ip + ((Stat.genericFor position names iterators body).code k keep next).1.length)) := by
  cases names with
  | nil =>
    rw [evalStat]
    trivial
  | cons name rest =>
    simp only [Stat.code, Gen.fst_bind, Gen.fst_pure, bodies_chunkCode, length_functionCodes,
      evalStat] at h ⊢
    refine Follows.step (h.left.left.head rfl) rfl ?_
    refine (ih.values { m with marks := m.stack.length :: m.marks } s h.left.left.tail).bind
      fun vs s₁ st₁ _ hend => ?_
    obtain ⟨-, rfl⟩ := hend
    refine Follows.step (h.left.right.headAt (by simp; omega) rfl)
      (assignSet_reverse_append 3 vs) ?_
    have hthree : (adjust 3 vs).reverse = [vs.tail.tail.headD .nil, vs.tail.headD .nil,
        vs.headD .nil] := by
      rw [adjust_succ, adjust_succ, adjust_one]
      rfl
    rw [hthree]
    have hloop := h.right.moved (show ip + 1 + (valuesCode iterators
      (next + (chunkFunctions body).length)).1.length + 1 = _ by simp; omega)
    refine (ih.iterating m s₁ hgrounded (List.cons_ne_nil name rest) rfl rfl
      (Program.holds_resolveBreaks hloop ?_)).imp fun outcome s₂ st₂ _ hended =>
        hended.keeping.moved ?_
    · simp [iteratingRound]
      omega
    · simp [iteratorLoop, iteratingRound]
      omega

theorem agreesOnStat_succ (ih : setting.Agrees call functions n) :
    setting.AgreesOnStat call functions (n + 1) := by
  intro places exit k keep next ip stat m s hgrounded h
  cases stat with
  | expression e =>
    cases e with
    | call position callee arguments => exact follows_callStatement ih h
    | _ =>
      simp only [Stat.code, Gen.fst_bind, Gen.fst_pure, evalStat] at h ⊢
      exact follows_expression ih h
  | assignment position isLocal targets values => exact follows_assignment ih h
  | declaration names =>
    simp only [Stat.code, Gen.fst_pure, evalStat] at h ⊢
    refine (follows_declareAll h).bind fun _ s₁ st₁ _ hst => .pure ⟨fun _ => rfl, hst.trans ?_⟩
    rw [List.length_map]
    rfl
  | localFunction name function => exact follows_localFunction ih h
  | conditional position branches otherwise =>
    have hcode : (Stat.conditional position branches otherwise).code k keep =
        branchesCode k position (lastBranch k position otherwise) branches := by
      cases otherwise <;> rfl
    rw [hcode] at h ⊢
    rw [evalStat]
    exact (ih.branches m s hgrounded h).imp fun outcome s₁ st₁ _ hended => hended.keeping
  | whileLoop position condition body => exact follows_whileLoop ih hgrounded h
  | numericFor counter start stop step body => exact follows_numericFor ih hgrounded h
  | genericFor position names iterators body => exact follows_genericFor ih hgrounded h
  | repeatLoop position body condition => exact follows_repeatLoop ih hgrounded h
  | block body =>
    simp only [Stat.code, Gen.fst_bind, Gen.fst_pure, evalStat] at h ⊢
    exact (ih.plainBlock m s hgrounded h).imp fun outcome s₁ st₁ _ hended => hended.keeping
  | result position values => exact follows_result ih hgrounded h
  | leave position =>
    simp only [Stat.code, Gen.fst_pure, evalStat] at h ⊢
    exact follows_leave h

/-! ### All syntax -/

/-- An evaluation without any depth is undecided, and says nothing. -/
theorem agrees_zero : setting.Agrees call functions 0 := by
  constructor <;>
  simp only [AgreesOnExpr, AgreesOnCallExpr, AgreesOnValues, AgreesOnEntries, AgreesOnCall,
    AgreesOnStores, AgreesOnBlock, AgreesOnBranches, AgreesOnCounting, AgreesOnIterating,
    AgreesOnStat, AgreesOnChunk, evalExpr, evalCallExpr, evalValues, evalEntries, evalCall,
    evalStores, evalBlock, evalBranches, evalCounting, evalIterating, evalStat, evalChunk] <;>
  intros <;>
  exact Follows.undecided

/-- **Code and evaluation agree** where functions have their code. -/
theorem agrees (hfunctions : ∀ entry f, functions.lookup entry = some f →
    setting.program.HoldsFunction entry f) (n : Nat) : setting.Agrees call functions n := by
  induction n with
  | zero => exact agrees_zero
  | succ n ih =>
    exact {
      expr := agreesOnExpr_succ ih
      callExpr := agreesOnCallExpr_succ ih
      values := agreesOnValues_succ ih
      entries := agreesOnEntries_succ ih
      callValue := agreesOnCall_succ ih hfunctions
      stores := agreesOnStores_succ ih
      block := agreesOnBlock_succ ih
      branches := agreesOnBranches_succ ih
      counting := agreesOnCounting_succ ih
      iterating := agreesOnIterating_succ ih
      stat := agreesOnStat_succ ih
      chunk := agreesOnChunk_succ ih }

end ScriptEngine.Setting
