import ScriptEngine.Proofs.Compilation.Instructions

/-!
# Calls

Calling a value is what its evaluation says: a native function runs on the store,
and a script function runs in a frame of its own, behind which nothing but its
results is left.

## Main results

* `Setting.returned_callee` — the machine behind a call is the machine before it,
  with the results in the place of the arguments.
* `Setting.agreesOnCall_succ` — calls agree if the bodies of functions do.
-/

namespace ScriptEngine.Setting

variable {setting : Setting} {call : Position → Nat → Reentry} {functions : FunctionTable}
  {n : Nat} {m : Machine} {s : Store} {reenter : Reentry} {ip : Nat} {want : Option Nat}
  {arguments σ : List Value}

/-! ### Calling -/

/-- Calling a native function whose arguments are on the stack. -/
theorem callValue_native (f : Native) :
    setting.callValue reenter (.native f) arguments.length want
      ⟨{ m with ip := ip, stack := arguments.reverse ++ σ }, s⟩ =
      match setting.natives f.body reenter arguments s with
      | .ok results s' =>
        .ok () ⟨{ m with ip := ip, stack := (adjustTo want results).reverse ++ σ }, s'⟩
      | .error e s' => .error e ⟨{ m with ip := ip, stack := σ }, s'⟩ := by
  have hrequire := require_of_le (m := { m with ip := ip, stack := arguments.reverse ++ σ })
    (s := s) (n := arguments.length) (by rw [List.length_append, List.length_reverse]; omega)
  have htake : ((arguments.reverse ++ σ).take arguments.length).reverse = arguments := by
    rw [← List.length_reverse, List.take_left, List.reverse_reverse]
  have hdrop : (arguments.reverse ++ σ).drop arguments.length = σ := by
    rw [← List.length_reverse, List.drop_left]
  simp only [callValue, bind, EStateM.bind, hrequire, Exec.machine, Exec.modifyStack,
    Exec.modifyMachine, runNative, htake, hdrop]
  cases setting.natives f.body reenter arguments s <;> rfl

/-- The frame that a call saves. -/
def callFrame (m : Machine) (ip : Nat) (want : Option Nat) (σ : List Value) : Frame :=
  ⟨ip, σ.length, want, m.scopes, m.captured, m.marks.length⟩

/-- The machine inside of a call, with nothing above what lies below the arguments. -/
def callee (m : Machine) (ip : Nat) (want : Option Nat) (σ : List Value) (scope : ScopeRef)
    (captured : List ScopeRef) : Machine :=
  { m with
    stack := σ
    scopes := [scope]
    captured := captured
    frames := callFrame m ip want σ :: m.frames }

/-- Calling a script function whose arguments are on the stack. -/
theorem callValue_function (entry : Nat) (captured : List ScopeRef)
    (hdepth : ¬ setting.config.maxCallDepth ≤ m.depth) :
    setting.callValue reenter (.function entry captured) arguments.length want
      ⟨{ m with ip := ip, stack := arguments.reverse ++ σ }, s⟩ =
      .ok () ⟨{ callee m ip want σ s.newScope.1 captured with
        ip := entry
        stack := .number (Number.ofNat arguments.length) :: (arguments.reverse ++ σ) },
        s.newScope.2⟩ := by
  have hrequire := require_of_le (m := { m with ip := ip, stack := arguments.reverse ++ σ })
    (s := s) (n := arguments.length) (by rw [List.length_append, List.length_reverse]; omega)
  have hbase : (arguments.reverse ++ σ).length - arguments.length = σ.length := by
    rw [List.length_append, List.length_reverse, Nat.add_sub_cancel_left]
  have hdepth' : ¬ setting.config.maxCallDepth ≤
      Machine.depth { m with ip := ip, stack := arguments.reverse ++ σ } := hdepth
  simp only [callValue, bind, EStateM.bind, hrequire, Exec.machine, if_neg hdepth',
    enterFunction, hbase]
  rfl

/-- Calling a script function where no more calls may be open. -/
theorem callValue_function_of_le (entry : Nat) (captured : List ScopeRef)
    (hdepth : setting.config.maxCallDepth ≤ m.depth) :
    setting.callValue reenter (.function entry captured) arguments.length want
      ⟨{ m with ip := ip, stack := arguments.reverse ++ σ }, s⟩ =
      .error (.cause .stackOverflow) ⟨{ m with ip := ip, stack := arguments.reverse ++ σ }, s⟩ := by
  have hrequire := require_of_le (m := { m with ip := ip, stack := arguments.reverse ++ σ })
    (s := s) (n := arguments.length) (by rw [List.length_append, List.length_reverse]; omega)
  have hdepth' : setting.config.maxCallDepth ≤
      Machine.depth { m with ip := ip, stack := arguments.reverse ++ σ } := hdepth
  simp only [callValue, bind, EStateM.bind, hrequire, Exec.machine, if_pos hdepth']
  rfl

/-- Calling what is not a function. -/
theorem callValue_other {v : Value} (hnative : ∀ f, v ≠ .native f)
    (hfunction : ∀ entry captured, v ≠ .function entry captured) :
    setting.callValue reenter v arguments.length want
      ⟨{ m with ip := ip, stack := arguments.reverse ++ σ }, s⟩ =
      .error (.cause (.calling v.kind))
        ⟨{ m with ip := ip, stack := arguments.reverse ++ σ }, s⟩ := by
  have hrequire := require_of_le (m := { m with ip := ip, stack := arguments.reverse ++ σ })
    (s := s) (n := arguments.length) (by rw [List.length_append, List.length_reverse]; omega)
  simp only [callValue, bind, EStateM.bind, hrequire]
  cases v with
  | native f => exact absurd rfl (hnative f)
  | function entry captured => exact absurd rfl (hfunction entry captured)
  | _ => rfl

/-! ### Returning -/

theorem grounded_callee (m : Machine) (ip : Nat) (want : Option Nat) (σ : List Value)
    (scope : ScopeRef) (captured : List ScopeRef) :
    (callee m ip want σ scope captured).Grounded := by
  intro frame hframe
  obtain rfl : callFrame m ip want σ = frame := Option.some.inj hframe
  exact Nat.le_refl _

/-- **Behind a call, the machine is as before it**, with the results in the place
of the arguments. -/
theorem returned_callee (results : List Value) (scope : ScopeRef) (captured : List ScopeRef) :
    setting.returned results (callee m ip want σ scope captured) =
      { m with ip := ip, stack := (adjustTo want results).reverse ++ σ } := by
  simp only [returned, callee, callFrame, Stack.cutTo_length, Stack.pushAll, Nat.sub_self,
    List.drop_zero]

/-! ### The body of a function -/

/-- The instruction at the beginning of a function. -/
theorem argumentCount_cons (count : Nat) (position : Position)
    (hbound : arguments.length < Number.mantissaBound) :
    setting.execute reenter (.counted .argumentCount count position)
      ⟨{ m with
        ip := ip
        stack := .number (Number.ofNat arguments.length) :: (arguments.reverse ++ σ) }, s⟩ =
      .ok () ⟨{ m with ip := ip, stack := (adjust count arguments).reverse ++ σ }, s⟩ := by
  have hnonneg := Number.zero_le_ofNat hbound
  have hback := Number.toCount_ofNat hbound
  rw [← argumentCount_reverse_append]
  simp only [execute, Op.counted, Op.count?, Option.getD, Exec.popCount, Exec.pop, bind,
    EStateM.bind, if_pos hnonneg, hback, pure, EStateM.pure, Exec.modifyStack, Exec.modifyMachine]
  rfl

/-- The code of a function does what the evaluation of its body says. -/
theorem follows_body (ih : setting.Agrees call functions n) {f : PlacedFunction} {entry : Nat}
    {scope : ScopeRef} {captured : List ScopeRef} (h : setting.program.HoldsFunction entry f)
    (hbound : arguments.length < Number.mantissaBound) :
    setting.Follows call ⟨{ callee m ip want σ scope captured with
        ip := entry
        stack := .number (Number.ofNat arguments.length) :: (arguments.reverse ++ σ) }, s⟩
      ((do
        let c : Context := ⟨[scope], captured, m.depth + 1, f.places⟩
        introduceAll c f.literal.parameters arguments
        match ← evalChunk (setting.world call functions) n c (f.number + 1) false
          f.literal.body with
        | .next _ => pure []
        | .result values => pure values
        | .leave => Eval.undecided : Eval (List Value)) s)
      fun results s' st' => st' =
        ⟨{ m with ip := ip, stack := (adjustTo want results).reverse ++ σ }, s'⟩ := by
  have hcode : setting.program.Holds f.places none entry (f.literal.code f.number) := h
  have hgrounded := grounded_callee m ip want σ scope captured
  refine Follows.step (hcode.left.left.head rfl) (argumentCount_cons _ _ hbound) ?_
  refine (follows_bindLocals (m := callee m ip want σ scope captured)
    hcode.left.left.tail).bind fun _ s₁ st₁ _ hst => ?_
  subst hst
  refine (ih.chunk (callee m ip want σ scope captured) s₁ hgrounded
    (hcode.left.right.moved (by simp; omega))).bind fun outcome s₂ st₂ _ hended => ?_
  cases outcome with
  | next kept =>
    obtain ⟨_, rfl⟩ := hended
    refine Follows.step (hcode.right.headAt (by simp; omega) rfl) (ret_counted _ _ _ [] _)
      (.pure ?_)
    rw [← returned_callee [] scope captured, ← returned_of_grounded hgrounded [] kept.toList]
    rfl
  | leave => trivial
  | result values =>
    subst hended
    exact .pure (by rw [returned_callee])

/-- **Calling a value is what its evaluation says.** -/
theorem agreesOnCall_succ (ih : setting.Agrees call functions n)
    (hfunctions : ∀ entry f, functions.lookup entry = some f →
      setting.program.HoldsFunction entry f) :
    setting.AgreesOnCall call functions (n + 1) := by
  intro op position value want σ arguments m s hop hposition hexecute
  by_cases hbound : Number.mantissaBound ≤ arguments.length
  · cases value <;> simp only [evalCall, if_pos hbound] <;> trivial
  cases value with
  | native f =>
    simp only [evalCall, if_neg hbound, evalNative]
    rw [callValue_native] at hexecute
    have hnatives : (setting.world call functions).natives f.body
        ((setting.world call functions).call position m.depth) arguments s =
        setting.natives f.body (call position m.depth) arguments s := rfl
    rw [hnatives]
    cases hrun : setting.natives f.body (call position m.depth) arguments s with
    | ok results s' =>
      rw [hrun, ← hposition] at hexecute
      exact Follows.step hop hexecute (.pure rfl)
    | error e s' =>
      rw [hrun, ← hposition] at hexecute
      exact Follows.raise hop hexecute (by rw [hposition])
  | function entry captured =>
    simp only [evalCall, if_neg hbound]
    by_cases hdepth : setting.config.maxCallDepth ≤ m.depth
    · rw [if_pos (show (setting.world call functions).config.maxCallDepth ≤ m.depth from hdepth)]
      rw [callValue_function_of_le entry captured hdepth, ← hposition] at hexecute
      exact Follows.raise hop hexecute (by rw [hposition]; rfl)
    · rw [if_neg (show ¬ (setting.world call functions).config.maxCallDepth ≤ m.depth from hdepth)]
      rw [callValue_function entry captured hdepth, ← hposition] at hexecute
      have hworld : (setting.world call functions).functions.lookup entry =
          functions.lookup entry := rfl
      rw [hworld]
      cases hlookup : functions.lookup entry with
      | none => trivial
      | some f =>
        refine Follows.step hop hexecute (.ok_bind rfl ?_)
        exact follows_body ih (hfunctions entry f hlookup) (Nat.lt_of_not_le hbound)
  | _ =>
    simp only [evalCall, if_neg hbound]
    rw [callValue_other (by simp) (by simp), ← hposition] at hexecute
    exact Follows.raise hop hexecute (by rw [hposition]; rfl)

end ScriptEngine.Setting
