import ScriptEngine.Proofs.Compilation.Texts
import ScriptEngine.Proofs.Hosting.Slices

/-!
# Calls back into the engine as evaluations

A native function that calls back into the engine runs a function of the program on a machine of its
own.  That run, too, does what the evaluation of the call says, as long as it does not use up its
steps.

## Main definitions

* `Settles` — a computation does what another one says, unless that one runs out of fuel or it runs
  out of steps itself.
* `World.evalBack`, `World.nested` — calls back into the engine, evaluated.
* `Setting.Comes` — a run comes to the outcome of an evaluation, unless it is cut short.

## Main results

* `Setting.settles_callFrom` — calls back do what their evaluations say.
* `Setting.comes_evalText` — **whole texts do what their evaluations say**, calls back included.
-/

namespace ScriptEngine

/-! ### Computations that may be cut short -/

/-- The second computation does what the first one says, unless the first one fails with `lost` or
the second one with `late`. -/
def Settles {ε σ α : Type} (lost late : ε) (x y : EStateM ε σ α) : Prop :=
  ∀ s, (∃ s', x s = .error lost s') ∨ (∃ s', y s = .error late s') ∨ y s = x s

namespace Settles

variable {ε ε' σ α β : Type} {lost late : ε} {x y z : EStateM ε σ α}

theorem refl (x : EStateM ε σ α) : Settles lost late x x := fun _ => .inr (.inr rfl)

theorem throw_lost (y : EStateM ε σ α) : Settles lost late (throw lost) y := fun s => .inl ⟨s, rfl⟩

theorem trans (hne : late ≠ lost) (hxy : Settles lost late x y) (hyz : Settles lost late y z) :
    Settles lost late x z := by
  intro s
  rcases hxy s with hlost | ⟨s', hlate⟩ | heq
  · exact .inl hlost
  · rcases hyz s with ⟨s'', hlost⟩ | hlate' | heq
    · rw [hlate] at hlost
      exact absurd (EStateM.Result.error.inj hlost).1 hne
    · exact .inr (.inl hlate')
    · exact .inr (.inl ⟨s', heq.trans hlate⟩)
  · rw [← heq]
    exact hyz s

/-- One computation after another. -/
theorem bind {f g : α → EStateM ε σ β} (hxy : Settles lost late x y)
    (hfg : ∀ a, Settles lost late (f a) (g a)) : Settles lost late (x >>= f) (y >>= g) := by
  intro s
  have hx : (x >>= f) s = EStateM.bind x f s := rfl
  have hy : (y >>= g) s = EStateM.bind y g s := rfl
  rw [hx, hy, EStateM.bind, EStateM.bind]
  rcases hxy s with ⟨s', hlost⟩ | ⟨s', hlate⟩ | heq
  · exact .inl ⟨s', by rw [hlost]⟩
  · exact .inr (.inl ⟨s', by rw [hlate]⟩)
  · rw [heq]
    cases x s with
    | ok a s' => exact hfg a s'
    | error e s' => exact .inr (.inr rfl)

/-- The same with errors of another kind. -/
theorem adaptExcept {f : ε → ε'} {lost' late' : ε'} (hlost : f lost = lost')
    (hlate : f late = late') (hxy : Settles lost late x y) :
    Settles lost' late' (EStateM.adaptExcept f x) (EStateM.adaptExcept f y) := by
  intro s
  rcases hxy s with ⟨s', hx⟩ | ⟨s', hy⟩ | heq
  · exact .inl ⟨s', by simp only [EStateM.adaptExcept, hx, hlost]⟩
  · exact .inr (.inl ⟨s', by simp only [EStateM.adaptExcept, hy, hlate]⟩)
  · exact .inr (.inr (by rw [EStateM.adaptExcept, EStateM.adaptExcept, heq]))

/-- A choice that is made alike. -/
theorem ite {c : Prop} [Decidable c] {x' y' : EStateM ε σ α} (hxy : Settles lost late x y)
    (hxy' : Settles lost late x' y') :
    Settles lost late (if c then x else x') (if c then y else y') := by
  split
  · exact hxy
  · exact hxy'

end Settles

/-- Calls back into the engine do what others say, unless those run out of fuel or they run out of
steps. -/
def Reentry.Settles (limit : Nat) (f g : Reentry) : Prop :=
  ∀ callee args, ScriptEngine.Settles .outOfFuel (.error (.ranTooLong limit)) (f callee args)
    (g callee args)

/-- Native functions do what others say, if the calls back that they make do. -/
def NativesSettle (limit : Nat) (natives natives' : Builtin → NativeBody) : Prop :=
  ∀ b {f g : Reentry}, f.Settles limit g → ∀ args,
    Settles (.interrupt .outOfFuel) (.interrupt (.error (.ranTooLong limit))) (natives b f args)
      (natives' b g args)

/-! ### Evaluations of calls back -/

/-- What has no outcome counts as out of fuel where a call back asks for it. -/
def Stop.interrupt : Stop → Interrupt
  | .undecided => .outOfFuel
  | .interrupted i => i

/-- The evaluation of a call back into the engine.  The machine that a script function gets has a
scope of its own, which is empty, and adds to the depth of calls. -/
def World.evalBack (w : World) (n : Nat) (position : Position) (depth : Nat) : Reentry :=
  fun callee args => EStateM.adaptExcept Stop.interrupt
    (match callee with
      | .function _ _ => do
        let _ ← Eval.newScope
        evalCall w n position (depth + 1) callee args
      | _ => evalCall w n position depth callee args)

/-- A world in which calls back are evaluated, at most `fuel` of them nested in each other. -/
def World.nested (config : Config) (natives : Builtin → NativeBody) (functions : FunctionTable)
    (n : Nat) : Nat → World
  | 0 => ⟨config, natives, fun _ _ _ _ => throw .outOfFuel, functions⟩
  | fuel + 1 => ⟨config, natives, (nested config natives functions n fuel).evalBack n, functions⟩

theorem World.nested_eq (config : Config) (natives : Builtin → NativeBody)
    (functions : FunctionTable) (n fuel : Nat) :
    nested config natives functions n fuel =
      ⟨config, natives, (nested config natives functions n fuel).call, functions⟩ := by
  cases fuel <;> rfl

namespace Setting

variable {setting : Setting} {natives : Builtin → NativeBody} {limit : Nat}
  {call call' : Position → Nat → Reentry} {reenter reenter' : Reentry}

/-- A setting with other native functions. -/
def withNatives (setting : Setting) (natives : Builtin → NativeBody) : Setting :=
  { setting with natives := natives }

/-! ### Machines with other native functions -/

/-- Calls back from all places do what others say. -/
def CallsSettle (limit : Nat) (call call' : Position → Nat → Reentry) : Prop :=
  ∀ position depth, (call position depth).Settles limit (call' position depth)

theorem settles_runNative (hnatives : NativesSettle limit natives setting.natives)
    (h : reenter.Settles limit reenter') (f : Native) (arguments : List Value) :
    Settles (.interrupt .outOfFuel) (.interrupt (.error (.ranTooLong limit)))
      ((setting.withNatives natives).runNative reenter f arguments)
      (setting.runNative reenter' f arguments) := by
  rintro ⟨m, s⟩
  have hbody : (setting.withNatives natives).natives f.body = natives f.body := rfl
  rcases hnatives f.body h arguments s with ⟨s', hlost⟩ | ⟨s', hlate⟩ | heq
  · exact .inl ⟨⟨m, s'⟩, by simp only [runNative, hbody, hlost]⟩
  · exact .inr (.inl ⟨⟨m, s'⟩, by simp only [runNative, hlate]⟩)
  · exact .inr (.inr (by simp only [runNative, hbody, heq]))

theorem settles_callValue (hnatives : NativesSettle limit natives setting.natives)
    (h : reenter.Settles limit reenter') (callee : Value) (count : Nat) (want : Option Nat) :
    Settles (.interrupt .outOfFuel) (.interrupt (.error (.ranTooLong limit)))
      ((setting.withNatives natives).callValue reenter callee count want)
      (setting.callValue reenter' callee count want) := by
  cases callee with
  | native f =>
    exact .bind (.refl _) fun _ => .bind (.refl _) fun _ => .bind (.refl _) fun _ =>
      (settles_runNative hnatives h f _).bind fun _ => .refl _
  | _ => exact .refl _

theorem settles_execute (hnatives : NativesSettle limit natives setting.natives)
    (h : reenter.Settles limit reenter') (op : Op) :
    Settles (.interrupt .outOfFuel) (.interrupt (.error (.ranTooLong limit)))
      ((setting.withNatives natives).execute reenter op) (setting.execute reenter' op) := by
  cases hcode : op.code
  all_goals simp only [execute, hcode]
  case call =>
    exact .bind (.refl _) fun _ => .bind (.refl _) fun _ => settles_callValue hnatives h _ _ _
  case iterNext =>
    refine .bind (.refl _) fun m => ?_
    split
    · exact .bind (.refl _) fun _ => settles_callValue hnatives h _ _ _
    · exact .refl _
  all_goals exact .refl _

theorem settles_step (hnatives : NativesSettle limit natives setting.natives)
    (h : CallsSettle limit call call') (trace : Bool) :
    Settles .outOfFuel (.error (.ranTooLong limit)) ((setting.withNatives natives).step call trace)
      (setting.step call' trace) := by
  rintro ⟨m, s⟩
  cases hop : setting.program.code[m.ip]? with
  | none => exact .inr (.inr (by simp only [step, withNatives, hop]))
  | some op =>
    -- The two machines only differ in what native functions do, which is a part of `execute`.
    have hexecute : Settles (.interrupt .outOfFuel) (.interrupt (.error (.ranTooLong limit)))
        (do
          Exec.modifyMachine fun m => { m with ip := m.ip + 1 }
          (setting.withNatives natives).execute (call op.position m.depth) op
          if trace then logStack)
        (do
          Exec.modifyMachine fun m => { m with ip := m.ip + 1 }
          setting.execute (call' op.position m.depth) op
          if trace then logStack) :=
      .bind (.refl _) fun _ => (settles_execute hnatives (h _ _) op).bind fun _ => .refl _
    have htraced : Settles (.interrupt .outOfFuel) (.interrupt (.error (.ranTooLong limit)))
        ((setting.withNatives natives).traced trace (call op.position m.depth) op)
        (setting.traced trace (call' op.position m.depth) op) :=
      .ite (.bind (.refl _) fun _ => hexecute) hexecute
    have hlocated : Settles .outOfFuel (.error (.ranTooLong limit))
        (EStateM.adaptExcept (Failure.located op.position)
          ((setting.withNatives natives).traced trace (call op.position m.depth) op))
        (EStateM.adaptExcept (Failure.located op.position)
          (setting.traced trace (call' op.position m.depth) op)) := htraced.adaptExcept rfl rfl
    have hop' : (setting.withNatives natives).program.code[m.ip]? = some op := hop
    simp only [step, hop, hop']
    exact hlocated ⟨m, s⟩

/-- **Runs do what others say**, if the calls back do. -/
theorem settles_runSteps (hnatives : NativesSettle limit natives setting.natives)
    (h : CallsSettle limit call call') (trace : Bool) (n : Nat) :
    Settles .outOfFuel (.error (.ranTooLong limit))
      ((setting.withNatives natives).runSteps call trace n) (setting.runSteps call' trace n) := by
  induction n with
  | zero => exact .refl _
  | succ n ih =>
    intro st
    have hhalted : (setting.withNatives natives).halted st.machine = setting.halted st.machine :=
      rfl
    simp only [runSteps, hhalted]
    split
    · exact .inr (.inr rfl)
    · rcases settles_step hnatives h trace st with ⟨st', hlost⟩ | ⟨st', hlate⟩ | heq
      · exact .inl ⟨st', by rw [hlost]⟩
      · exact .inr (.inl ⟨st', by rw [hlate]⟩)
      · rw [heq]
        cases (setting.withNatives natives).step call trace st with
        | ok a st' => exact ih st'
        | error e st' => exact .inr (.inr rfl)

/-- Calls of script functions do what others say, if the calls back in them do. -/
theorem settles_callFunction
    (hnatives : NativesSettle setting.config.stepLimit natives setting.natives)
    (h : CallsSettle setting.config.stepLimit call call') (position : Position) (depth : Nat)
    (callee : Value) (arguments : List Value) :
    Settles .outOfFuel (.error (.ranTooLong setting.config.stepLimit))
      ((setting.withNatives natives).callFunction call position depth callee arguments)
      (setting.callFunction call' position depth callee arguments) := by
  intro s
  simp only [callFunction]
  have hmachine : (setting.withNatives natives).calleeMachine s.newScope.1 depth arguments =
      setting.calleeMachine s.newScope.1 depth arguments := rfl
  have hlimit : (setting.withNatives natives).config.stepLimit = setting.config.stepLimit := rfl
  rw [hmachine, hlimit]
  rcases settles_callValue hnatives (h position _) callee arguments.length none
    ⟨setting.calleeMachine s.newScope.1 depth arguments, s.newScope.2⟩ with
    ⟨st', hlost⟩ | ⟨st', hlate⟩ | heq
  · exact .inl ⟨st'.store, by rw [hlost]; rfl⟩
  · exact .inr (.inl ⟨st'.store, by rw [hlate]; rfl⟩)
  · rw [heq]
    cases (setting.withNatives natives).callValue _ callee arguments.length none
      ⟨setting.calleeMachine s.newScope.1 depth arguments, s.newScope.2⟩ with
    | error e st' => exact .inr (.inr rfl)
    | ok a st' =>
      rcases settles_runSteps hnatives h false setting.config.stepLimit st' with
        ⟨st'', hlost⟩ | ⟨st'', hlate⟩ | heq'
      · exact .inl ⟨st''.store, by simp only [hlost]⟩
      · exact .inr (.inl ⟨st''.store, by simp only [hlate]⟩)
      · exact .inr (.inr (by simp only [heq']))

/-! ### Runs that may be cut short -/

/-- A run that comes to an end does so if it may execute any other number of instructions, unless
these are too few. -/
theorem runSteps_within {n : Nat} {st : State} {r : EStateM.Result Interrupt State Bool}
    (h : setting.runSteps call false n st = r) (hr : ∀ st', r ≠ .ok false st') (m : Nat) :
    setting.runSteps call false m st = r ∨
      ∃ st', setting.runSteps call false m st = .ok false st' := by
  -- The shorter one of the two runs is the beginning of the longer one.
  rcases Nat.le_total m n with hle | hle
  · obtain ⟨k, rfl⟩ := Nat.exists_eq_add_of_le hle
    rw [runSteps_add] at h
    cases hrun : setting.runSteps call false m st with
    | ok halted st' =>
      cases halted with
      | true =>
        rw [hrun] at h
        exact .inl h
      | false => exact .inr ⟨st', rfl⟩
    | error i st' =>
      rw [hrun] at h
      exact .inl h
  · obtain ⟨k, rfl⟩ := Nat.exists_eq_add_of_le hle
    refine .inl ?_
    rw [runSteps_add, h]
    cases r with
    | ok halted st' =>
      cases halted with
      | true => rfl
      | false => exact absurd rfl (hr st')
    | error i st' => rfl

/-- A run that follows an evaluation comes to the end of it, or it is cut short. -/
theorem runSteps_of_reaches {st st' : State} (h : setting.Reaches call st st')
    (hhalted : setting.halted st'.machine = true) (n : Nat) :
    setting.runSteps call false n st = .ok true st' ∨
      ∃ st'', setting.runSteps call false n st = .ok false st'' := by
  obtain ⟨k, hrun⟩ := h.runSteps hhalted
  exact runSteps_within hrun (fun _ => nofun) n

/-- A run that follows an evaluation comes to its failure, or it is cut short. -/
theorem runSteps_of_fails {st : State} {i : Interrupt} {s : Store} (h : setting.Fails call st i s)
    (n : Nat) :
    (∃ m, setting.runSteps call false n st = .error i ⟨m, s⟩) ∨
      ∃ st', setting.runSteps call false n st = .ok false st' := by
  obtain ⟨k, m, hrun⟩ := Fails.runSteps h
  exact (runSteps_within hrun (fun _ => nofun) n).imp_left fun heq => ⟨m, heq⟩

/-! ### Calls back -/

section

variable {functions : FunctionTable} {n : Nat}

/-- Where a script function starts that is called back, on a machine of its own. -/
def calledBack (setting : Setting) (scope inner : ScopeRef) (depth entry : Nat)
    (captured : List ScopeRef) (arguments : List Value) : Machine :=
  { callee (setting.calleeMachine scope depth arguments) setting.program.size none [] inner
      captured with
    ip := entry
    stack := .number (Number.ofNat arguments.length) :: (arguments.reverse ++ []) }

theorem callValue_calledBack {depth : Nat} (scope : ScopeRef) (entry : Nat)
    (captured : List ScopeRef) (arguments : List Value) (s : Store)
    (hdepth : ¬ setting.config.maxCallDepth ≤ depth + 1) :
    setting.callValue reenter (.function entry captured) arguments.length none
        ⟨setting.calleeMachine scope depth arguments, s⟩ =
      .ok () ⟨setting.calledBack scope s.newScope.1 depth entry captured arguments,
        s.newScope.2⟩ := by
  have hcall : setting.callValue reenter (.function entry captured) arguments.length none
      ⟨{ setting.calleeMachine scope depth arguments with
        ip := setting.program.size
        stack := arguments.reverse ++ [] }, s⟩ =
      .ok () ⟨setting.calledBack scope s.newScope.1 depth entry captured arguments,
        s.newScope.2⟩ := callValue_function entry captured hdepth
  rw [List.append_nil] at hcall
  exact hcall

/-- Where no more calls may be open. -/
theorem callValue_calledBack_of_le {depth : Nat} (scope : ScopeRef) (entry : Nat)
    (captured : List ScopeRef) (arguments : List Value) (s : Store)
    (hdepth : setting.config.maxCallDepth ≤ depth + 1) :
    setting.callValue reenter (.function entry captured) arguments.length none
        ⟨setting.calleeMachine scope depth arguments, s⟩ =
      .error (.cause .stackOverflow) ⟨setting.calleeMachine scope depth arguments, s⟩ := by
  have hcall : setting.callValue reenter (.function entry captured) arguments.length none
      ⟨{ setting.calleeMachine scope depth arguments with
        ip := setting.program.size
        stack := arguments.reverse ++ [] }, s⟩ =
      .error (.cause .stackOverflow) ⟨{ setting.calleeMachine scope depth arguments with
        ip := setting.program.size
        stack := arguments.reverse ++ [] }, s⟩ := callValue_function_of_le entry captured hdepth
  rw [List.append_nil] at hcall
  exact hcall

theorem follows_calledBack {entry : Nat} {f : PlacedFunction}
    (hfunctions : ∀ entry f, functions.lookup entry = some f →
      setting.program.HoldsFunction entry f)
    (hfound : functions.lookup entry = some f) (scope inner : ScopeRef) (depth : Nat)
    (captured : List ScopeRef) {arguments : List Value} (s : Store)
    (hbound : arguments.length < Number.mantissaBound) :
    setting.Follows call ⟨setting.calledBack scope inner depth entry captured arguments, s⟩
      ((do
        let c : Context := ⟨[inner], captured, depth + 2, f.places⟩
        introduceAll c f.literal.parameters arguments
        match ← evalChunk (setting.world call functions) n c (f.number + 1) false
          f.literal.body with
        | .next _ => pure []
        | .result values => pure values
        | .leave => Eval.undecided : Eval (List Value)) s)
      fun results s' st' => setting.halted st'.machine = true ∧
        st'.machine.stack.reverse = results ∧ st'.store = s' := by
  refine (follows_body (agrees hfunctions n) (hfunctions entry f hfound) hbound).imp ?_
  rintro results s' st' - rfl
  refine ⟨decide_eq_true (Nat.le_refl _), ?_, rfl⟩
  rw [List.append_nil, List.reverse_reverse]
  rfl

/-- What a call makes of the run of the function that is called. -/
def answered (limit : Nat) :
    EStateM.Result Interrupt State Bool → EStateM.Result Interrupt Store (List Value)
  | .ok true st => .ok st.machine.stack.reverse st.store
  | .ok false st => .error (.error (.ranTooLong limit)) st.store
  | .error i st => .error i st.store

theorem callFunction_calledBack (position : Position) {depth : Nat} (entry : Nat)
    (captured : List ScopeRef) (arguments : List Value) (s : Store)
    (hdepth : ¬ setting.config.maxCallDepth ≤ depth + 1) :
    setting.callFunction call position depth (.function entry captured) arguments s =
      answered setting.config.stepLimit (setting.runSteps call false setting.config.stepLimit
        ⟨setting.calledBack s.newScope.1 s.newScope.2.newScope.1 depth entry captured arguments,
          s.newScope.2.newScope.2⟩) := by
  simp only [callFunction]
  rw [callValue_calledBack _ entry captured arguments _ hdepth]
  rcases hrun : setting.runSteps call false setting.config.stepLimit
    ⟨setting.calledBack s.newScope.1 s.newScope.2.newScope.1 depth entry captured arguments,
      s.newScope.2.newScope.2⟩ with ⟨halted, st⟩ | ⟨i, st⟩
  · simp only [hrun]
    cases halted <;> rfl
  · simp only [hrun]
    rfl

/-- The answer of a run that follows an evaluation. -/
theorem answered_of_follows {st : State} {s : Store} {x : Eval (List Value)}
    (h : setting.Follows call st (x s) fun results s' st' => setting.halted st'.machine = true ∧
      st'.machine.stack.reverse = results ∧ st'.store = s') (limit : Nat) :
    (∃ s', EStateM.adaptExcept Stop.interrupt x s = .error .outOfFuel s') ∨
      (∃ s', answered limit (setting.runSteps call false limit st) =
        .error (.error (.ranTooLong limit)) s') ∨
      answered limit (setting.runSteps call false limit st) =
        EStateM.adaptExcept Stop.interrupt x s := by
  rw [EStateM.adaptExcept]
  cases hx : x s with
  | ok results s' =>
    rw [hx] at h
    obtain ⟨st', hreach, hhalted, rfl, rfl⟩ := h
    rcases runSteps_of_reaches hreach hhalted limit with hrun | ⟨st'', hcut⟩
    · exact .inr (.inr (by rw [hrun]; rfl))
    · exact .inr (.inl ⟨st''.store, by rw [hcut]; rfl⟩)
  | error e s' =>
    rw [hx] at h
    cases e with
    | undecided => exact .inl ⟨s', rfl⟩
    | interrupted i =>
      rcases runSteps_of_fails h limit with ⟨m, hrun⟩ | ⟨st'', hcut⟩
      · exact .inr (.inr (by rw [hrun]; rfl))
      · exact .inr (.inl ⟨st''.store, by rw [hcut]; rfl⟩)

/-- A script function that is called back does what the evaluation of the call says. -/
theorem settles_evalBack
    (hfunctions : ∀ entry f, functions.lookup entry = some f →
      setting.program.HoldsFunction entry f)
    (position : Position) (depth entry : Nat) (captured : List ScopeRef) (arguments : List Value) :
    Settles .outOfFuel (.error (.ranTooLong setting.config.stepLimit))
      ((setting.world call functions).evalBack n position depth (.function entry captured)
        arguments)
      (setting.callFunction call position depth (.function entry captured) arguments) := by
  intro s
  have hback : (setting.world call functions).evalBack n position depth (.function entry captured)
      arguments s = EStateM.adaptExcept Stop.interrupt
        (evalCall (setting.world call functions) n position (depth + 1) (.function entry captured)
          arguments) s.newScope.2 := rfl
  have hlost : (∃ s', EStateM.adaptExcept Stop.interrupt (Eval.undecided : Eval (List Value))
      s.newScope.2 = .error .outOfFuel s') := ⟨_, rfl⟩
  have hmax : (setting.world call functions).config.maxCallDepth = setting.config.maxCallDepth :=
    rfl
  have hlookup : (setting.world call functions).functions.lookup entry = functions.lookup entry :=
    rfl
  rw [hback]
  cases n with
  | zero =>
    simp only [evalCall]
    exact .inl hlost
  | succ n =>
    simp only [evalCall, hmax, hlookup]
    by_cases hbound : Number.mantissaBound ≤ arguments.length
    · rw [if_pos hbound]
      exact .inl hlost
    rw [if_neg hbound]
    by_cases hdepth : setting.config.maxCallDepth ≤ depth + 1
    · simp only [callFunction]
      rw [if_pos hdepth, callValue_calledBack_of_le _ entry captured arguments _ hdepth]
      exact .inr (.inr rfl)
    · rw [if_neg hdepth, callFunction_calledBack position entry captured arguments s hdepth]
      cases hfound : functions.lookup entry with
      | none => exact .inl hlost
      | some f =>
        exact answered_of_follows (follows_calledBack hfunctions hfound s.newScope.1
          s.newScope.2.newScope.1 depth captured s.newScope.2.newScope.2
          (Nat.lt_of_not_le hbound)) _

/-- A native function that is called back does what the evaluation of the call says. -/
theorem settles_evalBack_native (hnatives : NativesSettle limit natives setting.natives)
    (w : World) (hworld : w.natives = natives) (position : Position) (depth : Nat)
    (h : (w.call position depth).Settles limit reenter) (f : Native) (arguments : List Value) :
    Settles .outOfFuel (.error (.ranTooLong limit))
      (w.evalBack n position depth (.native f) arguments)
      (EStateM.adaptExcept (Failure.located position)
        (setting.natives f.body reenter arguments)) := by
  have hback : w.evalBack n position depth (.native f) arguments =
      EStateM.adaptExcept Stop.interrupt (evalCall w n position depth (.native f) arguments) := rfl
  have hlost : Settles .outOfFuel (.error (.ranTooLong limit))
      (EStateM.adaptExcept Stop.interrupt (Eval.undecided : Eval (List Value)))
      (EStateM.adaptExcept (Failure.located position)
        (setting.natives f.body reenter arguments)) := fun s => .inl ⟨s, rfl⟩
  rw [hback]
  cases n with
  | zero =>
    simp only [evalCall]
    exact hlost
  | succ n =>
    simp only [evalCall]
    split
    · exact hlost
    · have hnative : EStateM.adaptExcept Stop.interrupt (evalNative w position depth f arguments) =
          EStateM.adaptExcept (Failure.located position)
            (natives f.body (w.call position depth) arguments) := by
        funext s
        rw [EStateM.adaptExcept, EStateM.adaptExcept, evalNative, hworld]
        cases natives f.body (w.call position depth) arguments s <;> rfl
      rw [hnative]
      exact (hnatives f.body h arguments).adaptExcept rfl rfl

/-- What is no function cannot be called back. -/
theorem settles_evalBack_other (w : World) (position : Position) (depth : Nat) {v : Value}
    (hnative : ∀ f, v ≠ .native f) (hfunction : ∀ entry captured, v ≠ .function entry captured)
    (arguments : List Value) :
    Settles .outOfFuel (.error (.ranTooLong limit)) (w.evalBack n position depth v arguments)
      (throw (.error (.runtime (.calling v.kind) position))) := by
  have hback : w.evalBack n position depth v arguments =
      EStateM.adaptExcept Stop.interrupt (evalCall w n position depth v arguments) := by
    cases v with
    | function entry captured => exact absurd rfl (hfunction entry captured)
    | _ => rfl
  rw [hback]
  cases n with
  | zero =>
    simp only [evalCall]
    exact fun s => .inl ⟨s, rfl⟩
  | succ n =>
    simp only [evalCall]
    split
    · exact fun s => .inl ⟨s, rfl⟩
    · cases v with
      | native f => exact absurd rfl (hnative f)
      | function entry captured => exact absurd rfl (hfunction entry captured)
      | _ => exact .refl _

/-- **Calls back do what their evaluations say**, whatever they nest. -/
theorem settles_callFrom
    (hnatives : NativesSettle setting.config.stepLimit natives setting.natives)
    (hfunctions : ∀ entry f, functions.lookup entry = some f →
      setting.program.HoldsFunction entry f)
    (fuel : Nat) :
    CallsSettle setting.config.stepLimit
      (World.nested setting.config natives functions n fuel).call (setting.callFrom fuel) := by
  induction fuel with
  | zero => exact fun _ _ _ _ => .throw_lost _
  | succ fuel ih =>
    intro position depth callee arguments
    change Settles _ _
      ((World.nested setting.config natives functions n fuel).evalBack n position depth callee
        arguments) _
    cases callee with
    | native f =>
      exact settles_evalBack_native hnatives _ (by rw [World.nested_eq]) position depth
        (ih position depth) f arguments
    | function entry captured =>
      -- In between is a machine of its own that has the native functions of the evaluation.
      rw [World.nested_eq]
      have hcalled := settles_callFunction hnatives ih position depth (.function entry captured)
        arguments
      have hholds : ∀ entry f, functions.lookup entry = some f →
          (setting.withNatives natives).program.HoldsFunction entry f := hfunctions
      exact .trans (by simp) (settles_evalBack hholds position depth entry captured arguments)
        hcalled
    | _ => exact settles_evalBack_other _ position depth (by simp) (by simp) arguments

/-! ### Texts -/

/-- A run is cut short, or a call back in it is. -/
def CutShort (limit : Nat) (run : EStateM.Result Interrupt State Bool) : Prop :=
  (∃ st, run = .ok false st) ∨ ∃ st, run = .error (.error (.ranTooLong limit)) st

/-- A run comes to the outcome of the evaluation of a text, if it has one, unless it is cut
short. -/
def Comes (limit : Nat) (run : EStateM.Result Interrupt State Bool) :
    EStateM.Result Stop Store Value → Prop
  | .ok v s => (∃ m, run = .ok true ⟨m, s⟩ ∧ m.stack.headD .nil = v) ∨ CutShort limit run
  | .error (.interrupted (.error e)) s => (∃ m, run = .error (.error e) ⟨m, s⟩) ∨ CutShort limit run
  | .error (.interrupted .outOfFuel) _ => True
  | .error .undecided _ => True

/-- A run that settles with one that follows an evaluation comes to its outcome. -/
theorem comes_of_follows {ideal : Setting} {st : State} {s : Store} {x : Eval Value} {steps : Nat}
    {run : EStateM.Result Interrupt State Bool}
    (h : ideal.Follows call st (x s) fun v s' st' => ideal.halted st'.machine = true ∧
      st'.machine.stack.headD .nil = v ∧ st'.store = s')
    (hrun : (∃ st', ideal.runSteps call false steps st = .error .outOfFuel st') ∨
      (∃ st', run = .error (.error (.ranTooLong limit)) st') ∨
      run = ideal.runSteps call false steps st) :
    Comes limit run (x s) := by
  cases hx : x s with
  | ok v s' =>
    rw [hx] at h
    obtain ⟨⟨m, s''⟩, hreach, hhalted, rfl, rfl⟩ := h
    have hideal := runSteps_of_reaches hreach hhalted steps
    rcases hrun with ⟨st', hlost⟩ | hlate | heq
    · rw [hlost] at hideal
      rcases hideal with hend | ⟨_, hcut⟩
      · cases hend
      · cases hcut
    · exact .inr (.inr hlate)
    · rw [← heq] at hideal
      exact hideal.imp (fun hend => ⟨m, hend, rfl⟩) .inl
  | error e s' =>
    rw [hx] at h
    rcases e with _ | e | _
    · trivial
    · have hideal := runSteps_of_fails h steps
      rcases hrun with ⟨st', hlost⟩ | hlate | heq
      · rw [hlost] at hideal
        rcases hideal with ⟨_, hend⟩ | ⟨_, hcut⟩
        · cases hend
        · cases hcut
      · exact .inr (.inr hlate)
      · rw [← heq] at hideal
        exact hideal.imp id .inl
    · trivial

/-- **Whole texts do what their evaluations say**, calls back included. -/
theorem comes_evalText (config : Config) (natives' : Builtin → NativeBody)
    (hnatives : NativesSettle config.stepLimit natives natives') (root : ScopeRef)
    (earlier : List Chunk) (chunk : Chunk) (n fuel steps : Nat) (s : Store) :
    let setting : Setting := ⟨.ofTexts (chunk :: earlier), config, root, natives'⟩
    Comes config.stepLimit
      (setting.runSteps (setting.callFrom fuel) false steps
        ⟨.atTopLevel setting.program.start root, s⟩)
      (evalText (.nested config natives (.ofTexts (chunk :: earlier)) n fuel)
        (Program.ofTexts earlier).size root n chunk s) := by
  intro setting
  have hfunctions : ∀ entry f, (FunctionTable.ofTexts (chunk :: earlier)).lookup entry = some f →
      setting.program.HoldsFunction entry f := by
    intro entry f hlookup
    obtain ⟨before, behind, heq, _⟩ := List.lookup_eq_some_iff.1 hlookup
    exact Program.holds_lookup_ofTexts (by rw [heq]; simp)
  have hcalls : CallsSettle config.stepLimit
      (World.nested config natives (.ofTexts (chunk :: earlier)) n fuel).call
      (setting.callFrom fuel) := settles_callFrom hnatives hfunctions fuel
  have hruns : Settles _ _ ((setting.withNatives natives).runSteps _ false steps)
      (setting.runSteps (setting.callFrom fuel) false steps) :=
    settles_runSteps hnatives hcalls false steps
  rw [World.nested_eq]
  exact comes_of_follows (follows_evalText config natives _ root earlier chunk n s) (hruns _)

end

end Setting

end ScriptEngine
