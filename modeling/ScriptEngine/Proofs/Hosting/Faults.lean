import ScriptEngine.Proofs.Reentry.Engines
import ScriptEngine.Proofs.Scoping.Instructions

/-!
# Faults stay

An instruction that fails stops its machine.  Until a text is loaded or the engine is
reset, whatever else a host asks for, the machine stays where it is and the error is
reported again: by every step and every run, and by every bounded run unless the
instruction that failed is the last one of the program.

## Main definitions

* `Setting.StopsAt` — a machine goes on until the instruction at a place fails.
* `Advance` — the ways of making a program go on.
* `Request` — what a host can ask for without loading a text or starting over.

## Main results

* `Setting.ip_of_execute_error` — an instruction that fails does not jump.
* `Engine.fault_after` — no request clears a fault, or moves a machine that a fault has
  stopped.
* `Engine.error_again_of_stopsAt` — what a host gets once an instruction has failed.
-/

namespace ScriptEngine

open Exec

/-! ### Instructions that fail -/

/-- A part of an instruction that, if it fails, leaves the machine where it is. -/
def StaysOnError {α : Type} (x : Exec α) : Prop :=
  ∀ st e st', x st = .error e st' → st'.machine.ip = st.machine.ip

namespace StaysOnError

variable {α β : Type}

theorem of_still {x : Exec α} (hx : Still none x) : StaysOnError x := by
  intro st e st' hrun
  have halike := hx.alike st
  rw [hrun] at halike
  exact halike.ip.resolve_right fun ⟨_, hd, _⟩ => nomatch hd

theorem bind {x : Exec α} {f : α → Exec β} (hx : Still none x) (hf : ∀ a, StaysOnError (f a)) :
    StaysOnError (x >>= f) := by
  intro st e st' hrun
  have halike := hx.alike st
  change EStateM.bind x f st = _ at hrun
  rw [EStateM.bind] at hrun
  cases hfirst : x st with
  | error e₁ st₁ =>
    rw [hfirst] at hrun
    cases hrun
    exact of_still hx st e st' hfirst
  | ok a st₁ =>
    rw [hfirst] at hrun halike
    have hip : st₁.machine.ip = st.machine.ip :=
      halike.ip.resolve_right fun ⟨_, hd, _⟩ => nomatch hd
    exact (hf a st₁ e st' hrun).trans hip

theorem ite {c : Prop} [Decidable c] {x y : Exec α} (hx : StaysOnError x) (hy : StaysOnError y) :
    StaysOnError (if c then x else y) := by
  split
  · exact hx
  · exact hy

end StaysOnError

namespace Setting

variable {setting : Setting} {reenter : Reentry} {call : Position → Nat → Reentry} {trace : Bool}
  {op : Op} {err : Error} {place n : Nat} {st st' final : State}

theorem staysOnError_jump (offset : Int) : StaysOnError (jump offset) := by
  intro st e st' hrun
  simp only [jump, bind, EStateM.bind, Exec.machine] at hrun
  split at hrun
  · cases hrun
    rfl
  · cases hrun

theorem staysOnError_jumpWhen (truth : Bool) (offset : Int) :
    StaysOnError (jumpWhen truth offset) :=
  .bind .pop fun _ => .ite (staysOnError_jump offset) (.of_still (.pure _))

theorem staysOnError_iterJumpIfDone (offset : Int) : StaysOnError (iterJumpIfDone offset) := by
  refine .bind .machine fun m => ?_
  split
  · exact .of_still (.fail _)
  · refine .ite ?_ (.of_still (.pure _))
    exact .bind (.modifyMachine (fun _ => rfl) fun _ => rfl) fun _ => staysOnError_jump offset

/-- **An instruction that fails does not jump.** -/
theorem ip_of_execute_error {m : Machine} {s : Store} {e : Failure}
    (h : setting.execute reenter op ⟨m, s⟩ = .error e st') : st'.machine.ip = m.ip := by
  by_cases hcall : op.code = .call ∨ op.code = .iterNext
  · obtain ⟨stack, hstack⟩ := exists_stack_of_call_error hcall h
    rw [hstack]
  -- An instruction that jumps does so at last, and stays where it is if the jump fails; all others
  -- leave the place of the machine alone.
  cases hcode : op.code with
  | call => exact absurd (.inl hcode) hcall
  | iterNext => exact absurd (.inr hcode) hcall
  | ret =>
    rw [execute_ret hcode] at h
    have hstays : StaysOnError (returning op >>= setting.leaveFunction) :=
      .bind (still_returning op) fun _ _ _ _ hrun => nomatch hrun
    exact hstays _ _ _ h
  | startBlock =>
    rw [execute_startBlock hcode] at h
    cases h
  | endBlock =>
    rw [execute_endBlock hcode] at h
    cases h
  | store =>
    rw [execute_store hcode] at h
    split at h
    · cases h
      rfl
    · cases h
  | makeLocal =>
    rw [execute_makeLocal hcode] at h
    split at h
    · cases h
      rfl
    · cases h
  | jump =>
    simp only [execute, hcode] at h
    exact staysOnError_jump _ _ _ _ h
  | jumpIf =>
    simp only [execute, hcode] at h
    exact staysOnError_jumpWhen _ _ _ _ _ h
  | jumpIfNot =>
    simp only [execute, hcode] at h
    exact staysOnError_jumpWhen _ _ _ _ _ h
  | iterJumpIfDone =>
    simp only [execute, hcode] at h
    exact staysOnError_iterJumpIfDone _ _ _ _ h
  | _ =>
    have hstill : Still _ (setting.execute reenter op) :=
      still_execute (by simp [hcode]) (by simp [hcode]) (by simp [hcode]) (by simp [hcode])
        (by simp [hcode]) (by simp [hcode]) (by simp [hcode])
    simp only [hcode, OpCode.isJump, Bool.false_eq_true, if_false] at hstill
    exact StaysOnError.of_still hstill _ _ _ h

/-- A step that fails leaves the machine behind the instruction that failed. -/
theorem ip_of_step_error {i : Interrupt} (h : setting.step call trace st = .error i st') :
    st.machine.ip < setting.program.size ∧ st'.machine.ip = st.machine.ip + 1 := by
  cases hop : setting.program.code[st.machine.ip]? with
  | none =>
    rw [step_of_none hop] at h
    cases h
  | some op =>
    refine ⟨(Array.getElem?_eq_some_iff.1 hop).1, ?_⟩
    rw [step_eq_execute hop] at h
    split at h
    · cases h
    · next hrun =>
      cases h
      exact ip_of_execute_error hrun

/-! ### Runs that fail -/

/-- Within a number of steps from a state, the instruction at a place fails with an error,
which leaves the state `final`. -/
inductive StopsAt (setting : Setting) (call : Position → Nat → Reentry) (trace : Bool) (err : Error)
    (place : Nat) (final : State) : Nat → State → Prop
  | here {n : Nat} {st : State} (hplace : st.machine.ip = place)
      (hstep : setting.step call trace st = .error (.error err) final) :
      StopsAt setting call trace err place final (n + 1) st
  | later {n : Nat} {st st' : State} (hhalted : ¬ setting.halted st.machine = true)
      (hstep : setting.step call trace st = .ok () st')
      (h : StopsAt setting call trace err place final n st') :
      StopsAt setting call trace err place final (n + 1) st

theorem not_halted_of_step_error {i : Interrupt} (h : setting.step call trace st = .error i st') :
    ¬ setting.halted st.machine = true := by
  intro hhalted
  exact absurd (ip_of_step_error h).1 (Nat.not_lt.2 (of_decide_eq_true hhalted))

theorem StopsAt.not_halted (h : setting.StopsAt call trace err place final n st) :
    ¬ setting.halted st.machine = true := by
  cases h with
  | here _ hstep => exact not_halted_of_step_error hstep
  | later hhalted => exact hhalted

theorem StopsAt.runSteps_eq (h : setting.StopsAt call trace err place final n st) :
    setting.runSteps call trace n st = .error (.error err) final := by
  induction h with
  | here _ hstep => simp only [runSteps, if_neg (not_halted_of_step_error hstep), hstep]
  | later hhalted hstep _ ih => simp only [runSteps, if_neg hhalted, hstep, ih]

/-- A machine has halted behind an instruction that failed just if it was the last one. -/
theorem StopsAt.halted_iff (h : setting.StopsAt call trace err place final n st) :
    setting.halted final.machine = true ↔ place + 1 = setting.program.size := by
  induction h with
  | here hplace hstep =>
    obtain ⟨hlt, hip⟩ := ip_of_step_error hstep
    rw [halted, decide_eq_true_iff, hip, ← hplace]
    omega
  | later _ _ _ ih => exact ih

end Setting

/-! ### What a host asks for -/

/-- The ways of making a program go on. -/
inductive Advance where
  | step (options : RunOptions)
  | run (options : RunOptions)
  | runForSteps (steps : Nat) (options : RunOptions)

/-- What a host can ask for without loading a text or starting over. -/
inductive Request where
  | advance (fuel : Nat) (a : Advance)
  | call (fuel : Nat) (callee : Value) (args : List Value)
  | define (name key : String)
  | setGlobal (name : String) (v : Value)

namespace Advance

/-- Makes the program of an engine go on. -/
def perform (fuel : Nat) : Advance → Session Unit
  | step options => Engine.step fuel options
  | run options => discard (Engine.run fuel options)
  | runForSteps steps options => discard (Engine.runForSteps fuel steps options)

/-- Whether what is executed is put on record. -/
def trace : Advance → Bool
  | step options => options.trace
  | run options => options.trace
  | runForSteps _ options => options.trace

/-- How many instructions are executed at most. -/
def limit (e : Engine) : Advance → Nat
  | step _ => 1
  | run options => options.stepLimit.getD e.setting.config.stepLimit
  | runForSteps steps _ => steps

/-- The store in which the first instruction is executed. -/
def store (e : Engine) : Advance → Store
  | run options =>
    options.locals.foldl (fun s (name, v) => s.declare e.setting.root name v) e.store
  | _ => e.store

/-- An instruction fails when a program is made to go on. -/
def StopsAt (a : Advance) (fuel : Nat) (e : Engine) (err : Error) (place : Nat) (final : State) :
    Prop :=
  e.setting.StopsAt (e.setting.callFrom fuel) a.trace err place final (a.limit e)
    ⟨e.machine, a.store e⟩

end Advance

/-- The engine behind a request. -/
def Request.after : Request → Engine → Engine
  | advance fuel a, e => stateOf (a.perform fuel e)
  | call fuel callee args, e => stateOf (Engine.call fuel callee args e)
  | define name key, e => stateOf (Engine.define name key e)
  | setGlobal name v, e => stateOf (Engine.setGlobal name v e)

namespace Engine

variable {e : Engine} {fuel : Nat} {err : Error} {options : RunOptions}

/-! ### Engines that a fault has stopped -/

theorem step_of_fault (h : e.fault = some err) : step fuel options e = .error (.error err) e := by
  obtain ⟨setting, machine, store, fault⟩ := e
  obtain rfl : fault = some err := h
  rfl

theorem run_of_fault (h : e.fault = some err) : run fuel options e = .error (.error err) e := by
  obtain ⟨setting, machine, store, fault⟩ := e
  obtain rfl : fault = some err := h
  rfl

theorem runForSteps_of_halted (h : e.halted = true) (n : Nat) :
    runForSteps fuel n options e = .ok false e := by
  have hrun : runForSteps fuel n options e =
      (if n = 0 || e.halted then (do pure !(← get).halted) else _ : Session Bool) e := rfl
  rw [hrun, h, Bool.or_true, if_pos rfl]
  exact congrArg (fun halted => EStateM.Result.ok (!halted) e) h

theorem runForSteps_of_not_halted (h : e.halted ≠ true) (n : Nat) :
    runForSteps fuel (n + 1) options e = (do
      checkFault
      discard (advance fuel options.trace (n + 1))
      pure !(← get).halted : Session Bool) e := by
  have hrun : runForSteps fuel (n + 1) options e =
      (if n + 1 = 0 || e.halted then _ else _ : Session Bool) e := rfl
  rw [hrun, if_neg (by simpa using h)]

/-- A bounded run looks whether the machine has halted before it looks for a fault. -/
theorem runForSteps_of_fault (h : e.fault = some err) (n : Nat) :
    runForSteps fuel (n + 1) options e = if e.halted then .ok false e
      else .error (.error err) e := by
  split
  · next hhalted => exact runForSteps_of_halted hhalted (n + 1)
  · next hhalted =>
    rw [runForSteps_of_not_halted hhalted]
    obtain ⟨setting, machine, store, fault⟩ := e
    obtain rfl : fault = some err := h
    rfl

theorem runForSteps_zero : runForSteps fuel 0 options e = .ok (!e.halted) e := rfl

theorem perform_of_fault (h : e.fault = some err) (a : Advance) :
    stateOf (a.perform fuel e) = e := by
  cases a with
  | step options =>
    rw [Advance.perform, step_of_fault h]
    rfl
  | run options =>
    change stateOf (EStateM.map _ (run fuel options) e) = e
    rw [EStateM.map, run_of_fault h]
    rfl
  | runForSteps steps options =>
    change stateOf (EStateM.map _ (runForSteps fuel steps options) e) = e
    rw [EStateM.map]
    cases steps with
    | zero =>
      rw [runForSteps_zero]
      rfl
    | succ n =>
      rw [runForSteps_of_fault h]
      cases e.halted <;> rfl

/-- No request clears a fault, or moves a machine that a fault has stopped. -/
theorem fault_after (h : e.fault = some err) (r : Request) :
    r.after e = { e with store := (r.after e).store } := by
  cases r with
  | advance fuel a =>
    rw [Request.after, perform_of_fault h]
  | call fuel callee args =>
    rw [Request.after, stateOf_call]
  | define name key => rfl
  | setGlobal name v => rfl

/-- Requests one after another. -/
theorem fault_foldl (h : e.fault = some err) (requests : List Request) :
    ∃ s, requests.foldl (fun e r => r.after e) e = { e with store := s } := by
  induction requests generalizing e with
  | nil => exact ⟨e.store, rfl⟩
  | cons r rest ih =>
    have hfirst := fault_after h r
    -- Only the store differs, so that the fault is there for the rest of the requests.
    generalize (r.after e).store = s₁ at hfirst
    obtain ⟨s, hs⟩ := @ih (r.after e) (by rw [hfirst]; exact h)
    refine ⟨s, ?_⟩
    rw [List.foldl_cons, hs, hfirst]

/-! ### Engines that no fault has stopped -/

/-- A run declares its variables first, and reports a limit that it has used up. -/
theorem run_of_no_fault (h : e.fault = none) :
    run fuel options e =
      match advance fuel options.trace (Advance.limit e (.run options))
        { e with store := Advance.store e (.run options) } with
      | .ok true e' => .ok (e'.machine.stack.headD .nil) e'
      | .ok false e' => .error (.error (.ranTooLong (Advance.limit e (.run options)))) e'
      | .error i e' => .error i e' := by
  obtain ⟨setting, machine, store, fault⟩ := e
  obtain rfl : fault = none := h
  change EStateM.bind
    (advance fuel options.trace (Advance.limit ⟨setting, machine, store, none⟩ (.run options))) _
    ⟨setting, machine, Advance.store ⟨setting, machine, store, none⟩ (.run options), none⟩ = _
  rw [EStateM.bind]
  generalize advance fuel options.trace _ _ = result
  cases result with
  | error i e' => rfl
  | ok halted e' => cases halted <;> rfl

/-- A bounded run that has something to execute. -/
theorem runForSteps_of_no_fault (h : e.fault = none) (hhalted : ¬ e.halted = true) (n : Nat) :
    runForSteps fuel (n + 1) options e =
      match advance fuel options.trace (n + 1) e with
      | .ok _ e' => .ok (!e'.halted) e'
      | .error i e' => .error i e' := by
  obtain ⟨setting, machine, store, fault⟩ := e
  obtain rfl : fault = none := h
  have hrun : runForSteps fuel (n + 1) options ⟨setting, machine, store, none⟩ =
      EStateM.bind (EStateM.map (Function.const Bool ()) (advance fuel options.trace (n + 1)))
        (fun _ e => .ok (!e.halted) e) ⟨setting, machine, store, none⟩ :=
    runForSteps_of_not_halted hhalted n
  rw [hrun]
  simp only [EStateM.bind, EStateM.map]
  cases advance fuel options.trace (n + 1) ⟨setting, machine, store, none⟩ <;> rfl

/-! ### Engines in which an instruction fails -/

/-- The engine that an instruction leaves which fails. -/
def stopped (e : Engine) (err : Error) (final : State) : Engine :=
  { e with machine := final.machine, store := final.store, fault := some err }

variable {trace : Bool} {place n : Nat} {final : State}

theorem advance_of_stopsAt
    (h : e.setting.StopsAt (e.setting.callFrom fuel) trace err place final n ⟨e.machine, e.store⟩) :
    advance fuel trace n e = .error (.error err) (e.stopped err final) := by
  obtain ⟨setting, machine, store, fault⟩ := e
  simp only [advance, h.runSteps_eq]
  rfl

/-- An instruction that fails is reported by whatever made the program go on, and its error
is kept. -/
theorem perform_of_stopsAt {a : Advance} (hfault : e.fault = none)
    (h : a.StopsAt fuel e err place final) :
    a.perform fuel e = .error (.error err) (e.stopped err final) := by
  cases a with
  | step options =>
    have hadvance : advance fuel options.trace 1 e = _ := advance_of_stopsAt h
    obtain ⟨setting, machine, store, fault⟩ := e
    obtain rfl : fault = none := hfault
    change EStateM.map _ (advance fuel options.trace 1) _ = _
    rw [EStateM.map, hadvance]
  | run options =>
    have hadvance : advance fuel options.trace (Advance.limit e (.run options))
        { e with store := Advance.store e (.run options) } = _ := advance_of_stopsAt h
    change EStateM.map _ (run fuel options) e = _
    rw [EStateM.map, run_of_no_fault hfault, hadvance]
    rfl
  | runForSteps steps options =>
    cases steps with
    | zero => cases h
    | succ n =>
      have hadvance : advance fuel options.trace (n + 1) e = _ := advance_of_stopsAt h
      change EStateM.map _ (runForSteps fuel (n + 1) options) e = _
      rw [EStateM.map, runForSteps_of_no_fault hfault h.not_halted, hadvance]

/-- **An error is reported again until a text is loaded or the engine is reset.**  Once an
instruction has failed, by whichever way the program was made to go on, this is reported,
and after any requests but for loading and resetting the machine is where the instruction
left it, and every step and every run does nothing but report the error again.  A bounded
run does so as well, unless the instruction was the last one of the program: then the
machine has halted, and a bounded run reports that instead. -/
theorem error_again_of_stopsAt {a : Advance} (hfault : e.fault = none)
    (h : a.StopsAt fuel e err place final) :
    a.perform fuel e = .error (.error err) (e.stopped err final) ∧
    ∀ requests : List Request, ∃ later : Engine,
      requests.foldl (fun e r => r.after e) (e.stopped err final) = later ∧
      later.setting = e.setting ∧ later.machine = final.machine ∧ later.fault = some err ∧
      ∀ (fuel : Nat) (options : RunOptions),
        step fuel options later = .error (.error err) later ∧
        run fuel options later = .error (.error err) later ∧
        ∀ n, runForSteps fuel (n + 1) options later =
          if place + 1 = e.setting.program.size then .ok false later
          else .error (.error err) later := by
  refine ⟨perform_of_stopsAt hfault h, fun requests => ?_⟩
  have hstopped : (e.stopped err final).fault = some err := rfl
  obtain ⟨s, hs⟩ := fault_foldl hstopped requests
  refine ⟨_, hs, rfl, rfl, rfl, fun fuel options => ?_⟩
  have hlater : Engine.fault { e.stopped err final with store := s } = some err := rfl
  refine ⟨step_of_fault hlater, run_of_fault hlater, fun n => ?_⟩
  have hhalted : Engine.halted { e.stopped err final with store := s } = true ↔
      place + 1 = e.setting.program.size := h.halted_iff
  rw [runForSteps_of_fault hlater]
  by_cases hlast : place + 1 = e.setting.program.size
  · rw [if_pos (hhalted.2 hlast), if_pos hlast]
  · rw [if_neg (mt hhalted.1 hlast), if_neg hlast]

/-- The program of the text `-x`, which ends in the instruction that negates. -/
def negation : Program := ⟨#[.named .load "x" ⟨1, 2⟩, .plain (.unary .negate) ⟨1, 1⟩], 0⟩

example : ((parse "-x").map fun chunk => (Program.empty.extend chunk).1.code.toList).toOption =
    some negation.code.toList := by decide +kernel

/-- Where `x` is no variable, the last instruction of the text `-x` fails.  A bounded run
reports afterwards that the program has halted. -/
theorem error_again_of_stopsAt_negation :
    ∃ (e : Engine) (final : State), e.setting.program = negation ∧ e.fault = none ∧
      (Advance.run .none).StopsAt 0 e (.runtime (.arithmetic .nil) ⟨1, 1⟩) 1 final ∧
      ∃ later : Engine, (Advance.run .none).perform 0 e =
          .error (.error (.runtime (.arithmetic .nil) ⟨1, 1⟩)) later ∧
        run 0 .none later = .error (.error (.runtime (.arithmetic .nil) ⟨1, 1⟩)) later ∧
        runForSteps 0 1 .none later = .ok false later := by
  let e : Engine := ⟨⟨negation, .standard, ⟨0⟩, fun _ _ _ => pure []⟩, .atTopLevel 0 ⟨0⟩,
    Store.empty.newScope.2, none⟩
  let final : State := ⟨⟨2, [], [⟨0⟩], [], [], [], 0⟩, Store.empty.newScope.2⟩
  have hstops : (Advance.run .none).StopsAt 0 e (.runtime (.arithmetic .nil) ⟨1, 1⟩) 1 final :=
    .later (by decide) rfl (.here rfl rfl)
  obtain ⟨hperform, hlater⟩ := error_again_of_stopsAt rfl hstops
  obtain ⟨later, rfl, -, -, -, hagain⟩ := hlater []
  obtain ⟨-, hrun, hbounded⟩ := hagain 0 .none
  exact ⟨e, final, rfl, rfl, hstops, _, hperform, hrun, hbounded 0⟩

end Engine

end ScriptEngine
