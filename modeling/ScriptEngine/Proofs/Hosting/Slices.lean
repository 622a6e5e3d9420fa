import ScriptEngine.Proofs.Compilation.Execution
import ScriptEngine.Proofs.Hosting.Faults

/-!
# Slices of runs

A host can run a program at once, or a number of instructions at a time.  It makes no
difference: bounded runs one after another do what one of them does that is as long as all of
them, and a run that has used up its steps can be continued by another one as if nothing had
happened.

## Main definitions

* `Setting.Executes` — a number of instructions are executed, and none of them fails.
* `Engine.renamed` — an outcome in which another limit is named.
* `Engine.Sliced` — what holds of the slices of a run.

## Main results

* `Setting.runSteps_add` — a run is one part of it after the other.
* `Engine.sliced_of_no_fault` — slicing a run changes nothing.
-/

namespace ScriptEngine

namespace Setting

variable {setting : Setting} {call : Position → Nat → Reentry} {trace : Bool} {m n : Nat}
  {st st' : State}

/-! ### Runs of machines -/

/-- **A run is one part of it after the other.** -/
theorem runSteps_add (m n : Nat) (st : State) :
    setting.runSteps call trace (m + n) st =
      match setting.runSteps call trace m st with
      | .ok true st' => .ok true st'
      | .ok false st' => setting.runSteps call trace n st'
      | .error i st' => .error i st' := by
  -- By induction on the first part: a machine that has halted, or a step that fails, ends both.
  induction m generalizing st with
  | zero =>
    rw [Nat.zero_add]
    cases hhalted : setting.halted st.machine with
    | true => rw [runSteps_of_halted n hhalted, runSteps_of_halted 0 hhalted]
    | false => simp only [runSteps, hhalted]
  | succ m ih =>
    rw [Nat.succ_add]
    by_cases hhalted : setting.halted st.machine = true
    · rw [runSteps_of_halted _ hhalted, runSteps_of_halted _ hhalted]
    · cases hstep : setting.step call trace st with
      | ok u st' => rw [runSteps_of_step hhalted hstep, runSteps_of_step hhalted hstep, ih]
      | error i st' =>
        rw [runSteps_of_step_error hhalted hstep, runSteps_of_step_error hhalted hstep]

/-- The answer of a run says whether the machine has halted. -/
theorem halted_of_runSteps {halted : Bool} (h : setting.runSteps call trace n st = .ok halted st') :
    setting.halted st'.machine = halted := by
  induction n generalizing st with
  | zero =>
    cases h
    rfl
  | succ n ih =>
    by_cases hhalted : setting.halted st.machine = true
    · rw [runSteps_of_halted _ hhalted] at h
      cases h
      exact hhalted
    · cases hstep : setting.step call trace st with
      | ok u st₁ =>
        rw [runSteps_of_step hhalted hstep] at h
        exact ih h
      | error i st₁ =>
        rw [runSteps_of_step_error hhalted hstep] at h
        cases h

/-- A number of instructions are executed one after another, and none of them fails. -/
inductive Executes (setting : Setting) (call : Position → Nat → Reentry) (trace : Bool) :
    Nat → State → State → Prop
  | none {st : State} : Executes setting call trace 0 st st
  | next {n : Nat} {st st₁ st' : State} (hhalted : ¬ setting.halted st.machine = true)
      (hstep : setting.step call trace st = .ok () st₁)
      (h : Executes setting call trace n st₁ st') : Executes setting call trace (n + 1) st st'

theorem Executes.runSteps_eq (h : setting.Executes call trace n st st') :
    setting.runSteps call trace n st = .ok (setting.halted st'.machine) st' := by
  induction h with
  | none => rfl
  | next hhalted hstep _ ih => rw [runSteps_of_step hhalted hstep, ih]

/-- A run at whose end the machine has not halted has executed as many instructions as it may. -/
theorem executes_of_runSteps (h : setting.runSteps call trace n st = .ok false st') :
    setting.Executes call trace n st st' := by
  induction n generalizing st with
  | zero =>
    obtain ⟨-, rfl⟩ := EStateM.Result.ok.inj h
    exact .none
  | succ n ih =>
    by_cases hhalted : setting.halted st.machine = true
    · rw [runSteps_of_halted _ hhalted] at h
      cases h
    · cases hstep : setting.step call trace st with
      | ok u st₁ =>
        rw [runSteps_of_step hhalted hstep] at h
        exact .next hhalted hstep (ih h)
      | error i st₁ =>
        rw [runSteps_of_step_error hhalted hstep] at h
        cases h

end Setting

/-- A run with another limit. -/
def RunOptions.within (options : RunOptions) (limit : Nat) : RunOptions :=
  { options with stepLimit := some limit }

namespace Engine

variable {e e' : Engine} {fuel m n : Nat} {options : RunOptions} {trace : Bool}

/-! ### Runs of engines -/

/-- The state of the machine of an engine. -/
def state (e : Engine) : State := ⟨e.machine, e.store⟩

/-- The engine with its machine in another state. -/
def inState (e : Engine) (st : State) : Engine :=
    { e with machine := st.machine, store := st.store }

theorem advance_add (m n : Nat) :
    advance fuel trace (m + n) e =
      match advance fuel trace m e with
      | .ok true e' => .ok true e'
      | .ok false e' => advance fuel trace n e'
      | .error i e' => .error i e' := by
  obtain ⟨setting, machine, store, fault⟩ := e
  simp only [advance, Setting.runSteps_add]
  cases setting.runSteps (setting.callFrom fuel) trace m ⟨machine, store⟩ with
  | ok halted st => cases halted <;> rfl
  | error i st => cases i <;> rfl

/-- What an engine is like behind instructions that have not failed. -/
theorem of_advance_ok {halted : Bool} (h : advance fuel trace n e = .ok halted e') :
    e'.halted = halted ∧ e'.fault = e.fault ∧ e'.setting = e.setting := by
  obtain ⟨setting, machine, store, fault⟩ := e
  simp only [advance] at h
  cases hrun : setting.runSteps (setting.callFrom fuel) trace n ⟨machine, store⟩ with
  | ok halted' st =>
    rw [hrun] at h
    cases h
    exact ⟨Setting.halted_of_runSteps hrun, rfl, rfl⟩
  | error i st =>
    rw [hrun] at h
    cases i <;> cases h

/-- Instructions that are executed one after another without failing. -/
theorem advance_of_executes {st : State}
    (h : e.setting.Executes (e.setting.callFrom fuel) trace n e.state st) :
    advance fuel trace n e = .ok (e.setting.halted st.machine) (e.inState st) := by
  obtain ⟨setting, machine, store, fault⟩ := e
  have hrun := h.runSteps_eq
  dsimp only [state] at hrun
  simp only [advance, hrun]
  rfl

/-- Whether a bounded run finds the machine halted, and what it executes otherwise, are one. -/
theorem runForSteps_eq_advance (hfault : e.fault = none) (n : Nat) :
    runForSteps fuel n options e =
      match advance fuel options.trace n e with
      | .ok halted e' => .ok (!halted) e'
      | .error i e' => .error i e' := by
  obtain ⟨setting, machine, store, fault⟩ := e
  by_cases hhalted : setting.halted machine = true
  · have hrun : setting.runSteps (setting.callFrom fuel) options.trace n ⟨machine, store⟩ =
        .ok true ⟨machine, store⟩ := Setting.runSteps_of_halted n hhalted
    have hengine : Engine.halted ⟨setting, machine, store, fault⟩ = true := hhalted
    simp only [runForSteps_of_halted hengine, advance, hrun, Bool.not_true]
  · cases n with
    | zero => rfl
    | succ n =>
      rw [runForSteps_of_no_fault hfault hhalted]
      cases hadvance : advance fuel options.trace (n + 1) ⟨setting, machine, store, fault⟩ with
      | ok halted e' => simp only [(of_advance_ok hadvance).1]
      | error i e' => rfl

/-- A run without variables to declare is a bounded run as long as its limit. -/
theorem run_eq_advance (hfault : e.fault = none) (hlocals : options.locals = []) :
    run fuel options e =
      match advance fuel options.trace (options.stepLimit.getD e.setting.config.stepLimit) e with
      | .ok true e' => .ok (e'.machine.stack.headD .nil) e'
      | .ok false e' =>
        .error (.error (.ranTooLong (options.stepLimit.getD e.setting.config.stepLimit))) e'
      | .error i e' => .error i e' := by
  have hstore : Advance.store e (.run options) = e.store := by
    rw [Advance.store, hlocals, List.foldl_nil]
  have hrun : run fuel options e = _ := run_of_no_fault hfault
  rw [hstore] at hrun
  exact hrun

/-! ### Slices -/

/-- An outcome in which another limit is named, if the run has used up its steps.  A limit that
a call inside of the run has used up is a fault, and stays as it is. -/
def renamed (limit : Nat) : EStateM.Result Interrupt Engine Value →
    EStateM.Result Interrupt Engine Value
  | .error (.error (.ranTooLong named)) e =>
    .error (.error (.ranTooLong (if e.fault = none then limit else named))) e
  | result => result

/-- Slicing a run of an engine changes nothing.  Two bounded runs one after another are one.  A
run whose limit is used up, that many instructions having been executed and the program not
having halted, leaves what a bounded run leaves, and no fault; and another run after it does
what a single run does whose limit is the sum, but for the limit that it names.  In no other case
does a run report a limit without leaving a fault.  A program that halts with the last
instruction that the limit allows has a result. -/
structure Sliced (e : Engine) (fuel : Nat) (options : RunOptions) : Prop where
  bounded : ∀ m n,
    (do discard (runForSteps fuel m options); runForSteps fuel n options : Session Bool) e =
      runForSteps fuel (m + n) options e
  limit : run fuel options e =
    run fuel (options.within (options.stepLimit.getD e.setting.config.stepLimit)) e
  usedUp : ∀ {limit : Nat} {st : State},
    e.setting.Executes (e.setting.callFrom fuel) options.trace limit e.state st →
    ¬ e.setting.halted st.machine = true →
    run fuel (options.within limit) e = .error (.error (.ranTooLong limit)) (e.inState st) ∧
      (e.inState st).fault = none ∧ runForSteps fuel limit options e = .ok true (e.inState st) ∧
      ∀ further, run fuel (options.within (limit + further)) e =
        renamed (limit + further) (run fuel (options.within further) (e.inState st))
  only : ∀ {limit named : Nat} {e' : Engine},
    run fuel (options.within limit) e = .error (.error (.ranTooLong named)) e' → e'.fault = none →
    named = limit ∧ ∃ st, e' = e.inState st ∧ ¬ e.setting.halted st.machine = true ∧
      e.setting.Executes (e.setting.callFrom fuel) options.trace limit e.state st
  halts : ∀ {limit : Nat} {st : State},
    e.setting.Executes (e.setting.callFrom fuel) options.trace limit e.state st →
    e.setting.halted st.machine = true →
    run fuel (options.within limit) e = .ok (st.machine.stack.headD .nil) (e.inState st)

theorem runForSteps_add (hfault : e.fault = none) (m n : Nat) :
    (do discard (runForSteps fuel m options); runForSteps fuel n options : Session Bool) e =
      runForSteps fuel (m + n) options e := by
  have hrun :
      (do discard (runForSteps fuel m options); runForSteps fuel n options : Session Bool) e =
      match runForSteps fuel m options e with
      | .ok _ e' => runForSteps fuel n options e'
      | .error i e' => .error i e' := by
    change EStateM.bind (EStateM.map (Function.const Bool ()) (runForSteps fuel m options))
      (fun _ => runForSteps fuel n options) e = _
    rw [EStateM.bind, EStateM.map]
    cases runForSteps fuel m options e <;> rfl
  rw [hrun, runForSteps_eq_advance hfault, runForSteps_eq_advance hfault, advance_add]
  cases hadvance : advance fuel options.trace m e with
  | error i e' => rfl
  | ok halted e' =>
    obtain ⟨hhalted, hfault', -⟩ := of_advance_ok hadvance
    dsimp only
    rw [runForSteps_eq_advance (hfault'.trans hfault)]
    cases halted with
    | false => rfl
    | true =>
      obtain ⟨setting, machine, store, fault⟩ := e'
      have hstays : setting.runSteps (setting.callFrom fuel) options.trace n ⟨machine, store⟩ =
          .ok true ⟨machine, store⟩ := Setting.runSteps_of_halted n hhalted
      simp only [advance, hstays]

/-- A failure of an instruction is kept as a fault, but for a want of fuel. -/
theorem fault_of_advance_error {err : Error} (h : advance fuel trace n e = .error (.error err) e') :
    e'.fault = some err := by
  obtain ⟨setting, machine, store, fault⟩ := e
  simp only [advance] at h
  cases hrun : setting.runSteps (setting.callFrom fuel) trace n ⟨machine, store⟩ with
  | ok halted st =>
    rw [hrun] at h
    cases h
  | error i st =>
    rw [hrun] at h
    cases i with
    | error err' =>
      cases h
      rfl
    | outOfFuel => cases h

/-- An engine that can go on after a number of instructions has executed all of them. -/
theorem executes_of_advance (h : advance fuel trace n e = .ok false e') :
    ∃ st, e' = e.inState st ∧ ¬ e.setting.halted st.machine = true ∧
      e.setting.Executes (e.setting.callFrom fuel) trace n e.state st := by
  obtain ⟨setting, machine, store, fault⟩ := e
  simp only [advance] at h
  cases hrun : setting.runSteps (setting.callFrom fuel) trace n ⟨machine, store⟩ with
  | ok halted st =>
    rw [hrun] at h
    cases h
    refine ⟨st, rfl, ?_, Setting.executes_of_runSteps hrun⟩
    exact Bool.eq_false_iff.1 (Setting.halted_of_runSteps hrun)
  | error i st =>
    rw [hrun] at h
    cases i <;> cases h

/-- **Slicing a run changes nothing.** -/
theorem sliced_of_no_fault (hfault : e.fault = none) (hlocals : options.locals = []) :
    e.Sliced fuel options where
  bounded := runForSteps_add hfault
  limit := by
    have hlocals' (limit : Nat) : (options.within limit).locals = [] := hlocals
    rw [run_eq_advance hfault hlocals, run_eq_advance hfault (hlocals' _)]
    rfl
  usedUp := by
    intro limit st hexecutes hhalted
    have hadvance := advance_of_executes hexecutes
    rw [Bool.eq_false_of_not_eq_true hhalted] at hadvance
    have hlocals' (limit : Nat) : (options.within limit).locals = [] := hlocals
    refine ⟨?_, hfault, ?_, fun further => ?_⟩
    · rw [run_eq_advance hfault (hlocals' _)]
      simp only [RunOptions.within, Option.getD_some, hadvance]
    · rw [runForSteps_eq_advance hfault, hadvance]
      rfl
    · have hfault' : (e.inState st).fault = none := hfault
      rw [run_eq_advance hfault (hlocals' _), run_eq_advance hfault' (hlocals' _)]
      simp only [RunOptions.within, Option.getD_some, advance_add, hadvance]
      cases hrest : advance fuel options.trace further (e.inState st) with
      | ok halted e' =>
        obtain ⟨-, hnone, -⟩ := of_advance_ok hrest
        cases halted with
        | true => rfl
        | false => simp only [renamed, hnone.trans hfault', if_true]
      | error i e' =>
        -- An instruction has failed, so that there is a fault and no limit is renamed.
        cases i with
        | outOfFuel => rfl
        | error err =>
          have hsome := fault_of_advance_error hrest
          cases err <;> simp [renamed, hsome]
  only := by
    intro limit named e' hrun hnone
    have hlocals' : (options.within limit).locals = [] := hlocals
    rw [run_eq_advance hfault hlocals'] at hrun
    simp only [RunOptions.within, Option.getD_some] at hrun
    cases hadvance : advance fuel options.trace limit e with
    | ok halted e₁ =>
      rw [hadvance] at hrun
      cases halted with
      | true => cases hrun
      | false =>
        cases hrun
        exact ⟨rfl, executes_of_advance hadvance⟩
    | error i e₁ =>
      rw [hadvance] at hrun
      cases hrun
      rw [fault_of_advance_error hadvance] at hnone
      cases hnone
  halts := by
    intro limit st hexecutes hhalted
    have hadvance := advance_of_executes hexecutes
    rw [hhalted] at hadvance
    have hlocals' : (options.within limit).locals = [] := hlocals
    rw [run_eq_advance hfault hlocals']
    simp only [RunOptions.within, Option.getD_some, hadvance]
    rfl

/-- The program of the text `x = 1`. -/
def assignment : Program :=
  ⟨#[.withValue .push (.number 1) ⟨1, 5⟩, .named .store "x" ⟨1, 1⟩], 0⟩

example : ((parse "x = 1").map fun chunk => (Program.empty.extend chunk).1.code.toList).toOption =
    some assignment.code.toList := by decide +kernel

/-- The text `x = 1` has two instructions.  A run that may execute one of them stops in between, and
a run that may execute both has a result. -/
theorem sliced_of_no_fault_assignment :
    ∃ (e : Engine) (between final : State), e.setting.program = assignment ∧ e.fault = none ∧
      RunOptions.none.locals = [] ∧ e.Sliced 0 .none ∧
      run 0 (RunOptions.none.within 1) e = .error (.error (.ranTooLong 1)) (e.inState between) ∧
      runForSteps 0 1 .none e = .ok true (e.inState between) ∧
      run 0 (RunOptions.none.within 2) e = .ok .nil (e.inState final) := by
  let e : Engine := ⟨⟨assignment, .standard, ⟨0⟩, fun _ _ _ => pure []⟩, .atTopLevel 0 ⟨0⟩,
    Store.empty.newScope.2, none⟩
  let between : State := ⟨⟨1, [.number 1], [⟨0⟩], [], [], [], 0⟩, Store.empty.newScope.2⟩
  let final : State :=
    ⟨⟨2, [], [⟨0⟩], [], [], [], 0⟩, Store.empty.newScope.2.setGlobal "x" (.number 1)⟩
  have hsliced : e.Sliced 0 .none := sliced_of_no_fault rfl rfl
  have hfirst : e.setting.Executes (e.setting.callFrom 0) false 1 e.state between :=
    .next (by decide) rfl .none
  have hboth : e.setting.Executes (e.setting.callFrom 0) false 2 e.state final :=
    .next (by decide) rfl (.next (by decide) rfl .none)
  obtain ⟨hrun, -, hbounded, -⟩ := hsliced.usedUp hfirst (by decide)
  exact ⟨e, between, final, rfl, rfl, rfl, hsliced, hrun, hbounded, hsliced.halts hboth (by decide)⟩

end Engine

end ScriptEngine
