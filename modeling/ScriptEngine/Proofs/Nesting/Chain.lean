import ScriptEngine.Proofs.Nesting.Fuel

/-!
# Whether runs come back

A run comes back if the calls into the engine that it makes do not nest without
end.  The maximal depth of calls bounds how often script functions are entered
from native functions, but nothing bounds how many native functions call native
functions in a row.  A run comes back exactly if something does.

## Main definitions

* `Setting.callWithin` — calls into the engine that give up on a chain of native
  functions that call native functions, not on the nesting as a whole.
* `Engine.runWithin` — runs with such calls.
* `Returns` — a computation comes back.

## Main results

* `Engine.run_returns_iff` — runs come back exactly if their chains of native
  functions are bounded, and the nesting is bounded by the length of the chains
  and the maximal depth of calls.
* `Setting.callFrom_sort_self` — sorting a table that holds the sorting function
  and itself by the sorting function never comes back.
-/

namespace ScriptEngine

namespace Setting

variable {setting : Setting}

/-! ### Chains of native functions -/

/-- A call from a place with at most `chain` native functions that are called one
by another.  `enter` says what script functions do. -/
def chained (setting : Setting) (enter : Position → Nat → Reentry) :
    Nat → Position → Nat → Reentry
  | 0, _, _, .native _, _ => throw .outOfFuel
  | chain + 1, position, depth, .native f, arguments =>
    EStateM.adaptExcept (Failure.located position)
      (setting.natives f.body (setting.chained enter chain position depth) arguments)
  | _, position, depth, .function entry captured, arguments =>
    enter position depth (.function entry captured) arguments
  | _, position, _, callee, _ => throw (.error (.runtime (.calling callee.kind) position))

/-- A call from a place with at most `chain` native functions in a row, and at
most `levels` script functions that are entered from native functions. -/
def callWithin (setting : Setting) (chain : Nat) : Nat → Position → Nat → Reentry
  | 0 => fun _ _ _ _ => throw .outOfFuel
  | levels + 1 => setting.chained (setting.callFunction (setting.callWithin chain levels)) chain

/-- Calls that say nothing are below all others. -/
theorem CallsBelow.of_throw (depth : Nat) (call : Position → Nat → Reentry) :
    CallsBelow depth (fun _ _ _ _ => throw .outOfFuel) call :=
  fun _ _ _ _ _ => .throw_lost _

/-- With more fuel, a call says more. -/
theorem callFrom_below_succ (hnatives : NativesRespectFuel setting.natives) (fuel : Nat) :
    CallsBelow 0 (setting.callFrom fuel) (setting.callFrom (fuel + 1)) := by
  induction fuel with
  | zero => exact .of_throw 0 _
  | succ fuel ih =>
    intro position depth _ callee arguments
    cases callee with
    | native f =>
      exact (hnatives f.body (ih position depth (Nat.zero_le _)) arguments).adaptExcept rfl
    | function entry captured =>
      exact below_callFunction hnatives (ih.weaken (Nat.zero_le _)) position _ arguments
    | _ => exact .refl _

theorem callFrom_below (hnatives : NativesRespectFuel setting.natives) {fuel fuel' : Nat}
    (h : fuel ≤ fuel') : CallsBelow 0 (setting.callFrom fuel) (setting.callFrom fuel') := by
  induction h with
  | refl => exact fun _ _ _ _ _ => .refl _
  | @step fuel' _ ih =>
    exact fun position depth hdepth callee arguments =>
      (ih position depth hdepth callee arguments).trans
        (callFrom_below_succ hnatives fuel' position depth hdepth callee arguments)

/-- A chain of native functions takes its length of the fuel. -/
theorem chained_below_callFrom (hnatives : NativesRespectFuel setting.natives)
    {call : Position → Nat → Reentry} {fuel : Nat}
    (h : CallsBelow 0 call (setting.callFrom fuel)) (chain : Nat) :
    CallsBelow 0 (setting.chained (setting.callFunction call) chain)
      (setting.callFrom (fuel + (chain + 1))) := by
  have henter (chain : Nat) (position : Position) (depth entry : Nat) (captured : List ScopeRef)
      (arguments : List Value) :
      Below .outOfFuel
        (setting.callFunction call position depth (.function entry captured) arguments)
        (setting.callFrom (fuel + (chain + 1)) position depth (.function entry captured)
          arguments) := by
    refine below_callFunction hnatives
      (fun position d _ callee arguments => ?_) position _ arguments
    exact (h position d (Nat.zero_le _) callee arguments).trans
      (callFrom_below hnatives (Nat.le_add_right fuel chain) position d (Nat.zero_le _) callee
        arguments)
  induction chain with
  | zero =>
    intro position depth _ callee arguments
    cases callee with
    | native f => exact .throw_lost _
    | function entry captured => exact henter 0 position depth entry captured arguments
    | _ => exact .refl _
  | succ chain ih =>
    intro position depth _ callee arguments
    cases callee with
    | native f =>
      exact (hnatives f.body (ih position depth (Nat.zero_le _)) arguments).adaptExcept rfl
    | function entry captured => exact henter (chain + 1) position depth entry captured arguments
    | _ => exact .refl _

/-- Every level takes a chain and one more of the fuel. -/
theorem callWithin_below_callFrom (hnatives : NativesRespectFuel setting.natives)
    (chain levels : Nat) :
    CallsBelow 0 (setting.callWithin chain levels) (setting.callFrom (levels * (chain + 1))) := by
  induction levels with
  | zero => exact .of_throw 0 _
  | succ levels ih =>
    rw [Nat.succ_mul]
    exact chained_below_callFrom hnatives ih chain

/-! ### The depth of calls -/

/-- At the maximal depth a script function is not entered, whatever it would call. -/
theorem callFunction_at_limit (position : Position) {depth : Nat}
    (h : setting.config.maxCallDepth ≤ depth + 1) (call call' : Position → Nat → Reentry)
    (entry : Nat) (captured : List ScopeRef) (arguments : List Value) :
    setting.callFunction call position depth (.function entry captured) arguments =
      setting.callFunction call' position depth (.function entry captured) arguments := by
  funext s
  let m := setting.calleeMachine s.newScope.1 depth arguments
  have hfail (reenter : Reentry) :
      setting.callValue reenter (.function entry captured) arguments.length none
        ⟨m, s.newScope.2⟩ = .error (.cause .stackOverflow) ⟨m, s.newScope.2⟩ := by
    have hdepth : setting.config.maxCallDepth ≤ m.depth := h
    have hrequire : ¬ m.stack.length < arguments.length := by
      simp only [m, calleeMachine, List.length_reverse, Nat.lt_irrefl, not_false_iff]
    simp only [callValue, Exec.require, Exec.machine, bind, EStateM.bind, pure, EStateM.pure,
      if_neg hrequire, if_pos hdepth]
    rfl
  simp only [callFunction]
  rw [hfail, hfail]

/-- Fuel for all the nesting is enough for every chain, as every level that a call
goes down brings it closer to the maximal depth. -/
theorem callFrom_below_chained (hnatives : NativesRespectFuel setting.natives) (chain : Nat) :
    ∀ fuel, fuel ≤ chain → ∀ k, fuel ≤ k → ∀ levels depth,
      setting.config.maxCallDepth ≤ levels + depth →
      CallsBelow depth (setting.callFrom fuel)
        (setting.chained (setting.callFunction (setting.callWithin chain levels)) k) := by
  intro fuel
  induction fuel with
  | zero => exact fun _ k _ levels depth _ => .of_throw depth _
  | succ fuel ih =>
    rintro hchain k hk levels depth hlevels position d hd callee arguments
    obtain ⟨k, rfl⟩ : ∃ j, k = j + 1 := ⟨k - 1, by omega⟩
    cases callee with
    | native f =>
      have hrest := ih (by omega) k (by omega) levels d (by omega)
      exact (hnatives f.body (hrest position d (Nat.le_refl _)) arguments).adaptExcept rfl
    | function entry captured =>
      by_cases hlimit : setting.config.maxCallDepth ≤ d + 1
      · have heq := callFunction_at_limit position hlimit (setting.callFrom fuel)
          (setting.callWithin chain levels) entry captured arguments
        simp only [callFrom, chained, heq]
        exact .refl _
      · obtain ⟨levels, rfl⟩ : ∃ j, levels = j + 1 := ⟨levels - 1, by omega⟩
        have hrest := ih (by omega) chain (by omega) levels (d + 1) (by omega)
        exact below_callFunction hnatives hrest position _ arguments
    | _ => exact .refl _

/-- **A table that holds the sorting function and itself cannot be sorted by the
sorting function**: comparing its values is to sort it again. -/
theorem callFrom_sort_self (host : String → NativeBody)
    (hnatives : setting.natives = Library.run host) {f : Native} (hf : f.body = .table .sort)
    {ref : TableRef} {s : Store} (hs : (s.table ref).sequence = [.native f, .table ref])
    (fuel : Nat) (position : Position) (depth : Nat) :
    setting.callFrom fuel position depth (.native f) [.table ref, .native f] s =
      .error .outOfFuel s := by
  induction fuel with
  | zero => rfl
  | succ fuel ih =>
    have hbefore : Library.sortsBefore (setting.callFrom fuel position depth) (.native f)
        (.table ref) (.native f) s = .error (.interrupt .outOfFuel) s := by
      rw [Library.sortsBefore, if_neg (show ¬ (Value.native f).isNil = true from nofun)]
      simp only [bind, EStateM.bind, EStateM.adaptExcept, ih]
    have hsort : Library.sort (setting.callFrom fuel position depth) [.table ref, .native f] s =
        .error (.interrupt .outOfFuel) s := by
      simp only [Library.sort, Arguments.table, Library.lift, Library.contents, Library.sortWith,
        Arguments.value, List.getElem?_cons_zero, List.getD_cons_succ, List.getD_cons_zero, bind,
        EStateM.bind, pure, EStateM.pure, hs, Library.sortOnto, Library.sink, hbefore]
    have hrun : setting.natives f.body (setting.callFrom fuel position depth)
        [.table ref, .native f] s = .error (.interrupt .outOfFuel) s := by
      rw [hnatives, hf]
      exact hsort
    simp only [callFrom, EStateM.adaptExcept, hrun]
    rfl

end Setting

/-! ### Engines -/

/-- A computation does not run out of fuel. -/
def Returns {σ α : Type} (r : EStateM.Result Interrupt σ α) : Prop :=
  ∀ s, r ≠ .error .outOfFuel s

namespace Engine

variable (call call' : Setting → Position → Nat → Reentry)

/-- Steps until the machine halts, with any calls into the engine. -/
def advanceBy (trace : Bool) (steps : Nat) : Session Bool := fun e =>
  match e with
  | ⟨setting, machine, store, fault⟩ =>
    match setting.runSteps (call setting) trace steps ⟨machine, store⟩ with
    | .ok halted ⟨machine, store⟩ => .ok halted ⟨setting, machine, store, fault⟩
    | .error (.error err) ⟨machine, store⟩ =>
      .error (.error err) ⟨setting, machine, store, some err⟩
    | .error .outOfFuel ⟨machine, store⟩ =>
      .error .outOfFuel ⟨setting, machine, store, fault⟩

/-- Runs the program until it halts, with any calls into the engine. -/
def runBy (options : RunOptions) : Session Value := do
  checkFault
  declareLocals options.locals
  let limit := options.stepLimit.getD (← get).setting.config.stepLimit
  if ← advanceBy call options.trace limit then
    pure ((← get).machine.stack.headD .nil)
  else throw (.error (.ranTooLong limit))

theorem run_eq (fuel : Nat) (options : RunOptions) :
    run fuel options = runBy (·.callFrom fuel) options := rfl

/-- Runs the program until it halts, giving up where more than `chain` native
functions call each other. -/
def runWithin (chain : Nat) (options : RunOptions) : Session Value :=
  runBy (fun setting => setting.callWithin chain (setting.config.maxCallDepth + 1)) options

variable {call call'}

theorem advanceBy_below {e : Engine} (hnatives : NativesRespectFuel e.setting.natives)
    (h : Setting.CallsBelow 0 (call e.setting) (call' e.setting)) (trace : Bool) (steps : Nat) :
    (∃ e', advanceBy call trace steps e = .error .outOfFuel e') ∨
      advanceBy call trace steps e = advanceBy call' trace steps e := by
  obtain ⟨setting, machine, store, fault⟩ := e
  rcases Setting.below_runSteps hnatives h trace steps ⟨machine, store⟩ (Nat.zero_le _) with
    ⟨st, hlost⟩ | heq
  · exact .inl ⟨⟨setting, st.machine, st.store, fault⟩, by simp only [advanceBy, hlost]⟩
  · exact .inr (by simp only [advanceBy, heq])

/-- A run that does not run out of fuel is the same with calls that say more. -/
theorem runBy_eq_of_below {e : Engine} (hnatives : NativesRespectFuel e.setting.natives)
    (h : Setting.CallsBelow 0 (call e.setting) (call' e.setting)) (options : RunOptions)
    (hreturns : Returns (runBy call options e)) :
    runBy call options e = runBy call' options e := by
  cases hfault : e.fault with
  | some err => simp only [runBy, checkFault, bind, EStateM.bind, hfault]
  | none =>
    let declared : Engine := { e with
      store := options.locals.foldl (fun s entry => s.declare e.setting.root entry.1 entry.2)
        e.store }
    let limit := options.stepLimit.getD e.setting.config.stepLimit
    let rest (call : Setting → Position → Nat → Reentry) : Session Value := do
      if ← advanceBy call options.trace limit then
        pure ((← get).machine.stack.headD .nil)
      else throw (.error (.ranTooLong limit))
    have hrun (call : Setting → Position → Nat → Reentry) :
        runBy call options e = rest call declared := by
      simp only [runBy, checkFault, bind, EStateM.bind, hfault]
      rfl
    rw [hrun] at hreturns
    rw [hrun, hrun]
    rcases advanceBy_below (e := declared) hnatives h options.trace limit with ⟨e', hlost⟩ | heq
    · refine absurd ?_ (hreturns e')
      simp only [rest, bind, EStateM.bind, hlost]
    · simp only [rest, bind, EStateM.bind, heq]

/-- **Runs come back exactly if the chains of native functions that call each other
are bounded.**  If no chain is longer than `chain`, at most
`(maxCallDepth + 1) * (chain + 1)` calls into the engine are nested, so that runs
with this much fuel or more all have the same result; without chains, these are
`maxCallDepth + 1`. -/
theorem run_returns_iff (program : Program) (config : Config) (root : ScopeRef) (machine : Machine)
    (store : Store) (fault : Option Error) (options : RunOptions) :
    let e : Engine := ⟨⟨program, config, root, Library.run Host.function⟩, machine, store, fault⟩
    ((∃ fuel, Returns (run fuel options e)) ↔ ∃ chain, Returns (runWithin chain options e)) ∧
      (∀ chain, Returns (runWithin chain options e) →
        ∀ fuel, (config.maxCallDepth + 1) * (chain + 1) ≤ fuel →
          run fuel options e = runWithin chain options e) ∧
      ∀ fuel, Returns (run fuel options e) → runWithin fuel options e = run fuel options e := by
  intro e
  have hwithin (chain : Nat) (hreturns : Returns (runWithin chain options e)) (fuel : Nat)
      (hfuel : (config.maxCallDepth + 1) * (chain + 1) ≤ fuel) :
      run fuel options e = runWithin chain options e := by
    rw [run_eq]
    refine (runBy_eq_of_below nativesRespectFuel_run ?_ options hreturns).symm
    intro position depth hdepth callee arguments
    exact (Setting.callWithin_below_callFrom nativesRespectFuel_run chain _ position depth hdepth
      callee arguments).trans
        (Setting.callFrom_below nativesRespectFuel_run hfuel position depth hdepth callee arguments)
  have hrun (fuel : Nat) (hreturns : Returns (run fuel options e)) :
      runWithin fuel options e = run fuel options e := by
    rw [run_eq] at hreturns ⊢
    refine (runBy_eq_of_below nativesRespectFuel_run ?_ options hreturns).symm
    exact Setting.callFrom_below_chained nativesRespectFuel_run fuel fuel (Nat.le_refl _) fuel
      (Nat.le_refl _) _ 0 (Nat.le_refl _)
  refine ⟨⟨?_, ?_⟩, hwithin, hrun⟩
  · rintro ⟨fuel, hreturns⟩
    exact ⟨fuel, by rw [hrun fuel hreturns]; exact hreturns⟩
  · rintro ⟨chain, hreturns⟩
    exact ⟨_, by rw [hwithin chain hreturns _ (Nat.le_refl _)]; exact hreturns⟩

end Engine

end ScriptEngine
