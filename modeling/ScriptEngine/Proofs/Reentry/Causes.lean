import ScriptEngine.Proofs.Reentry.Frames
import ScriptEngine.Proofs.Reentry.Principle

/-!
# Where errors come from

An error has been raised by an instruction of some machine, or by a native function that it has
called: in the program itself, or in a call back into the engine, however deep.  It carries the
place of the instruction that the innermost machine was executing, and all calls around it pass it
on as it is.

## Main definitions

* `Activity.machine` — the innermost machine of an activity.
* `Setting.Raises` — an activity fails by itself.
* `Setting.RaisedAt` — it does so at the place of the instruction of its innermost machine.

## Main results

* `exists_makes_of_interrupt` — what a native function passes on, one of its calls has met.
* `Setting.exists_raisedAt_of_callFrom`, `Setting.exists_raisedAt_of_step` — errors of calls and
  steps have been raised by something that has happened in them.
-/

namespace ScriptEngine

open Exec

/-! ### What native functions pass on -/

/-- The end of a conversation depends on the answers to the calls that are made only. -/
theorem Dialogue.run_congr {α : Type} {d : Dialogue α} {call call' : Reentry}
    (h : ∀ callee args s, d.Makes call callee args s → call' callee args s = call callee args s) :
    d.run call' = d.run call := by
  induction d with
  | done result => rfl
  | ask callee args s next ih =>
    rw [run, run, h callee args s .first]
    exact ih _ fun callee' args' s' hmakes => h callee' args' s' (.later hmakes)

open Classical in
/-- The calls that are made in a conversation are answered as before, and all others not at all. -/
noncomputable def Reentry.made (call : Reentry) (d : Dialogue (List Value)) : Reentry :=
  fun callee args s =>
    if d.Makes call callee args s then call callee args s else .error .outOfFuel s

/-- **What a native function passes on, one of its calls has met.** -/
theorem exists_makes_of_interrupt {natives : Builtin → NativeBody} {talk : Talk}
    (honest : Honest natives talk) (candid : Candid natives) {b : Builtin} {call : Reentry}
    {args : List Value} {s s' : Store} {err : Error}
    (h : natives b call args s = .error (.interrupt (.error err)) s') :
    ∃ callee args' t t', (talk b args s).Makes call callee args' t ∧
      call callee args' t = .error (.error err) t' := by
  let made := Reentry.made call (talk b args s)
  let P : Interrupt → Prop := fun i => i = .outOfFuel ∨ ∃ callee args' t t',
    (talk b args s).Makes call callee args' t ∧ call callee args' t = .error i t'
  -- The native function does not notice that only the calls it makes are answered, and all that
  -- these meet is as `P` says.
  have hsame : natives b made args s = natives b call args s := by
    rw [honest.runs, honest.runs]
    exact Dialogue.run_congr fun callee args' t hmakes => if_pos hmakes
  have hcalls :
      ∀ callee args', Mirrors (Store.behind #[]) P (made callee args') (made callee args') := by
    intro callee args'
    rw [Store.behind_empty]
    refine .refl fun t => ?_
    by_cases hmakes : (talk b args s).Makes call callee args' t
    · have hmade : made callee args' t = call callee args' t := if_pos hmakes
      rw [hmade]
      cases hcall : call callee args' t with
      | ok results t' => trivial
      | error i t' => exact .inr ⟨callee, args', t, t', hmakes, hcall⟩
    · have hmade : made callee args' t = .error .outOfFuel t := if_neg hmakes
      rw [hmade]
      exact .inl rfl
  have hfails := (candid #[] P made made hcalls b args s).2
  rw [hsame, h] at hfails
  exact hfails.resolve_left nofun

/-! ### Instructions that fail -/

/-- The innermost machine of an activity: the one that runs, or that has called the native
function which calls back. -/
def Activity.machine : Activity → Machine
  | .running _ _ _ st => st.machine
  | .calling caller _ _ _ _ _ _ _ => caller

namespace Setting

variable {setting : Setting} {talk : Talk} {waiting : List Machine} {fuel : Nat} {trace : Bool}
  {st st' : State} {op : Op} {c : Cause} {p : Position}

/-- An activity fails by itself: the instruction of the machine that runs does, or a native
function that it calls; or a call into the engine is that of a native function that fails, or
cannot be made. -/
inductive Raises (setting : Setting) : Activity → Cause → Prop
  | instruction {waiting : List Machine} {fuel : Nat} {trace : Bool} {st st' : State} {op : Op}
      {c : Cause} (hop : setting.program.code[st.machine.ip]? = some op)
      (h : setting.execute (setting.callFrom fuel op.position st.machine.depth) op
        ⟨st.machine.past, announced trace op st⟩ = .error (.cause c) st') :
      Raises setting (.running waiting fuel trace st) c
  | native {caller : Machine} {waiting : List Machine} {fuel : Nat} {position : Position}
      {depth : Nat} {f : Native} {args : List Value} {s s' : Store} {c : Cause}
      (h : setting.natives f.body (setting.callFrom fuel position depth) args s =
        .error (.cause c) s') :
      Raises setting (.calling caller waiting (fuel + 1) position depth (.native f) args s) c
  | overflow {caller : Machine} {waiting : List Machine} {fuel : Nat} {position : Position}
      {depth entry : Nat} {captured : List ScopeRef} {args : List Value} {s : Store}
      (h : setting.config.maxCallDepth ≤ depth + 1) :
      Raises setting
        (.calling caller waiting (fuel + 1) position depth (.function entry captured) args s)
        .stackOverflow
  | value {caller : Machine} {waiting : List Machine} {fuel : Nat} {position : Position}
      {depth : Nat} {callee : Value} {args : List Value} {s : Store}
      (hnative : ∀ f, callee ≠ .native f)
      (hfunction : ∀ entry captured, callee ≠ .function entry captured) :
      Raises setting (.calling caller waiting (fuel + 1) position depth callee args s)
        (.calling callee.kind)

/-- An activity fails by itself, and the error carries the place of the instruction of its
innermost machine, which is none that opens or closes a scope. -/
def RaisedAt (setting : Setting) (a : Activity) (c : Cause) (p : Position) : Prop :=
  setting.Raises a c ∧ ∃ op, setting.program.code[a.machine.ip]? = some op ∧ op.position = p ∧
    op.code ≠ .startBlock ∧ op.code ≠ .endBlock

/-- An instruction that makes no call fails for causes of its own only. -/
theorem exists_cause_of_execute {reenter : Reentry} {m : Machine} {s : Store} {e : Failure}
    (hcall : ¬ (op.code = .call ∨ op.code = .iterNext))
    (h : setting.execute reenter op ⟨m, s⟩ = .error e st') : ∃ c, e = .cause c := by
  obtain ⟨hcall, hiter⟩ := not_or.1 hcall
  have hfails : FailsAs (Failure.Passes fun _ => False) (setting.execute reenter op ⟨m, s⟩) := by
    by_cases hret : op.code = .ret
    · -- Once there are values to return, nothing can fail any more.
      have hmirrors :
          Mirrors (State.altered ⟨id, id⟩ #[]) (Failure.Passes fun _ => False) (returning op)
          (returning op) := mirrors_returning op
      have hreturning := (hmirrors ⟨m, s⟩).2
      rw [execute_ret hret]
      change FailsAs _ (EStateM.bind (returning op) setting.leaveFunction ⟨m, s⟩)
      rw [EStateM.bind]
      cases hrun : returning op ⟨m, s⟩ with
      | ok results st => trivial
      | error e st =>
        rw [hrun] at hreturning
        exact hreturning
    · have hmirrors : Mirrors (State.altered ⟨id, id⟩ #[]) (Failure.Passes fun _ => False)
          (setting.execute reenter op) (setting.execute reenter op) :=
        mirrors_execute hcall hiter hret
      exact (hmirrors ⟨m, s⟩).2
  rw [h] at hfails
  cases e with
  | cause c => exact ⟨c, rfl⟩
  | interrupt i => exact hfails.elim

/-- An instruction that fails with what a call has met has called a native function. -/
theorem exists_native_of_execute {reenter : Reentry} {m : Machine} {s : Store} {i : Interrupt}
    (h : setting.execute reenter op ⟨m, s⟩ = .error (.interrupt i) st') :
    ∃ invocation f s', m.invocation? op = some invocation ∧ invocation.callee = .native f ∧
      setting.natives f.body reenter invocation.args s = .error (.interrupt i) s' := by
  by_cases hcall : op.code = .call ∨ op.code = .iterNext
  · cases hi : m.invocation? op with
    | none =>
      obtain ⟨c, stack, hrun⟩ := setting.execute_of_no_invocation hcall hi
      rw [hrun] at h
      cases h
    | some invocation =>
      rw [execute_of_invocation hi, invoke] at h
      split at h
      · next f hf =>
        split at h
        · cases h
        · next hrun =>
          cases h
          exact ⟨invocation, f, _, rfl, hf, hrun⟩
      · split at h <;> cases h
      · cases h
  · obtain ⟨c, hc⟩ := exists_cause_of_execute hcall h
    cases hc

/-- Instructions that open or close a scope do not fail. -/
theorem not_bracket_of_execute {reenter : Reentry} {m : Machine} {s : Store} {e : Failure}
    (h : setting.execute reenter op ⟨m, s⟩ = .error e st') :
    op.code ≠ .startBlock ∧ op.code ≠ .endBlock := by
  refine ⟨fun hcode => ?_, fun hcode => ?_⟩
  · rw [execute_startBlock hcode] at h
    cases h
  · rw [execute_endBlock hcode] at h
    cases h

/-! ### Steps and calls -/

/-- An error of a step has been raised by something that has happened in it, if this is so for
the calls into the engine that its native function makes. -/
theorem exists_raisedAt_of_calls (honest : Honest setting.natives talk)
    (candid : Candid setting.natives)
    (hcalls : ∀ {caller : Machine} {waiting : List Machine} {op : Op} {position : Position}
      {depth : Nat} {callee : Value} {args : List Value} {s s' : Store},
      setting.program.code[caller.ip]? = some op → op.position = position →
      op.code ≠ .startBlock ∧ op.code ≠ .endBlock →
      setting.callFrom fuel position depth callee args s = .error (.error (.runtime c p)) s' →
      ∃ a, setting.Happens talk (.calling caller waiting fuel position depth callee args s) a ∧
        setting.RaisedAt a c p)
    (h : setting.step (setting.callFrom fuel) trace st = .error (.error (.runtime c p)) st') :
    ∃ a, setting.Happens talk (.running waiting fuel trace st) a ∧ setting.RaisedAt a c p := by
  cases hop : setting.program.code[st.machine.ip]? with
  | none =>
    rw [step_of_none hop] at h
    cases h
  | some op =>
    rw [step_eq_execute hop] at h
    split at h
    · cases h
    · next e st'' hrun =>
      obtain ⟨hlocated, -⟩ := EStateM.Result.error.inj h
      have hbracket := not_bracket_of_execute hrun
      cases e with
      | cause c' =>
        obtain ⟨rfl, rfl⟩ := Error.runtime.inj (Interrupt.error.inj hlocated)
        exact ⟨_, .refl, .instruction hop hrun, op, hop, rfl, hbracket⟩
      | interrupt i =>
        obtain rfl : i = .error (.runtime c p) := hlocated
        obtain ⟨invocation, f, s', hi, hf, hnative⟩ := exists_native_of_execute hrun
        obtain ⟨callee, args, t, t', hmakes, hmet⟩ :=
          exists_makes_of_interrupt honest candid hnative
        obtain ⟨a, ha, hraised⟩ := hcalls hop rfl hbracket hmet
        exact ⟨a, .head (.invoke hop hi hf hmakes) ha, hraised⟩

/-- A run that fails does so in one of its steps. -/
theorem exists_step_of_runSteps {call : Position → Nat → Reentry} {n : Nat} {i : Interrupt}
    (h : setting.runSteps call trace n st = .error i st') :
    ∃ st₁, Relation.ReflTransGen (fun st st' => setting.step call trace st = .ok () st') st st₁ ∧
      setting.step call trace st₁ = .error i st' := by
  induction n generalizing st with
  | zero => cases h
  | succ n ih =>
    by_cases hhalted : setting.halted st.machine = true
    · simp only [runSteps, if_pos hhalted] at h
      cases h
    · cases hstep : setting.step call trace st with
      | ok u st₁ =>
        simp only [runSteps, if_neg hhalted, hstep] at h
        obtain ⟨st₂, hsteps, hfails⟩ := ih h
        exact ⟨st₂, .head hstep hsteps, hfails⟩
      | error i' st₁ =>
        simp only [runSteps, if_neg hhalted, hstep] at h
        cases h
        exact ⟨st, .refl, hstep⟩

/-- The steps of a machine that a call runs on happen one after another. -/
theorem happens_of_steps {caller : Machine}
    (h : Relation.ReflTransGen
      (fun st st' => setting.step (setting.callFrom fuel) false st = .ok () st') st st') :
    setting.Happens talk (.running (caller :: waiting) fuel false st)
      (.running (caller :: waiting) fuel false st') :=
  h.lift _ fun _ _ hstep => .step hstep

/-- **An error of a call into the engine has been raised by something that has happened in it**,
at the place of the instruction that the innermost machine was executing. -/
theorem exists_raisedAt_of_callFrom (honest : Honest setting.natives talk)
    (candid : Candid setting.natives) {caller : Machine} {position : Position} {depth : Nat}
    {callee : Value} {args : List Value} {s s' : Store}
    (hop : setting.program.code[caller.ip]? = some op) (hposition : op.position = position)
    (hbracket : op.code ≠ .startBlock ∧ op.code ≠ .endBlock)
    (h : setting.callFrom fuel position depth callee args s = .error (.error (.runtime c p)) s') :
    ∃ a, setting.Happens talk (.calling caller waiting fuel position depth callee args s) a ∧
      setting.RaisedAt a c p := by
  -- By induction on how deep calls into the engine may be nested.
  induction fuel generalizing caller waiting op position depth callee args s s' with
  | zero => cases h
  | succ fuel ih =>
    cases callee with
    | native f =>
      rw [callFrom, EStateM.adaptExcept] at h
      split at h
      · next e s'' hnative =>
        obtain ⟨hlocated, -⟩ := EStateM.Result.error.inj h
        cases e with
        | cause c' =>
          obtain ⟨rfl, rfl⟩ := Error.runtime.inj (Interrupt.error.inj hlocated)
          exact ⟨_, .refl, .native hnative, op, hop, hposition, hbracket⟩
        | interrupt i =>
          obtain rfl : i = .error (.runtime c p) := hlocated
          obtain ⟨callee, args', t, t', hmakes, hmet⟩ :=
            exists_makes_of_interrupt honest candid hnative
          obtain ⟨a, ha, hraised⟩ := ih hop hposition hbracket hmet
          exact ⟨a, .head (.native hmakes) ha, hraised⟩
      · cases h
    | function entry captured =>
      have hinvoke := setting.callValue_calleeMachine (setting.callFrom fuel position (depth + 1))
        s.newScope.1 depth (.function entry captured) args s.newScope.2
      rw [callFrom, callFunction_eq, ← hinvoke] at h
      split at h
      · next e m s'' hfails =>
        obtain ⟨hlocated, -⟩ := EStateM.Result.error.inj h
        rw [hinvoke] at hfails
        dsimp only [invoke] at hfails
        split at hfails
        · next hdepth =>
          cases hfails
          obtain ⟨rfl, rfl⟩ := Error.runtime.inj (Interrupt.error.inj hlocated)
          exact ⟨_, .refl, .overflow hdepth, op, hop, hposition, hbracket⟩
        · cases hfails
      · next u st hentered =>
        split at h
        · next i m s'' hrun =>
          cases h
          obtain ⟨st₁, hsteps, hstep⟩ := exists_step_of_runSteps hrun
          obtain ⟨a, ha, hraised⟩ := exists_raisedAt_of_calls honest candid ih hstep
          exact ⟨a, .head (.enter hentered) ((happens_of_steps hsteps).trans ha), hraised⟩
        · split at h <;> cases h
    | _ =>
      cases h
      exact ⟨_, .refl, .value (by simp) (by simp), op, hop, hposition, hbracket⟩

/-- **An error of a step has been raised by something that has happened in it**, at the place of
the instruction that the innermost machine was executing. -/
theorem exists_raisedAt_of_step (honest : Honest setting.natives talk)
    (candid : Candid setting.natives)
    (h : setting.step (setting.callFrom fuel) trace st = .error (.error (.runtime c p)) st') :
    ∃ a, setting.Happens talk (.running waiting fuel trace st) a ∧ setting.RaisedAt a c p :=
  exists_raisedAt_of_calls honest candid
    (fun hop hposition hbracket =>
      exists_raisedAt_of_callFrom honest candid hop hposition hbracket) h

end Setting

end ScriptEngine
