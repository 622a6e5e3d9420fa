import Mathlib.Data.Set.Insert
import ScriptEngine.Engine
import ScriptEngine.Proofs.Reentry.Principle

/-!
# The lives of engines

A host loads texts into an engine, makes it go on step by step, starts over, defines
native functions and calls functions.  This module says which engines can come about in
this way, and what has happened in them until then.

## Main definitions

* `Engine.stepping`, `Engine.calling` — what a step and a call of a host begin with.
* `Engine.Offers` — the values that a host can call a function with.
* `Engine.Reached` — the engines that can come about, with the text that was loaded last
  and all activities so far.

## Main results

* `Engine.of_step_ok`, `Engine.of_step_error` — steps of engines are steps of their
  machines.
-/

namespace ScriptEngine

/-- A single step, or none at the end of the program. -/
theorem Setting.runSteps_one {setting : Setting} {call : Position → Nat → Reentry} {trace : Bool}
    (st : State) :
    setting.runSteps call trace 1 st =
      match setting.step call trace st with
      | .ok _ st' => .ok (setting.halted st'.machine) st'
      | .error err st' => .error err st' := by
  rw [runSteps]
  by_cases hhalted : setting.halted st.machine = true
  · have hnone : setting.program.code[st.machine.ip]? = none :=
      Array.getElem?_eq_none (of_decide_eq_true hhalted)
    simp only [step_of_none hnone, hhalted, if_true]
  · simp only [if_neg hhalted]
    cases setting.step call trace st <;> rfl

namespace Engine

variable {e e' : Engine}

/-! ### Steps of engines -/

/-- **A step of an engine is a step of its machine**, unless an error has stopped it. -/
theorem step_eq_machine {fuel : Nat} {options : RunOptions} (h : e.fault = none) :
    step fuel options e =
      match e.setting.step (e.setting.callFrom fuel) options.trace ⟨e.machine, e.store⟩ with
      | .ok _ st => .ok () { e with machine := st.machine, store := st.store }
      | .error (.error err) st =>
        .error (.error err) { e with machine := st.machine, store := st.store, fault := some err }
      | .error .outOfFuel st =>
            .error .outOfFuel { e with machine := st.machine, store := st.store } := by
  obtain ⟨setting, machine, store, fault⟩ := e
  obtain rfl : fault = none := h
  have hadvance : step fuel options ⟨setting, machine, store, none⟩ =
      (discard (advance fuel options.trace 1) : Session Unit) ⟨setting, machine, store, none⟩ := rfl
  rw [hadvance]
  change (Functor.map (fun _ => ()) (advance fuel options.trace 1) : Session Unit) _ = _
  simp only [Functor.map, EStateM.map, advance, Setting.runSteps_one]
  cases setting.step (setting.callFrom fuel) options.trace ⟨machine, store⟩ with
  | ok u st => rfl
  | error err st => cases err <;> rfl

/-- A step that does not fail. -/
theorem of_step_ok {fuel : Nat} {options : RunOptions} (h : step fuel options e = .ok () e') :
    e.fault = none ∧ ∃ st,
      e.setting.step (e.setting.callFrom fuel) options.trace ⟨e.machine, e.store⟩ = .ok () st ∧
        e' = { e with machine := st.machine, store := st.store } := by
  have hfault : e.fault = none := by
    obtain ⟨setting, machine, store, fault⟩ := e
    cases fault with
    | none => rfl
    | some err => cases h
  rw [step_eq_machine hfault] at h
  refine ⟨hfault, ?_⟩
  cases hstep : e.setting.step (e.setting.callFrom fuel) options.trace ⟨e.machine, e.store⟩ with
  | ok u st =>
    rw [hstep] at h
    cases h
    exact ⟨st, rfl, rfl⟩
  | error i st =>
    rw [hstep] at h
    cases i <;> cases h

/-- A step that fails with an error. -/
theorem of_step_error {fuel : Nat} {options : RunOptions} {err : Error} (hfault : e.fault = none)
    (h : step fuel options e = .error (.error err) e') : ∃ st,
      e.setting.step (e.setting.callFrom fuel) options.trace ⟨e.machine, e.store⟩ =
          .error (.error err) st ∧
        e' = { e with machine := st.machine, store := st.store, fault := some err } := by
  rw [step_eq_machine hfault] at h
  cases hstep : e.setting.step (e.setting.callFrom fuel) options.trace ⟨e.machine, e.store⟩ with
  | ok u st =>
    rw [hstep] at h
    cases h
  | error i st =>
    rw [hstep] at h
    cases i with
    | error err' =>
      cases h
      exact ⟨st, rfl, rfl⟩
    | outOfFuel => cases h

/-- A call changes the store only. -/
theorem stateOf_call (fuel : Nat) (callee : Value) (args : List Value) (e : Engine) :
    stateOf (call fuel callee args e) =
      { e with
        store := stateOf
          (e.setting.callFrom fuel e.position e.machine.depth callee args e.store) } := by
  obtain ⟨setting, machine, store, fault⟩ := e
  rw [call]
  dsimp only
  cases setting.callFrom fuel _ machine.depth callee args store <;> rfl

/-! ### Lives -/

/-- What a step of an engine begins with. -/
def stepping (e : Engine) (fuel : Nat) (trace : Bool) : Activity :=
  .running [] fuel trace ⟨e.machine, e.store⟩

/-- What a call by a host begins with. -/
def calling (e : Engine) (fuel : Nat) (callee : Value) (args : List Value) : Activity :=
  .calling e.machine [] fuel e.position e.machine.depth callee args e.store

/-- A host gets script functions from global variables only. -/
def Offers (e : Engine) (v : Value) : Prop :=
  (∀ entry captured, v ≠ .function entry captured) ∨ ∃ name, e.global? name = some v

/-- What a host gets is known if the store is. -/
theorem known_of_offers {E : Functions} (h : e.store.Known E) {v : Value} (hv : e.Offers v) :
    v.Known E := by
  rcases hv with hv | ⟨name, hname⟩
  · cases v with
    | function entry captured => exact absurd rfl (hv entry captured)
    | _ => trivial
  · exact h.globals.get? hname

/-- What an engine can go on with: a step, unless an error has stopped it, or a call. -/
inductive Begins (e : Engine) : Activity → Prop
  | step (fuel : Nat) (trace : Bool) (h : e.fault = none) : Begins e (e.stepping fuel trace)
  | call (fuel : Nat) {callee : Value} {args : List Value} (hcallee : e.Offers callee)
      (hargs : ∀ v ∈ args, e.Offers v) : Begins e (e.calling fuel callee args)

/-- The engines that come about from a new one on a store, the text that was loaded last,
and what has happened in them until then.  Steps that run out of fuel are left out:
nothing but fuel would have ended them. -/
inductive Reached (config : Config) (natives : Builtin → NativeBody) (talk : Talk) (store : Store) :
    Engine → Chunk → Set Activity → Prop
  | new : Reached config natives talk store (ofStore config natives store) [] ∅
  | load {e e' : Engine} {last chunk : Chunk} {past : Set Activity} {source : String}
      (h : Reached config natives talk store e last past) (hparse : parse source = .ok chunk)
      (hload : load source e = .ok () e') : Reached config natives talk store e' chunk past
  | reset {e e' : Engine} {last : Chunk} {past : Set Activity}
      (h : Reached config natives talk store e last past) (hreset : reset e = .ok () e') :
      Reached config natives talk store e' last past
  | define {e e' : Engine} {last : Chunk} {past : Set Activity} {name key : String}
      (h : Reached config natives talk store e last past)
      (hdefine : define name key e = .ok () e') : Reached config natives talk store e' last past
  | step {e e' : Engine} {last : Chunk} {past : Set Activity} {fuel : Nat} {options : RunOptions}
      (h : Reached config natives talk store e last past)
      (hstep : step fuel options e = .ok () e') :
      Reached config natives talk store e' last
        (past ∪ {a | e.setting.Happens talk (e.stepping fuel options.trace) a})
  | fail {e e' : Engine} {last : Chunk} {past : Set Activity} {fuel : Nat} {options : RunOptions}
      {err : Error} (h : Reached config natives talk store e last past) (hfault : e.fault = none)
      (hstep : step fuel options e = .error (.error err) e') :
      Reached config natives talk store e' last
        (past ∪ {a | e.setting.Happens talk (e.stepping fuel options.trace) a})
  | call {e : Engine} {last : Chunk} {past : Set Activity} {fuel : Nat} {callee : Value}
      {args : List Value} (h : Reached config natives talk store e last past)
      (hcallee : e.Offers callee) (hargs : ∀ v ∈ args, e.Offers v) :
      Reached config natives talk store (stateOf (call fuel callee args e)) last
        (past ∪ {a | e.setting.Happens talk (e.calling fuel callee args) a})

variable {config : Config} {natives : Builtin → NativeBody} {talk : Talk} {store : Store}
  {last : Chunk} {past : Set Activity}

/-- The native functions stay what they are. -/
theorem Reached.natives_eq (h : Reached config natives talk store e last past) :
    e.setting.natives = natives := by
  induction h with
  | new => rfl
  | load _ hparse hload ih =>
    rw [Engine.load, hparse] at hload
    cases hload
    exact ih
  | reset _ hreset ih =>
    cases hreset
    exact ih
  | define _ hdefine ih =>
    cases hdefine
    exact ih
  | step _ hstep ih =>
    obtain ⟨-, st, -, rfl⟩ := of_step_ok hstep
    exact ih
  | fail _ hfault hstep ih =>
    obtain ⟨st, -, rfl⟩ := of_step_error hfault hstep
    exact ih
  | call _ _ _ ih =>
    rw [stateOf_call]
    exact ih

end Engine

end ScriptEngine
