import Mathlib.Logic.Relation
import ScriptEngine.Machine.Call
import ScriptEngine.Proofs.Reentry.Dialogue

/-!
# What happens inside of an engine

While a machine executes an instruction that calls a native function, the function
may call back into the engine, which runs another machine.  An activity is a machine
about to execute an instruction, or a call into the engine that is about to be made;
the machines that wait for it are kept with it.  Each activity leads to others.

## Main definitions

* `Invocation`, `Machine.invocation?` — what an instruction calls.
* `Setting.invoke` — what becomes of it.
* `Activity`, `Setting.Leads`, `Setting.Happens` — activities, and which of them lead
  to which.

## Main results

* `Setting.execute_of_invocation` — what an instruction that makes a call does is what
  becomes of the call.
* `Setting.step_eq_execute` — a step is an instruction and the record of it.
-/

namespace ScriptEngine

open Exec

/-! ### What instructions call -/

/-- A call that an instruction makes: what is called, with which arguments, what
remains of the stack below them, and how many results are wanted. -/
structure Invocation where
  callee : Value
  args : List Value
  rest : List Value
  want : Option Nat

/-- The call that an instruction makes, if it makes one. -/
def Machine.invocation? (m : Machine) (op : Op) : Option Invocation :=
  match op.code, m.stack with
  | .call, .number x :: callee :: rest =>
    if 0 ≤ x ∧ Number.toCount x ≤ rest.length then
      some ⟨callee, (rest.take (Number.toCount x)).reverse, rest.drop (Number.toCount x), op.count?⟩
    else none
  | .iterNext, control :: state :: iterator :: rest =>
    some ⟨iterator, [state, control], control :: state :: iterator :: rest, none⟩
  | _, _ => none

/-- A machine behind the instruction it is at. -/
def Machine.past (m : Machine) : Machine := { m with ip := m.ip + 1 }

/-- A machine that has entered a function. -/
def Machine.entered (m : Machine) (i : Invocation) (entry : Nat) (captured : List ScopeRef)
    (scope : ScopeRef) : Machine :=
  { m with
    ip := entry
    stack := .number (Number.ofNat i.args.length) :: (i.args.reverse ++ i.rest)
    scopes := [scope]
    captured := captured
    frames := ⟨m.ip, i.rest.length, i.want, m.scopes, m.captured, m.marks.length⟩ :: m.frames }

namespace Setting

variable {setting : Setting} {m : Machine} {s : Store} {op : Op} {i : Invocation}

/-- What becomes of a call: a native function runs to its end, a script function is
entered with a fresh scope. -/
def invoke (setting : Setting) (reenter : Reentry) (i : Invocation) (m : Machine) (s : Store) :
    EStateM.Result Failure State Unit :=
  match i.callee with
  | .native f =>
    match setting.natives f.body reenter i.args s with
    | .ok results s' =>
      .ok () ⟨{ m with stack := Stack.pushAll (adjustTo i.want results) i.rest }, s'⟩
    | .error e s' => .error e ⟨{ m with stack := i.rest }, s'⟩
  | .function entry captured =>
    if setting.config.maxCallDepth ≤ m.depth then
      .error (.cause .stackOverflow) ⟨{ m with stack := i.args.reverse ++ i.rest }, s⟩
    else .ok () ⟨m.entered i entry captured s.newScope.1, s.newScope.2⟩
  | v => .error (.cause (.calling v.kind)) ⟨{ m with stack := i.args.reverse ++ i.rest }, s⟩

theorem callValue_eq_invoke (reenter : Reentry) :
    setting.callValue reenter i.callee i.args.length i.want
        ⟨{ m with stack := i.args.reverse ++ i.rest }, s⟩ = setting.invoke reenter i m s := by
  obtain ⟨callee, args, rest, want⟩ := i
  have hrequire : ¬ (args.reverse ++ rest).length < args.length := by simp
  have hdrop : (args.reverse ++ rest).drop args.length = rest :=
    List.drop_left' List.length_reverse
  have htake : ((args.reverse ++ rest).take args.length).reverse = args := by
    rw [List.take_left' List.length_reverse, List.reverse_reverse]
  cases callee with
  | native f =>
    simp only [callValue, Exec.require, Exec.machine, bind, EStateM.bind, pure, EStateM.pure,
      if_neg hrequire, modifyStack, modifyMachine, runNative, hdrop, htake, invoke]
    cases setting.natives f.body reenter args s <;> rfl
  | function entry captured =>
    by_cases hdepth : setting.config.maxCallDepth ≤ m.depth
    · have hdepth' : setting.config.maxCallDepth ≤
          Machine.depth { m with stack := args.reverse ++ rest } := hdepth
      simp only [callValue, Exec.require, Exec.machine, bind, EStateM.bind, pure, EStateM.pure,
        if_neg hrequire, if_pos hdepth', invoke, if_pos hdepth]
      rfl
    · have hdepth' : ¬ setting.config.maxCallDepth ≤
          Machine.depth { m with stack := args.reverse ++ rest } := hdepth
      simp only [callValue, Exec.require, Exec.machine, bind, EStateM.bind, pure, EStateM.pure,
        if_neg hrequire, if_neg hdepth', invoke, if_neg hdepth]
      simp [enterFunction, Machine.entered]
  | _ =>
    simp only [callValue, Exec.require, Exec.machine, bind, EStateM.bind, pure, EStateM.pure,
      if_neg hrequire, invoke]
    rfl

/-- An instruction that makes a call. -/
theorem execute_of_invocation (h : m.invocation? op = some i) (reenter : Reentry) (s : Store) :
    setting.execute reenter op ⟨m, s⟩ = setting.invoke reenter i m s := by
  unfold Machine.invocation? at h
  split at h
  · next x callee rest hcode hstack =>
    split at h
    · next hx =>
      obtain ⟨hx, hcount⟩ := hx
      obtain rfl := Option.some.inj h
      rw [← callValue_eq_invoke]
      simp only [execute, hcode, popCount, Exec.pop, hstack, bind, EStateM.bind, if_pos hx, pure,
        EStateM.pure]
      congr 1
      · simp [hcount]
      · simp
    · cases h
  · next control state iterator rest hcode hstack =>
    obtain rfl := Option.some.inj h
    rw [← callValue_eq_invoke]
    simp only [execute, hcode, iterNext, Exec.machine, hstack, bind, EStateM.bind, modifyStack,
      modifyMachine]
    rfl
  · cases h

/-- A call that cannot be made fails for a cause of its own, whatever program it is in and where
it stands, whatever calls are open and whatever calls back do, and changes nothing but the
stack. -/
theorem exists_failure_of_no_invocation (hop : op.code = .call ∨ op.code = .iterNext)
    (h : m.invocation? op = none) :
    ∃ c stack, ∀ (setting : Setting) ip frames reenter s,
      setting.execute reenter op ⟨{ m with ip := ip, frames := frames }, s⟩ =
        .error (.cause c) ⟨{ m with ip := ip, stack := stack, frames := frames }, s⟩ := by
  rcases hop with hcode | hcode
  · simp only [Machine.invocation?, hcode] at h
    simp only [execute, hcode, popCount, Exec.pop, bind, EStateM.bind]
    cases hstack : m.stack with
    | nil => exact ⟨_, [], fun _ _ _ _ _ => rfl⟩
    | cons count rest =>
      cases count with
      | number x =>
        by_cases hx : 0 ≤ x
        · simp only [if_pos hx, pure, EStateM.pure]
          cases rest with
          | nil => exact ⟨_, [], fun _ _ _ _ _ => rfl⟩
          | cons callee rest =>
            simp only [hstack, hx, true_and, ite_eq_right_iff, reduceCtorEq, imp_false,
              Nat.not_le] at h
            simp only [callValue, Exec.require, Exec.machine, bind, EStateM.bind, if_pos h]
            exact ⟨_, rest, fun _ _ _ _ _ => rfl⟩
        · simp only [if_neg hx]
          exact ⟨_, rest, fun _ _ _ _ _ => rfl⟩
      | _ => exact ⟨_, rest, fun _ _ _ _ _ => rfl⟩
  · simp only [Machine.invocation?, hcode] at h
    simp only [execute, hcode, iterNext, Exec.machine, bind, EStateM.bind]
    rcases hstack : m.stack with _ | ⟨v, _ | ⟨w, _ | ⟨u, rest⟩⟩⟩
    · exact ⟨_, [], fun _ _ _ _ _ => rfl⟩
    · exact ⟨_, [v], fun _ _ _ _ _ => rfl⟩
    · exact ⟨_, [v, w], fun _ _ _ _ _ => rfl⟩
    · simp [hstack] at h

/-- A call that cannot be made, with the calls that are open. -/
theorem execute_of_no_invocation (setting : Setting) (hop : op.code = .call ∨ op.code = .iterNext)
    (h : m.invocation? op = none) :
    ∃ c stack, ∀ reenter s,
      setting.execute reenter op ⟨m, s⟩ = .error (.cause c) ⟨{ m with stack := stack }, s⟩ := by
  obtain ⟨c, stack, hrun⟩ := exists_failure_of_no_invocation hop h
  exact ⟨c, stack, hrun setting m.ip m.frames⟩

/-- A call that fails changes nothing of the machine but the stack. -/
theorem exists_stack_of_call_error {reenter : Reentry} {e : Failure} {st' : State}
    (hop : op.code = .call ∨ op.code = .iterNext)
    (h : setting.execute reenter op ⟨m, s⟩ = .error e st') :
    ∃ stack, st'.machine = { m with stack := stack } := by
  cases hi : m.invocation? op with
  | none =>
    obtain ⟨c, stack, hrun⟩ := setting.execute_of_no_invocation hop hi
    rw [hrun] at h
    cases h
    exact ⟨stack, rfl⟩
  | some i =>
    rw [execute_of_invocation hi, invoke] at h
    split at h
    · split at h
      · cases h
      · cases h
        exact ⟨_, rfl⟩
    · split at h
      · cases h
        exact ⟨_, rfl⟩
      · cases h
    · cases h
      exact ⟨_, rfl⟩

/-! ### Steps -/

/-- The store when an instruction is executed: what is traced has been put out. -/
def announced (trace : Bool) (op : Op) (st : State) : Store :=
  if trace then
    st.store.emit (.logged .debug (Text.padStart 4 st.machine.ip.repr ++ " " ++ op.text))
  else st.store

/-- The store behind an instruction: what is traced has been put out. -/
def recorded (trace : Bool) (st : State) : Store :=
  if trace then
    st.store.emit (.logged .debug ("     stack: ["
      ++ Text.joinWith ", " (st.machine.stack.reverse.map st.store.inspect) ++ "]"))
  else st.store

theorem traced_eq (trace : Bool) (reenter : Reentry) (op : Op) (st : State) :
    setting.traced trace reenter op st =
      match setting.execute reenter op ⟨st.machine.past, announced trace op st⟩ with
      | .ok _ st' => .ok () ⟨st'.machine, recorded trace st'⟩
      | .error e st' => .error e st' := by
  obtain ⟨m, s⟩ := st
  cases trace with
  | false =>
    simp only [traced, bind, EStateM.bind, pure, EStateM.pure, Bool.false_eq_true, if_false,
      modifyMachine, announced, recorded, Machine.past]
    cases setting.execute reenter op ⟨{ m with ip := m.ip + 1 }, s⟩ <;> rfl
  | true =>
    simp only [traced, bind, EStateM.bind, if_true, modifyMachine, announced, recorded,
      Machine.past, logInstruction]
    cases setting.execute reenter op _ <;> rfl

/-- **A step is an instruction and the record of it.** -/
theorem step_eq_execute {call : Position → Nat → Reentry} {trace : Bool} {st : State}
    (hop : setting.program.code[st.machine.ip]? = some op) :
    setting.step call trace st =
      match setting.execute (call op.position st.machine.depth) op
        ⟨st.machine.past, announced trace op st⟩ with
      | .ok _ st' => .ok () ⟨st'.machine, recorded trace st'⟩
      | .error e st' => .error (e.located op.position) st' := by
  obtain ⟨m, s⟩ := st
  have hop' : setting.program.code[m.ip]? = some op := hop
  simp only [step, hop', EStateM.adaptExcept, traced_eq]
  cases setting.execute (call op.position m.depth) op
    ⟨m.past, announced trace op ⟨m, s⟩⟩ <;> rfl

end Setting

/-! ### Activities -/

/-- A machine about to execute an instruction, or a call into the engine about to be made
by a native function that a machine has called.  The machines that wait for it are
listed, the last one first; `fuel` bounds how deep calls into the engine may be nested
from there on. -/
inductive Activity where
  | running (waiting : List Machine) (fuel : Nat) (trace : Bool) (st : State)
  | calling (caller : Machine) (waiting : List Machine) (fuel : Nat) (position : Position)
      (depth : Nat) (callee : Value) (args : List Value) (s : Store)

/-- What a native function says, for each function, its arguments and a store. -/
abbrev Talk := Builtin → List Value → Store → Dialogue (List Value)

namespace Setting

/-- What an activity leads to, in the course of a step of the outermost machine.  A machine
executes an instruction that calls a native function, which calls back; a call into the
engine enters a script function on a machine of its own, which makes its steps, or is
that of a native function, which calls back in turn. -/
inductive Leads (setting : Setting) (talk : Talk) : Activity → Activity → Prop
  | invoke {waiting : List Machine} {fuel : Nat} {trace : Bool} {st : State} {op : Op}
      {i : Invocation} {f : Native} {callee : Value} {args : List Value} {s : Store}
      (hop : setting.program.code[st.machine.ip]? = some op)
      (hi : st.machine.past.invocation? op = some i) (hf : i.callee = .native f)
      (hmakes : (talk f.body i.args (announced trace op st)).Makes
        (setting.callFrom fuel op.position st.machine.depth) callee args s) :
      Leads setting talk (.running waiting fuel trace st)
        (.calling st.machine waiting fuel op.position st.machine.depth callee args s)
  | native {caller : Machine} {waiting : List Machine} {fuel : Nat} {position : Position}
      {depth : Nat} {f : Native} {args args' : List Value} {callee : Value} {s s' : Store}
      (hmakes : (talk f.body args s).Makes (setting.callFrom fuel position depth) callee args' s') :
      Leads setting talk (.calling caller waiting (fuel + 1) position depth (.native f) args s)
        (.calling caller waiting fuel position depth callee args' s')
  | enter {caller : Machine} {waiting : List Machine} {fuel : Nat} {position : Position}
      {depth : Nat} {entry : Nat} {captured : List ScopeRef} {args : List Value} {s : Store}
      {st : State}
      (h : setting.callValue (setting.callFrom fuel position (depth + 1)) (.function entry captured)
          args.length none ⟨setting.calleeMachine s.newScope.1 depth args, s.newScope.2⟩ =
        .ok () st) :
      Leads setting talk
        (.calling caller waiting (fuel + 1) position depth (.function entry captured) args s)
        (.running (caller :: waiting) fuel false st)
  | step {caller : Machine} {waiting : List Machine} {fuel : Nat} {st st' : State}
      (h : setting.step (setting.callFrom fuel) false st = .ok () st') :
      Leads setting talk (.running (caller :: waiting) fuel false st)
        (.running (caller :: waiting) fuel false st')

/-- What happens in the course of an activity. -/
def Happens (setting : Setting) (talk : Talk) : Activity → Activity → Prop :=
  Relation.ReflTransGen (setting.Leads talk)

end Setting

end ScriptEngine
