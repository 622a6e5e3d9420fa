import ScriptEngine.Proofs.Reentry.Mirror
import ScriptEngine.Proofs.Scoping.Instructions

/-!
# Instructions do not look at open calls

An instruction that makes no call and does not return does the same whatever calls are open and
whatever has been put out before, and it fails for causes of its own only.  One that makes a call
depends on how many calls are open, and one that returns on the innermost of them.

## Main definitions

* `State.altered` — a state with other calls being open, before which more has been put out.

## Main results

* `Setting.mirrors_execute` — instructions that make no call and do not return do the same in it.
-/

namespace ScriptEngine

open Exec

/-! ### Stores before which more has been put out -/

section Behind

variable {before : Array Event} {s : Store}

theorem findScope_behind (name : String) (refs : List ScopeRef) :
    findScope (s.behind before) name refs = findScope s name refs := by
  have hscopes : (s.behind before).scopes = s.scopes := rfl
  exact findScope_congr hscopes name refs

theorem lookup_behind (m : Machine) (name : String) :
    lookup m (s.behind before) name = lookup m s name := by
  rw [lookup, lookup, findScope_behind]
  rfl

theorem assign_behind (m : Machine) (name : String) (v : Value) :
    assign m name v (s.behind before) = (assign m name v s).behind before := by
  rw [assign, assign, findScope_behind]
  cases findScope s name (reach m) with
  | some ref => rfl
  | none =>
    dsimp only
    split <;> rfl

theorem equalTables_behind (fuel : Nat) :
    (s.behind before).equalTables fuel = s.equalTables fuel := by
  induction fuel with
  | zero => rfl
  | succ fuel ih =>
    funext opened x y
    rw [Store.equalTables, Store.equalTables, ih]
    rfl

theorem binary_behind (operator : StrictOperator) (lhs rhs : Value) :
    (s.behind before).binary operator lhs rhs = s.binary operator lhs rhs := by
  have hequal : (s.behind before).equal lhs rhs = s.equal lhs rhs := by
    rw [Store.equal, equalTables_behind]
    rfl
  cases operator with
  | compare operator => cases operator <;> simp only [Store.binary, Store.compare, hequal]
  | _ => rfl

end Behind

/-! ### Parts of instructions -/

/-- Other calls being open, on a machine and outside of it. -/
structure Alteration where
  frames : List Frame → List Frame
  outer : Nat → Nat

/-- A machine with other calls being open. -/
def Machine.altered (φ : Alteration) (m : Machine) : Machine :=
  { m with frames := φ.frames m.frames, outerDepth := φ.outer m.outerDepth }

/-- A state with other calls being open, before which more has been put out. -/
def State.altered (φ : Alteration) (before : Array Event) (st : State) : State :=
  ⟨st.machine.altered φ, st.store.behind before⟩

namespace Mirrors

variable {φ : Alteration} {before : Array Event} {P : Interrupt → Prop} {α β : Type}

theorem fail (c : Cause) :
    Mirrors (State.altered φ before) (Failure.Passes P) (Exec.fail c : Exec α) (Exec.fail c) :=
  .throw trivial

/-- What is done with a machine must not depend on the calls that are open. -/
theorem machine_bind {k l : Machine → Exec β}
    (h : ∀ m, Mirrors (State.altered φ before) (Failure.Passes P) (k (m.altered φ)) (l m)) :
    Mirrors (State.altered φ before) (Failure.Passes P) (Exec.machine >>= k) (Exec.machine >>= l) :=
  fun st => h st.machine st

theorem modifyMachine {f : Machine → Machine} (h : ∀ m, f (m.altered φ) = (f m).altered φ) :
    Mirrors (State.altered φ before) (Failure.Passes P) (Exec.modifyMachine f)
      (Exec.modifyMachine f) := by
  intro st
  refine ⟨?_, trivial⟩
  simp only [Exec.modifyMachine, State.altered, h, mapState]

theorem modifyStack (f : List Value → List Value) :
    Mirrors (State.altered φ before) (Failure.Passes P) (Exec.modifyStack f) (Exec.modifyStack f) :=
  modifyMachine fun _ => rfl

theorem fromStore {f : Store → α} (h : ∀ s : Store, f (s.behind before) = f s) :
    Mirrors (State.altered φ before) (Failure.Passes P) (Exec.fromStore f) (Exec.fromStore f) := by
  intro st
  refine ⟨?_, trivial⟩
  simp only [Exec.fromStore, State.altered, h, mapState]

theorem modifyStore {f : Store → Store}
    (h : ∀ s : Store, f (s.behind before) = (f s).behind before) :
    Mirrors (State.altered φ before) (Failure.Passes P) (Exec.modifyStore f)
      (Exec.modifyStore f) := by
  intro st
  refine ⟨?_, trivial⟩
  simp only [Exec.modifyStore, State.altered, h, mapState]

theorem newTable (t : Table) :
    Mirrors (State.altered φ before) (Failure.Passes P) (Exec.onStore (·.newTable t))
      (Exec.onStore (·.newTable t)) := fun _ => ⟨rfl, trivial⟩

theorem newScope :
    Mirrors (State.altered φ before) (Failure.Passes P) (Exec.onStore Store.newScope)
      (Exec.onStore Store.newScope) := fun _ => ⟨rfl, trivial⟩

theorem ofExcept (r : Except Cause α) :
    Mirrors (State.altered φ before) (Failure.Passes P) (Exec.ofExcept r) (Exec.ofExcept r) := by
  cases r with
  | ok a => exact .pure a
  | error c => exact .fail c

theorem push (v : Value) :
    Mirrors (State.altered φ before) (Failure.Passes P) (Exec.push v) (Exec.push v) := modifyStack _

theorem pop : Mirrors (State.altered φ before) (Failure.Passes P) Exec.pop Exec.pop := by
  rintro ⟨⟨ip, stack, scopes, captured, frames, marks, outerDepth⟩, s⟩
  cases stack <;> exact ⟨rfl, trivial⟩

theorem popMark :
    Mirrors (State.altered φ before) (Failure.Passes P) Exec.popMark Exec.popMark := by
  rintro ⟨⟨ip, stack, scopes, captured, frames, marks, outerDepth⟩, s⟩
  cases marks <;> exact ⟨rfl, trivial⟩

theorem popCount :
    Mirrors (State.altered φ before) (Failure.Passes P) Exec.popCount Exec.popCount := by
  refine pop.bind fun v => ?_
  split
  · exact .ite (.pure _) (.fail _)
  · exact .fail _

theorem require (n : Nat) :
    Mirrors (State.altered φ before) (Failure.Passes P) (Exec.require n) (Exec.require n) :=
  machine_bind fun _ => .ite (.fail _) (.pure _)

end Mirrors

/-! ### Instructions -/

namespace Setting

variable {setting setting' : Setting} {φ : Alteration} {before : Array Event}
  {P : Interrupt → Prop} {reenter reenter' : Reentry} {op : Op}

theorem mirrors_jump (offset : Int) :
    Mirrors (State.altered φ before) (Failure.Passes P) (jump offset) (jump offset) :=
  .machine_bind fun _ => .ite (.fail _) (.modifyMachine fun _ => rfl)

theorem mirrors_jumpWhen (truth : Bool) (offset : Int) :
    Mirrors (State.altered φ before) (Failure.Passes P) (jumpWhen truth offset)
      (jumpWhen truth offset) :=
  Mirrors.pop.bind fun _ => .ite (mirrors_jump offset) (.pure _)

theorem mirrors_loadIndex :
    Mirrors (State.altered φ before) (Failure.Passes P) loadIndex loadIndex := by
  refine Mirrors.pop.bind fun target => Mirrors.pop.bind fun key => ?_
  split
  · exact .push _
  · refine .ite (.push _) ((Mirrors.ofExcept _).bind fun k => ?_)
    exact (Mirrors.fromStore fun _ => rfl).bind fun v => .push v
  · exact .fail _

theorem mirrors_storePairs (ref : TableRef) (n : Nat) :
    Mirrors (State.altered φ before) (Failure.Passes P) (storePairs ref n) (storePairs ref n) := by
  induction n with
  | zero => exact .pure _
  | succ n ih =>
    refine Mirrors.pop.bind fun key => Mirrors.pop.bind fun v => .ite (.throw_bind trivial) ?_
    exact (Mirrors.ofExcept _).bind fun k => .bind (.modifyStore fun _ => rfl) fun _ => ih

theorem mirrors_storeIndex (count : Nat) :
    Mirrors (State.altered φ before) (Failure.Passes P) (storeIndex count) (storeIndex count) := by
  refine (Mirrors.require _).bind fun _ => .machine_bind fun m => ?_
  dsimp only [Machine.altered]
  cases m.stack.getD (2 * count) .nil with
  | table ref => exact mirrors_storePairs ref count
  | _ => exact .fail _

theorem mirrors_iterJumpIfDone (offset : Int) :
    Mirrors (State.altered φ before) (Failure.Passes P) (iterJumpIfDone offset)
      (iterJumpIfDone offset) := by
  refine .machine_bind fun m => ?_
  dsimp only [Machine.altered]
  cases m.marks with
  | nil => exact .fail _
  | cons mark marks =>
    exact .ite (.bind (.modifyMachine fun _ => rfl) fun _ => mirrors_jump offset) (.pure _)

/-- **Instructions that make no call and do not return do not look at open calls**, nor at what
has been put out, and fail for causes of their own only. -/
theorem mirrors_execute (hcall : op.code ≠ .call) (hiter : op.code ≠ .iterNext)
    (hret : op.code ≠ .ret) :
    Mirrors (State.altered φ before) (Failure.Passes P) (setting'.execute reenter' op)
      (setting.execute reenter op) := by
  unfold execute
  cases hcode : op.code with
  | call => exact absurd hcode hcall
  | iterNext => exact absurd hcode hiter
  | ret => exact absurd hcode hret
  | load =>
    exact .machine_bind fun m =>
      (Mirrors.fromStore fun s => lookup_behind m op.name).bind fun v => .push v
  | store =>
    exact Mirrors.pop.bind fun v => .machine_bind fun m =>
      .modifyStore fun s => assign_behind m op.name v
  | push =>
    cases op.pushed with
    | function entry captured => exact .machine_bind fun m => .push _
    | _ => exact .push _
  | pop => exact .modifyStack _
  | dup =>
    refine .machine_bind fun m => ?_
    dsimp only [Machine.altered]
    cases m.stack with
    | cons v rest => exact .push v
    | nil => exact .fail _
  | swap =>
    exact (Mirrors.require 2).bind fun _ => Mirrors.pop.bind fun v => Mirrors.pop.bind fun w =>
      (Mirrors.push v).bind fun _ => .push w
  | newTable => exact (Mirrors.newTable _).bind fun ref => .push _
  | loadIndex => exact mirrors_loadIndex
  | storeIndex => exact mirrors_storeIndex _
  | binary operator =>
    exact Mirrors.pop.bind fun lhs => Mirrors.pop.bind fun rhs =>
      (Mirrors.fromStore fun s => binary_behind operator lhs rhs).bind fun r =>
        (Mirrors.ofExcept r).bind fun v => .push v
  | unary operator =>
    exact Mirrors.pop.bind fun v => (Mirrors.fromStore fun _ => rfl).bind fun r =>
      (Mirrors.ofExcept r).bind fun v => .push v
  | startBlock => exact Mirrors.newScope.bind fun _ => .modifyMachine fun _ => rfl
  | endBlock => exact .modifyMachine fun _ => rfl
  | makeLocal =>
    refine .machine_bind fun m => ?_
    dsimp only [Machine.altered]
    cases m.scopes with
    | cons scope rest => exact .modifyStore fun _ => rfl
    | nil => exact .fail _
  | argumentCount => exact Mirrors.popCount.bind fun got => .modifyStack _
  | jump => exact mirrors_jump _
  | jumpIf => exact mirrors_jumpWhen _ _
  | jumpIfNot => exact mirrors_jumpWhen _ _
  | assignPush => exact .modifyMachine fun _ => rfl
  | assignSet => exact Mirrors.popMark.bind fun mark => .modifyStack _
  | assignCount => exact Mirrors.popMark.bind fun mark => .modifyStack _
  | iterJumpIfDone => exact mirrors_iterJumpIfDone _
  | iterUpdateState => exact (Mirrors.require _).bind fun _ => .modifyStack _
  | leave => exact .fail _

/-- What an instruction returns does not depend on open calls either. -/
theorem mirrors_returning (op : Op) :
    Mirrors (State.altered φ before) (Failure.Passes P) (returning op) (returning op) := by
  unfold returning
  cases op.count? with
  | some n =>
    exact (Mirrors.require n).bind fun _ => .machine_bind fun m =>
      (Mirrors.modifyStack _).bind fun _ => .pure _
  | none =>
    exact Mirrors.popMark.bind fun mark => .machine_bind fun m =>
      (Mirrors.modifyStack _).bind fun _ => .pure _

/-! ### Calls outside of a machine -/

/-- A computation that does the same whatever calls are open outside of the machine leaves their
number alone. -/
theorem outerDepth_of_mirrors {α : Type} {x : Exec α} (st : State)
    (h : ∀ n, Mirrors (State.altered ⟨id, fun _ => n⟩ #[]) (Failure.Passes P) x x) :
    (stateOf (x st)).machine.outerDepth = st.machine.outerDepth := by
  have hsame : st.altered ⟨id, fun _ => st.machine.outerDepth⟩ #[] = st := by
    rw [State.altered, Store.behind_empty]
    rfl
  have hrun := (h st.machine.outerDepth st).1
  rw [hsame] at hrun
  rw [hrun]
  cases x st <;> rfl

/-- An instruction that fails leaves the number of calls outside of its machine alone. -/
theorem outerDepth_of_execute_error {m : Machine} {s : Store} {e : Failure} {st' : State}
    (h : setting.execute reenter op ⟨m, s⟩ = .error e st') :
    st'.machine.outerDepth = m.outerDepth := by
  by_cases hcall : op.code = .call ∨ op.code = .iterNext
  · obtain ⟨stack, hstack⟩ := exists_stack_of_call_error hcall h
    rw [hstack]
  · obtain ⟨hcall, hiter⟩ := not_or.1 hcall
    by_cases hret : op.code = .ret
    · -- Only what is returned can fail, and not the return itself.
      have hkept := outerDepth_of_mirrors (P := fun _ => True) ⟨m, s⟩ fun _ => mirrors_returning op
      rw [execute_ret hret] at h
      change EStateM.bind (returning op) setting.leaveFunction ⟨m, s⟩ = _ at h
      rw [EStateM.bind] at h
      cases hrun : returning op ⟨m, s⟩ with
      | ok results st =>
        rw [hrun] at h
        cases h
      | error e' st =>
        rw [hrun] at h hkept
        cases h
        exact hkept
    · have hmirrors (n : Nat) : Mirrors (State.altered ⟨id, fun _ => n⟩ #[])
          (Failure.Passes fun _ => True) (setting.execute reenter op)
            (setting.execute reenter op) :=
        mirrors_execute hcall hiter hret
      have hkept := outerDepth_of_mirrors ⟨m, s⟩ hmirrors
      rw [h] at hkept
      exact hkept

/-- A step that fails leaves the number of calls outside of its machine alone. -/
theorem outerDepth_of_step_error {call : Position → Nat → Reentry} {trace : Bool} {i : Interrupt}
    {st st' : State} (h : setting.step call trace st = .error i st') :
    st'.machine.outerDepth = st.machine.outerDepth := by
  cases hop : setting.program.code[st.machine.ip]? with
  | none =>
    simp only [step, hop] at h
    cases h
  | some op =>
    rw [step_eq_execute hop] at h
    split at h
    · cases h
    · next hrun =>
      cases h
      exact outerDepth_of_execute_error (m := st.machine.past) hrun

end Setting

end ScriptEngine
