import Mathlib.Logic.Relation
import ScriptEngine.Proofs.Compilation.Placement
import ScriptEngine.Proofs.Evaluation.Evaluator

/-!
# Runs of a machine that follow an evaluation

What it means that a machine, started in some state, does what an evaluation
says: it reaches a state that belongs to the result, or it fails in the same way
with the same store.  An evaluation that is undecided says nothing.

## Main definitions

* `Setting.Reaches` — the states that a machine gets to.
* `Setting.Fails` — the failures that a machine gets to.
* `Setting.Follows` — the machine does what the result of an evaluation says.

## Main results

* `Setting.Follows.bind` — evaluations one after another are followed one after
  another.
* `Setting.Follows.step`, `Setting.Follows.raise` — an instruction in front.
* `Setting.Reaches.runSteps`, `Setting.Fails.runSteps` — the same in numbers of
  steps.
-/

namespace ScriptEngine.Setting

variable {setting : Setting} {call : Position → Nat → Reentry}

/-! ### Steps -/

/-- A machine gets from one state to another by steps that are not traced. -/
def Reaches (setting : Setting) (call : Position → Nat → Reentry) : State → State → Prop :=
  Relation.ReflTransGen fun st st' => setting.step call false st = .ok () st'

/-- A machine gets from a state to a failure that leaves the store `s`. -/
def Fails (setting : Setting) (call : Position → Nat → Reentry) (st : State) (i : Interrupt)
    (s : Store) : Prop :=
  ∃ st' m, setting.Reaches call st st' ∧ setting.step call false st' = .error i ⟨m, s⟩

variable {st st' : State} {m m' : Machine} {s s' : Store} {op : Op}

/-- A step executes the instruction that the machine is at. -/
theorem step_eq (hop : setting.program.code[m.ip]? = some op) :
    setting.step call false ⟨m, s⟩ = EStateM.adaptExcept (Failure.located op.position)
      (setting.execute (call op.position m.depth) op) ⟨{ m with ip := m.ip + 1 }, s⟩ := by
  simp only [step, hop]
  simp only [EStateM.adaptExcept, traced, bind, EStateM.bind, Exec.modifyMachine, pure,
    EStateM.pure, Bool.false_eq_true, if_false]
  cases setting.execute (call op.position m.depth) op ⟨{ m with ip := m.ip + 1 }, s⟩ <;> rfl

theorem step_of_execute (hop : setting.program.code[m.ip]? = some op)
    (hexecute : setting.execute (call op.position m.depth) op ⟨{ m with ip := m.ip + 1 }, s⟩ =
      .ok () st') :
    setting.step call false ⟨m, s⟩ = .ok () st' := by
  rw [step_eq hop, EStateM.adaptExcept, hexecute]

theorem step_of_execute_error {e : Failure} (hop : setting.program.code[m.ip]? = some op)
    (hexecute : setting.execute (call op.position m.depth) op ⟨{ m with ip := m.ip + 1 }, s⟩ =
      .error e st') :
    setting.step call false ⟨m, s⟩ = .error (e.located op.position) st' := by
  rw [step_eq hop, EStateM.adaptExcept, hexecute]

/-- A machine that has halted stays as it is. -/
theorem step_of_halted (h : setting.halted st.machine = true) :
    setting.step call false st = .ok () st := by
  have hnone : setting.program.code[st.machine.ip]? = none := by
    rw [halted, decide_eq_true_eq, Program.size] at h
    exact Array.getElem?_eq_none h
  simp only [step, hnone]

theorem runSteps_of_halted {trace : Bool} (n : Nat) (h : setting.halted st.machine = true) :
    setting.runSteps call trace n st = .ok true st := by
  cases n with
  | zero => simp only [runSteps, h]
  | succ n => simp only [runSteps, h, if_true]

theorem runSteps_of_step {trace : Bool} {n : Nat} (h : ¬ setting.halted st.machine = true)
    (hstep : setting.step call trace st = .ok () st') :
    setting.runSteps call trace (n + 1) st = setting.runSteps call trace n st' := by
  simp only [runSteps, if_neg h, hstep]

theorem runSteps_of_step_error {trace : Bool} {n : Nat} {i : Interrupt}
    (h : ¬ setting.halted st.machine = true)
    (hstep : setting.step call trace st = .error i st') :
    setting.runSteps call trace (n + 1) st = .error i st' := by
  simp only [runSteps, if_neg h, hstep]

/-- Getting to a state where the machine has halted takes a number of steps. -/
theorem Reaches.runSteps (h : setting.Reaches call st st')
    (hhalted : setting.halted st'.machine = true) :
    ∃ n, setting.runSteps call false n st = .ok true st' := by
  induction h using Relation.ReflTransGen.head_induction_on with
  | refl => exact ⟨0, runSteps_of_halted 0 hhalted⟩
  | @head st₁ st₂ hstep _ ih =>
    obtain ⟨n, hn⟩ := ih
    by_cases h : setting.halted st₁.machine = true
    · -- A halted machine does not move, so the run from the next state is this one.
      rw [step_of_halted h] at hstep
      cases hstep
      exact ⟨n, hn⟩
    · exact ⟨n + 1, by rw [runSteps_of_step h hstep, hn]⟩

/-- Getting to a failure takes a number of steps. -/
theorem Fails.runSteps {i : Interrupt} (h : setting.Fails call st i s) :
    ∃ n m, setting.runSteps call false n st = .error i ⟨m, s⟩ := by
  obtain ⟨st', m, hreach, hstep⟩ := h
  induction hreach using Relation.ReflTransGen.head_induction_on with
  | refl =>
    refine ⟨1, m, runSteps_of_step_error (fun hhalted => ?_) hstep⟩
    rw [step_of_halted hhalted] at hstep
    cases hstep
  | @head st₁ st₂ hnext _ ih =>
    obtain ⟨n, m, hn⟩ := ih
    by_cases h : setting.halted st₁.machine = true
    · rw [step_of_halted h] at hnext
      cases hnext
      exact ⟨n, m, hn⟩
    · exact ⟨n + 1, m, by rw [runSteps_of_step h hnext, hn]⟩

/-! ### Following an evaluation -/

/-- From a state, the machine does what the result of an evaluation says: it gets
to a state of the kind that belongs to the result, or to the same failure. -/
def Follows (setting : Setting) (call : Position → Nat → Reentry) {α : Type} (st : State)
    (r : EStateM.Result Stop Store α) (post : α → Store → State → Prop) : Prop :=
  match r with
  | .ok a s => ∃ st', setting.Reaches call st st' ∧ post a s st'
  | .error .undecided _ => True
  | .error (.interrupted i) s => setting.Fails call st i s

namespace Follows

variable {α β : Type} {r : EStateM.Result Stop Store α} {post : α → Store → State → Prop}
  {after : β → Store → State → Prop}

/-- A result that the state at hand belongs to. -/
theorem pure {a : α} (h : post a s st) : setting.Follows call st (.ok a s) post :=
  ⟨st, .refl, h⟩

theorem undecided : setting.Follows call st (Eval.undecided (α := α) s) post := trivial

/-- The machine does a step first. -/
theorem next (hstep : setting.step call false st = .ok () st')
    (h : setting.Follows call st' r post) : setting.Follows call st r post := by
  cases r with
  | ok a s =>
    obtain ⟨st'', hreach, hpost⟩ := h
    exact ⟨st'', .head hstep hreach, hpost⟩
  | error stop s =>
    cases stop with
    | undecided => trivial
    | interrupted i =>
      obtain ⟨st'', m, hreach, hfail⟩ := h
      exact ⟨st'', m, .head hstep hreach, hfail⟩

/-- The machine executes an instruction first. -/
theorem step (hop : setting.program.code[m.ip]? = some op)
    (hexecute : setting.execute (call op.position m.depth) op ⟨{ m with ip := m.ip + 1 }, s⟩ =
      .ok () st')
    (h : setting.Follows call st' r post) : setting.Follows call ⟨m, s⟩ r post :=
  h.next (step_of_execute hop hexecute)

/-- The instruction that the machine is at fails. -/
theorem raise {e : Failure} {i : Interrupt} (hop : setting.program.code[m.ip]? = some op)
    (hexecute : setting.execute (call op.position m.depth) op ⟨{ m with ip := m.ip + 1 }, s⟩ =
      .error e ⟨m', s'⟩) (hi : e.located op.position = i) :
    setting.Follows call ⟨m, s⟩ (.error (.interrupted i) s') post := by
  subst hi
  exact ⟨⟨m, s⟩, m', .refl, step_of_execute_error hop hexecute⟩

/-- The machine goes on from a state that it gets to. -/
theorem trans (hreach : setting.Reaches call st st') (h : setting.Follows call st' r post) :
    setting.Follows call st r post := by
  induction hreach using Relation.ReflTransGen.head_induction_on with
  | refl => exact h
  | head hstep _ ih => exact ih.next hstep

/-- One evaluation after another. -/
theorem bind {x : Eval α} {f : α → Eval β} (hx : setting.Follows call st (x s) post)
    (hf : ∀ a s' st', x s = .ok a s' → post a s' st' →
      setting.Follows call st' (f a s') after) :
    setting.Follows call st ((x >>= f) s) after := by
  have hbind : (x >>= f) s = EStateM.bind x f s := rfl
  rw [hbind, EStateM.bind]
  cases hr : x s with
  | ok a s' =>
    rw [hr] at hx
    obtain ⟨st', hreach, hpost⟩ := hx
    exact (hf a s' st' hr hpost).trans hreach
  | error stop s' =>
    rw [hr] at hx
    cases stop with
    | undecided => trivial
    | interrupted i => exact hx

/-- An evaluation that only changes the store comes first. -/
theorem ok_bind {x : Eval α} {f : α → Eval β} {a : α} (hx : x s = .ok a s')
    (h : setting.Follows call st (f a s') after) : setting.Follows call st ((x >>= f) s) after := by
  have hbind : (x >>= f) s = EStateM.bind x f s := rfl
  rw [hbind, EStateM.bind, hx]
  exact h

/-- The machine goes on behind an evaluation, with the same result. -/
theorem further {post' : α → Store → State → Prop} (h : setting.Follows call st r post)
    (hnext : ∀ a s' st', r = .ok a s' → post a s' st' →
      setting.Follows call st' (.ok a s') post') :
    setting.Follows call st r post' := by
  cases r with
  | ok a s =>
    obtain ⟨st', hreach, hpost⟩ := h
    exact (hnext a s st' rfl hpost).trans hreach
  | error stop s =>
    cases stop with
    | undecided => trivial
    | interrupted i => exact h

/-- A kind of states that holds another. -/
theorem imp {post' : α → Store → State → Prop} (h : setting.Follows call st r post)
    (himp : ∀ a s' st', r = .ok a s' → post a s' st' → post' a s' st') :
    setting.Follows call st r post' :=
  h.further fun a s' st' hr hpost => .pure (himp a s' st' hr hpost)

end Follows

end ScriptEngine.Setting
