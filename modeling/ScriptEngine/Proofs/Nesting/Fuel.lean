import ScriptEngine.Engine

/-!
# Running out of fuel

Calls back into the engine take fuel for their nesting.  A computation that runs
out of it says nothing; with more fuel it may say something, and what it says
does not depend on the fuel.  This module orders computations by what they say
and proves that native functions and the machine respect the order.

## Main definitions

* `Below` — a computation says what another one says, or runs out of fuel.
* `Reentry.Below`, `NativesRespectFuel` — the same for calls back into the
  engine, and native functions that respect the order.
* `Exec.KeepsDepth` — instructions leave the number of outer calls alone.

## Main results

* `nativesRespectFuel_run` — the native functions respect the order.
* `Setting.below_runSteps`, `Setting.below_callFunction` — so do runs of the
  machine and calls of script functions.
-/

namespace ScriptEngine

/-! ### The order -/

/-- A computation says what another one says, or it fails with `lost`. -/
def Below {ε σ α : Type} (lost : ε) (x y : EStateM ε σ α) : Prop :=
  ∀ s, (∃ s', x s = .error lost s') ∨ x s = y s

namespace Below

variable {ε ε' σ α β : Type} {lost : ε} {x y z : EStateM ε σ α}

theorem refl (x : EStateM ε σ α) : Below lost x x := fun _ => .inr rfl

theorem trans (hxy : Below lost x y) (hyz : Below lost y z) : Below lost x z := by
  intro s
  rcases hxy s with hlost | heq
  · exact .inl hlost
  · rw [heq]
    exact hyz s

theorem throw_lost (y : EStateM ε σ α) : Below lost (throw lost) y := fun s => .inl ⟨s, rfl⟩

/-- One computation after another. -/
theorem bind {f g : α → EStateM ε σ β} (hxy : Below lost x y) (hfg : ∀ a, Below lost (f a) (g a)) :
    Below lost (x >>= f) (y >>= g) := by
  intro s
  have hx : (x >>= f) s = EStateM.bind x f s := rfl
  have hy : (y >>= g) s = EStateM.bind y g s := rfl
  rw [hx, hy, EStateM.bind, EStateM.bind]
  rcases hxy s with ⟨s', hlost⟩ | heq
  · exact .inl ⟨s', by rw [hlost]⟩
  · rw [← heq]
    cases x s with
    | ok a s' => exact hfg a s'
    | error e s' => exact .inr rfl

/-- The same with errors of another kind. -/
theorem adaptExcept {f : ε → ε'} {lost' : ε'} (hf : f lost = lost') (hxy : Below lost x y) :
    Below lost' (EStateM.adaptExcept f x) (EStateM.adaptExcept f y) := by
  intro s
  rcases hxy s with ⟨s', hlost⟩ | heq
  · exact .inl ⟨s', by simp only [EStateM.adaptExcept, hlost, hf]⟩
  · exact .inr (by rw [EStateM.adaptExcept, EStateM.adaptExcept, heq])

/-- A choice that is made alike. -/
theorem ite {c : Prop} [Decidable c] {x' y' : EStateM ε σ α} (hxy : Below lost x y)
    (hxy' : Below lost x' y') : Below lost (if c then x else x') (if c then y else y') := by
  split
  · exact hxy
  · exact hxy'

end Below

/-- A way to call back into the engine says what another one says, or runs out of
fuel. -/
def Reentry.Below (f g : Reentry) : Prop :=
  ∀ callee args, ScriptEngine.Below .outOfFuel (f callee args) (g callee args)

/-- What native functions do says more if what they call says more. -/
def NativesRespectFuel (natives : Builtin → NativeBody) : Prop :=
  ∀ b {f g : Reentry}, f.Below g → ∀ args,
    Below (.interrupt .outOfFuel) (natives b f args) (natives b g args)

/-! ### Native functions -/

section Natives

variable {f g : Reentry}

theorem below_callBack (h : f.Below g) (callee : Value) (args : List Value) :
    Below (.interrupt .outOfFuel) (EStateM.adaptExcept Failure.interrupt (f callee args))
      (EStateM.adaptExcept Failure.interrupt (g callee args)) :=
  (h callee args).adaptExcept rfl

namespace Library

theorem below_sortsBefore (h : f.Below g) (comparator lhs rhs : Value) :
    Below (.interrupt .outOfFuel) (sortsBefore f comparator lhs rhs)
      (sortsBefore g comparator lhs rhs) :=
  .ite (.refl _) ((below_callBack h comparator [lhs, rhs]).bind fun _ => .refl _)

variable {before before' : Value → Value → Action Bool}

theorem below_sink
    (h : ∀ lhs rhs, Below (.interrupt .outOfFuel) (before lhs rhs) (before' lhs rhs)) (v : Value)
    (sorted : List Value) :
    Below (.interrupt .outOfFuel) (sink before v sorted) (sink before' v sorted) := by
  induction sorted with
  | nil => exact .refl _
  | cons last rest ih => exact (h v last).bind fun _ => .ite (ih.bind fun _ => .refl _) (.refl _)

theorem below_sortOnto
    (h : ∀ lhs rhs, Below (.interrupt .outOfFuel) (before lhs rhs) (before' lhs rhs))
    (values sorted : List Value) :
    Below (.interrupt .outOfFuel) (sortOnto before sorted values)
      (sortOnto before' sorted values) := by
  induction values generalizing sorted with
  | nil => exact .refl _
  | cons v rest ih => exact (below_sink h v sorted).bind fun sorted => ih sorted

theorem below_sort (h : f.Below g) (args : Arguments) :
    Below (.interrupt .outOfFuel) (sort f args) (sort g args) :=
  .bind (.refl _) fun _ => .bind (.refl _) fun _ =>
    ((below_sortOnto (below_sortsBefore h _) _ []).bind fun _ => .refl _).bind fun _ => .refl _

end Library

theorem Host.below_attempt (h : f.Below g) (args : Arguments) :
    Below (.interrupt .outOfFuel) (attempt f args) (attempt g args) := by
  intro s
  rcases h (args.value 0) (args.drop 1) s with ⟨s', hlost⟩ | heq
  · exact .inl ⟨s', by rw [attempt, hlost]⟩
  · exact .inr (by rw [attempt, attempt, heq])

theorem Host.below_function (key : String) (h : f.Below g) (args : List Value) :
    Below (.interrupt .outOfFuel) (function key f args) (function key g args) := by
  unfold function
  split
  case h_5 => exact below_callBack h _ _
  case h_6 => exact below_attempt h args
  case h_7 => exact (below_callBack h _ _).bind fun _ => below_callBack h _ _
  all_goals exact .refl _

/-- **The native functions respect the order**: none hides that what it called ran
out of fuel. -/
theorem nativesRespectFuel_run : NativesRespectFuel (Library.run Host.function) := by
  intro b f g h args
  cases b with
  | table function =>
    cases function with
    | sort => exact Library.below_sort h args
    | _ => exact .refl _
  | host key => exact Host.below_function key h args
  | _ => exact .refl _

end Natives

/-! ### The number of outer calls -/

namespace Exec

/-- A computation of an instruction leaves the number of outer calls alone. -/
def KeepsDepth {α : Type} (x : Exec α) : Prop :=
  ∀ st a st', x st = .ok a st' → st'.machine.outerDepth = st.machine.outerDepth

namespace KeepsDepth

variable {α β : Type}

theorem bind {x : Exec α} {f : α → Exec β} (hx : KeepsDepth x) (hf : ∀ a, KeepsDepth (f a)) :
    KeepsDepth (x >>= f) := by
  intro st b st'' h
  have hbind : (x >>= f) st = EStateM.bind x f st := rfl
  rw [hbind, EStateM.bind] at h
  cases hrun : x st with
  | ok a st' =>
    rw [hrun] at h
    rw [hf a st' b st'' h, hx st a st' hrun]
  | error e st' =>
    rw [hrun] at h
    cases h

theorem of_eq {x : Exec α} (h : ∀ st a st', x st = .ok a st' → st'.machine = st.machine) :
    KeepsDepth x := fun st a st' hrun => by rw [h st a st' hrun]

theorem pure (a : α) : KeepsDepth (Pure.pure a) := of_eq fun _ _ _ hrun => by cases hrun; rfl

theorem throw (e : Failure) : KeepsDepth (MonadExcept.throw e : Exec α) := nofun

theorem ite {c : Prop} [Decidable c] {x y : Exec α} (hx : KeepsDepth x) (hy : KeepsDepth y) :
    KeepsDepth (if c then x else y) := by
  split
  · exact hx
  · exact hy

theorem machine : KeepsDepth Exec.machine := of_eq fun _ _ _ hrun => by cases hrun; rfl

theorem fromStore (f : Store → α) : KeepsDepth (Exec.fromStore f) :=
  of_eq fun _ _ _ hrun => by cases hrun; rfl

theorem modifyStore (f : Store → Store) : KeepsDepth (Exec.modifyStore f) :=
  of_eq fun _ _ _ hrun => by cases hrun; rfl

theorem onStore (f : Store → α × Store) : KeepsDepth (Exec.onStore f) :=
  of_eq fun _ _ _ hrun => by cases hrun; rfl

theorem modifyMachine {f : Machine → Machine} (h : ∀ m, (f m).outerDepth = m.outerDepth) :
    KeepsDepth (Exec.modifyMachine f) := by
  intro st a st' hrun
  cases hrun
  exact h st.machine

theorem modifyStack (f : List Value → List Value) : KeepsDepth (Exec.modifyStack f) :=
  modifyMachine fun _ => rfl

theorem push (v : Value) : KeepsDepth (Exec.push v) := modifyStack _

theorem ofExcept (r : Except Cause α) : KeepsDepth (Exec.ofExcept r) := by
  cases r with
  | ok a => exact pure a
  | error c => exact throw _

theorem pop : KeepsDepth Exec.pop := by
  rintro ⟨m, s⟩ a st' hrun
  simp only [Exec.pop] at hrun
  split at hrun
  · cases hrun
  · cases hrun
    rfl

theorem popMark : KeepsDepth Exec.popMark := by
  rintro ⟨m, s⟩ a st' hrun
  simp only [Exec.popMark] at hrun
  split at hrun
  · cases hrun
  · cases hrun
    rfl

theorem popCount : KeepsDepth Exec.popCount :=
  pop.bind fun v => by
    cases v with
    | number x => exact ite (pure _) (throw _)
    | _ => exact throw _

theorem require (n : Nat) : KeepsDepth (Exec.require n) :=
  machine.bind fun _ => ite (throw _) (pure _)

end KeepsDepth

end Exec

namespace Setting

variable {setting : Setting} {reenter reenter' : Reentry}

open Exec

theorem keepsDepth_runNative (f : Native) (arguments : List Value) :
    KeepsDepth (setting.runNative reenter f arguments) := by
  rintro ⟨m, s⟩ a st' hrun
  simp only [runNative] at hrun
  split at hrun
  · cases hrun
    rfl
  · cases hrun

theorem keepsDepth_enterFunction (entry : Nat) (captured : List ScopeRef) (count : Nat)
    (want : Option Nat) : KeepsDepth (enterFunction entry captured count want) := by
  rintro ⟨m, s⟩ a st' hrun
  cases hrun
  rfl

theorem keepsDepth_callValue (callee : Value) (count : Nat) (want : Option Nat) :
    KeepsDepth (setting.callValue reenter callee count want) :=
  (KeepsDepth.require count).bind fun _ => by
    cases callee with
    | native f =>
      exact KeepsDepth.machine.bind fun _ => (KeepsDepth.modifyStack _).bind fun _ =>
        (keepsDepth_runNative f _).bind fun _ => .modifyStack _
    | function entry captured =>
      exact KeepsDepth.machine.bind fun _ =>
        .ite ((KeepsDepth.throw _).bind fun _ => keepsDepth_enterFunction entry captured count want)
          (keepsDepth_enterFunction entry captured count want)
    | _ => exact .throw _

theorem keepsDepth_leaveFunction (results : List Value) :
    KeepsDepth (setting.leaveFunction results) :=
  .modifyMachine fun m => by
    split
    · rfl
    · rfl

theorem keepsDepth_jump (offset : Int) : KeepsDepth (jump offset) :=
  KeepsDepth.machine.bind fun _ => .ite (.throw _) (.modifyMachine fun _ => rfl)

theorem keepsDepth_jumpWhen (truth : Bool) (offset : Int) : KeepsDepth (jumpWhen truth offset) :=
  KeepsDepth.pop.bind fun _ => .ite (keepsDepth_jump offset) (.pure _)

theorem keepsDepth_loadIndex : KeepsDepth loadIndex :=
  KeepsDepth.pop.bind fun target => KeepsDepth.pop.bind fun key => by
    cases target with
    | nil => exact .push _
    | table ref =>
      exact .ite (.push _) ((KeepsDepth.ofExcept _).bind fun _ =>
        (KeepsDepth.fromStore _).bind fun _ => .push _)
    | _ => exact .throw _

theorem keepsDepth_storePairs (ref : TableRef) (count : Nat) :
    KeepsDepth (storePairs ref count) := by
  induction count with
  | zero => exact .pure _
  | succ count ih =>
    have hstore (key v : Value) : KeepsDepth (do
        let key ← Exec.ofExcept (Key.ofValue key)
        Exec.modifyStore fun s => s.modifyTable ref fun t => t.set key v
        storePairs ref count) :=
      (KeepsDepth.ofExcept _).bind fun _ => (KeepsDepth.modifyStore _).bind fun _ => ih
    exact KeepsDepth.pop.bind fun key => KeepsDepth.pop.bind fun v =>
      .ite ((KeepsDepth.throw _).bind fun _ => hstore key v) (hstore key v)

theorem keepsDepth_storeIndex (count : Nat) : KeepsDepth (storeIndex count) :=
  (KeepsDepth.require _).bind fun _ => KeepsDepth.machine.bind fun m => by
    cases m.stack.getD (2 * count) .nil with
    | table ref => exact keepsDepth_storePairs ref count
    | _ => exact .throw _

theorem keepsDepth_iterNext : KeepsDepth (setting.iterNext reenter) :=
  KeepsDepth.machine.bind fun m => by
    split
    · exact (KeepsDepth.modifyStack _).bind fun _ => keepsDepth_callValue _ _ _
    · exact .throw _

theorem keepsDepth_iterJumpIfDone (offset : Int) : KeepsDepth (iterJumpIfDone offset) :=
  KeepsDepth.machine.bind fun m => by
    split
    · exact .throw _
    · exact .ite (.bind (.modifyMachine fun _ => rfl) fun _ => keepsDepth_jump offset) (.pure _)

theorem keepsDepth_ret (op : Op) (hcode : op.code = .ret) :
    KeepsDepth (setting.execute reenter op) := by
  simp only [execute, hcode]
  cases op.count? with
  | some count =>
    exact (KeepsDepth.require count).bind fun _ => KeepsDepth.machine.bind fun _ =>
      (KeepsDepth.modifyStack _).bind fun _ => keepsDepth_leaveFunction _
  | none =>
    exact KeepsDepth.popMark.bind fun _ => KeepsDepth.machine.bind fun _ =>
      (KeepsDepth.modifyStack _).bind fun _ => keepsDepth_leaveFunction _

/-- **No instruction changes the number of outer calls.** -/
theorem keepsDepth_execute (op : Op) : KeepsDepth (setting.execute reenter op) := by
  cases hcode : op.code
  case ret => exact keepsDepth_ret op hcode
  all_goals simp only [execute, hcode]
  case load => exact KeepsDepth.machine.bind fun _ => (KeepsDepth.fromStore _).bind fun _ => .push _
  case store => exact KeepsDepth.pop.bind fun _ => KeepsDepth.machine.bind fun _ => .modifyStore _
  case push =>
    split
    · exact KeepsDepth.machine.bind fun _ => .push _
    · exact .push _
  case pop => exact .modifyStack _
  case dup =>
    refine KeepsDepth.machine.bind fun m => ?_
    split
    · exact .push _
    · exact .throw _
  case swap =>
    exact (KeepsDepth.require 2).bind fun _ => KeepsDepth.pop.bind fun _ =>
      KeepsDepth.pop.bind fun _ => (KeepsDepth.push _).bind fun _ => .push _
  case newTable => exact (KeepsDepth.onStore _).bind fun _ => .push _
  case loadIndex => exact keepsDepth_loadIndex
  case storeIndex => exact keepsDepth_storeIndex _
  case binary =>
    exact KeepsDepth.pop.bind fun _ => KeepsDepth.pop.bind fun _ =>
      (KeepsDepth.fromStore _).bind fun _ => (KeepsDepth.ofExcept _).bind fun _ => .push _
  case unary =>
    exact KeepsDepth.pop.bind fun _ => (KeepsDepth.fromStore _).bind fun _ =>
      (KeepsDepth.ofExcept _).bind fun _ => .push _
  case startBlock => exact (KeepsDepth.onStore _).bind fun _ => .modifyMachine fun _ => rfl
  case endBlock => exact .modifyMachine fun _ => rfl
  case makeLocal =>
    refine KeepsDepth.machine.bind fun m => ?_
    split
    · exact .modifyStore _
    · exact .throw _
  case call =>
    exact KeepsDepth.popCount.bind fun _ => KeepsDepth.pop.bind fun _ => keepsDepth_callValue _ _ _
  case argumentCount => exact KeepsDepth.popCount.bind fun _ => .modifyStack _
  case jump => exact keepsDepth_jump _
  case jumpIf => exact keepsDepth_jumpWhen _ _
  case jumpIfNot => exact keepsDepth_jumpWhen _ _
  case assignPush => exact .modifyMachine fun _ => rfl
  case assignSet => exact KeepsDepth.popMark.bind fun _ => .modifyStack _
  case assignCount => exact KeepsDepth.popMark.bind fun _ => .modifyStack _
  case iterNext => exact keepsDepth_iterNext
  case iterJumpIfDone => exact keepsDepth_iterJumpIfDone _
  case iterUpdateState => exact (KeepsDepth.require _).bind fun _ => .modifyStack _
  case leave => exact .throw _

theorem outerDepth_step {call : Position → Nat → Reentry} {trace : Bool} {st st' : State}
    (h : setting.step call trace st = .ok () st') :
    st'.machine.outerDepth = st.machine.outerDepth := by
  obtain ⟨m, s⟩ := st
  unfold step at h
  cases hop : setting.program.code[m.ip]? with
  | none =>
    simp only [hop] at h
    cases h
    rfl
  | some op =>
    have hlog : KeepsDepth (logInstruction op) := .of_eq fun _ _ _ hrun => by cases hrun; rfl
    have hlogStack : KeepsDepth logStack := .of_eq fun _ _ _ hrun => by cases hrun; rfl
    have hexecute : KeepsDepth (do
        Exec.modifyMachine fun m => { m with ip := m.ip + 1 }
        setting.execute (call op.position m.depth) op
        if trace then logStack) :=
      .bind (.modifyMachine fun _ => rfl) fun _ => (keepsDepth_execute op).bind fun _ =>
        .ite hlogStack (.pure _)
    have htraced : KeepsDepth (setting.traced trace (call op.position m.depth) op) :=
      .ite (hlog.bind fun _ => hexecute) hexecute
    simp only [hop, EStateM.adaptExcept] at h
    cases hrun : setting.traced trace (call op.position m.depth) op ⟨m, s⟩ with
    | ok a st'' =>
      rw [hrun] at h
      cases h
      exact htraced _ _ _ hrun
    | error e st'' =>
      rw [hrun] at h
      cases h

/-! ### Machines -/

theorem below_runNative (hnatives : NativesRespectFuel setting.natives) (h : reenter.Below reenter')
    (f : Native) (arguments : List Value) :
    Below (.interrupt .outOfFuel) (setting.runNative reenter f arguments)
      (setting.runNative reenter' f arguments) := by
  rintro ⟨m, s⟩
  rcases hnatives f.body h arguments s with ⟨s', hlost⟩ | heq
  · exact .inl ⟨⟨m, s'⟩, by simp only [runNative, hlost]⟩
  · exact .inr (by simp only [runNative, heq])

theorem below_callValue (hnatives : NativesRespectFuel setting.natives) (h : reenter.Below reenter')
    (callee : Value) (count : Nat) (want : Option Nat) :
    Below (.interrupt .outOfFuel) (setting.callValue reenter callee count want)
      (setting.callValue reenter' callee count want) := by
  cases callee with
  | native f =>
    exact .bind (.refl _) fun _ => .bind (.refl _) fun _ => .bind (.refl _) fun _ =>
      (below_runNative hnatives h f _).bind fun _ => .refl _
  | _ => exact .refl _

theorem below_execute (hnatives : NativesRespectFuel setting.natives) (h : reenter.Below reenter')
    (op : Op) :
    Below (.interrupt .outOfFuel) (setting.execute reenter op) (setting.execute reenter' op) := by
  cases hcode : op.code
  all_goals simp only [execute, hcode]
  case call =>
    exact .bind (.refl _) fun _ => .bind (.refl _) fun _ => below_callValue hnatives h _ _ _
  case iterNext =>
    refine .bind (.refl _) fun m => ?_
    split
    · exact .bind (.refl _) fun _ => below_callValue hnatives h _ _ _
    · exact .refl _
  all_goals exact .refl _

section

variable {call call' : Position → Nat → Reentry} {depth : Nat}

/-- Calls from a depth on say what others say, or run out of fuel. -/
def CallsBelow (depth : Nat) (call call' : Position → Nat → Reentry) : Prop :=
  ∀ position d, depth ≤ d → (call position d).Below (call' position d)

theorem CallsBelow.weaken {d : Nat} (h : CallsBelow depth call call') (hd : depth ≤ d) :
    CallsBelow d call call' := fun position d' hd' => h position d' (Nat.le_trans hd hd')

theorem below_step (hnatives : NativesRespectFuel setting.natives)
    (h : CallsBelow depth call call') (trace : Bool) (st : State)
    (hdepth : depth ≤ st.machine.outerDepth) :
    (∃ st', setting.step call trace st = .error .outOfFuel st') ∨
      setting.step call trace st = setting.step call' trace st := by
  obtain ⟨m, s⟩ := st
  cases hop : setting.program.code[m.ip]? with
  | none => exact .inr (by simp only [step, hop])
  | some op =>
    have hreenter := h op.position m.depth (Nat.le_trans hdepth (Nat.le_add_right _ _))
    have hexecute : Below (.interrupt .outOfFuel)
        (do
          Exec.modifyMachine fun m => { m with ip := m.ip + 1 }
          setting.execute (call op.position m.depth) op
          if trace then logStack)
        (do
          Exec.modifyMachine fun m => { m with ip := m.ip + 1 }
          setting.execute (call' op.position m.depth) op
          if trace then logStack) :=
      .bind (.refl _) fun _ => (below_execute hnatives hreenter op).bind fun _ => .refl _
    have htraced : Below (.interrupt .outOfFuel)
        (setting.traced trace (call op.position m.depth) op)
        (setting.traced trace (call' op.position m.depth) op) :=
      .ite (.bind (.refl _) fun _ => hexecute) hexecute
    have hlocated : Below .outOfFuel
        (EStateM.adaptExcept (Failure.located op.position)
          (setting.traced trace (call op.position m.depth) op))
        (EStateM.adaptExcept (Failure.located op.position)
          (setting.traced trace (call' op.position m.depth) op)) := htraced.adaptExcept rfl
    simp only [step, hop]
    exact hlocated ⟨m, s⟩

/-- **Runs say more if the calls back say more**, from the depth of the run on. -/
theorem below_runSteps (hnatives : NativesRespectFuel setting.natives)
    (h : CallsBelow depth call call') (trace : Bool) (n : Nat) (st : State)
    (hdepth : depth ≤ st.machine.outerDepth) :
    (∃ st', setting.runSteps call trace n st = .error .outOfFuel st') ∨
      setting.runSteps call trace n st = setting.runSteps call' trace n st := by
  induction n generalizing st with
  | zero => exact .inr rfl
  | succ n ih =>
    simp only [runSteps]
    by_cases hhalted : setting.halted st.machine = true
    · rw [if_pos hhalted, if_pos hhalted]
      exact .inr rfl
    · rw [if_neg hhalted, if_neg hhalted]
      rcases below_step hnatives h trace st hdepth with ⟨st', hlost⟩ | heq
      · exact .inl ⟨st', by rw [hlost]⟩
      · rw [← heq]
        cases hstep : setting.step call trace st with
        | ok a st' => exact ih st' (by rw [outerDepth_step hstep]; exact hdepth)
        | error e st' => exact .inr rfl

/-- Calls of script functions say more if the calls back say more, from the next
depth on. -/
theorem below_callFunction (hnatives : NativesRespectFuel setting.natives)
    (h : CallsBelow (depth + 1) call call') (position : Position) (callee : Value)
    (arguments : List Value) :
    Below .outOfFuel (setting.callFunction call position depth callee arguments)
      (setting.callFunction call' position depth callee arguments) := by
  intro s
  let m := setting.calleeMachine s.newScope.1 depth arguments
  have hreenter : (call position m.depth).Below (call' position m.depth) :=
    h position m.depth (Nat.le_add_right _ _)
  simp only [callFunction]
  rcases below_callValue hnatives hreenter callee arguments.length none ⟨m, s.newScope.2⟩ with
    ⟨st', hlost⟩ | heq
  · exact .inl ⟨st'.store, by rw [hlost]; rfl⟩
  · rw [← heq]
    cases hcall : setting.callValue (call position m.depth) callee arguments.length none
      ⟨m, s.newScope.2⟩ with
    | error e st' => exact .inr rfl
    | ok a st' =>
      have hdepth : depth + 1 ≤ st'.machine.outerDepth := by
        rw [keepsDepth_callValue _ _ _ _ _ _ hcall]
        exact Nat.le_refl _
      rcases below_runSteps hnatives h false setting.config.stepLimit st' hdepth with
        ⟨st'', hlost⟩ | heq'
      · exact .inl ⟨st''.store, by simp only [hlost]⟩
      · exact .inr (by simp only [heq'])

end

end Setting

end ScriptEngine
