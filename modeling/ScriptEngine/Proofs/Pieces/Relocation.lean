import ScriptEngine.Proofs.Pieces.Keeping
import ScriptEngine.Proofs.Reentry.Frames

/-!
# Code at two places

Jumps are relative, so that a piece of code does the same wherever it stands.  The machine at the
one place and the machine at the other are at the same distance from each other all the time; while
a call that was made in the piece is open, it is the place to which this call returns that differs.

## Main definitions

* `State.ahead` — a state whose machine is ahead in the code.
* `Machine.shifted`, `State.shifted` — a machine in a piece of code that stands further on.

## Main results

* `Setting.execute_ahead` — an instruction that neither makes a call nor returns nor jumps back
  does the same further on.
* `Setting.step_shifted` — so does a step in a piece of code without such jumps and returns.
* `Setting.finishes_shifted` — so does a run.
-/

namespace ScriptEngine

open Exec

/-! ### Instructions further on -/

/-- A state whose machine is `d` instructions ahead. -/
def State.ahead (d : Nat) (st : State) : State :=
  ⟨{ st.machine with ip := st.machine.ip + d }, st.store⟩

namespace Setting

variable {setting : Setting} {reenter : Reentry} {op : Op} {s : Store}

theorem jump_ahead (d : Nat) {offset : Int} (h : 0 ≤ offset) (m : Machine) (s : Store) :
    jump offset ⟨{ m with ip := m.ip + d }, s⟩ = mapState (State.ahead d) (jump offset ⟨m, s⟩) := by
  have hback : ¬ (m.ip : Int) + offset < 0 := by omega
  have hback' : ¬ ((m.ip + d : Nat) : Int) + offset < 0 := by omega
  have hplace : (((m.ip + d : Nat) : Int) + offset).toNat = ((m.ip : Int) + offset).toNat + d := by
    omega
  simp only [jump, Exec.machine, bind, EStateM.bind, if_neg hback, if_neg hback']
  simp only [Exec.modifyMachine, mapState, State.ahead, hplace]

theorem jumpWhen_ahead (d : Nat) (truth : Bool) {offset : Int} (h : 0 ≤ offset) (m : Machine)
    (s : Store) :
    jumpWhen truth offset ⟨{ m with ip := m.ip + d }, s⟩ =
      mapState (State.ahead d) (jumpWhen truth offset ⟨m, s⟩) := by
  obtain ⟨ip, stack, scopes, captured, frames, marks, outer⟩ := m
  rcases stack with _ | ⟨v, rest⟩
  · rfl
  · simp only [jumpWhen, Exec.pop, bind, EStateM.bind]
    by_cases hv : v.isTruthy = truth
    · simp only [if_pos hv]
      exact jump_ahead d h ⟨ip, rest, scopes, captured, frames, marks, outer⟩ s
    · simp only [if_neg hv]
      rfl

theorem iterJumpIfDone_ahead (d : Nat) {offset : Int} (h : 0 ≤ offset) (m : Machine) (s : Store) :
    iterJumpIfDone offset ⟨{ m with ip := m.ip + d }, s⟩ =
      mapState (State.ahead d) (iterJumpIfDone offset ⟨m, s⟩) := by
  obtain ⟨ip, stack, scopes, captured, frames, marks, outer⟩ := m
  rcases marks with _ | ⟨mark, marks⟩
  · rfl
  · simp only [iterJumpIfDone, Exec.machine, bind, EStateM.bind]
    by_cases hdone : ((Stack.above mark stack).headD .nil).isNil = true
    · simp only [if_pos hdone]
      exact jump_ahead d h ⟨ip, Stack.cutTo mark stack, scopes, captured, frames, marks, outer⟩ s
    · simp only [if_neg hdone]
      rfl

theorem storePairs_ahead (d : Nat) (ref : TableRef) (n : Nat) (m : Machine) (s : Store) :
    storePairs ref n ⟨{ m with ip := m.ip + d }, s⟩ =
      mapState (State.ahead d) (storePairs ref n ⟨m, s⟩) := by
  induction n generalizing m s with
  | zero => rfl
  | succ n ih =>
    obtain ⟨ip, stack, scopes, captured, frames, marks, outer⟩ := m
    rcases stack with _ | ⟨key, _ | ⟨v, rest⟩⟩
    · rfl
    · rfl
    · simp only [storePairs, bind, EStateM.bind, Exec.pop]
      split
      · rfl
      · cases Key.ofValue key with
        | ok k => exact ih ⟨ip, rest, scopes, captured, frames, marks, outer⟩ _
        | error c => rfl

/-- **An instruction does the same further on**, unless it makes a call, returns or jumps back. -/
theorem execute_ahead (d : Nat) (hcall : ¬ (op.code = .call ∨ op.code = .iterNext))
    (hret : op.code ≠ .ret) (hjump : op.code.isJump → 0 ≤ op.offset) (m : Machine) (s : Store) :
    setting.execute reenter op ⟨{ m with ip := m.ip + d }, s⟩ =
      mapState (State.ahead d) (setting.execute reenter op ⟨m, s⟩) := by
  unfold execute
  cases hcode : op.code
  case call => exact absurd (.inl hcode) hcall
  case iterNext => exact absurd (.inr hcode) hcall
  case ret => exact absurd hcode hret
  case jump => exact jump_ahead d (hjump (by rw [hcode]; rfl)) m s
  case jumpIf => exact jumpWhen_ahead d true (hjump (by rw [hcode]; rfl)) m s
  case jumpIfNot => exact jumpWhen_ahead d false (hjump (by rw [hcode]; rfl)) m s
  case iterJumpIfDone => exact iterJumpIfDone_ahead d (hjump (by rw [hcode]; rfl)) m s
  all_goals
    obtain ⟨ip, stack, scopes, captured, frames, marks, outer⟩ := m
    dsimp only
  case load | newTable | pop | startBlock | endBlock | assignPush | leave => rfl
  case store | dup => cases stack <;> rfl
  case push => cases op.pushed <;> rfl
  case swap => rcases stack with _ | ⟨v, _ | ⟨w, rest⟩⟩ <;> rfl
  case loadIndex =>
    rcases stack with _ | ⟨target, _ | ⟨key, rest⟩⟩
    · rfl
    · rfl
    · cases target with
      | table ref =>
        simp only [loadIndex, bind, EStateM.bind, Exec.pop]
        split
        · rfl
        · cases Key.ofValue key <;> rfl
      | _ => rfl
  case storeIndex =>
    simp only [storeIndex, bind, EStateM.bind, Exec.require, Exec.machine]
    by_cases hlength : stack.length < 2 * op.count?.getD 1 + 1
    · simp only [if_pos hlength]
      rfl
    · simp only [if_neg hlength, pure, EStateM.pure]
      cases stack.getD (2 * op.count?.getD 1) .nil with
      | table ref =>
        exact storePairs_ahead d ref _ ⟨ip, stack, scopes, captured, frames, marks, outer⟩ s
      | _ => rfl
  case binary operator =>
    rcases stack with _ | ⟨lhs, _ | ⟨rhs, rest⟩⟩
    · rfl
    · rfl
    · simp only [bind, EStateM.bind, Exec.pop, Exec.fromStore]
      cases s.binary operator lhs rhs <;> rfl
  case unary operator =>
    rcases stack with _ | ⟨v, rest⟩
    · rfl
    · simp only [bind, EStateM.bind, Exec.pop, Exec.fromStore]
      cases s.unary operator v <;> rfl
  case makeLocal => cases scopes <;> rfl
  case argumentCount =>
    rcases stack with _ | ⟨v, rest⟩
    · rfl
    · cases v with
      | number x =>
        simp only [bind, EStateM.bind, Exec.popCount, Exec.pop]
        by_cases hx : 0 ≤ x
        · simp only [if_pos hx]
          rfl
        · simp only [if_neg hx]
          rfl
      | _ => rfl
  case assignSet | assignCount => cases marks <;> rfl
  case iterUpdateState =>
    simp only [iterUpdateState, bind, EStateM.bind, Exec.require, Exec.machine]
    by_cases hlength : stack.length < op.count?.getD 1 + 1
    · simp only [if_pos hlength]
      rfl
    · simp only [if_neg hlength]
      rfl

end Setting

/-! ### Calls made in a piece -/

/-- Calls the first of which, behind `n` others, returns `d` instructions further on. -/
def shiftReturn (n d : Nat) : List Frame → List Frame
  | [] => []
  | frame :: frames =>
    if frames.length = n then { frame with returnTo := frame.returnTo + d } :: frames
    else frame :: shiftReturn n d frames

section

variable {n d : Nat} {frame : Frame} {frames : List Frame}

theorem shiftReturn_first (h : frames.length = n) :
    shiftReturn n d (frame :: frames) = { frame with returnTo := frame.returnTo + d } :: frames :=
  if_pos h

theorem shiftReturn_later (h : frames.length ≠ n) :
    shiftReturn n d (frame :: frames) = frame :: shiftReturn n d frames := if_neg h

@[simp] theorem length_shiftReturn (n d : Nat) (frames : List Frame) :
    (shiftReturn n d frames).length = frames.length := by
  induction frames with
  | nil => rfl
  | cons frame frames ih =>
    by_cases h : frames.length = n
    · rw [shiftReturn_first h, List.length_cons, List.length_cons]
    · rw [shiftReturn_later h, List.length_cons, ih, List.length_cons]

/-- The calls that were open before are the same. -/
theorem suffix_shiftReturn {others : List Frame} (h : others.length = n)
    (hlt : n < frames.length) : others <:+ shiftReturn n d frames ↔ others <:+ frames := by
  induction frames with
  | nil => exact absurd hlt (Nat.not_lt_zero _)
  | cons frame frames ih =>
    rw [List.length_cons] at hlt
    have hcons {f : Frame} {fs : List Frame} (hfs : fs.length = frames.length) :
        others <:+ f :: fs ↔ others <:+ fs := by
      refine ⟨fun hsuffix => ?_, fun hsuffix => hsuffix.trans (List.suffix_cons _ _)⟩
      rcases List.suffix_cons_iff.1 hsuffix with rfl | hsuffix
      · rw [List.length_cons] at h
        omega
      · exact hsuffix
    by_cases hlength : frames.length = n
    · rw [shiftReturn_first hlength, hcons rfl, hcons rfl]
    · rw [shiftReturn_later hlength, hcons (length_shiftReturn n d frames), hcons rfl,
        ih (by omega)]

end

/-- A machine in a piece of code that stands `d` instructions further on, or in a call that was
made there, `n` calls being open when the piece was begun. -/
def Machine.shifted (n d : Nat) (m : Machine) : Machine :=
  if m.frames.length = n then { m with ip := m.ip + d }
  else { m with frames := shiftReturn n d m.frames }

/-- A state whose machine is in a piece of code that stands further on. -/
def State.shifted (n d : Nat) (st : State) : State := ⟨st.machine.shifted n d, st.store⟩

/-- An ending further on. -/
def Ending.shifted (n d : Nat) : Ending → Ending
  | .outside st => .outside (st.shifted n d)
  | .failed i s => .failed i s

namespace Machine

variable {m : Machine} {n d : Nat}

theorem shifted_of_eq (h : m.frames.length = n) : m.shifted n d = { m with ip := m.ip + d } :=
  if_pos h

theorem shifted_of_ne (h : m.frames.length ≠ n) :
    m.shifted n d = m.altered ⟨shiftReturn n d, id⟩ := if_neg h

theorem length_frames_shifted (n d : Nat) (m : Machine) :
    (m.shifted n d).frames.length = m.frames.length := by
  unfold shifted
  split
  · rfl
  · exact length_shiftReturn n d m.frames

theorem depth_shifted (n d : Nat) (m : Machine) : (m.shifted n d).depth = m.depth := by
  rw [depth, depth, length_frames_shifted]
  unfold shifted
  split <;> rfl

/-- A machine that is in the call of a piece further on. -/
theorem shifted_eq_iff {m' : Machine} (h : m'.frames.length = n) :
    m.shifted n d = { m' with ip := m'.ip + d } ↔ m = m' := by
  constructor
  · intro heq
    have hlength : m.frames.length = n := by rw [← length_frames_shifted n d m, heq, h]
    rw [shifted_of_eq hlength] at heq
    cases m
    cases m'
    simpa only [Machine.mk.injEq, Nat.add_right_cancel_iff] using heq
  · rintro rfl
    exact shifted_of_eq h

theorem past_shifted (n d : Nat) (m : Machine) : (m.shifted n d).past = m.past.shifted n d := by
  by_cases h : m.frames.length = n
  · rw [shifted_of_eq h, shifted_of_eq (m := m.past) h]
    simp only [past, Nat.add_right_comm]
  · rw [shifted_of_ne h, shifted_of_ne (m := m.past) h]
    rfl

/-- The stack does not matter. -/
theorem shifted_with_stack (n d : Nat) (m : Machine) (stack : List Value) :
    { m.shifted n d with stack := stack } = Machine.shifted n d { m with stack := stack } := by
  by_cases h : m.frames.length = n
  · rw [shifted_of_eq h, shifted_of_eq (m := { m with stack := stack }) h]
  · rw [shifted_of_ne h, shifted_of_ne (m := { m with stack := stack }) h]
    rfl

/-- A function that is entered further on. -/
theorem entered_shifted (h : n ≤ m.frames.length) (i : Invocation) (entry : Nat)
    (captured : List ScopeRef) (scope : ScopeRef) :
    (m.shifted n d).entered i entry captured scope =
      (m.entered i entry captured scope).shifted n d := by
  have hne : (m.entered i entry captured scope).frames.length ≠ n := by
    simp only [entered, List.length_cons]
    omega
  rw [shifted_of_ne hne]
  by_cases hlength : m.frames.length = n
  · rw [shifted_of_eq hlength]
    simp only [entered, altered, shiftReturn_first hlength, id]
  · rw [shifted_of_ne hlength]
    simp only [entered, altered, shiftReturn_later hlength, id]

/-- **A machine is in a piece of code if the machine further on is in the piece there.** -/
theorem inside_shifted {c : Piece} (h : c.frames.length = n) :
    Piece.Inside ⟨c.start + d, c.stop + d, c.frames⟩ (m.shifted n d) ↔ c.Inside m := by
  by_cases hlength : m.frames.length = n
  · rw [shifted_of_eq hlength]
    refine and_congr_right fun _ => ?_
    simp only [Nat.add_le_add_iff_right, Nat.add_lt_add_iff_right]
  · have hne (frames : List Frame) (hframes : frames.length = m.frames.length) :
        frames ≠ c.frames := fun heq => hlength (by rw [← hframes, heq, h])
    rw [shifted_of_ne hlength]
    refine and_congr ?_ ?_
    · by_cases hlt : n < m.frames.length
      · exact suffix_shiftReturn h hlt
      · have hshort (frames : List Frame) (hframes : frames.length = m.frames.length) :
            ¬ c.frames <:+ frames := fun hsuffix => by
          have hle := hsuffix.length_le
          omega
        exact iff_of_false (hshort _ (length_shiftReturn n d _)) (hshort _ rfl)
    · exact ⟨fun _ heq => absurd heq (hne _ rfl),
        fun _ heq => absurd heq (hne _ (length_shiftReturn n d _))⟩

end Machine

namespace Setting

variable {setting : Setting} {call : Position → Nat → Reentry} {reenter : Reentry} {op : Op}
  {m : Machine} {s : Store} {st : State} {n d : Nat}

/-- A machine that stays in its call is shifted as it was. -/
theorem mapState_shifted {r : EStateM.Result Failure State Unit} {φ : State → State}
    (hframes : (stateOf r).machine.frames = m.frames)
    (h : ∀ st : State, st.machine.frames = m.frames → φ st = st.shifted n d) :
    mapState φ r = mapState (State.shifted n d) r := by
  cases r with
  | ok u st => exact congrArg _ (h st hframes)
  | error e st => exact congrArg _ (h st hframes)

/-- An instruction that makes no call and does not return leaves the open calls alone. -/
theorem frames_execute (hcall : ¬ (op.code = .call ∨ op.code = .iterNext)) (hret : op.code ≠ .ret) :
    (stateOf (setting.execute reenter op ⟨m, s⟩)).machine.frames = m.frames := by
  have hmoves : MovesTo setting op ⟨m, s⟩ (setting.execute reenter op ⟨m, s⟩) := movesTo_execute
  revert hmoves
  cases setting.execute reenter op ⟨m, s⟩ with
  | error e st => exact fun hcalls => (Machine.of_calls_eq hcalls).2.2
  | ok u st =>
    intro hmoves
    cases hmoves with
    | stay _ _ _ hcalls => exact (Machine.of_calls_eq hcalls).2.2
    | opened _ _ hcalls => exact congrArg (·.2.2) hcalls
    | closed _ _ hcalls => exact congrArg (·.2.2) hcalls
    | entered hi => exact absurd (code_of_invocation hi) hcall
    | left hcode => exact absurd hcode hret
    | ended hcode => exact absurd hcode hret

/-- A call that is made further on. -/
theorem invoke_shifted (hn : n ≤ m.frames.length) (i : Invocation) :
    setting.invoke reenter i (m.shifted n d) s =
      mapState (State.shifted n d) (setting.invoke reenter i m s) := by
  unfold invoke
  simp only [Machine.shifted_with_stack, Machine.entered_shifted hn, Machine.depth_shifted]
  cases i.callee with
  | native f =>
    dsimp only
    cases setting.natives f.body reenter i.args s <;> rfl
  | function entry captured =>
    dsimp only
    split <;> rfl
  | _ => rfl

/-- A return from a call that was made further on, or in one of these. -/
theorem leaveFunction_shifted (hn : n < m.frames.length) (results : List Value) :
    setting.leaveFunction results ⟨m.shifted n d, s⟩ =
      mapState (State.shifted n d) (setting.leaveFunction results ⟨m, s⟩) := by
  obtain ⟨ip, stack, scopes, captured, frames, marks, outer⟩ := m
  cases frames with
  | nil => exact absurd hn (Nat.not_lt_zero _)
  | cons frame frames =>
    have hlt : n < (frame :: frames).length := hn
    rw [Machine.shifted_of_ne (Nat.ne_of_gt hn)]
    rw [List.length_cons] at hlt
    by_cases hlength : frames.length = n
    · simp only [leaveFunction, Exec.modifyMachine, Machine.altered, shiftReturn_first hlength,
        mapState, State.shifted, id, Machine.shifted, if_pos hlength]
    · simp only [leaveFunction, Exec.modifyMachine, Machine.altered, shiftReturn_later hlength,
        mapState, State.shifted, id, Machine.shifted, if_neg hlength]

/-- An instruction that returns from a call that was made further on, or from one inside of that. -/
theorem execute_ret_shifted (hret : op.code = .ret) (hn : n < m.frames.length) :
    setting.execute reenter op ⟨m.shifted n d, s⟩ =
      mapState (State.shifted n d) (setting.execute reenter op ⟨m, s⟩) := by
  have hmirrors : Mirrors (State.altered ⟨shiftReturn n d, id⟩ #[])
      (Failure.Passes fun _ => True) (returning op) (returning op) := mirrors_returning op
  have hreturning : returning op ⟨m.altered ⟨shiftReturn n d, id⟩, s⟩ =
      mapState (State.altered ⟨shiftReturn n d, id⟩ #[]) (returning op ⟨m, s⟩) := by
    rw [← (hmirrors ⟨m, s⟩).1, State.altered, Store.behind_empty]
    rfl
  have hkept : (stateOf (returning op ⟨m, s⟩)).machine.frames = m.frames :=
    (Machine.of_calls_eq ((still_returning op).alike ⟨m, s⟩).calls).2.2
  rw [execute_ret hret, Machine.shifted_of_ne (Nat.ne_of_gt hn)]
  change EStateM.bind (returning op) setting.leaveFunction ⟨m.altered _, s⟩ =
    mapState _ (EStateM.bind (returning op) setting.leaveFunction ⟨m, s⟩)
  rw [EStateM.bind, EStateM.bind, hreturning]
  have haltered (st : State) (hframes : st.machine.frames = m.frames) :
      st.altered ⟨shiftReturn n d, id⟩ #[] = st.shifted n d := by
    rw [State.shifted, Machine.shifted_of_ne (hframes ▸ Nat.ne_of_gt hn), State.altered,
      Store.behind_empty]
    rfl
  cases hrun : returning op ⟨m, s⟩ with
  | error e st =>
    rw [hrun] at hkept
    exact congrArg (EStateM.Result.error e) (haltered st hkept)
  | ok results st =>
    rw [hrun] at hkept
    have hopen : st.machine.frames = m.frames := hkept
    simp only [mapState, haltered st hopen]
    exact leaveFunction_shifted (hopen ▸ hn) results

/-- **An instruction does the same further on**, unless it returns from the call that the piece
runs in, or jumps back in it. -/
theorem execute_shifted (hn : n ≤ m.frames.length)
    (hbase : m.frames.length = n → op.code ≠ .ret ∧ (op.code.isJump → 0 ≤ op.offset)) :
    setting.execute reenter op ⟨m.shifted n d, s⟩ =
      mapState (State.shifted n d) (setting.execute reenter op ⟨m, s⟩) := by
  by_cases hcall : op.code = .call ∨ op.code = .iterNext
  · have hstack : (m.shifted n d).invocation? op = m.invocation? op := by
      unfold Machine.shifted
      split <;> rfl
    cases hi : m.invocation? op with
    | none =>
      obtain ⟨c, stack, hrun⟩ := exists_failure_of_no_invocation hcall hi
      have hplain := hrun setting m.ip m.frames reenter s
      have hshifted : setting.execute reenter op ⟨m.shifted n d, s⟩ =
          .error (.cause c) ⟨{ m.shifted n d with stack := stack }, s⟩ := by
        unfold Machine.shifted
        split
        · exact hrun setting (m.ip + d) m.frames reenter s
        · exact hrun setting m.ip (shiftReturn n d m.frames) reenter s
      rw [hshifted, Machine.shifted_with_stack]
      exact (congrArg (mapState (State.shifted n d)) hplain).symm
    | some i =>
      rw [execute_of_invocation (hstack.trans hi), execute_of_invocation hi]
      exact invoke_shifted hn i
  · by_cases hlength : m.frames.length = n
    · obtain ⟨hret, hjump⟩ := hbase hlength
      rw [Machine.shifted_of_eq hlength, execute_ahead d hcall hret hjump m s]
      refine mapState_shifted (frames_execute hcall hret) fun st hframes => ?_
      rw [State.shifted, Machine.shifted_of_eq (hframes ▸ hlength)]
      rfl
    · rw [Machine.shifted_of_ne hlength]
      by_cases hret : op.code = .ret
      · exact (Machine.shifted_of_ne hlength) ▸
          execute_ret_shifted hret (Nat.lt_of_le_of_ne hn (Ne.symm hlength))
      · obtain ⟨hcall', hiter⟩ := not_or.1 hcall
        have hmirrors : Mirrors (State.altered ⟨shiftReturn n d, id⟩ #[])
            (Failure.Passes fun _ => True) (setting.execute reenter op)
            (setting.execute reenter op) := mirrors_execute hcall' hiter hret
        have hrun := (hmirrors ⟨m, s⟩).1
        rw [State.altered, Store.behind_empty] at hrun
        refine hrun.trans (mapState_shifted (frames_execute hcall hret) fun st hframes => ?_)
        rw [State.shifted, Machine.shifted_of_ne (hframes ▸ hlength), State.altered,
          Store.behind_empty]
        rfl

/-- A piece of code stands at two places, `d` instructions apart; it does not return, and does not
jump back. -/
def Copied (setting : Setting) (start stop d : Nat) : Prop :=
  ∀ ip, start ≤ ip → ip < stop → ∃ op, setting.program.code[ip]? = some op ∧
    setting.program.code[ip + d]? = some op ∧ op.code ≠ .ret ∧ (op.code.isJump → 0 ≤ op.offset)

variable {c : Piece} {e : Ending}

/-- **A step in a piece of code is the same further on.** -/
theorem step_shifted (hcopied : setting.Copied c.start c.stop d) (hinside : c.Inside st.machine) :
    setting.step call false (st.shifted c.frames.length d) =
      mapState (State.shifted c.frames.length d) (setting.step call false st) := by
  obtain ⟨m, s⟩ := st
  have hn : c.frames.length ≤ m.frames.length := hinside.1.length_le
  have hstep (op : Op) (hop : setting.program.code[m.ip]? = some op)
      (hop' : setting.program.code[(m.shifted c.frames.length d).ip]? = some op)
      (hbase : m.frames.length = c.frames.length →
        op.code ≠ .ret ∧ (op.code.isJump → 0 ≤ op.offset)) :
      setting.step call false ⟨m.shifted c.frames.length d, s⟩ =
        mapState (State.shifted c.frames.length d) (setting.step call false ⟨m, s⟩) := by
    rw [step_eq hop, step_eq hop', EStateM.adaptExcept, EStateM.adaptExcept, Machine.depth_shifted]
    have hpast := Machine.past_shifted c.frames.length d m
    rw [Machine.past, Machine.past] at hpast
    rw [hpast, execute_shifted (m := { m with ip := m.ip + 1 }) hn hbase]
    cases setting.execute (call op.position m.depth) op ⟨{ m with ip := m.ip + 1 }, s⟩ <;> rfl
  by_cases hlength : m.frames.length = c.frames.length
  · have hframes : m.frames = c.frames := (hinside.1.eq_of_length hlength.symm).symm
    obtain ⟨hstart, hstop⟩ := hinside.2 hframes
    obtain ⟨op, hop, hop', hret, hjump⟩ := hcopied m.ip hstart hstop
    refine hstep op hop ?_ fun _ => ⟨hret, hjump⟩
    rw [Machine.shifted_of_eq hlength]
    exact hop'
  · have hip : (m.shifted c.frames.length d).ip = m.ip := by
      rw [Machine.shifted_of_ne hlength]
      rfl
    cases hop : setting.program.code[m.ip]? with
    | some op => exact hstep op hop (by rw [hip, hop]) fun h => absurd h hlength
    | none =>
      have hstay : setting.step call false ⟨m, s⟩ = .ok () ⟨m, s⟩ := step_of_none hop
      rw [hstay]
      exact step_of_none (by rw [State.shifted, hip, hop])

/-- The states that a run gets to are the same further on. -/
theorem traverses_shifted (hcopied : setting.Copied c.start c.stop d) {st₁ : State} :
    setting.Traverses call false ⟨c.start + d, c.stop + d, c.frames⟩
        (st.shifted c.frames.length d) st₁ ↔
      ∃ st', setting.Traverses call false c st st' ∧ st₁ = st'.shifted c.frames.length d := by
  have hinside (st : State) : Piece.Inside ⟨c.start + d, c.stop + d, c.frames⟩
      (st.shifted c.frames.length d).machine ↔ c.Inside st.machine := Machine.inside_shifted rfl
  constructor
  · intro h
    induction h with
    | refl => exact ⟨st, .refl, rfl⟩
    | tail _ hstep ih =>
      obtain ⟨st', hrun, rfl⟩ := ih
      obtain ⟨hin, hstep⟩ := hstep
      replace hin := (hinside st').1 hin
      rw [step_shifted hcopied hin] at hstep
      cases hrun' : setting.step call false st' with
      | error i st'' =>
        rw [hrun'] at hstep
        cases hstep
      | ok u st'' =>
        rw [hrun'] at hstep
        cases hstep
        exact ⟨st'', hrun.tail ⟨hin, hrun'⟩, rfl⟩
  · rintro ⟨st', h, rfl⟩
    induction h with
    | refl => exact .refl
    | tail _ hstep ih =>
      refine ih.tail ⟨(hinside _).2 hstep.1, ?_⟩
      rw [step_shifted hcopied hstep.1, hstep.2]
      rfl

/-- **A run of a piece of code is the same further on.** -/
theorem finishes_shifted (hcopied : setting.Copied c.start c.stop d) :
    setting.Finishes call false ⟨c.start + d, c.stop + d, c.frames⟩ (st.shifted c.frames.length d)
        e ↔
      ∃ e', setting.Finishes call false c st e' ∧ e = e'.shifted c.frames.length d := by
  have hinside (st : State) : Piece.Inside ⟨c.start + d, c.stop + d, c.frames⟩
      (st.shifted c.frames.length d).machine ↔ c.Inside st.machine := Machine.inside_shifted rfl
  constructor
  · generalize hst : st.shifted c.frames.length d = st₁
    intro h
    induction h generalizing st with
    | outside hout =>
      subst hst
      exact ⟨.outside st, .outside (mt (hinside st).2 hout), rfl⟩
    | @failed st₁ i m s hin hstep =>
      subst hst
      replace hin := (hinside st).1 hin
      rw [step_shifted hcopied hin] at hstep
      cases hrun : setting.step call false st with
      | ok u st' =>
        rw [hrun] at hstep
        cases hstep
      | error i st' =>
        rw [hrun] at hstep
        cases hstep
        exact ⟨.failed i st'.store, .failed hin hrun, rfl⟩
    | @next st₁ st₂ e hin hstep _ ih =>
      subst hst
      replace hin := (hinside st).1 hin
      rw [step_shifted hcopied hin] at hstep
      cases hrun : setting.step call false st with
      | error i st' =>
        rw [hrun] at hstep
        cases hstep
      | ok u st' =>
        rw [hrun] at hstep
        cases hstep
        obtain ⟨e', he', rfl⟩ := ih rfl
        exact ⟨e', .next hin hrun he', rfl⟩
  · rintro ⟨e', he', rfl⟩
    induction he' with
    | @outside st hout => exact .outside (mt (hinside st).1 hout)
    | @failed st i m s hin hstep =>
      refine .failed (m := m.shifted c.frames.length d) ((hinside st).2 hin) ?_
      rw [step_shifted hcopied hin, hstep]
      rfl
    | @next st st' e hin hstep _ ih =>
      have hnext : setting.step call false (st.shifted c.frames.length d) =
          .ok () (st'.shifted c.frames.length d) := by
        rw [step_shifted hcopied hin, hstep]
        rfl
      exact .next ((hinside st).2 hin) hnext ih

end Setting

end ScriptEngine
