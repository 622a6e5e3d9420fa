import ScriptEngine.Proofs.Courses.Basic

/-!
# What calls come to

A call of a native function comes to what the function says.  A call of a script function runs
its code, and that of the calls that it makes, until the function returns; the results are those
that it returns, whatever number of them the caller wants.  Where the caller goes on behind the
call makes no difference to it.

## Main definitions

* `Machine.waiting` — a caller, without what a call does not depend on.
* `Setting.Answers`, `Setting.answers` — what a call comes to.
* `Setting.RunsCall` — an instruction runs as its call does.

## Main results

* `Setting.answers_moved` — a call comes to the same wherever the caller goes on.
* `Setting.runs_invocation` — an instruction that makes a call runs as the call does, and leaves
  its results, as many as are wanted, in the place of the arguments.
-/

namespace ScriptEngine

/-- The machines in calls that are made inside of some calls. -/
def Piece.callsFrom (frames : List Frame) : Piece := ⟨0, 0, frames⟩

theorem Piece.inside_callsFrom {frames : List Frame} {m : Machine} :
    (Piece.callsFrom frames).Inside m ↔ frames <:+ m.frames ∧ m.frames ≠ frames :=
  and_congr_right fun _ => forall_congr' fun _ => iff_false_intro fun h => Nat.not_lt_zero _ h.2

/-- An empty piece of code is executed in calls only. -/
theorem Piece.inside_empty {ip : Nat} {frames : List Frame} {m : Machine} :
    Piece.Inside ⟨ip, ip, frames⟩ m ↔ (Piece.callsFrom frames).Inside m := by
  rw [Piece.inside_callsFrom]
  refine and_congr_right fun _ => forall_congr' fun _ => iff_false_intro fun h => ?_
  exact Nat.not_lt_of_le h.1 h.2

/-- A machine that makes a call, but for its place and its stack. -/
def Machine.waiting (m : Machine) : Machine := { m with ip := 0, stack := [] }

namespace Setting

/-- What a call that a machine makes comes to. -/
inductive Answers (setting : Setting) (call : Position → Nat → Reentry) (position : Position)
    (caller : Machine) (i : Invocation) :
    Store → EStateM.Result Interrupt Store (List Value) → Prop
  | native {f : Native} {s : Store} (hf : i.callee = .native f) :
      Answers setting call position caller i s
        (EStateM.adaptExcept (Failure.located position)
          (setting.natives f.body (call position caller.depth) i.args) s)
  | returned {entry : Nat} {captured : List ScopeRef} {s : Store} {st : State} {op : Op}
      (hf : i.callee = .function entry captured)
      (hdepth : ¬ setting.config.maxCallDepth ≤ caller.depth)
      (hrun : setting.Traverses call false (.callsFrom caller.frames)
        ⟨caller.entered i entry captured s.newScope.1, s.newScope.2⟩ st)
      (hframes : st.machine.frames = savedFrame caller i :: caller.frames)
      (hop : setting.program.code[st.machine.ip]? = some op) (hret : op.code = .ret) :
      Answers setting call position caller i s (.ok (op.results st.machine) st.store)
  | failed {entry : Nat} {captured : List ScopeRef} {s s' : Store} {e : Interrupt}
      (hf : i.callee = .function entry captured)
      (hdepth : ¬ setting.config.maxCallDepth ≤ caller.depth)
      (hrun : setting.Finishes call false (.callsFrom caller.frames)
        ⟨caller.entered i entry captured s.newScope.1, s.newScope.2⟩ (.failed e s')) :
      Answers setting call position caller i s (.error e s')
  | tooDeep {entry : Nat} {captured : List ScopeRef} {s : Store}
      (hf : i.callee = .function entry captured)
      (hdepth : setting.config.maxCallDepth ≤ caller.depth) :
      Answers setting call position caller i s
        (.error (.error (.runtime .stackOverflow position)) s)
  | notCallable {s : Store} (hnative : ∀ f, i.callee ≠ .native f)
      (hfunction : ∀ entry captured, i.callee ≠ .function entry captured) :
      Answers setting call position caller i s
        (.error (.error (.runtime (.calling i.callee.kind) position)) s)

/-- The course of a call. -/
def answers (setting : Setting) (fuel : Nat) (position : Position) (caller : Machine)
    (i : Invocation) : Course (List Value) :=
  setting.Answers (setting.callFrom fuel) position caller i

variable {setting : Setting} {call : Position → Nat → Reentry} {talk : Talk} {fuel : Nat}
  {constants : Constants} {position : Position} {caller m : Machine} {i : Invocation} {op : Op}
  {s : Store} {st st' : State} {entry : Nat} {captured : List ScopeRef}
  {r : EStateM.Result Interrupt Store (List Value)} {e : Ending}

/-! ### Calls of which one step tells -/

theorem answers_native {f : Native} (hf : i.callee = .native f) :
    setting.Answers call position caller i s = (· = EStateM.adaptExcept (Failure.located position)
      (setting.natives f.body (call position caller.depth) i.args) s) := by
  funext r
  rw [eq_iff_iff]
  constructor
  · rintro (hf' | ⟨hf'⟩ | ⟨hf'⟩ | ⟨hf'⟩ | ⟨hnative⟩)
    · rw [hf] at hf'
      cases hf'
      rfl
    · exact absurd (hf.symm.trans hf') nofun
    · exact absurd (hf.symm.trans hf') nofun
    · exact absurd (hf.symm.trans hf') nofun
    · exact absurd hf (hnative f)
  · rintro rfl
    exact .native hf

theorem answers_tooDeep (hf : i.callee = .function entry captured)
    (hdepth : setting.config.maxCallDepth ≤ caller.depth) :
    setting.Answers call position caller i s =
      (· = .error (.error (.runtime .stackOverflow position)) s) := by
  funext r
  rw [eq_iff_iff]
  constructor
  · rintro (hf' | ⟨-, hdepth'⟩ | ⟨-, hdepth'⟩ | - | ⟨-, hfunction⟩)
    · exact absurd (hf.symm.trans hf') nofun
    · exact absurd hdepth hdepth'
    · exact absurd hdepth hdepth'
    · rfl
    · exact absurd hf (hfunction _ _)
  · rintro rfl
    exact .tooDeep hf hdepth

theorem answers_notCallable (hnative : ∀ f, i.callee ≠ .native f)
    (hfunction : ∀ entry captured, i.callee ≠ .function entry captured) :
    setting.Answers call position caller i s =
      (· = .error (.error (.runtime (.calling i.callee.kind) position)) s) := by
  funext r
  rw [eq_iff_iff]
  constructor
  · rintro (hf | ⟨hf⟩ | ⟨hf⟩ | ⟨hf⟩ | -)
    · exact absurd hf (hnative _)
    · exact absurd hf (hfunction _ _)
    · exact absurd hf (hfunction _ _)
    · exact absurd hf (hfunction _ _)
    · rfl
  · rintro rfl
    exact .notCallable hnative hfunction

/-! ### Where the caller goes on -/

/-- What an instruction returns does not depend on the calls that are open. -/
theorem results_shifted (n d : Nat) (op : Op) (m : Machine) :
    op.results (m.shifted n d) = op.results m := by
  by_cases h : m.frames.length = n
  · rw [Machine.shifted_of_eq h]
    rfl
  · rw [Machine.shifted_of_ne h]
    rfl

theorem copied_empty (d : Nat) : setting.Copied 0 0 d :=
  fun _ _ h => absurd h (Nat.not_lt_zero _)

/-- The frame that is saved further on. -/
theorem shiftReturn_savedFrame {frames : List Frame} {d : Nat} :
    shiftReturn caller.frames.length d frames =
        savedFrame { caller with ip := caller.ip + d } i :: caller.frames ↔
      frames = savedFrame caller i :: caller.frames := by
  constructor
  · intro h
    cases frames with
    | nil => cases h
    | cons frame rest =>
      have hlength := congrArg List.length h
      rw [length_shiftReturn, List.length_cons, List.length_cons] at hlength
      rw [shiftReturn_first (by omega)] at h
      obtain ⟨hframe, rfl⟩ := List.cons.inj h
      obtain ⟨returnTo, base, want, scopes, captured, marks⟩ := frame
      simp only [savedFrame, Frame.mk.injEq, Nat.add_right_cancel_iff] at hframe
      rw [savedFrame, ← hframe.1, ← hframe.2.1, ← hframe.2.2.1, ← hframe.2.2.2.1,
        ← hframe.2.2.2.2.1, ← hframe.2.2.2.2.2]
  · rintro rfl
    exact shiftReturn_first rfl

theorem entered_moved (d : Nat) (scope : ScopeRef) :
    Machine.entered { caller with ip := caller.ip + d } i entry captured scope =
      (caller.entered i entry captured scope).shifted caller.frames.length d := by
  rw [← Machine.entered_shifted (Nat.le_refl _), Machine.shifted_of_eq rfl]

/-- The states that a call gets to whose caller goes on somewhere else. -/
theorem traverses_moved (d : Nat) :
    setting.Traverses call false (.callsFrom caller.frames)
        (st.shifted caller.frames.length d) st' ↔
      ∃ st₁, setting.Traverses call false (.callsFrom caller.frames) st st₁ ∧
        st' = st₁.shifted caller.frames.length d := by
  have hinside (m : Machine) : Piece.Inside ⟨0 + d, 0 + d, caller.frames⟩ m ↔
      (Piece.callsFrom caller.frames).Inside m := Piece.inside_empty
  exact Iff.trans ⟨fun h => h.of_inside fun m => (hinside m).symm, fun h => h.of_inside hinside⟩
    (traverses_shifted (c := .callsFrom caller.frames) (copied_empty d))

/-- The endings of a call whose caller goes on somewhere else. -/
theorem finishes_moved (d : Nat) :
    setting.Finishes call false (.callsFrom caller.frames)
        (st.shifted caller.frames.length d) e ↔
      ∃ e', setting.Finishes call false (.callsFrom caller.frames) st e' ∧
        e = e'.shifted caller.frames.length d := by
  have hinside (m : Machine) : Piece.Inside ⟨0 + d, 0 + d, caller.frames⟩ m ↔
      (Piece.callsFrom caller.frames).Inside m := Piece.inside_empty
  exact Iff.trans ⟨fun h => h.of_inside fun m => (hinside m).symm, fun h => h.of_inside hinside⟩
    (finishes_shifted (c := .callsFrom caller.frames) (copied_empty d))

/-- The instruction and the calls of a machine in a call whose caller goes on somewhere else. -/
theorem shifted_of_savedFrame {d : Nat}
    (hframes : m.frames = savedFrame caller i :: caller.frames) :
    (m.shifted caller.frames.length d).ip = m.ip ∧
      (m.shifted caller.frames.length d).frames =
        savedFrame { caller with ip := caller.ip + d } i :: caller.frames := by
  have hne : m.frames.length ≠ caller.frames.length := by
    rw [hframes, List.length_cons]
    omega
  rw [Machine.shifted_of_ne hne]
  exact ⟨rfl, shiftReturn_savedFrame.2 hframes⟩

/-- **A call comes to the same wherever the caller goes on.** -/
theorem answers_moved (d : Nat) :
    setting.Answers call position { caller with ip := caller.ip + d } i s r ↔
      setting.Answers call position caller i s r := by
  constructor
  · rintro (hf | ⟨hf, hdepth, hrun, hframes, hop, hret⟩ | ⟨hf, hdepth, hrun⟩ | ⟨hf, hdepth⟩ |
      ⟨hnative, hfunction⟩)
    · exact .native hf
    · rw [entered_moved] at hrun
      obtain ⟨st, hrun', rfl⟩ := (traverses_moved d).1
        (show setting.Traverses call false _ (State.shifted _ d ⟨_, _⟩) _ from hrun)
      -- A machine that the call has gone on to is not in the call of the caller.
      have hne : st.machine.frames.length ≠ caller.frames.length := by
        have hlength := congrArg List.length hframes
        rw [State.shifted, Machine.length_frames_shifted, List.length_cons] at hlength
        dsimp only at hlength
        omega
      rw [State.shifted, Machine.shifted_of_ne hne] at hframes hop
      rw [State.shifted, results_shifted]
      exact .returned hf hdepth hrun' (shiftReturn_savedFrame.1 hframes) hop hret
    · rw [entered_moved] at hrun
      obtain ⟨e', hrun', heq⟩ := (finishes_moved d).1
        (show setting.Finishes call false _ (State.shifted _ d ⟨_, _⟩) _ from hrun)
      cases e' with
      | outside st => cases heq
      | failed e s' =>
        cases heq
        exact .failed hf hdepth hrun'
    · exact .tooDeep hf hdepth
    · exact .notCallable hnative hfunction
  · rintro (hf | ⟨hf, hdepth, hrun, hframes, hop, hret⟩ | ⟨hf, hdepth, hrun⟩ | ⟨hf, hdepth⟩ |
      ⟨hnative, hfunction⟩)
    · exact .native hf
    · rename_i st op
      obtain ⟨hip, hframes'⟩ := shifted_of_savedFrame (d := d) hframes
      have hrun' := (traverses_moved d).2 ⟨st, hrun, rfl⟩
      rw [State.shifted, ← entered_moved] at hrun'
      have hreturned : setting.Answers call position { caller with ip := caller.ip + d } i s _ :=
        .returned hf hdepth hrun' hframes' (by rw [State.shifted, hip]; exact hop) hret
      rwa [State.shifted, results_shifted] at hreturned
    · have hrun' := (finishes_moved d).2 ⟨_, hrun, rfl⟩
      rw [State.shifted, ← entered_moved] at hrun'
      exact .failed hf hdepth hrun'
    · exact .tooDeep hf hdepth
    · exact .notCallable hnative hfunction

/-! ### Calls of script functions -/

section

variable (honest : Honest setting.natives talk) (hp : setting.program.Verifying)
include honest hp

/-- A machine in a call is above its caller. -/
theorem above_of_traverses
    (hsteady : setting.Steady (setting.callFrom fuel) false (.callsFrom caller.frames) st)
    (hstart : caller.Above setting.program i st.machine)
    (h : setting.Traverses (setting.callFrom fuel) false (.callsFrom caller.frames) st st')
    (hopen : st'.machine.frames ≠ caller.frames) :
    caller.Above setting.program i st'.machine := by
  induction h with
  | refl => exact hstart
  | @tail st₁ st₂ hrun hstep ih =>
    have habove := ih (Piece.inside_callsFrom.1 hstep.1).2
    have hknown := known_of_traverses honest hp hrun hsteady.known
    rcases above_step habove hknown.1 hstep.2 (hsteady.room _ (hrun.tail hstep)) with
      habove | ⟨_, -, -, -, hreturned⟩
    · exact habove
    · exact absurd (congrArg Machine.frames hreturned) hopen

/-- What has come of a call that is over. -/
theorem exists_ret_of_finishes
    (hsteady : setting.Steady (setting.callFrom fuel) false (.callsFrom caller.frames) st)
    (hstart : caller.Above setting.program i st.machine)
    (h : setting.Finishes (setting.callFrom fuel) false (.callsFrom caller.frames) st
      (.outside st')) :
    ∃ st₁ op, setting.Traverses (setting.callFrom fuel) false (.callsFrom caller.frames) st st₁ ∧
      st₁.machine.frames = savedFrame caller i :: caller.frames ∧
      setting.program.code[st₁.machine.ip]? = some op ∧ op.code = .ret ∧
      st' = ⟨{ caller with
        stack := Stack.pushAll (adjustTo i.want (op.results st₁.machine)) i.rest }, st₁.store⟩ := by
  have hout := h.not_inside
  rcases Relation.ReflTransGen.cases_tail h.traverses with heq | ⟨st₁, hrun, hin, hstep⟩
  · subst heq
    exact absurd (Piece.inside_callsFrom.2 hstart.deeper) hout
  · have hopen := (Piece.inside_callsFrom.1 hin).2
    have habove := above_of_traverses honest hp hsteady hstart hrun hopen
    have hknown := known_of_traverses honest hp hrun hsteady.known
    rcases above_step habove hknown.1 hstep (hsteady.room _ (hrun.tail ⟨hin, hstep⟩)) with
      habove' | ⟨op, hop, hret, hframes, -⟩
    · exact absurd (Piece.inside_callsFrom.2 habove'.deeper) hout
    · have hstep' : setting.step (setting.callFrom fuel) false st₁ = _ :=
        step_ret_of_above habove hframes hop hret
      rw [hstep] at hstep'
      cases hstep'
      exact ⟨st₁, op, hrun, hframes, hop, hret, rfl⟩

variable (position caller) in
/-- **A call of a script function ends as it answers**: with the results that the function
returns, or as the run of the function fails. -/
theorem finishes_call_iff (hf : i.callee = .function entry captured)
    (hdepth : ¬ setting.config.maxCallDepth ≤ caller.depth)
    (hsteady : setting.Steady (setting.callFrom fuel) false (.callsFrom caller.frames)
      ⟨caller.entered i entry captured s.newScope.1, s.newScope.2⟩)
    (hstart : caller.Above setting.program i (caller.entered i entry captured s.newScope.1)) :
    setting.Finishes (setting.callFrom fuel) false (.callsFrom caller.frames)
        ⟨caller.entered i entry captured s.newScope.1, s.newScope.2⟩ e ↔
      ∃ r, setting.Answers (setting.callFrom fuel) position caller i s r ∧
        e = Ending.arriving (fun results => { caller with
          stack := Stack.pushAll (adjustTo i.want results) i.rest }) r := by
  constructor
  · intro h
    cases e with
    | failed i' s' => exact ⟨_, .failed hf hdepth h, rfl⟩
    | outside st' =>
      obtain ⟨st₁, op, hrun, hframes, hop, hret, rfl⟩ :=
        exists_ret_of_finishes honest hp hsteady hstart h
      exact ⟨_, .returned hf hdepth hrun hframes hop hret, rfl⟩
  · rintro ⟨_, hanswer, rfl⟩
    rcases hanswer with hf' | ⟨hf', -, hrun, hframes, hop, hret⟩ | ⟨hf', -, hrun⟩ | ⟨-, hdepth'⟩ |
      ⟨-, hfunction⟩
    · rw [hf] at hf'
      cases hf'
    · rename_i st op
      rw [hf] at hf'
      cases hf'
      have hopen : st.machine.frames ≠ caller.frames := by
        rw [hframes]
        exact List.cons_ne_self _ _
      have habove := above_of_traverses honest hp hsteady hstart hrun hopen
      have hin := Piece.inside_callsFrom.2 habove.deeper
      refine hrun.finishes_iff.2 (.next hin (step_ret_of_above habove hframes hop hret) ?_)
      exact .outside fun h => (Piece.inside_callsFrom.1 h).2 rfl
    · rw [hf] at hf'
      cases hf'
      exact hrun
    · exact absurd hdepth' hdepth
    · exact absurd hf (hfunction _ _)

variable (position) in
/-- What becomes of a script function that an instruction has entered. -/
theorem finishes_entered_iff (hi : m.past.invocation? op = some i)
    (hcallee : i.callee = .function entry captured)
    (hdepth : ¬ setting.config.maxCallDepth ≤ m.past.depth)
    (hregular : setting.Regular fuel constants ⟨m.ip, m.ip + 1, m.frames⟩ ⟨m, s⟩)
    (hrun : setting.Traverses (setting.callFrom fuel) false ⟨m.ip, m.ip + 1, m.frames⟩ ⟨m, s⟩
      ⟨m.past.entered i entry captured s.newScope.1, s.newScope.2⟩) :
    setting.Finishes (setting.callFrom fuel) false (.callsFrom m.frames)
        ⟨m.past.entered i entry captured s.newScope.1, s.newScope.2⟩ e ↔
      ∃ r, setting.Answers (setting.callFrom fuel) position { m.past with stack := [] } i s r ∧
        e = Ending.arriving (fun results => { m.past with
          stack := Stack.pushAll (adjustTo i.want results) i.rest }) r := by
  have hbehind := (hregular.behind honest hp hrun).steady
  have hpart := hbehind.of_part (Piece.partOf_of_le (Nat.le_refl m.ip) (Nat.le_succ m.ip))
  have hempty : setting.Steady (setting.callFrom fuel) false (.callsFrom m.frames)
      ⟨m.past.entered i entry captured s.newScope.1, s.newScope.2⟩ :=
    ⟨hpart.known, fun st' hrun' =>
      hpart.room st' (hrun'.of_inside fun _ => Piece.inside_empty.symm)⟩
  have hstart : Machine.Above { m.past with stack := [] } setting.program i
      (m.past.entered i entry captured s.newScope.1) := by
    obtain ⟨hknown, -, -⟩ := known_invocation (m := m.past) hi hregular.steady.known.1
    rw [hcallee] at hknown
    exact ⟨⟨.entry, i.rest, _, .first, Machine.shaped_entered (hbehind.room _ .refl), hknown⟩,
      rfl⟩
  exact finishes_call_iff position { m.past with stack := [] } honest hp hcallee hdepth hempty
    hstart

end

/-! ### The instruction that makes a call -/

/-- A machine at an instruction is in the piece that is the instruction. -/
theorem inside_single (m : Machine) : Piece.Inside ⟨m.ip, m.ip + 1, m.frames⟩ m :=
  (Piece.inside_iff rfl).2 ⟨Nat.le_refl _, Nat.lt_succ_self _⟩

theorem not_inside_past (m : Machine) (stack : List Value) :
    ¬ Piece.Inside ⟨m.ip, m.ip + 1, m.frames⟩ { m.past with stack := stack } :=
  fun h => Nat.lt_irrefl _ ((Piece.inside_iff rfl).1 h).2

variable (fuel m i) in
/-- What a call comes to is said of the machine behind the instruction that makes it. -/
theorem answers_waiting (position : Position) :
    setting.answers fuel position m.waiting i =
      setting.Answers (setting.callFrom fuel) position { m.past with stack := [] } i := by
  funext s r
  have hmoved : setting.Answers (setting.callFrom fuel) position
      { m.waiting with ip := m.waiting.ip + (m.ip + 1) } i s r ↔
      setting.Answers (setting.callFrom fuel) position m.waiting i s r :=
    answers_moved (m.ip + 1)
  rw [show m.waiting.ip + (m.ip + 1) = m.ip + 1 from Nat.zero_add _] at hmoved
  exact propext hmoved.symm

variable (setting) in
/-- An instruction runs as its call does, and leaves the results, as many as are wanted, in the
place of the arguments. -/
def RunsCall (fuel : Nat) (constants : Constants) (m : Machine) (s : Store) (op : Op)
    (i : Invocation) : Prop :=
  setting.Runs fuel constants ⟨m.ip, m.ip + 1, m.frames⟩ ⟨m, s⟩
    (setting.Answers (setting.callFrom fuel) op.position { m.past with stack := [] } i)
    fun results => { m.past with stack := Stack.pushAll (adjustTo i.want results) i.rest }

section

variable (hop : setting.program.code[m.ip]? = some op) (hi : m.past.invocation? op = some i)
include hop hi

theorem step_of_invoke_ok
    (h : setting.invoke (setting.callFrom fuel op.position m.depth) i m.past s = .ok () st) :
    setting.step (setting.callFrom fuel) false ⟨m, s⟩ = .ok () st := by
  change setting.invoke (setting.callFrom fuel op.position (State.machine ⟨m, s⟩).depth) i m.past
    (announced false op ⟨m, s⟩) = _ at h
  rw [step_eq_execute hop, execute_of_invocation hi, h]
  rfl

theorem step_of_invoke_error {e : Failure}
    (h : setting.invoke (setting.callFrom fuel op.position m.depth) i m.past s = .error e st) :
    setting.step (setting.callFrom fuel) false ⟨m, s⟩ = .error (e.located op.position) st := by
  change setting.invoke (setting.callFrom fuel op.position (State.machine ⟨m, s⟩).depth) i m.past
    (announced false op ⟨m, s⟩) = _ at h
  rw [step_eq_execute hop, execute_of_invocation hi, h]

/-- A call that fails where it is made. -/
theorem runsCall_of_failing {e : Failure} {s' : Store}
    (hinvoke : setting.invoke (setting.callFrom fuel op.position m.depth) i m.past s = .error e st)
    (hs' : st.store = s')
    (hcourse : setting.Answers (setting.callFrom fuel) op.position { m.past with stack := [] } i
      s = (· = .error (e.located op.position) s')) :
    setting.RunsCall fuel constants m s op i := by
  subst hs'
  exact .fail (inside_single m) (step_of_invoke_error hop hi hinvoke) hcourse

variable (honest : Honest setting.natives talk) (hp : setting.program.Verifying)
include honest hp

/-- A call of a native function, which is over when the instruction is. -/
theorem runsCall_native {f : Native} (hcallee : i.callee = .native f) :
    setting.RunsCall fuel constants m s op i := by
  have hcourse : setting.Answers (setting.callFrom fuel) op.position { m.past with stack := [] } i
      s = _ := answers_native hcallee
  have hdepth : Machine.depth { m.past with stack := [] } = m.depth := rfl
  rw [hdepth] at hcourse
  cases hnative : setting.natives f.body (setting.callFrom fuel op.position m.depth) i.args s with
  | ok results s' =>
    have hstep : setting.step (setting.callFrom fuel) false ⟨m, s⟩ = .ok () ⟨{ m.past with
        stack := Stack.pushAll (adjustTo i.want results) i.rest }, s'⟩ :=
      step_of_invoke_ok hop hi (by simp only [invoke, hcallee, hnative])
    refine .step honest hp (inside_single m) hstep (.pure (a := results) rfl (not_inside_past m _))
      (hcourse.trans ?_)
    rw [EStateM.adaptExcept, hnative]
    rfl
  | error e s' =>
    have hinvoke : setting.invoke (setting.callFrom fuel op.position m.depth) i m.past s =
        .error e ⟨{ m.past with stack := i.rest }, s'⟩ := by
      simp only [invoke, hcallee, hnative]
    refine runsCall_of_failing hop hi hinvoke rfl (hcourse.trans ?_)
    rw [EStateM.adaptExcept, hnative]

/-- A call of a script function, which is entered by the instruction and runs to its end. -/
theorem runsCall_function (hcallee : i.callee = .function entry captured)
    (hdepth : ¬ setting.config.maxCallDepth ≤ m.past.depth) :
    setting.RunsCall fuel constants m s op i := by
  have hstep : setting.step (setting.callFrom fuel) false ⟨m, s⟩ =
      .ok () ⟨m.past.entered i entry captured s.newScope.1, s.newScope.2⟩ :=
    step_of_invoke_ok hop hi (by simp only [invoke, hcallee, if_neg hdepth])
  intro hregular e
  have hrun : setting.Traverses (setting.callFrom fuel) false ⟨m.ip, m.ip + 1, m.frames⟩
      ⟨m, s⟩ ⟨m.past.entered i entry captured s.newScope.1, s.newScope.2⟩ :=
    .single ⟨inside_single m, hstep⟩
  have hcall (e : Ending) :=
    finishes_entered_iff op.position honest hp (e := e) hi hcallee hdepth hregular hrun
  have hpart : (Piece.mk m.ip m.ip m.frames).PartOf ⟨m.ip, m.ip + 1, m.frames⟩ :=
    Piece.partOf_of_le (Nat.le_refl _) (Nat.le_succ _)
  rw [hrun.finishes_iff, finishes_iff_of_part hpart]
  -- What the call leaves is behind the instruction, where the run of the piece ends.
  constructor
  · rintro ⟨e', he', hresumes⟩
    obtain ⟨r, hr, rfl⟩ := (hcall e').1 (he'.of_inside fun _ => Piece.inside_empty)
    refine ⟨r, hr, ?_⟩
    cases r with
    | ok results s' => exact (finishes_iff_of_not_inside (not_inside_past m _)).1 hresumes
    | error i' s' => exact hresumes
  · rintro ⟨r, hr, rfl⟩
    refine ⟨_, ((hcall _).2 ⟨r, hr, rfl⟩).of_inside fun _ => Piece.inside_empty.symm, ?_⟩
    cases r with
    | ok results s' => exact (finishes_iff_of_not_inside (not_inside_past m _)).2 rfl
    | error i' s' => exact rfl

end

/-- **An instruction that makes a call runs as the call does.** -/
theorem runs_invocation (honest : Honest setting.natives talk) (hp : setting.program.Verifying)
    (hop : setting.program.code[m.ip]? = some op) (hi : m.past.invocation? op = some i) :
    setting.Runs fuel constants ⟨m.ip, m.ip + 1, m.frames⟩ ⟨m, s⟩
      (setting.answers fuel op.position m.waiting i)
      fun results => { m.past with stack := Stack.pushAll (adjustTo i.want results) i.rest } := by
  rw [answers_waiting]
  cases hcallee : i.callee with
  | native f => exact runsCall_native hop hi honest hp hcallee
  | function entry captured =>
    by_cases hdepth : setting.config.maxCallDepth ≤ m.past.depth
    · have hdepth' : setting.config.maxCallDepth ≤
          Machine.depth { m.past with stack := [] } := hdepth
      have hinvoke : setting.invoke (setting.callFrom fuel op.position m.depth) i m.past s =
          .error (.cause .stackOverflow)
            ⟨{ m.past with stack := i.args.reverse ++ i.rest }, s⟩ := by
        simp only [invoke, hcallee, if_pos hdepth]
      exact runsCall_of_failing hop hi hinvoke rfl (answers_tooDeep hcallee hdepth')
    · exact runsCall_function hop hi honest hp hcallee hdepth
  | _ =>
    have hinvoke : setting.invoke (setting.callFrom fuel op.position m.depth) i m.past s =
        .error (.cause (.calling i.callee.kind))
          ⟨{ m.past with stack := i.args.reverse ++ i.rest }, s⟩ := by
      simp only [invoke, hcallee]
    exact runsCall_of_failing hop hi hinvoke rfl
      (answers_notCallable (by simp [hcallee]) (by simp [hcallee]))

end Setting

end ScriptEngine
