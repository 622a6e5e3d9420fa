import ScriptEngine.Proofs.Reentry.Causes
import ScriptEngine.Proofs.Reentry.Returns

/-!
# Programs that grow

A text that is loaded later adds instructions behind a program.  A call into the engine of a
function that was there before does not notice: it stays among the instructions that were there,
and only the place at the end of the program to which it returns in the end has moved.  What has
been put out before the call makes no difference either.

## Main definitions

* `Setting.Grows` — a program with more instructions behind it.
* `relinked` — open calls the outermost of which returns to another place.
* `Reentry.Agrees` — calls of known functions have the same answers.
* `Setting.answer` — what a call into the engine answers when its machine has run.

## Main results

* `natives_agree` — native functions do the same if the calls that they make do.
* `Setting.Grows.agrees` — calls of functions of a program have the same answers when it has grown.
-/

namespace ScriptEngine

open Exec

/-! ### Native functions -/

section Natives

variable {natives : Builtin → NativeBody} {talk : Talk} {E : Functions} {call call' : Reentry}
  {b : Builtin} {args : List Value} {s : Store} {before : Array Event}

theorem Store.Known.behind (h : s.Known E) (before : Array Event) : (s.behind before).Known E :=
  ⟨h.globals, h.tables, h.scopes⟩

/-- Calls of known functions have the same answers, whatever has been put out before, and these
make up no functions. -/
structure Reentry.Agrees (E : Functions) (call call' : Reentry) : Prop where
  eq : ∀ {callee args s} before, callee.Known E → AllKnown E args → s.Known E →
    call' callee args (s.behind before) = mapState (Store.behind before) (call callee args s)
  known : ∀ {callee args s}, callee.Known E → AllKnown E args → s.Known E →
    KnownResult E (call callee args s)

theorem Reentry.Agrees.known' (h : Reentry.Agrees E call call') {callee : Value}
    (hcallee : callee.Known E) (hargs : AllKnown E args) (hs : s.Known E) :
    KnownResult E (call' callee args s) := by
  have heq := h.eq #[] hcallee hargs hs
  have hknown := h.known hcallee hargs hs
  rw [Store.behind_empty, id] at heq
  rw [heq]
  revert hknown
  cases call callee args s <;> exact id

open Classical in
/-- Calls of known functions are answered as before, and all others not at all. -/
noncomputable def Reentry.among (E : Functions) (call : Reentry) : Reentry := fun callee args s =>
  if callee.Known E ∧ AllKnown E args ∧ s.Known E then call callee args s else .error .outOfFuel s

/-- A native function calls known functions only. -/
theorem natives_among (honest : Honest natives talk)
    (hcall : ∀ {callee args s}, callee.Known E → AllKnown E args → s.Known E →
      KnownResult E (call callee args s))
    (hargs : AllKnown E args) (hs : s.Known E) :
    natives b (call.among E) args s = natives b call args s := by
  rw [honest.runs, honest.runs]
  refine Dialogue.run_congr fun callee args' t hmakes => if_pos ?_
  have hkeeps := honest.keeps b args s E hargs hs
  exact (Dialogue.known_of_makes (R := fun _ _ => True) (E := fun _ => E) (fun _ => trivial)
    (fun _ _ _ _ _ => trivial) (fun _ _ _ => .refl _) hkeeps
    (fun _ _ _ _ _ hmade => ⟨trivial, hcall hmade.1 hmade.2.1 hmade.2.2⟩) hmakes).2

/-- **Native functions do the same if the calls that they make do.** -/
theorem natives_agree (honest : Honest natives talk) (indifferent : Indifferent natives)
    (hagrees : Reentry.Agrees E call call') (hargs : AllKnown E args) (hs : s.Known E) :
    natives b call' args (s.behind before) =
      mapState (Store.behind before) (natives b call args s) := by
  -- The function calls known functions only, so that for others the answers do not matter.
  have hmirrors : ∀ callee args, Mirrors (Store.behind before) (fun _ => True)
      (call'.among E callee args) (call.among E callee args) := by
    intro callee args s
    refine ⟨?_, failsAs_true _⟩
    by_cases hknown : callee.Known E ∧ AllKnown E args ∧ s.Known E
    · obtain ⟨hcallee, hargs, hs⟩ := hknown
      rw [Reentry.among, Reentry.among, if_pos ⟨hcallee, hargs, hs.behind before⟩,
        if_pos ⟨hcallee, hargs, hs⟩, hagrees.eq before hcallee hargs hs]
    · have hknown' : ¬ (callee.Known E ∧ AllKnown E args ∧ (s.behind before).Known E) :=
        fun h => hknown ⟨h.1, h.2.1, h.2.2.globals, h.2.2.tables, h.2.2.scopes⟩
      rw [Reentry.among, Reentry.among, if_neg hknown', if_neg hknown, mapState]
  rw [← natives_among honest hagrees.known hargs hs,
    ← natives_among honest hagrees.known' hargs (hs.behind before)]
  exact (indifferent before _ _ hmirrors b args s).1

end Natives

/-! ### Open calls -/

/-- Open calls the outermost of which returns to another place. -/
def relinked (place : Nat) : List Frame → List Frame
  | [] => []
  | [frame] => [{ frame with returnTo := place }]
  | frame :: next :: rest => frame :: relinked place (next :: rest)

theorem relinked_cons {place : Nat} {frame : Frame} {frames : List Frame} (h : frames ≠ []) :
    relinked place (frame :: frames) = frame :: relinked place frames := by
  cases frames with
  | nil => exact absurd rfl h
  | cons next rest => rfl

theorem length_relinked (place : Nat) (frames : List Frame) :
    (relinked place frames).length = frames.length := by
  fun_induction relinked place frames with
  | case1 => rfl
  | case2 => rfl
  | case3 frame next rest ih => rw [List.length_cons, ih, List.length_cons (a := frame)]

/-- The outermost of the calls that are open on a machine returns to another place. -/
def relinking (place : Nat) : Alteration := ⟨relinked place, id⟩

theorem Machine.depth_relinked (place : Nat) (m : Machine) :
    (m.altered (relinking place)).depth = m.depth := by
  rw [depth, depth, altered, relinking, length_relinked]
  rfl

namespace Setting

variable {setting setting' : Setting} {talk : Talk} {site : Nat → Option Site} {fuel : Nat}
  {op : Op} {st : State} {before : Array Event} {frame : Frame}

/-- A setting whose program has more instructions behind those of another one. -/
structure Grows (setting setting' : Setting) : Prop where
  config : setting'.config = setting.config
  natives : setting'.natives = setting.natives
  code : ∀ {i : Nat} {op : Op}, setting.program.code[i]? = some op →
    setting'.program.code[i]? = some op

theorem Grows.refl (setting : Setting) : setting.Grows setting := ⟨rfl, rfl, id⟩

theorem Grows.size_le (h : setting.Grows setting') :
    setting.program.size ≤ setting'.program.size := by
  by_contra hlt
  have hin : setting'.program.size < setting.program.code.size := Nat.not_le.1 hlt
  have hop := h.code (Array.getElem?_eq_getElem hin)
  exact Nat.lt_irrefl _ (Array.getElem?_eq_some_iff.1 hop).1

/-! ### Calls of script functions -/

/-- What a call into the engine answers when its machine has run. -/
def answer (setting : Setting) :
    EStateM.Result Interrupt State Bool → EStateM.Result Interrupt Store (List Value)
  | .error i st => .error i st.store
  | .ok halted st =>
    if halted then .ok st.machine.stack.reverse st.store
    else .error (.error (.ranTooLong setting.config.stepLimit)) st.store

/-- A call of a script function into the engine, unless too many calls are open.  The place that it
comes from does not matter. -/
theorem callFrom_function {position : Position} {depth entry : Nat} {captured : List ScopeRef}
    {args : List Value} {s : Store} (hdepth : ¬ setting.config.maxCallDepth ≤ depth + 1) :
    setting.callFrom (fuel + 1) position depth (.function entry captured) args s =
      setting.answer (setting.runSteps (setting.callFrom fuel) false setting.config.stepLimit
        (setting.opening depth entry captured args s)) := by
  have hentered : setting.invoke (setting.callFrom fuel position (depth + 1))
      ⟨.function entry captured, args, [], none⟩ (setting.calleeMachine s.newScope.1 depth args)
      s.newScope.2 = .ok () (setting.opening depth entry captured args s) := if_neg hdepth
  rw [callFrom, callFunction_eq, hentered]
  dsimp only
  cases setting.runSteps (setting.callFrom fuel) false setting.config.stepLimit
    (setting.opening depth entry captured args s) <;> rfl

theorem callFrom_position (position position' : Position) {depth entry : Nat}
    {captured : List ScopeRef} {args : List Value} {s : Store}
    (hdepth : ¬ setting.config.maxCallDepth ≤ depth + 1) :
    setting.callFrom fuel position depth (.function entry captured) args s =
      setting.callFrom fuel position' depth (.function entry captured) args s := by
  cases fuel with
  | zero => rfl
  | succ fuel => rw [callFrom_function hdepth, callFrom_function hdepth]

/-- A call of a script function into the engine when too many calls are open. -/
theorem callFrom_overflow {position : Position} {depth entry : Nat} {captured : List ScopeRef}
    {args : List Value} {s : Store} (hdepth : setting.config.maxCallDepth ≤ depth + 1) :
    setting.callFrom (fuel + 1) position depth (.function entry captured) args s =
      .error (.error (.runtime .stackOverflow position)) s.newScope.2 := by
  have hdepth' : setting.config.maxCallDepth ≤
      (setting.calleeMachine s.newScope.1 depth args).depth := hdepth
  rw [callFrom, callFunction_eq]
  simp only [invoke, if_pos hdepth']
  rfl

/-! ### Instructions in a call -/

/-- Returning from a call that is not the outermost one. -/
theorem leaveFunction_relinked {place : Nat} {m : Machine} {s : Store} {results : List Value}
    {rest : List Frame} (hframes : m.frames = frame :: rest) (hrest : rest ≠ []) :
    setting'.leaveFunction results (State.altered (relinking place) before ⟨m, s⟩) =
      mapState (State.altered (relinking place) before) (setting.leaveFunction results ⟨m, s⟩) := by
  have hopen : (m.altered (relinking place)).frames = frame :: relinked place rest := by
    change relinked place m.frames = _
    rw [hframes, relinked_cons hrest]
  simp only [leaveFunction, modifyMachine, State.altered, hopen, hframes]
  rfl

/-- A call that an instruction makes when calls are open. -/
theorem invoke_relinked (hgrows : setting.Grows setting') (honest : Honest setting.natives talk)
    (indifferent : Indifferent setting.natives) {E : Functions} {reenter reenter' : Reentry}
    (hagrees : Reentry.Agrees E reenter reenter') {place : Nat} {i : Invocation} {m : Machine}
    {s : Store} (hargs : AllKnown E i.args) (hs : s.Known E) (hopen : m.frames ≠ []) :
    setting'.invoke reenter' i (m.altered (relinking place)) (s.behind before) =
      mapState (State.altered (relinking place) before) (setting.invoke reenter i m s) := by
  unfold invoke
  cases i.callee with
  | native f =>
    rw [hgrows.natives]
    dsimp only
    rw [natives_agree honest indifferent hagrees hargs hs]
    cases setting.natives f.body reenter i.args s <;> rfl
  | function entry captured =>
    dsimp only
    rw [hgrows.config, Machine.depth_relinked]
    split
    · rfl
    · have hentered : (m.altered (relinking place)).entered i entry captured s.newScope.1 =
          (m.entered i entry captured s.newScope.1).altered (relinking place) := by
        simp only [Machine.entered, Machine.altered, relinking, relinked_cons hopen]
      change (.ok () ⟨(m.altered (relinking place)).entered i entry captured s.newScope.1,
        s.newScope.2.behind before⟩ : EStateM.Result Failure State Unit) = _
      rw [hentered]
      rfl
  | _ => rfl

/-- **An instruction that is executed while calls are open does the same when the program has
grown**, unless it returns from the last of them. -/
theorem execute_relinked (hgrows : setting.Grows setting') (honest : Honest setting.natives talk)
    (indifferent : Indifferent setting.natives) {E : Functions} {reenter reenter' : Reentry}
    (hagrees : Reentry.Agrees E reenter reenter') {place : Nat} {m : Machine} {s : Store}
    (hstack : AllKnown E m.stack) (hs : s.Known E) (hopen : m.frames ≠ [])
    (hret : op.code = .ret → ∀ frame, m.frames ≠ [frame]) :
    setting'.execute reenter' op (State.altered (relinking place) before ⟨m, s⟩) =
      mapState (State.altered (relinking place) before) (setting.execute reenter op ⟨m, s⟩) := by
  by_cases hcall : op.code = .call ∨ op.code = .iterNext
  · cases hi : m.invocation? op with
    | none =>
      obtain ⟨c, stack, hrun⟩ := exists_failure_of_no_invocation hcall hi
      have hplain := hrun setting m.ip m.frames reenter s
      have hrelinked := hrun setting' m.ip (relinked place m.frames) reenter' (s.behind before)
      exact hrelinked.trans
        (congrArg (mapState (State.altered (relinking place) before)) hplain).symm
    | some i =>
      obtain ⟨-, hargs, -⟩ := known_invocation hi hstack
      have hi' : (m.altered (relinking place)).invocation? op = some i := hi
      rw [State.altered, execute_of_invocation hi', execute_of_invocation hi]
      exact invoke_relinked hgrows honest indifferent hagrees hargs hs hopen
  · obtain ⟨hcall, hiter⟩ := not_or.1 hcall
    by_cases hcode : op.code = .ret
    · rw [execute_ret hcode, execute_ret hcode]
      have hmirrors : Mirrors (State.altered (relinking place) before)
          (Failure.Passes fun _ => True) (returning op) (returning op) := mirrors_returning op
      have hreturning := (hmirrors ⟨m, s⟩).1
      change EStateM.bind _ _ _ = mapState _ (EStateM.bind _ _ _)
      rw [EStateM.bind, EStateM.bind, hreturning]
      cases hrun : returning op ⟨m, s⟩ with
      | error e st => rfl
      | ok results st =>
        obtain ⟨m₁, s₁⟩ := st
        obtain ⟨-, hframes, -⟩ := of_returning_ok hrun
        have hframes : m₁.frames = m.frames := hframes
        cases hrest : m.frames with
        | nil => exact absurd hrest hopen
        | cons frame rest =>
          refine leaveFunction_relinked (hframes.trans hrest) fun hnil => ?_
          exact hret hcode frame (hnil ▸ hrest)
    · have hmirrors : Mirrors (State.altered (relinking place) before)
          (Failure.Passes fun _ => True) (setting'.execute reenter' op)
          (setting.execute reenter op) := mirrors_execute hcall hiter hcode
      exact (hmirrors ⟨m, s⟩).1

/-! ### Steps in a call -/

/-- A step in a call, unless it is its return. -/
theorem step_relinked (hgrows : setting.Grows setting') (honest : Honest setting.natives talk)
    (indifferent : Indifferent setting.natives) {place : Nat} (h : setting.InCall site frame st)
    (hagrees : ∀ position depth, Reentry.Agrees setting.program.pushes
      (setting.callFrom fuel position depth) (setting'.callFrom fuel position depth))
    (hop : setting.program.code[st.machine.ip]? = some op)
    (hret : op.code = .ret → st.machine.frames ≠ [frame]) :
    setting'.step (setting'.callFrom fuel) false (st.altered (relinking place) before) =
      mapState (State.altered (relinking place) before)
        (setting.step (setting.callFrom fuel) false st) := by
  have hop' : setting'.program.code[(st.altered (relinking place) before).machine.ip]? = some op :=
    hgrows.code hop
  have honly : op.code = .ret → ∀ frame', st.machine.past.frames ≠ [frame'] := by
    intro hcode frame' hframes
    have hframes : st.machine.frames = [frame'] := hframes
    have hopen := h.isOpen
    rw [hframes] at hopen
    exact hret hcode (hframes.trans (hopen.eq_of_length rfl).symm)
  have hexecute :
      setting'.execute (setting'.callFrom fuel op.position st.machine.depth) op
          ⟨(st.altered (relinking place) before).machine.past,
            announced false op (st.altered (relinking place) before)⟩ =
        mapState (State.altered (relinking place) before)
          (setting.execute (setting.callFrom fuel op.position st.machine.depth) op
            ⟨st.machine.past, announced false op st⟩) :=
    execute_relinked (m := st.machine.past) (s := st.store) hgrows honest indifferent (hagrees _ _)
      h.known.1 h.known.2 h.frames_ne_nil honly
  have hdepth : (st.altered (relinking place) before).machine.depth = st.machine.depth :=
    st.machine.depth_relinked place
  rw [step_eq_execute hop, step_eq_execute hop', hdepth, hexecute]
  cases setting.execute (setting.callFrom fuel op.position st.machine.depth) op
    ⟨st.machine.past, announced false op st⟩ <;> rfl

/-- The return of the only call that is open leads to the other place. -/
theorem step_return (call : Position → Nat → Reentry) {call' : Position → Nat → Reentry}
    {place : Nat} (hgrows : setting.Grows setting')
    (hop : setting.program.code[st.machine.ip]? = some op) (hcode : op.code = .ret)
    (hframes : st.machine.frames = [frame]) :
    setting'.step call' false (st.altered (relinking place) before) =
      match setting.step call false st with
      | .ok _ st₁ => .ok () ⟨{ st₁.machine with ip := place }, st₁.store.behind before⟩
      | .error i st₁ => .error i (st₁.altered (relinking place) before) := by
  have hop' : setting'.program.code[(st.altered (relinking place) before).machine.ip]? = some op :=
    hgrows.code hop
  have hbind (S : Setting) (reenter : Reentry) (st : State) : S.execute reenter op st =
      match returning op st with
      | .ok results st₁ => S.leaveFunction results st₁
      | .error e st₁ => .error e st₁ := by
    rw [execute_ret hcode]
    change EStateM.bind (returning op) S.leaveFunction st = _
    rw [EStateM.bind]
    cases returning op st <;> rfl
  have hmirrors : Mirrors (State.altered (relinking place) before)
      (Failure.Passes fun _ => True) (returning op) (returning op) := mirrors_returning op
  have hreturning : returning op ⟨(st.altered (relinking place) before).machine.past,
        announced false op (st.altered (relinking place) before)⟩ =
      mapState (State.altered (relinking place) before)
        (returning op ⟨st.machine.past, announced false op st⟩) :=
    (hmirrors ⟨st.machine.past, st.store⟩).1
  rw [step_eq_execute hop, step_eq_execute hop', hbind, hbind, hreturning]
  cases hrun : returning op ⟨st.machine.past, announced false op st⟩ with
  | error e st₁ => rfl
  | ok results st₁ =>
    obtain ⟨m₁, s₁⟩ := st₁
    obtain ⟨-, hkept, -⟩ := of_returning_ok hrun
    have hopen : m₁.frames = [frame] := hkept.trans hframes
    simp only [mapState, leaveFunction, modifyMachine, State.altered, Machine.altered, relinking,
      hopen, relinked]
    rfl

/-- Where the return of the only call that is open leads. -/
theorem ip_of_return {call : Position → Nat → Reentry} {st' : State}
    (hop : setting.program.code[st.machine.ip]? = some op) (hcode : op.code = .ret)
    (hframes : st.machine.frames = [frame]) (hbase : frame.base = 0) (hwant : frame.want = none)
    (hstep : setting.step call false st = .ok () st') : st'.machine.ip = frame.returnTo := by
  rw [step_eq_execute hop] at hstep
  split at hstep
  · next hrun =>
    cases hstep
    exact (execute_ret_of_only (m := st.machine.past) hcode hframes hbase hwant hrun).1
  · cases hstep

theorem InCall.halted_eq (h : setting.InCall site frame st) (hsited : setting.program.Sited site) :
    setting.halted st.machine = false :=
  decide_eq_false (Nat.not_le.2 (h.lt_size hsited))

theorem InCall.halted_relinked (h : setting.InCall site frame st)
    (hsited : setting.program.Sited site) (hgrows : setting.Grows setting') {place : Nat} :
    setting'.halted (st.altered (relinking place) before).machine = false := by
  have hlt : st.machine.ip < setting'.program.size :=
    Nat.lt_of_lt_of_le (h.lt_size hsited) hgrows.size_le
  exact decide_eq_false (Nat.not_le.2 hlt)

/-- **A call that is open answers the same when the program has grown.**  By induction on the steps
that are left, with the call being open as the invariant. -/
theorem answer_relinked (hgrows : setting.Grows setting') (honest : Honest setting.natives talk)
    (indifferent : Indifferent setting.natives) (hsited : setting.program.Sited site)
    (hagrees : ∀ position depth, Reentry.Agrees setting.program.pushes
      (setting.callFrom fuel position depth) (setting'.callFrom fuel position depth))
    (hreturn : frame.returnTo = setting.program.size) (hbase : frame.base = 0)
    (hwant : frame.want = none) (n : Nat) (h : setting.InCall site frame st) :
    setting'.answer (setting'.runSteps (setting'.callFrom fuel) false n
        (st.altered (relinking setting'.program.size) before)) =
      mapState (Store.behind before)
        (setting.answer (setting.runSteps (setting.callFrom fuel) false n st)) := by
  induction n generalizing st with
  | zero =>
    simp only [runSteps, h.halted_eq hsited, h.halted_relinked hsited hgrows, answer, hgrows.config,
      Bool.false_eq_true, if_false]
    rfl
  | succ n ih =>
    obtain ⟨op, hop⟩ : ∃ op, setting.program.code[st.machine.ip]? = some op :=
      ⟨_, Array.getElem?_eq_getElem (h.lt_size hsited)⟩
    simp only [runSteps, h.halted_eq hsited, h.halted_relinked hsited hgrows, Bool.false_eq_true,
      if_false]
    by_cases hlast : op.code = .ret ∧ st.machine.frames = [frame]
    · obtain ⟨hcode, hframes⟩ := hlast
      rw [step_return (setting.callFrom fuel) hgrows hop hcode hframes]
      cases hstep : setting.step (setting.callFrom fuel) false st with
      | error i st₁ => rfl
      | ok u st₁ =>
        -- The call has returned to the end of the program, old or new, where both runs stop.
        have hend : setting.halted st₁.machine = true :=
          decide_eq_true (Nat.le_of_eq
            ((ip_of_return hop hcode hframes hbase hwant hstep).trans hreturn).symm)
        have hend' : setting'.halted { st₁.machine with ip := setting'.program.size } = true :=
          decide_eq_true (Nat.le_refl _)
        dsimp only
        rw [runSteps_of_halted n hend, runSteps_of_halted n hend']
        rfl
    · rw [step_relinked hgrows honest indifferent h hagrees hop fun hcode hframes =>
        hlast ⟨hcode, hframes⟩]
      cases hstep : setting.step (setting.callFrom fuel) false st with
      | error i st₁ => rfl
      | ok u st₁ =>
        rcases h.step honest hsited hstep with h₁ | ⟨op', hop', hcode, hframes, -⟩
        · exact ih h₁
        · obtain rfl := Option.some.inj (hop.symm.trans hop')
          exact absurd ⟨hcode, hframes⟩ hlast

/-! ### Calls into the engine -/

/-- Calls of functions of the program leave functions of the program. -/
theorem known_callFrom (honest : Honest setting.natives talk) {position : Position} {depth : Nat}
    {callee : Value} {args : List Value} {s : Store} (hcallee : callee.Known setting.program.pushes)
    (hargs : AllKnown setting.program.pushes args) (hs : s.Known setting.program.pushes) :
    KnownResult setting.program.pushes (setting.callFrom fuel position depth callee args s) := by
  have hcalling : (Activity.calling (.atTopLevel 0 setting.root) [] fuel position depth callee args
      s).Known fun _ => setting.program.pushes := ⟨hcallee, hargs, hs⟩
  exact ((setting.sustains_pushes talk).call honest hcalling).2

/-- **Calls of functions of a program have the same answers when it has grown.**  By induction on
how deep calls into the engine may be nested. -/
theorem Grows.agrees (hgrows : setting.Grows setting') (honest : Honest setting.natives talk)
    (indifferent : Indifferent setting.natives) (hsited : setting.program.Sited site) (fuel : Nat)
    (position : Position) (depth : Nat) :
    Reentry.Agrees setting.program.pushes (setting.callFrom fuel position depth)
      (setting'.callFrom fuel position depth) where
  known := known_callFrom honest
  eq := by
    induction fuel generalizing position depth with
    | zero => exact fun _ _ _ _ => rfl
    | succ fuel ih =>
      have hagrees : ∀ position depth, Reentry.Agrees setting.program.pushes
          (setting.callFrom fuel position depth) (setting'.callFrom fuel position depth) :=
        fun position depth => ⟨ih position depth, known_callFrom honest⟩
      intro callee args s before hcallee hargs hs
      cases callee with
      | native f =>
        rw [callFrom, callFrom, hgrows.natives, EStateM.adaptExcept, EStateM.adaptExcept,
          natives_agree honest indifferent (hagrees position depth) hargs hs]
        cases setting.natives f.body (setting.callFrom fuel position depth) args s <;> rfl
      | function entry captured =>
        by_cases hdepth : setting.config.maxCallDepth ≤ depth + 1
        · have hdepth' : setting'.config.maxCallDepth ≤ depth + 1 := hgrows.config ▸ hdepth
          rw [callFrom_overflow hdepth, callFrom_overflow hdepth']
          rfl
        · have hdepth' : ¬ setting'.config.maxCallDepth ≤ depth + 1 := hgrows.config ▸ hdepth
          rw [callFrom_function hdepth, callFrom_function hdepth', hgrows.config]
          exact answer_relinked hgrows honest indifferent hsited hagrees rfl rfl rfl _
            (setting.inCall_opening hsited depth hcallee hargs hs)
      | _ => rfl

end Setting

end ScriptEngine
