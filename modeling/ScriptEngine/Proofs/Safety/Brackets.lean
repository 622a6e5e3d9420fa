import ScriptEngine.Proofs.Nesting.Fuel
import ScriptEngine.Proofs.Reentry.Parameters
import ScriptEngine.Proofs.Reentry.Returns
import ScriptEngine.Proofs.Safety.Engines

/-!
# Calls are well bracketed

Between the call of a script function and its return no instruction reaches the values and
the marks that belong to the caller.  The return therefore brings the machine back to where it
was before the call, but for the results in the place of the arguments.

## Main definitions

* `Engine.Occurring` — the states that occur in engines.
* `Setting.Lasting` — what comes after a state as long as some calls are open.
* `Engine.Bracketed` — a call that gives its parameters their values, and brings the machine
  back to its caller.

## Main results

* `Setting.suffix_of_execute` — an instruction keeps what belongs to the calls around it.
* `Setting.execute_ret_of_suspended` — what a return leaves.
* `Engine.bracketed_of_occurring` — calls of script functions are well bracketed.
-/

namespace ScriptEngine

open Exec

/-! ### Values of other calls -/

section Suspended

variable {p : Program} {final : Shape → Prop} {nested : Bool} {frames : List Frame}
  {below : List Value} {lower : List Nat}

/-- The values and marks of the calls around the innermost one. -/
theorem Suspended.head {frame : Frame}
    (h : Suspended p final nested (frame :: frames) below lower) :
    frame.base = below.length ∧ frame.marks = lower.length := by
  cases h with
  | native _ _ hbase hmarks => exact ⟨hbase, hmarks⟩
  | call _ _ hbase hmarks => exact ⟨hbase, hmarks⟩

/-- The calls further out have fewer values and marks. -/
theorem Suspended.of_mem (h : Suspended p final nested frames below lower) {frame : Frame}
    (hframe : frame ∈ frames) : frame.base ≤ below.length ∧ frame.marks ≤ lower.length := by
  induction h with
  | text => cases hframe
  | native _ _ hbase hmarks =>
    obtain rfl := List.mem_singleton.1 hframe
    exact ⟨Nat.le_of_eq hbase, Nat.le_of_eq hmarks⟩
  | call _ _ hbase hmarks _ _ ih =>
    rcases List.mem_cons.1 hframe with rfl | hframe
    · exact ⟨Nat.le_of_eq hbase, Nat.le_of_eq hmarks⟩
    · obtain ⟨hle, hle'⟩ := ih hframe
      rw [List.length_append, List.length_append]
      exact ⟨Nat.le_trans hle (Nat.le_add_left _ _), Nat.le_trans hle' (Nat.le_add_left _ _)⟩

end Suspended

theorem Machine.Shaped.suffix {m : Machine} {σ : Shape} {below : List Value} {lower : List Nat}
    (h : m.Shaped σ below lower) : below <:+ m.stack ∧ lower <:+ m.marks := by
  obtain ⟨stack, marks, hstack, hmarks, -⟩ := h
  rw [hstack, hmarks]
  exact ⟨List.suffix_append _ _, List.suffix_append _ _⟩

/-- What is above a suffix is cut off. -/
theorem Stack.cutTo_of_suffix {below stack : List Value} (h : below <:+ stack) :
    Stack.cutTo below.length stack = below := (List.suffix_iff_eq_drop.1 h).symm

namespace Setting

variable {setting : Setting} {reenter : Reentry} {final : Shape → Prop} {nested : Bool}
  {m : Machine} {s : Store} {st : State} {op : Op} {σ : Shape} {below : List Value}
  {lower : List Nat} {targets : List (Nat × Shape)}

/-- What is left of a call before an instruction returns from it. -/
theorem execute_ret_of_shaped (h : m.Shaped σ below lower) (hcode : op.code = .ret)
    (hflow : op.flow m.ip σ = some targets) :
    ∃ stack marks, below <:+ stack ∧ lower <:+ marks ∧
      setting.execute reenter op ⟨m.past, s⟩ = setting.leaveFunction (op.results m)
        ⟨{ m.past with stack := stack, marks := marks }, s⟩ := by
  simp only [Op.flow, hcode] at hflow
  cases hcount : op.count? with
  | some n =>
    simp only [hcount, Option.map_eq_some_iff] at hflow
    obtain ⟨τ, hτ, -⟩ := hflow
    rw [Shape.pop_eq_some_iff] at hτ
    subst hτ
    obtain ⟨vs, rest, hstack, hvs, hrest⟩ := Machine.shaped_push.1 h
    obtain rfl : vs.length = n := fits_values.1 hvs
    have hpast : m.past.stack = vs ++ rest := hstack
    have hrequire : Exec.require vs.length ⟨m.past, s⟩ = .ok () ⟨m.past, s⟩ :=
      require_of_le (by rw [hpast, List.length_append]; omega)
    refine ⟨rest, m.marks, hrest.suffix.1, hrest.suffix.2, ?_⟩
    simp only [execute, hcode, hcount, bind, EStateM.bind, hrequire, Exec.machine,
      Exec.modifyStack, Exec.modifyMachine, hpast, List.drop_left, Op.results, hstack]
    rfl
  | none =>
    simp only [hcount] at hflow
    split at hflow
    · cases hflow
    · next hmarked =>
      obtain ⟨next, rest, hrest⟩ := List.exists_cons_of_ne_nil hmarked
      obtain ⟨vs, stack, marks, hstack, hmarks, hshaped⟩ := shaped_below_mark h hrest
      have hpast : m.past.stack = vs ++ stack := hstack
      refine ⟨stack, marks, hshaped.suffix.1, hshaped.suffix.2, ?_⟩
      simp only [execute, hcode, hcount, bind, EStateM.bind, popMark_ok (m := m.past) hmarks,
        Exec.machine, Exec.modifyStack, Exec.modifyMachine, hpast, Stack.cutTo_length_append,
        Op.results, hmarks, hstack, List.headD_cons]

/-- What a return leaves, if the innermost call was made above the values and marks that are
below it. -/
theorem execute_ret_of_frame {frame : Frame} {frames : List Frame}
    (hbase : frame.base = below.length) (hmarks : frame.marks = lower.length)
    (h : m.Shaped σ below lower) (hframes : m.frames = frame :: frames) (hcode : op.code = .ret)
    (hflow : op.flow m.ip σ = some targets) :
    setting.execute reenter op ⟨m.past, s⟩ =
      .ok () ⟨{ m with
        ip := frame.returnTo
        stack := Stack.pushAll (adjustTo frame.want (op.results m)) below
        scopes := frame.scopes
        captured := frame.captured
        frames := frames
        marks := lower }, s⟩ := by
  obtain ⟨stack, marks, hbelow, hlower, hexecute⟩ := execute_ret_of_shaped h hcode hflow
  have hopen : m.past.frames = frame :: frames := hframes
  rw [hexecute, leaveFunction, Exec.modifyMachine]
  simp only [hopen, hbase, hmarks, Stack.cutTo_of_suffix hbelow, ← List.suffix_iff_eq_drop.1 hlower]
  rfl

/-- **What a return leaves**: the values and marks of the calls around, and the results. -/
theorem execute_ret_of_suspended {frame : Frame} {frames : List Frame}
    (hsuspended : Suspended setting.program final nested (frame :: frames) below lower)
    (h : m.Shaped σ below lower) (hframes : m.frames = frame :: frames) (hcode : op.code = .ret)
    (hflow : op.flow m.ip σ = some targets) :
    setting.execute reenter op ⟨m.past, s⟩ =
      .ok () ⟨{ m with
        ip := frame.returnTo
        stack := Stack.pushAll (adjustTo frame.want (op.results m)) below
        scopes := frame.scopes
        captured := frame.captured
        frames := frames
        marks := lower }, s⟩ := by
  obtain ⟨hbase, hmarks⟩ := hsuspended.head
  exact execute_ret_of_frame hbase hmarks h hframes hcode hflow

/-- What a call keeps of the stack below its arguments. -/
theorem suffix_of_invoke {i : Invocation}
    (h : Machine.Shaped { m with stack := i.rest } σ below lower)
    (hrun : setting.invoke reenter i m.past s = .ok () st) :
    below <:+ st.machine.stack ∧ lower <:+ st.machine.marks := by
  obtain ⟨hbelow, hlower⟩ := h.suffix
  have hbelow : below <:+ i.rest := hbelow
  unfold invoke at hrun
  split at hrun
  · split at hrun
    · cases hrun
      exact ⟨hbelow.trans (List.suffix_append _ _), hlower⟩
    · cases hrun
  · split at hrun
    · cases hrun
    · cases hrun
      exact ⟨hbelow.trans ((List.suffix_append _ _).trans (List.suffix_cons _ _)), hlower⟩
  · cases hrun

/-- **An instruction of verified code keeps what belongs to the calls around it.** -/
theorem suffix_of_execute
    (hsuspended : Suspended setting.program final nested m.frames below lower)
    (h : m.Shaped σ below lower) (hflow : op.flow m.ip σ = some targets)
    (hrun : setting.execute reenter op ⟨m.past, s⟩ = .ok () st) (hroom : st.machine.HasRoom) :
    below <:+ st.machine.stack ∧ lower <:+ st.machine.marks := by
  -- Calls and returns change the calls that are open; the shape behind any other instruction has
  -- the same values below it.
  by_cases hcall : op.code = .call
  · simp only [Op.flow, hcall] at hflow
    split at hflow
    · next top htop =>
      have hσ : σ = Shape.push { σ with top := top } [.ready] := by
        rw [Shape.push]
        simp [← htop]
      rw [hσ] at h
      obtain ⟨vs, rest, hstack, hvs, hrest⟩ := Machine.shaped_push.1 h
      obtain ⟨c, callee, args, rfl, hc⟩ := fits_singleton.1 hvs
      have hi := Machine.invocation?_of_ready (m := m.past) hcall hstack hc
      rw [execute_of_invocation hi] at hrun
      exact suffix_of_invoke hrest hrun
    · cases hflow
  by_cases hiter : op.code = .iterNext
  · cases hi : m.past.invocation? op with
    | none =>
      obtain ⟨e, stack, hfails⟩ := setting.execute_of_no_invocation (.inr hiter) hi
      rw [hfails] at hrun
      cases hrun
    | some i =>
      have hrest : i.rest = m.stack := by
        have hpast : m.past.stack = m.stack := rfl
        simp only [Machine.invocation?, hiter] at hi
        split at hi
        · next hno _ => cases hno
        · next hstack =>
          obtain rfl := Option.some.inj hi
          exact hstack.symm.trans hpast
        · cases hi
      rw [execute_of_invocation hi] at hrun
      exact suffix_of_invoke (by rw [hrest]; exact h) hrun
  by_cases hret : op.code = .ret
  · generalize hframes : m.frames = frames at hsuspended
    cases frames with
    | nil =>
      cases hsuspended
      exact ⟨List.nil_suffix, List.nil_suffix⟩
    | cons frame frames =>
      rw [execute_ret_of_suspended hsuspended h hframes hret hflow] at hrun
      cases hrun
      exact ⟨List.suffix_append _ _, List.suffix_refl _⟩
  · have hstays : Stays targets below lower m (setting.execute reenter op ⟨m.past, s⟩) :=
      stays_execute h hflow hcall hiter hret
    rw [hrun] at hstays
    obtain ⟨t, -, -, -, hshaped⟩ := hstays hroom
    exact hshaped.suffix

/-- A machine executes verified code, if it has an instruction to execute. -/
def Executing (setting : Setting) (m : Machine) : Prop :=
  ∃ final nested, ∀ op, setting.program.code[m.ip]? = some op → m.Sound setting.program final nested

/-- What a machine keeps of a caller: the values below the arguments, and the marks. -/
structure Keeps (caller : Machine) (rest : List Value) (m : Machine) : Prop where
  stack : rest <:+ m.stack
  marks : caller.marks <:+ m.marks
  outerDepth : m.outerDepth = caller.outerDepth

/-- The frame that a machine saves when it makes a call. -/
def savedFrame (caller : Machine) (i : Invocation) : Frame :=
  ⟨caller.ip, i.rest.length, i.want, caller.scopes, caller.captured, caller.marks.length⟩

/-- A step keeps what belongs to a caller, as long as its call is open. -/
theorem Keeps.step {call : Position → Nat → Reentry} {trace : Bool} {caller : Machine}
    {i : Invocation} {st' : State} (h : Keeps caller i.rest st.machine)
    (hsound : setting.Executing st.machine) (hframe : savedFrame caller i ∈ st.machine.frames)
    (hstep : setting.step call trace st = .ok () st') (hroom : st'.machine.HasRoom) :
    Keeps caller i.rest st'.machine := by
  cases hop : setting.program.code[st.machine.ip]? with
  | none =>
    rw [step_of_none hop] at hstep
    cases hstep
    exact h
  | some op =>
    obtain ⟨final, nested, hsound⟩ := hsound
    obtain ⟨σ, below, lower, hsuspended, hshaped, hverified⟩ := hsound op hop
    obtain ⟨targets, hflow, -⟩ := hverified.flow hop
    obtain ⟨hbase, hmarks⟩ := hsuspended.of_mem hframe
    obtain ⟨hbelow, hlower⟩ := hshaped.suffix
    have hdepth := outerDepth_step hstep
    rw [step_eq_execute hop] at hstep
    split at hstep
    · next st'' hrun =>
      cases hstep
      obtain ⟨hbelow', hlower'⟩ := suffix_of_execute hsuspended hshaped hflow hrun hroom
      refine ⟨?_, ?_, hdepth.trans h.outerDepth⟩
      · exact (List.suffix_of_suffix_length_le h.stack hbelow hbase).trans hbelow'
      · exact (List.suffix_of_suffix_length_le h.marks hlower hmarks).trans hlower'
    · cases hstep

/-- **A return brings the machine back to where it was before the call**, with the results in
the place of the arguments. -/
theorem step_ret_of_keeps {call : Position → Nat → Reentry} {trace : Bool} {caller : Machine}
    {i : Invocation} (h : Keeps caller i.rest st.machine)
    (hsound : setting.Executing st.machine)
    (hframes : st.machine.frames = savedFrame caller i :: caller.frames)
    (hop : setting.program.code[st.machine.ip]? = some op) (hcode : op.code = .ret) :
    ∃ s', setting.step call trace st = .ok () ⟨{ caller with
      stack := Stack.pushAll (adjustTo i.want (op.results st.machine)) i.rest }, s'⟩ := by
  obtain ⟨final, nested, hsound⟩ := hsound
  obtain ⟨σ, below, lower, hsuspended, hshaped, hverified⟩ := hsound op hop
  obtain ⟨targets, hflow, -⟩ := hverified.flow hop
  obtain ⟨hbelow, hlower⟩ := hshaped.suffix
  rw [hframes] at hsuspended
  obtain ⟨hbase, hmarks⟩ := hsuspended.head
  -- The heights in the saved frame tell that the values of the calls around are those that were
  -- below the arguments, and not only as many.
  obtain rfl : i.rest = below :=
    (List.suffix_of_suffix_length_le h.stack hbelow (Nat.le_of_eq hbase)).eq_of_length hbase
  obtain rfl : caller.marks = lower :=
    (List.suffix_of_suffix_length_le h.marks hlower (Nat.le_of_eq hmarks)).eq_of_length hmarks
  rw [step_eq_execute hop, execute_ret_of_suspended hsuspended hshaped hframes hcode hflow,
    h.outerDepth]
  exact ⟨_, rfl⟩

/-- What comes after a state as long as the calls `frames` are open: the machine makes steps,
and the host can change the store between them.  All states are such as occur. -/
def Lasting (setting : Setting) (occurs : State → Prop) (frames : List Frame) :
    State → State → Prop :=
  Relation.ReflTransGen fun st st' =>
    (st'.machine = st.machine ∨
      ∃ fuel trace, setting.step (setting.callFrom fuel) trace st = .ok () st') ∧
    occurs st' ∧ frames <:+ st'.machine.frames

end Setting

/-- The functions that a program pushes are verified. -/
theorem Program.Verifying.pushes_among_enters {p : Program} (h : p.Verifying) :
    p.pushes.Among p.enters := by
  rintro entry captured ⟨op, hop, hcode, v, hpushed⟩
  exact h op hop hcode entry v hpushed

/-! ### Engines -/

namespace Engine

variable {e : Engine} {config : Config} {natives : Builtin → NativeBody} {talk : Talk}
  {store : Store} {past : Set Activity} {setting : Setting} {st : State}

/-- The functions that have come about are verified. -/
theorem Sound.made_among_enters {last : Chunk} (h : e.Sound last) (past : Set Activity) :
    (e.made past).Among e.setting.program.enters :=
  (e.made_among_pushes past).trans h.program.pushes_among_enters

/-- What a sound engine goes on with. -/
theorem Sound.resumes {last : Chunk} (h : e.Sound last) (hroom : e.machine.HasRoom)
    {start : Activity} (hstart : e.Resumes past start) :
    start.Known (fun _ => e.setting.program.enters) ∧
      start.Lasts e.setting.program (endShape last) := by
  cases hstart with
  | step fuel trace hfault => exact ⟨⟨h.stack hfault, h.store⟩, h.machine hfault hroom⟩
  | call fuel hcallee hargs =>
    have hamong := h.made_among_enters past
    exact ⟨⟨hcallee.mono hamong, hargs.mono hamong, h.store⟩, trivial⟩

/-- **Every engine executes verified code**, as long as the heights of stacks are numbers. -/
theorem History.sound (honest : Honest natives talk) (hstore : store.Known fun _ _ => False)
    (h : History config natives talk store e past)
    (hpast : ∀ fuel trace st, Activity.running [] fuel trace st ∈ past → st.machine.HasRoom) :
    ∃ last, e.Sound last := by
  induction h with
  | new => exact ⟨[], sound_ofStore hstore⟩
  | @load e _ _ source _ hload ih =>
    obtain ⟨last, hsound⟩ := ih hpast
    cases hparse : parse source with
    | error err =>
      rw [Engine.load, hparse] at hload
      cases hload
    | ok chunk => exact ⟨chunk, hsound.load hparse hload⟩
  | reset _ hreset ih =>
    obtain ⟨last, hsound⟩ := ih hpast
    exact ⟨last, hsound.reset hreset⟩
  | define _ hdefine ih =>
    obtain ⟨last, hsound⟩ := ih hpast
    exact ⟨last, hsound.define hdefine⟩
  | setGlobal _ hv hset ih =>
    obtain ⟨last, hsound⟩ := ih hpast
    cases hset
    exact ⟨last, { hsound with
      store := hsound.store.setGlobal _ (hv.mono (hsound.made_among_enters _)) }⟩
  | declare _ hlocals hdeclare ih =>
    obtain ⟨last, hsound⟩ := ih hpast
    cases hdeclare
    exact ⟨last, { hsound with
      store := known_foldl_declare hsound.store _ fun x hx =>
        (hlocals x hx).mono (hsound.made_among_enters _) }⟩
  | step h hstep ih =>
    obtain ⟨last, hsound⟩ := ih fun fuel trace st hst => hpast fuel trace st (.inl hst)
    exact ⟨last, hsound.step (h.natives_eq ▸ honest) (hpast _ _ _ (.inr .refl)) hstep⟩
  | fail h hfault hstep ih =>
    obtain ⟨last, hsound⟩ := ih fun fuel trace st hst => hpast fuel trace st (.inl hst)
    exact ⟨last, hsound.fail (h.natives_eq ▸ honest) hfault hstep⟩
  | @call e past fuel callee args h hcallee hargs ih =>
    obtain ⟨last, hsound⟩ := ih fun fuel trace st hst => hpast fuel trace st (.inl hst)
    have hamong := hsound.made_among_enters past
    have hknown : (e.calling fuel callee args).Known fun _ => e.setting.program.enters :=
      ⟨hcallee.mono hamong, hargs.mono hamong, hsound.store⟩
    have hanswers := (Setting.sustains_enters hsound.program).call (h.natives_eq ▸ honest) hknown
    rw [stateOf_call]
    refine ⟨last, { hsound with store := ?_ }⟩
    dsimp only
    revert hanswers
    cases e.setting.callFrom fuel e.position e.machine.depth callee args e.store with
    | ok results s => exact fun hanswers => hanswers.2.2
    | error i s => exact fun hanswers => hanswers.2

/-- The states that occur in engines with a setting, as long as the heights of stacks are
numbers. -/
def Occurring (config : Config) (natives : Builtin → NativeBody) (talk : Talk) (store : Store)
    (setting : Setting) (st : State) : Prop :=
  ∃ (e : Engine) (past : Set Activity) (start : Activity) (waiting : List Machine) (fuel : Nat)
    (trace : Bool), History config natives talk store e past ∧
    (∀ fuel trace st, Activity.running [] fuel trace st ∈ past → st.machine.HasRoom) ∧
    e.machine.HasRoom ∧ e.setting = setting ∧ e.Resumes past start ∧
    setting.HappensInRoom talk start (.running waiting fuel trace st)

/-- A state that occurs has room, and a machine that executes verified code. -/
theorem Occurring.executing (honest : Honest natives talk) (hstore : store.Known fun _ _ => False)
    (h : Occurring config natives talk store setting st) :
    st.machine.HasRoom ∧ setting.Executing st.machine := by
  obtain ⟨e, past, start, waiting, fuel, trace, hhistory, hpast, hroom, rfl, hstart, hhappens⟩ := h
  obtain ⟨last, hsound⟩ := hhistory.sound honest hstore hpast
  obtain ⟨hknown, hlasts⟩ := hsound.resumes hroom hstart
  refine ⟨?_, endShape last, !waiting.isEmpty, fun op hop => ?_⟩
  · cases hhappens with
    | refl =>
      cases hstart
      exact hroom
    | tail _ hlast => exact hlast.2
  · rcases Setting.lasts_of_happensInRoom (hhistory.natives_eq ▸ honest) hsound.program hlasts
      hknown hhappens with hlasting | ⟨-, hend⟩
    · exact hlasting
    · rw [Array.getElem?_eq_none (Nat.le_of_eq hend.symm)] at hop
      cases hop

/-- A state that occurs has functions of the program, which are those of function literals and
verified. -/
theorem Occurring.known (honest : Honest natives talk) (hstore : store.Known fun _ _ => False)
    (h : Occurring config natives talk store setting st) :
    Honest setting.natives talk ∧ AllKnown setting.program.pushes st.machine.stack ∧
      setting.program.Holding ∧ setting.program.Verifying := by
  obtain ⟨e, past, start, waiting, fuel, trace, hhistory, hpast, hroom, rfl, hstart, hhappens⟩ := h
  obtain ⟨last, hsound⟩ := hhistory.sound honest hstore hpast
  exact ⟨hhistory.natives_eq ▸ honest,
    (hhistory.known_happens honest hstore hstart hhappens.happens).1, hhistory.holding,
    hsound.program⟩

/-- **As long as a call is open, the machine keeps what belongs to its caller.** -/
theorem keeps_of_lasting (honest : Honest natives talk) (hstore : store.Known fun _ _ => False)
    {caller : Machine} {i : Invocation} {opened : State}
    (hopening : Setting.Keeps caller i.rest opened.machine)
    (hopened : setting.Executing opened.machine)
    (hframe : Setting.savedFrame caller i ∈ opened.machine.frames)
    (h : setting.Lasting (Occurring config natives talk store setting) opened.machine.frames
      opened st) :
    Setting.Keeps caller i.rest st.machine ∧ setting.Executing st.machine := by
  -- The step needs the saved frame among those of the machine, so that the calls that are open
  -- are part of the invariant.
  have hall : Setting.Keeps caller i.rest st.machine ∧ setting.Executing st.machine ∧
      opened.machine.frames <:+ st.machine.frames := by
    induction h with
    | refl => exact ⟨hopening, hopened, List.suffix_refl _⟩
    | @tail st st' _ hnext ih =>
      obtain ⟨hkeeps, hexecuting, hopen⟩ := ih
      obtain ⟨hmoved, hst', hopen'⟩ := hnext
      obtain ⟨hroom, hexecuting'⟩ := hst'.executing honest hstore
      refine ⟨?_, hexecuting', hopen'⟩
      rcases hmoved with hsame | ⟨fuel, trace, hstep⟩
      · rw [hsame]
        exact hkeeps
      · exact hkeeps.step hexecuting (hopen.subset hframe) hstep hroom
  exact ⟨hall.1, hall.2.1⟩

/-- The call of a script function that begins with `opened` is well bracketed.  If its
parameters have distinct names, its first instructions declare them in the scope with which
it starts, with the values of the arguments, and leave nothing of these on the stack.  And when
an instruction returns from this very call, after whatever instructions, then the machine is
back where the caller was, behind the call, with the returned values in the place of the
arguments, as many of them as are wanted. -/
structure Bracketed (setting : Setting) (occurs : State → Prop) (caller : State) (i : Invocation)
    (entry : Nat) (opened : State) : Prop where
  parameters : ∃ f : PlacedFunction, setting.program.HoldsFunction entry f ∧
    ((f.literal.parameters.map Identifier.name).Nodup → ∀ (call : Position → Nat → Reentry) trace,
      ∃ s', Declared caller.store.newScope.1 f.literal.parameters i.args opened.store s' ∧ ∀ n,
        setting.runSteps call trace (2 * f.literal.parameters.length + n + 1) opened =
          setting.runSteps call trace n ⟨{ opened.machine with
            ip := entry + 1 + 2 * f.literal.parameters.length
            stack := i.rest }, s'⟩)
  returns : ∀ {st : State} {op : Op}, setting.Lasting occurs opened.machine.frames opened st →
    st.machine.frames = opened.machine.frames →
    setting.program.code[st.machine.ip]? = some op → op.code = .ret →
    ∀ (call : Position → Nat → Reentry) trace, ∃ s', setting.step call trace st =
      .ok () ⟨{ caller.machine.past with
        stack := Stack.pushAll (adjustTo i.want (op.results st.machine)) i.rest }, s'⟩

/-- The step that enters a script function. -/
theorem of_step_entering {call : Position → Nat → Reentry} {trace : Bool} {caller opened : State}
    {op : Op} {i : Invocation} {entry : Nat} {captured : List ScopeRef}
    (hop : setting.program.code[caller.machine.ip]? = some op)
    (hi : caller.machine.past.invocation? op = some i)
    (hcallee : i.callee = .function entry captured)
    (hstep : setting.step call trace caller = .ok () opened) :
    opened.machine = caller.machine.past.entered i entry captured caller.store.newScope.1 ∧
      opened.store.scopes = caller.store.scopes.push [] := by
  rw [Setting.step_eq_execute hop, Setting.execute_of_invocation hi, Setting.invoke,
    hcallee] at hstep
  dsimp only at hstep
  split at hstep
  · next hinvoke =>
    split at hinvoke
    · cases hinvoke
    · cases hinvoke
      cases hstep
      have hscopes := Setting.scopes_announced trace op caller
      refine ⟨?_, ?_⟩
      · simp only [Store.newScope, hscopes]
      · rw [Setting.scopes_recorded]
        exact congrArg (·.push []) hscopes
  · cases hstep

/-- **Calls of script functions are well bracketed**, in all states that occur in engines. -/
theorem bracketed_of_occurring (honest : Honest natives talk)
    (hstore : store.Known fun _ _ => False) {caller opened : State} {op : Op} {i : Invocation}
    {entry fuel : Nat} {trace : Bool} {captured : List ScopeRef}
    (hcaller : Occurring config natives talk store setting caller)
    (hop : setting.program.code[caller.machine.ip]? = some op)
    (hi : caller.machine.past.invocation? op = some i)
    (hcallee : i.callee = .function entry captured)
    (hstep : setting.step (setting.callFrom fuel) trace caller = .ok () opened)
    (hroom : opened.machine.HasRoom) :
    Bracketed setting (Occurring config natives talk store setting) caller i entry opened := by
  obtain ⟨hhonest, hknown, hholding, hverifying⟩ := hcaller.known honest hstore
  obtain ⟨-, final, nested, hsound⟩ := hcaller.executing honest hstore
  have hexecuting : setting.Executing opened.machine := by
    refine ⟨final, nested, fun _ _ => ?_⟩
    rcases Setting.sound_step hhonest (hsound op hop) (hknown.mono hverifying.pushes_among_enters)
      hop hstep hroom with hsound' | ⟨hret, -⟩
    · exact hsound'
    · rcases Setting.code_of_invocation hi with hcode | hcode <;> cases hcode.symm.trans hret
  obtain ⟨hmachine, hscopes⟩ := of_step_entering hop hi hcallee hstep
  obtain ⟨m, s⟩ := opened
  dsimp only at hmachine hscopes
  subst hmachine
  constructor
  · have hentry := (Setting.known_invocation hi hknown).1
    rw [hcallee] at hentry
    obtain ⟨f, hf⟩ := hholding entry captured hentry
    refine ⟨f, hf, fun hnames call trace => ?_⟩
    refine Setting.runSteps_parameters
      (m := caller.machine.past.entered i entry captured caller.store.newScope.1) call trace i.args
      i.rest hf hnames ?_ rfl ?_
    · have hlength : (Value.number (Number.ofNat i.args.length) ::
          (i.args.reverse ++ i.rest)).length < Number.mantissaBound := hroom
      simp only [List.length_cons, List.length_append, List.length_reverse] at hlength
      omega
    · rw [hscopes, Array.size_push]
      exact Nat.lt_succ_self _
  · intro st op' hlasting hframes hop' hcode call trace
    have hopening : Setting.Keeps caller.machine.past i.rest
        (caller.machine.past.entered i entry captured caller.store.newScope.1) :=
      ⟨(List.suffix_append _ _).trans (List.suffix_cons _ _), List.suffix_refl _, rfl⟩
    obtain ⟨hkeeps, hexecuting'⟩ :=
      keeps_of_lasting honest hstore hopening hexecuting List.mem_cons_self hlasting
    exact Setting.step_ret_of_keeps hkeeps hexecuting' hframes hop' hcode

/-- An engine after a number of steps, if its stack stays low and the calls `frames` stay
open. -/
def stepped (frames : List Frame) : Nat → Engine → Option Engine
  | 0, e => some e
  | n + 1, e =>
    match step 0 .none e with
    | .ok _ e' =>
      if e'.machine.stack.length < 9 ∧ frames <:+ e'.machine.frames then stepped frames n e'
      else none
    | .error _ _ => none

/-- The only machine without others that wait for it is the one that begins. -/
theorem eq_of_happens_running {start : Activity} {fuel : Nat} {trace : Bool}
    (h : setting.Happens talk start (.running [] fuel trace st)) :
    start = .running [] fuel trace st := by
  cases h with
  | refl => rfl
  | tail _ hleads => cases hleads

/-- The state of an engine that has not been stopped occurs. -/
theorem History.occurring (h : History config natives talk store e past)
    (hpast : ∀ fuel trace st, Activity.running [] fuel trace st ∈ past → st.machine.HasRoom)
    (hroom : e.machine.HasRoom) (hfault : e.fault = none) :
    Occurring config natives talk store e.setting ⟨e.machine, e.store⟩ :=
  ⟨e, past, e.stepping 0 false, [], 0, false, h, hpast, hroom, rfl, .step 0 false hfault, .refl⟩

/-- The states that an engine goes through occur. -/
theorem lasting_of_stepped {e' : Engine} {frames : List Frame} {n : Nat}
    (h : History config natives talk store e past)
    (hpast : ∀ fuel trace st, Activity.running [] fuel trace st ∈ past → st.machine.HasRoom)
    (hroom : e.machine.HasRoom) (hfault : e.fault = none) (hsteps : stepped frames n e = some e') :
    (∃ past', History config natives talk store e' past' ∧
      (∀ fuel trace st, Activity.running [] fuel trace st ∈ past' → st.machine.HasRoom)) ∧
    e'.machine.HasRoom ∧ e'.fault = none ∧ e'.setting = e.setting ∧
      e.setting.Lasting (Occurring config natives talk store e.setting) frames ⟨e.machine, e.store⟩
        ⟨e'.machine, e'.store⟩ := by
  induction n generalizing e past with
  | zero =>
    obtain rfl : e = e' := Option.some.inj hsteps
    exact ⟨⟨past, h, hpast⟩, hroom, hfault, rfl, .refl⟩
  | succ n ih =>
    rw [stepped] at hsteps
    split at hsteps
    · next e₁ hstep =>
      split at hsteps
      · next hlow =>
        have hhistory := h.step hstep
        obtain ⟨-, st, hrun, rfl⟩ := of_step_ok hstep
        have hroom₁ : st.machine.HasRoom := Nat.lt_trans hlow.1 (by decide)
        have hpast₁ (fuel : Nat) (trace : Bool) (st : State)
            (hst : Activity.running [] fuel trace st ∈
            past ∪ {a | e.setting.Happens talk (e.stepping 0 RunOptions.none.trace) a}) :
            st.machine.HasRoom := by
          rcases hst with hst | hst
          · exact hpast fuel trace st hst
          · cases eq_of_happens_running hst
            exact hroom
        have hoccurring := hhistory.occurring hpast₁ hroom₁ hfault
        obtain ⟨hhistory', hroom', hfault', hsetting, hlasting⟩ :=
          ih hhistory hpast₁ hroom₁ hfault hsteps
        exact ⟨hhistory', hroom', hfault', hsetting,
          .head ⟨.inr ⟨0, false, hrun⟩, hoccurring, hlow.2⟩ hlasting⟩
      · cases hsteps
    · cases hsteps

theorem step_of_stepped_one {e' : Engine} {frames : List Frame} (h : stepped frames 1 e = some e') :
    step 0 .none e = .ok () e' := by
  rw [stepped] at h
  split at h
  · next hstep =>
    split at h
    · cases h
      exact hstep
    · cases h
  · cases h

/-- The call that an engine is about to make. -/
def invocation? (e : Engine) : Option Invocation :=
  (e.setting.program.code[e.machine.ip]?).bind e.machine.past.invocation?

/-- The engines before a call, inside of it, and before it returns. -/
def bracket (source : String) (before inside : Nat) : Option (Engine × Engine × Engine) :=
  match load source (new .standard) with
  | .ok _ e =>
    (stepped [] before e).bind fun caller => (stepped [] 1 caller).bind fun opened =>
      (stepped opened.machine.frames inside opened).map fun returning => (caller, opened, returning)
  | .error _ _ => none

/-- A function with a parameter, called with a number, returns it. -/
theorem bracketed_of_occurring_text :
    ∃ (talk : Talk) (setting : Setting) (caller opened st : State) (i : Invocation),
      Honest (Library.run Host.function) talk ∧
      Bracketed setting
        (Occurring .standard (Library.run Host.function) talk (Library.install .empty)
        setting) caller i 0 opened ∧
      setting.Lasting (Occurring .standard (Library.run Host.function) talk (Library.install .empty)
        setting) opened.machine.frames opened st ∧
      i.args = [.number (Number.ofNat 7)] ∧
      ∃ s', setting.step (setting.callFrom 0) false st = .ok () ⟨{ caller.machine.past with
        stack := [.number (Number.ofNat 7)] }, s'⟩ := by
  obtain ⟨talk, honest⟩ := honest_run
  have hrun : (bracket "(function(a) return a end)(7)" 3 4).any (fun (caller, opened, returning) =>
      caller.invocation?.map (fun i => (i.callee, i.args, i.rest, i.want)) =
          some (.function 0 [⟨0⟩], [.number (Number.ofNat 7)], [], some 1) ∧
        returning.machine.frames = opened.machine.frames ∧
        (returning.setting.program.code[returning.machine.ip]?).map
          (fun op => (op.code, op.results returning.machine)) =
          some (.ret, [.number (Number.ofNat 7)])) = true := by decide +kernel
  obtain ⟨⟨caller, opened, returning⟩, hbracket, hfacts⟩ := (Option.any_eq_true _ _).1 hrun
  obtain ⟨hcalled, hframes, hreturned⟩ := of_decide_eq_true hfacts
  obtain ⟨⟨callee, args, rest, want⟩, hinvocation, hi⟩ := Option.map_eq_some_iff.1 hcalled
  obtain ⟨op, hop, hi'⟩ := Option.bind_eq_some_iff.1 hinvocation
  obtain ⟨op', hop', hret⟩ := Option.map_eq_some_iff.1 hreturned
  obtain ⟨hcode, hresults⟩ := Prod.mk.inj hret
  cases hi
  unfold bracket at hbracket
  split at hbracket
  · next e hload =>
    obtain ⟨_, hbefore, hbracket⟩ := Option.bind_eq_some_iff.1 hbracket
    obtain ⟨_, hone, hbracket⟩ := Option.bind_eq_some_iff.1 hbracket
    obtain ⟨_, hinside, hbracket⟩ := Option.map_eq_some_iff.1 hbracket
    cases hbracket
    have hbegin : e.machine.stack = [] ∧ e.fault = none := by
      obtain ⟨chunk, records, -, rfl⟩ := of_load_ok hload
      exact ⟨rfl, rfl⟩
    have hroom : e.machine.HasRoom := by
      rw [Machine.HasRoom, hbegin.1]
      decide
    have hhistory :
        History .standard (Library.run Host.function) talk (Library.install .empty) e ∅ :=
      .load .new hload
    obtain ⟨⟨past₁, hhistory₁, hpast₁⟩, hroom₁, hfault₁, -, -⟩ :=
      lasting_of_stepped hhistory (fun _ _ _ h => absurd h (Set.notMem_empty _)) hroom hbegin.2
        hbefore
    obtain ⟨⟨past₂, hhistory₂, hpast₂⟩, hroom₂, hfault₂, -, -⟩ :=
      lasting_of_stepped hhistory₁ hpast₁ hroom₁ hfault₁ hone
    obtain ⟨-, -, -, hsetting, hlasting⟩ :=
      lasting_of_stepped hhistory₂ hpast₂ hroom₂ hfault₂ hinside
    obtain ⟨-, st, hrun, rfl⟩ := of_step_ok (step_of_stepped_one hone)
    have hbracketed := bracketed_of_occurring honest (Library.known_install Store.known_empty)
      (hhistory₁.occurring hpast₁ hroom₁ hfault₁) hop hi' rfl hrun hroom₂
    rw [hsetting] at hop'
    have hreturns :=
      hbracketed.returns hlasting hframes hop' hcode (caller.setting.callFrom 0) false
    rw [hresults] at hreturns
    exact ⟨talk, _, _, _, _, _, honest, hbracketed, hlasting, rfl, hreturns⟩
  · cases hbracket

end Engine

end ScriptEngine
