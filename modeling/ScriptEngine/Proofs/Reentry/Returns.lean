import ScriptEngine.Proofs.Safety.Natives
import ScriptEngine.Proofs.Scoping.Places

/-!
# Calls into engines return

A call of a script function into an engine runs on a machine of its own.  If it has results,
then the function has executed an instruction that returns, with the call that was opened for
it being the innermost one, and the results are the values of that instruction: the run cannot
come to the end of the program in any other way.  The machine that has been interrupted waits,
and nothing of it changes.

## Main definitions

* `Op.results` — the values that an instruction returns.
* `Setting.Continues` — a machine goes on, and some calls stay open.
* `Setting.Returns`, `Setting.Answered` — the call that a machine is in returns, and answers a
  call into the engine in this way.
* `Engine.Undisturbed` — calls into an engine do not disturb the programs they interrupt.

## Main results

* `Setting.answered_of_callFrom` — a call into the engine that has results has returned them.
* `Engine.undisturbed_of_history` — calls do not disturb interrupted programs.
-/

namespace ScriptEngine

open Exec

/-- The values that an instruction returns: as many as it says, or those above the last mark. -/
def Op.results (op : Op) (m : Machine) : List Value :=
  match op.count? with
  | some n => (m.stack.take n).reverse
  | none => Stack.above (m.marks.headD 0) m.stack

namespace Setting

variable {setting : Setting} {talk : Talk} {call : Position → Nat → Reentry} {reenter : Reentry}
  {site : Nat → Option Site} {op : Op} {m : Machine} {s : Store} {st st' start : State}

/-! ### Instructions that return -/

/-- What an instruction that returns takes off the stack. -/
theorem of_returning_ok {results : List Value} (h : returning op ⟨m, s⟩ = .ok results st) :
    op.results m = results ∧ st.machine.frames = m.frames ∧ st.store = s := by
  unfold returning at h
  cases hcount : op.count? with
  | some n =>
    simp only [hcount, bind, EStateM.bind, Exec.require, Exec.machine] at h
    split at h
    · next hrun =>
      split at hrun
      · cases hrun
      · cases hrun
        cases h
        exact ⟨by rw [Op.results, hcount], rfl, rfl⟩
    · cases h
  | none =>
    simp only [hcount, bind, EStateM.bind, Exec.popMark] at h
    cases hmarks : m.marks with
    | nil =>
      rw [hmarks] at h
      cases h
    | cons mark marks =>
      rw [hmarks] at h
      cases h
      exact ⟨by rw [Op.results, hcount, hmarks]; rfl, rfl, rfl⟩

/-- A return from the only call of a machine, which keeps its results. -/
theorem execute_ret_of_only {frame : Frame} (hcode : op.code = .ret) (hframes : m.frames = [frame])
    (hbase : frame.base = 0) (hwant : frame.want = none)
    (h : setting.execute reenter op ⟨m, s⟩ = .ok () st) :
    st.machine.ip = frame.returnTo ∧ st.machine.stack = (op.results m).reverse := by
  rw [execute_ret hcode] at h
  change EStateM.bind (returning op) setting.leaveFunction ⟨m, s⟩ = _ at h
  rw [EStateM.bind] at h
  cases hreturning : returning op ⟨m, s⟩ with
  | error e st' =>
    rw [hreturning] at h
    cases h
  | ok results st' =>
    rw [hreturning] at h
    obtain ⟨rfl, hopen, -⟩ := of_returning_ok hreturning
    simp only [leaveFunction, Exec.modifyMachine, hopen, hframes] at h
    cases h
    refine ⟨rfl, ?_⟩
    simp [Stack.pushAll, Stack.cutTo, adjustTo, hbase, hwant]

/-- Calls stay open until an instruction returns from the innermost of them. -/
theorem frames_moves {frames : List Frame} (hmoves : Moves setting op ⟨m.past, s⟩ st)
    (hopen : frames <:+ m.frames) (hne : frames ≠ []) :
    frames <:+ st.machine.frames ∨ (op.code = .ret ∧ m.frames = frames) := by
  cases hmoves with
  | stay _ _ _ hcalls =>
    have hframes : st.machine.frames = m.frames := (Machine.of_calls_eq hcalls).2.2
    exact .inl (hframes ▸ hopen)
  | @opened _ m' _ _ _ hcalls =>
    have hframes : m'.frames = m.frames := congrArg (·.2.2) hcalls
    exact .inl (hframes ▸ hopen)
  | closed _ _ hcalls =>
    have hframes : st.machine.frames = m.frames := congrArg (·.2.2) hcalls
    exact .inl (hframes ▸ hopen)
  | entered => exact .inl (hopen.trans (List.suffix_cons _ _))
  | @left _ _ frame rest hcode hframes hcalls _ =>
    have hframes : m.frames = frame :: rest := hframes
    have hleft : st.machine.frames = rest := congrArg (·.2.2) hcalls
    rw [hframes] at hopen
    rcases List.suffix_cons_iff.1 hopen with rfl | hrest
    · exact .inr ⟨hcode, hframes⟩
    · exact .inl (hleft ▸ hrest)
  | ended _ hframes =>
    have hframes : m.frames = [] := hframes
    rw [hframes] at hopen
    exact absurd (List.suffix_nil.1 hopen) hne

/-! ### Calls that return -/

/-- The state in which a call of a script function into the engine begins. -/
def opening (setting : Setting) (depth entry : Nat) (captured : List ScopeRef) (args : List Value)
    (s : Store) : State :=
  ⟨(setting.calleeMachine s.newScope.1 depth args).entered
      ⟨.function entry captured, args, [], none⟩ entry captured s.newScope.2.newScope.1,
    s.newScope.2.newScope.2⟩

/-- A machine goes on, and the calls `frames` stay open. -/
def Continues (setting : Setting) (call : Position → Nat → Reentry) (frames : List Frame) :
    State → State → Prop :=
  Relation.ReflTransGen fun st st' =>
    setting.step call false st = .ok () st' ∧ frames <:+ st'.machine.frames

/-- The innermost call of a machine returns: the machine goes on, that call staying open, until
it executes an instruction that returns from this very call. -/
def Returns (setting : Setting) (call : Position → Nat → Reentry) (start : State)
    (results : List Value) (final : State) : Prop :=
  ∃ st op, setting.Continues call start.machine.frames start st ∧
    setting.program.code[st.machine.ip]? = some op ∧ op.code = .ret ∧
    st.machine.frames = start.machine.frames ∧ op.results st.machine = results ∧
    setting.step call false st = .ok () final

/-- A machine that is in a call, at a known place and with functions of the program. -/
structure InCall (setting : Setting) (site : Nat → Option Site) (frame : Frame) (st : State) :
    Prop where
  isOpen : [frame] <:+ st.machine.frames
  placed : Placed site st.machine.located
  known : st.Known setting.program.pushes

theorem InCall.frames_ne_nil {frame : Frame} (h : setting.InCall site frame st) :
    st.machine.frames ≠ [] := by
  intro hnil
  have hopen := h.isOpen
  rw [hnil] at hopen
  exact absurd (List.suffix_nil.1 hopen) (List.cons_ne_nil _ _)

/-- As long as a call is open, the end of the program has not been reached. -/
theorem InCall.lt_size {frame : Frame} (hsited : setting.program.Sited site)
    (h : setting.InCall site frame st) : st.machine.ip < setting.program.size :=
  Nat.lt_of_lt_of_le (h.placed.lt_start hsited h.frames_ne_nil) hsited.start_le

/-- A call of a function of the program begins.  The frame that is saved leads to the end of the
program, where a run stops. -/
theorem inCall_opening (setting : Setting) (hsited : setting.program.Sited site) (depth : Nat)
    {entry : Nat} {captured : List ScopeRef} {args : List Value}
    (hcallee : setting.program.pushes entry captured)
    (hargs : AllKnown setting.program.pushes args) (hs : s.Known setting.program.pushes) :
    setting.InCall site ⟨setting.program.size, 0, none, [s.newScope.1], [], 0⟩
      (setting.opening depth entry captured args s) := by
  refine ⟨List.suffix_refl _, ?_, ?_, hs.newScope.newScope⟩
  · exact .inner ⟨[], hsited.of_pushes hcallee, rfl⟩ (.outermost ⟨[], hsited.finish, rfl⟩ rfl)
  · exact .cons trivial (.append (hargs.of_subset (List.reverse_subset.2 fun _ => id)) .nil)

/-- A step leads on in a call, or is its return. -/
theorem InCall.step {fuel : Nat} {frame : Frame} (honest : Honest setting.natives talk)
    (hsited : setting.program.Sited site) (h : setting.InCall site frame st)
    (hstep : setting.step (setting.callFrom fuel) false st = .ok () st') :
    setting.InCall site frame st' ∨ ∃ op, setting.program.code[st.machine.ip]? = some op ∧
      op.code = .ret ∧ st.machine.frames = [frame] ∧
      setting.execute (setting.callFrom fuel op.position st.machine.depth) op
        ⟨st.machine.past, st.store⟩ = .ok () st' := by
  obtain ⟨op, hop⟩ : ∃ op, setting.program.code[st.machine.ip]? = some op :=
    ⟨_, Array.getElem?_eq_getElem (h.lt_size hsited)⟩
  have hmoves : MovesTo setting op ⟨st.machine.past, st.store⟩
      (setting.execute (setting.callFrom fuel op.position st.machine.depth) op
        ⟨st.machine.past, st.store⟩) := movesTo_execute
  have hrunning : (Activity.running [] fuel false st).Known fun _ => setting.program.pushes :=
    h.known
  have hsustained := (setting.sustains_pushes talk).step honest hrunning
  have hplaced := placed_step hsited h.placed h.known.1 hstep
  have hexecute := hstep
  rw [step_eq_execute hop] at hexecute
  rw [hstep] at hsustained
  cases hrun : setting.execute (setting.callFrom fuel op.position st.machine.depth) op
      ⟨st.machine.past, announced false op st⟩ with
  | error e st'' =>
    rw [hrun] at hexecute
    cases hexecute
  | ok u st'' =>
    rw [hrun] at hexecute
    have hrun' : setting.execute (setting.callFrom fuel op.position st.machine.depth) op
        ⟨st.machine.past, st.store⟩ = .ok u st'' := hrun
    rw [hrun'] at hmoves
    cases hexecute
    rcases frames_moves hmoves h.isOpen (List.cons_ne_nil _ _) with hopen | ⟨hcode, hframes⟩
    · exact .inl ⟨hopen, hplaced, hsustained.2⟩
    · exact .inr ⟨op, hop, hcode, hframes, hrun'⟩

/-- **A run on a machine with one call comes to its end by the return of that call.** -/
theorem returns_of_runSteps (honest : Honest setting.natives talk)
    (hsited : setting.program.Sited site) {fuel n : Nat} {frame : Frame} {final : State}
    (hstart : start.machine.frames = [frame]) (hreturn : frame.returnTo = setting.program.size)
    (hbase : frame.base = 0) (hwant : frame.want = none)
    (hrun : setting.runSteps (setting.callFrom fuel) false n st = .ok true final)
    (hcontinues : setting.Continues (setting.callFrom fuel) start.machine.frames start st)
    (h : setting.InCall site frame st) :
    setting.Returns (setting.callFrom fuel) start final.machine.stack.reverse final ∧
      setting.halted final.machine = true := by
  have hhalted : ∀ {st}, setting.InCall site frame st → ¬ setting.halted st.machine = true :=
    fun h hhalted => absurd (of_decide_eq_true hhalted) (Nat.not_le.2 (h.lt_size hsited))
  -- By induction on the steps that are left, with the call being open as the invariant: the end of
  -- the program is not reached as long as it is, and the step that ends it is its return.
  induction n generalizing st with
  | zero =>
    rw [runSteps] at hrun
    exact absurd (EStateM.Result.ok.inj hrun).1 (hhalted h)
  | succ n ih =>
    cases hstep : setting.step (setting.callFrom fuel) false st with
    | error e st' =>
      simp only [runSteps, if_neg (hhalted h), hstep] at hrun
      cases hrun
    | ok u st' =>
      rw [runSteps_of_step (hhalted h) hstep] at hrun
      rcases h.step honest hsited hstep with h' | ⟨op, hop, hcode, hframes, hexecute⟩
      · exact ih hrun (hcontinues.tail ⟨hstep, hstart ▸ h'.isOpen⟩) h'
      · obtain ⟨hip, hstack⟩ := execute_ret_of_only (m := st.machine.past) hcode hframes hbase hwant
          hexecute
        have hend : setting.halted st'.machine = true :=
          decide_eq_true (Nat.le_of_eq (hip.trans hreturn).symm)
        rw [runSteps_of_halted n hend] at hrun
        cases hrun
        refine ⟨⟨st, op, hcontinues, hop, hcode, hframes.trans hstart.symm, ?_, hstep⟩, hend⟩
        rw [hstack, List.reverse_reverse]
        rfl

/-- The answer to a call of a script function into the engine comes from its return: the
function has run on a machine of its own, which its return has brought to the end of the
program, with nothing but the results on the stack. -/
def Answered (setting : Setting) (fuel depth entry : Nat) (captured : List ScopeRef)
    (args : List Value) (s : Store) (results : List Value) (s' : Store) : Prop :=
  ∃ final, setting.Returns (setting.callFrom fuel) (setting.opening depth entry captured args s)
    results final ∧ setting.halted final.machine = true ∧
    final.machine.stack = results.reverse ∧ final.store = s'

/-- **A call into the engine that has results has returned them.** -/
theorem answered_of_callFrom (honest : Honest setting.natives talk)
    (hsited : setting.program.Sited site) {fuel depth entry : Nat} {position : Position}
    {captured : List ScopeRef} {args results : List Value} {s' : Store}
    (hcallee : setting.program.pushes entry captured)
    (hargs : AllKnown setting.program.pushes args) (hs : s.Known setting.program.pushes)
    (h : setting.callFrom (fuel + 1) position depth (.function entry captured) args s =
      .ok results s') :
    setting.Answered fuel depth entry captured args s results s' := by
  rw [callFrom, callFunction_eq] at h
  dsimp only [invoke] at h
  split at h
  · next hinvoke =>
    split at hinvoke
    · cases h
    · cases hinvoke
  · next st hinvoke =>
    split at hinvoke
    · cases hinvoke
    · cases hinvoke
      have hopened := setting.inCall_opening hsited depth hcallee hargs hs
      split at h
      · cases h
      · next halted m s'' hrun =>
        split at h
        · next hhalted =>
          subst hhalted
          cases h
          obtain ⟨hreturns, hend⟩ :=
            returns_of_runSteps honest hsited rfl rfl rfl rfl hrun .refl hopened
          exact ⟨_, hreturns, hend, (List.reverse_reverse _).symm, rfl⟩
        · cases h

end Setting

/-! ### Interrupted programs -/

namespace Engine

/-- Where calls into an engine can be made: by the host, between instructions, and by native
functions that have come to a call, in the middle of an instruction. -/
inductive CallsFrom (e : Engine) (talk : Talk) (past : Set Activity) : Position → Nat → Store → Prop
  | host : CallsFrom e talk past e.position e.machine.depth e.store
  | native {start : Activity} {caller : Machine} {waiting : List Machine} {fuel : Nat}
      {position : Position} {depth : Nat} {callee : Value} {args : List Value} {s : Store}
      (hstart : e.Resumes past start)
      (h : e.setting.Happens talk start
        (.calling caller waiting fuel position depth callee args s)) :
      CallsFrom e talk past position depth s

/-- Calls into an engine do not disturb the programs that they interrupt.  A call by the host
changes nothing but the store.  A machine that has called a native function, whatever calls
that function makes and whatever these do, is afterwards where it was, but for the results of
the function in the place of its arguments; if the function has failed, there are none.  And
if a script function of the program that is called has results, then they are the values of
an instruction by which this very call has returned. -/
structure Undisturbed (e : Engine) (talk : Talk) (past : Set Activity) : Prop where
  host : ∀ fuel callee args, ∃ s, stateOf (call fuel callee args e) = { e with store := s }
  machine : ∀ {fuel : Nat} {trace : Bool} {st : State} {op : Op} {i : Invocation} {f : Native},
    e.setting.program.code[st.machine.ip]? = some op → st.machine.past.invocation? op = some i →
    i.callee = .native f →
    match e.setting.natives f.body (e.setting.callFrom fuel op.position st.machine.depth) i.args
        (Setting.announced trace op st) with
    | .ok results _ => ∃ s', e.setting.step (e.setting.callFrom fuel) trace st =
        .ok ()
          ⟨{ st.machine.past with stack := Stack.pushAll (adjustTo i.want results) i.rest }, s'⟩
    | .error err s => e.setting.step (e.setting.callFrom fuel) trace st =
        .error (err.located op.position) ⟨{ st.machine.past with stack := i.rest }, s⟩
  answered : ∀ {position : Position} {depth : Nat} {s : Store},
    e.CallsFrom talk past position depth s →
    ∀ {fuel entry : Nat} {captured : List ScopeRef} {args results : List Value} {s' : Store},
      e.setting.program.pushes entry captured → AllKnown e.setting.program.pushes args →
      e.setting.callFrom (fuel + 1) position depth (.function entry captured) args s =
        .ok results s' →
      e.setting.Answered fuel depth entry captured args s results s'

variable {e : Engine} {config : Config} {natives : Builtin → NativeBody} {talk : Talk}
  {store : Store} {past : Set Activity}

/-- Calls are made with functions of the program in the store. -/
theorem History.known_callsFrom (honest : Honest natives talk)
    (hstore : store.Known fun _ _ => False) (h : History config natives talk store e past)
    {position : Position} {depth : Nat} {s : Store} (hs : e.CallsFrom talk past position depth s) :
    s.Known e.setting.program.pushes := by
  cases hs with
  | host => exact (h.pushed honest hstore).store
  | native hstart hcalling => exact (h.known_happens honest hstore hstart hcalling).2.2

/-- **Calls into an engine leave the interrupted program alone.** -/
theorem undisturbed_of_history (honest : Honest natives talk)
    (hstore : store.Known fun _ _ => False) (h : History config natives talk store e past) :
    e.Undisturbed talk past where
  host fuel callee args := ⟨_, stateOf_call fuel callee args e⟩
  machine := by
    intro fuel trace st op i f hop hi hf
    rw [Setting.step_eq_execute hop, Setting.execute_of_invocation hi, Setting.invoke, hf]
    dsimp only
    cases e.setting.natives f.body (e.setting.callFrom fuel op.position st.machine.depth) i.args
        (Setting.announced trace op st) with
    | ok results s => exact ⟨_, rfl⟩
    | error err s => rfl
  answered := by
    intro position depth s hs fuel entry captured args results s' hcallee hargs hcall
    obtain ⟨site, hsited⟩ := h.exists_sited
    exact Setting.answered_of_callFrom (h.natives_eq ▸ honest) hsited hcallee hargs
      (h.known_callsFrom honest hstore hs) hcall

/-- What a call by a host gives it. -/
theorem of_call_ok {e' : Engine} {fuel : Nat} {callee : Value} {args results : List Value}
    (h : call fuel callee args e = .ok results e') :
    e.setting.callFrom fuel e.position e.machine.depth callee args e.store =
      .ok results e'.store := by
  obtain ⟨setting, machine, store, fault⟩ := e
  rw [call] at h
  dsimp only at h ⊢
  split at h
  · next hcall =>
    cases h
    exact hcall
  · cases h

/-- The results of a function without arguments that a host calls when it has loaded a text,
and whether the program pushes this function. -/
def loadAndCall (source : String) (entry : Nat) : Option (List Value × Bool) :=
  match load source (new .standard) with
  | .ok _ e =>
    match call 1 (.function entry []) [] e with
    | .ok results _ => some (results, e.setting.program.code.toList.any fun op =>
        op.code == .push && op.pushed == .function entry [])
    | .error _ _ => none
  | .error _ _ => none

/-- A function of a text, called by a host. -/
theorem undisturbed_of_history_call :
    ∃ (talk : Talk) (e e' : Engine), Honest (Library.run Host.function) talk ∧
      load "f = function() return 7 end" (new .standard) = .ok () e ∧ e.Undisturbed talk ∅ ∧
      call 1 (.function 0 []) [] e = .ok [.number (Number.ofNat 7)] e' ∧
      e.setting.Answered 0 e.machine.depth 0 [] [] e.store [.number (Number.ofNat 7)] e'.store := by
  obtain ⟨talk, honest⟩ := honest_run
  have hcalled : loadAndCall "f = function() return 7 end" 0 =
      some ([.number (Number.ofNat 7)], true) := by decide +kernel
  unfold loadAndCall at hcalled
  split at hcalled
  · next e hload =>
    split at hcalled
    · next results e' hcall =>
      obtain ⟨rfl, hany⟩ := Prod.mk.inj (Option.some.inj hcalled)
      have hpushes : e.setting.program.pushes 0 [] := by
        obtain ⟨op, hop, hpush⟩ := List.any_eq_true.1 hany
        obtain ⟨hcode, hpushed⟩ := Bool.and_eq_true_iff.1 hpush
        exact ⟨op, hop, beq_iff_eq.1 hcode, [], beq_iff_eq.1 hpushed⟩
      have hundisturbed : e.Undisturbed talk ∅ :=
        undisturbed_of_history honest (Library.known_install Store.known_empty)
          (History.load .new hload : History .standard _ talk _ e ∅)
      exact ⟨talk, e, e', honest, hload, hundisturbed, hcall,
        hundisturbed.answered .host hpushes .nil (of_call_ok hcall)⟩
    · cases hcalled
  · cases hcalled

end Engine

end ScriptEngine
