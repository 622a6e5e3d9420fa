import ScriptEngine.Proofs.Pieces.Runs
import ScriptEngine.Proofs.Pieces.Shapes
import ScriptEngine.Proofs.Safety.Brackets

/-!
# What a piece of code keeps

The stack, the marks and the scopes of a machine that has come to a verified piece of code are
still there at every instruction of the piece, below what its shape says.  The functions that are
called on the way are verified, too, so that their returns bring them back.

## Main definitions

* `CallsFrom`, `Machine.Above` — a machine in a call that was made in a piece of code.
* `Setting.KeepingIn`, `Setting.Keeping` — a machine that executes a piece of code over another
  machine, the piece being verified in a program that has it, or on its own.
* `Setting.Steady` — runs with functions of the program only, and with room on their stacks.

## Main results

* `Setting.keepingIn_step` — a step in a piece of code keeps the machine that has come to it, unless
  it is a return.
* `Setting.keepingIn_of_traverses` — so does a run, as long as it is inside.
* `Setting.cases_of_finishes` — a machine leaves the piece at its end, with a final shape, or by a
  return.
-/

namespace ScriptEngine

/-! ### Calls made in a piece -/

/-- The calls from one on that a caller makes, with the values and marks below the innermost of
them.  All but the first go on with verified code. -/
inductive CallsFrom (p : Program) (caller : Machine) (i : Invocation) :
    List Frame → List Value → List Nat → Prop
  | first : CallsFrom p caller i (Setting.savedFrame caller i :: caller.frames) i.rest caller.marks
  | call {frame : Frame} {frames : List Frame} {σ : Shape} {stack below : List Value}
      {marks lower : List Nat} (hrest : CallsFrom p caller i frames below lower)
      (hfits : σ.Fits below.length stack marks) (hbase : frame.base = (stack ++ below).length)
      (hmarks : frame.marks = (marks ++ lower).length) (hscopes : frame.scopes.length = σ.scopes)
      (hverified : p.Verified (fun _ => False) frame.returnTo
        (σ.push (Shape.received frame.want))) :
      CallsFrom p caller i (frame :: frames) (stack ++ below) (marks ++ lower)

/-- A machine executes verified code in a call that a caller has made, or in one inside of that. -/
structure Machine.Above (caller : Machine) (p : Program) (i : Invocation) (m : Machine) : Prop where
  verified : ∃ σ below lower, CallsFrom p caller i m.frames below lower ∧ m.Shaped σ below lower ∧
    p.Verified (fun _ => False) m.ip σ
  outerDepth : m.outerDepth = caller.outerDepth

theorem CallsFrom.exists_frame {p : Program} {caller : Machine} {i : Invocation}
    {frames : List Frame} {below : List Value} {lower : List Nat}
    (h : CallsFrom p caller i frames below lower) :
    ∃ frame rest, frames = frame :: rest ∧ frame.base = below.length ∧
      frame.marks = lower.length := by
  cases h with
  | first => exact ⟨_, _, rfl, rfl, rfl⟩
  | call _ _ hbase hmarks => exact ⟨_, _, rfl, hbase, hmarks⟩

theorem CallsFrom.suffix {p : Program} {caller : Machine} {i : Invocation}
    {frames : List Frame} {below : List Value} {lower : List Nat}
    (h : CallsFrom p caller i frames below lower) :
    Setting.savedFrame caller i :: caller.frames <:+ frames := by
  induction h with
  | first => exact List.suffix_refl _
  | call _ _ _ _ _ _ ih => exact ih.trans (List.suffix_cons _ _)

/-- The calls that were made in a piece are above the one that it runs in. -/
theorem Machine.Above.deeper {p : Program} {caller m : Machine} {i : Invocation}
    (h : caller.Above p i m) : caller.frames <:+ m.frames ∧ m.frames ≠ caller.frames := by
  obtain ⟨_, _, _, hcalls, -⟩ := h.verified
  have hsuffix := hcalls.suffix
  refine ⟨(List.suffix_cons _ _).trans hsuffix, fun heq => ?_⟩
  have hlength := hsuffix.length_le
  rw [heq, List.length_cons] at hlength
  omega

/-- The arguments of a call that has been entered, and their number. -/
theorem Machine.shaped_entered {m : Machine} {i : Invocation} {entry : Nat}
    {captured : List ScopeRef} {scope : ScopeRef}
    (hroom : (m.entered i entry captured scope).HasRoom) :
    (m.entered i entry captured scope).Shaped .entry i.rest m.marks := by
  have hlength : (Value.number (Number.ofNat i.args.length) :: (i.args.reverse ++ i.rest)).length <
      Number.mantissaBound := hroom
  have hcount : IsCount (.number (Number.ofNat i.args.length)) i.args.reverse.length := by
    rw [List.length_reverse]
    refine isCount_ofNat ?_
    simp only [List.length_cons, List.length_append, List.length_reverse] at hlength
    omega
  have htallied : Fits [.tallied] (.number (Number.ofNat i.args.length) :: i.args.reverse) :=
    fits_singleton.2 ⟨_, _, rfl, hcount⟩
  exact ⟨_, [], rfl, rfl, ⟨htallied, rfl⟩, rfl⟩

namespace Setting

variable {setting : Setting} {call : Position → Nat → Reentry} {trace : Bool} {m : Machine}
  {s : Store} {st st' : State} {op : Op} {σ : Shape} {below : List Value} {lower : List Nat}
  {targets : List (Nat × Shape)}

/-- What an instruction that makes a call calls, told from its shape. -/
theorem exists_invocation_of_flow {n : Nat} (hcall : op.code = .call ∨ op.code = .iterNext)
    (h : m.Shaped (σ.raised n) below lower) (hflow : op.flow m.ip σ = some targets) :
    ∃ (i : Invocation) (τ : Shape), m.past.invocation? op = some i ∧
      Machine.Shaped { m with stack := i.rest } (τ.raised n) below lower ∧
      targets = [(m.ip + 1, τ.push (Shape.received i.want))] := by
  rcases hcall with hcall | hiter
  · simp only [Op.flow, hcall] at hflow
    split at hflow
    · next top htop =>
      obtain rfl := Option.some.inj hflow
      have hσ : σ.raised n = ((Shape.mk top σ.rest σ.scopes).raised n).push [.ready] := by
        simp [Shape.push, Shape.raised, ← htop]
      rw [hσ] at h
      obtain ⟨vs, rest, hstack, hvs, hrest⟩ := Machine.shaped_push.1 h
      obtain ⟨c, callee, args, rfl, hc⟩ := fits_singleton.1 hvs
      exact ⟨_, ⟨top, σ.rest, σ.scopes⟩, Machine.invocation?_of_ready (m := m.past) hcall hstack hc,
        hrest, rfl⟩
    · cases hflow
  · simp only [Op.flow, hiter] at hflow
    split at hflow
    · next cells others htop hrest =>
      obtain rfl := Option.some.inj hflow
      obtain ⟨control, state, iterator, rest, hstack⟩ := shaped_iterator h htop hrest
      have hi : m.past.invocation? op = some ⟨iterator, [state, control], m.stack, none⟩ := by
        have hpast : m.past.stack = control :: state :: iterator :: rest := hstack
        simp only [Machine.invocation?, hiter, hpast, hstack]
      exact ⟨_, σ, hi, h, rfl⟩
    · cases hflow

/-- The instruction of a step. -/
theorem exists_execute_of_step (hop : setting.program.code[st.machine.ip]? = some op)
    (hstep : setting.step call trace st = .ok () st') :
    ∃ s', setting.execute (call op.position st.machine.depth) op
      ⟨st.machine.past, announced trace op st⟩ = .ok () ⟨st'.machine, s'⟩ := by
  rw [step_eq_execute hop] at hstep
  split at hstep
  · next st'' hrun =>
    cases hstep
    exact ⟨st''.store, hrun⟩
  · cases hstep

/-- What a call leaves that does not fail: the results of a native function, or a script function
that has been entered. -/
theorem cases_invoke {reenter : Reentry} {i : Invocation} {m' : Machine} {s' : Store}
    (h : setting.invoke reenter i m s = .ok () ⟨m', s'⟩) :
    (∃ results, m' = { m with stack := Stack.pushAll (adjustTo i.want results) i.rest }) ∨
      ∃ entry captured, i.callee = .function entry captured ∧
        m' = m.entered i entry captured s.newScope.1 := by
  unfold invoke at h
  split at h
  · split at h
    · cases h
      exact .inl ⟨_, rfl⟩
    · cases h
  · next entry captured hcallee =>
    split at h
    · cases h
    · cases h
      exact .inr ⟨entry, captured, hcallee, rfl⟩
  · cases h

/-- What an instruction leaves that makes no call and does not return. -/
theorem exists_target_of_execute {reenter : Reentry} (h : m.Shaped σ below lower)
    (hflow : op.flow m.ip σ = some targets) (hcall : ¬ (op.code = .call ∨ op.code = .iterNext))
    (hret : op.code ≠ .ret) (hrun : setting.execute reenter op ⟨m.past, s⟩ = .ok () st')
    (hroom : st'.machine.HasRoom) :
    ∃ t ∈ targets, st'.machine.ip = t.1 ∧ st'.machine.frames = m.frames ∧
      st'.machine.Shaped t.2 below lower := by
  obtain ⟨hcall, hiter⟩ := not_or.1 hcall
  have hstays : Stays targets below lower m (setting.execute reenter op ⟨m.past, s⟩) :=
    stays_execute h hflow hcall hiter hret
  rw [hrun] at hstays
  exact hstays hroom

/-- A script function is entered by a machine whose calls go on with verified code. -/
theorem above_entered {caller : Machine} {i i' : Invocation} {entry : Nat}
    {captured : List ScopeRef} {scope : ScopeRef}
    (hcalls : CallsFrom setting.program caller i m.frames below lower)
    (hrest : Machine.Shaped { m with stack := i'.rest } σ below lower)
    (hbehind : setting.program.Verified (fun _ => False) m.ip (σ.push (Shape.received i'.want)))
    (hcallee : setting.program.enters entry captured) (hdepth : m.outerDepth = caller.outerDepth)
    (hroom : (m.entered i' entry captured scope).HasRoom) :
    caller.Above setting.program i (m.entered i' entry captured scope) := by
  have hentered := Machine.shaped_entered hroom
  obtain ⟨stack, marks, hstack, hmarks, hfits, hscopes⟩ := hrest
  rw [show i'.rest = stack ++ below from hstack, show m.marks = marks ++ lower from hmarks]
    at hentered
  refine ⟨⟨.entry, _, _, ?_, hentered, hcallee⟩, hdepth⟩
  exact .call hcalls hfits (congrArg List.length hstack) (congrArg List.length hmarks) hscopes
    hbehind

/-- **A step in a call that was made in a piece of code** stays in such a call, or returns to the
caller with its results. -/
theorem above_step {caller : Machine} {i : Invocation}
    (h : caller.Above setting.program i st.machine)
    (hknown : AllKnown setting.program.enters st.machine.stack)
    (hstep : setting.step call trace st = .ok () st') (hroom : st'.machine.HasRoom) :
    caller.Above setting.program i st'.machine ∨
      ∃ op, setting.program.code[st.machine.ip]? = some op ∧ op.code = .ret ∧
        st.machine.frames = savedFrame caller i :: caller.frames ∧
        st'.machine = { caller with
          stack := Stack.pushAll (adjustTo i.want (op.results st.machine)) i.rest } := by
  obtain ⟨⟨σ, below, lower, hcalls, hshaped, hverified⟩, hdepth⟩ := h
  have hdepth' := (outerDepth_step hstep).trans hdepth
  cases hop : setting.program.code[st.machine.ip]? with
  | none => exact (hverified.at_end hop).2.elim
  | some op =>
    obtain ⟨targets, hflow, htargets⟩ := hverified.flow hop
    obtain ⟨s', hrun⟩ := exists_execute_of_step hop hstep
    by_cases hcall : op.code = .call ∨ op.code = .iterNext
    · obtain ⟨i', τ, hi, hrest, rfl⟩ := exists_invocation_of_flow (n := 0) hcall hshaped hflow
      have hbehind := htargets _ (List.mem_singleton_self _)
      rw [execute_of_invocation hi] at hrun
      rcases cases_invoke hrun with ⟨results, hst'⟩ | ⟨entry, captured, hf, hst'⟩
      · rw [hst'] at hdepth' ⊢
        exact .inl ⟨⟨_, below, lower, hcalls, hrest.pushed (fits_received i'.want results),
          hbehind⟩, hdepth'⟩
      · rw [hst'] at hroom ⊢
        obtain ⟨hcallee, -, -⟩ := known_invocation (m := st.machine.past) hi hknown
        rw [hf] at hcallee
        exact .inl (above_entered hcalls hrest hbehind hcallee hdepth hroom)
    · by_cases hret : op.code = .ret
      · obtain ⟨frame, rest, hframes, hbase, hmarks⟩ := hcalls.exists_frame
        rw [execute_ret_of_frame hbase hmarks hshaped hframes hret hflow] at hrun
        simp only [EStateM.Result.ok.injEq, State.mk.injEq, true_and] at hrun
        rw [← hrun.1] at hdepth' ⊢
        rw [hframes] at hcalls
        cases hcalls with
        | first =>
          refine .inr ⟨op, rfl, hret, hframes, ?_⟩
          simp only [savedFrame, Machine.mk.injEq, true_and]
          exact hdepth'
        | call hrest hfits hbase hmarks hscopes hverified =>
          refine .inl ⟨⟨_, _, _, hrest, ?_, hverified⟩, hdepth'⟩
          exact Machine.shaped_push.2 ⟨_, _, rfl, fits_received _ _, _, _, rfl, rfl, hfits, hscopes⟩
      · obtain ⟨t, ht, hip, hframes, hshaped'⟩ :=
          exists_target_of_execute hshaped hflow hcall hret hrun hroom
        refine .inl ⟨⟨t.2, below, lower, hframes ▸ hcalls, hshaped', ?_⟩, hdepth'⟩
        exact (show st'.machine.ip = t.1 from hip) ▸ htargets t ht

/-- **A return from a call to its caller** leaves the results of the call and no more. -/
theorem step_ret_of_above {caller : Machine} {i : Invocation}
    (h : caller.Above setting.program i st.machine)
    (hframes : st.machine.frames = savedFrame caller i :: caller.frames)
    (hop : setting.program.code[st.machine.ip]? = some op) (hret : op.code = .ret) :
    setting.step call false st = .ok () ⟨{ caller with
      stack := Stack.pushAll (adjustTo i.want (op.results st.machine)) i.rest }, st.store⟩ := by
  obtain ⟨⟨σ, below, lower, hcalls, hshaped, hverified⟩, hdepth⟩ := h
  obtain ⟨targets, hflow, -⟩ := hverified.flow hop
  obtain ⟨frame, rest, hopen, hbase, hmarks⟩ := hcalls.exists_frame
  rw [step_eq_execute hop, execute_ret_of_frame hbase hmarks hshaped hopen hret hflow]
  rw [hframes] at hopen hcalls
  obtain ⟨rfl, rfl⟩ := List.cons.inj hopen
  cases hcalls with
  | first =>
    simp only [savedFrame, EStateM.Result.ok.injEq, State.mk.injEq, Machine.mk.injEq, true_and]
    exact ⟨hdepth, rfl⟩
  | call hrest =>
    have hlength := hrest.suffix.length_le
    rw [List.length_cons] at hlength
    omega

/-! ### Machines in a piece -/

/-- A machine executes a piece of code, which is verified in the program `q`, over the machine `m₀`
that has come to it, or a call that was made there. -/
def KeepingIn (setting : Setting) (q : Program) (final : Shape → Prop) (m₀ m : Machine) : Prop :=
  (∃ σ, m₀.Over m σ ∧ q.Verified final m.ip σ) ∨
    ∃ (caller : Machine) (i : Invocation) (σ : Shape), caller.Above setting.program i m ∧
      m₀.Over { caller with stack := i.rest } σ ∧
      q.Verified final caller.ip (σ.push (Shape.received i.want))

/-- A machine executes a piece of code that is verified on its own over the machine `m₀` that has
come to it, or a call that was made there. -/
def Keeping (setting : Setting) (start stop : Nat) (final : Shape → Prop) (m₀ m : Machine) : Prop :=
  setting.KeepingIn (setting.program.cut start stop) final m₀ m

variable {m₀ m' : Machine} {q : Program} {start stop : Nat} {final : Shape → Prop}

/-- An instruction that makes no call and does not return keeps what a machine is over. -/
theorem over_of_execute {reenter : Reentry} {s' : Store} (h : m₀.Over m σ)
    (hflow : op.flow m.ip σ = some targets) (hcall : ¬ (op.code = .call ∨ op.code = .iterNext))
    (hret : op.code ≠ .ret) (hrun : setting.execute reenter op ⟨m.past, s⟩ = .ok () ⟨m', s'⟩)
    (hdepth : m'.outerDepth = m.outerDepth) (hroom : m'.HasRoom) :
    ∃ t ∈ targets, m'.ip = t.1 ∧ m₀.Over m' t.2 := by
  obtain ⟨_, hmem, hip, hframes, hshaped⟩ :=
    exists_target_of_execute h.shaped (Op.flow_raised _ hflow) hcall hret hrun hroom
  obtain ⟨t, ht, rfl⟩ := List.mem_map.1 hmem
  have hmoves : MovesTo setting op ⟨m.past, s⟩ (setting.execute reenter op ⟨m.past, s⟩) :=
    movesTo_execute
  rw [hrun] at hmoves
  have hscopes : m₀.scopes <:+ m'.scopes ∧ m'.captured = m.captured := by
    cases hmoves with
    | stay _ _ _ hcalls =>
      obtain ⟨hscopes, hcaptured, -⟩ := Machine.of_calls_eq hcalls
      exact ⟨hscopes ▸ h.scopes, hcaptured⟩
    | opened _ _ hcalls =>
      simp only [Machine.calls, Prod.mk.injEq] at hcalls
      exact ⟨hcalls.1 ▸ h.scopes.trans (List.suffix_cons _ _), hcalls.2.1⟩
    | closed hcode _ hcalls =>
      simp only [Machine.calls, Prod.mk.injEq] at hcalls
      -- A scope that is closed was opened above `m₀`.
      have hlength : m₀.scopes.length ≤ m.scopes.tail.length := by
        obtain ⟨-, -, -, -, -, hlength⟩ := h.shaped
        simp only [Op.flow, hcode] at hflow
        split at hflow
        · rw [List.length_tail, hlength, Shape.raised]
          dsimp only
          omega
        · cases hflow
      refine ⟨hcalls.1 ▸ List.suffix_of_suffix_length_le h.scopes (List.tail_suffix _) hlength,
        hcalls.2.1⟩
    | entered hi => exact absurd (code_of_invocation hi) hcall
    | left hcode => exact absurd hcode hret
    | ended hcode => exact absurd hcode hret
  exact ⟨t, ht, hip, hshaped, hscopes.1, hscopes.2.trans h.captured, hframes.trans h.frames,
    hdepth.trans h.outerDepth⟩

/-- **A step in a piece of code keeps the machine that has come to it**, unless it returns from
the call that the piece runs in. -/
theorem keepingIn_step
    (hq : ∀ ip, start ≤ ip → ip < stop → q.code[ip]? = setting.program.code[ip]?)
    (h : setting.KeepingIn q final m₀ st.machine)
    (hinside : Piece.Inside ⟨start, stop, m₀.frames⟩ st.machine)
    (hknown : AllKnown setting.program.enters st.machine.stack)
    (hstep : setting.step call trace st = .ok () st') (hroom : st'.machine.HasRoom) :
    setting.KeepingIn q final m₀ st'.machine ∨
      ∃ op, setting.program.code[st.machine.ip]? = some op ∧ op.code = .ret ∧
        st.machine.frames = m₀.frames := by
  rcases h with ⟨σ, hover, hverified⟩ | ⟨caller, i, σ, habove, hover, hverified⟩
  · obtain ⟨hstart, hstop⟩ := hinside.2 hover.frames
    have hdepth := outerDepth_step hstep
    cases hop : setting.program.code[st.machine.ip]? with
    | none =>
      rw [step_of_none hop] at hstep
      cases hstep
      exact .inl (.inl ⟨σ, hover, hverified⟩)
    | some op =>
      obtain ⟨targets, hflow, htargets⟩ := hverified.flow ((hq _ hstart hstop).trans hop)
      obtain ⟨s', hrun⟩ := exists_execute_of_step hop hstep
      by_cases hret : op.code = .ret
      · exact .inr ⟨op, rfl, hret, hover.frames⟩
      by_cases hcall : op.code = .call ∨ op.code = .iterNext
      · obtain ⟨i, τ, hi, hrest, rfl⟩ := exists_invocation_of_flow hcall hover.shaped hflow
        have hbehind := htargets _ (List.mem_singleton_self _)
        have hover' : m₀.Over { st.machine.past with stack := i.rest } τ :=
          ⟨hrest, hover.scopes, hover.captured, hover.frames, hover.outerDepth⟩
        rw [execute_of_invocation hi] at hrun
        rcases cases_invoke hrun with ⟨results, hst'⟩ | ⟨entry, captured, hf, hst'⟩
        · rw [hst']
          exact .inl (.inl ⟨_, hover'.pushed (fits_received i.want results), hbehind⟩)
        · rw [hst'] at hroom ⊢
          obtain ⟨hcallee, -, -⟩ := known_invocation (m := st.machine.past) hi hknown
          rw [hf] at hcallee
          refine .inl (.inr ⟨st.machine.past, i, τ, ⟨⟨.entry, i.rest, _, .first, ?_, hcallee⟩, rfl⟩,
            hover', hbehind⟩)
          exact Machine.shaped_entered hroom
      · obtain ⟨t, ht, hip, hover'⟩ := over_of_execute hover hflow hcall hret hrun hdepth hroom
        exact .inl (.inl ⟨t.2, hover', hip ▸ htargets t ht⟩)
  · rcases above_step habove hknown hstep hroom with habove | ⟨op, -, -, -, hst'⟩
    · exact .inl (.inr ⟨caller, i, σ, habove, hover, hverified⟩)
    · rw [hst']
      exact .inl (.inl ⟨_, hover.pushed (fits_received i.want _), hverified⟩)

/-- A machine that has come to a piece of code keeps what it has. -/
theorem keeping_start
    (hverified : (setting.program.cut start stop).Verified final start (m₀.under [] 0)) :
    setting.Keeping start stop final m₀ { m₀ with ip := start } :=
  .inl ⟨_, m₀.over_self start, hverified⟩

/-- **A machine leaves a piece of code at its end**, with a final shape. -/
theorem Keeping.of_not_inside (h : setting.Keeping start stop final m₀ m)
    (hout : ¬ Piece.Inside ⟨start, stop, m₀.frames⟩ m) (hle : start ≤ stop)
    (hstop : stop ≤ setting.program.size) : m.ip = stop ∧ ∃ σ, m₀.Over m σ ∧ final σ := by
  rcases h with ⟨σ, hover, hverified⟩ | ⟨caller, i, σ, habove, hover, -⟩
  · have hend : ¬ m.ip < stop := fun hlt =>
      hout ((Piece.inside_iff hover.frames).2 ⟨hverified.start_le, hlt⟩)
    obtain ⟨hip, hfinal⟩ := hverified.of_cut_end hle hstop hend
    exact ⟨hip, σ, hover, hfinal⟩
  · have hdeeper := habove.deeper
    rw [show caller.frames = m₀.frames from hover.frames] at hdeeper
    exact absurd ⟨hdeeper.1, fun heq => absurd heq hdeeper.2⟩ hout

/-- In the call of the machine that has come to a piece, what is above it is verified. -/
theorem KeepingIn.over (h : setting.KeepingIn q final m₀ m) (hframes : m.frames = m₀.frames) :
    ∃ σ, m₀.Over m σ ∧ q.Verified final m.ip σ := by
  rcases h with hover | ⟨caller, i, σ, habove, hover, -⟩
  · exact hover
  · exact absurd (hframes.trans hover.frames.symm) habove.deeper.2

/-- What an instruction that returns does to the calls that are open. -/
theorem Moves.of_ret (h : Moves setting op st st') (hret : op.code = .ret) :
    (∃ frame, st.machine.frames = frame :: st'.machine.frames) ∨
      (st.machine.frames = [] ∧ st'.machine.frames = [] ∧
        st'.machine.ip = setting.program.size) := by
  cases h with
  | stay _ _ hflow =>
    generalize st'.machine.ip = target at hflow
    cases hflow with
    | next _ hne => exact absurd hret hne
    | jump hjump => simp [hret, OpCode.isJump] at hjump
  | opened hcode => simp [hret] at hcode
  | closed hcode => simp [hret] at hcode
  | entered hi => rcases code_of_invocation hi with hcode | hcode <;> simp [hret] at hcode
  | @left _ _ frame frames _ hframes hcalls _ =>
    have hleft : st'.machine.frames = frames := congrArg (·.2.2) hcalls
    exact .inl ⟨frame, by rw [hframes, hleft]⟩
  | ended _ hframes hcalls hip => exact .inr ⟨hframes, congrArg (·.2.2) hcalls, hip⟩

/-- An instruction that returns from the call that a piece runs in leaves the piece. -/
theorem not_inside_of_ret {c : Piece} (hframes : st.machine.frames = c.frames)
    (hop : setting.program.code[st.machine.ip]? = some op) (hret : op.code = .ret)
    (hstep : setting.step call trace st = .ok () st') (hstop : c.stop ≤ setting.program.size) :
    ¬ c.Inside st'.machine := by
  obtain ⟨s', hrun⟩ := exists_execute_of_step hop hstep
  have hmoves : MovesTo setting op ⟨st.machine.past, announced trace op st⟩
      (.ok () ⟨st'.machine, s'⟩) := hrun ▸ movesTo_execute
  rintro ⟨hsuffix, hplace⟩
  rcases Moves.of_ret hmoves hret with ⟨frame, hleft⟩ | ⟨hnone, hnone', hip⟩
  · have hleft : c.frames = frame :: st'.machine.frames := hframes.symm.trans hleft
    have hlength := hsuffix.length_le
    rw [hleft, List.length_cons] at hlength
    omega
  · have hlt := (hplace (hnone'.trans (hnone.symm.trans hframes))).2
    have hip : st'.machine.ip = setting.program.size := hip
    omega

/-! ### Runs -/

/-- A run of a piece of code has functions of the program only, and its stacks have room. -/
structure Steady (setting : Setting) (call : Position → Nat → Reentry) (trace : Bool) (c : Piece)
    (st : State) : Prop where
  known : st.Known setting.program.enters
  room : ∀ st', setting.Traverses call trace c st st' → st'.machine.HasRoom

variable {talk : Talk} {c part : Piece} {fuel : Nat}

theorem Steady.of_part (h : setting.Steady call trace c st) (hpart : part.PartOf c) :
    setting.Steady call trace part st :=
  ⟨h.known, fun st' hrun => h.room st' (hrun.of_part hpart)⟩

theorem known_of_traverses (honest : Honest setting.natives talk) (hp : setting.program.Verifying)
    (h : setting.Traverses (setting.callFrom fuel) trace c st st')
    (hknown : st.Known setting.program.enters) : st'.Known setting.program.enters := by
  induction h with
  | refl => exact hknown
  | @tail st₁ _ _ hstep ih =>
    have hactive : Activity.Known (fun _ => setting.program.enters)
        (.running [] fuel trace st₁) := ih
    have hsustained := (sustains_enters hp).step honest hactive
    rw [hstep.2] at hsustained
    exact hsustained.2

/-- What is behind a part of a steady run. -/
theorem Steady.behind (honest : Honest setting.natives talk) (hp : setting.program.Verifying)
    (h : setting.Steady (setting.callFrom fuel) trace c st)
    (hrun : setting.Traverses (setting.callFrom fuel) trace c st st') :
    setting.Steady (setting.callFrom fuel) trace c st' :=
  ⟨known_of_traverses honest hp hrun h.known, fun st'' hrun' => h.room st'' (hrun.trans hrun')⟩

/-- **A run of a piece of code keeps the machine that has come to it**, as long as it is
inside. -/
theorem keepingIn_of_traverses (honest : Honest setting.natives talk)
    (hp : setting.program.Verifying) (hstop : stop ≤ setting.program.size)
    (hq : ∀ ip, start ≤ ip → ip < stop → q.code[ip]? = setting.program.code[ip]?)
    (hstart : setting.KeepingIn q final m₀ st.machine)
    (hsteady : setting.Steady (setting.callFrom fuel) trace ⟨start, stop, m₀.frames⟩ st)
    (h : setting.Traverses (setting.callFrom fuel) trace ⟨start, stop, m₀.frames⟩ st st')
    (hinside : Piece.Inside ⟨start, stop, m₀.frames⟩ st'.machine) :
    setting.KeepingIn q final m₀ st'.machine := by
  induction h with
  | refl => exact hstart
  | @tail st₁ st₂ hrun hstep ih =>
    have hknown := known_of_traverses honest hp hrun hsteady.known
    have hroom := hsteady.room _ (hrun.tail hstep)
    obtain ⟨hin, hstep⟩ := hstep
    rcases keepingIn_step hq (ih hin) hin hknown.1 hstep hroom with
      hkeeping | ⟨op, hop, hret, hframes⟩
    · exact hkeeping
    · exact absurd hinside (not_inside_of_ret hframes hop hret hstep hstop)

/-- So does a run of a piece that is verified on its own. -/
theorem keeping_of_traverses (honest : Honest setting.natives talk)
    (hp : setting.program.Verifying) (hstop : stop ≤ setting.program.size)
    (hstart : setting.Keeping start stop final m₀ st.machine)
    (hsteady : setting.Steady (setting.callFrom fuel) trace ⟨start, stop, m₀.frames⟩ st)
    (h : setting.Traverses (setting.callFrom fuel) trace ⟨start, stop, m₀.frames⟩ st st')
    (hinside : Piece.Inside ⟨start, stop, m₀.frames⟩ st'.machine) :
    setting.Keeping start stop final m₀ st'.machine :=
  keepingIn_of_traverses honest hp hstop (fun _ => Program.getElem?_cut) hstart hsteady h hinside

/-- **A run that leaves a piece of code has kept the machine that has come to it**, or it leaves by
a return from the call that the piece runs in. -/
theorem keepingIn_of_finishes (honest : Honest setting.natives talk)
    (hp : setting.program.Verifying) (hstop : stop ≤ setting.program.size)
    (hq : ∀ ip, start ≤ ip → ip < stop → q.code[ip]? = setting.program.code[ip]?)
    (hstart : setting.KeepingIn q final m₀ st.machine)
    (hsteady : setting.Steady (setting.callFrom fuel) trace ⟨start, stop, m₀.frames⟩ st)
    (h : setting.Finishes (setting.callFrom fuel) trace ⟨start, stop, m₀.frames⟩ st
      (.outside st')) :
    setting.KeepingIn q final m₀ st'.machine ∨
      ∃ st₁ op, st₁.machine.frames = m₀.frames ∧
        Piece.Inside ⟨start, stop, m₀.frames⟩ st₁.machine ∧
        setting.program.code[st₁.machine.ip]? = some op ∧ op.code = .ret ∧
        setting.step (setting.callFrom fuel) trace st₁ = .ok () st' := by
  have hrun := h.traverses
  rcases Relation.ReflTransGen.cases_tail hrun with heq | ⟨st₁, hrun₁, hin, hstep⟩
  · exact .inl (heq ▸ hstart)
  · have hkeeping := keepingIn_of_traverses honest hp hstop hq hstart hsteady hrun₁ hin
    have hknown := known_of_traverses honest hp hrun₁ hsteady.known
    rcases keepingIn_step hq hkeeping hin hknown.1 hstep (hsteady.room _ hrun) with
      hkeeping' | ⟨op, hop, hret, hframes⟩
    · exact .inl hkeeping'
    · exact .inr ⟨st₁, op, hframes, hin, hop, hret, hstep⟩

/-- **A run leaves a piece of code at its end**, with a final shape, or by a return from the call
that the piece runs in. -/
theorem cases_of_finishes (honest : Honest setting.natives talk) (hp : setting.program.Verifying)
    (hle : start ≤ stop) (hstop : stop ≤ setting.program.size)
    (hverified : (setting.program.cut start stop).Verified final start (m₀.under [] 0))
    (hsteady : setting.Steady (setting.callFrom fuel) trace ⟨start, stop, m₀.frames⟩
      ⟨{ m₀ with ip := start }, s⟩)
    (h : setting.Finishes (setting.callFrom fuel) trace ⟨start, stop, m₀.frames⟩
      ⟨{ m₀ with ip := start }, s⟩ (.outside st')) :
    (st'.machine.ip = stop ∧ ∃ σ, m₀.Over st'.machine σ ∧ final σ) ∨
      ∃ st₁ op, st₁.machine.frames = m₀.frames ∧
        Piece.Inside ⟨start, stop, m₀.frames⟩ st₁.machine ∧
        setting.program.code[st₁.machine.ip]? = some op ∧ op.code = .ret ∧
        setting.step (setting.callFrom fuel) trace st₁ = .ok () st' := by
  have hstart : setting.KeepingIn (setting.program.cut start stop) final m₀
      (State.mk { m₀ with ip := start } s).machine := keeping_start hverified
  rcases keepingIn_of_finishes honest hp hstop (fun _ => Program.getElem?_cut) hstart hsteady h with
    hkeeping | hret
  · exact .inl (Keeping.of_not_inside hkeeping h.not_inside hle hstop)
  · exact .inr hret

end Setting

end ScriptEngine
