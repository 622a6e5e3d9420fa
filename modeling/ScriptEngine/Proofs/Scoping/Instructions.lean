import ScriptEngine.Proofs.Scoping.Blocks
import ScriptEngine.Proofs.Scoping.Parts

/-!
# What instructions do to scopes

An instruction opens a scope, closes one, enters a function, leaves one, or changes no
scopes of calls.  It declares or changes a variable in one scope, which is in reach, and
looks at no scopes that are not.

## Main definitions

* `Setting.Moves` — what an instruction does to the scopes of calls.
* `Op.Writes` — an instruction declares or changes a variable in a scope.

## Main results

* `Setting.movesTo_execute` — every instruction does one of these; one that fails changes
  no scopes of calls.
* `Setting.scopes_execute` — it opens a scope or changes a variable, if it changes scopes
  at all.
* `Setting.execute_withScope` — whatever is in a scope out of reach, it does the same.
-/

namespace ScriptEngine

open Exec

/-- An instruction declares a variable in a scope, or finds and changes it there. -/
def Op.Writes (op : Op) (m : Machine) (s : Store) (ref : ScopeRef) (name : String) : Prop :=
  op.name = name ∧ ((op.code = .store ∧ findScope s name (reach m) = some ref) ∨
    (op.code = .makeLocal ∧ m.scopes.head? = some ref))

theorem Op.Writes.mem_reach {op : Op} {m : Machine} {s : Store} {ref : ScopeRef} {name : String}
    (h : op.Writes m s ref name) : ref ∈ reach m := by
  rcases h.2 with ⟨-, hfound⟩ | ⟨-, hhead⟩
  · exact findScope_mem hfound
  · exact List.mem_append_left _ (List.mem_of_mem_head? hhead)

namespace Setting

variable {setting : Setting} {reenter : Reentry} {op : Op} {m : Machine} {s : Store}

/-! ### Single instructions -/

theorem execute_store (hcode : op.code = .store) :
    setting.execute reenter op ⟨m, s⟩ =
      match m.stack with
      | [] => .error (.cause (.machine .stackUnderflow)) ⟨m, s⟩
      | v :: rest => .ok () ⟨{ m with stack := rest }, assign m op.name v s⟩ := by
  simp only [execute, hcode, bind, EStateM.bind, Exec.pop]
  cases m.stack <;> rfl

theorem execute_makeLocal (hcode : op.code = .makeLocal) :
    setting.execute reenter op ⟨m, s⟩ =
      match m.scopes with
      | [] => .error (.cause (.machine (.noScope op.name))) ⟨m, s⟩
      | scope :: _ => .ok () ⟨m, s.declare scope op.name .nil⟩ := by
  simp only [execute, hcode, bind, EStateM.bind, Exec.machine]
  cases m.scopes <;> rfl

theorem execute_startBlock (hcode : op.code = .startBlock) :
    setting.execute reenter op ⟨m, s⟩ =
      .ok () ⟨{ m with scopes := s.newScope.1 :: m.scopes }, s.newScope.2⟩ := by
  simp only [execute, hcode]
  rfl

theorem execute_endBlock (hcode : op.code = .endBlock) :
    setting.execute reenter op ⟨m, s⟩ = .ok () ⟨{ m with scopes := m.scopes.tail }, s⟩ := by
  simp only [execute, hcode]
  rfl

theorem execute_jump (hcode : op.code = .jump) :
    setting.execute reenter op ⟨m, s⟩ =
      if (m.ip : Int) + op.offset < 0 then .error (.cause (.machine .jumpOutside)) ⟨m, s⟩
      else .ok () ⟨{ m with ip := ((m.ip : Int) + op.offset).toNat }, s⟩ := by
  simp only [execute, hcode, jump, bind, EStateM.bind, Exec.machine]
  split <;> rfl

/-- What a call leaves, before it is left. -/
def returning (op : Op) : Exec (List Value) := do
  match op.count? with
  | some count => do
    require count
    let stack := (← machine).stack
    modifyStack (·.drop count)
    pure (stack.take count).reverse
  | none => do
    let mark ← popMark
    let stack := (← machine).stack
    modifyStack (Stack.cutTo mark)
    pure (Stack.above mark stack)

theorem still_returning (op : Op) : Still none (returning op) := by
  unfold returning
  cases op.count? with
  | some n =>
    exact (Still.require n).bind fun _ => Still.machine.bind fun _ =>
      (Still.modifyStack _).bind fun _ => .pure _
  | none =>
    exact Still.popMark.bind fun _ => Still.machine.bind fun _ =>
      (Still.modifyStack _).bind fun _ => .pure _

/-- An instruction that returns. -/
theorem execute_ret (hcode : op.code = .ret) :
    setting.execute reenter op = returning op >>= setting.leaveFunction := by
  simp only [execute, hcode, returning]
  cases op.count? <;> simp only [bind_assoc, pure_bind]

/-- A call that is made by an instruction. -/
theorem code_of_invocation {i : Invocation} (h : m.invocation? op = some i) :
    op.code = .call ∨ op.code = .iterNext := by
  unfold Machine.invocation? at h
  split at h
  · next hcode _ => exact .inl hcode
  · next hcode _ => exact .inr hcode
  · cases h

/-! ### The scopes of calls -/

/-- What an instruction does to the scopes of calls.  The machine is behind it. -/
inductive Moves (setting : Setting) (op : Op) : State → State → Prop
  | stay {st st' : State} (hstart : op.code ≠ .startBlock) (hend : op.code ≠ .endBlock)
      (hflow : op.Flows st.machine.ip st'.machine.ip)
      (h : st'.machine.calls = st.machine.calls) : Moves setting op st st'
  | opened {m m' : Machine} {s : Store} (hcode : op.code = .startBlock) (hip : m'.ip = m.ip)
      (h : m'.calls = (s.newScope.1 :: m.scopes, m.captured, m.frames)) :
      Moves setting op ⟨m, s⟩ ⟨m', s.newScope.2⟩
  | closed {st st' : State} (hcode : op.code = .endBlock)
      (hip : st'.machine.ip = st.machine.ip)
      (h : st'.machine.calls =
        (st.machine.scopes.tail, st.machine.captured, st.machine.frames)) : Moves setting op st st'
  | entered {m : Machine} {s : Store} {i : Invocation} {entry : Nat} {captured : List ScopeRef}
      (hi : m.invocation? op = some i) (hcallee : i.callee = .function entry captured) :
      Moves setting op ⟨m, s⟩ ⟨m.entered i entry captured s.newScope.1, s.newScope.2⟩
  | left {st st' : State} {frame : Frame} {frames : List Frame} (hcode : op.code = .ret)
      (hframes : st.machine.frames = frame :: frames)
      (h : st'.machine.calls = (frame.scopes, frame.captured, frames))
      (hip : st'.machine.ip = frame.returnTo) : Moves setting op st st'
  | ended {st st' : State} (hcode : op.code = .ret) (hframes : st.machine.frames = [])
      (h : st'.machine.calls = ([setting.root], [], []))
      (hip : st'.machine.ip = setting.program.size) : Moves setting op st st'

/-- What an instruction leaves: it has moved, or failed and changed no scopes of calls. -/
def MovesTo (setting : Setting) (op : Op) (st : State) : EStateM.Result Failure State Unit → Prop
  | .ok _ st' => Moves setting op st st'
  | .error _ st' => st'.machine.calls = st.machine.calls

theorem movesTo_invoke {i : Invocation} (hi : m.invocation? op = some i) :
    MovesTo setting op ⟨m, s⟩ (setting.invoke reenter i m s) := by
  have hstay {m' : Machine} {s' : Store} (hip : m'.ip = m.ip) (hcalls : m'.calls = m.calls) :
      Moves setting op ⟨m, s⟩ ⟨m', s'⟩ := by
    have hflow : op.Flows m.ip m'.ip := by
      rw [hip]
      rcases code_of_invocation hi with hcode | hcode <;>
        exact .next (by simp [hcode]) (by simp [hcode]) (by simp [hcode])
    rcases code_of_invocation hi with hcode | hcode <;>
      exact .stay (by simp [hcode]) (by simp [hcode]) hflow hcalls
  unfold invoke
  split
  · split
    · exact hstay rfl rfl
    · rfl
  · next entry captured hcallee =>
    split
    · rfl
    · exact .entered hi hcallee
  · rfl

theorem movesTo_ret (hcode : op.code = .ret) :
    MovesTo setting op ⟨m, s⟩ (setting.execute reenter op ⟨m, s⟩) := by
  have hstill := (still_returning op).alike ⟨m, s⟩
  rw [execute_ret hcode]
  change MovesTo setting op ⟨m, s⟩ (EStateM.bind (returning op) setting.leaveFunction ⟨m, s⟩)
  rw [EStateM.bind]
  cases hrun : returning op ⟨m, s⟩ with
  | error e st =>
    rw [hrun] at hstill
    exact hstill.calls
  | ok results st =>
    rw [hrun] at hstill
    obtain ⟨-, -, hframes⟩ := Machine.of_calls_eq hstill.calls
    have hframes' : st.machine.frames = m.frames := hframes
    simp only [leaveFunction, Exec.modifyMachine, hframes']
    cases hopen : m.frames with
    | nil => exact .ended hcode hopen rfl rfl
    | cons frame frames => exact .left hcode hopen rfl rfl

/-- An instruction that changes no scopes of calls. -/
theorem movesTo_of_still {distance : Option Int} {st : State} (hstart : op.code ≠ .startBlock)
    (hend : op.code ≠ .endBlock) (hjump : op.code ≠ .jump) (hret : op.code ≠ .ret)
    (hleave : op.code ≠ .leave)
    (hdistance : ∀ d, distance = some d → op.code.isJump ∧ d = op.offset)
    {r : EStateM.Result Failure State Unit} (h : st.Alike distance (stateOf r)) :
    MovesTo setting op st r := by
  cases r with
  | error e st' => exact h.calls
  | ok u st' =>
    refine .stay hstart hend ?_ h.calls
    rcases h.ip with hip | ⟨d, hd, hip⟩
    · have hip' : st'.machine.ip = st.machine.ip := hip
      rw [hip']
      exact .next hjump hret hleave
    · obtain ⟨hcode, rfl⟩ := hdistance d hd
      exact .jump hcode hip

/-- **What instructions do to the scopes of calls.** -/
theorem movesTo_execute : MovesTo setting op ⟨m, s⟩ (setting.execute reenter op ⟨m, s⟩) := by
  by_cases hcall : op.code = .call ∨ op.code = .iterNext
  · cases hi : m.invocation? op with
    | none =>
      obtain ⟨e, stack, hrun⟩ := setting.execute_of_no_invocation hcall hi
      rw [hrun]
      exact rfl
    | some i =>
      rw [execute_of_invocation hi]
      exact movesTo_invoke hi
  cases hcode : op.code with
  | call => exact absurd (.inl hcode) hcall
  | iterNext => exact absurd (.inr hcode) hcall
  | ret => exact movesTo_ret hcode
  | startBlock =>
    rw [execute_startBlock hcode]
    exact .opened hcode rfl rfl
  | endBlock =>
    rw [execute_endBlock hcode]
    exact .closed hcode rfl rfl
  | store =>
    rw [execute_store hcode]
    have hflow : op.Flows m.ip m.ip := .next (by simp [hcode]) (by simp [hcode]) (by simp [hcode])
    cases m.stack with
    | nil => exact rfl
    | cons v rest => exact .stay (by simp [hcode]) (by simp [hcode]) hflow rfl
  | makeLocal =>
    rw [execute_makeLocal hcode]
    have hflow : op.Flows m.ip m.ip := .next (by simp [hcode]) (by simp [hcode]) (by simp [hcode])
    cases m.scopes with
    | nil => exact rfl
    | cons scope rest => exact .stay (by simp [hcode]) (by simp [hcode]) hflow rfl
  | jump =>
    rw [execute_jump hcode]
    split
    · exact rfl
    · next htarget =>
      refine .stay (by simp [hcode]) (by simp [hcode]) (.jump (by simp [hcode, OpCode.isJump]) ?_)
        rfl
      exact Int.toNat_of_nonneg (Int.not_lt.1 htarget)
  | leave =>
    simp only [execute, hcode]
    exact rfl
  | _ =>
    have hstill : Still _ (setting.execute reenter op) :=
      still_execute (by simp [hcode]) (by simp [hcode]) (by simp [hcode]) (by simp [hcode])
        (by simp [hcode]) (by simp [hcode]) (by simp [hcode])
    refine movesTo_of_still (by simp [hcode]) (by simp [hcode]) (by simp [hcode]) (by simp [hcode])
      (by simp [hcode]) (fun d hd => ?_) (hstill.alike ⟨m, s⟩)
    split at hd
    · next hjump => exact ⟨hjump, (Option.some.inj hd).symm⟩
    · cases hd

/-! ### Scopes -/

/-- What becomes of scopes: nothing, a scope is opened, or a variable is written. -/
def Touches (op : Op) (m : Machine) (s : Store) (scopes : Array Bindings) : Prop :=
  scopes = s.scopes ∨ scopes = s.newScope.2.scopes ∨
    ∃ ref name v, op.Writes m s ref name ∧ scopes = (s.declare ref name v).scopes

/-- **What instructions do to scopes**, those that call native functions apart. -/
theorem scopes_execute (hnative : ∀ i f, m.invocation? op = some i → i.callee ≠ .native f) :
    Touches op m s (stateOf (setting.execute reenter op ⟨m, s⟩)).store.scopes := by
  by_cases hcall : op.code = .call ∨ op.code = .iterNext
  · cases hi : m.invocation? op with
    | none =>
      obtain ⟨e, stack, hrun⟩ := setting.execute_of_no_invocation hcall hi
      rw [hrun]
      exact .inl rfl
    | some i =>
      rw [execute_of_invocation hi, invoke]
      cases hcallee : i.callee with
      | native f => exact absurd hcallee (hnative i f hi)
      | function entry captured =>
        dsimp only
        split
        · exact .inl rfl
        · exact .inr (.inl rfl)
      | _ => exact .inl rfl
  cases hcode : op.code with
  | call => exact absurd (.inl hcode) hcall
  | iterNext => exact absurd (.inr hcode) hcall
  | ret =>
    have hstill := (still_returning op).alike ⟨m, s⟩
    rw [execute_ret hcode]
    change Touches op m s
      (stateOf (EStateM.bind (returning op) setting.leaveFunction ⟨m, s⟩)).store.scopes
    rw [EStateM.bind]
    cases hrun : returning op ⟨m, s⟩ with
    | error e st =>
      rw [hrun] at hstill
      exact .inl hstill.scopes
    | ok results st =>
      rw [hrun] at hstill
      exact .inl hstill.scopes
  | startBlock =>
    rw [execute_startBlock hcode]
    exact .inr (.inl rfl)
  | endBlock =>
    rw [execute_endBlock hcode]
    exact .inl rfl
  | store =>
    rw [execute_store hcode]
    cases m.stack with
    | nil => exact .inl rfl
    | cons v rest =>
      simp only [stateOf, assign]
      cases hfound : findScope s op.name (reach m) with
      | some ref => exact .inr (.inr ⟨ref, op.name, v, ⟨rfl, .inl ⟨hcode, hfound⟩⟩, rfl⟩)
      | none =>
        dsimp only
        split <;> exact .inl rfl
  | makeLocal =>
    rw [execute_makeLocal hcode]
    cases hscopes : m.scopes with
    | nil => exact .inl rfl
    | cons scope rest =>
      exact .inr (.inr ⟨scope, op.name, .nil, ⟨rfl, .inr ⟨hcode, by rw [hscopes]; rfl⟩⟩, rfl⟩)
  | _ =>
    have hstill : Still _ (setting.execute reenter op) :=
      still_execute (by simp [hcode]) (by simp [hcode]) (by simp [hcode]) (by simp [hcode])
        (by simp [hcode]) (by simp [hcode]) (by simp [hcode])
    exact .inl (hstill.alike ⟨m, s⟩).scopes

/-- **An instruction does not look at scopes out of reach, and leaves them alone**, unless
it calls a native function. -/
theorem execute_withScope (hnative : ∀ i f, m.invocation? op = some i → i.callee ≠ .native f)
    {ref : ScopeRef} (b : Bindings) (href : ref ∉ reach m) (hsize : ref.index < s.scopes.size) :
    setting.execute reenter op ⟨m, s.withScope ref b⟩ =
      mapState (State.withScope ref b) (setting.execute reenter op ⟨m, s⟩) := by
  by_cases hcall : op.code = .call ∨ op.code = .iterNext
  · cases hi : m.invocation? op with
    | none =>
      obtain ⟨e, stack, hrun⟩ := setting.execute_of_no_invocation hcall hi
      rw [hrun, hrun]
      rfl
    | some i =>
      rw [execute_of_invocation hi, execute_of_invocation hi, invoke, invoke]
      cases hcallee : i.callee with
      | native f => exact absurd hcallee (hnative i f hi)
      | function entry captured =>
        dsimp only
        split
        · rfl
        · rw [newScope_withScope hsize]
          rfl
      | _ => rfl
  cases hcode : op.code with
  | call => exact absurd (.inl hcode) hcall
  | iterNext => exact absurd (.inr hcode) hcall
  | ret =>
    rw [execute_ret hcode]
    change EStateM.bind (returning op) setting.leaveFunction _ =
      mapState _ (EStateM.bind (returning op) setting.leaveFunction ⟨m, s⟩)
    have hblind := (still_returning op).blind ⟨m, s⟩ ref b href
    rw [State.withScope] at hblind
    rw [EStateM.bind, EStateM.bind, hblind]
    cases returning op ⟨m, s⟩ <;> rfl
  | startBlock =>
    rw [execute_startBlock hcode, execute_startBlock hcode, newScope_withScope hsize]
    rfl
  | endBlock =>
    rw [execute_endBlock hcode, execute_endBlock hcode]
    rfl
  | store =>
    rw [execute_store hcode, execute_store hcode]
    cases m.stack with
    | nil => rfl
    | cons v rest =>
      simp only [assign_withScope op.name v href]
      rfl
  | makeLocal =>
    rw [execute_makeLocal hcode, execute_makeLocal hcode]
    cases hscopes : m.scopes with
    | nil => rfl
    | cons scope rest =>
      have hne : scope ≠ ref := by
        rintro rfl
        exact href (List.mem_append_left _ (hscopes ▸ List.mem_cons_self))
      simp only [declare_withScope hne]
      rfl
  | _ =>
    have hstill : Still _ (setting.execute reenter op) :=
      still_execute (by simp [hcode]) (by simp [hcode]) (by simp [hcode]) (by simp [hcode])
        (by simp [hcode]) (by simp [hcode]) (by simp [hcode])
    exact hstill.blind ⟨m, s⟩ ref b href

end Setting

end ScriptEngine
