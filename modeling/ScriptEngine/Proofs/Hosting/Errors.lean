import ScriptEngine.Proofs.Hosting.Slices
import ScriptEngine.Proofs.Linking.Origins
import ScriptEngine.Proofs.Reentry.Causes
import ScriptEngine.Proofs.Syntax.Positions

/-!
# Errors point into the text

A runtime error that a host gets from a run or a step carries the place of a token of the text that
was loaded.  The place has come a long way: from a token to the node of the tree that it is a token
of, through folding, to an instruction of a node, and from the instruction that failed in the
innermost run to the host.

## Main definitions

* `IsOrigin` — the places of the instructions of nodes.
* `Engine.Traceable` — the instructions of an engine, and the error that has stopped it, stem from
  nodes that there are.
* `Engine.PointsInto` — the way of the places from a text to the errors of an engine.

## Main results

* `Engine.Traceable.after`, `Engine.Traceable.foldl` — an engine stays traceable, whatever a host
  asks for.
* `Engine.pointsInto_of_load` — the errors of an engine point into the text that was loaded.
-/

namespace ScriptEngine

open Node

/-- The places of the instructions of nodes that there are. -/
def IsOrigin (M : Node → Prop) (p : Position) : Prop := ∃ n, M n ∧ ∃ code, (code, p) ∈ n.own

namespace Setting

variable {setting : Setting} {talk : Talk} {call : Position → Nat → Reentry} {trace : Bool}
  {op : Op} {st : State}

/-- An instruction that opens or closes a scope does not fail. -/
theorem exists_step_ok_of_bracket (hop : setting.program.code[st.machine.ip]? = some op)
    (hcode : op.code = .startBlock ∨ op.code = .endBlock) :
    ∃ st', setting.step call trace st = .ok () st' := by
  rw [step_eq_execute hop]
  split
  · exact ⟨_, rfl⟩
  · next hfails =>
    obtain ⟨hstart, hend⟩ := not_bracket_of_execute hfails
    exact (hcode.elim hstart hend).elim

/-- The place of an error is that of an instruction of the program, which stems from a node. -/
theorem RaisedAt.isOrigin {M : Node → Prop} {a : Activity} {c : Cause} {p : Position}
    (hcode : AllStem M setting.program.code.toList) (h : setting.RaisedAt a c p) :
    IsOrigin M p := by
  obtain ⟨-, op, hop, rfl, hstart, hend⟩ := h
  have hmem : op ∈ setting.program.code.toList := Array.mem_toList_iff.2 (Array.mem_of_getElem? hop)
  obtain ⟨n, hn, hown⟩ := ((hcode op hmem).resolve_left hstart).resolve_left hend
  exact ⟨n, hn, op.code, hown⟩

end Setting

namespace Engine

variable {e e' : Engine} {fuel n : Nat} {trace : Bool} {talk : Talk} {c : Cause} {p : Position}
  {M : Node → Prop}

/-! ### Failures of engines -/

/-- What an engine is like behind an instruction that has failed. -/
theorem of_advance_error {i : Interrupt} (h : advance fuel trace n e = .error i e') :
    e'.setting = e.setting ∧ (e'.fault = e.fault ∨ ∃ err, i = .error err ∧ e'.fault = some err) ∧
      ∃ st, e.setting.runSteps (e.setting.callFrom fuel) trace n e.state = .error i st := by
  obtain ⟨setting, machine, store, fault⟩ := e
  simp only [advance] at h
  cases hrun : setting.runSteps (setting.callFrom fuel) trace n ⟨machine, store⟩ with
  | ok halted st =>
    rw [hrun] at h
    cases h
  | error i' st =>
    rw [hrun] at h
    cases i' with
    | error err =>
      cases h
      exact ⟨rfl, .inr ⟨err, rfl, rfl⟩, st, hrun⟩
    | outOfFuel =>
      cases h
      exact ⟨rfl, .inl rfl, st, hrun⟩

/-- The engine in which the first instruction is executed when its program is made to go on. -/
def beginning (e : Engine) (a : Advance) : Engine := { e with store := a.store e }

/-- However a program is made to go on, instructions are executed; what is reported besides is that
a limit has been used up. -/
theorem perform_of_no_fault (hfault : e.fault = none) (fuel : Nat) (a : Advance) :
    (∃ halted e', advance fuel a.trace (a.limit e) (e.beginning a) = .ok halted e' ∧
      (a.perform fuel e = .ok () e' ∨
        ∃ limit, a.perform fuel e = .error (.error (.ranTooLong limit)) e')) ∨
    ∃ i e', advance fuel a.trace (a.limit e) (e.beginning a) = .error i e' ∧
      a.perform fuel e = .error i e' := by
  cases a with
  | step options =>
    have hstep : Engine.step fuel options e =
        EStateM.map (fun _ => ()) (advance fuel options.trace 1) e := by
      obtain ⟨setting, machine, store, fault⟩ := e
      obtain rfl : fault = none := hfault
      rfl
    rw [EStateM.map] at hstep
    cases hadvance : advance fuel options.trace 1 e with
    | ok halted e' =>
      exact .inl ⟨halted, e', hadvance, .inl (by rw [Advance.perform, hstep, hadvance])⟩
    | error i e' => exact .inr ⟨i, e', hadvance, by rw [Advance.perform, hstep, hadvance]⟩
  | run options =>
    have hrun : (Advance.run options).perform fuel e =
        EStateM.map (fun _ => ()) (Engine.run fuel options) e := rfl
    rw [EStateM.map, run_of_no_fault hfault] at hrun
    cases hadvance : advance fuel options.trace (Advance.limit e (.run options))
        { e with store := Advance.store e (.run options) } with
    | ok halted e' =>
      rw [hadvance] at hrun
      cases halted with
      | true => exact .inl ⟨true, e', hadvance, .inl hrun⟩
      | false => exact .inl ⟨false, e', hadvance, .inr ⟨_, hrun⟩⟩
    | error i e' =>
      rw [hadvance] at hrun
      exact .inr ⟨i, e', hadvance, hrun⟩
  | runForSteps steps options =>
    have hrun : (Advance.runForSteps steps options).perform fuel e =
        EStateM.map (fun _ => ()) (Engine.runForSteps fuel steps options) e := rfl
    rw [EStateM.map, runForSteps_eq_advance hfault] at hrun
    cases hadvance : advance fuel options.trace steps e with
    | ok halted e' =>
      rw [hadvance] at hrun
      exact .inl ⟨halted, e', hadvance, .inl hrun⟩
    | error i e' =>
      rw [hadvance] at hrun
      exact .inr ⟨i, e', hadvance, hrun⟩

/-- An error of an engine that nothing has stopped before is that of an instruction, and stops
it. -/
theorem of_perform_runtime (hfault : e.fault = none) {a : Advance}
    (h : a.perform fuel e = .error (.error (.runtime c p)) e') :
    ∃ st, e.setting.runSteps (e.setting.callFrom fuel) a.trace (a.limit e) (e.beginning a).state =
      .error (.error (.runtime c p)) st := by
  rcases perform_of_no_fault hfault fuel a with
    ⟨halted, e₁, -, hok | ⟨limit, hlimit⟩⟩ | ⟨i, e₁, hadvance, hperform⟩
  · rw [hok] at h
    cases h
  · rw [hlimit] at h
    cases h
  · rw [hperform] at h
    cases h
    exact (of_advance_error hadvance).2.2

/-- An engine that a fault has stopped reports nothing else. -/
theorem error_of_fault {err : Error} (h : e.fault = some err) {a : Advance} {i : Interrupt}
    (herror : a.perform fuel e = .error i e') : i = .error err := by
  cases a with
  | step options =>
    rw [Advance.perform, step_of_fault h] at herror
    cases herror
    rfl
  | run options =>
    change EStateM.map _ (Engine.run fuel options) e = _ at herror
    rw [EStateM.map, run_of_fault h] at herror
    cases herror
    rfl
  | runForSteps steps options =>
    change EStateM.map _ (Engine.runForSteps fuel steps options) e = _ at herror
    rw [EStateM.map] at herror
    cases steps with
    | zero => cases herror
    | succ n =>
      rw [runForSteps_of_fault h] at herror
      cases hhalted : e.halted with
      | true =>
        rw [hhalted] at herror
        cases herror
      | false =>
        rw [hhalted] at herror
        cases herror
        rfl

/-! ### Traceable engines -/

/-- The instructions of an engine, those apart that open or close scopes, and the error that has
stopped it, stem from nodes that there are. -/
structure Traceable (M : Node → Prop) (e : Engine) : Prop where
  natives : e.setting.natives = Library.run Host.function
  code : AllStem M e.setting.program.code.toList
  fault : ∀ {c p}, e.fault = some (.runtime c p) → IsOrigin M p

namespace Traceable

/-- **The innermost run names the place.**  An error of an engine that nothing has stopped before
has been raised in one of its steps, or in a call into the engine during that step, at the place of
the instruction that the innermost machine was executing. -/
theorem raised (h : e.Traceable M) (honest : Honest (Library.run Host.function) talk)
    (hfault : e.fault = none) {a : Advance}
    (herror : a.perform fuel e = .error (.error (.runtime c p)) e') :
    ∃ st, Relation.ReflTransGen
        (fun st st' => e.setting.step (e.setting.callFrom fuel) a.trace st = .ok () st')
        (e.beginning a).state st ∧
      ∃ activity, e.setting.Happens talk (.running [] fuel a.trace st) activity ∧
        e.setting.RaisedAt activity c p := by
  obtain ⟨final, hrun⟩ := of_perform_runtime hfault herror
  obtain ⟨st, hsteps, hstep⟩ := Setting.exists_step_of_runSteps hrun
  rw [← h.natives] at honest
  have candid : Candid e.setting.natives := h.natives ▸ candid_run
  exact ⟨st, hsteps, Setting.exists_raisedAt_of_step honest candid hstep⟩

/-- The errors of a traceable engine are at the places of instructions. -/
theorem error_place (h : e.Traceable M) {a : Advance}
    (herror : a.perform fuel e = .error (.error (.runtime c p)) e') : IsOrigin M p := by
  cases hfault : e.fault with
  | none =>
    obtain ⟨talk, honest⟩ := honest_run
    obtain ⟨st, -, activity, -, hraised⟩ := h.raised honest hfault herror
    exact hraised.isOrigin h.code
  | some err =>
    obtain rfl := Interrupt.error.inj (error_of_fault hfault herror)
    exact h.fault hfault

theorem perform (h : e.Traceable M) (a : Advance) : (stateOf (a.perform fuel e)).Traceable M := by
  cases hfault : e.fault with
  | some err => rwa [perform_of_fault hfault]
  | none =>
    -- Nothing but an error of an instruction is recorded as a fault, and that is reported as well.
    have herror {e' : Engine} (hset : e'.setting = e.setting)
        (hrecorded : ∀ {c p}, e'.fault = some (.runtime c p) →
          a.perform fuel e = .error (.error (.runtime c p)) e') : e'.Traceable M :=
      ⟨hset ▸ h.natives, hset ▸ h.code, fun hruntime => h.error_place (hrecorded hruntime)⟩
    rcases perform_of_no_fault hfault fuel a with
      ⟨halted, e', hadvance, hperform⟩ | ⟨i, e', hadvance, hperform⟩
    · obtain ⟨-, hsame, hset⟩ := of_advance_ok hadvance
      have hstate : stateOf (a.perform fuel e) = e' := by
        rcases hperform with hok | ⟨limit, hlimit⟩
        · rw [hok]
          rfl
        · rw [hlimit]
          rfl
      rw [hstate]
      refine herror hset fun hruntime => ?_
      rw [hsame] at hruntime
      cases hfault.symm.trans hruntime
    · obtain ⟨hset, hrecorded, -⟩ := of_advance_error hadvance
      have hstate : stateOf (a.perform fuel e) = e' := by
        rw [hperform]
        rfl
      rw [hstate]
      refine herror hset fun hruntime => ?_
      rcases hrecorded with hsame | ⟨err, rfl, hsome⟩
      · rw [hsame] at hruntime
        cases hfault.symm.trans hruntime
      · obtain rfl := Option.some.inj (hsome.symm.trans hruntime)
        exact hperform

/-- **An engine stays traceable**, whatever a host asks for. -/
theorem after (h : e.Traceable M) (r : Request) : (r.after e).Traceable M := by
  cases r with
  | advance fuel a => exact h.perform a
  | call fuel callee args =>
    rw [Request.after, stateOf_call]
    exact ⟨h.natives, h.code, h.fault⟩
  | define name key => exact ⟨h.natives, h.code, h.fault⟩
  | setGlobal name v => exact ⟨h.natives, h.code, h.fault⟩

theorem foldl (h : e.Traceable M) (requests : List Request) :
    (requests.foldl (fun e r => r.after e) e).Traceable M := by
  induction requests generalizing e with
  | nil => exact h
  | cons r rest ih => exact ih (h.after r)

end Traceable

/-! ### From texts to errors -/

/-- The tree that an engine compiles. -/
def compiled (e : Engine) (chunk : Chunk) : Chunk :=
  if e.setting.config.optimize then optimize chunk else chunk

/-- The way of the places from a text to the errors of an engine that it was loaded into.  Each node
of its tree is at the places of its own tokens, and folding makes up no places; every instruction is
one of those of a node of the tree that is compiled and at a place of this node, but for those that
open or close scopes, which do not fail.  Whatever a host asks for afterwards, short of loading
another text or starting over, an error that is reported for the first time has been raised in a
step of the program, or in a call into the engine during that step, at the place of the instruction
that the innermost machine was executing; and every error that is reported at all is at the place of
an instruction of a node, which is the place of a token. -/
structure PointsInto (e : Engine) (source : String) (chunk : Chunk) (talk : Talk) : Prop where
  parsed : parse source = .ok chunk
  tokens : (Node.chunk chunk).Signed (Token.OfText source)
  nodes : ∀ {p}, IsNodePlace chunk p → IsTokenPlace source p
  folding : ∀ {p}, IsNodePlace (optimize chunk) p → IsNodePlace chunk p
  instructions :
    AllStem (fun n => n.Within (Node.chunk (e.compiled chunk))) e.setting.program.code.toList
  own : ∀ {n : Node} {code : OpCode} {p : Position}, n.Within (Node.chunk (e.compiled chunk)) →
    (code, p) ∈ n.own → p ∈ n.places ∧ IsNodePlace (e.compiled chunk) p
  brackets : ∀ {fuel : Nat} {trace : Bool} {st : State} {op : Op},
    e.setting.program.code[st.machine.ip]? = some op → op.code = .startBlock ∨ op.code = .endBlock →
    ∃ st', e.setting.step (e.setting.callFrom fuel) trace st = .ok () st'
  raised : ∀ {requests : List Request} {later e' : Engine} {fuel : Nat} {a : Advance} {c : Cause}
    {p : Position}, requests.foldl (fun e r => r.after e) e = later → later.fault = none →
    a.perform fuel later = .error (.error (.runtime c p)) e' →
    ∃ st, Relation.ReflTransGen
        (fun st st' => later.setting.step (later.setting.callFrom fuel) a.trace st = .ok () st')
        (later.beginning a).state st ∧
      ∃ activity, later.setting.Happens talk (.running [] fuel a.trace st) activity ∧
        later.setting.RaisedAt activity c p
  errors : ∀ {requests : List Request} {later e' : Engine} {fuel : Nat} {a : Advance} {c : Cause}
    {p : Position}, requests.foldl (fun e r => r.after e) e = later →
    a.perform fuel later = .error (.error (.runtime c p)) e' →
    IsOrigin (fun n => n.Within (Node.chunk (e.compiled chunk))) p ∧ IsTokenPlace source p

/-- What an engine is like that a text has been loaded into, and nothing before. -/
theorem of_load_new {config : Config} {source : String} (h : load source (new config) = .ok () e) :
    ∃ chunk, parse source = .ok chunk ∧ e.setting.config = config ∧
      e.setting.program =
        (Program.empty.extend (if config.optimize then optimize chunk else chunk)).1 ∧
      e.setting.natives = Library.run Host.function ∧ e.fault = none := by
  rw [load] at h
  cases hparse : parse source with
  | error err =>
    rw [hparse] at h
    cases h
  | ok chunk =>
    rw [hparse] at h
    cases h
    exact ⟨chunk, rfl, rfl, rfl, rfl, rfl⟩

/-- The places of the tree that an engine compiles are places of the tree of the text. -/
theorem isNodePlace_of_compiled {chunk : Chunk} {p : Position}
    (h : IsNodePlace (e.compiled chunk) p) : IsNodePlace chunk p := by
  unfold compiled at h
  split at h
  · exact isNodePlace_of_optimize h
  · exact h

/-- **Runtime errors point into the text.** -/
theorem pointsInto_of_load {config : Config} {source : String}
    (h : load source (new config) = .ok () e) :
    ∃ chunk talk, Honest (Library.run Host.function) talk ∧ e.PointsInto source chunk talk := by
  obtain ⟨chunk, hparse, hconfig, hprogram, hnatives, hfault⟩ := of_load_new h
  obtain ⟨talk, honest⟩ := honest_run
  have hnodes : ∀ {p}, IsNodePlace chunk p → IsTokenPlace source p :=
    fun ⟨_, _, hoccurs, hp⟩ => (stands_of_parse hparse).of_occurs hoccurs _ hp
  have hcode : AllStem (fun n => n.Within (Node.chunk (e.compiled chunk)))
      e.setting.program.code.toList := by
    rw [hprogram, ← hconfig]
    exact Program.stems_extend .nil fun _ hn => hn
  have hown : ∀ {n : Node} {code : OpCode} {p : Position},
      n.Within (Node.chunk (e.compiled chunk)) → (code, p) ∈ n.own →
      p ∈ n.places ∧ IsNodePlace (e.compiled chunk) p := by
    intro n code p hn hp
    have hplace : p ∈ n.places := mem_places_of_mem_own hp
    exact ⟨hplace, stands_isNodePlace _ n hn p hplace⟩
  have htraceable : e.Traceable fun n => n.Within (Node.chunk (e.compiled chunk)) :=
    ⟨hnatives, hcode, fun hruntime => by cases hfault.symm.trans hruntime⟩
  refine ⟨chunk, talk, honest, hparse, signed_of_parse hparse, hnodes, isNodePlace_of_optimize,
    hcode, hown, Setting.exists_step_ok_of_bracket, ?_, ?_⟩
  · rintro requests _ e' fuel a c p rfl hnone herror
    exact (htraceable.foldl requests).raised honest hnone herror
  · rintro requests _ e' fuel a c p rfl herror
    have horigin := (htraceable.foldl requests).error_place herror
    -- The node need not be one of the text, but folding has put it at a place of one.
    obtain ⟨n, hn, code, hp⟩ := id horigin
    exact ⟨horigin, hnodes (isNodePlace_of_compiled (hown hn hp).2)⟩

/-- The runtime error of a program that is run when a text has been loaded and a request met. -/
def loadAndRun (source : String) (r : Request) (fuel : Nat) : Option (Cause × Position) :=
  match load source (new .standard) with
  | .ok _ e =>
    match (Advance.run .none).perform fuel (r.after e) with
    | .error (.error (.runtime c p)) _ => some (c, p)
    | _ => none
  | .error _ _ => none

/-- A function that a native function of the host calls fails.  The error is at the place of the
minus sign, and not at that of the call. -/
theorem pointsInto_of_load_apply :
    ∃ (e e' : Engine) (chunk : Chunk) (talk : Talk),
      load "apply(function() return -x end)" (new .standard) = .ok () e ∧
      e.PointsInto "apply(function() return -x end)" chunk talk ∧
      (Advance.run .none).perform 2 ((Request.define "apply" "apply").after e) =
        .error (.error (.runtime (.arithmetic .nil) ⟨1, 25⟩)) e' ∧
      IsTokenPlace "apply(function() return -x end)" ⟨1, 25⟩ := by
  have hrun : loadAndRun "apply(function() return -x end)" (.define "apply" "apply") 2 =
      some (.arithmetic .nil, ⟨1, 25⟩) := by decide +kernel
  unfold loadAndRun at hrun
  split at hrun
  · next e hload =>
    split at hrun
    · next c p e' herror =>
      obtain ⟨rfl, rfl⟩ := Prod.mk.inj (Option.some.inj hrun)
      obtain ⟨chunk, talk, -, hpoints⟩ := pointsInto_of_load hload
      have hlater : [Request.define "apply" "apply"].foldl (fun e r => r.after e) e =
          (Request.define "apply" "apply").after e := rfl
      exact ⟨e, e', chunk, talk, hload, hpoints, herror, (hpoints.errors hlater herror).2⟩
    · cases hrun
  · cases hrun

end Engine

end ScriptEngine
