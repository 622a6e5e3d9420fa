import ScriptEngine.Proofs.Safety.Brackets
import ScriptEngine.Proofs.Scoping.Closures
import ScriptEngine.Proofs.Scoping.Passes

/-!
# Closures see their lexical chains

Every call, whether it is active or waits, sees the variables of the scopes that it has opened,
then those of the scopes that were in reach where its function was pushed, and then the global
ones.  Scopes are shared and not copied, so that what is written through one chain is seen
through all others that lead to the same scope.  Every block that is entered, every pass of a
loop and every call has a scope of its own; when a block ends, nothing has its scope in reach
any more but the closures that were pushed inside of it.

## Main definitions

* `Setting.Visible` — which variables an instruction reads and writes.
* `Setting.Opening` — which scopes are opened.
* `Setting.Closing` — what becomes of a scope when its block ends.
* `Engine.Lexical` — the calls of an engine see their lexical chains.

## Main results

* `Engine.lexical_of_history` — all calls of engines see their lexical chains.
-/

namespace ScriptEngine

open Exec

/-! ### Variables -/

/-- The scope in which a call finds a variable: among those that it has opened, innermost first,
and then among those that it has captured. -/
def Activation.finds (x : Activation) (s : Store) (name : String) : Option ScopeRef :=
  (x.scopes ++ x.captured).find? fun ref => (s.scope ref).contains name

/-- The value that a call sees of a variable: that in the scopes that it has opened, innermost
first, then that in the scopes that it has captured, and then the global one. -/
def Activation.sees (x : Activation) (s : Store) (name : String) : Value :=
  (((x.scopes ++ x.captured).findSome? fun ref => (s.scope ref).get? name).or
    (s.globals.get? name)).getD .nil

theorem findScope_eq_finds (m : Machine) (s : Store) (name : String) :
    findScope s name (reach m) = m.activation.finds s name := by
  rw [Activation.finds, reach]
  change findScope s name (m.activation.scopes ++ m.activation.captured) = _
  generalize m.activation.scopes ++ m.activation.captured = refs
  induction refs with
  | nil => rfl
  | cons ref rest ih =>
    rw [findScope, List.find?_cons, ih]
    cases (s.scope ref).contains name <;> rfl

/-- A call finds the value that it sees. -/
theorem Activation.valueIn_of_finds {x : Activation} {s : Store} {name : String} {ref : ScopeRef}
    (h : x.finds s name = some ref) : valueIn s.scopes ref name = some (x.sees s name) := by
  have hcontains : (s.scope ref).contains name = true :=
    List.find?_some (p := fun ref => (s.scope ref).contains name) h
  obtain ⟨v, hv⟩ := Option.isSome_iff_exists.1 hcontains
  have hlookup : lookup ⟨0, [], x.scopes, x.captured, [], [], 0⟩ s name = v :=
    lookup_of_findScope ((findScope_eq_finds _ s name).trans h) hv
  rw [lookup_eq] at hlookup
  exact hv.trans (congrArg some hlookup.symm)

theorem Evolves.imp {W W' : ScopeRef → String → Prop} {before after : Array Bindings}
    (h : Evolves W before after) (hW : ∀ ref name, W ref name → W' ref name) :
    Evolves W' before after :=
  ⟨h.size, fun ref name href => (h.value ref name href).imp_right (hW ref name)⟩

namespace Setting

variable {setting : Setting} {talk : Talk} {site : Nat → Option Site} {past : Set Activity}
  {stopped : Machine → Prop} {waiting : List Machine} {fuel : Nat} {trace : Bool} {st st' : State}
  {op : Op}

theorem execute_load (reenter : Reentry) (hcode : op.code = .load) (m : Machine) (s : Store) :
    setting.execute reenter op ⟨m, s⟩ =
      .ok () ⟨{ m with stack := lookup m s op.name :: m.stack }, s⟩ := by
  simp only [execute, hcode]
  rfl

/-- Which variables instructions read and write.  A call that loads a variable looks for it in
the scopes that it has opened, innermost first, in those that it has captured, and among the
global variables; one that stores to a variable looks for it in the same way, and changes it
where it is.  No instruction reads a scope that is out of reach.  In the course of a step, no
variable is changed but by calls that have its scope in reach, and all calls that find it there
see what has been written. -/
structure Visible (setting : Setting) (talk : Talk) (waiting : List Machine) (fuel : Nat)
    (trace : Bool) (st : State) : Prop where
  loads : ∀ {op : Op}, op.code = .load → ∀ (reenter : Reentry) (m : Machine) (s : Store),
    setting.execute reenter op ⟨m, s⟩ =
      .ok () ⟨{ m with stack := m.activation.sees s op.name :: m.stack }, s⟩
  stores : ∀ {op : Op}, op.code = .store → ∀ (reenter : Reentry) (m : Machine) (s : Store)
    {v : Value} {rest : List Value}, m.stack = v :: rest →
    setting.execute reenter op ⟨m, s⟩ = .ok () ⟨{ m with stack := rest },
      match m.activation.finds s op.name with
      | some ref => s.declare ref op.name v
      | none => if v.isNil then s.removeGlobal op.name else s.setGlobal op.name v⟩
  blind : ∀ {op : Op}, setting.program.code[st.machine.ip]? = some op →
    (∀ i f, st.machine.past.invocation? op = some i → i.callee ≠ .native f) →
    ∀ ref ∉ reach st.machine, ref.index < st.store.scopes.size →
    ∀ (b : Bindings) (reenter : Reentry),
      setting.execute reenter op ⟨st.machine.past, st.store.withScope ref b⟩ =
        mapState (State.withScope ref b) (setting.execute reenter op ⟨st.machine.past, st.store⟩)
  written : Evolves (fun ref name => ∃ waiting' fuel' trace' st' op,
      setting.Happens talk (.running waiting fuel trace st) (.running waiting' fuel' trace' st') ∧
      setting.program.code[st'.machine.ip]? = some op ∧
      op.Writes st'.machine st'.store ref name ∧ ref ∈ reach st'.machine)
    st.store.scopes (stateOf (setting.step (setting.callFrom fuel) trace st)).store.scopes
  shared : ∀ {op : Op} {v : Value} {rest : List Value} {ref : ScopeRef},
    setting.program.code[st.machine.ip]? = some op → op.code = .store →
    st.machine.stack = v :: rest → st.machine.activation.finds st.store op.name = some ref →
    ∀ (call : Position → Nat → Reentry) (trace : Bool) (st' : State),
      setting.step call trace st = .ok () st' →
      ∀ x : Activation, x.finds st'.store op.name = some ref → x.sees st'.store op.name = v
  same : ∀ (x : Activation) (s : Store) (name : String) (ref : ScopeRef),
    x.finds s name = some ref → valueIn s.scopes ref name = some (x.sees s name)

/-- **Which variables instructions read and write.** -/
theorem visible_of_chained (honest : Honest setting.natives talk)
    (h : (Activity.running waiting fuel trace st).Chained setting site past stopped) :
    setting.Visible talk waiting fuel trace st where
  loads hcode reenter m s := by
    rw [execute_load reenter hcode, lookup_eq]
    rfl
  stores hcode reenter m s v rest hstack := by
    rw [execute_store hcode, hstack, ← findScope_eq_finds]
    rfl
  blind hop hnative ref href hsize b reenter := execute_withScope hnative b href hsize
  written := by
    refine (evolves_step honest waiting).imp ?_
    rintro ref name ⟨b, hb, hwrites⟩
    cases b with
    | running waiting' fuel' trace' st' =>
      obtain ⟨op, hop, hwrites⟩ := hwrites
      exact ⟨waiting', fuel', trace', st', op, hb, hop, hwrites, hwrites.mem_reach⟩
    | calling => exact hwrites.elim
  shared hop hcode hstack hfound call trace st' hstep x hx := by
    have haged := ((h.running _ _ _ _ rfl).linked _ List.mem_cons_self).aged
    rw [← findScope_eq_finds] at hfound
    have hlookup := lookup_of_store (m := ⟨0, [], x.scopes, x.captured, [], [], 0⟩) hop hcode hstack
      hfound (haged.lt _ (findScope_mem hfound)) hstep ((findScope_eq_finds _ _ _).trans hx)
    rw [lookup_eq] at hlookup
    exact hlookup
  same x s name ref := Activation.valueIn_of_finds

/-! ### Scopes that are opened -/

/-- Which scopes are opened.  A block that is entered, and a call, has a scope that was not there
before.  A function that is called has captured what was in reach where it was pushed; the call
that waits for it keeps its scopes and has them again when it goes on.  Whatever happens when
a loop has been begun anew, as long as the call is open, the variables of the loop are declared
in scopes that were not there before. -/
structure Opening (setting : Setting) (talk : Talk) (past : Set Activity) (st : State) : Prop where
  block : ∀ {op : Op} {call : Position → Nat → Reentry} {trace : Bool} {st' : State},
    setting.program.code[st.machine.ip]? = some op → op.code = .startBlock →
    setting.step call trace st = .ok () st' → st'.machine.activations =
      ⟨⟨st.store.scopes.size⟩ :: st.machine.scopes, st.machine.captured⟩ ::
        st.machine.activations.tail
  enters : ∀ {op : Op} {i : Invocation} {entry : Nat} {captured : List ScopeRef}
    {call : Position → Nat → Reentry} {trace : Bool} {st' : State},
    setting.program.code[st.machine.ip]? = some op → st.machine.past.invocation? op = some i →
    i.callee = .function entry captured → setting.step call trace st = .ok () st' →
    st'.machine.activations = ⟨[⟨st.store.scopes.size⟩], captured⟩ :: st.machine.activations ∧
      setting.program.Made past entry captured
  called : ∀ {caller : Machine} {waiting waiting' : List Machine} {fuel fuel' depth entry : Nat}
    {position : Position} {captured : List ScopeRef} {args : List Value} {s : Store} {trace : Bool}
    {st' : State},
    setting.Leads talk
      (.calling caller waiting fuel position depth (.function entry captured) args s)
      (.running waiting' fuel' trace st') →
    st'.machine.activation = ⟨[⟨s.scopes.size + 1⟩], captured⟩
  returns : ∀ {op : Op} {call : Position → Nat → Reentry} {trace : Bool} {st' : State},
    setting.program.code[st.machine.ip]? = some op → op.code = .ret → st.machine.frames ≠ [] →
    setting.step call trace st = .ok () st' → st'.machine.activations = st.machine.activations.tail
  passes : ∀ {op : Op} {target : Nat} {st' : State},
    setting.program.code[st.machine.ip]? = some op → op.code.isJump →
    (target : Int) = st.machine.ip + 1 + op.offset → target ≤ st.machine.ip →
    setting.Goes st.machine.frames st st' → st'.machine.frames = st.machine.frames →
    target ≤ st'.machine.ip → st'.machine.ip ≤ st.machine.ip →
    setting.program.Declares st'.machine.ip →
    ∃ ref, st'.machine.scopes.head? = some ref ∧ st.store.scopes.size ≤ ref.index

/-- What a step leaves is what its instruction leaves. -/
theorem execute_of_step {call : Position → Nat → Reentry}
    (hop : setting.program.code[st.machine.ip]? = some op)
    (hstep : setting.step call trace st = .ok () st') :
    ∃ st'', setting.execute (call op.position st.machine.depth) op
      ⟨st.machine.past, announced trace op st⟩ = .ok () st'' ∧ st''.machine = st'.machine := by
  rw [step_eq_execute hop] at hstep
  split at hstep
  · next st'' hrun =>
    cases hstep
    exact ⟨st'', hrun, rfl⟩
  · cases hstep

/-- A return does not lead on in its function. -/
theorem not_flows_of_ret (hcode : op.code = .ret) {behind target : Nat} :
    ¬ op.Flows behind target := by
  intro h
  cases h with
  | next _ hret => exact hret hcode
  | jump hjump =>
    rw [hcode] at hjump
    cases hjump

/-- A return leads back to the call that waits. -/
theorem activations_of_ret {m : Machine} {s : Store} (hmoves : Moves setting op ⟨m, s⟩ st)
    (hcode : op.code = .ret) (hframes : m.frames ≠ []) :
    st.machine.activations = m.activations.tail := by
  cases hmoves with
  | stay _ _ hflow => exact absurd hflow (not_flows_of_ret hcode)
  | opened hstart => cases hcode.symm.trans hstart
  | closed hend => cases hcode.symm.trans hend
  | entered hi => rcases code_of_invocation hi with hcall | hcall <;> cases hcode.symm.trans hcall
  | left _ hopen hcalls =>
    have hopen : m.frames = _ := hopen
    obtain ⟨hscopes, hrest⟩ := Prod.mk.inj hcalls
    obtain ⟨hcaptured, hframes'⟩ := Prod.mk.inj hrest
    rw [Machine.activations, Machine.activations, Machine.activation, hscopes, hcaptured, hframes',
      hopen]
    rfl
  | ended _ hnone => exact absurd hnone hframes

/-- **Which scopes are opened.** -/
theorem opening_of_chained (honest : Honest setting.natives talk)
    (hsited : setting.program.Sited site)
    (h : (Activity.running waiting fuel trace st).Chained setting site past stopped)
    (hknown : st.Known (setting.program.Closes past st.store.scopes)) :
    setting.Opening talk past st where
  block hop hcode hstep := by
    obtain ⟨st'', hrun, hmachine⟩ := execute_of_step hop hstep
    rw [execute_startBlock hcode] at hrun
    cases hrun
    rw [← hmachine, Store.newScope, scopes_announced]
    rfl
  enters hop hi hcallee hstep := by
    obtain ⟨hmachine, -⟩ := Engine.of_step_entering hop hi hcallee hstep
    have hcallee' := (known_invocation hi hknown.1).1
    rw [hcallee] at hcallee'
    rw [hmachine]
    exact ⟨rfl, hcallee'.1⟩
  called hleads := by
    cases hleads with
    | enter henter =>
      obtain ⟨hlocated, -⟩ := of_enter henter
      obtain ⟨hactive, -⟩ := List.cons.inj hlocated
      rw [(Prod.mk.inj hactive).2, Store.newScope, Store.newScope, Array.size_push]
  returns {op call trace st'} hop hcode hframes hstep := by
    obtain ⟨st'', hrun, hmachine⟩ := execute_of_step hop hstep
    have hmoves : MovesTo setting op ⟨st.machine.past, announced trace op st⟩
        (setting.execute (call op.position st.machine.depth) op
          ⟨st.machine.past, announced trace op st⟩) := movesTo_ret hcode
    rw [hrun] at hmoves
    rw [← hmachine]
    exact activations_of_ret (m := st.machine.past) hmoves hcode hframes
  passes hop hjump htarget hback hgoes hframes hfirst hlast hdeclares := by
    have hsure : setting.Sure site st := ⟨(h.running _ _ _ _ rfl).placed,
      hknown.1.mono Program.closes_among_pushes, hknown.2.mono Program.closes_among_pushes⟩
    exact fresh_of_loop honest hsited hsure hop hjump htarget hback hgoes hframes hfirst hlast
      hdeclares

/-! ### Scopes whose blocks have ended -/

/-- What becomes of a scope when its block ends: it is in reach of the call no more, and has not
been opened by any other call.  A scope that no call has open is never opened again. -/
structure Closing (setting : Setting) (talk : Talk) (waiting : List Machine) (fuel : Nat)
    (trace : Bool) (st : State) : Prop where
  ends : ∀ {op : Op}, setting.program.code[st.machine.ip]? = some op → op.code = .endBlock →
    ∃ ref rest, st.machine.scopes = ref :: rest ∧
      ∀ (call : Position → Nat → Reentry) (st' : State), setting.step call trace st = .ok () st' →
        st'.machine.activation = ⟨rest, st.machine.captured⟩ ∧ ref ∉ reach st'.machine ∧
          ref ∉ (Activity.running waiting fuel trace st').owned
  gone : ∀ ref : ScopeRef, ref.index < st.store.scopes.size →
    ref ∉ (Activity.running waiting fuel trace st).owned →
    (∀ b, setting.Happens talk (.running waiting fuel trace st) b → ref ∉ b.owned) ∧
      ∀ (call : Position → Nat → Reentry) (st' : State), setting.step call trace st = .ok () st' →
        ref ∉ (Activity.running waiting fuel trace st').owned

/-- The scopes that the calls of a running machine, and those that wait, have opened. -/
theorem owned_running : (Activity.running waiting fuel trace st).owned = st.machine.scopes ++
    (owned (st.machine.frames.map Frame.activation) ++ waiting.flatMap Machine.owned) := by
  rw [Activity.owned, Activity.machines, List.flatMap_cons, Machine.owned, Machine.activations,
    owned_cons, List.append_assoc]
  rfl

/-- **What becomes of scopes when blocks end.** -/
theorem closing_of_chained (honest : Honest setting.natives talk)
    (hsited : setting.program.Sited site) {start : Activity}
    (hpast : {a | setting.Happens talk start a} ⊆ past)
    (ha : setting.Happens talk start (.running waiting fuel trace st))
    (h : (Activity.running waiting fuel trace st).Chained setting site past stopped)
    (hknown : st.Known (setting.program.Closes past st.store.scopes)) :
    setting.Closing talk waiting fuel trace st where
  ends {op} hop hcode := by
    have hchained := h.running _ _ _ _ rfl
    obtain ⟨ref, rest, hscopes⟩ :=
      List.exists_cons_of_ne_nil (hchained.placed.scopes_ne_nil List.mem_cons_self)
    have hscopes : st.machine.scopes = ref :: rest := hscopes
    refine ⟨ref, rest, hscopes, fun call st' hstep => ?_⟩
    obtain ⟨st'', hrun, hmachine⟩ := execute_of_step hop hstep
    rw [execute_endBlock hcode] at hrun
    cases hrun
    have hrest : st.machine.past.scopes.tail = rest := congrArg List.tail hscopes
    have hactivation : st'.machine.activation = ⟨rest, st.machine.captured⟩ := by
      rw [← hmachine, Machine.activation, hrest]
      rfl
    refine ⟨hactivation, ?_, ?_⟩
    · have haged : Aged st.store.scopes.size (st.machine.scopes ++ st.machine.captured) :=
        (hchained.linked _ List.mem_cons_self).aged
      rw [hscopes] at haged
      have hreach : reach st'.machine = rest ++ st.machine.captured :=
        congrArg Activation.reach hactivation
      rw [hreach]
      exact haged.not_mem_of_cons
    · have haged := h.owning.aged
      rw [owned_running, hscopes] at haged
      rw [owned_running, ← hmachine, hrest]
      exact haged.not_mem_of_cons
  gone ref href hclosed := by
    have hsustains := sustains_chained hsited hpast stopped
    have hnow : (Activity.running waiting fuel trace st).Known (setting.program.Closes past) :=
      hknown
    refine ⟨fun b hb => ?_, fun call st' hstep hopen => ?_⟩
    · induction hb with
      | refl => exact hclosed
      | tail hb hleads ih =>
        intro hopen
        obtain ⟨⟨hknown', -, hchained⟩, hsize⟩ := hsustains.happens honest ⟨hnow, ha, h⟩ hb
        rcases mem_of_leads hsited hchained hknown' hleads hopen with hbefore | hnew
        · exact ih hbefore
        · exact absurd href (Nat.not_lt.2 (Nat.le_trans hsize hnew))
    · rcases h.mem_of_step hsited hknown.1 hstep hopen with hbefore | hnew
      · exact hclosed hbefore
      · exact absurd href (Nat.not_lt.2 hnew)

end Setting

/-! ### Engines -/

namespace Engine

variable {e : Engine} {config : Config} {natives : Builtin → NativeBody} {talk : Talk}
  {store : Store} {past : Set Activity}

/-- The calls of an engine see their lexical chains, in all that happens: those that are active
and those that wait.

Each call has opened as many scopes as there are blocks open where it is, besides its first one,
and what it has captured is what was in reach where its function was pushed (`chains`).  All
functions that there are close over scopes that exist (`known`), so that a scope that is opened
is in none of them.  A call that has a scope in reach is inside of its block (`inside`). -/
structure Lexical (e : Engine) (talk : Talk) (site : Nat → Option Site) (past : Set Activity)
    (waiting : List Machine) (fuel : Nat) (trace : Bool) (st : State) : Prop where
  sited : e.setting.program.Sited site
  chains : (Activity.running waiting fuel trace st).Chained e.setting site past e.Stopped
  known : st.Known (e.setting.program.Closes past st.store.scopes)
  inside : ∀ m ∈ st.machine :: waiting, ∀ x ∈ m.activations, ∀ ref ∈ x.reach,
    Inside e.setting.program past ref x
  visible : e.setting.Visible talk waiting fuel trace st
  opening : e.setting.Opening talk past st
  closing : e.setting.Closing talk waiting fuel trace st

/-- **Closures see exactly their lexical chains**, in all that happens in engines. -/
theorem lexical_of_history (honest : Honest natives talk) (hstore : store.Known fun _ _ => False)
    (h : History config natives talk store e past) {start : Activity}
    (hstart : e.Resumes past start) {waiting : List Machine} {fuel : Nat} {trace : Bool}
    {st : State} (ha : e.setting.Happens talk start (.running waiting fuel trace st)) :
    ∃ site, e.Lexical talk site (e.course talk past start) waiting fuel trace st := by
  obtain ⟨site, hengine⟩ := h.chained honest hstore
  have hhonest : Honest e.setting.natives talk := h.natives_eq ▸ honest
  obtain ⟨hknown, hchained⟩ := hengine.happens hhonest hstart ha
  have hrecalls := hengine.recalls_course hhonest hstart
  refine ⟨site, hengine.sited, hchained, hknown, fun m hm x hx ref href => ?_,
    Setting.visible_of_chained hhonest hchained,
    Setting.opening_of_chained hhonest hengine.sited hchained hknown,
    Setting.closing_of_chained hhonest hengine.sited Set.subset_union_right ha hchained hknown⟩
  exact inside_of_mem_reach hrecalls ((hchained.machines m hm).of_mem hx).2.2 href

/-- An engine after a number of steps of a text. -/
def loadAndStep (source : String) (n : Nat) : Option Engine :=
  match load source (new .standard) with
  | .ok _ e => stepped [] n e
  | .error _ _ => none

/-- A closure that has captured the variable of a pass of a loop is about to change it. -/
theorem lexical_of_history_loop :
    ∃ (talk : Talk) (e : Engine) (past : Set Activity) (site : Nat → Option Site),
      Honest (Library.run Host.function) talk ∧
      History .standard (Library.run Host.function) talk (Library.install .empty) e past ∧
      e.machine.activations.map (fun x => (x.scopes, x.captured)) =
        [([⟨2⟩], [⟨1⟩, ⟨0⟩]), ([⟨1⟩, ⟨0⟩], [])] ∧
      e.Lexical talk site (e.course talk past (e.stepping 0 false)) [] 0 false
        ⟨e.machine, e.store⟩ := by
  obtain ⟨talk, honest⟩ := honest_run
  have hrun :
      (loadAndStep "local f while true do local x = 1 f = function() x = 2 end f() end" 14).any
      (fun e => e.machine.activations.map (fun x => (x.scopes, x.captured)) =
        [([⟨2⟩], [⟨1⟩, ⟨0⟩]), ([⟨1⟩, ⟨0⟩], [])]) = true := by decide +kernel
  obtain ⟨e, hsteps, hcalls⟩ := (Option.any_eq_true _ _).1 hrun
  unfold loadAndStep at hsteps
  split at hsteps
  · next begun hload =>
    have hbegin : begun.machine.stack = [] ∧ begun.fault = none := by
      obtain ⟨chunk, records, -, rfl⟩ := of_load_ok hload
      exact ⟨rfl, rfl⟩
    have hroom : begun.machine.HasRoom := by
      rw [Machine.HasRoom, hbegin.1]
      decide
    have hhistory :
        History .standard (Library.run Host.function) talk (Library.install .empty) begun ∅ :=
      .load .new hload
    obtain ⟨⟨past, hhistory', -⟩, -, hfault, -, -⟩ :=
      lasting_of_stepped hhistory (fun _ _ _ h => absurd h (Set.notMem_empty _)) hroom hbegin.2
        hsteps
    obtain ⟨site, hlexical⟩ := lexical_of_history honest (Library.known_install Store.known_empty)
      hhistory' (.step 0 false hfault) .refl
    exact ⟨talk, e, past, site, honest, hhistory', of_decide_eq_true hcalls, hlexical⟩
  · cases hsteps

end Engine

end ScriptEngine
