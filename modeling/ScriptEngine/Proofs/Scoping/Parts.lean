import ScriptEngine.Proofs.Linking.Jumps
import ScriptEngine.Proofs.Reentry.Activity

/-!
# The scopes of calls

A call that is active, or that waits for another one, has the scopes that it has opened
itself and those that its function closed over.  Most of what instructions do leaves
these lists and all scopes alone, and looks at no scopes but those in reach of the active
call.

## Main definitions

* `Activation`, `Machine.activations` — the scopes of the calls of a machine.
* `Store.withScope` — a store in which a scope has other contents.
* `Still` — a part of an instruction that changes no scopes, and does not look at scopes
  out of reach.

## Main results

* `Setting.still_execute` — instructions that neither open nor close a scope or a call,
  nor change a variable, are still.
-/

namespace ScriptEngine

open Exec

/-! ### Calls -/

/-- The scopes of a call, innermost first: those that it has opened, and those that its
function closed over. -/
structure Activation where
  scopes : List ScopeRef
  captured : List ScopeRef

/-- The scopes in which a call looks for variables, innermost first. -/
def Activation.reach (x : Activation) : List ScopeRef := x.scopes ++ x.captured

/-- The call that a machine executes. -/
def Machine.activation (m : Machine) : Activation := ⟨m.scopes, m.captured⟩

/-- A call that waits. -/
def Frame.activation (frame : Frame) : Activation := ⟨frame.scopes, frame.captured⟩

/-- The calls of a machine, the active one first. -/
def Machine.activations (m : Machine) : List Activation :=
  m.activation :: m.frames.map Frame.activation

/-- The scopes that calls have opened. -/
def owned (xs : List Activation) : List ScopeRef := xs.flatMap Activation.scopes

/-- All that a machine says about its calls. -/
def Machine.calls (m : Machine) : List ScopeRef × List ScopeRef × List Frame :=
  (m.scopes, m.captured, m.frames)

/-- Machines with the same calls. -/
theorem Machine.of_calls_eq {m m' : Machine} (h : m'.calls = m.calls) :
    m'.scopes = m.scopes ∧ m'.captured = m.captured ∧ m'.frames = m.frames := by
  simpa [calls] using h

theorem Machine.reach_eq {m m' : Machine} (h : m'.calls = m.calls) : reach m' = reach m := by
  obtain ⟨hscopes, hcaptured, -⟩ := of_calls_eq h
  rw [reach, reach, hscopes, hcaptured]

/-! ### Scopes with other contents -/

/-- A store in which a scope has other contents. -/
def Store.withScope (ref : ScopeRef) (b : Bindings) (s : Store) : Store :=
  { s with scopes := s.scopes.modify ref.index fun _ => b }

section WithScope

variable {ref other : ScopeRef} {b : Bindings} {s : Store}

theorem ScopeRef.index_ne (h : other ≠ ref) : ref.index ≠ other.index := by
  rintro heq
  cases ref
  cases other
  exact h (congrArg ScopeRef.mk heq.symm)

theorem scope_withScope_of_ne (h : other ≠ ref) :
    (s.withScope ref b).scope other = s.scope other := by
  simp [Store.withScope, Store.scope, Array.getElem?_modify, ScopeRef.index_ne h]

theorem findScope_congr {s s' : Store} (h : s'.scopes = s.scopes) (name : String)
    (refs : List ScopeRef) : findScope s' name refs = findScope s name refs := by
  induction refs with
  | nil => rfl
  | cons ref rest ih => rw [findScope, findScope, ih, Store.scope, Store.scope, h]

theorem findScope_withScope {refs : List ScopeRef} (name : String) (h : ref ∉ refs) :
    findScope (s.withScope ref b) name refs = findScope s name refs := by
  induction refs with
  | nil => rfl
  | cons first rest ih =>
    obtain ⟨hfirst, hrest⟩ := not_or.1 (mt List.mem_cons.2 h)
    rw [findScope, findScope, scope_withScope_of_ne (Ne.symm hfirst), ih hrest]

theorem declare_withScope (h : other ≠ ref) (name : String) (v : Value) :
    (s.withScope ref b).declare other name v = (s.declare other name v).withScope ref b := by
  have hscopes : (s.scopes.modify ref.index fun _ => b).modify other.index (·.declare name v) =
      (s.scopes.modify other.index (·.declare name v)).modify ref.index fun _ => b := by
    refine Array.ext_getElem? fun i => ?_
    simp only [Array.getElem?_modify]
    by_cases hi : other.index = i
    · simp [hi, hi ▸ ScopeRef.index_ne h]
    · simp [hi]
  exact congrArg (fun scopes => { s with scopes := scopes }) hscopes

theorem findScope_mem {refs : List ScopeRef} {name : String}
    (h : findScope s name refs = some other) : other ∈ refs := by
  induction refs with
  | nil => cases h
  | cons first rest ih =>
    rw [findScope] at h
    split at h
    · cases h
      exact List.mem_cons_self
    · exact List.mem_cons_of_mem _ (ih h)

theorem lookup_withScope {m : Machine} (name : String) (h : ref ∉ reach m) :
    lookup m (s.withScope ref b) name = lookup m s name := by
  rw [lookup, lookup, findScope_withScope name h]
  cases hfound : findScope s name (reach m) with
  | none => rfl
  | some other =>
    have hne : other ≠ ref := fun heq => h (heq ▸ findScope_mem hfound)
    simp only [scope_withScope_of_ne hne]

theorem assign_withScope {m : Machine} (name : String) (v : Value) (h : ref ∉ reach m) :
    assign m name v (s.withScope ref b) = (assign m name v s).withScope ref b := by
  rw [assign, assign, findScope_withScope name h]
  cases hfound : findScope s name (reach m) with
  | none =>
    dsimp only
    split <;> rfl
  | some other =>
    have hne : other ≠ ref := fun heq => h (heq ▸ findScope_mem hfound)
    exact declare_withScope hne name v

theorem newScope_withScope (h : ref.index < s.scopes.size) :
    (s.withScope ref b).newScope = (s.newScope.1, s.newScope.2.withScope ref b) := by
  have hscopes : (s.scopes.modify ref.index fun _ => b).push [] =
      (s.scopes.push []).modify ref.index fun _ => b := by
    refine Array.ext_getElem? fun i => ?_
    simp only [Array.getElem?_modify, Array.getElem?_push, Array.size_modify]
    by_cases hi : ref.index = i
    · simp [hi, Nat.ne_of_lt (hi ▸ h)]
    · simp [hi]
  refine Prod.ext ?_ (congrArg (fun scopes => { s with scopes := scopes }) hscopes)
  simp [Store.withScope, Store.newScope]

/-- Equality of tables does not depend on scopes. -/
theorem equalTables_withScope (fuel : Nat) :
    (s.withScope ref b).equalTables fuel = s.equalTables fuel := by
  induction fuel with
  | zero => rfl
  | succ fuel ih =>
    funext opened x y
    rw [Store.equalTables, Store.equalTables, ih]
    rfl

theorem compare_withScope (operator : Comparison) (lhs rhs : Value) :
    (s.withScope ref b).compare operator lhs rhs = s.compare operator lhs rhs := by
  have hequal : (s.withScope ref b).equal lhs rhs = s.equal lhs rhs := by
    rw [Store.equal, equalTables_withScope]
    rfl
  cases operator with
  | equals => simp only [Store.compare, hequal]
  | notEquals => simp only [Store.compare, hequal]
  | _ => rfl

theorem binary_withScope (operator : StrictOperator) (lhs rhs : Value) :
    (s.withScope ref b).binary operator lhs rhs = s.binary operator lhs rhs := by
  cases operator with
  | compare operator => simp only [Store.binary, compare_withScope]
  | _ => rfl

end WithScope

/-! ### Parts of instructions -/

/-- A state with the calls and scopes of another, at the same instruction or a distance
from it. -/
structure State.Alike (distance : Option Int) (st st' : State) : Prop where
  calls : st'.machine.calls = st.machine.calls
  scopes : st'.store.scopes = st.store.scopes
  ip : st'.machine.ip = st.machine.ip ∨
    ∃ d, distance = some d ∧ (st'.machine.ip : Int) = st.machine.ip + d

/-- A state in which a scope has other contents. -/
def State.withScope (ref : ScopeRef) (b : Bindings) (st : State) : State :=
  ⟨st.machine, st.store.withScope ref b⟩

/-- A result with another state. -/
def mapState {ε σ α : Type} (f : σ → σ) : EStateM.Result ε σ α → EStateM.Result ε σ α
  | .ok a s => .ok a (f s)
  | .error e s => .error e (f s)

/-- A part of an instruction changes no scopes of calls and no scopes, and jumps by a
distance if at all.  Whatever is in a scope out of reach, it does the same. -/
structure Still (distance : Option Int) {α : Type} (x : Exec α) : Prop where
  alike : ∀ st : State, st.Alike distance (stateOf (x st))
  blind : ∀ (st : State) (ref : ScopeRef) (b : Bindings), ref ∉ reach st.machine →
    x (st.withScope ref b) = mapState (State.withScope ref b) (x st)

theorem State.Alike.refl {distance : Option Int} (st : State) : st.Alike distance st :=
  ⟨rfl, rfl, .inl rfl⟩

theorem State.Alike.trans {distance : Option Int} {st st' st'' : State} (h : st.Alike none st')
    (h' : st'.Alike distance st'') : st.Alike distance st'' := by
  have hip : st'.machine.ip = st.machine.ip := h.ip.resolve_right fun ⟨_, hd, _⟩ => nomatch hd
  exact ⟨h'.calls.trans h.calls, h'.scopes.trans h.scopes, hip ▸ h'.ip⟩

theorem State.Alike.jumping {distance : Option Int} {st st' : State} (h : st.Alike none st') :
    st.Alike distance st' := h.trans (.refl st')

namespace Still

variable {α β : Type} {distance : Option Int}

theorem pure (a : α) : Still distance (Pure.pure a) := ⟨.refl, fun _ _ _ _ => rfl⟩

theorem fail (c : Cause) : Still distance (Exec.fail c : Exec α) := ⟨.refl, fun _ _ _ _ => rfl⟩

theorem bind {x : Exec α} {f : α → Exec β} (hx : Still none x) (hf : ∀ a, Still distance (f a)) :
    Still distance (x >>= f) := by
  refine ⟨fun st => ?_, fun st ref b href => ?_⟩
  · have hfirst := hx.alike st
    change st.Alike distance (stateOf (EStateM.bind x f st))
    rw [EStateM.bind]
    cases hrun : x st with
    | ok a st' =>
      rw [hrun] at hfirst
      exact hfirst.trans ((hf a).alike st')
    | error e st' =>
      rw [hrun] at hfirst
      exact hfirst.jumping
  · have hfirst := hx.alike st
    have hblind := hx.blind st ref b href
    change EStateM.bind x f _ = mapState _ (EStateM.bind x f st)
    rw [EStateM.bind, EStateM.bind, hblind]
    cases hrun : x st with
    | ok a st' =>
      rw [hrun] at hfirst
      exact (hf a).blind st' ref b (Machine.reach_eq hfirst.calls ▸ href)
    | error e st' => rfl

theorem ite {c : Prop} [Decidable c] {x y : Exec α} (hx : Still distance x)
    (hy : Still distance y) : Still distance (if c then x else y) := by
  split
  · exact hx
  · exact hy

theorem machine : Still distance Exec.machine := ⟨.refl, fun _ _ _ _ => rfl⟩

theorem modifyMachine {f : Machine → Machine} (hf : ∀ m, (f m).calls = m.calls)
    (hip : ∀ m, (f m).ip = m.ip) : Still distance (Exec.modifyMachine f) :=
  ⟨fun st => ⟨hf st.machine, rfl, .inl (hip st.machine)⟩, fun _ _ _ _ => rfl⟩

theorem modifyStack (f : List Value → List Value) : Still distance (Exec.modifyStack f) :=
  modifyMachine (fun _ => rfl) fun _ => rfl

theorem fromStore {f : Store → α} (hf : ∀ s ref b, f (s.withScope ref b) = f s) :
    Still distance (Exec.fromStore f) := by
  refine ⟨.refl, fun st ref b _ => ?_⟩
  simp only [Exec.fromStore, State.withScope, hf, mapState]

theorem modifyTable (ref : TableRef) (f : Table → Table) :
    Still distance (Exec.modifyStore fun s => s.modifyTable ref f) :=
  ⟨fun _ => ⟨rfl, rfl, .inl rfl⟩, fun _ _ _ _ => rfl⟩

theorem newTable (t : Table) : Still distance (Exec.onStore fun s => s.newTable t) :=
  ⟨fun _ => ⟨rfl, rfl, .inl rfl⟩, fun _ _ _ _ => rfl⟩

theorem ofExcept (r : Except Cause α) : Still distance (Exec.ofExcept r) := by
  cases r with
  | ok a => exact pure a
  | error c => exact fail c

theorem push (v : Value) : Still distance (Exec.push v) := modifyStack _

theorem pop : Still distance Exec.pop := by
  refine ⟨fun ⟨m, s⟩ => ?_, fun ⟨m, s⟩ ref b _ => ?_⟩
  · rw [Exec.pop]
    cases m.stack <;> exact ⟨rfl, rfl, .inl rfl⟩
  · simp only [Exec.pop, State.withScope]
    cases m.stack <;> rfl

theorem popMark : Still distance Exec.popMark := by
  refine ⟨fun ⟨m, s⟩ => ?_, fun ⟨m, s⟩ ref b _ => ?_⟩
  · rw [Exec.popMark]
    cases m.marks <;> exact ⟨rfl, rfl, .inl rfl⟩
  · simp only [Exec.popMark, State.withScope]
    cases m.marks <;> rfl

theorem popCount : Still distance Exec.popCount := by
  refine pop.bind fun v => ?_
  split
  · exact ite (pure _) (fail _)
  · exact fail _

theorem require (n : Nat) : Still distance (Exec.require n) :=
  machine.bind fun _ => ite (fail _) (pure _)

end Still

namespace Setting

variable {setting : Setting} {reenter : Reentry} {op : Op}

theorem still_jump (offset : Int) : Still (some offset) (jump offset) := by
  have hrun (st : State) : jump offset st =
      if (st.machine.ip : Int) + offset < 0 then .error (.cause (.machine .jumpOutside)) st
      else .ok () ⟨{ st.machine with ip := ((st.machine.ip : Int) + offset).toNat }, st.store⟩ := by
    simp only [jump, bind, EStateM.bind, Exec.machine]
    split <;> rfl
  refine ⟨fun st => ?_, fun st ref b _ => ?_⟩
  · rw [hrun]
    split
    · exact .refl st
    · next htarget =>
        exact ⟨rfl, rfl, .inr ⟨offset, rfl, Int.toNat_of_nonneg (Int.not_lt.1 htarget)⟩⟩
  · rw [hrun, hrun]
    by_cases htarget : (st.machine.ip : Int) + offset < 0
    · have htarget' : ((st.withScope ref b).machine.ip : Int) + offset < 0 := htarget
      rw [if_pos htarget, if_pos htarget']
      rfl
    · have htarget' : ¬ ((st.withScope ref b).machine.ip : Int) + offset < 0 := htarget
      rw [if_neg htarget, if_neg htarget']
      rfl

theorem still_jumpWhen (truth : Bool) (offset : Int) :
    Still (some offset) (jumpWhen truth offset) :=
  Still.pop.bind fun _ => .ite (still_jump offset) (.pure _)

theorem still_loadIndex : Still none loadIndex := by
  refine Still.pop.bind fun target => Still.pop.bind fun key => ?_
  split
  · exact .push _
  · refine .ite (.push _) ((Still.ofExcept _).bind fun k => ?_)
    exact (Still.fromStore fun _ _ _ => rfl).bind fun v => .push v
  · exact .fail _

theorem still_storePairs (ref : TableRef) (n : Nat) : Still none (storePairs ref n) := by
  induction n with
  | zero => exact .pure _
  | succ n ih =>
    refine Still.pop.bind fun key => Still.pop.bind fun v => ?_
    have hstore : Still none (do
        let key ← Exec.ofExcept (Key.ofValue key)
        Exec.modifyStore fun s => s.modifyTable ref fun t => t.set key v
        storePairs ref n) :=
      .bind (.ofExcept _) fun k => .bind (.modifyTable ref _) fun _ => ih
    exact .ite ((Still.fail _).bind fun _ => hstore) hstore

theorem still_storeIndex (count : Nat) : Still none (storeIndex count) := by
  refine (Still.require _).bind fun _ => Still.machine.bind fun m => ?_
  split
  · exact still_storePairs _ _
  · exact .fail _

theorem still_iterJumpIfDone (offset : Int) : Still (some offset) (iterJumpIfDone offset) := by
  refine Still.machine.bind fun m => ?_
  split
  · exact .fail _
  · refine .ite ?_ (.pure _)
    exact .bind (.modifyMachine (fun _ => rfl) fun _ => rfl) fun _ => still_jump offset

/-- Reading a variable. -/
theorem still_load (hcode : op.code = .load) : Still none (setting.execute reenter op) := by
  have hrun (st : State) : setting.execute reenter op st =
      Exec.push (lookup st.machine st.store op.name) st := by
    simp only [execute, hcode]
    rfl
  refine ⟨fun st => ?_, fun st ref b href => ?_⟩
  · rw [hrun]
    exact (Still.push _).alike st
  · have hlookup : lookup (st.withScope ref b).machine (st.withScope ref b).store op.name =
        lookup st.machine st.store op.name := lookup_withScope op.name href
    rw [hrun, hrun, hlookup]
    rfl

/-- **Instructions that neither open nor close a scope or a call, nor change a variable,
are still.** -/
theorem still_execute (hcall : op.code ≠ .call) (hiter : op.code ≠ .iterNext)
    (hret : op.code ≠ .ret) (hstart : op.code ≠ .startBlock) (hend : op.code ≠ .endBlock)
    (hstore : op.code ≠ .store) (hlocal : op.code ≠ .makeLocal) :
    Still (if op.code.isJump then some op.offset else none) (setting.execute reenter op) := by
  by_cases hload : op.code = .load
  · rw [hload]
    exact still_load hload
  unfold execute
  cases hcode : op.code with
  | call => exact absurd hcode hcall
  | iterNext => exact absurd hcode hiter
  | ret => exact absurd hcode hret
  | startBlock => exact absurd hcode hstart
  | endBlock => exact absurd hcode hend
  | store => exact absurd hcode hstore
  | makeLocal => exact absurd hcode hlocal
  | load => exact absurd hcode hload
  | push =>
    cases op.pushed with
    | function entry captured => exact Still.machine.bind fun m => .push _
    | _ => exact .push _
  | pop => exact .modifyStack _
  | dup =>
    refine Still.machine.bind fun m => ?_
    cases m.stack with
    | cons v rest => exact .push v
    | nil => exact .fail _
  | swap =>
    exact (Still.require 2).bind fun _ => Still.pop.bind fun v => Still.pop.bind fun w =>
      (Still.push v).bind fun _ => .push w
  | newTable => exact .bind (.newTable _) fun ref => .push _
  | loadIndex => exact still_loadIndex
  | storeIndex => exact still_storeIndex _
  | binary operator =>
    refine Still.pop.bind fun lhs => Still.pop.bind fun rhs => ?_
    have hread : Still none (Exec.fromStore fun s => s.binary operator lhs rhs) :=
      .fromStore fun _ _ _ => binary_withScope operator lhs rhs
    exact hread.bind fun r => (Still.ofExcept r).bind fun v => .push v
  | unary operator =>
    refine Still.pop.bind fun v => ?_
    exact (Still.fromStore fun _ _ _ => rfl).bind fun r => (Still.ofExcept r).bind fun v => .push v
  | argumentCount => exact Still.popCount.bind fun got => .modifyStack _
  | jump => exact still_jump _
  | jumpIf => exact still_jumpWhen _ _
  | jumpIfNot => exact still_jumpWhen _ _
  | assignPush => exact .modifyMachine (fun _ => rfl) fun _ => rfl
  | assignSet => exact Still.popMark.bind fun mark => .modifyStack _
  | assignCount => exact Still.popMark.bind fun mark => .modifyStack _
  | iterJumpIfDone => exact still_iterJumpIfDone _
  | iterUpdateState => exact (Still.require _).bind fun _ => .modifyStack _
  | leave => exact .fail _

end Setting

end ScriptEngine
