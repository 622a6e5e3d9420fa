import ScriptEngine.Proofs.Scoping.Chains

/-!
# Chains of scopes in engines

All calls of all machines of an engine, of those that wait as well, have the chains of scopes
of their functions, and each scope that is open has been opened by one of them.  A call that
has a scope in reach is therefore inside of its block: it has the block open itself, or its
function was pushed by a call inside of the block.

## Main definitions

* `Activity.Chained` — an activity in which all calls have the chains of scopes of their functions.
* `Inside` — a call is inside of the block of a scope.

## Main results

* `Setting.sustains_chained` — all that happens keeps the chains of scopes.
* `Engine.History.chained` — all calls of engines have the chains of scopes of their functions.
* `inside_of_mem_reach` — a call that has a scope in reach is inside of its block.
-/

namespace ScriptEngine

open Exec

/-! ### Activities -/

/-- The machines of an activity: the one that runs, or has called a native function, and those
that wait for it. -/
def Activity.machines : Activity → List Machine
  | .running waiting _ _ st => st.machine :: waiting
  | .calling caller waiting _ _ _ _ _ _ => caller :: waiting

/-- The scopes that the calls of all machines have opened. -/
def Activity.owned (a : Activity) : List ScopeRef := a.machines.flatMap Machine.owned

/-- The calls of a machine have the chains of scopes of their functions.  A machine that an
error has stopped is somewhere behind the instruction that failed. -/
def Machine.Stands (p : Program) (site : Nat → Option Site) (past : Set Activity) (size : Nat)
    (stopped : Prop) (m : Machine) : Prop :=
  ∃ ip, (ip = m.ip ∨ stopped) ∧ Chained p site past size (Machine.located { m with ip := ip })

/-- All calls of an activity have the chains of scopes of their functions, and each scope that is
open has been opened by one of them.  A machine on which a native function has called a function
ends at the end of the program. -/
structure Activity.Chained (setting : Setting) (site : Nat → Option Site) (past : Set Activity)
    (stopped : Machine → Prop) (a : Activity) : Prop where
  machines : ∀ m ∈ a.machines, m.Stands setting.program site past a.scopes.size (stopped m)
  owning : Owning a.scopes.size setting.root a.owned
  running : ∀ waiting fuel trace st, a = .running waiting fuel trace st →
    ScriptEngine.Chained setting.program site past st.store.scopes.size st.machine.located
  nested : ∀ caller waiting fuel trace st, a = .running (caller :: waiting) fuel trace st →
    ∃ x, [(setting.program.size, x)] <:+ st.machine.located

theorem Machine.owned_eq (m : Machine) :
    m.owned = ScriptEngine.owned (m.located.map Prod.snd) := by
  simp only [Machine.owned, Machine.activations, Machine.located, List.map_cons, List.map_map]
  rfl

section Stands

variable {p : Program} {site : Nat → Option Site} {past past' : Set Activity} {size size' : Nat}
  {stopped : Prop} {m : Machine}

theorem Machine.Stands.mono (h : m.Stands p site past size stopped) (hpast : past ⊆ past')
    (hsize : size ≤ size') : m.Stands p site past' size' stopped := by
  obtain ⟨ip, hip, hchained⟩ := h
  exact ⟨ip, hip, hchained.mono hpast hsize⟩

theorem Chained.stands (h : Chained p site past size m.located) :
    m.Stands p site past size stopped :=
  ⟨m.ip, .inl rfl, h⟩

/-- A machine that has not been stopped. -/
theorem Machine.Stands.located (h : m.Stands p site past size stopped) (hstopped : ¬ stopped) :
    Chained p site past size m.located := by
  obtain ⟨ip, hip, hchained⟩ := h
  obtain rfl := hip.resolve_right hstopped
  exact hchained

/-- The chains of the calls of a machine. -/
theorem Machine.Stands.of_mem (h : m.Stands p site past size stopped) {x : Activation}
    (hx : x ∈ m.activations) : Aged size x.reach ∧ x.scopes ≠ [] ∧
      (x.captured = [] ∨ ∃ entry, p.Made past entry x.captured) := by
  obtain ⟨ip, -, hchained⟩ := h
  have hcall : ∃ call ∈ Machine.located { m with ip := ip }, call.2 = x := by
    rcases List.mem_cons.1 hx with rfl | hx
    · exact ⟨_, List.mem_cons_self, rfl⟩
    · obtain ⟨frame, hframe, rfl⟩ := List.mem_map.1 hx
      exact ⟨_, List.mem_cons_of_mem _ (List.mem_map_of_mem hframe), rfl⟩
  obtain ⟨call, hcall, rfl⟩ := hcall
  exact ⟨(hchained.linked call hcall).aged, hchained.placed.scopes_ne_nil hcall,
    hchained.captured hcall⟩

end Stands

namespace Activity.Chained

variable {setting : Setting} {site : Nat → Option Site} {past : Set Activity}
  {stopped : Machine → Prop} {a : Activity} {waiting : List Machine} {caller : Machine}
  {fuel depth : Nat} {trace : Bool} {position : Position} {callee : Value} {args : List Value}
  {s : Store} {st st' : State}

/-- A native function makes a call. -/
theorem calling (h : a.Chained setting site past stopped)
    (hmachines : a.machines = caller :: waiting) (hsize : a.scopes.size ≤ s.scopes.size) :
    (Activity.calling caller waiting fuel position depth callee args s).Chained setting site past
      stopped where
  machines m hm := (h.machines m (hmachines ▸ hm)).mono subset_rfl hsize
  owning := by
    have howning := h.owning.mono hsize
    rw [Activity.owned, hmachines] at howning
    exact howning
  running := nofun
  nested := nofun

/-- A function that is called into the engine has two scopes of its own. -/
theorem owned_enter {entry fuel' : Nat} {captured : List ScopeRef}
    (hlocated : st.machine.located = [(entry, ⟨[s.newScope.2.newScope.1], captured⟩),
      (setting.program.size, ⟨[s.newScope.1], []⟩)]) :
    (Activity.running (caller :: waiting) fuel' false st).owned =
      ⟨s.scopes.size + 1⟩ :: ⟨s.scopes.size⟩ ::
        (Activity.calling caller waiting fuel position depth callee args s).owned := by
  simp only [Activity.owned, Activity.machines, List.flatMap_cons, Machine.owned_eq st.machine,
    hlocated, List.map_cons, List.map_nil, owned_cons, Store.newScope, Array.size_push]
  rfl

/-- A script function is called on a machine of its own. -/
theorem enter
    (h : (Activity.calling caller waiting fuel position depth callee args s).Chained setting
      site past stopped) (hsited : setting.program.Sited site) {entry fuel' : Nat}
    {captured : List ScopeRef} (hcallee : setting.program.Closes past s.scopes entry captured)
    (hlocated : st.machine.located = [(entry, ⟨[s.newScope.2.newScope.1], captured⟩),
      (setting.program.size, ⟨[s.newScope.1], []⟩)])
    (hscopes : st.store.scopes = s.newScope.2.newScope.2.scopes) :
    (Activity.running (caller :: waiting) fuel' false st).Chained setting site past stopped := by
  have hsize : s.newScope.2.scopes.size = s.scopes.size + 1 := Array.size_push _
  have hsize' : st.store.scopes.size = s.newScope.2.scopes.size + 1 := by
    rw [hscopes]
    exact Array.size_push _
  have hroot := h.owning.root_lt
  -- The call is entered from a call at the end of the program, which has the first new scope.
  have hbottom : ScriptEngine.Chained setting.program site past s.newScope.2.scopes.size
      [(setting.program.size, ⟨[s.newScope.1], []⟩)] :=
    .text hsited.finish (hsize ▸ Nat.lt_succ_self _)
  have hchained : ScriptEngine.Chained setting.program site past st.store.scopes.size
      st.machine.located := by
    rw [hlocated]
    refine hbottom.shifts hsited (Nat.lt_of_lt_of_le hroot ?_) ?_
      (.entered (fun _ => id) ⟨hcallee.1, hcallee.2.mono ?_⟩ hsize')
    · exact hsize ▸ Nat.le_succ _
    · exact hsize' ▸ Nat.le_succ _
    · exact hsize ▸ Nat.le_succ _
  refine ⟨List.forall_mem_cons.2 ⟨hchained.stands, fun m hm => ?_⟩, ?_, ?_, ?_⟩
  · refine (h.machines m hm).mono subset_rfl ?_
    change s.scopes.size ≤ st.store.scopes.size
    omega
  · have hsize'' : (Activity.running (caller :: waiting) fuel' false st).scopes.size =
        s.scopes.size + 1 + 1 := hsize'.trans (by rw [hsize])
    rw [owned_enter hlocated, hsize'']
    exact h.owning.cons.cons
  · intro _ _ _ _ heq
    cases heq
    exact hchained
  · intro _ _ _ _ _ heq
    cases heq
    exact ⟨_, hlocated ▸ List.suffix_cons _ _⟩

/-- The outermost call of a machine on which a native function has called a function does
nothing. -/
theorem inner_or_idle
    (h : (Activity.running waiting fuel trace st).Chained setting site past stopped) :
    waiting = [] ∨ st.machine.located.tail ≠ [] ∨
      setting.program.code[st.machine.ip]? = none := by
  cases waiting with
  | nil => exact .inl rfl
  | cons caller waiting =>
    obtain ⟨x, hlast⟩ := h.nested _ _ _ _ _ rfl
    refine .inr (or_iff_not_imp_left.2 fun hinner => Array.getElem?_eq_none ?_)
    rw [Machine.located, List.tail_cons, not_not] at hinner
    rw [Machine.located, hinner] at hlast
    exact Nat.le_of_eq (congrArg Prod.fst (List.cons.inj (hlast.eq_of_length rfl)).1)

/-- A machine makes a step. -/
theorem step {call : Position → Nat → Reentry}
    (h : (Activity.running waiting fuel trace st).Chained setting site past stopped)
    (hsited : setting.program.Sited site)
    (hknown : AllKnown (setting.program.Closes past st.store.scopes) st.machine.stack)
    (hsize : st.store.scopes.size ≤ st'.store.scopes.size)
    (hstep : setting.step call trace st = .ok () st') :
    (Activity.running waiting fuel trace st').Chained setting site past stopped := by
  have hchained := h.running _ _ _ _ rfl
  have hshifts := Setting.shifts_step hsited hknown hstep
  have hchained' := hchained.shifts hsited h.owning.root_lt hsize hshifts
  rcases or_assoc.2 h.inner_or_idle with hinner | hidle
  · refine ⟨List.forall_mem_cons.2 ⟨hchained'.stands, fun m hm => ?_⟩, ?_, ?_, ?_⟩
    · exact (h.machines m (List.mem_cons_of_mem _ hm)).mono subset_rfl hsize
    · have howning := h.owning
      simp only [Activity.owned, Activity.machines, List.flatMap_cons, Machine.owned_eq]
        at howning ⊢
      refine howning.shifts hchained.placed hshifts (hinner.symm.imp_right fun hwaiting => ?_) hsize
      rw [hwaiting, List.flatMap_nil]
    · intro _ _ _ _ heq
      cases heq
      exact hchained'
    · intro caller waiting' _ _ _ heq
      cases heq
      obtain ⟨x, hlast⟩ := h.nested _ _ _ _ _ rfl
      exact ⟨x, hshifts.outermost (hinner.resolve_left (List.cons_ne_nil _ _)) hlast⟩
  · rw [Setting.step_of_none hidle] at hstep
    cases hstep
    exact h

/-- A step opens only scopes that are new. -/
theorem mem_of_step {call : Position → Nat → Reentry} {ref : ScopeRef}
    (h : (Activity.running waiting fuel trace st).Chained setting site past stopped)
    (hsited : setting.program.Sited site)
    (hknown : AllKnown (setting.program.Closes past st.store.scopes) st.machine.stack)
    (hstep : setting.step call trace st = .ok () st')
    (href : ref ∈ (Activity.running waiting fuel trace st').owned) :
    ref ∈ (Activity.running waiting fuel trace st).owned ∨ st.store.scopes.size ≤ ref.index := by
  rcases or_assoc.2 h.inner_or_idle with hinner | hidle
  · have howning := h.owning
    simp only [Activity.owned, Activity.machines, List.flatMap_cons, Machine.owned_eq]
      at howning href ⊢
    refine howning.mem_of_shifts (h.running _ _ _ _ rfl).placed
      (Setting.shifts_step hsited hknown hstep) (hinner.symm.imp_right fun hwaiting => ?_) href
    rw [hwaiting, List.flatMap_nil]
  · rw [Setting.step_of_none hidle] at hstep
    cases hstep
    exact .inl href

end Activity.Chained

namespace Setting

variable {setting : Setting} {talk : Talk} {site : Nat → Option Site} {past : Set Activity}

theorem Touches.size_le {op : Op} {m : Machine} {s : Store} {scopes : Array Bindings}
    (h : Touches op m s scopes) : s.scopes.size ≤ scopes.size := by
  rcases h with rfl | rfl | ⟨ref, name, v, -, rfl⟩
  · exact Nat.le_refl _
  · exact Array.size_push _ ▸ Nat.le_succ _
  · exact Nat.le_of_eq Array.size_modify.symm

/-- The state in which a function that is called into the engine begins. -/
theorem of_enter {reenter : Reentry} {depth entry : Nat} {captured : List ScopeRef}
    {args : List Value} {s : Store} {st : State}
    (h : setting.callValue reenter (.function entry captured) args.length none
      ⟨setting.calleeMachine s.newScope.1 depth args, s.newScope.2⟩ = .ok () st) :
    st.machine.located = [(entry, ⟨[s.newScope.2.newScope.1], captured⟩),
        (setting.program.size, ⟨[s.newScope.1], []⟩)] ∧
      st.store.scopes = s.newScope.2.newScope.2.scopes := by
  rw [callValue_calleeMachine, invoke] at h
  dsimp only at h
  split at h
  · cases h
  · cases h
    exact ⟨rfl, rfl⟩

/-- **All that happens keeps the chains of scopes.** -/
theorem sustains_chained (hsited : setting.program.Sited site) {start : Activity}
    (hpast : {a | setting.Happens talk start a} ⊆ past) (stopped : Machine → Prop) :
    setting.Sustains talk
      (fun a => a.Known (setting.program.Closes past) ∧ setting.Happens talk start a ∧
        a.Chained setting site past stopped)
      (fun before after => before.size ≤ after.size) (setting.program.Closes past) where
  refl _ := Nat.le_refl _
  trans _ _ _ := Nat.le_trans
  among _ _ := Program.closes_among subset_rfl
  newScope s := Array.size_push _ ▸ Nat.le_succ _
  known _ h := h.1
  leads := by
    rintro a b ⟨hknown, hhappens, hchained⟩ hleads hsize hknown'
    refine ⟨hknown', hhappens.tail hleads, ?_⟩
    cases hleads with
    | invoke => exact hchained.calling rfl hsize
    | native => exact hchained.calling rfl hsize
    | enter henter =>
      obtain ⟨hlocated, hscopes⟩ := of_enter henter
      exact hchained.enter hsited hknown.1 hlocated hscopes
    | step hstep => exact hchained.step hsited hknown.1 hsize hstep
  instruction := by
    rintro waiting fuel trace st op ⟨hknown, hhappens, hchained⟩ hop hnative reenter
    have htouches : Touches op st.machine.past (announced trace op st)
        (stateOf (setting.execute reenter op
          ⟨st.machine.past, announced trace op st⟩)).store.scopes := scopes_execute hnative
    have hsize := htouches.size_le
    rw [scopes_announced] at hsize
    have hamong := Program.closes_among (p := setting.program) (subset_refl past) hsize
    have hreach := (((hchained.running _ _ _ _ rfl).linked _ List.mem_cons_self).aged).mono hsize
    have hleaves : Leaves (setting.program.Closes past (stateOf (setting.execute reenter op
          ⟨st.machine.past, announced trace op st⟩)).store.scopes) (fun _ => True)
        (setting.execute reenter op ⟨st.machine.past, announced trace op st⟩) :=
      known_execute (AllKnown.mono hamong hknown.1) ((known_announced hknown.2).mono hamong)
        (fun hcode entry captured hpushed =>
          ⟨⟨waiting, fuel, trace, st, op, captured, hpast hhappens, hop, hcode, hpushed, rfl⟩,
            hreach⟩)
        hnative
    revert hsize hleaves
    cases setting.execute reenter op ⟨st.machine.past, announced trace op st⟩ with
    | ok u st' => exact fun hsize hleaves => ⟨hsize, hleaves.2⟩
    | error e st' => exact fun hsize hleaves => ⟨hsize, hleaves⟩

/-- **Only scopes that are new are opened**, in all that happens. -/
theorem mem_of_leads (hsited : setting.program.Sited site) {stopped : Machine → Prop}
    {a b : Activity} {ref : ScopeRef} (h : a.Chained setting site past stopped)
    (hknown : a.Known (setting.program.Closes past)) (hleads : setting.Leads talk a b)
    (href : ref ∈ b.owned) : ref ∈ a.owned ∨ a.scopes.size ≤ ref.index := by
  cases hleads with
  | invoke => exact .inl href
  | native => exact .inl href
  | enter henter =>
    rw [Activity.Chained.owned_enter (of_enter henter).1] at href
    rcases List.mem_cons.1 href with rfl | href
    · exact .inr (Nat.le_succ _)
    rcases List.mem_cons.1 href with rfl | href
    · exact .inr (Nat.le_refl _)
    · exact .inl href
  | step hstep => exact h.mem_of_step hsited hknown.1 hstep href

end Setting

/-! ### Being inside of a block -/

/-- A call is inside of the block of a scope: it has the block open itself, or the instruction
that pushed its function was executed by a call inside of the block. -/
inductive Inside (p : Program) (past : Set Activity) (ref : ScopeRef) : Activation → Prop
  | own {x : Activation} (h : ref ∈ x.scopes) : Inside p past ref x
  | closure {x : Activation} {waiting : List Machine} {fuel : Nat} {trace : Bool} {st : State}
      {op : Op} {entry : Nat} {v : List ScopeRef} (hst : .running waiting fuel trace st ∈ past)
      (hop : p.code[st.machine.ip]? = some op) (hcode : op.code = .push)
      (hpushed : op.pushed = .function entry v) (hreach : reach st.machine = x.captured)
      (h : Inside p past ref st.machine.activation) : Inside p past ref x

/-- What is remembered of a machine that has run. -/
structure Machine.Recalled (p : Program) (past : Set Activity) (m : Machine) : Prop where
  younger : (reach m).Pairwise fun inner outer => outer.index < inner.index
  opened : m.scopes ≠ []
  captured : m.captured = [] ∨ ∃ entry, p.Made past entry m.captured

/-- Everything that has happened is remembered. -/
def Program.Recalls (p : Program) (past : Set Activity) : Prop :=
  ∀ waiting fuel trace st, Activity.running waiting fuel trace st ∈ past →
    st.machine.Recalled p past

/-- **A call that has a scope in reach is inside of its block.** -/
theorem inside_of_mem_reach {p : Program} {past : Set Activity} (hpast : p.Recalls past)
    {ref : ScopeRef} {x : Activation}
    (hx : x.captured = [] ∨ ∃ entry, p.Made past entry x.captured) (href : ref ∈ x.reach) :
    Inside p past ref x := by
  -- A call has fewer captured scopes than one of a function that it has pushed.
  generalize hn : x.captured.length = n
  induction n using Nat.strong_induction_on generalizing x with
  | _ n ih =>
    rcases List.mem_append.1 href with hown | hcaptured
    · exact .own hown
    rcases hx with hnil | ⟨entry, waiting, fuel, trace, st, op, v, hst, hop, hcode, hpushed, hreach⟩
    · rw [hnil] at hcaptured
      cases hcaptured
    · have hrecalled := hpast waiting fuel trace st hst
      have href' : ref ∈ reach st.machine := hreach ▸ hcaptured
      refine .closure hst hop hcode hpushed hreach
        (ih st.machine.captured.length ?_ hrecalled.captured href' rfl)
      rw [← hn, ← hreach, reach, List.length_append]
      exact Nat.lt_add_of_pos_left (List.length_pos_of_ne_nil hrecalled.opened)

section Recalls

variable {p : Program} {past past' : Set Activity}

theorem Machine.Recalled.mono {m : Machine} (h : m.Recalled p past) (hpast : past ⊆ past') :
    m.Recalled p past' :=
  ⟨h.younger, h.opened, h.captured.imp_right fun ⟨entry, hmade⟩ => ⟨entry, hmade.mono hpast⟩⟩

theorem Program.Recalls.extend (h : p.Recalls past) (chunk : Chunk) :
    (p.extend chunk).1.Recalls past := by
  intro waiting fuel trace st hst
  obtain ⟨hyounger, hopened, hcaptured⟩ := h waiting fuel trace st hst
  exact ⟨hyounger, hopened, hcaptured.imp_right fun ⟨entry, hmade⟩ => ⟨entry, hmade.extend chunk⟩⟩

theorem Machine.Stands.recalled {site : Nat → Option Site} {size : Nat} {stopped : Prop}
    {m : Machine} (h : m.Stands p site past size stopped) : m.Recalled p past := by
  obtain ⟨haged, hopened, hcaptured⟩ := h.of_mem List.mem_cons_self
  exact ⟨haged.younger, hopened, hcaptured⟩

end Recalls

/-! ### Engines -/

namespace Engine

variable {e : Engine} {config : Config} {natives : Builtin → NativeBody} {talk : Talk}
  {store : Store} {past : Set Activity} {site : Nat → Option Site} {start : Activity}

/-- An engine in which all calls have the chains of scopes of their functions. -/
structure Chained (e : Engine) (site : Nat → Option Site) (past : Set Activity) : Prop where
  sited : e.setting.program.Sited site
  stands : e.machine.Stands e.setting.program site past e.store.scopes.size (e.fault ≠ none)
  owning : Owning e.store.scopes.size e.setting.root e.machine.owned
  store : e.store.Known (e.setting.program.Closes past e.store.scopes)
  stack : e.fault = none → AllKnown (e.setting.program.Closes past e.store.scopes) e.machine.stack
  recalls : e.setting.program.Recalls past

/-- The activities until then, and those in the course of what an engine goes on with. -/
def course (e : Engine) (talk : Talk) (past : Set Activity) (start : Activity) : Set Activity :=
  past ∪ {a | e.setting.Happens talk start a}

/-- The machine of an engine that an error has stopped. -/
def Stopped (e : Engine) (m : Machine) : Prop := m = e.machine ∧ e.fault ≠ none

namespace Chained

/-- The functions that have come about. -/
theorem made_among_closes (h : e.Chained site past) :
    (e.made past).Among (e.setting.program.Closes past e.store.scopes) := by
  rintro entry captured ⟨hmade, hlt⟩
  refine ⟨hmade, ?_, hlt⟩
  obtain ⟨waiting, fuel, trace, st, op, v, hst, -, -, -, rfl⟩ := hmade
  exact (h.recalls waiting fuel trace st hst).younger

/-- What an engine goes on with. -/
theorem resumes (h : e.Chained site past) (talk : Talk) (hstart : e.Resumes past start) :
    start.Known (e.setting.program.Closes (e.course talk past start)) ∧
      start.Chained e.setting site (e.course talk past start) e.Stopped := by
  have hpast : past ⊆ e.course talk past start := Set.subset_union_left
  have hamong :=
    Program.closes_among (p := e.setting.program) hpast (Nat.le_refl e.store.scopes.size)
  have hstore := h.store.mono hamong
  cases hstart with
  | step fuel trace hfault =>
    have hchained := (h.stands.located (· hfault)).mono hpast (Nat.le_refl _)
    refine ⟨⟨(h.stack hfault).mono hamong, hstore⟩, List.forall_mem_singleton.2 hchained.stands, ?_,
      ?_, nofun⟩
    · rw [Activity.owned, stepping, Activity.machines, List.flatMap_singleton]
      exact h.owning
    · intro _ _ _ _ heq
      cases heq
      exact hchained
  | call fuel hcallee hargs =>
    have hamong' := h.made_among_closes.trans hamong
    refine ⟨⟨hcallee.mono hamong', hargs.mono hamong', hstore⟩, List.forall_mem_singleton.2 ?_, ?_,
      nofun, nofun⟩
    · obtain ⟨ip, hip, hchained⟩ := h.stands
      exact ⟨ip, hip.imp_right fun hfault => ⟨rfl, hfault⟩, hchained.mono hpast (Nat.le_refl _)⟩
    · rw [Activity.owned, Engine.calling, Activity.machines, List.flatMap_singleton]
      exact h.owning

/-- **All that happens in an engine keeps the chains of scopes.** -/
theorem happens (honest : Honest e.setting.natives talk) (h : e.Chained site past)
    (hstart : e.Resumes past start) {a : Activity} (ha : e.setting.Happens talk start a) :
    a.Known (e.setting.program.Closes (e.course talk past start)) ∧
      a.Chained e.setting site (e.course talk past start) e.Stopped := by
  obtain ⟨hknown, hchained⟩ := h.resumes talk hstart
  obtain ⟨⟨hknown', -, hchained'⟩, -⟩ :=
    (Setting.sustains_chained h.sited Set.subset_union_right e.Stopped).happens honest
      ⟨hknown, .refl, hchained⟩ ha
  exact ⟨hknown', hchained'⟩

/-- What happens in an engine is remembered. -/
theorem recalls_course (honest : Honest e.setting.natives talk) (h : e.Chained site past)
    (hstart : e.Resumes past start) : e.setting.program.Recalls (e.course talk past start) := by
  rintro waiting fuel trace st (hst | hst)
  · exact (h.recalls waiting fuel trace st hst).mono Set.subset_union_left
  · exact ((h.happens honest hstart hst).2.machines _ List.mem_cons_self).recalled

/-- An engine at the beginning of a text. -/
theorem atTopLevel {setting : Setting} {s : Store} (hsited : setting.program.Sited site)
    (hroot : setting.root.index < s.scopes.size)
    (hs : s.Known (setting.program.Closes past s.scopes))
    (hrecalls : setting.program.Recalls past) :
    Engine.Chained ⟨setting, .atTopLevel setting.program.start setting.root, s, none⟩ site
      past where
  sited := hsited
  stands := ScriptEngine.Chained.stands (.text hsited.start hroot)
  owning := .singleton hroot
  store := hs
  stack _ := .nil
  recalls := hrecalls

/-- The store changes between steps. -/
theorem withStore (h : e.Chained site past) {s : Store} {past' : Set Activity}
    (hpast : past ⊆ past') (hsize : e.store.scopes.size ≤ s.scopes.size)
    (hs : s.Known (e.setting.program.Closes past' s.scopes))
    (hrecalls : e.setting.program.Recalls past') :
    Engine.Chained { e with store := s } site past' where
  sited := h.sited
  stands := h.stands.mono hpast hsize
  owning := h.owning.mono hsize
  store := hs
  stack hfault := (h.stack hfault).mono (Program.closes_among hpast hsize)
  recalls := hrecalls

end Chained

theorem scopes_foldl_emit (records : List Event) (s : Store) :
    (records.foldl Store.emit s).scopes = s.scopes := by
  induction records generalizing s with
  | nil => rfl
  | cons event rest ih => exact ih (s.emit event)

theorem size_foldl_declare (root : ScopeRef) (locals : List (String × Value)) (s : Store) :
    (locals.foldl (fun s (name, v) => s.declare root name v) s).scopes.size = s.scopes.size := by
  induction locals generalizing s with
  | nil => rfl
  | cons x rest ih => exact (ih (s.declare root x.1 x.2)).trans Array.size_modify

/-- A step that fails changes no calls. -/
theorem calls_of_step_error {setting : Setting} {call : Position → Nat → Reentry} {trace : Bool}
    {st st' : State} {i : Interrupt} (h : setting.step call trace st = .error i st') :
    st'.machine.calls = st.machine.calls := by
  cases hop : setting.program.code[st.machine.ip]? with
  | none =>
    rw [Setting.step_of_none hop] at h
    cases h
  | some op =>
    have hmoves : Setting.MovesTo setting op ⟨st.machine.past, Setting.announced trace op st⟩
        (setting.execute (call op.position st.machine.depth) op
          ⟨st.machine.past, Setting.announced trace op st⟩) := Setting.movesTo_execute
    rw [Setting.step_eq_execute hop] at h
    split at h
    · cases h
    · next hrun =>
      rw [hrun] at hmoves
      cases h
      exact hmoves

/-- **All calls of engines have the chains of scopes of their functions.** -/
theorem History.chained (honest : Honest natives talk) (hstore : store.Known fun _ _ => False)
    (h : History config natives talk store e past) : ∃ site, e.Chained site past := by
  induction h with
  | new =>
    refine ⟨_,
      .atTopLevel Program.sited_empty ?_ (hstore.mono fun _ _ => False.elim).newScope nofun⟩
    exact Array.size_push _ ▸ Nat.lt_succ_self _
  | load h hload ih =>
    obtain ⟨site, hsited⟩ := (h.load hload).exists_sited
    obtain ⟨_, hchained⟩ := ih
    obtain ⟨chunk, records, -, rfl⟩ := of_load_ok hload
    have hscopes := scopes_foldl_emit records
    refine ⟨site, .atTopLevel hsited ?_ (known_foldl_emit (hchained.store.mono ?_) _)
      (hchained.recalls.extend chunk)⟩
    · exact (hscopes _).symm ▸ hchained.owning.root_lt
    · exact fun entry captured hcloses =>
        ⟨hcloses.1.extend chunk, (hscopes _).symm ▸ hcloses.2⟩
  | reset _ hreset ih =>
    cases hreset
    obtain ⟨site, hchained⟩ := ih
    refine ⟨site, .atTopLevel hchained.sited ?_ (hchained.store.newScope.mono ?_) hchained.recalls⟩
    · exact Array.size_push _ ▸ Nat.lt_succ_self _
    · exact Program.closes_among subset_rfl (Array.size_push _ ▸ Nat.le_succ _)
  | @define _ _ _ name key _ hdefine ih =>
    cases hdefine
    obtain ⟨site, hchained⟩ := ih
    exact ⟨site, hchained.withStore subset_rfl (Nat.le_refl _)
      ((hchained.store.newNative name (.host key)).setGlobal name trivial) hchained.recalls⟩
  | setGlobal _ hv hset ih =>
    cases hset
    obtain ⟨site, hchained⟩ := ih
    exact ⟨site, hchained.withStore subset_rfl (Nat.le_refl _)
      (hchained.store.setGlobal _ (hv.mono hchained.made_among_closes)) hchained.recalls⟩
  | @declare e _ _ locals _ hlocals hdeclare ih =>
    cases hdeclare
    obtain ⟨site, hchained⟩ := ih
    have hsize := size_foldl_declare e.setting.root locals e.store
    have hknown := known_foldl_declare hchained.store e.setting.root fun x hx =>
      (hlocals x hx).mono hchained.made_among_closes
    exact ⟨site, hchained.withStore subset_rfl (Nat.le_of_eq hsize.symm)
      (hknown.mono (Program.closes_among subset_rfl (Nat.le_of_eq hsize.symm))) hchained.recalls⟩
  | @step e _ past fuel options h hstep ih =>
    obtain ⟨hfault, st, hrun, rfl⟩ := of_step_ok hstep
    obtain ⟨site, hchained⟩ := ih
    have hhonest : Honest e.setting.natives talk := h.natives_eq ▸ honest
    have hstart : e.Resumes past (e.stepping fuel options.trace) := .step fuel options.trace hfault
    have hrecalls := hchained.recalls_course hhonest hstart
    obtain ⟨hknown, hactivity⟩ := hchained.resumes talk hstart
    have hsustained := (Setting.sustains_chained hchained.sited Set.subset_union_right
      e.Stopped).step hhonest ⟨hknown, .refl, hactivity⟩
    rw [hrun] at hsustained
    obtain ⟨hsize, hstack, hs⟩ := hsustained
    have hactivity' := Activity.Chained.step hactivity hchained.sited hknown.1 hsize hrun
    have howning := hactivity'.owning
    rw [Activity.owned, Activity.machines, List.flatMap_singleton] at howning
    exact ⟨site, hchained.sited, (hactivity'.running _ _ _ _ rfl).stands, howning, hs, fun _ =>
      hstack, hrecalls⟩
  | @fail e _ past fuel options _ h hfault hstep ih =>
    obtain ⟨st, hrun, rfl⟩ := of_step_error hfault hstep
    obtain ⟨site, hchained⟩ := ih
    have hhonest : Honest e.setting.natives talk := h.natives_eq ▸ honest
    have hstart : e.Resumes past (e.stepping fuel options.trace) := .step fuel options.trace hfault
    have hrecalls := hchained.recalls_course hhonest hstart
    obtain ⟨hknown, hactivity⟩ := hchained.resumes talk hstart
    have hsustained := (Setting.sustains_chained hchained.sited Set.subset_union_right
      e.Stopped).step hhonest ⟨hknown, .refl, hactivity⟩
    have hcalls : st.machine.calls = e.machine.calls := calls_of_step_error hrun
    obtain ⟨hscopes, hcaptured, hframes⟩ := Machine.of_calls_eq hcalls
    rw [hrun] at hsustained
    obtain ⟨hsize, hs⟩ := hsustained
    refine ⟨site, hchained.sited, ⟨e.machine.ip, .inr nofun, ?_⟩, ?_, hs, nofun, hrecalls⟩
    · rw [Machine.located, Machine.activation]
      simp only [hscopes, hcaptured, hframes]
      exact (hactivity.running _ _ _ _ rfl).mono subset_rfl hsize
    · rw [Machine.owned, Machine.activations, Machine.activation, hscopes, hcaptured, hframes]
      exact hchained.owning.mono hsize
  | @call e past fuel callee args h hcallee hargs ih =>
    rw [stateOf_call]
    obtain ⟨site, hchained⟩ := ih
    have hhonest : Honest e.setting.natives talk := h.natives_eq ▸ honest
    have hstart : e.Resumes past (e.calling fuel callee args) := .call fuel hcallee hargs
    obtain ⟨hknown, hactivity⟩ := hchained.resumes talk hstart
    obtain ⟨hsize, hresult⟩ := (Setting.sustains_chained hchained.sited Set.subset_union_right
      e.Stopped).call hhonest ⟨hknown, .refl, hactivity⟩
    refine ⟨site, hchained.withStore Set.subset_union_left hsize ?_
      (hchained.recalls_course hhonest hstart)⟩
    revert hresult
    cases e.setting.callFrom fuel e.position e.machine.depth callee args e.store with
    | ok results s => exact fun hresult => hresult.2
    | error i s => exact id

end Engine

end ScriptEngine
