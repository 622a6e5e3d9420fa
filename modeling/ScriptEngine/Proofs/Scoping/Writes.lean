import ScriptEngine.Proofs.Safety.Soundness
import ScriptEngine.Proofs.Scoping.Instructions

/-!
# Who writes variables

A variable of a scope changes only by an instruction that writes it, executed by a call that
has the scope in reach: native functions leave scopes alone.  What has been written is what
every call sees that finds the variable in the same scope.

## Main definitions

* `Activity.Writes` — an activity writes a variable of a scope.
* `Evolves` — scopes change in some variables only.

## Main results

* `Setting.evolves_step` — a step changes no variables but those that are written in its
  course.
* `lookup_eq` — a variable is looked up in the scopes in reach, innermost first, and then
  among the global ones.
* `Setting.lookup_of_store` — what has been written is seen through every chain of scopes that
  leads to the same scope.
-/

namespace ScriptEngine

open Exec

/-! ### Changes of scopes -/

/-- The value of a variable in one of some scopes. -/
def valueIn (scopes : Array Bindings) (ref : ScopeRef) (name : String) : Option Value :=
  ((scopes[ref.index]?).getD []).get? name

/-- No scope is lost, and no variable changes in the scopes that there are, but for those
that `W` allows. -/
structure Evolves (W : ScopeRef → String → Prop) (before after : Array Bindings) : Prop where
  size : before.size ≤ after.size
  value : ∀ ref name, ref.index < before.size →
    valueIn after ref name = valueIn before ref name ∨ W ref name

namespace Evolves

variable {W : ScopeRef → String → Prop} {a b c : Array Bindings}

theorem refl (W : ScopeRef → String → Prop) (a : Array Bindings) : Evolves W a a :=
  ⟨Nat.le_refl _, fun _ _ _ => .inl rfl⟩

theorem trans (h : Evolves W a b) (h' : Evolves W b c) : Evolves W a c := by
  refine ⟨Nat.le_trans h.size h'.size, fun ref name href => ?_⟩
  rcases h'.value ref name (Nat.lt_of_lt_of_le href h.size) with hvalue | hwritten
  · rw [hvalue]
    exact h.value ref name href
  · exact .inr hwritten

theorem push (W : ScopeRef → String → Prop) (a : Array Bindings) (x : Bindings) :
    Evolves W a (a.push x) := by
  refine ⟨by rw [Array.size_push]; exact Nat.le_succ _, fun ref name href => .inl ?_⟩
  rw [valueIn, valueIn, Array.getElem?_push_lt href, Array.getElem?_eq_getElem href]

theorem declare (a : Array Bindings) {ref : ScopeRef} {name : String} (v : Value)
    (h : W ref name) : Evolves W a (a.modify ref.index (·.declare name v)) := by
  refine ⟨by rw [Array.size_modify], fun other name' hother => ?_⟩
  rw [valueIn, valueIn, Array.getElem?_modify, Array.getElem?_eq_getElem hother]
  by_cases hsame : ref.index = other.index
  · obtain rfl : ref = other := congrArg ScopeRef.mk hsame
    by_cases hname : name = name'
    · exact .inr (hname ▸ h)
    · simp [hname]
  · simp [hsame]

end Evolves

/-! ### Steps -/

/-- The instruction of an activity declares a variable in a scope, or finds it there and changes
it. -/
def Activity.Writes (p : Program) (ref : ScopeRef) (name : String) : Activity → Prop
  | .running _ _ _ st => ∃ op, p.code[st.machine.ip]? = some op ∧
      op.Writes st.machine st.store ref name
  | .calling .. => False

theorem Op.Writes.of_past {op : Op} {m : Machine} {s s' : Store} {ref : ScopeRef} {name : String}
    (h : op.Writes m.past s' ref name) (hscopes : s'.scopes = s.scopes) :
    op.Writes m s ref name := by
  obtain ⟨hname, hwrites⟩ := h
  refine ⟨hname, hwrites.imp_left fun ⟨hcode, hfound⟩ => ⟨hcode, ?_⟩⟩
  rw [← findScope_congr hscopes]
  exact hfound

namespace Setting

variable {setting : Setting} {talk : Talk} {fuel : Nat} {trace : Bool} {st st' : State}

/-- The variables that are written in the course of an activity. -/
def WrittenIn (setting : Setting) (talk : Talk) (start : Activity) (ref : ScopeRef)
    (name : String) : Prop :=
  ∃ a, setting.Happens talk start a ∧ a.Writes setting.program ref name

/-- **Variables change only where they are written**, in all that happens. -/
theorem sustains_evolves (setting : Setting) (talk : Talk) (start : Activity) :
    setting.Sustains talk (setting.Happens talk start) (Evolves (setting.WrittenIn talk start))
      fun _ _ _ => True where
  refl := .refl _
  trans _ _ _ := .trans
  among _ _ _ := .refl _
  newScope s := .push _ s.scopes []
  known a _ := by
    have hall (entry : Nat) (captured : List ScopeRef) : True := trivial
    cases a with
    | running _ _ _ st => exact ⟨fun v _ => v.known_of_forall hall, st.store.known_of_forall hall⟩
    | calling _ _ _ _ _ callee _ s =>
      exact ⟨callee.known_of_forall hall, fun v _ => v.known_of_forall hall, s.known_of_forall hall⟩
  leads _ _ ha hleads _ _ := ha.tail hleads
  instruction := by
    intro waiting fuel trace st op hhappens hop hnative reenter
    have hall (entry : Nat) (captured : List ScopeRef) : True := trivial
    have hscopes := scopes_announced trace op st
    have htouches : Touches op st.machine.past (announced trace op st)
        (stateOf (setting.execute reenter op
          ⟨st.machine.past, announced trace op st⟩)).store.scopes := scopes_execute hnative
    have hevolves : Evolves (setting.WrittenIn talk start) st.store.scopes
        (stateOf (setting.execute reenter op
          ⟨st.machine.past, announced trace op st⟩)).store.scopes := by
      rcases htouches with hsame | hopened | ⟨ref, name, v, hwrites, hdeclared⟩
      · rw [hsame, hscopes]
        exact .refl _ _
      · rw [hopened, Store.newScope, hscopes]
        exact .push _ _ _
      · rw [hdeclared, Store.declare, hscopes]
        exact .declare _ v ⟨_, hhappens, op, hop, hwrites.of_past hscopes⟩
    revert hevolves
    cases setting.execute reenter op ⟨st.machine.past, announced trace op st⟩ with
    | ok u st' =>
      exact fun h => ⟨h, fun v _ => v.known_of_forall hall, st'.store.known_of_forall hall⟩
    | error e st' => exact fun h => ⟨h, st'.store.known_of_forall hall⟩

/-- **A step changes no variables but those that are written in its course.** -/
theorem evolves_step (honest : Honest setting.natives talk) (waiting : List Machine) :
    Evolves (setting.WrittenIn talk (.running waiting fuel trace st)) st.store.scopes
      (stateOf (setting.step (setting.callFrom fuel) trace st)).store.scopes := by
  have hsustained :=
    (setting.sustains_evolves talk (.running waiting fuel trace st)).step honest .refl
  revert hsustained
  cases setting.step (setting.callFrom fuel) trace st with
  | ok u st' => exact And.left
  | error i st' => exact And.left

end Setting

/-! ### Variables -/

/-- **Where variables are looked up**: in the scopes that a call has opened, in those that its
function closed over, innermost first, and among the global variables. -/
theorem lookup_eq (m : Machine) (s : Store) (name : String) :
    lookup m s name = (((m.scopes ++ m.captured).findSome? fun ref => (s.scope ref).get? name).or
      (s.globals.get? name)).getD .nil := by
  rw [lookup, reach]
  generalize m.scopes ++ m.captured = refs
  induction refs with
  | nil => rfl
  | cons ref rest ih =>
    rw [findScope, List.findSome?_cons]
    cases hvalue : (s.scope ref).get? name with
    | none =>
      simp only [Bindings.contains, hvalue, Option.isSome_none, Bool.false_eq_true, if_false]
      exact ih
    | some v => simp [Bindings.contains, hvalue]

theorem lookup_of_findScope {m : Machine} {s : Store} {name : String} {ref : ScopeRef} {v : Value}
    (hfound : findScope s name (reach m) = some ref) (hv : (s.scope ref).get? name = some v) :
    lookup m s name = v := by
  simp only [lookup, hfound, hv, Option.getD_some]

/-- **What has been written is seen by every call that finds the variable in the same scope.** -/
theorem Setting.lookup_of_store {setting : Setting} {call : Position → Nat → Reentry} {trace : Bool}
    {st st' : State} {op : Op} {ref : ScopeRef} {v : Value} {rest : List Value}
    (hop : setting.program.code[st.machine.ip]? = some op) (hcode : op.code = .store)
    (hstack : st.machine.stack = v :: rest)
    (hfound : findScope st.store op.name (reach st.machine) = some ref)
    (href : ref.index < st.store.scopes.size)
    (hstep : setting.step call trace st = .ok () st') {m : Machine}
    (hm : findScope st'.store op.name (reach m) = some ref) : lookup m st'.store op.name = v := by
  refine lookup_of_findScope hm ?_
  have hscopes := scopes_announced trace op st
  have hpast : st.machine.past.stack = v :: rest := hstack
  have hfound' : findScope (announced trace op st) op.name (reach st.machine.past) = some ref := by
    rw [findScope_congr hscopes]
    exact hfound
  rw [step_eq_execute hop, execute_store hcode, hpast] at hstep
  simp only [assign, hfound'] at hstep
  cases hstep
  have hrecorded : (recorded trace ⟨{ st.machine.past with stack := rest },
      (announced trace op st).declare ref op.name v⟩).scopes =
      st.store.scopes.modify ref.index (·.declare op.name v) := by
    rw [scopes_recorded, Store.declare, hscopes]
  rw [Store.scope, hrecorded, Array.getElem?_modify, Array.getElem?_eq_getElem href]
  simp

end ScriptEngine
