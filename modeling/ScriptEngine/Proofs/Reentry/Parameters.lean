import ScriptEngine.Proofs.Compilation.Calls
import ScriptEngine.Proofs.Reentry.Histories
import ScriptEngine.Proofs.Scoping.Instructions

/-!
# Parameters of functions

The code of a function begins with instructions that declare its parameters in the scope
with which the call has started, and give them the arguments.  Arguments that are missing are
`nil`, and those that are too many are dropped.

## Main definitions

* `Program.Holding` — whatever a program pushes is the code of a function literal.
* `Declared` — variables of a scope have been given values.

## Main results

* `Setting.runSteps_parameters` — what the first instructions of a function do.
* `Engine.History.holding` — the functions of engines are those of function literals.
-/

namespace ScriptEngine

open Exec

/-! ### Function literals -/

namespace Program

/-- Whatever a program pushes is the code of a function literal. -/
def Holding (p : Program) : Prop :=
  ∀ entry captured, p.pushes entry captured → ∃ f, p.HoldsFunction entry f

theorem holding_empty : Holding empty := fun _ _ ⟨_, hop, _⟩ => absurd hop List.not_mem_nil

theorem holding_extend {p : Program} {chunk : Chunk} (h : p.Holding)
    (hclosed : chunkClosed false chunk) (hfunctions : ∀ f ∈ chunkFunctions chunk, f.closed) :
    (p.extend chunk).1.Holding := by
  obtain ⟨regions, main, hlinked⟩ := p.linkedFrom_extend hclosed hfunctions
  rintro entry captured ⟨op, hop, hcode, v, hpushed⟩
  rcases hlinked.cases_pushed hop hcode hpushed with hold | ⟨i, r, hr, rfl⟩
  · obtain ⟨f, hf⟩ := h entry captured ⟨op, hold, hcode, v, hpushed⟩
    exact ⟨f, hf.extend chunk⟩
  · exact ⟨_, hlinked.holdsFunction hr⟩

end Program

/-- The functions of an engine are those of function literals. -/
theorem Engine.History.holding {e : Engine} {config : Config} {natives : Builtin → NativeBody}
    {talk : Talk} {store : Store} {past : Set Activity}
    (h : History config natives talk store e past) : e.setting.program.Holding :=
  h.program Program.holding_empty fun _ _ hp hformed =>
    Program.holding_extend hp (chunkClosed_of_formed _ hformed) fun _ hf =>
      closed_of_mem_chunkFunctions hformed hf

/-! ### Declarations -/

/-- Variables of a scope have been given values, `nil` if there are not enough of them, and
nothing else has changed in any scope. -/
structure Declared (scope : ScopeRef) (names : List Identifier) (values : List Value)
    (s s' : Store) : Prop where
  get : ∀ j name, names[j]? = some name →
    (s'.scope scope).get? name.name = some (values.getD j .nil)
  others : ∀ name, (∀ x ∈ names, x.name ≠ name) →
    (s'.scope scope).get? name = (s.scope scope).get? name
  outside : ∀ ref, ref ≠ scope → s'.scope ref = s.scope ref
  size : s'.scopes.size = s.scopes.size

theorem scope_modify {s s' : Store} {scope : ScopeRef} {f : Bindings → Bindings}
    (h : s'.scopes = s.scopes.modify scope.index f) (hsize : scope.index < s.scopes.size) :
    s'.scope scope = f (s.scope scope) := by
  simp only [Store.scope, h, Array.getElem?_modify, if_true, Array.getElem?_eq_getElem hsize,
    Option.map_some, Option.getD_some]

theorem scope_modify_of_ne {s s' : Store} {scope ref : ScopeRef} {f : Bindings → Bindings}
    (h : s'.scopes = s.scopes.modify scope.index f) (hne : ref ≠ scope) :
    s'.scope ref = s.scope ref := by
  simp [Store.scope, h, Array.getElem?_modify, ScopeRef.index_ne hne]

/-- One more variable. -/
theorem Declared.cons {scope : ScopeRef} {name : Identifier} {rest : List Identifier}
    {values : List Value} {s s₁ s₂ : Store} (h : Declared scope rest values.tail s s₁)
    (hnew : ∀ x ∈ rest, name.name ≠ x.name) (hsize : scope.index < s₁.scopes.size)
    (hscopes : s₂.scopes = s₁.scopes.modify scope.index fun b =>
      (b.declare name.name .nil).declare name.name (values.headD .nil)) :
    Declared scope (name :: rest) values s s₂ where
  get := by
    intro j other hj
    rw [scope_modify hscopes hsize]
    cases j with
    | zero =>
      obtain rfl : name = other := Option.some.inj hj
      cases values <;> simp
    | succ j =>
      have hne := hnew other (List.mem_of_getElem? hj)
      have hget := h.get j other hj
      cases values <;> simpa [hne] using hget
  others := by
    intro other hother
    obtain ⟨hne, hrest⟩ := List.forall_mem_cons.1 hother
    rw [scope_modify hscopes hsize]
    simpa [hne] using h.others other hrest
  outside ref hne := (scope_modify_of_ne hscopes hne).trans (h.outside ref hne)
  size := by rw [hscopes, Array.size_modify, h.size]

namespace Setting

variable {setting : Setting} {call : Position → Nat → Reentry} {m : Machine} {s : Store}

/-- A step that changes scopes in some way, whatever is put out. -/
theorem runSteps_of_execute (trace : Bool) (m m' : Machine) (op : Op) {scopes : Array Bindings}
    (hop : setting.program.code[m.ip]? = some op)
    (h : ∀ s₁ : Store, s₁.scopes = s.scopes → ∃ s₂ : Store, s₂.scopes = scopes ∧
      setting.execute (call op.position m.depth) op ⟨m.past, s₁⟩ = .ok () ⟨m', s₂⟩) :
    ∃ s' : Store, s'.scopes = scopes ∧ ∀ n,
      setting.runSteps call trace (n + 1) ⟨m, s⟩ = setting.runSteps call trace n ⟨m', s'⟩ := by
  obtain ⟨s₂, hscopes, hexecute⟩ := h (announced trace op ⟨m, s⟩) (scopes_announced trace op ⟨m, s⟩)
  refine ⟨recorded trace ⟨m', s₂⟩, (scopes_recorded trace _).trans hscopes, fun n => ?_⟩
  refine runSteps_of_step (fun hhalted => ?_) ?_
  · rw [Array.getElem?_eq_none (of_decide_eq_true hhalted)] at hop
    cases hop
  · have hexecute' : setting.execute (call op.position (State.mk m s).machine.depth) op
        ⟨(State.mk m s).machine.past, announced trace op ⟨m, s⟩⟩ = .ok () ⟨m', s₂⟩ := hexecute
    rw [step_eq_execute hop, hexecute']

variable {places : List Nat} {exit : Option Nat} {ip : Nat} {σ : List Value} {scope : ScopeRef}
  {outer : List ScopeRef}

/-- Declaring a variable for the value on top of the stack. -/
theorem runSteps_bindLocal (call : Position → Nat → Reentry) (trace : Bool) {name : String}
    {position : Position} (v : Value) (σ : List Value)
    (h : setting.program.Holds places exit ip (bindLocal name position))
    (hscopes : m.scopes = scope :: outer) (hsize : scope.index < s.scopes.size) :
    ∃ s' : Store, s'.scopes = s.scopes.modify scope.index (fun b =>
        (b.declare name .nil).declare name v) ∧ ∀ n,
      setting.runSteps call trace (n + 2) ⟨{ m with ip := ip, stack := v :: σ }, s⟩ =
        setting.runSteps call trace n ⟨{ m with ip := ip + 2, stack := σ }, s'⟩ := by
  have hdeclare (t : Store) (ht : t.scopes = s.scopes) : ∃ t' : Store,
      t'.scopes = s.scopes.modify scope.index (·.declare name .nil) ∧
        setting.execute (call position m.depth) (.named .makeLocal name position)
          ⟨{ m with ip := ip + 1, stack := v :: σ }, t⟩ =
          .ok () ⟨{ m with ip := ip + 1, stack := v :: σ }, t'⟩ := by
    refine ⟨t.declare scope name .nil, ?_, ?_⟩
    · rw [Store.declare, ht]
    · rw [execute_makeLocal rfl]
      simp only [hscopes]
      rfl
  obtain ⟨s₁, hs₁, hrun₁⟩ := runSteps_of_execute trace { m with ip := ip, stack := v :: σ }
    { m with ip := ip + 1, stack := v :: σ } _ (h.head rfl) hdeclare
  have hstore (t : Store) (ht : t.scopes = s₁.scopes) : ∃ t' : Store,
      t'.scopes = s₁.scopes.modify scope.index (·.declare name v) ∧
        setting.execute (call position m.depth) (.named .store name position)
          ⟨{ m with ip := ip + 2, stack := v :: σ }, t⟩ =
          .ok () ⟨{ m with ip := ip + 2, stack := σ }, t'⟩ := by
    have hscope : t.scope scope = (s.scope scope).declare name .nil :=
      scope_modify (ht.trans hs₁) hsize
    have hfound : findScope t name (reach { m with ip := ip + 2, stack := v :: σ }) =
        some scope := by
      simp only [reach, hscopes, List.cons_append, findScope, hscope, Bindings.contains,
        Bindings.get?_declare, if_true, Option.isSome_some]
    refine ⟨t.declare scope name v, ?_, ?_⟩
    · rw [Store.declare, ht]
    · rw [execute_store rfl]
      simp only [assign, Op.named, Op.name, hfound]
  obtain ⟨s₂, hs₂, hrun₂⟩ := runSteps_of_execute trace { m with ip := ip + 1, stack := v :: σ }
    { m with ip := ip + 2, stack := σ } _ (h.tail.head rfl) hstore
  refine ⟨s₂, ?_, fun n => ?_⟩
  · rw [hs₂, hs₁]
    refine Array.ext_getElem? fun i => ?_
    simp only [Array.getElem?_modify]
    split
    · rw [Option.map_map]
      rfl
    · rfl
  · exact (hrun₁ (n + 1)).trans (hrun₂ n)

/-- **Declaring variables for the values on top of the stack.** -/
theorem runSteps_bindLocals (call : Position → Nat → Reentry) (trace : Bool)
    {names : List Identifier} (values σ : List Value)
    (h : setting.program.Holds places exit ip (bindLocals names))
    (hnames : (names.map Identifier.name).Nodup) (hscopes : m.scopes = scope :: outer)
    (hsize : scope.index < s.scopes.size) :
    ∃ s', Declared scope names values s s' ∧ ∀ n,
      setting.runSteps call trace (2 * names.length + n)
          ⟨{ m with ip := ip, stack := (adjust names.length values).reverse ++ σ }, s⟩ =
        setting.runSteps call trace n ⟨{ m with ip := ip + 2 * names.length, stack := σ }, s'⟩ := by
  induction names generalizing values σ with
  | nil =>
    refine ⟨s, ⟨nofun, fun _ _ => rfl, fun _ _ => rfl, rfl⟩, fun n => ?_⟩
    rw [List.length_nil, adjust_zero, Nat.mul_zero, Nat.zero_add]
    rfl
  | cons name rest ih =>
    -- The code declares the last variable first.
    rw [bindLocals_cons] at h
    rw [List.map_cons, List.nodup_cons, List.mem_map] at hnames
    obtain ⟨s₁, hdeclared, hrun₁⟩ :=
      ih values.tail (values.headD .nil :: σ) h.left hnames.2
    have hlength : (bindLocals rest).length = 2 * rest.length := by
      simp [bindLocals, bindLocal, Nat.mul_comm]
    have hlast := h.right
    rw [hlength] at hlast
    have hsize₁ : scope.index < s₁.scopes.size := hdeclared.size ▸ hsize
    obtain ⟨s₂, hs₂, hrun₂⟩ :=
      runSteps_bindLocal call trace (values.headD .nil) σ hlast hscopes hsize₁
    refine ⟨s₂, hdeclared.cons (fun x hx heq => hnames.1 ⟨x, hx, heq.symm⟩) hsize₁ hs₂, fun n => ?_⟩
    rw [List.length_cons, adjust_succ, List.reverse_cons, List.append_assoc, Nat.mul_succ,
      Nat.add_assoc, Nat.add_comm 2 n, ← Nat.add_assoc ip]
    exact (hrun₁ (n + 2)).trans (hrun₂ n)

/-- **The first instructions of a function give its parameters their values.** -/
theorem runSteps_parameters (call : Position → Nat → Reentry) (trace : Bool) {entry : Nat}
    {f : PlacedFunction} (values σ : List Value) (h : setting.program.HoldsFunction entry f)
    (hnames : (f.literal.parameters.map Identifier.name).Nodup)
    (hbound : values.length < Number.mantissaBound) (hscopes : m.scopes = scope :: outer)
    (hsize : scope.index < s.scopes.size) :
    ∃ s', Declared scope f.literal.parameters values s s' ∧ ∀ n,
      setting.runSteps call trace (2 * f.literal.parameters.length + n + 1)
          ⟨{ m with
            ip := entry
            stack := .number (Number.ofNat values.length) :: (values.reverse ++ σ) }, s⟩ =
        setting.runSteps call trace n
          ⟨{ m with ip := entry + 1 + 2 * f.literal.parameters.length, stack := σ }, s'⟩ := by
  have hcode : setting.program.Holds f.places none entry (f.literal.code f.number) := h
  have hcount (t : Store) (ht : t.scopes = s.scopes) : ∃ t' : Store, t'.scopes = s.scopes ∧
      setting.execute (call f.literal.position m.depth)
        (.counted .argumentCount f.literal.parameters.length f.literal.position)
        ⟨{ m with
          ip := entry + 1
          stack := .number (Number.ofNat values.length) :: (values.reverse ++ σ) }, t⟩ =
        .ok () ⟨{ m with
          ip := entry + 1
          stack := (adjust f.literal.parameters.length values).reverse ++ σ }, t'⟩ :=
    ⟨t, ht, argumentCount_cons _ _ hbound⟩
  obtain ⟨s₁, hs₁, hrun₁⟩ := runSteps_of_execute trace
    { m with
      ip := entry
      stack := .number (Number.ofNat values.length) :: (values.reverse ++ σ) }
    { m with
      ip := entry + 1
      stack := (adjust f.literal.parameters.length values).reverse ++ σ } _
    (hcode.left.left.head rfl) hcount
  obtain ⟨s₂, hdeclared, hrun₂⟩ := runSteps_bindLocals call trace values σ
    hcode.left.left.tail hnames hscopes (hs₁ ▸ hsize)
  have hscope (ref : ScopeRef) : s₁.scope ref = s.scope ref := by rw [Store.scope, hs₁, Store.scope]
  refine ⟨s₂, ⟨hdeclared.get, fun name hname => ?_, fun ref hne => ?_, ?_⟩, fun n => ?_⟩
  · rw [hdeclared.others name hname, hscope]
  · rw [hdeclared.outside ref hne, hscope]
  · rw [hdeclared.size, hs₁]
  · exact (hrun₁ _).trans (hrun₂ n)

end Setting

end ScriptEngine
