import ScriptEngine.Proofs.Reentry.Principle

/-!
# Where functions come from

No instruction makes a function but the one that pushes it, which closes over the
scopes in reach.  All others move values around.

## Main definitions

* `Preserves` — a part of an instruction makes no functions.

## Main results

* `Setting.known_execute` — an instruction that does not call a native function
  leaves known functions, if the function that it pushes is one of them.
-/

namespace ScriptEngine

open Exec

/-! ### Parts of instructions -/

/-- What is left by a part of an instruction that makes no functions. -/
def Leaves (E : Functions) {α : Type} (post : α → Prop) : EStateM.Result Failure State α → Prop
  | .ok a st => post a ∧ st.Known E
  | .error _ st => st.store.Known E

/-- A part of an instruction makes no functions. -/
def Preserves (E : Functions) {α : Type} (post : α → Prop) (x : Exec α) : Prop :=
  ∀ st : State, st.Known E → Leaves E post (x st)

variable {E : Functions} {α β : Type} {post : α → Prop} {after : β → Prop}

namespace Preserves

theorem pure {a : α} (h : post a) : Preserves E post (Pure.pure a) := fun _ hst => ⟨h, hst⟩

theorem bind {x : Exec α} {f : α → Exec β} (hx : Preserves E post x)
    (hf : ∀ a, post a → Preserves E after (f a)) : Preserves E after (x >>= f) := by
  intro st hst
  have hfirst := hx st hst
  change Leaves E after (EStateM.bind x f st)
  rw [EStateM.bind]
  cases hrun : x st with
  | ok a st' =>
    rw [hrun] at hfirst
    exact hf a hfirst.1 st' hfirst.2
  | error e st' =>
    rw [hrun] at hfirst
    exact hfirst

theorem fail (c : Cause) : Preserves E post (Exec.fail c) := fun _ hst => hst.2

/-- What is behind a failure does not matter. -/
theorem fail_bind {c : Cause} {f : α → Exec β} : Preserves E after (Exec.fail c >>= f) :=
  fun _ hst => hst.2

theorem ite {c : Prop} [Decidable c] {x y : Exec α} (hx : Preserves E post x)
    (hy : Preserves E post y) : Preserves E post (if c then x else y) := by
  split
  · exact hx
  · exact hy

theorem machine : Preserves E (fun m => AllKnown E m.stack) Exec.machine :=
  fun _ hst => ⟨hst.1, hst⟩

theorem modifyMachine {f : Machine → Machine}
    (hf : ∀ m, AllKnown E m.stack → AllKnown E (f m).stack) :
    Preserves E (fun _ => True) (Exec.modifyMachine f) :=
  fun st hst => ⟨trivial, hf st.machine hst.1, hst.2⟩

theorem modifyStack {f : List Value → List Value} (hf : ∀ vs, AllKnown E vs → AllKnown E (f vs)) :
    Preserves E (fun _ => True) (Exec.modifyStack f) :=
  modifyMachine fun m hm => hf m.stack hm

theorem fromStore {f : Store → α} (hf : ∀ s, s.Known E → post (f s)) :
    Preserves E post (Exec.fromStore f) := fun st hst => ⟨hf st.store hst.2, hst⟩

theorem modifyStore {f : Store → Store} (hf : ∀ s, s.Known E → (f s).Known E) :
    Preserves E (fun _ => True) (Exec.modifyStore f) :=
  fun st hst => ⟨trivial, hst.1, hf st.store hst.2⟩

theorem onStore {f : Store → α × Store} (hf : ∀ s, s.Known E → post (f s).1 ∧ (f s).2.Known E) :
    Preserves E post (Exec.onStore f) :=
  fun st hst => ⟨(hf st.store hst.2).1, hst.1, (hf st.store hst.2).2⟩

theorem ofExcept {r : Except Cause α} (hr : Harmless post r) :
    Preserves E post (Exec.ofExcept r) := by
  cases r with
  | ok a => exact .pure hr
  | error c => exact .fail c

theorem push {v : Value} (hv : v.Known E) : Preserves E (fun _ => True) (Exec.push v) :=
  modifyStack fun _ hvs => .cons hv hvs

theorem pop : Preserves E (Value.Known E) Exec.pop := by
  rintro ⟨m, s⟩ ⟨hm, hs⟩
  rw [Exec.pop]
  cases hstack : m.stack with
  | nil => exact hs
  | cons v rest =>
    rw [hstack] at hm
    exact ⟨hm v List.mem_cons_self, hm.of_subset (List.subset_cons_self _ _), hs⟩

theorem popMark : Preserves E (fun _ => True) Exec.popMark := by
  rintro ⟨m, s⟩ ⟨hm, hs⟩
  rw [Exec.popMark]
  cases m.marks with
  | nil => exact hs
  | cons mark rest => exact ⟨trivial, hm, hs⟩

theorem popCount : Preserves E (fun _ => True) Exec.popCount := by
  refine pop.bind fun v _ => ?_
  split
  · exact .ite (.pure trivial) (.fail _)
  · exact .fail _

theorem require (n : Nat) : Preserves E (fun _ => True) (Exec.require n) :=
  machine.bind fun _ _ => .ite (.fail _) (.pure trivial)

end Preserves

/-! ### Values of variables -/

theorem known_lookup {m : Machine} {s : Store} (hs : s.Known E) (name : String) :
    (lookup m s name).Known E := by
  rw [lookup]
  split
  · exact (hs.scope _).getD name
  · exact hs.globals.getD name

theorem known_assign {m : Machine} {s : Store} (hs : s.Known E) (name : String) {v : Value}
    (hv : v.Known E) : (assign m name v s).Known E := by
  rw [assign]
  split
  · exact hs.declare _ name hv
  · split
    · exact hs.removeGlobal name
    · exact hs.setGlobal name hv

theorem AllKnown.nils (n : Nat) : AllKnown E (List.replicate n .nil) := by
  intro v hv
  rw [List.eq_of_mem_replicate hv]
  trivial

theorem AllKnown.drop {vs : List Value} (h : AllKnown E vs) (n : Nat) : AllKnown E (vs.drop n) :=
  h.of_subset (List.drop_subset n vs)

theorem AllKnown.above {vs : List Value} (h : AllKnown E vs) (height : Nat) :
    AllKnown E (Stack.above height vs) :=
  h.of_subset (List.reverse_subset.2 (List.take_subset _ _))

theorem AllKnown.resize {vs : List Value} (h : AllKnown E vs) (height : Nat) :
    AllKnown E (Stack.resize height vs) := .append (.nils _) (h.drop _)

/-! ### Instructions -/

namespace Setting

variable {setting : Setting} {reenter : Reentry} {op : Op} {m : Machine} {s : Store}

theorem preserves_jump (offset : Int) : Preserves E (fun _ => True) (jump offset) :=
  Preserves.machine.bind fun _ _ => .ite (.fail _) (.modifyMachine fun _ hm => hm)

theorem preserves_jumpWhen (truth : Bool) (offset : Int) :
    Preserves E (fun _ => True) (jumpWhen truth offset) :=
  Preserves.pop.bind fun _ _ => .ite (preserves_jump offset) (.pure trivial)

theorem preserves_loadIndex : Preserves E (fun _ => True) loadIndex := by
  refine Preserves.pop.bind fun target _ => Preserves.pop.bind fun key _ => ?_
  split
  · exact .push trivial
  · next ref _ =>
    refine .ite (.push trivial) ((Preserves.ofExcept (harmless_key key)).bind fun k _ => ?_)
    exact (Preserves.fromStore fun s hs => (hs.table ref).get k).bind fun v hv => .push hv
  · exact .fail _

theorem preserves_storePairs (ref : TableRef) (n : Nat) :
    Preserves E (fun _ => True) (storePairs ref n) := by
  induction n with
  | zero => exact .pure trivial
  | succ n ih =>
    refine Preserves.pop.bind fun key _ => Preserves.pop.bind fun v hv => ?_
    have hstore : Preserves E (fun _ => True) (do
        let key ← Exec.ofExcept (Key.ofValue key)
        Exec.modifyStore fun s => s.modifyTable ref fun t => t.set key v
        storePairs ref n) :=
      (Preserves.ofExcept (harmless_key key)).bind fun k _ =>
        (Preserves.modifyStore fun s hs => hs.modifyTable ref fun t ht => ht.set k hv).bind
          fun _ _ => ih
    exact .ite .fail_bind hstore

theorem preserves_storeIndex (count : Nat) : Preserves E (fun _ => True) (storeIndex count) := by
  refine (Preserves.require _).bind fun _ _ => Preserves.machine.bind fun m _ => ?_
  split
  · exact preserves_storePairs _ _
  · exact .fail _

theorem preserves_iterJumpIfDone (offset : Int) :
    Preserves E (fun _ => True) (iterJumpIfDone offset) := by
  refine Preserves.machine.bind fun m _ => ?_
  split
  · exact .fail _
  · refine .ite ?_ (.pure trivial)
    exact (Preserves.modifyMachine fun m hm => hm.drop _).bind fun _ _ => preserves_jump offset

theorem preserves_iterUpdateState (count : Nat) :
    Preserves E (fun _ => True) (iterUpdateState count) := by
  refine (Preserves.require _).bind fun _ _ => .modifyStack fun vs hvs v hv => ?_
  rcases List.mem_or_eq_of_mem_set hv with hv | rfl
  · exact hvs v hv
  · exact hvs.getD _

theorem preserves_leaveFunction {results : List Value} (h : AllKnown E results) :
    Preserves E (fun _ => True) (setting.leaveFunction results) := by
  refine .modifyMachine fun m hm => ?_
  split
  · refine .append ?_ (hm.drop _)
    exact (h.adjustTo _).of_subset (List.reverse_subset.2 fun _ => id)
  · exact .singleton h.headD

/-- An instruction that makes no call and does not push a function. -/
theorem preserves_execute (hcall : op.code ≠ .call) (hiter : op.code ≠ .iterNext)
    (hpush : op.code = .push → ∀ entry captured, op.pushed ≠ .function entry captured) :
    Preserves E (fun _ => True) (setting.execute reenter op) := by
  unfold execute
  cases hcode : op.code with
  | call => exact absurd hcode hcall
  | iterNext => exact absurd hcode hiter
  | load =>
    exact Preserves.machine.bind fun m _ =>
      (Preserves.fromStore fun s hs => known_lookup hs op.name).bind fun v hv => .push hv
  | store =>
    exact Preserves.pop.bind fun v hv => Preserves.machine.bind fun m _ =>
      .modifyStore fun s hs => known_assign hs op.name hv
  | push =>
    have hne := hpush hcode
    cases hpushed : op.pushed with
    | function entry captured => exact absurd hpushed (hne entry captured)
    | _ => exact .push trivial
  | pop => exact .modifyStack fun vs hvs => hvs.drop _
  | dup =>
    refine Preserves.machine.bind fun m hm => ?_
    split
    · next v rest hstack => exact .push (hm v (by rw [hstack]; exact List.mem_cons_self))
    · exact .fail _
  | swap =>
    exact (Preserves.require 2).bind fun _ _ => Preserves.pop.bind fun v hv =>
      Preserves.pop.bind fun w hw => (Preserves.push hv).bind fun _ _ => .push hw
  | newTable =>
    have hnew : Preserves E (fun _ => True) (Exec.onStore (·.newTable .empty)) :=
      .onStore fun s hs => ⟨trivial, hs.newTable Table.known_empty⟩
    exact hnew.bind fun ref _ => .push trivial
  | loadIndex => exact preserves_loadIndex
  | storeIndex => exact preserves_storeIndex _
  | binary operator =>
    refine Preserves.pop.bind fun lhs _ => Preserves.pop.bind fun rhs _ => ?_
    have hresult : Preserves E (Harmless (Value.Known E))
        (Exec.fromStore fun s => s.binary operator lhs rhs) :=
      .fromStore fun s _ => harmless_binary s operator lhs rhs
    exact hresult.bind fun r hr => (Preserves.ofExcept hr).bind fun v hv => .push hv
  | unary operator =>
    refine Preserves.pop.bind fun v _ => ?_
    have hresult : Preserves E (Harmless (Value.Known E))
        (Exec.fromStore fun s => s.unary operator v) :=
      .fromStore fun s _ => harmless_unary s operator v
    exact hresult.bind fun r hr => (Preserves.ofExcept hr).bind fun v hv => .push hv
  | startBlock =>
    have hopen : Preserves E (fun _ => True) (Exec.onStore Store.newScope) :=
      .onStore fun s hs => ⟨trivial, hs.newScope⟩
    exact hopen.bind fun _ _ => .modifyMachine fun _ hm => hm
  | endBlock => exact .modifyMachine fun _ hm => hm
  | makeLocal =>
    refine Preserves.machine.bind fun m _ => ?_
    split
    · exact .modifyStore fun s hs => hs.declare _ _ trivial
    · exact .fail _
  | ret =>
    dsimp only
    split
    · refine (Preserves.require _).bind fun _ _ => Preserves.machine.bind fun m hm => ?_
      refine (Preserves.modifyStack fun vs hvs => hvs.drop _).bind fun _ _ => ?_
      exact preserves_leaveFunction
        (hm.of_subset (List.reverse_subset.2 (List.take_subset _ _)))
    · refine Preserves.popMark.bind fun mark _ => Preserves.machine.bind fun m hm => ?_
      refine (Preserves.modifyStack fun vs hvs => hvs.drop _).bind fun _ _ => ?_
      exact preserves_leaveFunction (hm.above mark)
  | argumentCount =>
    refine Preserves.popCount.bind fun got _ => .modifyStack fun vs hvs => ?_
    split
    · exact hvs.drop _
    · exact .append (.nils _) hvs
  | jump => exact preserves_jump _
  | jumpIf => exact preserves_jumpWhen _ _
  | jumpIfNot => exact preserves_jumpWhen _ _
  | assignPush => exact .modifyMachine fun _ hm => hm
  | assignSet =>
    exact Preserves.popMark.bind fun mark _ => .modifyStack fun vs hvs => hvs.resize _
  | assignCount =>
    exact Preserves.popMark.bind fun mark _ => .modifyStack fun vs hvs => .cons trivial hvs
  | iterJumpIfDone => exact preserves_iterJumpIfDone _
  | iterUpdateState => exact preserves_iterUpdateState _
  | leave => exact .fail _

/-- **An instruction that does not call a native function leaves known functions**, if
the function that it pushes is one of them. -/
theorem known_execute (hm : AllKnown E m.stack) (hs : s.Known E)
    (hpush : op.code = .push → ∀ entry captured, op.pushed = .function entry captured →
      E entry (reach m))
    (hnative : ∀ i f, m.invocation? op = some i → i.callee ≠ .native f) :
    Leaves E (fun _ => True) (setting.execute reenter op ⟨m, s⟩) := by
  by_cases hcall : op.code = .call ∨ op.code = .iterNext
  · cases hi : m.invocation? op with
    | none =>
      obtain ⟨e, stack, hrun⟩ := setting.execute_of_no_invocation hcall hi
      rw [hrun]
      exact hs
    | some i =>
      obtain ⟨-, hargs, hrest⟩ := known_invocation hi hm
      rw [execute_of_invocation hi, invoke]
      cases hcallee : i.callee with
      | native f => exact absurd hcallee (hnative i f hi)
      | function entry captured =>
        dsimp only
        split
        · exact hs
        · refine ⟨trivial, .cons trivial (.append ?_ hrest), hs.newScope⟩
          exact hargs.of_subset (List.reverse_subset.2 fun _ => id)
      | _ => exact hs
  · by_cases hfunction : op.code = .push ∧ ∃ entry captured, op.pushed = .function entry captured
    · obtain ⟨hcode, entry, captured, hpushed⟩ := hfunction
      simp only [execute, hcode, hpushed]
      exact ⟨trivial, .cons (hpush hcode entry captured hpushed) hm, hs⟩
    · refine preserves_execute (fun h => hcall (.inl h)) (fun h => hcall (.inr h)) ?_ ⟨m, s⟩
        ⟨hm, hs⟩
      exact fun hcode entry captured hpushed => hfunction ⟨hcode, entry, captured, hpushed⟩

end Setting

end ScriptEngine
