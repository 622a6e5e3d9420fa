import Mathlib.Data.List.Basic
import ScriptEngine.Proofs.Compilation.Instructions
import ScriptEngine.Proofs.Reentry.Activity
import ScriptEngine.Proofs.Safety.Activation

/-!
# Instructions on machines of a shape

An instruction that fits the shape of a machine trips none of the machine's
checks, and leaves the machine with one of the shapes that it leads to.

## Main definitions

* `Trades` — values on top of the stack take the place of others.
* `Stays` — an instruction leads to one of its targets in the same call.

## Main results

* `Setting.stays_execute` — instructions that stay in a call.
* `Setting.sound_callValue`, `Setting.sound_ret` — instructions that open and end
  calls.
-/

namespace ScriptEngine

open Exec

variable {setting : Setting} {reenter : Reentry} {m : Machine} {s : Store} {op : Op} {ip : Nat}
  {σ : Shape} {below : List Value} {lower : List Nat} {targets : List (Nat × Shape)}

/-! ### Values on top of the stack -/

/-- A number of values take the place of those above the stack `rest`, and nothing
else of the machine changes. -/
def Trades (given : Nat) (rest : List Value) (m : Machine) :
    EStateM.Result Failure State Unit → Prop
  | .ok _ st => ∃ ws, ws.length = given ∧ st.machine = { m with stack := ws ++ rest }
  | .error e _ => e.isCheck = false

namespace Trades

variable {given : Nat} {rest : List Value} {r : EStateM.Result Failure State Unit}

theorem of_ok {u : Unit} {s' : Store} (ws : List Value) (hws : ws.length = given)
    (h : r = .ok u ⟨{ m with stack := ws ++ rest }, s'⟩) : Trades given rest m r := by
  rw [h]
  exact ⟨ws, hws, rfl⟩

theorem of_error {e : Failure} {st : State} (he : e.isCheck = false) (h : r = .error e st) :
    Trades given rest m r := by
  rw [h]
  exact he

/-- The result of an operator is pushed. -/
theorem ofExcept {result : Except Cause Value} {post : Value → Prop} (h : Harmless post result) :
    Trades 1 rest m ((Exec.ofExcept result >>= push) ⟨{ m with stack := rest }, s⟩) := by
  cases result with
  | ok v => exact .of_ok [v] rfl rfl
  | error c => exact .of_error (e := .cause c) h rfl

end Trades

namespace Setting

theorem trades_loadIndex {target key : Value} {rest : List Value} (m : Machine) (s : Store) :
    Trades 1 rest m (loadIndex ⟨{ m with stack := target :: key :: rest }, s⟩) := by
  cases target with
  | nil => exact .of_ok [.nil] rfl rfl
  | table ref =>
    simp only [loadIndex, Exec.pop, bind, EStateM.bind]
    cases key.isNil with
    | true => exact .of_ok [.nil] rfl rfl
    | false =>
      have hkey := harmless_key key
      cases hresult : Key.ofValue key with
      | ok k => exact .of_ok [(s.table ref).get k] rfl rfl
      | error c =>
        rw [hresult] at hkey
        exact .of_error (e := .cause c) hkey rfl
  | _ => exact .of_error rfl rfl

theorem trades_storePairs (ref : TableRef) (count : Nat) {vs rest : List Value}
    (hvs : vs.length = 2 * count) (m : Machine) (s : Store) :
    Trades 0 rest m (storePairs ref count ⟨{ m with stack := vs ++ rest }, s⟩) := by
  induction count generalizing vs s with
  | zero =>
    rw [List.length_eq_zero_iff.1 hvs]
    exact .of_ok [] rfl rfl
  | succ count ih =>
    match vs, hvs with
    | key :: v :: vs, hvs =>
      have hlength : vs.length = 2 * count := by
        simp only [List.length_cons] at hvs
        omega
      simp only [storePairs, Exec.pop, bind, EStateM.bind, List.cons_append]
      cases key.isNil with
      | true => exact .of_error rfl rfl
      | false =>
        have hkey := harmless_key key
        cases hresult : Key.ofValue key with
        | ok k => exact ih hlength (s.modifyTable ref fun t => t.set k v)
        | error c =>
          rw [hresult] at hkey
          exact .of_error (e := .cause c) hkey rfl

theorem trades_storeIndex (count : Nat) {vs rest : List Value} (hvs : vs.length = 2 * count)
    (target : Value) (m : Machine) (s : Store) :
    Trades 1 rest m (storeIndex count ⟨{ m with stack := vs ++ target :: rest }, s⟩) := by
  have hrequire := require_of_le (m := { m with stack := vs ++ target :: rest }) (s := s)
    (n := 2 * count + 1) (by simp; omega)
  have htarget : (vs ++ target :: rest).getD (2 * count) .nil = target := by
    rw [List.getD_eq_getElem?_getD, ← hvs, List.getElem?_append_right (Nat.le_refl _), Nat.sub_self]
    rfl
  simp only [storeIndex, bind, EStateM.bind, hrequire, Exec.machine, htarget]
  cases target with
  | table ref =>
    have hpairs : Trades 0 (.table ref :: rest) m
        (storePairs ref count ⟨{ m with stack := vs ++ .table ref :: rest }, s⟩) :=
      trades_storePairs ref count hvs m s
    dsimp only
    cases hrun : storePairs ref count ⟨{ m with stack := vs ++ .table ref :: rest }, s⟩ with
    | ok u st =>
      rw [hrun] at hpairs
      obtain ⟨ws, hws, hst⟩ := hpairs
      rw [List.length_eq_zero_iff.1 hws] at hst
      exact ⟨[.table ref], rfl, hst⟩
    | error e st =>
      rw [hrun] at hpairs
      exact hpairs
  | _ => exact .of_error rfl rfl

/-- **Instructions that pop and push values trip no check.** -/
theorem trades_execute {taken given : Nat} (harity : op.arity? = some (taken, given))
    {vs rest : List Value} (hvs : vs.length = taken) (m : Machine) (s : Store) :
    Trades given rest m (setting.execute reenter op ⟨{ m with stack := vs ++ rest }, s⟩) := by
  unfold Op.arity? at harity
  cases hcode : op.code
  all_goals simp only [hcode, reduceCtorEq, Option.some.injEq, Prod.mk.injEq] at harity
  all_goals
    obtain ⟨rfl, rfl⟩ := harity
    simp only [execute, hcode]
  case load =>
    rw [List.length_eq_zero_iff.1 hvs]
    exact .of_ok [_] rfl rfl
  case store =>
    obtain ⟨v, rfl⟩ := List.length_eq_one_iff.1 hvs
    exact .of_ok [] rfl rfl
  case push =>
    rw [List.length_eq_zero_iff.1 hvs]
    cases op.pushed <;> exact .of_ok [_] rfl rfl
  case pop =>
    have hdrop : (vs ++ rest).drop (op.count?.getD 1) = rest := by rw [← hvs, List.drop_left]
    simp only [Exec.modifyStack, Exec.modifyMachine, hdrop]
    exact .of_ok [] rfl rfl
  case dup =>
    obtain ⟨v, rfl⟩ := List.length_eq_one_iff.1 hvs
    exact .of_ok [v, v] rfl rfl
  case swap =>
    obtain ⟨v, w, rfl⟩ := List.length_eq_two.1 hvs
    exact .of_ok [w, v] rfl rfl
  case newTable =>
    rw [List.length_eq_zero_iff.1 hvs]
    exact .of_ok [_] rfl rfl
  case loadIndex =>
    obtain ⟨target, key, rfl⟩ := List.length_eq_two.1 hvs
    exact trades_loadIndex m s
  case storeIndex =>
    obtain ⟨pairs, target, rfl⟩ : ∃ pairs target, vs = pairs ++ [target] :=
      ⟨vs.dropLast, vs.getLast (by rintro rfl; simp at hvs), (List.dropLast_concat_getLast _).symm⟩
    rw [List.append_assoc]
    exact trades_storeIndex _ (by simpa using hvs) target m s
  case binary operator =>
    obtain ⟨lhs, rhs, rfl⟩ := List.length_eq_two.1 hvs
    exact .ofExcept (harmless_binary (E := fun _ _ => True) s operator lhs rhs)
  case unary operator =>
    obtain ⟨v, rfl⟩ := List.length_eq_one_iff.1 hvs
    exact .ofExcept (harmless_unary (E := fun _ _ => True) s operator v)
  case iterUpdateState =>
    have hrequire := require_of_le (m := { m with stack := vs ++ rest }) (s := s)
      (n := op.count?.getD 1 + 1) (by simp; omega)
    simp only [iterUpdateState, bind, EStateM.bind, hrequire, Exec.modifyStack,
      Exec.modifyMachine]
    rw [List.set_append_left _ _ (by omega)]
    exact .of_ok _ (by rw [List.length_set, hvs]) rfl

/-! ### Instructions that stay in a call -/

end Setting

/-- The stack is small enough for its height to be a number. -/
def Machine.HasRoom (m : Machine) : Prop := m.stack.length < Number.mantissaBound

/-- An instruction trips no check, and leaves the innermost call with one of the shapes
that it leads to. -/
def Stays (targets : List (Nat × Shape)) (below : List Value) (lower : List Nat) (m : Machine) :
    EStateM.Result Failure State Unit → Prop
  | .ok _ st => st.machine.HasRoom → ∃ t ∈ targets, st.machine.ip = t.1 ∧
      st.machine.frames = m.frames ∧ st.machine.Shaped t.2 below lower
  | .error e _ => e.isCheck = false

namespace Stays

/-- The next instruction comes next. -/
theorem of_next {τ : Shape} {m' : Machine} {u : Unit} (hip : m'.ip = ip)
    (hframes : m'.frames = m.frames) (h : m'.HasRoom → m'.Shaped τ below lower) :
    Stays [(ip, τ)] below lower m (.ok u ⟨m', s⟩) :=
  fun hroom => ⟨_, List.mem_singleton_self _, hip, hframes, h hroom⟩

end Stays

namespace Setting

/-- Instructions that pop and push values. -/
theorem stays_arity (h : m.Shaped σ below lower) (hflow : op.flowByArity m.ip σ = some targets) :
    Stays targets below lower m (setting.execute reenter op ⟨m.past, s⟩) := by
  rw [Op.flowByArity] at hflow
  obtain ⟨⟨taken, given⟩, harity, hflow⟩ := Option.bind_eq_some_iff.1 hflow
  obtain ⟨τ, hτ, hflow⟩ := Option.bind_eq_some_iff.1 hflow
  obtain rfl := Option.some.inj hflow
  rw [Shape.pop_eq_some_iff] at hτ
  subst hτ
  obtain ⟨vs, rest, hstack, hvs, hrest⟩ := Machine.shaped_push.1 h
  have htrades : Trades given rest m.past
      (setting.execute reenter op ⟨{ m.past with stack := vs ++ rest }, s⟩) :=
    trades_execute harity (fits_values.1 hvs) m.past s
  have hpast : { m.past with stack := vs ++ rest } = m.past := by rw [← hstack]; rfl
  rw [hpast] at htrades
  cases hrun : setting.execute reenter op ⟨m.past, s⟩ with
  | error e st =>
    rw [hrun] at htrades
    exact htrades
  | ok u st =>
    rw [hrun] at htrades
    obtain ⟨m', s'⟩ := st
    obtain ⟨ws, hws, rfl⟩ := htrades
    exact .of_next rfl rfl fun _ => hrest.pushed (fits_values.2 hws)

theorem stays_jump {offset : Int} {target : Nat} {s : Store}
    (htarget : jumpTarget? ip offset = some target) (hmem : (target, σ) ∈ targets)
    {m' : Machine} (hip : m'.ip = ip + 1) (hframes : m'.frames = m.frames)
    (h : m'.Shaped σ below lower) : Stays targets below lower m (jump offset ⟨m', s⟩) := by
  rw [jumpTarget?] at htarget
  split at htarget
  · cases htarget
  · next hoffset =>
    obtain rfl := Option.some.inj htarget
    have hsum : ((m'.ip : Int) + offset) = (ip : Int) + 1 + offset := by rw [hip]; rfl
    simp only [jump, Exec.machine, bind, EStateM.bind, hsum, if_neg hoffset]
    exact fun _ => ⟨_, hmem, rfl, hframes, h⟩

theorem stays_jumpWhen (truth : Bool) (hflow : (do
      let target ← jumpTarget? m.ip op.offset
      let τ ← σ.pop 1
      pure [(m.ip + 1, τ), (target, τ)]) = some targets) (h : m.Shaped σ below lower) :
    Stays targets below lower m (jumpWhen truth op.offset ⟨m.past, s⟩) := by
  obtain ⟨target, htarget, hflow⟩ := Option.bind_eq_some_iff.1 hflow
  obtain ⟨τ, hτ, hflow⟩ := Option.bind_eq_some_iff.1 hflow
  obtain rfl := Option.some.inj hflow
  rw [Shape.pop_eq_some_iff] at hτ
  subst hτ
  obtain ⟨vs, rest, hstack, hvs, hrest⟩ := Machine.shaped_push.1 h
  obtain ⟨v, rfl⟩ := List.length_eq_one_iff.1 (fits_values.1 hvs)
  have hpop : Exec.pop ⟨m.past, s⟩ = .ok v ⟨{ m.past with stack := rest }, s⟩ := by
    have hpast : m.past.stack = v :: rest := hstack
    rw [Exec.pop, hpast]
  simp only [jumpWhen, bind, EStateM.bind, hpop]
  by_cases hv : v.isTruthy = truth
  · simp only [if_pos hv]
    exact stays_jump htarget (by simp) rfl rfl hrest
  · simp only [if_neg hv]
    exact fun _ => ⟨_, List.mem_cons_self, rfl, rfl, hrest⟩

/-- A count on top of the stack is popped as the number that it stands for. -/
theorem popCount_ok {c : Value} {n : Nat} {rest : List Value} (hstack : m.stack = c :: rest)
    (hc : IsCount c n) : Exec.popCount ⟨m, s⟩ = .ok n ⟨{ m with stack := rest }, s⟩ := by
  obtain ⟨x, rfl, hx, rfl⟩ := hc
  simp only [Exec.popCount, bind, EStateM.bind, Exec.pop, hstack, if_pos hx]
  rfl

theorem popMark_ok {mark : Nat} {marks : List Nat} (hmarks : m.marks = mark :: marks) :
    Exec.popMark ⟨m, s⟩ = .ok mark ⟨{ m with marks := marks }, s⟩ := by
  rw [Exec.popMark, hmarks]

theorem stays_push (h : m.Shaped σ below lower) (hcode : op.code = .push)
    (hflow : op.flow m.ip σ = some targets) :
    Stays targets below lower m (setting.execute reenter op ⟨m.past, s⟩) := by
  cases hoperand : op.operand with
  | count n =>
    -- The number of arguments goes on top of a callee and the arguments.
    simp only [Op.flow, hcode, hoperand, Option.map_eq_some_iff] at hflow
    obtain ⟨τ, hτ, rfl⟩ := hflow
    rw [Shape.pop_eq_some_iff] at hτ
    subst hτ
    obtain ⟨vs, rest, hstack, hvs, hrest⟩ := Machine.shaped_push.1 h
    obtain ⟨callee, args, rfl⟩ := List.exists_cons_of_length_eq_add_one (fits_values.1 hvs)
    have hargs : args.length = n := Nat.succ.inj (fits_values.1 hvs)
    simp only [execute, hcode, Op.pushed, hoperand, Exec.push, Exec.modifyStack,
      Exec.modifyMachine]
    refine .of_next rfl rfl fun hroom => ?_
    have hn : n < Number.mantissaBound := by
      have hlength : (Value.number (Number.ofNat n) :: m.stack).length < Number.mantissaBound :=
        hroom
      rw [hstack] at hlength
      simp only [List.length_cons, List.length_append] at hlength
      omega
    have hcount : IsCount (.number (Number.ofNat n)) args.length := hargs.symm ▸ isCount_ofNat hn
    have hready : Fits [.ready] (.number (Number.ofNat n) :: callee :: args) :=
      fits_singleton.2 ⟨_, callee, args, rfl, hcount⟩
    have hpast : m.past.stack = callee :: args ++ rest := hstack
    rw [hpast]
    exact hrest.pushed hready
  | none | value _ | offset _ =>
    refine stays_arity h ?_
    simpa only [Op.flow, hcode, hoperand] using hflow

theorem stays_swap (h : m.Shaped σ below lower) (hcode : op.code = .swap)
    (hflow : op.flow m.ip σ = some targets) :
    Stays targets below lower m (setting.execute reenter op ⟨m.past, s⟩) := by
  simp only [Op.flow, hcode] at hflow
  split at hflow
  · next top htop =>
    -- A callee comes below the number of its arguments.
    obtain rfl := Option.some.inj hflow
    have hσ : σ = Shape.push { σ with top := top } ([.value] ++ [.tallied]) := by
      rw [Shape.push]
      simp [← htop]
    rw [hσ] at h
    obtain ⟨vs, rest, hstack, hvs, hrest⟩ := Machine.shaped_push.1 h
    obtain ⟨callees, counts, rfl, hcallee, hcount⟩ := fits_append.1 hvs
    obtain ⟨callee, rfl⟩ := List.length_eq_one_iff.1 (fits_singleton.1 hcallee)
    obtain ⟨c, args, rfl, hc⟩ := fits_singleton.1 hcount
    have hpast : m.past.stack = callee :: c :: (args ++ rest) := by
      change m.stack = _
      rw [hstack]
      simp
    have hrequire : Exec.require 2 ⟨m.past, s⟩ = .ok () ⟨m.past, s⟩ :=
      require_of_le (by rw [hpast]; simp)
    simp only [execute, hcode, bind, EStateM.bind, hrequire, Exec.pop, hpast, Exec.push,
      Exec.modifyStack, Exec.modifyMachine]
    refine .of_next rfl rfl fun _ => ?_
    have hready : Fits [.ready] (c :: callee :: args) :=
      fits_singleton.2 ⟨c, callee, args, rfl, hc⟩
    exact hrest.pushed hready
  · exact stays_arity h hflow

theorem stays_argumentCount (h : m.Shaped σ below lower) (hcode : op.code = .argumentCount)
    (hflow : op.flow m.ip σ = some targets) :
    Stays targets below lower m (setting.execute reenter op ⟨m.past, s⟩) := by
  simp only [Op.flow, hcode] at hflow
  split at hflow
  · next top htop =>
    obtain rfl := Option.some.inj hflow
    have hσ : σ = Shape.push { σ with top := top } [.tallied] := by
      rw [Shape.push]
      simp [← htop]
    rw [hσ] at h
    obtain ⟨vs, rest, hstack, hvs, hrest⟩ := Machine.shaped_push.1 h
    obtain ⟨c, args, rfl, hc⟩ := fits_singleton.1 hvs
    have hpast : m.past.stack = c :: (args.reverse.reverse ++ rest) := by
      rw [List.reverse_reverse]
      exact hstack
    rw [← List.length_reverse] at hc
    simp only [execute, hcode, bind, EStateM.bind, popCount_ok hpast hc, Exec.modifyStack,
      Exec.modifyMachine, argumentCount_reverse_append]
    refine .of_next rfl rfl fun _ => ?_
    exact hrest.pushed (fits_values.2 (by rw [List.length_reverse, length_adjust]))
  · cases hflow

/-- Behind the last mark of a machine is the shape behind the last mark of its shape. -/
theorem shaped_below_mark (h : m.Shaped σ below lower) {next : List Cell} {rest : List (List Cell)}
    (hrest : σ.rest = next :: rest) :
    ∃ vs stack marks, m.stack = vs ++ stack ∧ m.marks = stack.length :: marks ∧
      Machine.Shaped { m with stack := stack, marks := marks } ⟨next, rest, σ.scopes⟩ below
        lower := by
  obtain ⟨top, _, scopes⟩ := σ
  subst hrest
  obtain ⟨vs, stack, marks, hstack, hmarks, -, hshaped⟩ := Machine.shaped_mark.1 h
  exact ⟨vs, stack, marks, hstack, hmarks, hshaped⟩

theorem stays_assignSet (h : m.Shaped σ below lower) (hcode : op.code = .assignSet)
    (hflow : op.flow m.ip σ = some targets) :
    Stays targets below lower m (setting.execute reenter op ⟨m.past, s⟩) := by
  simp only [Op.flow, hcode] at hflow
  split at hflow
  · next next rest hrest =>
    obtain rfl := Option.some.inj hflow
    obtain ⟨vs, stack, marks, hstack, hmarks, hshaped⟩ := shaped_below_mark h hrest
    have hpast : m.past.stack = vs.reverse.reverse ++ stack := by
      rw [List.reverse_reverse]
      exact hstack
    simp only [execute, hcode, bind, EStateM.bind, popMark_ok (m := m.past) hmarks,
      Exec.modifyStack, Exec.modifyMachine, hpast, Stack.resize_reverse_append]
    refine .of_next rfl rfl fun _ => ?_
    exact hshaped.pushed (fits_values.2 (by rw [List.length_reverse, length_adjust]))
  · cases hflow

theorem stays_assignCount (h : m.Shaped σ below lower) (hcode : op.code = .assignCount)
    (hflow : op.flow m.ip σ = some targets) :
    Stays targets below lower m (setting.execute reenter op ⟨m.past, s⟩) := by
  simp only [Op.flow, hcode] at hflow
  split at hflow
  · next next rest hrest =>
    obtain rfl := Option.some.inj hflow
    obtain ⟨vs, stack, marks, hstack, hmarks, hshaped⟩ := shaped_below_mark h hrest
    have hpast : m.past.stack = vs ++ stack := hstack
    simp only [execute, hcode, bind, EStateM.bind, popMark_ok (m := m.past) hmarks,
      Exec.modifyStack, Exec.modifyMachine, hpast]
    refine .of_next rfl rfl fun hroom => ?_
    rw [Machine.HasRoom, List.length_cons, List.length_append] at hroom
    have hcount : (vs ++ stack).length - stack.length = vs.length := by simp
    rw [hcount]
    have htallied : Fits [.tallied] (.number (Number.ofNat vs.length) :: vs) :=
      fits_singleton.2 ⟨_, vs, rfl, isCount_ofNat (by omega)⟩
    exact hshaped.pushed htallied
  · cases hflow

theorem stays_iterJumpIfDone (h : m.Shaped σ below lower) (hcode : op.code = .iterJumpIfDone)
    (hflow : op.flow m.ip σ = some targets) :
    Stays targets below lower m (setting.execute reenter op ⟨m.past, s⟩) := by
  simp only [Op.flow, hcode] at hflow
  split at hflow
  · next next rest target hrest htarget =>
    obtain rfl := Option.some.inj hflow
    obtain ⟨vs, stack, marks, hstack, hmarks, hshaped⟩ := shaped_below_mark h hrest
    have hpast : m.past.marks = stack.length :: marks := hmarks
    have hcut : Stack.cutTo stack.length m.past.stack = stack := by
      change Stack.cutTo stack.length m.stack = stack
      rw [hstack, Stack.cutTo_length_append]
    simp only [execute, hcode, iterJumpIfDone, Exec.machine, bind, EStateM.bind, hpast]
    by_cases hdone : ((Stack.above stack.length m.past.stack).headD .nil).isNil = true
    · simp only [if_pos hdone]
      change Stays _ below lower m (jump op.offset
        ⟨{ m.past with stack := Stack.cutTo stack.length m.past.stack, marks := marks }, s⟩)
      rw [hcut]
      exact stays_jump htarget (by simp) rfl rfl hshaped
    · simp only [if_neg hdone]
      exact fun _ => ⟨_, List.mem_cons_self, rfl, rfl, h⟩
  · cases hflow

/-- **Instructions that stay in a call trip no check.** -/
theorem stays_execute (h : m.Shaped σ below lower) (hflow : op.flow m.ip σ = some targets)
    (hcall : op.code ≠ .call) (hiter : op.code ≠ .iterNext) (hret : op.code ≠ .ret) :
    Stays targets below lower m (setting.execute reenter op ⟨m.past, s⟩) := by
  cases hcode : op.code with
  | call => exact absurd hcode hcall
  | iterNext => exact absurd hcode hiter
  | ret => exact absurd hcode hret
  | push => exact stays_push h hcode hflow
  | swap => exact stays_swap h hcode hflow
  | argumentCount => exact stays_argumentCount h hcode hflow
  | assignSet => exact stays_assignSet h hcode hflow
  | assignCount => exact stays_assignCount h hcode hflow
  | iterJumpIfDone => exact stays_iterJumpIfDone h hcode hflow
  | startBlock =>
    simp only [Op.flow, hcode, Option.some.injEq] at hflow
    subst hflow
    obtain ⟨stack, marks, hstack, hmarks, hfits, hscopes⟩ := h
    simp only [execute, hcode]
    refine .of_next rfl rfl fun _ => ⟨stack, marks, hstack, hmarks, hfits, ?_⟩
    exact congrArg (· + 1) hscopes
  | endBlock =>
    simp only [Op.flow, hcode] at hflow
    split at hflow
    · obtain rfl := Option.some.inj hflow
      obtain ⟨stack, marks, hstack, hmarks, hfits, hscopes⟩ := h
      simp only [execute, hcode]
      refine .of_next rfl rfl fun _ => ⟨stack, marks, hstack, hmarks, hfits, ?_⟩
      exact List.length_tail.trans (congrArg (· - 1) hscopes)
    · cases hflow
  | makeLocal =>
    simp only [Op.flow, hcode] at hflow
    split at hflow
    · next hscope =>
      obtain rfl := Option.some.inj hflow
      have hne : m.past.scopes ≠ [] := by
        obtain ⟨-, -, -, -, -, hscopes⟩ := h
        exact List.length_pos_iff.1 (by rw [← hscopes] at hscope; exact hscope)
      obtain ⟨scope, others, hopen⟩ := List.exists_cons_of_ne_nil hne
      simp only [execute, hcode, Exec.machine, bind, EStateM.bind, hopen]
      exact .of_next rfl rfl fun _ => h
    · cases hflow
  | jump =>
    simp only [Op.flow, hcode, Option.map_eq_some_iff] at hflow
    obtain ⟨target, htarget, rfl⟩ := hflow
    simp only [execute, hcode]
    exact stays_jump htarget (by simp) rfl rfl h
  | jumpIf =>
    simp only [Op.flow, hcode] at hflow
    simp only [execute, hcode]
    exact stays_jumpWhen true hflow h
  | jumpIfNot =>
    simp only [Op.flow, hcode] at hflow
    simp only [execute, hcode]
    exact stays_jumpWhen false hflow h
  | assignPush =>
    simp only [Op.flow, hcode, Option.some.injEq] at hflow
    subst hflow
    simp only [execute, hcode]
    refine .of_next rfl rfl fun _ => ?_
    exact Machine.shaped_mark.2 ⟨[], m.stack, m.marks, rfl, rfl, .nil, h⟩
  | leave =>
    simp only [Op.flow, hcode] at hflow
    cases hflow
  | _ =>
    refine stays_arity h ?_
    simpa only [Op.flow, hcode] using hflow

end Setting

end ScriptEngine
