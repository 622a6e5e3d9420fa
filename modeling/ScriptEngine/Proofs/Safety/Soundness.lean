import ScriptEngine.Proofs.Reentry.Principle
import ScriptEngine.Proofs.Safety.Steps

/-!
# Machines go on with verified code

An instruction of a machine that executes verified code trips no check and takes
nothing off the stack below the base of the innermost call.  The machine behind it
executes verified code again, unless the instruction has ended its outermost call.

## Main definitions

* `Program.enters` — the functions whose code is verified.
* `Proceeds` — what an instruction leaves.
* `Machine.Within` — an instruction stays above the base of the innermost call.

## Main results

* `Setting.proceeds_execute` — every instruction trips no check and leaves a machine
  that executes verified code.
* `Machine.Sound.within` — it takes nothing off the stack below the base.
* `Machine.Sound.of_end` — what is on the stack when a text ends.
-/

namespace ScriptEngine

open Exec

/-! ### Failures of native functions -/

/-- Every value is known if every function is. -/
theorem Value.known_of_forall {E : Functions} (hE : ∀ entry captured, E entry captured)
    (v : Value) : v.Known E := by
  cases v with
  | function entry captured => exact hE entry captured
  | _ => trivial

theorem Store.known_of_forall {E : Functions} (hE : ∀ entry captured, E entry captured)
    (s : Store) : s.Known E where
  tables _ _ e _ := e.2.known_of_forall hE
  scopes _ _ e _ := e.2.known_of_forall hE
  globals e _ := e.2.known_of_forall hE

/-- A native function does not fail with a check of the machine. -/
theorem Honest.isCheck_eq_false {natives : Builtin → NativeBody} {talk : Talk}
    (h : Honest natives talk) {b : Builtin} {call : Reentry} {args : List Value} {s s' : Store}
    {e : Failure} (hrun : natives b call args s = .error e s') : e.isCheck = false := by
  have hall (entry : Nat) (captured : List ScopeRef) : True := trivial
  have hanswers (callee : Value) (args : List Value) (s : Store) :
      Answers (fun _ _ => True) (fun _ _ _ => True) s.scopes (call callee args s) := by
    refine ⟨trivial, ?_⟩
    cases call callee args s with
    | ok results s' => exact ⟨fun v _ => v.known_of_forall hall, s'.known_of_forall hall⟩
    | error e s' => exact s'.known_of_forall hall
  have hkeeps := h.keeps b args s (fun _ _ => True) (fun v _ => v.known_of_forall hall)
    (s.known_of_forall hall)
  have hends : Ends (fun _ _ => True) (fun _ _ _ => True) AllKnown s.scopes
      ((talk b args s).run call) :=
    Dialogue.ends (fun _ => trivial) (fun _ _ _ _ _ => trivial) (fun _ _ _ => .refl _) hkeeps
      fun callee args s _ _ _ => hanswers callee args s
  rw [← h.runs, hrun] at hends
  exact hends.2.2

/-! ### Instructions -/

/-- The functions whose code is verified. -/
def Program.enters (p : Program) : Functions := fun entry _ =>
  p.Verified (fun _ => False) entry .entry

/-- What an instruction leaves: no check has been tripped, and the machine executes
verified code, or has come to its end by a return from its outermost call. -/
def Proceeds (p : Program) (final : Shape → Prop) (nested : Bool) (m : Machine) (op : Op) :
    EStateM.Result Failure State Unit → Prop
  | .ok _ st => st.machine.HasRoom → st.machine.Sound p final nested ∨
      (op.code = .ret ∧ m.frames.length = nested.toNat ∧ st.machine.frames = [] ∧
        st.machine.ip = p.size)
  | .error e _ => e.isCheck = false

/-- What is left of the results of a call. -/
theorem fits_received (want : Option Nat) (results : List Value) :
    Fits (Shape.received want) (adjustTo want results).reverse := by
  cases want with
  | none => exact fits_singleton.2 trivial
  | some n => exact fits_values.2 (by rw [List.length_reverse]; exact length_adjust n results)

theorem Machine.invocation?_of_ready {m : Machine} {op : Op} {c callee : Value}
    {args rest : List Value} (hcode : op.code = .call)
    (hstack : m.stack = c :: callee :: (args ++ rest)) (hc : IsCount c args.length) :
    m.invocation? op = some ⟨callee, args.reverse, rest, op.count?⟩ := by
  obtain ⟨x, rfl, hx, hcount⟩ := hc
  have hle : 0 ≤ x ∧ args.length ≤ (args ++ rest).length :=
    ⟨hx, by rw [List.length_append]; exact Nat.le_add_right _ _⟩
  simp only [invocation?, hcode, hstack, hcount, if_pos hle, List.take_left, List.drop_left]

namespace Setting

variable {setting : Setting} {talk : Talk} {reenter : Reentry} {final : Shape → Prop}
  {nested : Bool} {m : Machine} {s : Store} {op : Op} {σ : Shape} {below : List Value}
  {lower : List Nat} {targets : List (Nat × Shape)}

/-- A call of a value whose arguments are gone from the shape. -/
theorem proceeds_invoke {i : Invocation} (honest : Honest setting.natives talk)
    (hcallee : i.callee.Known setting.program.enters)
    (hsuspended : Suspended setting.program final nested m.frames below lower)
    (h : Machine.Shaped { m with stack := i.rest } σ below lower)
    (hverified : setting.program.Verified (finalAt final m.frames) (m.ip + 1)
      (σ.push (Shape.received i.want))) :
    Proceeds setting.program final nested m op (setting.invoke reenter i m.past s) := by
  obtain ⟨callee, args, rest, want⟩ := i
  cases callee with
  | native f =>
    rw [invoke]
    dsimp only
    cases hrun : setting.natives f.body reenter args s with
    | error e s' => exact honest.isCheck_eq_false hrun
    | ok results s' =>
      refine fun _ => .inl ?_
      exact Machine.Shaped.sound rfl hsuspended (h.pushed (fits_received want results)) hverified
  | function entry captured =>
    rw [invoke]
    dsimp only
    split
    · rfl
    · refine fun hroom => .inl ?_
      obtain ⟨stack, marks, hstack, hmarks, hfits, hscopes⟩ := h
      have hlength : (Value.number (Number.ofNat args.length) :: (args.reverse ++ rest)).length <
          Number.mantissaBound := hroom
      have hargs : args.length < Number.mantissaBound := by
        simp only [List.length_cons, List.length_append, List.length_reverse] at hlength
        omega
      have hcount : IsCount (.number (Number.ofNat args.length)) args.reverse.length := by
        rw [List.length_reverse]
        exact isCount_ofNat hargs
      have htallied : Fits [.tallied] (.number (Number.ofNat args.length) :: args.reverse) :=
        fits_singleton.2 ⟨_, _, rfl, hcount⟩
      refine ⟨.entry, stack ++ below, marks ++ lower, ?_, ?_, ?_⟩
      · exact .call hsuspended hfits (congrArg List.length hstack) (congrArg List.length hmarks)
          hscopes hverified
      · exact ⟨_, [], by rw [← hstack]; rfl, hmarks, ⟨htallied, rfl⟩, rfl⟩
      · exact Program.Verified.mono hcallee fun _ _ => id
  | _ => rfl

/-- An iterator, its state and its control value lie below the last mark. -/
theorem shaped_iterator {cells : List Cell} {rest : List (List Cell)}
    (h : m.Shaped σ below lower) (htop : σ.top = [])
    (hrest : σ.rest = (.value :: .value :: .value :: cells) :: rest) :
    ∃ control state iterator others, m.stack = control :: state :: iterator :: others := by
  obtain ⟨top, _, scopes⟩ := σ
  subst htop hrest
  obtain ⟨vs, stack, marks, hstack, -, hvs, hbelow⟩ := Machine.shaped_mark.1 h
  cases hvs
  have hpush : Machine.Shaped { m with stack := stack, marks := marks }
      (Shape.push ⟨cells, rest, scopes⟩ (values 3)) below lower := hbelow
  obtain ⟨ws, others, hws, hlength, -⟩ := Machine.shaped_push.1 hpush
  match ws, fits_values.1 hlength with
  | [control, state, iterator], _ => exact ⟨control, state, iterator, others, hstack.trans hws⟩

/-- The end of a call goes on with the code behind it. -/
theorem proceeds_leaveFunction {m' : Machine} {results : List Value} (hcode : op.code = .ret)
    (hsuspended : Suspended setting.program final nested m.frames below lower)
    (hframes : m'.frames = m.frames) (h : m'.Shaped σ below lower) :
    Proceeds setting.program final nested m op (setting.leaveFunction results ⟨m', s⟩) := by
  rw [leaveFunction, Exec.modifyMachine, hframes]
  generalize hopen : m.frames = frames at hsuspended
  cases hsuspended with
  | text hnested =>
    subst hnested
    exact fun _ => .inr ⟨hcode, by rw [hopen]; rfl, rfl, rfl⟩
  | native hnested hreturn =>
    subst hnested
    exact fun _ => .inr ⟨hcode, by rw [hopen]; rfl, rfl, hreturn⟩
  | @call frame frames σ stack below marks lower hrest hfits hbase hmarks hscopes hverified =>
    obtain ⟨above, aboveMarks, hstack', hmarks', -, -⟩ := h
    have hcut : Stack.cutTo frame.base m'.stack = stack ++ below := by
      rw [hbase, hstack', Stack.cutTo_length_append]
    have hdrop : m'.marks.drop (m'.marks.length - frame.marks) = marks ++ lower := by
      have hlength : (aboveMarks ++ (marks ++ lower)).length - frame.marks = aboveMarks.length := by
        rw [hmarks, List.length_append, Nat.add_sub_cancel]
      rw [hmarks', hlength, List.drop_left]
    refine fun _ => .inl ⟨σ.push (Shape.received frame.want), below, lower, hrest, ?_, hverified⟩
    refine Machine.shaped_push.2 ⟨(adjustTo frame.want results).reverse, stack ++ below, ?_,
      fits_received _ _, stack, marks, rfl, hdrop, hfits, hscopes⟩
    rw [← hcut]
    rfl

theorem proceeds_ret (hsuspended : Suspended setting.program final nested m.frames below lower)
    (h : m.Shaped σ below lower) (hcode : op.code = .ret)
    (hflow : op.flow m.ip σ = some targets) :
    Proceeds setting.program final nested m op (setting.execute reenter op ⟨m.past, s⟩) := by
  simp only [Op.flow, hcode] at hflow
  cases hcount : op.count? with
  | some n =>
    simp only [hcount, Option.map_eq_some_iff] at hflow
    obtain ⟨τ, hτ, -⟩ := hflow
    rw [Shape.pop_eq_some_iff] at hτ
    subst hτ
    obtain ⟨vs, rest, hstack, hvs, hrest⟩ := Machine.shaped_push.1 h
    obtain rfl : vs.length = n := fits_values.1 hvs
    have hpast : m.past.stack = vs ++ rest := hstack
    have hrequire : Exec.require vs.length ⟨m.past, s⟩ = .ok () ⟨m.past, s⟩ :=
      require_of_le (by rw [hpast, List.length_append]; omega)
    simp only [execute, hcode, hcount, bind, EStateM.bind, hrequire, Exec.machine,
      Exec.modifyStack, Exec.modifyMachine, hpast, List.drop_left]
    exact proceeds_leaveFunction hcode hsuspended rfl hrest
  | none =>
    simp only [hcount] at hflow
    split at hflow
    · cases hflow
    · next hmarked =>
      obtain ⟨next, rest, hrest⟩ := List.exists_cons_of_ne_nil hmarked
      obtain ⟨vs, stack, marks, hstack, hmarks, hshaped⟩ := shaped_below_mark h hrest
      have hpast : m.past.stack = vs ++ stack := hstack
      simp only [execute, hcode, hcount, bind, EStateM.bind, popMark_ok (m := m.past) hmarks,
        Exec.machine, Exec.modifyStack, Exec.modifyMachine, hpast, Stack.cutTo_length_append]
      exact proceeds_leaveFunction hcode hsuspended rfl hshaped

/-- **Every instruction of verified code trips no check**, and leaves a machine that
executes verified code, unless it ends the outermost call. -/
theorem proceeds_execute (honest : Honest setting.natives talk)
    (hsound : m.Sound setting.program final nested)
    (hknown : AllKnown setting.program.enters m.stack)
    (hop : setting.program.code[m.ip]? = some op) :
    Proceeds setting.program final nested m op (setting.execute reenter op ⟨m.past, s⟩) := by
  obtain ⟨σ, below, lower, hsuspended, hshaped, hverified⟩ := hsound
  obtain ⟨targets, hflow, htargets⟩ := hverified.flow hop
  by_cases hcall : op.code = .call
  · simp only [Op.flow, hcall] at hflow
    split at hflow
    · next top htop =>
      obtain rfl := Option.some.inj hflow
      have hσ : σ = Shape.push { σ with top := top } [.ready] := by
        rw [Shape.push]
        simp [← htop]
      rw [hσ] at hshaped
      obtain ⟨vs, rest, hstack, hvs, hrest⟩ := Machine.shaped_push.1 hshaped
      obtain ⟨c, callee, args, rfl, hc⟩ := fits_singleton.1 hvs
      have hi := Machine.invocation?_of_ready (m := m.past) hcall hstack hc
      rw [execute_of_invocation hi]
      refine proceeds_invoke honest (hknown callee ?_) hsuspended hrest
        (htargets _ (List.mem_singleton_self _))
      rw [hstack]
      simp
    · cases hflow
  · by_cases hiter : op.code = .iterNext
    · simp only [Op.flow, hiter] at hflow
      split at hflow
      · next rest others htop hrest =>
        obtain rfl := Option.some.inj hflow
        obtain ⟨control, state, iterator, others, hstack⟩ := shaped_iterator hshaped htop hrest
        have hi : m.past.invocation? op = some ⟨iterator, [state, control], m.stack, none⟩ := by
          have hpast : m.past.stack = control :: state :: iterator :: others := hstack
          simp only [Machine.invocation?, hiter, hpast, hstack]
        rw [execute_of_invocation hi]
        refine proceeds_invoke honest (hknown iterator ?_) hsuspended hshaped
          (htargets _ (List.mem_singleton_self _))
        rw [hstack]
        simp
      · cases hflow
    · by_cases hret : op.code = .ret
      · exact proceeds_ret hsuspended hshaped hret hflow
      · have hstays : Stays targets below lower m (setting.execute reenter op ⟨m.past, s⟩) :=
          stays_execute hshaped hflow hcall hiter hret
        revert hstays
        cases setting.execute reenter op ⟨m.past, s⟩ with
        | error e st => exact id
        | ok u st =>
          intro hstays hroom
          obtain ⟨t, ht, hip, hframes, hshaped'⟩ := hstays hroom
          refine .inl (hshaped'.sound hframes hsuspended ?_)
          rw [hip]
          exact htargets t ht

end Setting

/-! ### What instructions take off the stack -/

/-- The last mark is on the stack and not below the base of the innermost call. -/
def Machine.Marked (m : Machine) : Prop :=
  ∃ mark, m.marks.head? = some mark ∧ m.base ≤ mark ∧ mark ≤ m.stack.length

/-- What an instruction takes off the stack lies above the base of the innermost call,
and the scope that it closes is not the outermost one of the call. -/
structure Machine.Within (m : Machine) (op : Op) : Prop where
  pop : op.code = .pop → m.base + op.count?.getD 1 ≤ m.stack.length
  argumentCount : op.code = .argumentCount → ∃ x rest, m.stack = .number x :: rest ∧
    m.base + Number.toCount x ≤ rest.length
  assignSet : op.code = .assignSet → m.Marked
  retCounted : ∀ n, op.code = .ret → op.count? = some n → m.base + n ≤ m.stack.length
  retMarked : op.code = .ret → op.count? = none → m.Marked
  endBlock : op.code = .endBlock → 2 ≤ m.scopes.length

namespace Machine

variable {p : Program} {final : Shape → Prop} {nested : Bool} {m : Machine} {op : Op} {σ : Shape}
  {below : List Value} {lower : List Nat}

/-- Values on top of a shape are above the base. -/
theorem Shaped.base_add_le {n : Nat} (h : m.Shaped (σ.push (values n)) below lower) :
    below.length + n ≤ m.stack.length := by
  obtain ⟨vs, rest, hstack, hvs, hrest⟩ := shaped_push.1 h
  have hle : below.length ≤ rest.length := hrest.length_le
  rw [hstack, List.length_append, fits_values.1 hvs]
  omega

/-- A mark of a shape is above the base. -/
theorem Shaped.marked (h : m.Shaped σ below lower) (hbase : below.length = m.base)
    (hrest : σ.rest ≠ []) : m.Marked := by
  obtain ⟨next, rest, hrest⟩ := List.exists_cons_of_ne_nil hrest
  obtain ⟨vs, stack, marks, hstack, hmarks, hshaped⟩ := Setting.shaped_below_mark h hrest
  have hle : below.length ≤ stack.length := hshaped.length_le
  refine ⟨stack.length, by rw [hmarks]; rfl, hbase ▸ hle, ?_⟩
  rw [hstack, List.length_append]
  omega

/-- **An instruction of verified code takes nothing off the stack below the base of its
call**, and does not close the outermost scope of the call. -/
theorem Sound.within (h : m.Sound p final nested) (hop : p.code[m.ip]? = some op) :
    m.Within op := by
  obtain ⟨σ, below, lower, hsuspended, hshaped, hverified⟩ := h
  obtain ⟨targets, hflow, -⟩ := hverified.flow hop
  have hbase := hsuspended.length_below
  constructor
  · intro hcode
    simp only [Op.flow, hcode, Op.flowByArity, Op.arity?] at hflow
    obtain ⟨_, ⟨⟩, hflow⟩ := Option.bind_eq_some_iff.1 hflow
    obtain ⟨τ, hτ, -⟩ := Option.bind_eq_some_iff.1 hflow
    rw [Shape.pop_eq_some_iff] at hτ
    rw [hτ] at hshaped
    exact hbase ▸ hshaped.base_add_le
  · intro hcode
    simp only [Op.flow, hcode] at hflow
    split at hflow
    · next top htop =>
      have hσ : σ = Shape.push { σ with top := top } [.tallied] := by
        rw [Shape.push]
        simp [← htop]
      rw [hσ] at hshaped
      obtain ⟨vs, rest, hstack, hvs, hrest⟩ := shaped_push.1 hshaped
      obtain ⟨c, args, rfl, x, rfl, -, hcount⟩ := fits_singleton.1 hvs
      have hle : below.length ≤ rest.length := hrest.length_le
      refine ⟨x, args ++ rest, hstack, ?_⟩
      rw [hcount, List.length_append]
      omega
    · cases hflow
  · intro hcode
    simp only [Op.flow, hcode] at hflow
    split at hflow
    · next hrest => exact hshaped.marked hbase (by rw [hrest]; exact List.cons_ne_nil _ _)
    · cases hflow
  · intro n hcode hcount
    simp only [Op.flow, hcode, hcount, Option.map_eq_some_iff] at hflow
    obtain ⟨τ, hτ, -⟩ := hflow
    rw [Shape.pop_eq_some_iff] at hτ
    rw [hτ] at hshaped
    exact hbase ▸ hshaped.base_add_le
  · intro hcode hcount
    simp only [Op.flow, hcode, hcount] at hflow
    split at hflow
    · cases hflow
    · next hrest => exact hshaped.marked hbase hrest
  · intro hcode
    simp only [Op.flow, hcode] at hflow
    split at hflow
    · next hscopes =>
      obtain ⟨-, -, -, -, -, hlength⟩ := hshaped
      rw [hlength]
      exact hscopes
    · cases hflow

/-- A text that has run off the end of its program leaves what its final shape says. -/
theorem Sound.of_end (h : m.Sound p final nested) (hend : p.size ≤ m.ip) :
    m.frames = [] ∧ ∃ σ, final σ ∧ m.Shaped σ [] [] := by
  obtain ⟨σ, below, lower, hsuspended, hshaped, hverified⟩ := h
  obtain ⟨-, hframes, hfinal⟩ := hverified.at_end (Array.getElem?_eq_none hend)
  rw [hframes] at hsuspended
  cases hsuspended
  exact ⟨hframes, σ, hfinal, hshaped⟩

end Machine

end ScriptEngine
