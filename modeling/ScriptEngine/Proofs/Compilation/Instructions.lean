import ScriptEngine.Proofs.Compilation.Agreement
import ScriptEngine.Proofs.Number.Count

/-!
# Instructions on known stacks

What instructions do where the topmost values are known, said without the stack
operations that they are made of.

## Main results

* `Stack.resize_reverse_append`, `Stack.above_reverse_append` — the values above
  a mark.
* `Setting.jump_eq`, `Setting.jumpWhen_cons` — jumps.
* `Setting.storePairs_stackedPairs` — storing keys and values is `putPairs`.
* `Setting.returned_of_grounded` — what lies above the arguments does not matter
  to a return.
* `Setting.follows_bindLocals` — declaring variables for values on the stack is
  `introduceAll`.
-/

namespace ScriptEngine

/-! ### Stacks -/

theorem adjust_succ (n : Nat) (values : List Value) :
    adjust (n + 1) values = values.headD .nil :: adjust n values.tail := by
  cases values with
  | nil => simp [adjust, List.replicate_succ]
  | cons v rest => simp [adjust]

theorem adjust_length (values : List Value) : adjust values.length values = values := by
  simp [adjust]

theorem adjust_one (values : List Value) : adjust 1 values = [values.headD .nil] := by
  rw [adjust_succ]
  simp [adjust]

theorem adjust_zero (values : List Value) : adjust 0 values = [] := by simp [adjust]

namespace Stack

theorem cutTo_append {height : Nat} (values stack : List Value) (h : height ≤ stack.length) :
    cutTo height (values ++ stack) = cutTo height stack := by
  have hdrop : (values ++ stack).length - height = values.length + (stack.length - height) := by
    rw [List.length_append]
    omega
  rw [cutTo, cutTo, hdrop, ← List.drop_drop, List.drop_left]

theorem cutTo_length (stack : List Value) : cutTo stack.length stack = stack := by
  simp [cutTo]

theorem cutTo_length_append (values stack : List Value) :
    cutTo stack.length (values ++ stack) = stack := by
  rw [cutTo_append values stack (Nat.le_refl _), cutTo_length]

theorem above_reverse_append (values stack : List Value) :
    above stack.length (values.reverse ++ stack) = values := by
  have hlength : (values.reverse ++ stack).length - stack.length = values.reverse.length := by
    rw [List.length_append, Nat.add_sub_cancel]
  rw [above, hlength, List.take_left, List.reverse_reverse]

/-- Values above a mark, brought to a number. -/
theorem resize_reverse_append (n : Nat) (values stack : List Value) :
    resize (stack.length + n) (values.reverse ++ stack) = (adjust n values).reverse ++ stack := by
  rw [resize, adjust, List.reverse_append, List.reverse_replicate, List.append_assoc,
    List.reverse_take, cutTo, List.length_append, List.length_reverse]
  have hfill : stack.length + n - (values.length + stack.length) = n - values.length := by omega
  have hdrop : values.length + stack.length - (stack.length + n) = values.length - n := by omega
  rw [hfill, hdrop, List.drop_append_of_le_length (by rw [List.length_reverse]; omega)]

end Stack

/-- Arguments brought to a number. -/
theorem argumentCount_reverse_append (n : Nat) (values stack : List Value) :
    (if n < values.length then (values.reverse ++ stack).drop (values.length - n)
      else List.replicate (n - values.length) .nil ++ (values.reverse ++ stack)) =
      (adjust n values).reverse ++ stack := by
  have h := Stack.resize_reverse_append n values stack
  rw [← h, Stack.resize, Stack.cutTo, List.length_append, List.length_reverse]
  by_cases hlt : n < values.length
  · have hfill : stack.length + n - (values.length + stack.length) = 0 := by omega
    have hdrop : values.length + stack.length - (stack.length + n) = values.length - n := by omega
    rw [if_pos hlt, hfill, hdrop, List.replicate_zero, List.nil_append]
  · have hfill : stack.length + n - (values.length + stack.length) = n - values.length := by omega
    have hdrop : values.length + stack.length - (stack.length + n) = 0 := by omega
    rw [if_neg hlt, hfill, hdrop, List.drop_zero]

theorem length_stackedPairs (pairs : List (Value × Value)) :
    (stackedPairs pairs).length = 2 * pairs.length := by
  induction pairs with
  | nil => rfl
  | cons pair rest ih =>
    rw [stackedPairs, List.length_cons, List.length_cons, ih, List.length_cons]
    omega

namespace Setting

variable {setting : Setting} {call : Position → Nat → Reentry} {m : Machine} {s : Store}

/-- Two names of a place. -/
theorem state_at {ip ip' : Nat} {σ : List Value} (h : ip = ip') :
    (⟨{ m with ip := ip, stack := σ }, s⟩ : State) = ⟨{ m with ip := ip', stack := σ }, s⟩ := by
  rw [h]

theorem require_of_le {n : Nat} (h : n ≤ m.stack.length) :
    Exec.require n ⟨m, s⟩ = .ok () ⟨m, s⟩ := by
  simp only [Exec.require, Exec.machine, bind, EStateM.bind, if_neg (Nat.not_lt.2 h)]
  rfl

/-! ### Marks -/

section

variable {reenter : Reentry} {position : Position} {ip : Nat} {σ : List Value} {marks : List Nat}

/-- Counting the values above the last mark. -/
theorem assignCount_reverse_append (values : List Value) :
    setting.execute reenter (.plain .assignCount position)
      ⟨{ m with ip := ip, stack := values.reverse ++ σ, marks := σ.length :: marks }, s⟩ =
      .ok () ⟨{ m with
        ip := ip
        stack := .number (Number.ofNat values.length) :: (values.reverse ++ σ)
        marks := marks }, s⟩ := by
  have hlength : (values.reverse ++ σ).length - σ.length = values.length := by
    rw [List.length_append, Nat.add_sub_cancel, List.length_reverse]
  simp only [execute, Op.plain, Exec.popMark, bind, EStateM.bind, Exec.modifyStack,
    Exec.modifyMachine, hlength]

/-- Bringing the values above the last mark to a number. -/
theorem assignSet_reverse_append (count : Nat) (values : List Value) :
    setting.execute reenter (.counted .assignSet count position)
      ⟨{ m with ip := ip, stack := values.reverse ++ σ, marks := σ.length :: marks }, s⟩ =
      .ok () ⟨{ m with
        ip := ip
        stack := (adjust count values).reverse ++ σ
        marks := marks }, s⟩ := by
  simp only [execute, Op.counted, Op.count?, Option.getD, Exec.popMark, bind, EStateM.bind,
    Exec.modifyStack, Exec.modifyMachine, Stack.resize_reverse_append]

end

/-! ### Jumps -/

theorem jump_eq {d : Int} {target : Nat} (h : (m.ip : Int) + d = target) :
    jump d ⟨m, s⟩ = .ok () ⟨{ m with ip := target }, s⟩ := by
  have hinside : ¬ (m.ip : Int) + d < 0 := by omega
  have htarget : ((m.ip : Int) + d).toNat = target := by omega
  simp only [jump, Exec.machine, bind, EStateM.bind, if_neg hinside, Exec.modifyMachine, htarget]

theorem jumpWhen_cons (truth : Bool) {v : Value} {σ : List Value} {d : Int} {target : Nat}
    (h : (m.ip : Int) + d = target) :
    jumpWhen truth d ⟨{ m with stack := v :: σ }, s⟩ =
      .ok () ⟨{ m with ip := if v.isTruthy = truth then target else m.ip, stack := σ }, s⟩ := by
  simp only [jumpWhen, Exec.pop, bind, EStateM.bind]
  by_cases htruth : v.isTruthy = truth
  · rw [if_pos htruth, if_pos htruth]
    exact jump_eq h
  · rw [if_neg htruth, if_neg htruth]
    rfl

/-- The machine jumps. -/
theorem follows_jump {α : Type} {r : EStateM.Result Stop Store α}
    {post : α → Store → State → Prop} {ip : Nat} {d : Int} {position : Position} (target : Nat)
    (hop : setting.program.code[ip]? = some (.jumping .jump d position))
    (htarget : ((ip + 1 : Nat) : Int) + d = target)
    (h : setting.Follows call ⟨{ m with ip := target }, s⟩ r post) :
    setting.Follows call ⟨{ m with ip := ip }, s⟩ r post :=
  Follows.step (m := { m with ip := ip }) hop (jump_eq (m := { m with ip := ip + 1 }) htarget) h

/-- The machine jumps if the topmost value counts as `truth`. -/
theorem follows_jumpWhen {α : Type} {r : EStateM.Result Stop Store α}
    {post : α → Store → State → Prop} {ip : Nat} {d : Int} {position : Position}
    {v : Value} {σ : List Value} (truth : Bool) (target : Nat)
    (hop : setting.program.code[ip]? =
      some (.jumping (cond truth .jumpIf .jumpIfNot) d position))
    (htarget : ((ip + 1 : Nat) : Int) + d = target)
    (h : setting.Follows call
      ⟨{ m with ip := if v.isTruthy = truth then target else ip + 1, stack := σ }, s⟩ r post) :
    setting.Follows call ⟨{ m with ip := ip, stack := v :: σ }, s⟩ r post := by
  refine Follows.step (m := { m with ip := ip, stack := v :: σ }) hop ?_ h
  have hjump :=
    jumpWhen_cons (m := { m with ip := ip + 1 }) (s := s) (v := v) (σ := σ) truth htarget
  cases truth <;> exact hjump

/-! ### Operators -/

/-- An instruction that has the result of an operator, or fails as it does. -/
theorem follows_operator {op : Op} {position : Position} {r : Except Cause Value}
    {post : Value → Store → State → Prop} {σ : List Value}
    (hop : setting.program.code[m.ip]? = some op) (hposition : op.position = position)
    (hexecute : setting.execute (call op.position m.depth) op ⟨{ m with ip := m.ip + 1 }, s⟩ =
      (Exec.ofExcept r >>= fun v => Exec.push v) ⟨{ m with ip := m.ip + 1, stack := σ }, s⟩)
    (hpost : ∀ v, post v s ⟨{ m with ip := m.ip + 1, stack := v :: σ }, s⟩) :
    setting.Follows call ⟨m, s⟩ (Eval.located position r s) post := by
  subst hposition
  cases r with
  | ok v => exact Follows.step hop hexecute (.pure (hpost v))
  | error c => exact Follows.raise hop hexecute rfl

/-! ### Tables -/

theorem loadIndex_cons (ip : Nat) (target key : Value) (σ : List Value) :
    loadIndex ⟨{ m with ip := ip, stack := target :: key :: σ }, s⟩ =
      (Exec.ofExcept (s.index target key) >>= fun v => Exec.push v)
        ⟨{ m with ip := ip, stack := σ }, s⟩ := by
  cases target with
  | table ref =>
    simp only [loadIndex, Store.index, Exec.pop, bind, EStateM.bind]
    cases key.isNil with
    | true => rfl
    | false => cases Key.ofValue key <;> rfl
  | _ => rfl

/-- Storing keys and values that are on the stack. -/
theorem storePairs_stackedPairs (ref : TableRef) (position : Position) (σ : List Value)
    (pairs : List (Value × Value)) (m : Machine) (s : Store) :
    match putPairs position ref pairs s with
    | .ok _ s' => storePairs ref pairs.length ⟨{ m with stack := stackedPairs pairs ++ σ }, s⟩ =
        .ok () ⟨{ m with stack := σ }, s'⟩
    | .error (.interrupted i) s' => ∃ e m',
        storePairs ref pairs.length ⟨{ m with stack := stackedPairs pairs ++ σ }, s⟩ =
          .error e ⟨m', s'⟩ ∧ i = e.located position
    | .error .undecided _ => False := by
  induction pairs generalizing s with
  | nil => rfl
  | cons pair rest ih =>
    obtain ⟨key, v⟩ := pair
    rw [putPairs]
    by_cases hnil : key.isNil = true
    · rw [if_pos hnil]
      refine ⟨.cause .nilKey, { m with stack := stackedPairs rest ++ σ }, ?_, rfl⟩
      simp only [storePairs, stackedPairs, List.cons_append, Exec.pop, bind, EStateM.bind, hnil,
        if_true, List.length_cons]
      rfl
    · rw [if_neg hnil]
      cases hkey : Key.ofValue key with
      | error c =>
        refine ⟨.cause c, { m with stack := stackedPairs rest ++ σ }, ?_, rfl⟩
        simp only [storePairs, stackedPairs, List.cons_append, Exec.pop, bind, EStateM.bind,
          if_neg hnil, hkey, List.length_cons]
        rfl
      | ok k =>
        have hstep : storePairs ref (rest.length + 1)
            ⟨{ m with stack := key :: v :: (stackedPairs rest ++ σ) }, s⟩ =
            storePairs ref rest.length ⟨{ m with stack := stackedPairs rest ++ σ },
              s.modifyTable ref fun t => t.set k v⟩ := by
          simp only [storePairs, Exec.pop, bind, EStateM.bind, if_neg hnil, hkey]
          rfl
        have hrest := ih (s.modifyTable ref fun t => t.set k v)
        rw [← hstep] at hrest
        exact hrest

/-- Storing keys and values that are on the stack of what is to be a table. -/
theorem storeIndex_stackedPairs (target : Value) (σ : List Value) (pairs : List (Value × Value)) :
    storeIndex pairs.length ⟨{ m with stack := stackedPairs pairs ++ target :: σ }, s⟩ =
      (match target with
      | .table ref => storePairs ref pairs.length
      | v => Exec.fail (.indexing v.kind))
        ⟨{ m with stack := stackedPairs pairs ++ target :: σ }, s⟩ := by
  have hheight : 2 * pairs.length + 1 ≤ (stackedPairs pairs ++ target :: σ).length := by
    rw [List.length_append, length_stackedPairs, List.length_cons]
    omega
  have htarget : (stackedPairs pairs ++ target :: σ).getD (2 * pairs.length) .nil = target := by
    rw [List.getD_eq_getElem?_getD, ← length_stackedPairs,
      List.getElem?_append_right (Nat.le_refl _), Nat.sub_self]
    rfl
  have hrequire := require_of_le (m := { m with stack := stackedPairs pairs ++ target :: σ })
    (s := s) hheight
  cases target <;>
    simp only [storeIndex, bind, EStateM.bind, hrequire, Exec.machine, htarget]

/-- Storing keys and values that are on the stack of a table. -/
theorem follows_storeIndex {position : Position} {ref : TableRef} {σ : List Value} {ip count : Nat}
    {pairs : List (Value × Value)}
    (hop : setting.program.code[ip]? = some (.counted .storeIndex count position))
    (hcount : pairs.length = count) :
    setting.Follows call ⟨{ m with ip := ip, stack := stackedPairs pairs ++ .table ref :: σ }, s⟩
      (putPairs position ref pairs s)
      fun _ s' st' => st' = ⟨{ m with ip := ip + 1, stack := .table ref :: σ }, s'⟩ := by
  subst hcount
  have hexecute := storeIndex_stackedPairs (m := { m with ip := ip + 1 }) (s := s) (.table ref) σ
    pairs
  have hpairs := storePairs_stackedPairs ref position (.table ref :: σ) pairs
    { m with ip := ip + 1 } s
  cases hput : putPairs position ref pairs s with
  | ok u s' =>
    rw [hput] at hpairs
    exact Follows.step hop (hexecute.trans hpairs) (.pure rfl)
  | error stop s' =>
    rw [hput] at hpairs
    cases stop with
    | undecided => exact hpairs.elim
    | interrupted i =>
      obtain ⟨e, m', herror, rfl⟩ := hpairs
      exact Follows.raise hop (hexecute.trans herror) rfl

/-! ### Variables -/

section

variable {places : List Nat} {exit : Option Nat} {ip : Nat} {σ : List Value}

/-- Declaring a variable for the value on top of the stack. -/
theorem follows_bindLocal {name : String} {position : Position} {v : Value}
    (h : setting.program.Holds places exit ip (bindLocal name position)) :
    setting.Follows call ⟨{ m with ip := ip, stack := v :: σ }, s⟩
      (introduce (m.context places) name v s)
      fun _ s' st' => st' = ⟨{ m with ip := ip + 2, stack := σ }, s'⟩ := by
  have hdeclare := h.head rfl
  have hstore := h.tail.head rfl
  by_cases hnil : m.scopes = []
  · simp only [introduce, Machine.context, hnil]
    trivial
  · obtain ⟨scope, rest, hscopes⟩ := List.exists_cons_of_ne_nil hnil
    have hintroduce : introduce (m.context places) name v s = .ok ()
        ((s.declare scope name .nil).write (m.context places).reach name v) := by
      simp only [introduce, Machine.context, hscopes]
      rfl
    rw [hintroduce]
    have hexecute : setting.execute (call position m.depth) (.named .makeLocal name position)
        ⟨{ m with ip := ip + 1, stack := v :: σ }, s⟩ =
        .ok () ⟨{ m with ip := ip + 1, stack := v :: σ }, s.declare scope name .nil⟩ := by
      simp only [execute, Op.named, Exec.machine, bind, EStateM.bind, hscopes]
      rfl
    exact Follows.step hdeclare hexecute (Follows.step hstore rfl (.pure rfl))

/-- Declaring variables for the values on top of the stack. -/
theorem follows_bindLocals {names : List Identifier} {values : List Value}
    (h : setting.program.Holds places exit ip (bindLocals names)) :
    setting.Follows call
      ⟨{ m with ip := ip, stack := (adjust names.length values).reverse ++ σ }, s⟩
      (introduceAll (m.context places) names values s)
      fun _ s' st' => st' = ⟨{ m with ip := ip + (bindLocals names).length, stack := σ }, s'⟩ := by
  induction names generalizing values σ with
  | nil =>
    rw [List.length_nil, adjust_zero]
    exact .pure rfl
  | cons name rest ih =>
    rw [bindLocals_cons] at h
    rw [introduceAll, List.length_cons, adjust_succ, List.reverse_cons, List.append_assoc]
    refine (ih h.left).bind fun _ s' st' _ hst => ?_
    subst hst
    refine (follows_bindLocal h.right).imp fun _ s'' st'' _ hst => ?_
    rw [hst, bindLocals_cons, List.length_append, Nat.add_assoc]
    rfl

end

/-! ### Returns -/

/-- Returning a number of values that are on the stack. -/
theorem ret_counted (reenter : Reentry) (position : Position) (ip : Nat) (values σ : List Value) :
    setting.execute reenter (.counted .ret values.length position)
      ⟨{ m with ip := ip, stack := values.reverse ++ σ }, s⟩ =
      .ok () ⟨setting.returned values { m with ip := ip, stack := σ }, s⟩ := by
  have hrequire := require_of_le (m := { m with ip := ip, stack := values.reverse ++ σ })
    (s := s) (n := values.length) (by rw [List.length_append, List.length_reverse]; omega)
  have htake : ((values.reverse ++ σ).take values.length).reverse = values := by
    rw [← List.length_reverse, List.take_left, List.reverse_reverse]
  have hdrop : (values.reverse ++ σ).drop values.length = σ := by
    rw [← List.length_reverse, List.drop_left]
  simp only [execute, Op.counted, Op.count?, bind, EStateM.bind, hrequire, Exec.machine,
    Exec.modifyStack, Exec.modifyMachine, htake, hdrop]
  rfl

/-- Returning the values above the last mark. -/
theorem ret_marked (reenter : Reentry) (position : Position) (ip : Nat) (values σ : List Value)
    (marks : List Nat) :
    setting.execute reenter (.plain .ret position)
      ⟨{ m with ip := ip, stack := values.reverse ++ σ, marks := σ.length :: marks }, s⟩ =
      .ok () ⟨setting.returned values { m with ip := ip, stack := σ, marks := marks }, s⟩ := by
  simp only [execute, Op.plain, Op.count?, bind, EStateM.bind, Exec.popMark, Exec.machine,
    Exec.modifyStack, Exec.modifyMachine, Stack.above_reverse_append, Stack.cutTo_length_append]
  rfl

/-- What lies above the arguments, and the scopes, do not matter to a return. -/
theorem returned_of_grounded (h : m.Grounded) (results values : List Value) (ip : Nat)
    (scopes : List ScopeRef) :
    setting.returned results { m with ip := ip, stack := values ++ m.stack, scopes := scopes } =
      setting.returned results m := by
  unfold returned
  cases hframes : m.frames with
  | nil => simp only
  | cons frame frames =>
    have hbase : frame.base ≤ m.stack.length := h frame (by rw [hframes]; rfl)
    simp only [Stack.cutTo_append values m.stack hbase]

theorem grounded_push (h : m.Grounded) (values : List Value) (ip : Nat)
    (scopes : List ScopeRef) :
    Machine.Grounded { m with ip := ip, stack := values ++ m.stack, scopes := scopes } := by
  intro frame hframe
  have hbase := h frame hframe
  rw [List.length_append]
  omega

end Setting

end ScriptEngine
