import ScriptEngine.Proofs.Compilation.Statements
import ScriptEngine.Proofs.Courses.Expressions

/-!
# Lists of values

The values of a list of expressions are used in four ways: an assignment stores them, a call passes
them on, a function returns them, and a loop takes its iterator from them.  The code differs, but
the values are those of the list each time, and nothing but them is left on the stack.

## Main definitions

* `Setting.storesCourse` — what storing values into targets comes to.
* `Setting.assignmentCourse`, `Setting.listCourse` — the courses of an assignment, and of a list
  whose beginning is marked.

## Main results

* `Setting.runs_assignment`, `Setting.runs_call`, `Setting.runs_result`, `Setting.runs_iterators` —
  the four ways.
-/

namespace ScriptEngine

namespace Setting

section

variable (setting : Setting) (fuel : Nat) (places : List Nat) (constants : Constants)

/-- What expressions come to that have one value each. -/
def singlesCourse (next : Nat) (m : Machine) : List Expr → Course (List Value)
  | [] => pure []
  | e :: rest => do
    let v ← setting.exprCourse fuel places constants next m e
    let vs ← singlesCourse (next + e.functions.length) { m with stack := v :: m.stack } rest
    pure (v :: vs)

/-- What the last expression of a list comes to: a call has all of its results, and everything else
one value. -/
def lastCourse (next : Nat) (m : Machine) : Expr → Course (List Value)
  | .call position callee arguments =>
    setting.callCourse fuel position m (endsInCall arguments) none
      (fun m => setting.valuesCourse fuel places constants next m arguments)
      fun m => setting.exprCourse fuel places constants
        (next + (valuesFunctions arguments).length) m callee
  | e => do
    let v ← setting.exprCourse fuel places constants next m e
    pure [v]

/-- Gives a value to a variable, which is declared before if it is local. -/
def bindCourse (position : Position) (isLocal : Bool) (m : Machine) (name : String) (v : Value) :
    Course Unit :=
  match isLocal, m.scopes with
  | false, _ => .eval (.modifyStore (Exec.assign m name v))
  | true, scope :: _ =>
    .eval (.modifyStore fun s => Exec.assign m name v (s.declare scope name .nil))
  | true, [] => .eval (.fail position (.machine (.noScope name)))

/-- What storing values into the targets of an assignment comes to, into the last target first.
Each target gets the value of its number, or `nil` if there is none, and this value is on the stack
until then. -/
def storesCourse (isLocal : Bool) (next : Nat) (m : Machine) :
    List Expr → List Value → Course Unit
  | [], _ => pure ()
  | target :: rest, values => do
    let v := values.headD .nil
    storesCourse isLocal next { m with stack := v :: m.stack } rest values.tail
    match target with
    | .var position name => bindCourse position isLocal m name v
    | .index position table key => do
      let t ← setting.exprCourse fuel places constants (next + (storesFunctions rest).length)
        { m with stack := v :: m.stack } table
      let k ← setting.exprCourse fuel places constants
        (next + (storesFunctions rest).length + table.functions.length)
        { m with stack := v :: t :: m.stack } key
      .eval (putAt position t k v)
    | _ => pure ()

/-- What a list of expressions comes to whose beginning is marked meanwhile, or is not. -/
def listCourse (marked : Bool) (next : Nat) (m : Machine) (es : List Expr) : Course (List Value) :=
  setting.valuesCourse fuel places constants next
    { m with marks := if marked then m.stack.length :: m.marks else m.marks } es

/-- What an assignment comes to.  The beginning of its values is marked unless a single value, which
is not that of a call, is given to a single target. -/
def assignmentCourse (isLocal : Bool) (next : Nat) (m : Machine) (targets values : List Expr) :
    Course Unit := do
  let vs ← setting.listCourse fuel places constants (!isSingle targets values) next m values
  setting.storesCourse fuel places constants isLocal (next + (valuesFunctions values).length) m
    targets vs

end

variable {setting : Setting} {talk : Talk} {fuel : Nat} {places : List Nat}
  {constants : Constants} {position : Position} {exit scopes : Option Nat} {isLocal keep : Bool}
  {next ip stop : Nat} {es targets : List Expr} {c : Piece} {m : Machine} {s : Store}

/-! ### The values of a list -/

theorem valuesCourse_singleton (e : Expr) :
    setting.valuesCourse fuel places constants next m [e] =
      setting.lastCourse fuel places constants next m e := by
  cases e with
  | call => rw [valuesCourse, lastCourse]
  | _ =>
    rw [valuesCourse_cons (.inr rfl)]
    simp only [valuesCourse, Course.pure_bind, lastCourse]

/-- **Every expression of a list has one value, but a call at its end has all of its results.** -/
theorem valuesCourse_concat (front : List Expr) (last : Expr) :
    setting.valuesCourse fuel places constants next m (front ++ [last]) = (do
      let vs ← setting.singlesCourse fuel places constants next m front
      let others ← setting.lastCourse fuel places constants
        (next + (valuesFunctions front).length) { m with stack := vs.reverse ++ m.stack } last
      pure (vs ++ others)) := by
  induction front generalizing next m with
  | nil =>
    rw [List.nil_append, valuesCourse_singleton]
    simp only [singlesCourse, Course.pure_bind, valuesFunctions, List.length_nil, Nat.add_zero,
      List.reverse_nil, List.nil_append, Course.bind_pure]
  | cons e rest ih =>
    rw [List.cons_append, valuesCourse_cons (.inl (by simp))]
    simp only [ih, singlesCourse, Course.bind_assoc, Course.pure_bind, valuesFunctions,
      List.length_append, List.reverse_cons, List.append_assoc, List.cons_append, List.nil_append,
      Nat.add_assoc]

theorem length_of_singlesCourse {front : List Expr} {vs : List Value} {s' : Store}
    (h : setting.singlesCourse fuel places constants next m front s (.ok vs s')) :
    vs.length = front.length := by
  induction front generalizing next m s vs with
  | nil =>
    rw [singlesCourse, Course.pure_iff] at h
    cases h
    rfl
  | cons e rest ih =>
    rw [singlesCourse] at h
    obtain ⟨v, s₁, -, h⟩ := Course.bind_ok_iff.1 h
    obtain ⟨others, s₂, hothers, h⟩ := Course.bind_ok_iff.1 h
    rw [Course.pure_iff] at h
    cases h
    rw [List.length_cons, List.length_cons, ih hothers]

/-! ### Returning -/

/-- A return leaves the code that it stands in. -/
theorem not_inside_returned {vs : List Value} (hstop : stop ≤ setting.program.size) :
    ¬ Piece.Inside ⟨ip, stop, m.frames⟩ (setting.returned vs m) := by
  rintro ⟨hsuffix, hplace⟩
  unfold returned at hsuffix hplace
  cases hframes : m.frames with
  | nil =>
    simp only [hframes, forall_const] at hplace
    omega
  | cons frame frames =>
    simp only [hframes] at hsuffix
    have hlength := hsuffix.length_le
    rw [List.length_cons] at hlength
    omega

/-- The machine behind a return does not depend on its place. -/
theorem returned_at (vs : List Value) : setting.returned vs { m with ip := ip } =
    setting.returned vs m := by
  unfold returned
  cases m.frames <;> rfl

section

variable (honest : Honest setting.natives talk) (hp : setting.program.Verifying)
include honest hp

/-! ### Assignments -/

/-- The code that binds a variable to the value on top of the stack. -/
theorem runs_bind {name : String} (v : Value)
    (h : setting.program.Holds places exit ip
      ((if isLocal then [.named .makeLocal name position] else [])
        ++ [Op.named .store name position]))
    (hstop : stop = ip + ((if isLocal then [Op.named .makeLocal name position] else [])
      ++ [Op.named .store name position]).length) :
    setting.Runs fuel constants ⟨ip, stop, m.frames⟩ ⟨{ m with ip := ip, stack := v :: m.stack }, s⟩
      (bindCourse position isLocal m name v) fun _ => { m with ip := stop } := by
  have hstore (s : Store) {ip stop : Nat} (hop : setting.program.code[ip]? =
      some (.named .store name position)) (hstop : stop = ip + 1) :
      setting.Runs fuel constants ⟨ip, stop, m.frames⟩
        ⟨{ m with ip := ip, stack := v :: m.stack }, s⟩
        (.eval (.modifyStore (Exec.assign m name v))) fun _ => { m with ip := stop } := by
    subst hstop
    rw [← Course.bind_pure (Course.eval _)]
    exact .eval (m := m) honest hp (fun _ => m.stack) hop (Nat.le_refl ip) (Nat.lt_succ_self ip) rfl
      fun _ s' => .pure rfl (not_inside_stop rfl rfl)
  cases isLocal with
  | false => exact hstore s (h.head rfl) hstop
  | true =>
    simp only [if_true, List.cons_append, List.nil_append, List.length_cons, List.length_nil]
      at h hstop
    have hin : Piece.Inside ⟨ip, stop, m.frames⟩ { m with ip := ip, stack := v :: m.stack } :=
      (Piece.inside_iff rfl).2 ⟨Nat.le_refl _, by dsimp only; omega⟩
    have hdeclare := h.head rfl
    by_cases hscopes : m.scopes = []
    · have hfails : setting.execute (setting.callFrom fuel position m.depth)
          (.named .makeLocal name position) ⟨{ m with ip := ip + 1, stack := v :: m.stack }, s⟩ =
          .error (.cause (.machine (.noScope name)))
            ⟨{ m with ip := ip + 1, stack := v :: m.stack }, s⟩ := by
        simp only [execute, Op.named, Exec.machine, bind, EStateM.bind, hscopes]
        rfl
      have hcourse : bindCourse position true m name v =
          .eval (.fail position (.machine (.noScope name))) := by
        simp only [bindCourse, hscopes]
      rw [hcourse]
      exact .fail hin (step_of_execute_error (m := { m with ip := ip, stack := v :: m.stack })
        hdeclare hfails) rfl
    · obtain ⟨scope, rest, hscopes⟩ := List.exists_cons_of_ne_nil hscopes
      have hdeclares : setting.execute (setting.callFrom fuel position m.depth)
          (.named .makeLocal name position) ⟨{ m with ip := ip + 1, stack := v :: m.stack }, s⟩ =
          .ok () ⟨{ m with ip := ip + 1, stack := v :: m.stack }, s.declare scope name .nil⟩ := by
        simp only [execute, Op.named, Exec.machine, bind, EStateM.bind, hscopes]
        rfl
      have hcourse : bindCourse position true m name v =
          .eval (.modifyStore fun s => Exec.assign m name v (s.declare scope name .nil)) := by
        simp only [bindCourse, hscopes]
      rw [hcourse]
      exact .step honest hp hin (step_of_execute (m := { m with ip := ip, stack := v :: m.stack })
        hdeclare hdeclares) ((hstore _ (h.tail.head rfl) hstop).last honest hp
          (Piece.partOf_of_le (Nat.le_succ _) (Nat.le_refl _)) fun _ => not_inside_stop rfl rfl) rfl

/-- Storing the value below a table and a key. -/
theorem runs_putAt (t k v : Value)
    (h : setting.program.Holds places exit ip
      [.counted .storeIndex 1 position, .plain .pop position]) (hstop : stop = ip + 2) :
    setting.Runs fuel constants ⟨ip, stop, m.frames⟩
      ⟨{ m with ip := ip, stack := k :: v :: t :: m.stack }, s⟩
      (.eval (putAt position t k v)) fun _ => { m with ip := stop } := by
  subst hstop
  rw [← Course.bind_pure (Course.eval _)]
  refine .eval (m := m) honest hp (fun _ => t :: m.stack) (h.head rfl) (Nat.le_refl ip)
    (by omega) ?_ fun _ s' => ?_
  · have hindex :=
      storeIndex_stackedPairs (m := { m with ip := ip + 1 }) (s := s) t m.stack [(k, v)]
    cases t with
    | table ref =>
      have hstore := storePairs_stackedPairs ref position (.table ref :: m.stack) [(k, v)]
        { m with ip := ip + 1 } s
      simp only [putAt]
      cases hput : putPairs position ref [(k, v)] s with
      | ok _ s' =>
        rw [hput] at hstore
        exact hindex.trans hstore
      | error i s' =>
        rw [hput] at hstore
        cases i with
        | undecided => exact hstore
        | interrupted i =>
          obtain ⟨e, m', hfails, hi⟩ := hstore
          exact ⟨e, m', hindex.trans hfails, hi⟩
    | _ => exact ⟨_, _, hindex, rfl⟩
  · exact .execute (m := m) honest hp m.stack m.marks (h.tail.head rfl) (Nat.le_succ ip)
      (Nat.lt_succ_self _) rfl (.pure rfl (not_inside_stop rfl rfl))

/-- **The code behind the values of an assignment stores them**, the first of them into the first
target. -/
theorem runs_stores (values : List Value)
    (h : setting.program.Holds places exit ip (storesCode isLocal targets next).1)
    (hstop : stop = ip + (storesCode isLocal targets next).1.length) :
    setting.Runs fuel constants ⟨ip, stop, m.frames⟩
      ⟨{ m with ip := ip, stack := (adjust targets.length values).reverse ++ m.stack }, s⟩
      (setting.storesCourse fuel places constants isLocal next m targets values)
      fun _ => { m with ip := stop } := by
  induction targets generalizing m s stop values with
  | nil =>
    subst hstop
    rw [List.length_nil, adjust_zero]
    exact .pure rfl (not_inside_stop rfl rfl)
  | cons target rest ih =>
    have hstack : (adjust (target :: rest).length values).reverse ++ m.stack =
        (adjust rest.length values.tail).reverse ++ (values.headD .nil :: m.stack) := by
      rw [List.length_cons, adjust_succ, List.reverse_cons, List.append_assoc]
      rfl
    rw [hstack]
    simp only [storesCourse]
    have hrest {code : Code} (h : setting.program.Holds places exit ip
        ((storesCode isLocal rest next).1 ++ code)) :=
      ih (m := { m with stack := values.headD .nil :: m.stack }) (s := s) values.tail h.left rfl
    cases target with
    | var position name =>
      simp only [storesCode, Gen.fst_bind, Gen.fst_pure, List.append_assoc] at h hstop
      rw [List.length_append, ← Nat.add_assoc] at hstop
      refine (hrest h).bind honest hp (Piece.partOf_of_le (Nat.le_refl _) (by omega))
        fun _ s₁ _ => ?_
      exact (runs_bind honest hp (values.headD .nil) h.right hstop).last honest hp
        (Piece.partOf_of_le (by omega) (Nat.le_refl _)) fun _ => not_inside_stop rfl rfl
    | index position table key =>
      simp only [storesCode, Gen.fst_bind, Gen.fst_pure, bodies_storesCode, Expr.bodies_code,
        length_functionCodes, List.append_assoc, List.cons_append, List.nil_append] at h hstop
      simp only [List.length_append, List.length_cons, List.length_nil] at hstop
      refine (hrest h).bind honest hp (Piece.partOf_of_le (Nat.le_refl _) (by omega))
        fun _ s₁ _ => ?_
      refine (stacks_expr honest hp table { m with stack := values.headD .nil :: m.stack } s₁
        h.right.left rfl).bind honest hp (Piece.partOf_of_le (by omega) (by omega)) fun t s₂ _ => ?_
      refine .execute (m := m) honest hp (values.headD .nil :: t :: m.stack) m.marks
        (h.right.right.head rfl) (by omega) (by omega) rfl ?_
      refine (stacks_expr honest hp key { m with stack := values.headD .nil :: t :: m.stack } s₂
        h.right.right.tail.left rfl).bind honest hp (Piece.partOf_of_le (by omega) (by omega))
        fun k s₃ _ => ?_
      exact (runs_putAt honest hp t k (values.headD .nil) h.right.right.tail.right
        (by omega)).last honest hp (Piece.partOf_of_le (by omega) (Nat.le_refl _))
        fun _ => not_inside_stop rfl rfl
    | _ =>
      simp only [storesCode, Gen.fst_bind, Gen.fst_pure] at h hstop
      rw [List.length_append, List.length_singleton] at hstop
      refine (hrest h).bind honest hp (Piece.partOf_of_le (Nat.le_refl _) (by omega))
        fun _ s₁ _ => ?_
      exact .execute (m := m) honest hp m.stack m.marks (h.right.head rfl) (by omega) (by omega) rfl
        (.pure (by rw [hstop]; rfl) (not_inside_stop (by rw [hstop]; rfl) rfl))

/-- Marking the beginning of a list, and bringing its values to a number. -/
theorem runs_marked (n : Nat)
    (h : setting.program.Holds places exit ip
      (.plain .assignPush position :: (valuesCode es next).1 ++ [.counted .assignSet n position]))
    (hstop : stop = ip + (valuesCode es next).1.length + 2) :
    setting.Runs fuel constants ⟨ip, stop, m.frames⟩ ⟨{ m with ip := ip }, s⟩
      (setting.listCourse fuel places constants true next m es)
      fun vs => { m with ip := stop, stack := (adjust n vs).reverse ++ m.stack } := by
  subst hstop
  rw [← Course.bind_pure (setting.listCourse fuel places constants true next m es)]
  refine .execute (m := m) honest hp m.stack (m.stack.length :: m.marks) (h.left.head rfl)
    (Nat.le_refl ip) (by omega) rfl ?_
  refine (stacks_values honest hp es { m with marks := m.stack.length :: m.marks } s h.left.tail
    rfl).bind honest hp (Piece.partOf_of_le (by omega) (by omega)) fun vs s₁ _ => ?_
  refine .execute (m := m) honest hp ((adjust n vs).reverse ++ m.stack) m.marks
    (h.right.headAt (by simp; omega) rfl) (by omega) (by omega) (assignSet_reverse_append n vs) ?_
  exact .pure (by simp; omega) (not_inside_stop (by dsimp only; omega) rfl)

/-- **An assignment stores the values of its list**, the value of each number into the target of
that number. -/
theorem runs_assignment
    (h : setting.program.Holds places exit ip
      ((Stat.assignment position isLocal targets es).code scopes keep next).1)
    (hstop : stop = ip + ((Stat.assignment position isLocal targets es).code scopes keep
      next).1.length) :
    setting.Runs fuel constants ⟨ip, stop, m.frames⟩ ⟨{ m with ip := ip }, s⟩
      (setting.assignmentCourse fuel places constants isLocal next m targets es)
      fun _ => { m with ip := stop } := by
  simp only [Stat.code, Gen.fst_bind, Gen.fst_pure, bodies_valuesCode, length_functionCodes]
    at h hstop
  rw [List.length_append, ← Nat.add_assoc] at hstop
  have hstores {ip' : Nat} {code : Code} {s : Store} (vs : List Value)
      (h : setting.program.Holds places exit ip (code ++
        (storesCode isLocal targets (next + (valuesFunctions es).length)).1))
      (hip : ip' = ip + code.length)
      (hstop : stop = ip + code.length +
        (storesCode isLocal targets (next + (valuesFunctions es).length)).1.length) :
      setting.Runs fuel constants ⟨ip, stop, m.frames⟩
        ⟨{ m with ip := ip', stack := (adjust targets.length vs).reverse ++ m.stack }, s⟩
        (setting.storesCourse fuel places constants isLocal (next + (valuesFunctions es).length) m
          targets vs)
        fun _ => { m with ip := stop } := by
    subst hip
    exact (runs_stores honest hp vs h.right hstop).last honest hp
      (Piece.partOf_of_le (Nat.le_add_right _ _) (Nat.le_refl _)) fun _ => not_inside_stop rfl rfl
  cases hsingle : isSingle targets es with
  | true =>
    rw [hsingle, if_pos rfl] at h hstop
    simp only [assignmentCourse, listCourse, hsingle, Bool.not_true, Bool.false_eq_true, if_false]
    refine (stacks_values honest hp es m s h.left rfl).bind honest hp
      (Piece.partOf_of_le (Nat.le_refl _) (by omega)) fun vs s₁ hvs => ?_
    obtain ⟨htargets, hends⟩ := length_eq_of_isSingle hsingle
    have hcount : vs.reverse = (adjust targets.length vs).reverse := by
      rw [htargets, ← length_of_valuesCourse hends hvs, adjust_length]
    rw [hcount]
    exact hstores vs h rfl hstop
  | false =>
    rw [hsingle, if_neg Bool.false_ne_true] at h hstop
    simp only [assignmentCourse, hsingle, Bool.not_false]
    refine (runs_marked honest hp targets.length h.left rfl).bind honest hp
      (Piece.partOf_of_le (Nat.le_refl _) (by simp at hstop; omega)) fun vs s₁ _ => ?_
    exact hstores vs h (by simp; omega) hstop

/-! ### Calls, returns and loops -/

/-- **A call passes on the values of its list.** -/
theorem runs_call {callee : Expr} {want : Option Nat}
    (h : setting.program.Holds places exit ip (callCode position es (valuesCode es next).1
      (callee.code .value (next + (valuesFunctions es).length)).1 want))
    (hstop : stop = ip + (callCode position es (valuesCode es next).1
      (callee.code .value (next + (valuesFunctions es).length)).1 want).length) :
    setting.Runs fuel constants ⟨ip, stop, m.frames⟩ ⟨{ m with ip := ip }, s⟩
      (setting.callCourse fuel position m (endsInCall es) want
        (fun m => setting.valuesCourse fuel places constants next m es)
        fun m => setting.exprCourse fuel places constants (next + (valuesFunctions es).length) m
          callee)
      fun results => { m with ip := stop, stack := (adjustTo want results).reverse ++ m.stack } :=
  stacks_callCode honest hp (stacks_values honest hp es)
    (fun hends _ _ _ _ => length_of_valuesCourse hends) (stacks_expr honest hp callee) m s h hstop

/-- **A function returns the values of its list.** -/
theorem runs_result
    (h : setting.program.Holds places exit ip ((Stat.result position es).code scopes keep next).1)
    (hstop : stop = ip + ((Stat.result position es).code scopes keep next).1.length) :
    setting.Runs fuel constants ⟨ip, stop, m.frames⟩ ⟨{ m with ip := ip }, s⟩
      (setting.listCourse fuel places constants (endsInCall es) next m es)
      fun vs => setting.returned vs m := by
  simp only [Stat.code, Gen.fst_bind, Gen.fst_pure] at h hstop
  rw [← Course.bind_pure (setting.listCourse fuel places constants (endsInCall es) next m es)]
  cases hends : endsInCall es with
  | true =>
    rw [hends, if_pos rfl] at h hstop
    have hsize := h.le_size (by simp)
    simp only [List.length_append, List.length_cons, List.length_nil] at hstop hsize
    refine .execute (m := m) honest hp m.stack (m.stack.length :: m.marks) (h.left.head rfl)
      (Nat.le_refl ip) (by omega) rfl ?_
    refine (stacks_values honest hp es { m with marks := m.stack.length :: m.marks } s h.left.tail
      rfl).bind honest hp (Piece.partOf_of_le (by omega) (by omega)) fun vs s₁ _ => ?_
    refine .step honest hp ((Piece.inside_iff rfl).2 ⟨by dsimp only; omega, by dsimp only; omega⟩)
      (step_of_execute (h.right.headAt (by simp; omega) rfl) (ret_marked _ _ _ vs m.stack m.marks))
      (.pure ?_ ?_) rfl
    · exact returned_at vs
    · rw [returned_at]
      exact not_inside_returned (by omega)
  | false =>
    rw [hends, if_neg Bool.false_ne_true] at h hstop
    have hsize := h.le_size (by simp)
    simp only [List.length_append, List.length_cons, List.length_nil] at hstop hsize
    refine (stacks_values honest hp es m s h.left rfl).bind honest hp
      (Piece.partOf_of_le (Nat.le_refl _) (by omega)) fun vs s₁ hvs => ?_
    rw [← length_of_valuesCourse hends hvs] at h
    refine .step honest hp ((Piece.inside_iff rfl).2 ⟨by dsimp only; omega, by dsimp only; omega⟩)
      (step_of_execute (h.right.headAt (by simp) rfl) (ret_counted _ _ _ vs m.stack)) (.pure ?_ ?_)
      rfl
    · exact returned_at vs
    · rw [returned_at]
      exact not_inside_returned (by omega)

/-- **A loop takes its iterator, its state and its control value from its list.** -/
theorem runs_iterators {names : List Identifier} {body : List Stat}
    (h : setting.program.Holds places exit ip
      ((Stat.genericFor position names es body).code scopes keep next).1)
    (hstop : stop = ip + (valuesCode es (next + (chunkFunctions body).length)).1.length + 2) :
    setting.Runs fuel constants ⟨ip, stop, m.frames⟩ ⟨{ m with ip := ip }, s⟩
      (setting.listCourse fuel places constants true (next + (chunkFunctions body).length) m es)
      fun vs => { m with ip := stop, stack := (adjust 3 vs).reverse ++ m.stack } := by
  simp only [Stat.code, Gen.fst_bind, Gen.fst_pure, bodies_chunkCode, length_functionCodes,
    iteratorLoop] at h
  exact runs_marked honest hp 3 h.left hstop

end

/-! ### Every use of a list -/

/-- A list of expressions is used alike wherever it stands: all of them have one value each, but all
results of a call at its end belong to the list.  This holds of the runs of verified code that have
room on their stacks. -/
structure Adjusts (setting : Setting) (fuel : Nat) (front : List Expr) (last : Expr) : Prop where
  values : ∀ (places : List Nat) (next : Nat) (m : Machine),
    setting.valuesCourse fuel places [] next m (front ++ [last]) = (do
      let vs ← setting.singlesCourse fuel places [] next m front
      let others ← setting.lastCourse fuel places [] (next + (valuesFunctions front).length)
        { m with stack := vs.reverse ++ m.stack } last
      pure (vs ++ others))
  one_each : ∀ (places : List Nat) (next : Nat) (m : Machine) (s : Store) (vs : List Value)
    (s' : Store), setting.singlesCourse fuel places [] next m front s (.ok vs s') →
      vs.length = front.length
  /-- An assignment stores the values of the list and leaves nothing else. -/
  assigned : ∀ {places : List Nat} {exit scopes : Option Nat} {position : Position}
    {isLocal keep : Bool} {targets : List Expr} {next ip stop : Nat} (m : Machine) (s : Store),
    setting.program.Holds places exit ip
      ((Stat.assignment position isLocal targets (front ++ [last])).code scopes keep next).1 →
    stop = ip + ((Stat.assignment position isLocal targets (front ++ [last])).code scopes keep
      next).1.length →
    setting.Runs fuel [] ⟨ip, stop, m.frames⟩ ⟨{ m with ip := ip }, s⟩
      (setting.assignmentCourse fuel places [] isLocal next m targets (front ++ [last]))
      fun _ => { m with ip := stop }
  /-- A call passes the list on and leaves its results. -/
  passed : ∀ {places : List Nat} {exit : Option Nat} {position : Position} {callee : Expr}
    {want : Option Nat} {next ip stop : Nat} (m : Machine) (s : Store),
    setting.program.Holds places exit ip (callCode position (front ++ [last])
      (valuesCode (front ++ [last]) next).1
      (callee.code .value (next + (valuesFunctions (front ++ [last])).length)).1 want) →
    stop = ip + (callCode position (front ++ [last]) (valuesCode (front ++ [last]) next).1
      (callee.code .value (next + (valuesFunctions (front ++ [last])).length)).1 want).length →
    setting.Runs fuel [] ⟨ip, stop, m.frames⟩ ⟨{ m with ip := ip }, s⟩
      (setting.callCourse fuel position m (endsInCall (front ++ [last])) want
        (fun m => setting.valuesCourse fuel places [] next m (front ++ [last]))
        fun m => setting.exprCourse fuel places []
          (next + (valuesFunctions (front ++ [last])).length) m callee)
      fun results => { m with ip := stop, stack := (adjustTo want results).reverse ++ m.stack }
  /-- A return hands the list to the caller. -/
  returned : ∀ {places : List Nat} {exit scopes : Option Nat} {position : Position} {keep : Bool}
    {next ip stop : Nat} (m : Machine) (s : Store),
    setting.program.Holds places exit ip
      ((Stat.result position (front ++ [last])).code scopes keep next).1 →
    stop = ip + ((Stat.result position (front ++ [last])).code scopes keep next).1.length →
    setting.Runs fuel [] ⟨ip, stop, m.frames⟩ ⟨{ m with ip := ip }, s⟩
      (setting.listCourse fuel places [] (endsInCall (front ++ [last])) next m (front ++ [last]))
      fun vs => setting.returned vs m
  /-- A loop begins with the first three values of the list. -/
  iterated : ∀ {places : List Nat} {exit scopes : Option Nat} {position : Position} {keep : Bool}
    {names : List Identifier} {body : List Stat} {next ip stop : Nat} (m : Machine) (s : Store),
    setting.program.Holds places exit ip
      ((Stat.genericFor position names (front ++ [last]) body).code scopes keep next).1 →
    stop = ip +
      (valuesCode (front ++ [last]) (next + (chunkFunctions body).length)).1.length + 2 →
    setting.Runs fuel [] ⟨ip, stop, m.frames⟩ ⟨{ m with ip := ip }, s⟩
      (setting.listCourse fuel places [] true (next + (chunkFunctions body).length) m
        (front ++ [last]))
      fun vs => { m with ip := stop, stack := (adjust 3 vs).reverse ++ m.stack }

/-- **The values of a list are adjusted the same way wherever it stands.** -/
theorem adjusts_everywhere (honest : Honest setting.natives talk) (hp : setting.program.Verifying)
    (fuel : Nat) (front : List Expr) (last : Expr) : setting.Adjusts fuel front last where
  values _ _ _ := valuesCourse_concat front last
  one_each _ _ _ _ _ _ := length_of_singlesCourse
  assigned _ _ := runs_assignment honest hp
  passed _ _ := runs_call honest hp
  returned _ _ := runs_result honest hp
  iterated _ _ := runs_iterators honest hp

/-- The code of a function that returns two texts. -/
def twoTexts : Setting :=
  ⟨⟨#[.withValue .push (.string "a") ⟨1, 8⟩, .withValue .push (.string "b") ⟨1, 13⟩,
    .counted .ret 2 ⟨1, 1⟩], 0⟩, .standard, ⟨0⟩, Library.run Host.function⟩

/-- A function that returns two texts leaves both on the stack of a caller that wants all. -/
theorem twoTexts_returned :
    twoTexts.Finishes (twoTexts.callFrom 0) false ⟨0, 3, [⟨9, 0, none, [⟨0⟩], [], 0⟩]⟩
      ⟨⟨0, [], [⟨1⟩], [], [⟨9, 0, none, [⟨0⟩], [], 0⟩], [], 0⟩, .empty⟩
      (.outside ⟨⟨9, [.string "b", .string "a"], [⟨0⟩], [], [], [], 0⟩, .empty⟩) := by
  obtain ⟨talk, honest⟩ := honest_run
  have hverifying : twoTexts.program.Verifying := by
    intro op hop hcode entry captured hpushed
    simp only [twoTexts, List.mem_cons, List.not_mem_nil, or_false] at hop
    rcases hop with rfl | rfl | rfl <;> cases hpushed
  have hroom {m : Machine} (h : m.stack.length ≤ 2) : m.HasRoom :=
    Nat.lt_of_le_of_lt h (by decide)
  have hsteady : twoTexts.Steady (twoTexts.callFrom 0) false
      ⟨0, 3, [⟨9, 0, none, [⟨0⟩], [], 0⟩]⟩
      ⟨⟨0, [], [⟨1⟩], [], [⟨9, 0, none, [⟨0⟩], [], 0⟩], [], 0⟩, .empty⟩ := by
    refine ⟨⟨nofun, Store.known_empty⟩, fun st' h => ?_⟩
    rcases h.cases_step rfl with rfl | h
    · exact hroom (Nat.zero_le 2)
    rcases h.cases_step rfl with rfl | h
    · exact hroom (by decide)
    rcases h.cases_step rfl with rfl | h
    · exact hroom (by decide)
    rw [h.eq_of_not_inside fun hin => absurd hin.1.length_le (by decide)]
    exact hroom (by decide)
  have hmain := (adjusts_everywhere honest hverifying 0 [.literal ⟨1, 8⟩ (.string "a")]
    (.literal ⟨1, 13⟩ (.string "b"))).returned
    (m := ⟨0, [], [⟨1⟩], [], [⟨9, 0, none, [⟨0⟩], [], 0⟩], [], 0⟩) .empty
    (show twoTexts.program.Holds [] none 0 ((Stat.result ⟨1, 1⟩ _).code none false 0).1 from
      ⟨rfl, rfl, rfl, trivial⟩) rfl hsteady.regular
  refine (hmain _).2 ⟨.ok [.string "a", .string "b"] .empty, ?_, rfl⟩
  simp [listCourse, valuesCourse, exprCourse, Course.pure_iff, Literal.toValue]

end Setting

end ScriptEngine
