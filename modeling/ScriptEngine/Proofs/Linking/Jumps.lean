import ScriptEngine.Proofs.Compilation.Placement
import ScriptEngine.Proofs.Safety.Breaks

/-!
# Where jumps land

The distance of a jump is reckoned from the sizes of the pieces of code around it.
A piece of code is contained if none of its jumps goes further than the
instructions that are known to stand before and behind it, so that containment
follows from that of the parts.  An instruction that leaves a loop is not a jump
yet; it has to stand in the code of a loop, which puts a jump in its place.

## Main definitions

* `OpCode.isJump` — the instructions that jump.
* `Contained` — the jumps of a piece of code stay around it.
* `Enclosed` — they stay inside of it.

## Main results

* `contained_resolveBreaks` — the code of a loop is contained and is left by jumps.
* `enclosed_chunkCode` — no jump leads out of the code of statements.
-/

namespace ScriptEngine

/-- Whether an instruction jumps. -/
def OpCode.isJump : OpCode → Bool
  | .jump | .jumpIf | .jumpIfNot | .iterJumpIfDone => true
  | _ => false

/-- An instruction with `before` instructions in front of it and `after` behind it
jumps to one of them or to their end, and leaves a loop only inside of one. -/
structure Op.Lands (inLoop : Bool) (before after : Nat) (op : Op) : Prop where
  back : op.code.isJump → 0 ≤ before + 1 + op.offset
  ahead : op.code.isJump → op.offset ≤ after
  leave : op.code = .leave → inLoop

/-- The jumps of a piece of code go to one of the `before` instructions in front of
it, into it, to one of the `after` instructions behind it, or to the end of these. -/
def Contained (inLoop : Bool) : Nat → Nat → Code → Prop
  | _, _, [] => True
  | before, after, op :: rest =>
    op.Lands inLoop before (rest.length + after) ∧ Contained inLoop (before + 1) after rest

variable {inLoop : Bool} {before after : Nat}

@[simp] theorem contained_nil : Contained inLoop before after [] := trivial

theorem contained_cons {op : Op} {rest : Code} :
    Contained inLoop before after (op :: rest) ↔
      op.Lands inLoop before (rest.length + after) ∧ Contained inLoop (before + 1) after rest :=
  Iff.rfl

@[simp] theorem contained_append {code rest : Code} :
    Contained inLoop before after (code ++ rest) ↔
      Contained inLoop before (rest.length + after) code ∧
        Contained inLoop (before + code.length) after rest := by
  induction code generalizing before with
  | nil => simp
  | cons op code ih =>
    rw [List.cons_append, contained_cons, contained_cons, ih, List.length_append,
      List.length_cons, and_assoc, Nat.add_assoc, Nat.add_right_comm before, Nat.add_assoc before]

theorem Op.Lands.mono {inLoop' : Bool} {before' after' : Nat} {op : Op}
    (h : op.Lands inLoop before after) (hloop : inLoop → inLoop') (hbefore : before ≤ before')
    (hafter : after ≤ after') : op.Lands inLoop' before' after' where
  back hjump := by
    have := h.back hjump
    omega
  ahead hjump := by
    have := h.ahead hjump
    omega
  leave hleave := hloop (h.leave hleave)

theorem Contained.mono {inLoop' : Bool} {before' after' : Nat} {code : Code}
    (h : Contained inLoop before after code) (hloop : inLoop → inLoop')
    (hbefore : before ≤ before') (hafter : after ≤ after') :
    Contained inLoop' before' after' code := by
  induction code generalizing before before' with
  | nil => trivial
  | cons op rest ih =>
    exact ⟨h.1.mono hloop hbefore (by omega), ih h.2 (by omega)⟩

/-- Whether an instruction neither jumps nor leaves a loop. -/
def OpCode.proceeds (code : OpCode) : Bool := !code.isJump && code != .leave

attribute [local simp] OpCode.proceeds OpCode.isJump

theorem Op.lands_of_proceeds {op : Op} (h : op.code.proceeds) : op.Lands inLoop before after := by
  rw [OpCode.proceeds, Bool.and_eq_true, Bool.not_eq_true', bne_iff_ne] at h
  refine ⟨fun hjump => ?_, fun hjump => ?_, fun hleave => absurd hleave h.2⟩
  · rw [h.1] at hjump
    cases hjump
  · rw [h.1] at hjump
    cases hjump

section Instructions

variable {code : OpCode} {position : Position}

@[simp] theorem lands_plain (h : code.proceeds) :
    (Op.plain code position).Lands inLoop before after := Op.lands_of_proceeds h

@[simp] theorem lands_named {name : String} (h : code.proceeds) :
    (Op.named code name position).Lands inLoop before after := Op.lands_of_proceeds h

@[simp] theorem lands_counted {n : Nat} (h : code.proceeds) :
    (Op.counted code n position).Lands inLoop before after := Op.lands_of_proceeds h

@[simp] theorem lands_withValue {v : Value} (h : code.proceeds) :
    (Op.withValue code v position).Lands inLoop before after := Op.lands_of_proceeds h

end Instructions

@[simp] theorem lands_callOp (want : Option Nat) (position : Position) :
    (callOp want position).Lands inLoop before after := by
  cases want <;> simp [callOp]

/-- A jump whose distance is known. -/
theorem lands_jumping {code : OpCode} {d : Int} {position : Position} (hback : 0 ≤ before + 1 + d)
    (hahead : d ≤ after) (hcode : code ≠ .leave) :
    (Op.jumping code d position).Lands inLoop before after where
  back _ := hback
  ahead _ := hahead
  leave h := absurd h hcode

/-- A jump over a number of instructions. -/
theorem lands_jumping_ahead {code : OpCode} {d : Nat} {position : Position} (h : d ≤ after)
    (hcode : code ≠ .leave) : (Op.jumping code d position).Lands inLoop before after :=
  lands_jumping (by omega) (by omega) hcode

/-! ### Parts of code -/

/-- How far the code of an expression jumps past its end. -/
def Target.distance : Target → Nat
  | .value => 0
  | .jumpWhen _ distance => distance

theorem contained_finish {target : Target} {position : Position} {code : Code}
    (h : ∀ after, Contained inLoop before after code) (htarget : target.distance ≤ after) :
    Contained inLoop before after (target.finish position code) := by
  rcases target with _ | ⟨_ | _, distance⟩
  · exact h after
  all_goals
    simp only [Target.distance] at htarget
    simp only [Target.finish, contained_append]
    exact ⟨h _, lands_jumping_ahead (by simpa using htarget) (by decide), trivial⟩

/-- **The code of a loop is contained and is left by jumps.** -/
theorem contained_resolveBreaks {short : Nat} {code : Code} (h : Contained true before after code)
    (hshort : short ≤ before + code.length) :
    Contained inLoop before after (resolveBreaks short code) := by
  induction code generalizing before with
  | nil => trivial
  | cons op rest ih =>
    rw [List.length_cons] at hshort
    refine ⟨?_, ih h.2 (by omega)⟩
    rw [Program.length_resolveBreaks]
    split
    · exact lands_jumping (by omega) (by omega) (by decide)
    · next hne =>
      exact ⟨h.1.back, h.1.ahead, fun hleave => absurd hleave hne⟩

@[simp] theorem contained_inScope {position : Position} {code : Code} :
    Contained inLoop before after (inScope position code) ↔
      Contained inLoop (before + 1) (after + 1) code := by
  simp [inScope, contained_cons, Nat.add_comm 1]

@[simp] theorem contained_jumpBack {position : Position} {code : Code} :
    (jumpBack position code).Lands inLoop (before + code.length) after :=
  lands_jumping (by omega) (by omega) (by decide)

@[simp] theorem contained_bindLocal (name : String) (position : Position) :
    Contained inLoop before after (bindLocal name position) := by
  simp [bindLocal, contained_cons]

@[simp] theorem contained_bindLocals (names : List Identifier) :
    Contained inLoop before after (bindLocals names) := by
  induction names generalizing after with
  | nil => trivial
  | cons name rest ih => simp [bindLocals_cons, ih]

/-- What stands around a piece of code does not matter if none of its jumps leads out
of it. -/
def Enclosed (inLoop : Bool) (code : Code) : Prop :=
  ∀ before after, Contained inLoop before after code

theorem enclosed_callCode {position : Position} {arguments : List Expr} {values callee : Code}
    {want : Option Nat} (hvalues : Enclosed inLoop values) (hcallee : Enclosed inLoop callee) :
    Enclosed inLoop (callCode position arguments values callee want) := by
  intro before after
  cases hends : endsInCall arguments with
  | true =>
    rw [callCode_of_endsInCall hends]
    simp [contained_cons, hvalues _ _, hcallee _ _]
  | false =>
    rw [callCode_of_not_endsInCall hends]
    simp [contained_cons, hvalues _ _, hcallee _ _]

/-- The code of a loop that counts. -/
theorem enclosed_countingLoop {position : Position} {name : String} {start stop step body : Code}
    (hstart : Enclosed inLoop start) (hstop : Enclosed true stop) (hstep : Enclosed true step)
    (hbody : Enclosed true body) :
    Enclosed inLoop (countingLoop position name start stop step body) := by
  intro before after
  rw [countingLoop, contained_append]
  refine ⟨hstart _ _, contained_resolveBreaks ?_ (by simp; omega)⟩
  rw [contained_append, contained_cons, contained_cons]
  refine ⟨?_, contained_jumpBack, lands_plain (by simp), trivial⟩
  simp only [List.cons_append, contained_cons, contained_append, contained_inScope, contained_nil]
  refine ⟨lands_plain (by simp), ⟨⟨⟨hstop _ _, lands_plain (by simp), ?_, trivial⟩,
    lands_plain (by simp), contained_bindLocal _ _, hbody _ _⟩, hstep _ _⟩, lands_plain (by simp),
    trivial⟩
  exact lands_jumping_ahead (by simp; omega) (by decide)

/-- The code of a loop over an iterator. -/
theorem enclosed_iteratorLoop {position : Position} {names : List Identifier}
    {iterators body : Code} (hiterators : Enclosed inLoop iterators) (hbody : Enclosed true body) :
    Enclosed inLoop (iteratorLoop position names iterators body) := by
  intro before after
  rw [iteratorLoop, contained_append]
  refine ⟨by simp [contained_cons, hiterators _ _], contained_resolveBreaks ?_ (by simp; omega)⟩
  rw [contained_append, contained_cons, contained_cons]
  refine ⟨?_, contained_jumpBack, lands_counted (by simp), trivial⟩
  simp only [contained_append, contained_cons, contained_inScope, contained_bindLocals, hbody _ _,
    contained_nil, and_true]
  refine ⟨lands_plain (by simp), lands_plain (by simp), ?_, lands_counted (by simp),
    lands_counted (by simp)⟩
  exact lands_jumping_ahead (by simp; omega) (by decide)

/-! ### Expressions -/

mutual

theorem Expr.contained_code : ∀ (e : Expr) {target : Target} {next before after : Nat},
    target.distance ≤ after → Contained inLoop before after (e.code target next).1
  | .literal _ _, _, _, _, _, h => contained_finish (by simp [contained_cons]) h
  | .var _ _, _, _, _, _, h => contained_finish (by simp [contained_cons]) h
  | .function _ _ _, _, _, _, _, h => contained_finish (by simp [contained_cons]) h
  | .table _ entries, _, _, _, _, h => by
    simp only [Expr.code, Gen.fst_bind, Gen.fst_pure]
    refine contained_finish (fun after => ?_) h
    rw [List.cons_append, contained_cons, contained_append]
    refine ⟨lands_plain (by rfl), enclosed_entriesCode entries _ _, ?_⟩
    split <;> simp [contained_cons]
  | .call _ callee arguments, _, _, _, _, h => by
    simp only [Expr.code, Gen.fst_bind, Gen.fst_pure]
    exact contained_finish (fun _ => enclosed_callCode (enclosed_valuesCode arguments)
      (callee.enclosed_code) _ _) h
  | .index _ table key, _, _, _, _, h => by
    simp only [Expr.code, Gen.fst_bind, Gen.fst_pure]
    refine contained_finish (fun _ => ?_) h
    simp [contained_cons, key.enclosed_code _ _, table.enclosed_code _ _]
  | .group _ inner, _, _, _, _, h => by
    simp only [Expr.code, Gen.fst_bind, Gen.fst_pure]
    exact contained_finish (fun _ => inner.enclosed_code _ _) h
  | .binary _ (.strict _) lhs rhs, _, _, _, _, h => by
    simp only [Expr.code, Gen.fst_bind, Gen.fst_pure]
    refine contained_finish (fun _ => ?_) h
    simp [contained_cons, lhs.enclosed_code _ _, rhs.enclosed_code _ _]
  | .binary _ .and lhs rhs, .value, _, _, _, _ => by
    simp only [Expr.code, Gen.fst_bind, Gen.fst_pure, contained_append, contained_cons]
    refine ⟨⟨lhs.enclosed_code _ _, lands_plain (by simp), ?_, lands_plain (by simp), trivial⟩,
      rhs.enclosed_code _ _⟩
    exact lands_jumping_ahead (by simp; omega) (by decide)
  | .binary _ .and lhs rhs, .jumpWhen false distance, _, _, _, h => by
    simp only [Expr.code, Gen.fst_bind, Gen.fst_pure, contained_append]
    exact ⟨lhs.contained_code (Nat.add_le_add_left h _), rhs.contained_code h⟩
  | .binary _ .and lhs rhs, .jumpWhen true distance, _, _, _, h => by
    simp only [Expr.code, Gen.fst_bind, Gen.fst_pure, contained_append]
    exact ⟨lhs.contained_code (Nat.le_add_right _ _), rhs.contained_code h⟩
  | .binary _ .or lhs rhs, .value, _, _, _, _ => by
    simp only [Expr.code, Gen.fst_bind, Gen.fst_pure, contained_append, contained_cons]
    refine ⟨⟨lhs.enclosed_code _ _, lands_plain (by simp), ?_, lands_plain (by simp), trivial⟩,
      rhs.enclosed_code _ _⟩
    exact lands_jumping_ahead (by simp; omega) (by decide)
  | .binary _ .or lhs rhs, .jumpWhen false distance, _, _, _, h => by
    simp only [Expr.code, Gen.fst_bind, Gen.fst_pure, contained_append]
    exact ⟨lhs.contained_code (Nat.le_add_right _ _), rhs.contained_code h⟩
  | .binary _ .or lhs rhs, .jumpWhen true distance, _, _, _, h => by
    simp only [Expr.code, Gen.fst_bind, Gen.fst_pure, contained_append]
    exact ⟨lhs.contained_code (Nat.add_le_add_left h _), rhs.contained_code h⟩
  | .unary position operator operand, target, next, before, after, h => by
    have hstrict : ∀ operator, Contained inLoop before after
        (target.finish position ((operand.code .value next).1 ++
          [.plain (.unary operator) position])) := fun operator =>
      contained_finish (fun _ => by simp [contained_cons, operand.enclosed_code _ _]) h
    cases operator with
    | not =>
      cases target with
      | value => exact hstrict .not
      | jumpWhen truth distance =>
        rw [Expr.code]
        exact operand.contained_code h
    | _ => exact hstrict _

theorem Expr.enclosed_code (e : Expr) {next : Nat} : Enclosed inLoop (e.code .value next).1 :=
  fun _ _ => e.contained_code (Nat.zero_le _)

theorem enclosed_valuesCode : ∀ (es : List Expr) {next : Nat},
    Enclosed inLoop (valuesCode es next).1
  | [], _ => fun _ _ => trivial
  | [e], next => by
    cases e with
    | call position callee arguments =>
      simp only [valuesCode, Gen.fst_bind, Gen.fst_pure]
      exact enclosed_callCode (enclosed_valuesCode arguments) callee.enclosed_code
    | _ =>
      intro before after
      simpa [valuesCode] using Expr.enclosed_code _ before after
  | e :: f :: rest, next => by
    intro before after
    rw [valuesCode_cons (by simp)]
    simp [e.enclosed_code _ _, enclosed_valuesCode (f :: rest) _ _]

theorem enclosed_entriesCode : ∀ (es : List (Expr × Expr)) {next : Nat},
    Enclosed inLoop (entriesCode es next).1
  | [], _ => fun _ _ => trivial
  | (key, value) :: rest, next => by
    intro before after
    simp [entriesCode, enclosed_entriesCode rest _ _, key.enclosed_code _ _,
      value.enclosed_code _ _]

end

/-- The code of a condition jumps no further than it is told to. -/
theorem Expr.contained_condition (e : Expr) {truth : Bool} {distance next : Nat}
    (h : distance ≤ after) :
    Contained inLoop before after (e.code (.jumpWhen truth distance) next).1 :=
  e.contained_code h

theorem enclosed_storesCode (isLocal : Bool) : ∀ (es : List Expr) {next : Nat},
    Enclosed inLoop (storesCode isLocal es next).1 := by
  intro es
  induction es with
  | nil => exact fun _ _ => trivial
  | cons e rest hrest =>
    intro next before after
    cases e with
    | index position table key =>
      simp [storesCode, contained_cons, hrest _ _, table.enclosed_code _ _, key.enclosed_code _ _]
    | var position name =>
      cases isLocal <;> simp [storesCode, contained_cons, hrest _ _]
    | _ => simp [storesCode, contained_cons, hrest _ _]

theorem enclosed_declarations (names : List Identifier) :
    Enclosed inLoop (names.map fun name => Op.named .makeLocal name.name name.position) := by
  intro before after
  induction names generalizing before with
  | nil => trivial
  | cons name rest ih => exact ⟨lands_named (by simp), ih _⟩

/-! ### Statements -/

mutual

theorem enclosed_branchesCode {inLoop : Bool} {scopes : Option Nat} {position : Position}
    {last : Gen Code} (hlast : ∀ next, Enclosed inLoop (last next).1) :
    ∀ (branches : List (Expr × List Stat)), branchesClosed inLoop branches → ∀ {next : Nat},
      Enclosed inLoop (branchesCode scopes position last branches next).1
  | [], _, _ => hlast _
  | (condition, body) :: rest, h, next => by
    intro before after
    simp only [branchesClosed, Bool.and_eq_true] at h
    simp only [branchesCode, Gen.fst_bind, Gen.fst_pure, contained_append, contained_inScope]
    refine ⟨⟨condition.contained_condition ?_, enclosed_chunkCode body h.1 _ _, ?_⟩,
      enclosed_branchesCode hlast rest h.2 _ _⟩
    · simp only [List.length_append]
      omega
    · split
      · trivial
      · exact ⟨lands_jumping_ahead (by simp) (by decide), trivial⟩

/-- **The code of a statement is contained.** -/
theorem Stat.enclosed_code : ∀ (s : Stat) {inLoop : Bool} {scopes : Option Nat} {keep : Bool},
    s.closed inLoop → ∀ {next : Nat}, Enclosed inLoop (s.code scopes keep next).1
  | .expression e, inLoop, scopes, keep, _, next => by
    intro before after
    cases e with
    | call position callee arguments =>
      simp only [Stat.code, Gen.fst_bind, Gen.fst_pure]
      exact enclosed_callCode (enclosed_valuesCode arguments) callee.enclosed_code _ _
    | _ =>
      simp only [Stat.code, Gen.fst_bind, Gen.fst_pure]
      cases keep <;> simp [contained_cons, Expr.enclosed_code _ _ _]
  | .assignment _ isLocal targets values, inLoop, scopes, keep, _, next => by
    intro before after
    simp only [Stat.code, Gen.fst_bind, Gen.fst_pure, contained_append]
    refine ⟨?_, enclosed_storesCode _ _ _ _⟩
    split
    · exact enclosed_valuesCode values _ _
    · simp [contained_cons, enclosed_valuesCode values _ _]
  | .declaration names, inLoop, scopes, keep, _, next => by
    rw [Stat.code]
    exact enclosed_declarations names
  | .localFunction name function, inLoop, scopes, keep, _, next => by
    intro before after
    simp [Stat.code, contained_cons, function.enclosed_code _ _]
  | .conditional _ branches none, inLoop, scopes, keep, h, next => by
    rw [Stat.code]
    exact enclosed_branchesCode (fun _ _ _ => contained_nil) branches h
  | .conditional _ branches (some body), inLoop, scopes, keep, h, next => by
    simp only [Stat.closed, Bool.and_eq_true] at h
    rw [Stat.code]
    refine enclosed_branchesCode (fun _ _ _ => ?_) branches h.1
    simp [enclosed_chunkCode body h.2 _ _]
  | .whileLoop position condition body, inLoop, scopes, keep, h, next => by
    intro before after
    simp only [Stat.code, Gen.fst_bind, Gen.fst_pure]
    refine contained_resolveBreaks ?_ (Nat.zero_le _)
    rw [contained_append, contained_append, contained_inScope]
    refine ⟨⟨condition.contained_condition ?_, enclosed_chunkCode body h _ _⟩,
      contained_jumpBack, trivial⟩
    simp only [List.length_singleton]
    omega
  | .numericFor counter start stop none body, inLoop, scopes, keep, h, next => by
    simp only [Stat.code, Gen.fst_bind, Gen.fst_pure]
    exact enclosed_countingLoop start.enclosed_code stop.enclosed_code
      (fun _ _ => by simp [contained_cons]) (enclosed_chunkCode body h)
  | .numericFor counter start stop (some step) body, inLoop, scopes, keep, h, next => by
    simp only [Stat.code, Gen.fst_bind, Gen.fst_pure]
    exact enclosed_countingLoop start.enclosed_code stop.enclosed_code step.enclosed_code
      (enclosed_chunkCode body h)
  | .genericFor position names iterators body, inLoop, scopes, keep, h, next => by
    simp only [Stat.code, Gen.fst_bind, Gen.fst_pure]
    exact enclosed_iteratorLoop (enclosed_valuesCode iterators) (enclosed_chunkCode body h)
  | .repeatLoop position body condition, inLoop, scopes, keep, h, next => by
    intro before after
    simp only [Stat.code, Gen.fst_bind, Gen.fst_pure]
    refine contained_resolveBreaks ?_ (Nat.zero_le _)
    rw [contained_append, contained_inScope, contained_append]
    refine ⟨⟨enclosed_chunkCode body h _ _, condition.enclosed_code _ _⟩, ?_, trivial⟩
    exact lands_jumping (by omega) (by omega) (by decide)
  | .block body, inLoop, scopes, keep, h, next => by
    intro before after
    simp [Stat.code, enclosed_chunkCode body h _ _]
  | .result position values, inLoop, scopes, keep, _, next => by
    intro before after
    simp only [Stat.code, Gen.fst_bind, Gen.fst_pure]
    split <;> simp [contained_cons, enclosed_valuesCode values _ _]
  | .leave position, inLoop, scopes, keep, h, next => by
    intro before after
    simp only [Stat.code, Gen.fst_pure, leaveCode, contained_append, contained_cons, contained_nil,
      and_true]
    refine ⟨?_, ⟨nofun, nofun, fun _ => h⟩⟩
    induction scopes.getD 0 generalizing before with
    | zero => trivial
    | succ n ih => exact ⟨lands_plain (by simp), ih _⟩

theorem enclosed_chunkCode : ∀ (body : List Stat) {inLoop : Bool} {scopes : Option Nat}
    {keep : Bool}, chunkClosed inLoop body → ∀ {next : Nat},
      Enclosed inLoop (chunkCode scopes keep body next).1
  | [], _, _, _, _, _ => fun _ _ => trivial
  | s :: rest, inLoop, scopes, keep, h, next => by
    intro before after
    simp only [chunkClosed, Bool.and_eq_true] at h
    simp only [chunkCode, Gen.fst_bind, Gen.fst_pure, contained_append]
    exact ⟨s.enclosed_code h.1 _ _, enclosed_chunkCode rest h.2 _ _⟩

end

end ScriptEngine
