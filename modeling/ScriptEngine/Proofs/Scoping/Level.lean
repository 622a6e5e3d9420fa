import ScriptEngine.Proofs.Linking.Jumps

/-!
# Code on one level

Most code opens and closes no scopes, and jumps ahead only: inside of itself, to its end,
or a known distance past it.  Such code stands in the same blocks from its beginning to
its end.

## Main definitions

* `Level` — code that opens and closes no scopes and jumps ahead.
* `Straight` — such code that does not jump past its end.

## Main results

* `Expr.level_code` — the code of an expression is level.
* `straight_storesCode` — so is that of the targets of an assignment.
-/

namespace ScriptEngine

/-- Code that opens and closes no scopes, and whose jumps go ahead: inside of it, or past its
end by a distance in `far`.  Variables are declared in it only if `declaring` is set. -/
def Level (declaring : Bool) (far : Nat → Prop) : Code → Prop
  | [] => True
  | op :: rest =>
    (op.code ≠ .startBlock ∧ op.code ≠ .endBlock ∧ op.code ≠ .leave ∧
      (op.code = .makeLocal → declaring) ∧
      (op.code.isJump → ∃ d : Nat, op.offset = d ∧ (d < rest.length ∨ far (d - rest.length)))) ∧
      Level declaring far rest

/-- Level code that does not jump past its end. -/
def Straight (declaring : Bool) (code : Code) : Prop := ∀ far, far 0 → Level declaring far code

variable {declaring : Bool} {far : Nat → Prop}

@[simp] theorem level_nil : Level declaring far [] := trivial

@[simp] theorem level_append {code rest : Code} :
    Level declaring far (code ++ rest) ↔
      Level declaring (fun k => k < rest.length ∨ far (k - rest.length)) code ∧
        Level declaring far rest := by
  induction code with
  | nil => simp
  | cons op code ih =>
    have hland (d : Nat) : (d < (code ++ rest).length ∨ far (d - (code ++ rest).length)) ↔
        (d < code.length ∨ d - code.length < rest.length ∨
          far (d - code.length - rest.length)) := by
      rw [List.length_append, Nat.sub_add_eq]
      by_cases hd : d < code.length
      · simp [hd, Nat.lt_add_right _ hd]
      · simp only [hd, false_or, Nat.sub_lt_iff_lt_add (Nat.not_lt.1 hd), Nat.add_comm]
    simp only [List.cons_append, Level, hland, ih, and_assoc]

theorem Level.mono {declaring' : Bool} {far' : Nat → Prop} {code : Code}
    (h : Level declaring far code) (hdeclaring : declaring → declaring')
    (hfar : ∀ k, far k → far' k) : Level declaring' far' code := by
  induction code with
  | nil => trivial
  | cons op rest ih =>
    obtain ⟨⟨hstart, hend, hleave, hlocal, hjump⟩, hrest⟩ := h
    refine ⟨⟨hstart, hend, hleave, hdeclaring ∘ hlocal, fun h => ?_⟩, ih hrest⟩
    obtain ⟨d, hd, hland⟩ := hjump h
    exact ⟨d, hd, hland.imp_right (hfar _)⟩

/-- Where level code declares no variables. -/
theorem Level.not_makeLocal {code : Code} (h : Level false far code) {op : Op} (hop : op ∈ code) :
    op.code ≠ .makeLocal := by
  induction code with
  | nil => cases hop
  | cons first rest ih =>
    rcases List.mem_cons.1 hop with rfl | hop
    · exact fun hlocal => Bool.false_ne_true (h.1.2.2.2.1 hlocal)
    · exact ih h.2 hop

theorem Level.not_leave {code : Code} (h : Level declaring far code) {op : Op} (hop : op ∈ code) :
    op.code ≠ .leave := by
  induction code with
  | nil => cases hop
  | cons first rest ih =>
    rcases List.mem_cons.1 hop with rfl | hop
    · exact h.1.2.2.1
    · exact ih h.2 hop

theorem Straight.append {code rest : Code} (h : Straight declaring code)
    (h' : Straight declaring rest) : Straight declaring (code ++ rest) := by
  intro far hfar
  rw [level_append]
  exact ⟨h _ (.inr (by simpa using hfar)), h' _ hfar⟩

theorem Straight.of_not_declaring {code : Code} (h : Straight false code) :
    Straight declaring code :=
  fun far hfar => (h far hfar).mono nofun fun _ => id

/-! ### Instructions -/

/-- Whether an instruction goes on to the next one, in the same scopes. -/
def OpCode.straight (declaring : Bool) (code : OpCode) : Bool :=
  code.proceeds && code != .startBlock && code != .endBlock && (code != .makeLocal || declaring)

theorem level_cons_of_straight {op : Op} {rest : Code} (h : op.code.straight declaring) :
    Level declaring far (op :: rest) ↔ Level declaring far rest := by
  simp only [OpCode.straight, OpCode.proceeds, Bool.and_eq_true, bne_iff_ne, ne_eq,
    Bool.not_eq_true', Bool.or_eq_true] at h
  obtain ⟨⟨⟨⟨hjump, hleave⟩, hstart⟩, hend⟩, hlocal⟩ := h
  refine and_iff_right ⟨hstart, hend, hleave, fun h => hlocal.resolve_left fun hne => hne h, ?_⟩
  intro h
  rw [hjump] at h
  cases h

section Instructions

variable {code : OpCode} {position : Position} {rest : Code}

@[simp] theorem level_cons_plain (h : code.straight declaring) :
    Level declaring far (.plain code position :: rest) ↔ Level declaring far rest :=
  level_cons_of_straight h

@[simp] theorem level_cons_named {name : String} (h : code.straight declaring) :
    Level declaring far (.named code name position :: rest) ↔ Level declaring far rest :=
  level_cons_of_straight h

@[simp] theorem level_cons_counted {n : Nat} (h : code.straight declaring) :
    Level declaring far (.counted code n position :: rest) ↔ Level declaring far rest :=
  level_cons_of_straight h

@[simp] theorem level_cons_withValue {v : Value} (h : code.straight declaring) :
    Level declaring far (.withValue code v position :: rest) ↔ Level declaring far rest :=
  level_cons_of_straight h

@[simp] theorem level_cons_callOp {want : Option Nat} :
    Level declaring far (callOp want position :: rest) ↔ Level declaring far rest :=
  level_cons_of_straight (by cases want <;> rfl)

/-- A jump ahead. -/
theorem level_cons_jumping {d : Nat} (hcode : code.isJump) :
    Level declaring far (.jumping code d position :: rest) ↔
      (d < rest.length ∨ far (d - rest.length)) ∧ Level declaring far rest := by
  have hkind : code ≠ .startBlock ∧ code ≠ .endBlock ∧ code ≠ .leave ∧ code ≠ .makeLocal := by
    cases code <;> simp [OpCode.isJump] at hcode ⊢
  have hoffset : (Op.jumping code d position).offset = d := rfl
  have hjump : (Op.jumping code d position).code = code := rfl
  simp only [Level, hjump, hoffset, hkind, hcode, Int.natCast_inj, ne_eq, not_false_eq_true,
    true_and, forall_const, exists_eq_left', false_implies]

end Instructions

attribute [local simp] OpCode.straight OpCode.proceeds OpCode.isJump

theorem level_finish {target : Target} {position : Position} {code : Code}
    (h : Straight declaring code) :
    Level declaring (fun k => k = 0 ∨ k = target.distance) (target.finish position code) := by
  rcases target with _ | ⟨_ | _, distance⟩
  · exact h _ (.inl rfl)
  all_goals
    simp only [Target.finish, level_append]
    refine ⟨h _ (.inl (by simp)), ?_⟩
    rw [level_cons_jumping rfl]
    exact ⟨.inr (.inr rfl), trivial⟩

theorem straight_callCode {position : Position} {arguments : List Expr} {values callee : Code}
    {want : Option Nat} (hvalues : Straight declaring values)
    (hcallee : Straight declaring callee) :
    Straight declaring (callCode position arguments values callee want) := by
  intro far hfar
  cases hends : endsInCall arguments with
  | true =>
    rw [callCode_of_endsInCall hends]
    simp [hvalues _, hcallee _, hfar]
  | false =>
    rw [callCode_of_not_endsInCall hends]
    simp [hvalues _, hcallee _, hfar]

theorem straight_bindLocals (names : List Identifier) : Straight true (bindLocals names) := by
  induction names with
  | nil => exact fun _ _ => trivial
  | cons name rest ih =>
    rw [bindLocals_cons]
    exact ih.append fun _ _ => by simp [bindLocal]

theorem straight_declarations (names : List Identifier) :
    Straight true (names.map fun name => Op.named .makeLocal name.name name.position) := by
  intro far _
  induction names with
  | nil => trivial
  | cons name rest ih => exact (level_cons_named rfl).2 ih

/-! ### Expressions -/

mutual

/-- **The code of an expression is level.**  It jumps past its end by the distance of its
target at most. -/
theorem Expr.level_code : ∀ (e : Expr) {target : Target} {next : Nat},
    Level false (fun k => k = 0 ∨ k = target.distance) (e.code target next).1
  | .literal _ _, _, _ => level_finish fun _ _ => by simp
  | .var _ _, _, _ => level_finish fun _ _ => by simp
  | .function _ _ _, _, _ => level_finish fun _ _ => by simp
  | .table _ entries, _, _ => by
    simp only [Expr.code, Gen.fst_bind, Gen.fst_pure]
    refine level_finish fun far hfar => ?_
    rw [List.cons_append, level_cons_plain rfl, level_append]
    refine ⟨straight_entriesCode entries _ (.inr (by simpa using hfar)), ?_⟩
    split <;> simp
  | .call _ callee arguments, _, _ => by
    simp only [Expr.code, Gen.fst_bind, Gen.fst_pure]
    exact level_finish (straight_callCode (straight_valuesCode arguments) callee.straight_code)
  | .index _ table key, _, _ => by
    simp only [Expr.code, Gen.fst_bind, Gen.fst_pure]
    exact level_finish ((key.straight_code.append table.straight_code).append fun _ _ => by simp)
  | .group _ inner, _, _ => by
    simp only [Expr.code, Gen.fst_bind, Gen.fst_pure]
    exact level_finish inner.straight_code
  | .binary _ (.strict _) lhs rhs, _, _ => by
    simp only [Expr.code, Gen.fst_bind, Gen.fst_pure]
    exact level_finish ((rhs.straight_code.append lhs.straight_code).append fun _ _ => by simp)
  | .binary _ .and lhs rhs, .value, _ => by
    simp only [Expr.code, Gen.fst_bind, Gen.fst_pure, level_append]
    refine ⟨⟨lhs.straight_code _ (.inl (by simp)), ?_⟩, rhs.straight_code _ (.inl rfl)⟩
    rw [level_cons_plain rfl, level_cons_jumping rfl]
    simp
  | .binary _ .and lhs rhs, .jumpWhen false distance, _ => by
    simp only [Expr.code, Gen.fst_bind, Gen.fst_pure, level_append]
    refine ⟨lhs.level_code.mono id fun k hk => ?_, rhs.level_code⟩
    rcases hk with rfl | rfl
    · exact .inr (.inl (Nat.zero_sub _))
    · exact .inr (.inr (Nat.add_sub_cancel_left _ _))
  | .binary _ .and lhs rhs, .jumpWhen true distance, _ => by
    simp only [Expr.code, Gen.fst_bind, Gen.fst_pure, level_append]
    refine ⟨lhs.level_code.mono id fun k hk => ?_, rhs.level_code⟩
    rcases hk with rfl | rfl
    · exact .inr (.inl (Nat.zero_sub _))
    · exact .inr (.inl (Nat.sub_self _))
  | .binary _ .or lhs rhs, .value, _ => by
    simp only [Expr.code, Gen.fst_bind, Gen.fst_pure, level_append]
    refine ⟨⟨lhs.straight_code _ (.inl (by simp)), ?_⟩, rhs.straight_code _ (.inl rfl)⟩
    rw [level_cons_plain rfl, level_cons_jumping rfl]
    simp
  | .binary _ .or lhs rhs, .jumpWhen false distance, _ => by
    simp only [Expr.code, Gen.fst_bind, Gen.fst_pure, level_append]
    refine ⟨lhs.level_code.mono id fun k hk => ?_, rhs.level_code⟩
    rcases hk with rfl | rfl
    · exact .inr (.inl (Nat.zero_sub _))
    · exact .inr (.inl (Nat.sub_self _))
  | .binary _ .or lhs rhs, .jumpWhen true distance, _ => by
    simp only [Expr.code, Gen.fst_bind, Gen.fst_pure, level_append]
    refine ⟨lhs.level_code.mono id fun k hk => ?_, rhs.level_code⟩
    rcases hk with rfl | rfl
    · exact .inr (.inl (Nat.zero_sub _))
    · exact .inr (.inr (Nat.add_sub_cancel_left _ _))
  | .unary position operator operand, target, next => by
    have hstrict : ∀ operator, Level false (fun k => k = 0 ∨ k = target.distance)
        (target.finish position ((operand.code .value next).1 ++
          [.plain (.unary operator) position])) := fun operator =>
      level_finish (operand.straight_code.append fun _ _ => by simp)
    cases operator with
    | not =>
      cases target with
      | value => exact hstrict .not
      | jumpWhen truth distance =>
        rw [Expr.code]
        exact @Expr.level_code operand (.jumpWhen (!truth) distance) next
    | _ => exact hstrict _

theorem Expr.straight_code (e : Expr) {next : Nat} : Straight false (e.code .value next).1 :=
  fun _ hfar => e.level_code.mono id fun _ hk => (or_self_iff.1 hk) ▸ hfar

theorem straight_valuesCode : ∀ (es : List Expr) {next : Nat},
    Straight false (valuesCode es next).1
  | [], _ => fun _ _ => trivial
  | [e], next => by
    cases e with
    | call position callee arguments =>
      simp only [valuesCode, Gen.fst_bind, Gen.fst_pure]
      exact straight_callCode (straight_valuesCode arguments) callee.straight_code
    | _ =>
      intro far hfar
      simpa [valuesCode] using Expr.straight_code _ far hfar
  | e :: f :: rest, next => by
    rw [valuesCode_cons (by simp)]
    simp only [Gen.fst_bind, Gen.fst_pure]
    exact e.straight_code.append (straight_valuesCode (f :: rest))

theorem straight_entriesCode : ∀ (es : List (Expr × Expr)) {next : Nat},
    Straight false (entriesCode es next).1
  | [], _ => fun _ _ => trivial
  | (key, value) :: rest, next => by
    simp only [entriesCode, Gen.fst_bind, Gen.fst_pure]
    exact ((straight_entriesCode rest).append value.straight_code).append key.straight_code

end

theorem Expr.level_condition (e : Expr) {truth : Bool} {distance next : Nat} :
    Level false (fun k => k = 0 ∨ k = distance) (e.code (.jumpWhen truth distance) next).1 :=
  @level_code e (.jumpWhen truth distance) next

/-- **The code of the targets of an assignment is level.** -/
theorem straight_storesCode (isLocal : Bool) : ∀ (es : List Expr) {next : Nat},
    Straight isLocal (storesCode isLocal es next).1 := by
  intro es
  induction es with
  | nil => exact fun _ _ => trivial
  | cons e rest hrest =>
    intro next
    cases e with
    | index position table key =>
      simp only [storesCode, Gen.fst_bind, Gen.fst_pure]
      refine ((hrest.append table.straight_code.of_not_declaring).append ?_).append
        key.straight_code.of_not_declaring |>.append ?_
      · exact fun _ _ => by simp
      · exact fun _ _ => by simp
    | var position name =>
      simp only [storesCode, Gen.fst_bind, Gen.fst_pure]
      refine (hrest.append ?_).append fun _ _ => by simp
      cases isLocal
      · exact fun _ _ => trivial
      · exact fun _ _ => by simp
    | _ =>
      simp only [storesCode, Gen.fst_bind, Gen.fst_pure]
      exact hrest.append fun _ _ => by simp

end ScriptEngine
