import ScriptEngine.Proofs.Pieces.Values

/-!
# Conditions

The code of a condition jumps where the code of the same expression leaves a value.  Both do the
same to the store, and fail in the same way; where the value would be left, the machine is at the
end of the code or a distance past it, as the value says, and all else is as it was.

## Main definitions

* `Verdict.shortcut` — the verdicts of an operator that may not need its second operand.
* `Setting.Decides` — the code of a condition comes to the verdicts of its value.

## Main results

* `Setting.decides_shortcut` — `and` and `or` decide what to do if their operands do.
* `Expr.decides` — so does every expression.
* `Setting.finishes_condition_iff` — the code of a condition ends as that of its value does.
-/

namespace ScriptEngine

/-- Code that leaves the value of the first operand if that counts as `stop`, and the value of the
second one otherwise. -/
def shortcutCode (stop : Bool) (position : Position) (left right : Code) : Code :=
  left ++ [.plain .dup position,
    .jumping (cond stop .jumpIf .jumpIfNot) (right.length + 1 : Nat) position,
    .plain .pop position] ++ right

theorem length_shortcutCode (stop : Bool) (position : Position) (left right : Code) :
    (shortcutCode stop position left right).length = left.length + 3 + right.length := by
  rw [shortcutCode, List.length_append, List.length_append]
  rfl

/-- Verdicts of an operator that does not need its second operand if the first one counts as
`stop`. -/
def Verdict.shortcut (stop : Bool) (left : Verdict → Prop) (right : Store → Verdict → Prop) :
    Verdict → Prop :=
  Verdict.andThen left fun v s r => if v.isTruthy = stop then r = .ok v s else right s r

namespace Setting

variable {setting : Setting} {call : Position → Nat → Reentry} {c : Piece} {st st' : State}
  {target : Target} {m : Machine} {behind ip : Nat} {s : Store} {places : List Nat}
  {exit : Option Nat} {position : Position} {left right code : Code} {R : Verdict → Prop}

/-! ### Operators that may not need their second operand -/

theorem Settles.of_traverses (h : setting.Traverses call false c st st')
    (hrest : setting.Settles call c st' target m behind R) :
    setting.Settles call c st target m behind R := by
  induction h using Relation.ReflTransGen.head_induction_on with
  | refl => exact hrest
  | head hstep _ ih => exact ih.of_step hstep.1 hstep.2

/-- The instructions between two operands.  They keep the value of the first one if it counts as
`stop`, and drop it otherwise. -/
theorem traverses_between (stop : Bool) (v : Value)
    (h : setting.program.Holds places exit ip (shortcutCode stop position left right)) :
    setting.Traverses call false
      ⟨ip, ip + (shortcutCode stop position left right).length, m.frames⟩
      ⟨Target.value.arrive m (ip + left.length) v, s⟩
      ⟨if v.isTruthy = stop then
          Target.value.arrive m (ip + (shortcutCode stop position left right).length) v
        else { m with ip := ip + left.length + 3 }, s⟩ := by
  rw [length_shortcutCode]
  rw [shortcutCode, List.append_assoc] at h
  have hinside {m' : Machine} (hm' : m'.frames = m.frames) (hle : ip + left.length ≤ m'.ip)
      (hlt : m'.ip < ip + left.length + 3) :
      Piece.Inside ⟨ip, ip + (left.length + 3 + right.length), m.frames⟩ m' :=
    (Piece.inside_iff hm').2 ⟨Nat.le_trans (Nat.le_add_right _ _) hle, by dsimp only; omega⟩
  have hdup : setting.step call false ⟨Target.value.arrive m (ip + left.length) v, s⟩ =
      .ok () ⟨{ m with ip := ip + left.length + 1, stack := v :: v :: m.stack }, s⟩ :=
    step_of_execute (h.right.head rfl) rfl
  have hjump : setting.step call false
      ⟨{ m with ip := ip + left.length + 1, stack := v :: v :: m.stack }, s⟩ =
      .ok () ⟨{ m with
        ip := if v.isTruthy = stop then ip + (left.length + 3 + right.length)
          else ip + left.length + 2
        stack := v :: m.stack }, s⟩ := by
    have hrun := jumpWhen_cons (m := { m with ip := ip + left.length + 2 }) (s := s) (v := v)
      (σ := v :: m.stack) (d := (right.length + 1 : Nat)) stop
      (show ((ip + left.length + 2 : Nat) : Int) + (right.length + 1 : Nat) =
        (ip + (left.length + 3 + right.length) : Nat) by omega)
    refine step_of_execute (h.right.tail.head (by cases stop <;> rfl)) ?_
    cases stop <;> exact hrun
  refine .head ⟨hinside rfl (Nat.le_refl _) (by dsimp only [Target.arrive]; omega), hdup⟩ ?_
  refine .head ⟨hinside rfl (Nat.le_add_right _ _) (by dsimp only; omega), hjump⟩ ?_
  by_cases hv : v.isTruthy = stop
  · rw [if_pos hv, if_pos hv]
    exact .refl
  · rw [if_neg hv, if_neg hv]
    have hpop : setting.step call false
        ⟨{ m with ip := ip + left.length + 2, stack := v :: m.stack }, s⟩ =
        .ok () ⟨{ m with ip := ip + left.length + 3 }, s⟩ :=
      step_of_execute (h.right.tail.tail.head rfl) rfl
    exact .single ⟨hinside rfl (Nat.le_add_right _ _) (by dsimp only; omega), hpop⟩

/-- The code of the first operand is part of the code of the operator. -/
theorem partOf_shortcutCode_left (stop : Bool) (ip : Nat) (frames : List Frame) :
    Piece.PartOf ⟨ip, ip + left.length, frames⟩
      ⟨ip, ip + (shortcutCode stop position left right).length, frames⟩ := by
  rw [length_shortcutCode]
  exact Piece.partOf_of_le (Nat.le_refl _) (by omega)

/-- So is the code of the second one. -/
theorem partOf_shortcutCode_right (stop : Bool) (ip : Nat) (frames : List Frame) :
    Piece.PartOf ⟨ip + left.length + 3, ip + left.length + 3 + right.length, frames⟩
      ⟨ip, ip + (shortcutCode stop position left right).length, frames⟩ := by
  rw [length_shortcutCode]
  exact Piece.partOf_of_le (by omega) (by omega)

/-- Where the value is left on the stack. -/
theorem settles_shortcut (stop : Bool) {L : Verdict → Prop} {R : Store → Verdict → Prop}
    (h : setting.program.Holds places exit ip (shortcutCode stop position left right))
    (hleft : setting.Settles call ⟨ip, ip + left.length, m.frames⟩ ⟨{ m with ip := ip }, s⟩ .value m
      (ip + left.length) L)
    (hright : ∀ v s', L (.ok v s') → v.isTruthy ≠ stop →
      setting.Settles call
        ⟨ip + left.length + 3, ip + left.length + 3 + right.length, m.frames⟩
        ⟨{ m with ip := ip + left.length + 3 }, s'⟩ .value m
        (ip + left.length + 3 + right.length) (R s')) :
    setting.Settles call ⟨ip, ip + (shortcutCode stop position left right).length, m.frames⟩
      ⟨{ m with ip := ip }, s⟩ .value m (ip + (shortcutCode stop position left right).length)
      (Verdict.shortcut stop L R) := by
  have hout (v : Value) :
      ¬ Piece.Inside ⟨ip, ip + (shortcutCode stop position left right).length, m.frames⟩
        (Target.value.arrive m (ip + (shortcutCode stop position left right).length) v) :=
    fun hin => Nat.lt_irrefl _ (hin.2 rfl).2
  have hend : ip + (shortcutCode stop position left right).length =
      ip + left.length + 3 + right.length := by
    rw [length_shortcutCode]
    omega
  refine hleft.of_part (partOf_shortcutCode_left stop ip m.frames) fun v s' hv => ?_
  refine .of_traverses (traverses_between stop v h) ?_
  by_cases hstop : v.isTruthy = stop
  · simp only [if_pos hstop]
    exact settles_of_not_inside (hout v)
  · simp only [if_neg hstop]
    have hlast := hright v s' hv hstop
    rw [← hend] at hlast
    exact hlast.of_last (Piece.partOf_of_le (by omega) (Nat.le_refl _)) hout

/-- Where code jumps: the code of the first operand jumps past that of the second one, and on to
where that one jumps if both jump alike. -/
theorem settles_shortcut_jump (stop truth : Bool) {skip distance : Nat} {L : Verdict → Prop}
    {R : Store → Verdict → Prop}
    (hskip : skip = right.length + if truth = stop then distance else 0)
    (hleft : setting.Settles call ⟨ip, ip + left.length, m.frames⟩ ⟨{ m with ip := ip }, s⟩
      (.jumpWhen stop skip) m (ip + left.length) L)
    (hright : ∀ v s', L (.ok v s') → v.isTruthy ≠ stop →
      setting.Settles call ⟨ip + left.length, ip + left.length + right.length, m.frames⟩
        ⟨{ m with ip := ip + left.length }, s'⟩ (.jumpWhen truth distance) m
        (ip + left.length + right.length) (R s')) :
    setting.Settles call ⟨ip, ip + left.length + right.length, m.frames⟩ ⟨{ m with ip := ip }, s⟩
      (.jumpWhen truth distance) m (ip + left.length + right.length)
      (Verdict.shortcut stop L R) := by
  have hout (v : Value) : ¬ Piece.Inside ⟨ip, ip + left.length + right.length, m.frames⟩
      ((Target.jumpWhen truth distance).arrive m (ip + left.length + right.length) v) := by
    rw [Piece.inside_iff rfl]
    simp only [Target.arrive]
    split <;> omega
  refine hleft.of_part (Piece.partOf_of_le (Nat.le_refl _) (Nat.le_add_right _ _)) fun v s' hv => ?_
  by_cases hstop : v.isTruthy = stop
  · have harrive : (Target.jumpWhen stop skip).arrive m (ip + left.length) v =
        (Target.jumpWhen truth distance).arrive m (ip + left.length + right.length) v := by
      simp only [Target.arrive, hstop, if_true, hskip, eq_comm (a := stop)]
      split <;> simp only [Nat.add_assoc, Nat.add_zero]
    simp only [if_pos hstop]
    rw [harrive]
    exact settles_of_not_inside (hout v)
  · have harrive : (Target.jumpWhen stop skip).arrive m (ip + left.length) v =
        { m with ip := ip + left.length } := by
      simp only [Target.arrive, if_neg hstop]
    simp only [if_neg hstop]
    rw [harrive]
    exact (hright v s' hv hstop).of_last
      (Piece.partOf_of_le (Nat.le_add_right _ _) (Nat.le_refl _)) hout

/-- Code that leaves a value, with a jump behind it. -/
theorem settles_finish {truth : Bool} {distance : Nat}
    (h : setting.program.Holds places exit ip
      (Target.finish (.jumpWhen truth distance) position code))
    (hcode : setting.Settles call ⟨ip, ip + code.length, m.frames⟩ ⟨{ m with ip := ip }, s⟩ .value m
      (ip + code.length) R) :
    setting.Settles call ⟨ip, ip + code.length + 1, m.frames⟩ ⟨{ m with ip := ip }, s⟩
      (.jumpWhen truth distance) m (ip + code.length + 1) R := by
  have hop : setting.program.code[ip + code.length]? =
      some (.jumping (cond truth .jumpIf .jumpIfNot) distance position) := by
    cases truth <;> exact h.right.head rfl
  rw [← Verdict.andThen_ok R]
  refine hcode.of_part (Piece.partOf_of_le (Nat.le_refl _) (Nat.le_succ _)) fun v s' _ => ?_
  have hjump : setting.step call false ⟨Target.value.arrive m (ip + code.length) v, s'⟩ =
      .ok () ⟨(Target.jumpWhen truth distance).arrive m (ip + code.length + 1) v, s'⟩ := by
    have hrun := jumpWhen_cons (m := { m with ip := ip + code.length + 1 }) (s := s') (v := v)
      (σ := m.stack) truth (Int.natCast_add (ip + code.length + 1) distance).symm
    refine step_of_execute hop ?_
    cases truth <;> exact hrun
  have hin : Piece.Inside ⟨ip, ip + code.length + 1, m.frames⟩
      (Target.value.arrive m (ip + code.length) v) :=
    (Piece.inside_iff rfl).2 ⟨Nat.le_add_right _ _, Nat.lt_succ_self _⟩
  refine .of_step hin hjump (settles_of_not_inside ?_)
  rw [Piece.inside_iff rfl]
  simp only [Target.arrive]
  split <;> omega

/-! ### Expressions -/

variable {talk : Talk} {fuel : Nat} {e lhs rhs : Expr}

/-- The code of an expression that is a condition comes to the verdicts of its code that leaves a
value, wherever the two stand. -/
def Decides (setting : Setting) (fuel : Nat) (places : List Nat) (m : Machine) (e : Expr) : Prop :=
  ∀ {truth : Bool} {distance next ip ip' : Nat} {exit exit' : Option Nat} {s : Store},
    setting.program.Holds places exit ip (e.code .value next).1 →
    setting.program.Holds places exit' ip' (e.code (.jumpWhen truth distance) next).1 →
    setting.Steady (setting.callFrom fuel) false
      ⟨ip, ip + (e.code .value next).1.length, m.frames⟩ ⟨{ m with ip := ip }, s⟩ →
    setting.Steady (setting.callFrom fuel) false
      ⟨ip', ip' + (e.code (.jumpWhen truth distance) next).1.length, m.frames⟩
      ⟨{ m with ip := ip' }, s⟩ →
    setting.Settles (setting.callFrom fuel)
      ⟨ip', ip' + (e.code (.jumpWhen truth distance) next).1.length, m.frames⟩
      ⟨{ m with ip := ip' }, s⟩ (.jumpWhen truth distance) m
      (ip' + (e.code (.jumpWhen truth distance) next).1.length)
      (setting.Yields (setting.callFrom fuel) m ip (e.code .value next).1 s)

/-- To jump when a value counts as true is to jump when its negation does not. -/
theorem ending_not (truth : Bool) (distance : Nat) (m : Machine) (behind : Nat) (v : Value)
    (s : Store) :
    (Target.jumpWhen truth distance).ending m behind (.ok (.boolean !v.isTruthy) s) =
      (Target.jumpWhen (!truth) distance).ending m behind (.ok v s) := by
  have htruth : (Value.boolean !v.isTruthy).isTruthy = !v.isTruthy := rfl
  simp only [Target.ending, Target.arrive, htruth]
  cases truth <;> cases v.isTruthy <;> rfl

section

variable (honest : Honest setting.natives talk) (hp : setting.program.Verifying)
include honest hp

/-- Expressions whose value a jump is made on. -/
theorem decides_of_finish (hcode : ∀ truth distance next,
    (e.code (.jumpWhen truth distance) next).1 =
      Target.finish (.jumpWhen truth distance) position (e.code .value next).1) :
    setting.Decides fuel places m e := by
  intro truth distance next ip ip' exit exit' s h h' _ hsteady'
  have hlength : (e.code (.jumpWhen truth distance) next).1.length =
      (e.code .value next).1.length + 1 := by
    rw [hcode]
    cases truth <;> simp [Target.finish]
  rw [hlength, ← Nat.add_assoc] at hsteady' ⊢
  rw [hcode] at h'
  have hvalue := settles_value honest hp h'.of_finish
    (hsteady'.of_part (Piece.partOf_of_le (Nat.le_refl _) (Nat.le_succ _)))
  refine settles_finish h' fun ending => ?_
  rw [hvalue]
  simp only [yields_iff_of_holds h h'.of_finish]

/-- The second operand of an operator that may not need it is run in room, too. -/
theorem steady_shortcut (stop : Bool) {v : Value} {s' : Store}
    (h : setting.program.Holds places exit ip (shortcutCode stop position left right))
    (hsteady : setting.Steady (setting.callFrom fuel) false
      ⟨ip, ip + (shortcutCode stop position left right).length, m.frames⟩ ⟨{ m with ip := ip }, s⟩)
    (hv : setting.Yields (setting.callFrom fuel) m ip left s (.ok v s'))
    (hstop : v.isTruthy ≠ stop) :
    setting.Steady (setting.callFrom fuel) false
      ⟨ip + left.length + 3, ip + left.length + 3 + right.length, m.frames⟩
      ⟨{ m with ip := ip + left.length + 3 }, s'⟩ := by
  have hpart : Piece.PartOf ⟨ip, ip + left.length, m.frames⟩
      ⟨ip, ip + (shortcutCode stop position left right).length, m.frames⟩ :=
    partOf_shortcutCode_left stop ip m.frames
  have hrun := ((Finishes.traverses hv).of_part hpart).trans (traverses_between stop v h)
  rw [if_neg hstop] at hrun
  exact (hsteady.behind honest hp hrun).of_part (partOf_shortcutCode_right stop ip m.frames)

/-- The verdicts of an operator that may not need its second operand. -/
theorem yields_shortcut (stop : Bool) {next next' : Nat} {r : Verdict}
    (h : setting.program.Holds places exit ip
      (shortcutCode stop position (lhs.code .value next').1 (rhs.code .value next).1))
    (hsteady : setting.Steady (setting.callFrom fuel) false
      ⟨ip, ip + (shortcutCode stop position (lhs.code .value next').1
        (rhs.code .value next).1).length, m.frames⟩ ⟨{ m with ip := ip }, s⟩) :
    setting.Yields (setting.callFrom fuel) m ip
        (shortcutCode stop position (lhs.code .value next').1 (rhs.code .value next).1) s r ↔
      Verdict.shortcut stop
        (setting.Yields (setting.callFrom fuel) m ip (lhs.code .value next').1 s)
        (setting.Yields (setting.callFrom fuel) m (ip + (lhs.code .value next').1.length + 3)
          (rhs.code .value next).1) r := by
  have hleft := settles_value honest hp h.left.left
    (hsteady.of_part (partOf_shortcutCode_left stop ip m.frames))
  refine (settles_shortcut stop h hleft fun v s' hv hstop => ?_).yields_iff
  exact settles_value honest hp (h.right.moved (by simp [Nat.add_assoc]))
    (steady_shortcut honest hp stop h hsteady hv hstop)

/-- **`and` and `or` decide what to do** if their operands do. -/
theorem decides_shortcut (stop : Bool)
    (hvalue : ∀ next, (e.code .value next).1 = shortcutCode stop position
      (lhs.code .value (next + rhs.functions.length)).1 (rhs.code .value next).1)
    (hjump : ∀ truth distance next, (e.code (.jumpWhen truth distance) next).1 =
      (lhs.code (.jumpWhen stop ((rhs.code (.jumpWhen truth distance) next).1.length +
        if truth = stop then distance else 0)) (next + rhs.functions.length)).1 ++
        (rhs.code (.jumpWhen truth distance) next).1)
    (hlhs : setting.Decides fuel places m lhs) (hrhs : setting.Decides fuel places m rhs) :
    setting.Decides fuel places m e := by
  intro truth distance next ip ip' exit exit' s h h' hsteady hsteady'
  rw [hvalue] at h hsteady ⊢
  rw [hjump, List.length_append, ← Nat.add_assoc] at hsteady' ⊢
  rw [hjump] at h'
  intro ending
  simp only [yields_shortcut honest hp stop h hsteady]
  have hleft := hlhs h.left.left h'.left
    (hsteady.of_part (partOf_shortcutCode_left stop ip m.frames))
    (hsteady'.of_part (Piece.partOf_of_le (Nat.le_refl _) (Nat.le_add_right _ _)))
  refine settles_shortcut_jump stop truth rfl hleft (fun v s' hv hstop => ?_) ending
  refine hrhs (h.right.moved (by simp [Nat.add_assoc])) h'.right
    (steady_shortcut honest hp stop h hsteady hv hstop) ?_
  have hrun := Finishes.traverses ((hleft _).2 ⟨_, hv, rfl⟩)
  rw [Target.arrive, if_neg hstop] at hrun
  exact (hsteady'.behind honest hp (hrun.of_part (Piece.partOf_of_le (Nat.le_refl _)
    (Nat.le_add_right _ _)))).of_part (Piece.partOf_of_le (Nat.le_add_right _ _) (Nat.le_refl _))

/-- The verdicts of a value that is negated. -/
theorem yields_not {next : Nat} {r : Verdict}
    (h : setting.program.Holds places exit ip
      ((e.code .value next).1 ++ [.plain (.unary .not) position]))
    (hsteady : setting.Steady (setting.callFrom fuel) false
      ⟨ip, ip + (e.code .value next).1.length + 1, m.frames⟩ ⟨{ m with ip := ip }, s⟩) :
    setting.Yields (setting.callFrom fuel) m ip
        ((e.code .value next).1 ++ [.plain (.unary .not) position]) s r ↔
      Verdict.andThen (setting.Yields (setting.callFrom fuel) m ip (e.code .value next).1 s)
        (fun v s' r => r = .ok (.boolean !v.isTruthy) s') r := by
  have hpart : Piece.PartOf ⟨ip, ip + (e.code .value next).1.length, m.frames⟩
      ⟨ip, ip + (e.code .value next).1.length + 1, m.frames⟩ :=
    Piece.partOf_of_le (Nat.le_refl _) (Nat.le_succ _)
  refine Settles.yields_iff ?_
  rw [List.length_append, List.length_singleton, ← Nat.add_assoc]
  refine (settles_value honest hp h.left (hsteady.of_part hpart)).of_part hpart fun v s' _ => ?_
  have hnot : setting.step (setting.callFrom fuel) false
      ⟨Target.value.arrive m (ip + (e.code .value next).1.length) v, s'⟩ =
      .ok () ⟨Target.value.arrive m (ip + (e.code .value next).1.length + 1)
        (.boolean !v.isTruthy), s'⟩ := step_of_execute (h.right.head rfl) rfl
  have hin : Piece.Inside ⟨ip, ip + (e.code .value next).1.length + 1, m.frames⟩
      (Target.value.arrive m (ip + (e.code .value next).1.length) v) :=
    (Piece.inside_iff rfl).2 ⟨Nat.le_add_right _ _, Nat.lt_succ_self _⟩
  exact .of_step hin hnot (settles_of_not_inside fun hout => Nat.lt_irrefl _ (hout.2 rfl).2)

/-- **A condition that is negated** is the condition with its jumps the other way round. -/
theorem decides_not (h : setting.Decides fuel places m e) :
    setting.Decides fuel places m (.unary position .not e) := by
  intro truth distance next ip ip' exit exit' s hvalue hjump hsteady hsteady'
  have hcode : ((Expr.unary position .not e).code .value next).1 =
      (e.code .value next).1 ++ [.plain (.unary .not) position] := by
    simp only [Expr.code, Gen.fst_bind, Gen.fst_pure]
  have hcode' : ((Expr.unary position .not e).code (.jumpWhen truth distance) next).1 =
      (e.code (.jumpWhen (!truth) distance) next).1 := by
    rw [Expr.code]
  rw [hcode] at hvalue hsteady ⊢
  rw [hcode'] at hjump hsteady' ⊢
  rw [List.length_append, List.length_singleton, ← Nat.add_assoc] at hsteady
  have hpart : Piece.PartOf ⟨ip, ip + (e.code .value next).1.length, m.frames⟩
      ⟨ip, ip + (e.code .value next).1.length + 1, m.frames⟩ :=
    Piece.partOf_of_le (Nat.le_refl _) (Nat.le_succ _)
  intro ending
  rw [h hvalue.left hjump (hsteady.of_part hpart) hsteady' ending]
  simp only [yields_not honest hp hvalue hsteady]
  constructor
  · rintro ⟨v | i, hr, rfl⟩
    · exact ⟨_, ⟨_, hr, rfl⟩, (ending_not truth distance _ _ _ _).symm⟩
    · exact ⟨_, ⟨_, hr, rfl⟩, rfl⟩
  · rintro ⟨_, ⟨v | i, hr, rfl⟩, rfl⟩
    · exact ⟨_, hr, ending_not truth distance _ _ _ _⟩
    · exact ⟨_, hr, rfl⟩

/-- **Every expression decides what to do.** -/
theorem decides : ∀ e : Expr, setting.Decides fuel places m e
  | .literal _ _ | .var _ _ | .function _ _ _ | .table _ _ | .call _ _ _ | .index _ _ _
  | .group _ _ | .binary _ (.strict _) _ _ | .unary _ .negate _ | .unary _ .length _
  | .unary _ .bitNot _ =>
    decides_of_finish honest hp fun truth distance next => by
      simp only [Expr.code, Gen.fst_bind, Gen.fst_pure]
      rfl
  | .binary _ .and lhs rhs =>
    decides_shortcut honest hp false
      (fun next => by
        simp only [Expr.code, Gen.fst_bind, Gen.fst_pure, Expr.bodies_code, length_functionCodes]
        rfl)
      (fun truth distance next => by
        cases truth <;>
        simp only [Expr.code, Gen.fst_bind, Gen.fst_pure, Expr.bodies_code,
          length_functionCodes] <;>
        rfl)
      (decides lhs) (decides rhs)
  | .binary _ .or lhs rhs =>
    decides_shortcut honest hp true
      (fun next => by
        simp only [Expr.code, Gen.fst_bind, Gen.fst_pure, Expr.bodies_code, length_functionCodes]
        rfl)
      (fun truth distance next => by
        cases truth <;>
        simp only [Expr.code, Gen.fst_bind, Gen.fst_pure, Expr.bodies_code,
          length_functionCodes] <;>
        rfl)
      (decides lhs) (decides rhs)
  | .unary _ .not operand => decides_not honest hp (decides operand)

end

/-- **The code of a condition does what the code of its value does.**  The code of the value leaves
one value, if it does not fail.  Then the code of the condition leaves the machine as it was, at its
end or `distance` instructions further on, as the value counts; otherwise it fails in the same
way.  The store is the same each time. -/
theorem finishes_condition_iff (honest : Honest setting.natives talk)
    (hp : setting.program.Verifying) {truth : Bool} {distance next ip ip' : Nat}
    {exit exit' : Option Nat}
    (hvalue : setting.program.Holds places exit ip (e.code .value next).1)
    (hcondition : setting.program.Holds places exit' ip' (e.code (.jumpWhen truth distance) next).1)
    (hsteady : setting.Steady (setting.callFrom fuel) false
      ⟨ip, ip + (e.code .value next).1.length, m.frames⟩ ⟨{ m with ip := ip }, s⟩)
    (hsteady' : setting.Steady (setting.callFrom fuel) false
      ⟨ip', ip' + (e.code (.jumpWhen truth distance) next).1.length, m.frames⟩
      ⟨{ m with ip := ip' }, s⟩) :
    (∀ ending, setting.Finishes (setting.callFrom fuel) false
        ⟨ip, ip + (e.code .value next).1.length, m.frames⟩ ⟨{ m with ip := ip }, s⟩ ending →
      (∃ v s', ending = .outside ⟨{ m with
        ip := ip + (e.code .value next).1.length
        stack := v :: m.stack }, s'⟩) ∨ ∃ i s', ending = .failed i s') ∧
    ∀ ending, setting.Finishes (setting.callFrom fuel) false
        ⟨ip', ip' + (e.code (.jumpWhen truth distance) next).1.length, m.frames⟩
        ⟨{ m with ip := ip' }, s⟩ ending ↔
      (∃ v s', setting.Finishes (setting.callFrom fuel) false
          ⟨ip, ip + (e.code .value next).1.length, m.frames⟩ ⟨{ m with ip := ip }, s⟩
          (.outside ⟨{ m with
            ip := ip + (e.code .value next).1.length
            stack := v :: m.stack }, s'⟩) ∧
        ending = .outside ⟨{ m with
          ip := if v.isTruthy = truth then
              ip' + (e.code (.jumpWhen truth distance) next).1.length + distance
            else ip' + (e.code (.jumpWhen truth distance) next).1.length }, s'⟩) ∨
      ∃ i s', setting.Finishes (setting.callFrom fuel) false
          ⟨ip, ip + (e.code .value next).1.length, m.frames⟩ ⟨{ m with ip := ip }, s⟩
          (.failed i s') ∧ ending = .failed i s' := by
  have hverdicts := settles_value honest hp hvalue hsteady
  have hdecides := decides honest hp e hvalue hcondition hsteady hsteady'
  refine ⟨fun ending hrun => ?_, fun ending => (hdecides ending).trans ⟨?_, ?_⟩⟩
  · obtain ⟨v | i, -, rfl⟩ := (hverdicts ending).1 hrun
    · exact .inl ⟨_, _, rfl⟩
    · exact .inr ⟨_, _, rfl⟩
  · rintro ⟨v | i, hr, rfl⟩
    · exact .inl ⟨_, _, hr, rfl⟩
    · exact .inr ⟨_, _, hr, rfl⟩
  · rintro (⟨v, s', hr, rfl⟩ | ⟨i, s', hr, rfl⟩)
    · exact ⟨.ok v s', hr, rfl⟩
    · exact ⟨.error i s', hr, rfl⟩

/-- The code of `not nil` that leaves the value, and behind it the code that jumps over one
instruction if the value counts as false. -/
def negatedNil : Setting :=
  ⟨⟨#[.withValue .push .nil ⟨1, 5⟩, .plain (.unary .not) ⟨1, 1⟩, .withValue .push .nil ⟨1, 5⟩,
    .jumping .jumpIf 1 ⟨1, 5⟩], 0⟩, .standard, ⟨0⟩, Library.run Host.function⟩

/-- The condition `not nil` holds, so that its code is run to its end. -/
theorem finishes_condition_iff_not :
    negatedNil.Finishes (negatedNil.callFrom 0) false ⟨2, 4, []⟩
      ⟨⟨2, [], [⟨0⟩], [], [], [], 0⟩, .empty⟩
      (.outside ⟨⟨4, [], [⟨0⟩], [], [], [], 0⟩, .empty⟩) := by
  obtain ⟨talk, honest⟩ := honest_run
  have hverifying : negatedNil.program.Verifying := by
    intro op hop hcode entry captured hpushed
    simp only [negatedNil, List.mem_cons, List.not_mem_nil, or_false] at hop
    rcases hop with rfl | rfl | rfl | rfl <;> cases hpushed
  have hknown (ip : Nat) : State.Known negatedNil.program.enters
      ⟨⟨ip, [], [⟨0⟩], [], [], [], 0⟩, .empty⟩ := ⟨nofun, Store.known_empty⟩
  have hvalue : negatedNil.program.Holds [] none 0
      ((Expr.unary ⟨1, 1⟩ .not (.literal ⟨1, 5⟩ .nil)).code .value 0).1 := ⟨rfl, rfl, trivial⟩
  have hcondition : negatedNil.program.Holds [] none 2
      ((Expr.unary ⟨1, 1⟩ .not (.literal ⟨1, 5⟩ .nil)).code (.jumpWhen false 1) 0).1 :=
    ⟨rfl, rfl, trivial⟩
  have hroom {m : Machine} (h : m.stack.length ≤ 1) : m.HasRoom :=
    Nat.lt_of_le_of_lt h (by decide)
  have hsteady : negatedNil.Steady (negatedNil.callFrom 0) false ⟨0, 2, []⟩
      ⟨⟨0, [], [⟨0⟩], [], [], [], 0⟩, .empty⟩ := by
    refine ⟨hknown 0, fun st' h => ?_⟩
    rcases h.cases_step rfl with rfl | h
    · exact hroom (Nat.zero_le 1)
    rcases h.cases_step rfl with rfl | h
    · exact hroom (Nat.le_refl 1)
    rw [h.eq_of_not_inside fun hin => absurd (hin.2 rfl).2 (by decide)]
    exact hroom (Nat.le_refl 1)
  have hsteady' : negatedNil.Steady (negatedNil.callFrom 0) false ⟨2, 4, []⟩
      ⟨⟨2, [], [⟨0⟩], [], [], [], 0⟩, .empty⟩ := by
    refine ⟨hknown 2, fun st' h => ?_⟩
    rcases h.cases_step rfl with rfl | h
    · exact hroom (Nat.zero_le 1)
    rcases h.cases_step rfl with rfl | h
    · exact hroom (Nat.le_refl 1)
    rw [h.eq_of_not_inside fun hin => absurd (hin.2 rfl).2 (by decide)]
    exact hroom (Nat.zero_le 1)
  have hmain := (finishes_condition_iff (m := ⟨2, [], [⟨0⟩], [], [], [], 0⟩) honest hverifying
    hvalue hcondition hsteady hsteady').2
  refine (hmain _).2 (.inl ⟨.boolean true, .empty, ?_, rfl⟩)
  refine .next ((Piece.inside_iff rfl).2 ⟨by decide, by decide⟩) rfl ?_
  refine .next ((Piece.inside_iff rfl).2 ⟨by decide, by decide⟩) rfl ?_
  exact .outside fun hin => absurd (hin.2 rfl).2 (by decide)

end Setting

end ScriptEngine
