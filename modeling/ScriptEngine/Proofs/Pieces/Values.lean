import ScriptEngine.Proofs.Compilation.Agreement
import ScriptEngine.Proofs.Pieces.Relocation
import ScriptEngine.Proofs.Safety.Expressions
import ScriptEngine.Proofs.Scoping.Level

/-!
# Values of expressions

The code of an expression leaves one value on the stack of the machine that has come to it, unless
it fails or goes on forever.  Which of these it does, and what it does to the store, does not
depend on the place where it stands.

## Main definitions

* `Returnless` — code without returns.
* `Verdict`, `Target.ending` — what an expression comes to, and how the run of its code ends then.
* `Setting.Yields` — code comes to a verdict.
* `Setting.Settles` — the runs of a piece of code end as some verdicts say.

## Main results

* `Setting.settles_value` — the code of an expression comes to verdicts only.
* `Setting.yields_iff_of_holds` — they are the same at two places.
* `Setting.Settles.of_part` — verdicts of code that is run part by part.
-/

namespace ScriptEngine

/-! ### Code without returns -/

/-- Code that does not return. -/
def Returnless (code : Code) : Prop := ∀ op ∈ code, op.code ≠ .ret

@[simp] theorem returnless_nil : Returnless [] := List.forall_mem_nil _

@[simp] theorem returnless_cons {op : Op} {rest : Code} :
    Returnless (op :: rest) ↔ op.code ≠ .ret ∧ Returnless rest := List.forall_mem_cons

@[simp] theorem returnless_append {code rest : Code} :
    Returnless (code ++ rest) ↔ Returnless code ∧ Returnless rest := List.forall_mem_append

theorem returnless_callCode {position : Position} {arguments : List Expr} {values callee : Code}
    {want : Option Nat} (hvalues : Returnless values) (hcallee : Returnless callee) :
    Returnless (callCode position arguments values callee want) := by
  have hcall : (callOp want position).code ≠ .ret := by
    cases want <;> exact nofun
  cases hends : endsInCall arguments with
  | true =>
    rw [callCode_of_endsInCall hends]
    simp [hvalues, hcallee, hcall, Op.plain]
  | false =>
    rw [callCode_of_not_endsInCall hends]
    simp [hvalues, hcallee, hcall, Op.counted]

mutual

/-- **The code of an expression does not return.** -/
theorem Expr.returnless_code : ∀ (e : Expr) {next : Nat}, Returnless (e.code .value next).1
  | .literal _ _, _ | .var _ _, _ | .function _ _ _, _ => by
    simp [Expr.code, Target.finish, Op.withValue, Op.named]
  | .table _ entries, next => by
    simp only [Expr.code, Gen.fst_bind, Gen.fst_pure, Target.finish]
    have hentries : Returnless (entriesCode entries next).1 := returnless_entriesCode entries
    split <;> simp [hentries, Op.plain, Op.counted]
  | .call _ callee arguments, _ => by
    simp only [Expr.code, Gen.fst_bind, Gen.fst_pure, Target.finish]
    exact returnless_callCode (returnless_valuesCode arguments) callee.returnless_code
  | .index _ table key, _ => by
    simp [Expr.code, Target.finish, table.returnless_code, key.returnless_code, Op.plain]
  | .group _ inner, _ => by
    simp [Expr.code, Target.finish, inner.returnless_code]
  | .binary _ operator lhs rhs, _ => by
    cases operator <;>
    simp [Expr.code, Target.finish, lhs.returnless_code, rhs.returnless_code, Op.plain, Op.jumping]
  | .unary _ operator operand, _ => by
    cases operator <;> simp [Expr.code, Target.finish, operand.returnless_code, Op.plain]

theorem returnless_valuesCode : ∀ (es : List Expr) {next : Nat}, Returnless (valuesCode es next).1
  | [], _ => returnless_nil
  | [e], next => by
    cases e with
    | call position callee arguments =>
      simp only [valuesCode, Gen.fst_bind, Gen.fst_pure]
      exact returnless_callCode (returnless_valuesCode arguments) callee.returnless_code
    | _ => simpa [valuesCode] using Expr.returnless_code _
  | e :: f :: rest, next => by
    rw [valuesCode_cons (by simp)]
    simp [e.returnless_code, returnless_valuesCode (f :: rest)]

theorem returnless_entriesCode : ∀ (es : List (Expr × Expr)) {next : Nat},
    Returnless (entriesCode es next).1
  | [], _ => returnless_nil
  | (key, value) :: rest, _ => by
    simp [entriesCode, key.returnless_code, value.returnless_code, returnless_entriesCode rest]

end

theorem Expr.code_ne_nil : ∀ (e : Expr) {next : Nat}, (e.code .value next).1 ≠ []
  | .literal _ _, _ | .var _ _, _ | .function _ _ _, _ | .table _ _, _ | .index _ _ _, _ => by
    simp [Expr.code, Target.finish]
  | .call _ _ _, _ => by simp [Expr.code, Target.finish, callCode]
  | .group _ inner, _ => by simpa [Expr.code, Target.finish] using inner.code_ne_nil
  | .binary _ operator _ _, _ => by cases operator <;> simp [Expr.code, Target.finish]
  | .unary _ operator _, _ => by cases operator <;> simp [Expr.code, Target.finish]

/-! ### Code at two places -/

theorem Level.exists_offset {declaring : Bool} {far : Nat → Prop} {code : Code}
    (h : Level declaring far code) {op : Op} (hop : op ∈ code) (hjump : op.code.isJump) :
    ∃ d : Nat, op.offset = d := by
  induction code with
  | nil => cases hop
  | cons first rest ih =>
    rcases List.mem_cons.1 hop with rfl | hop
    · obtain ⟨d, hd, -⟩ := h.1.2.2.2.2 hjump
      exact ⟨d, hd⟩
    · exact ih h.2 hop

theorem Op.link_of_isJump {op : Op} (h : op.code.isJump) (places : List Nat) :
    op.link places = op := by
  refine op.link_of_isFinal places ?_
  cases hcode : op.code <;> simp [OpCode.isJump, Op.isFinal, hcode] at h ⊢

/-- Code of an expression that stands at two places. -/
theorem Setting.copied_of_holds {setting : Setting} {places : List Nat} {exit exit' : Option Nat}
    {ip d next : Nat} {e : Expr}
    (h : setting.program.Holds places exit ip (e.code .value next).1)
    (h' : setting.program.Holds places exit' (ip + d) (e.code .value next).1) :
    setting.Copied ip (ip + (e.code .value next).1.length) d := by
  intro place hstart hstop
  obtain ⟨i, rfl⟩ := Nat.exists_eq_add_of_le hstart
  have hi : i < (e.code .value next).1.length := Nat.lt_of_add_lt_add_left hstop
  have hmem := List.getElem_mem hi
  have hlevel : Level false _ (e.code .value next).1 := e.level_code
  have hop := h.getElem? (List.getElem?_eq_getElem hi)
  have hop' := h'.getElem? (List.getElem?_eq_getElem hi)
  rw [Op.settled_of_ne_leave (hlevel.not_leave hmem)] at hop hop'
  rw [Nat.add_right_comm] at hop'
  refine ⟨_, hop, hop', ?_, ?_⟩
  · rw [Op.code_link]
    exact e.returnless_code _ hmem
  · rw [Op.code_link]
    intro hjump
    obtain ⟨k, hk⟩ := hlevel.exists_offset hmem hjump
    rw [Op.link_of_isJump hjump, hk]
    exact Int.natCast_nonneg k

/-! ### Verdicts -/

/-- What an expression comes to: a value, or an interrupt, with the store that is left. -/
abbrev Verdict := EStateM.Result Interrupt Store Value

/-- How the code of an expression ends that comes to a verdict. -/
def Target.ending (target : Target) (m : Machine) (behind : Nat) : Verdict → Ending
  | .ok v s => .outside ⟨target.arrive m behind v, s⟩
  | .error i s => .failed i s

theorem ending_value_injective (m : Machine) (behind : Nat) :
    Function.Injective (Target.value.ending m behind) := by
  intro r r' h
  cases r <;> cases r'
  all_goals
    simp only [Target.ending, Target.arrive, Ending.outside.injEq, State.mk.injEq, Machine.mk.injEq,
      List.cons.injEq, Ending.failed.injEq, reduceCtorEq, true_and, and_true] at h
  · rw [h.1, h.2]
  · rw [h.1, h.2]

/-- Verdicts of code behind code that leaves a value. -/
def Verdict.andThen (R : Verdict → Prop) (R' : Value → Store → Verdict → Prop) (r : Verdict) :
    Prop :=
  ∃ r₁, R r₁ ∧ match r₁ with
    | .ok v s => R' v s r
    | .error i s => r = .error i s

theorem Verdict.andThen_ok (R : Verdict → Prop) :
    Verdict.andThen R (fun v s r => r = .ok v s) = R := by
  funext r
  refine propext ⟨?_, fun h => ⟨r, h, ?_⟩⟩
  · rintro ⟨v | i, h, rfl⟩ <;> exact h
  · cases r <;> rfl

namespace Setting

section

variable (setting : Setting) (call : Position → Nat → Reentry)

/-- Code at a place comes to a verdict, the machine being at it. -/
def Yields (m : Machine) (ip : Nat) (code : Code) (s : Store) (r : Verdict) : Prop :=
  setting.Finishes call false ⟨ip, ip + code.length, m.frames⟩ ⟨{ m with ip := ip }, s⟩
    (Target.value.ending m (ip + code.length) r)

/-- The runs of a piece of code from a state end as some verdicts say, with what a target asks
for. -/
def Settles (c : Piece) (st : State) (target : Target) (m : Machine) (behind : Nat)
    (R : Verdict → Prop) : Prop :=
  ∀ e, setting.Finishes call false c st e ↔ ∃ r, R r ∧ e = target.ending m behind r

end

variable {setting : Setting} {call : Position → Nat → Reentry} {c part : Piece} {st st' : State}
  {target : Target} {m : Machine} {behind ip : Nat} {s : Store} {code : Code}
  {R : Verdict → Prop}

/-- **Verdicts of code that is run part by part.** -/
theorem Settles.of_part {target' : Target} {behind' : Nat} {R' : Value → Store → Verdict → Prop}
    (h : setting.Settles call part st target' m behind' R) (hpart : part.PartOf c)
    (hrest : ∀ v s', R (.ok v s') →
      setting.Settles call c ⟨target'.arrive m behind' v, s'⟩ target m behind (R' v s')) :
    setting.Settles call c st target m behind (Verdict.andThen R R') := by
  intro e
  rw [finishes_iff_of_part hpart]
  constructor
  · rintro ⟨e', he', hresumes⟩
    obtain ⟨r₁, hr₁, rfl⟩ := (h e').1 he'
    cases r₁ with
    | ok v s' =>
      obtain ⟨r, hr, rfl⟩ := (hrest v s' hr₁ e).1 hresumes
      exact ⟨r, ⟨_, hr₁, hr⟩, rfl⟩
    | error i s' => exact ⟨.error i s', ⟨_, hr₁, rfl⟩, hresumes⟩
  · rintro ⟨r, ⟨r₁, hr₁, hr⟩, rfl⟩
    refine ⟨target'.ending m behind' r₁, (h _).2 ⟨r₁, hr₁, rfl⟩, ?_⟩
    cases r₁ with
    | ok v s' => exact (hrest v s' hr₁ _).2 ⟨r, hr, rfl⟩
    | error i s' =>
      rw [show r = .error i s' from hr]
      rfl

/-- A machine that has come out of a piece with what its target asks for. -/
theorem settles_of_not_inside {v : Value} (h : ¬ c.Inside (target.arrive m behind v)) :
    setting.Settles call c ⟨target.arrive m behind v, s⟩ target m behind (· = .ok v s) := by
  intro e
  rw [finishes_iff_of_not_inside h]
  constructor
  · rintro rfl
    exact ⟨_, rfl, rfl⟩
  · rintro ⟨_, rfl, rfl⟩
    rfl

theorem Settles.of_step (h : c.Inside st.machine)
    (hstep : setting.step call false st = .ok () st')
    (hrest : setting.Settles call c st' target m behind R) :
    setting.Settles call c st target m behind R := fun e => by
  rw [finishes_iff_of_step h hstep, hrest e]

/-- The last part of a piece of code. -/
theorem Settles.of_last (h : setting.Settles call part st target m behind R)
    (hpart : part.PartOf c) (hout : ∀ v, ¬ c.Inside (target.arrive m behind v)) :
    setting.Settles call c st target m behind R := by
  rw [← Verdict.andThen_ok R]
  exact h.of_part hpart fun v s' _ => settles_of_not_inside (hout v)

theorem Settles.yields_iff
    (h : setting.Settles call ⟨ip, ip + code.length, m.frames⟩ ⟨{ m with ip := ip }, s⟩ .value m
      (ip + code.length) R) {r : Verdict} :
    setting.Yields call m ip code s r ↔ R r := by
  rw [Yields, h]
  constructor
  · rintro ⟨r', hr', heq⟩
    rwa [ending_value_injective m _ heq]
  · exact fun hr => ⟨r, hr, rfl⟩

/-! ### Expressions -/

section

variable {talk : Talk} {fuel : Nat} {places : List Nat} {exit exit' : Option Nat}
  {next ip' : Nat} {e : Expr}

/-- The code of an expression that is cut out leaves a value. -/
theorem verified_value (h : setting.program.Holds places exit ip (e.code .value next).1) :
    (setting.program.cut ip (ip + (e.code .value next).1.length)).Verified
      (· = m.under [.value] 0) ip (m.under [] 0) := by
  intro n
  refine e.accepts (h.cut (Nat.le_refl _) (Nat.le_refl _)) ?_
  have hsize := Program.size_cut (Nat.le_add_right _ _) (h.le_size e.code_ne_nil)
  have hend (p : Program) : p.Accepts (· = m.under [.value] 0) n p.size (m.under [.value] 0) :=
    Program.accepts_size rfl
  exact (hend _).moved hsize.symm

/-- **The code of an expression comes to verdicts only.** -/
theorem settles_value (honest : Honest setting.natives talk) (hp : setting.program.Verifying)
    (h : setting.program.Holds places exit ip (e.code .value next).1)
    (hsteady : setting.Steady (setting.callFrom fuel) false
      ⟨ip, ip + (e.code .value next).1.length, m.frames⟩ ⟨{ m with ip := ip }, s⟩) :
    setting.Settles (setting.callFrom fuel)
      ⟨ip, ip + (e.code .value next).1.length, m.frames⟩ ⟨{ m with ip := ip }, s⟩ .value m
      (ip + (e.code .value next).1.length)
      (setting.Yields (setting.callFrom fuel) m ip (e.code .value next).1 s) := by
  intro ending
  refine ⟨fun hrun => ?_, fun ⟨r, hr, heq⟩ => heq ▸ hr⟩
  cases ending with
  | failed i s' => exact ⟨.error i s', hrun, rfl⟩
  | outside st' =>
    have hsize := h.le_size e.code_ne_nil
    rcases cases_of_finishes honest hp (Nat.le_add_right _ _) hsize (verified_value h) hsteady hrun
      with ⟨hip, σ, hover, rfl⟩ | ⟨st₁, op, hframes, hin, hop, hret, -⟩
    · obtain ⟨vs, opened, hfits, hopened, hst'⟩ := hover.eq
      obtain ⟨v, rfl⟩ := List.length_eq_one_iff.1 (fits_singleton.1 hfits)
      obtain rfl := List.length_eq_zero_iff.1 hopened
      have heq : st' =
          ⟨Target.value.arrive m (ip + (e.code .value next).1.length) v, st'.store⟩ := by
        rw [Target.arrive, ← hip]
        exact congrArg (State.mk · st'.store) hst'
      rw [heq] at hrun ⊢
      exact ⟨.ok v st'.store, hrun, rfl⟩
    · obtain ⟨hstart, hstop⟩ := hin.2 hframes
      obtain ⟨op', hop', -, hne, -⟩ := copied_of_holds (d := 0) h h st₁.machine.ip hstart hstop
      rw [hop] at hop'
      cases hop'
      exact absurd hret hne

/-- An ending further on that a verdict says. -/
theorem shifted_eq_ending_value {d : Nat} {e : Ending} {r : Verdict} :
    e.shifted m.frames.length d = Target.value.ending m (behind + d) r ↔
      e = Target.value.ending m behind r := by
  cases e with
  | failed i s' => cases r <;> simp [Ending.shifted, Target.ending]
  | outside st =>
    cases r with
    | error i s' => simp [Ending.shifted, Target.ending]
    | ok v s' =>
      have hmachine := Machine.shifted_eq_iff (m := st.machine) (d := d)
        (show (Target.value.arrive m behind v).frames.length = m.frames.length from rfl)
      obtain ⟨m', s₁⟩ := st
      simp only [Ending.shifted, Target.ending, Ending.outside.injEq, State.shifted, State.mk.injEq]
      exact and_congr_left fun _ => hmachine

/-- A run of code that leaves a value, further on. -/
theorem yields_shifted {d : Nat} (h : setting.Copied ip (ip + code.length) d) {r : Verdict} :
    setting.Yields call m (ip + d) code s r ↔ setting.Yields call m ip code s r := by
  have hstart : (⟨{ m with ip := ip + d }, s⟩ : State) =
      State.shifted m.frames.length d ⟨{ m with ip := ip }, s⟩ := by
    rw [State.shifted, Machine.shifted_of_eq (m := { m with ip := ip }) rfl]
  rw [Yields, hstart, Nat.add_right_comm,
    finishes_shifted (c := ⟨ip, ip + code.length, m.frames⟩) h]
  constructor
  · rintro ⟨e, he, heq⟩
    rw [Yields, ← shifted_eq_ending_value.1 heq.symm]
    exact he
  · exact fun h => ⟨_, h, (shifted_eq_ending_value.2 rfl).symm⟩

/-- **Code of an expression comes to the same verdicts at two places.** -/
theorem yields_iff_of_holds (h : setting.program.Holds places exit ip (e.code .value next).1)
    (h' : setting.program.Holds places exit' ip' (e.code .value next).1) {r : Verdict} :
    setting.Yields call m ip (e.code .value next).1 s r ↔
      setting.Yields call m ip' (e.code .value next).1 s r := by
  rcases Nat.le_total ip ip' with hle | hle
  · obtain ⟨d, rfl⟩ := Nat.exists_eq_add_of_le hle
    exact (yields_shifted (copied_of_holds h h')).symm
  · obtain ⟨d, rfl⟩ := Nat.exists_eq_add_of_le hle
    exact yields_shifted (copied_of_holds h' h)

end

end Setting

end ScriptEngine
