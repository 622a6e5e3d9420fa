import ScriptEngine.Proofs.Pieces.Relocation

/-!
# Courses of evaluations

What a piece of code may come to, from a store: results or an interrupt, each with the store
that is left.  A course may have none of these, if it goes on forever, so it is a relation and
not a function.  Courses follow one another as the pieces of code do that they are told of.

## Main definitions

* `Course` — courses, a monad.
* `Course.eval` — the course of an evaluation that always ends.
* `Constants.Resolve`, `Setting.Regular` — the runs that are considered: those of verified
  programs with room on their stacks, in which some names stand for literals.
* `Ending.arriving`, `Setting.Runs` — the runs of a piece of code end as a course says.

## Main results

* `Setting.Runs.bind` — the parts of a piece run one after another.
* `Setting.Runs.step`, `Setting.Runs.fail` — an instruction in front.
-/

namespace ScriptEngine

/-! ### Courses -/

/-- What an evaluation may come to, from a store. -/
def Course (α : Type) : Type := Store → EStateM.Result Interrupt Store α → Prop

namespace Course

variable {α β : Type}

/-- A value, the store being left as it is. -/
protected def pure (a : α) : Course α := fun s r => r = .ok a s

/-- One course after another, unless the first one is interrupted. -/
protected def bind (x : Course α) (f : α → Course β) : Course β := fun s r =>
  ∃ r₁, x s r₁ ∧ match r₁ with
    | .ok a s' => f a s' r
    | .error i s' => r = .error i s'

instance : Monad Course where
  pure := Course.pure
  bind := Course.bind

/-- The course of an evaluation.  One that is undecided says nothing. -/
def eval (x : Eval α) : Course α := fun s r =>
  match x s with
  | .ok a s' => r = .ok a s'
  | .error (.interrupted i) s' => r = .error i s'
  | .error .undecided _ => False

variable {x : Course α} {f : α → Course β} {s s' : Store} {a : α} {i : Interrupt}

theorem pure_iff {r : EStateM.Result Interrupt Store α} :
    (pure a : Course α) s r ↔ r = .ok a s := Iff.rfl

theorem bind_iff {r : EStateM.Result Interrupt Store β} :
    (x >>= f) s r ↔ ∃ r₁, x s r₁ ∧ match r₁ with
      | .ok a s' => f a s' r
      | .error i s' => r = .error i s' := Iff.rfl

/-- A course that comes to a result has two parts that do. -/
theorem bind_ok_iff {b : β} :
    (x >>= f) s (.ok b s') ↔ ∃ a s₁, x s (.ok a s₁) ∧ f a s₁ (.ok b s') := by
  rw [bind_iff]
  constructor
  · rintro ⟨a | i, ha, hb⟩
    · exact ⟨_, _, ha, hb⟩
    · cases hb
  · rintro ⟨a, s₁, ha, hb⟩
    exact ⟨.ok a s₁, ha, hb⟩

@[simp] theorem pure_bind (a : α) (f : α → Course β) : (pure a : Course α) >>= f = f a := by
  funext s r
  refine propext ⟨?_, fun h => ⟨.ok a s, rfl, h⟩⟩
  rintro ⟨_, rfl, h⟩
  exact h

@[simp] theorem bind_pure (x : Course α) : (x >>= fun a => pure a) = x := by
  funext s r
  refine propext ⟨?_, fun h => ⟨r, h, ?_⟩⟩
  · rintro ⟨a | i, h, rfl⟩ <;> exact h
  · cases r <;> rfl

theorem bind_assoc {γ : Type} (x : Course α) (f : α → Course β) (g : β → Course γ) :
    (x >>= f) >>= g = x >>= fun a => f a >>= g := by
  funext s r
  refine propext ⟨?_, ?_⟩
  · rintro ⟨r₂, ⟨a | i, hx, hf⟩, hg⟩
    · exact ⟨_, hx, r₂, hf, hg⟩
    · obtain rfl : r₂ = _ := hf
      exact ⟨_, hx, hg⟩
  · rintro ⟨a | i, hx, hg⟩
    · obtain ⟨r₂, hf, hg⟩ := hg
      exact ⟨r₂, ⟨_, hx, hf⟩, hg⟩
    · exact ⟨.error i _, ⟨_, hx, rfl⟩, hg⟩

/-- Courses that come to the same go on alike. -/
theorem bind_congr {g : α → Course β} (h : ∀ a s', x s (.ok a s') → f a s' = g a s') :
    (x >>= f) s = (x >>= g) s := by
  funext r
  refine propext (exists_congr fun r₁ => and_congr_right fun hr => ?_)
  cases r₁ with
  | ok a s' => exact iff_of_eq (congrFun (h a s' hr) r)
  | error i s' => exact Iff.rfl

/-- A course that is interrupted is not gone on with. -/
theorem bind_of_error (h : x s = (· = .error i s')) :
    (x >>= f) s = (· = .error i s') := by
  funext r
  rw [eq_iff_iff, bind_iff, h]
  constructor
  · rintro ⟨_, rfl, hr⟩
    exact hr
  · exact fun hr => ⟨_, rfl, hr⟩

theorem bind_of_ok (h : x s = (· = .ok a s')) : (x >>= f) s = f a s' := by
  funext r
  rw [eq_iff_iff, bind_iff, h]
  constructor
  · rintro ⟨_, rfl, hr⟩
    exact hr
  · exact fun hr => ⟨_, rfl, hr⟩

theorem eval_of_ok {x : Eval α} (h : x s = .ok a s') : eval x s = (· = .ok a s') := by
  funext r
  simp only [eval, h]

theorem eval_of_error {x : Eval α} (h : x s = .error (.interrupted i) s') :
    eval x s = (· = .error i s') := by
  funext r
  simp only [eval, h]

end Course

/-! ### Runs that are considered -/

/-- Names stand for literals in a state. -/
def Constants.Resolve (constants : Constants) (st : State) : Prop :=
  ∀ name value, constants.find? name = some value →
    Exec.lookup st.machine st.store name = value.toValue

/-- An ending where a machine arrives with a result, or fails. -/
def Ending.arriving {α : Type} (arrive : α → Machine) :
    EStateM.Result Interrupt Store α → Ending
  | .ok a s => .outside ⟨arrive a, s⟩
  | .error i s => .failed i s

namespace Setting

section

variable (setting : Setting) (fuel : Nat) (constants : Constants)

/-- A run of a piece of code is steady, and names stand for literals wherever it is in the call
that the piece runs in. -/
structure Regular (c : Piece) (st : State) : Prop where
  steady : setting.Steady (setting.callFrom fuel) false c st
  resolve : ∀ st', setting.Traverses (setting.callFrom fuel) false c st st' →
    st'.machine.frames = c.frames → constants.Resolve st'

/-- The regular runs of a piece of code end as a course says, a machine arriving with its
result. -/
def Runs {α : Type} (c : Piece) (st : State) (x : Course α) (arrive : α → Machine) : Prop :=
  setting.Regular fuel constants c st → ∀ e,
    setting.Finishes (setting.callFrom fuel) false c st e ↔
      ∃ r, x st.store r ∧ e = Ending.arriving arrive r

end

variable {α β : Type} {setting : Setting} {talk : Talk} {fuel : Nat} {constants : Constants}
  {c part : Piece} {st st' : State} {x : Course α} {arrive : α → Machine}

theorem Regular.of_part (h : setting.Regular fuel constants c st) (hpart : part.PartOf c) :
    setting.Regular fuel constants part st where
  steady := h.steady.of_part hpart
  resolve st' hrun hframes := h.resolve st' (hrun.of_part hpart) (hframes.trans hpart.frames)

/-- What is behind a part of a regular run. -/
theorem Regular.behind (honest : Honest setting.natives talk) (hp : setting.program.Verifying)
    (h : setting.Regular fuel constants c st)
    (hrun : setting.Traverses (setting.callFrom fuel) false c st st') :
    setting.Regular fuel constants c st' where
  steady := h.steady.behind honest hp hrun
  resolve st'' hrun' := h.resolve st'' (hrun.trans hrun')

/-- Without constants a run is regular if it is steady. -/
theorem Steady.regular (h : setting.Steady (setting.callFrom fuel) false c st) :
    setting.Regular fuel [] c st := ⟨h, fun _ _ _ => nofun⟩

/-- Where a run has arrived with a result, it has come by a run of its piece. -/
theorem Runs.traverses (h : setting.Runs fuel constants c st x arrive)
    (hregular : setting.Regular fuel constants c st) {a : α} {s' : Store}
    (hx : x st.store (.ok a s')) :
    setting.Traverses (setting.callFrom fuel) false c st ⟨arrive a, s'⟩ :=
  Finishes.traverses ((h hregular _).2 ⟨_, hx, rfl⟩)

/-! ### Parts of pieces -/

/-- A part of a piece comes first, with its result. -/
theorem Runs.finishes_iff_of_part {e : Ending} (hx : setting.Runs fuel constants part st x arrive)
    (hpart : part.PartOf c) (hregular : setting.Regular fuel constants c st) :
    setting.Finishes (setting.callFrom fuel) false c st e ↔
      ∃ r, x st.store r ∧
        setting.Resumes (setting.callFrom fuel) false c (Ending.arriving arrive r) e := by
  rw [Setting.finishes_iff_of_part hpart]
  constructor
  · rintro ⟨e', he', hresumes⟩
    obtain ⟨r, hr, rfl⟩ := (hx (hregular.of_part hpart) e').1 he'
    exact ⟨r, hr, hresumes⟩
  · rintro ⟨r, hr, hresumes⟩
    exact ⟨_, (hx (hregular.of_part hpart) _).2 ⟨r, hr, rfl⟩, hresumes⟩

theorem Runs.congr {y : Course α} (h : setting.Runs fuel constants c st x arrive)
    (heq : y st.store = x st.store) : setting.Runs fuel constants c st y arrive := by
  intro hregular e
  rw [heq]
  exact h hregular e

/-- A machine that has arrived outside of a piece. -/
theorem Runs.pure {a : α} (hm : st.machine = arrive a) (hout : ¬ c.Inside st.machine) :
    setting.Runs fuel constants c st (Pure.pure a) arrive := by
  intro _ e
  rw [finishes_iff_of_not_inside hout]
  obtain ⟨m, s⟩ := st
  obtain rfl : m = arrive a := hm
  constructor
  · rintro rfl
    exact ⟨_, rfl, rfl⟩
  · rintro ⟨_, rfl, rfl⟩
    rfl

section

variable (honest : Honest setting.natives talk) (hp : setting.program.Verifying)
include honest hp

/-- **A part of a piece runs first**, and then what is behind it. -/
theorem Runs.bind {f : α → Course β} {arrive' : β → Machine}
    (hx : setting.Runs fuel constants part st x arrive) (hpart : part.PartOf c)
    (hf : ∀ a s', x st.store (.ok a s') →
      setting.Runs fuel constants c ⟨arrive a, s'⟩ (f a) arrive') :
    setting.Runs fuel constants c st (x >>= f) arrive' := by
  intro hregular e
  have hbehind {a : α} {s' : Store} (hr : x st.store (.ok a s')) :
      setting.Regular fuel constants c ⟨arrive a, s'⟩ :=
    hregular.behind honest hp
      ((hx.traverses (hregular.of_part hpart) hr).of_part hpart)
  rw [hx.finishes_iff_of_part hpart hregular]
  constructor
  · rintro ⟨r₁, hr₁, hresumes⟩
    cases r₁ with
    | ok a s' =>
      obtain ⟨r, hr, rfl⟩ := (hf a s' hr₁ (hbehind hr₁) e).1 hresumes
      exact ⟨r, ⟨_, hr₁, hr⟩, rfl⟩
    | error i s' => exact ⟨.error i s', ⟨_, hr₁, rfl⟩, hresumes⟩
  · rintro ⟨r, ⟨r₁, hr₁, hr⟩, rfl⟩
    refine ⟨r₁, hr₁, ?_⟩
    cases r₁ with
    | ok a s' => exact (hf a s' hr₁ (hbehind hr₁) _).2 ⟨r, hr, rfl⟩
    | error i s' =>
      rw [show r = .error i s' from hr]
      rfl

/-- The last part of a piece. -/
theorem Runs.last (hx : setting.Runs fuel constants part st x arrive) (hpart : part.PartOf c)
    (hout : ∀ a, ¬ c.Inside (arrive a)) : setting.Runs fuel constants c st x arrive := by
  rw [← Course.bind_pure x]
  exact hx.bind honest hp hpart fun a s' _ => .pure rfl (hout a)

/-- An instruction comes first, which may change the store. -/
theorem Runs.step {y : Course α} (hin : c.Inside st.machine)
    (hstep : setting.step (setting.callFrom fuel) false st = .ok () st')
    (hrest : setting.Runs fuel constants c st' y arrive) (heq : x st.store = y st'.store) :
    setting.Runs fuel constants c st x arrive := by
  intro hregular e
  have hrun : setting.Traverses (setting.callFrom fuel) false c st st' := .single ⟨hin, hstep⟩
  rw [finishes_iff_of_step hin hstep, hrest (hregular.behind honest hp hrun) e, heq]

/-- Instructions come first that do not change the store. -/
theorem Runs.of_traverses
    (h : setting.Traverses (setting.callFrom fuel) false c st st')
    (hrest : setting.Runs fuel constants c st' x arrive) (heq : st.store = st'.store) :
    setting.Runs fuel constants c st x arrive := by
  intro hregular e
  rw [heq, ← hrest (hregular.behind honest hp h) e]
  exact h.finishes_iff

end

/-- The instruction that a machine is at fails. -/
theorem Runs.fail {i : Interrupt} {m' : Machine} {s' : Store} (hin : c.Inside st.machine)
    (hstep : setting.step (setting.callFrom fuel) false st = .error i ⟨m', s'⟩)
    (heq : x st.store = (· = .error i s')) :
    setting.Runs fuel constants c st x arrive := by
  intro _ e
  rw [heq]
  constructor
  · rintro (hout | ⟨-, hfails⟩ | ⟨-, hnext, -⟩)
    · exact absurd hin hout
    · rw [hstep] at hfails
      cases hfails
      exact ⟨_, rfl, rfl⟩
    · rw [hstep] at hnext
      cases hnext
  · rintro ⟨_, rfl, rfl⟩
    exact .failed hin hstep

end Setting

end ScriptEngine
