import ScriptEngine.Proofs.Compilation.Execution

/-!
# Runs of pieces of code

A machine that has come to a piece of code executes it until it leaves the piece or fails.  The
calls that it makes on the way belong to the run, wherever their code stands; only in the call
that the piece itself runs in does the place of the machine tell whether it is still inside.

## Main definitions

* `Piece`, `Piece.Inside` — a piece of code in a call, and the machines that execute it.
* `Setting.Traverses` — the states that a run of a piece gets to.
* `Ending`, `Setting.Finishes` — how runs of pieces end.

## Main results

* `Setting.finishes_iff_of_part` — a run of a piece is a run of a part of it, and what comes
  behind that.
-/

namespace ScriptEngine

/-- A piece of code that runs in the innermost of some calls. -/
structure Piece where
  /-- The first instruction. -/
  start : Nat
  /-- The instruction behind the last one. -/
  stop : Nat
  /-- The calls that are open. -/
  frames : List Frame

namespace Piece

/-- A machine executes a piece of code, or a call that was made in it. -/
def Inside (c : Piece) (m : Machine) : Prop :=
  c.frames <:+ m.frames ∧ (m.frames = c.frames → c.start ≤ m.ip ∧ m.ip < c.stop)

/-- A piece of code is part of another one. -/
structure PartOf (part c : Piece) : Prop where
  start : c.start ≤ part.start
  stop : part.stop ≤ c.stop
  frames : part.frames = c.frames

variable {part c : Piece} {m : Machine}

theorem partOf_of_le {start stop start' stop' : Nat} {frames : List Frame} (hstart : start ≤ start')
    (hstop : stop' ≤ stop) : PartOf ⟨start', stop', frames⟩ ⟨start, stop, frames⟩ :=
  ⟨hstart, hstop, rfl⟩

theorem Inside.of_part (hpart : part.PartOf c) (h : part.Inside m) : c.Inside m := by
  obtain ⟨hframes, hip⟩ := h
  rw [hpart.frames] at hframes hip
  refine ⟨hframes, fun heq => ?_⟩
  obtain ⟨hstart, hstop⟩ := hip heq
  exact ⟨Nat.le_trans hpart.start hstart, Nat.lt_of_lt_of_le hstop hpart.stop⟩

/-- A machine in the call of a piece. -/
theorem inside_iff (hframes : m.frames = c.frames) :
    c.Inside m ↔ c.start ≤ m.ip ∧ m.ip < c.stop := by
  constructor
  · exact fun h => h.2 hframes
  · exact fun h => ⟨hframes ▸ List.suffix_refl _, fun _ => h⟩

end Piece

/-- How a run of a piece of code ends: the machine is outside of it, or has failed. -/
inductive Ending where
  | outside (st : State)
  | failed (i : Interrupt) (s : Store)

namespace Setting

variable (setting : Setting) (call : Position → Nat → Reentry) (trace : Bool)

/-- A machine gets from one state to another, every step being made inside of a piece of code. -/
def Traverses (c : Piece) : State → State → Prop :=
  Relation.ReflTransGen fun st st' =>
    c.Inside st.machine ∧ setting.step call trace st = .ok () st'

/-- A run of a piece of code comes to an end. -/
inductive Finishes (c : Piece) : State → Ending → Prop
  | outside {st : State} (h : ¬ c.Inside st.machine) : Finishes c st (.outside st)
  | failed {st : State} {i : Interrupt} {m : Machine} {s : Store} (h : c.Inside st.machine)
      (hstep : setting.step call trace st = .error i ⟨m, s⟩) : Finishes c st (.failed i s)
  | next {st st' : State} {e : Ending} (h : c.Inside st.machine)
      (hstep : setting.step call trace st = .ok () st') (hrest : Finishes c st' e) :
      Finishes c st e

/-- What follows an ending of a part of a piece: the run of the piece goes on, unless it has
failed. -/
def Resumes (c : Piece) : Ending → Ending → Prop
  | .outside st, e => setting.Finishes call trace c st e
  | .failed i s, e => e = .failed i s

variable {setting call trace} {c part : Piece} {st st' : State} {e : Ending}

/-! ### States on the way -/

theorem Traverses.of_part (h : setting.Traverses call trace part st st') (hpart : part.PartOf c) :
    setting.Traverses call trace c st st' :=
  Relation.ReflTransGen.mono (fun _ _ h => ⟨h.1.of_part hpart, h.2⟩) _ _ h

/-- The states on the way from one whose next one is known. -/
theorem Traverses.cases_step {st₁ : State} (h : setting.Traverses call trace c st st')
    (hstep : setting.step call trace st = .ok () st₁) :
    st' = st ∨ setting.Traverses call trace c st₁ st' := by
  rcases Relation.ReflTransGen.cases_head h with heq | ⟨st₂, ⟨-, hstep'⟩, hrest⟩
  · exact .inl heq.symm
  · rw [hstep] at hstep'
    cases hstep'
    exact .inr hrest

/-- A run does not go on outside of its piece. -/
theorem Traverses.eq_of_not_inside (h : setting.Traverses call trace c st st')
    (hout : ¬ c.Inside st.machine) : st' = st := by
  rcases Relation.ReflTransGen.cases_head h with heq | ⟨_, ⟨hin, -⟩, -⟩
  · exact heq.symm
  · exact absurd hin hout

/-- Where the machine leaves a piece, it has come by a run of the piece. -/
theorem Finishes.traverses (h : setting.Finishes call trace c st (.outside st')) :
    setting.Traverses call trace c st st' := by
  generalize he : Ending.outside st' = e at h
  induction h with
  | outside =>
    cases he
    exact .refl
  | failed => cases he
  | next h hstep _ ih => exact .head ⟨h, hstep⟩ (ih he)

theorem Finishes.not_inside (h : setting.Finishes call trace c st (.outside st')) :
    ¬ c.Inside st'.machine := by
  generalize he : Ending.outside st' = e at h
  induction h with
  | outside h =>
    cases he
    exact h
  | failed => cases he
  | next _ _ _ ih => exact ih he

/-! ### Endings -/

theorem finishes_iff_of_not_inside (h : ¬ c.Inside st.machine) :
    setting.Finishes call trace c st e ↔ e = .outside st := by
  constructor
  · rintro (_ | ⟨hinside, -⟩ | ⟨hinside, -, -⟩)
    · rfl
    · exact absurd hinside h
    · exact absurd hinside h
  · rintro rfl
    exact .outside h

/-- A step inside of a piece. -/
theorem finishes_iff_of_step (h : c.Inside st.machine)
    (hstep : setting.step call trace st = .ok () st') :
    setting.Finishes call trace c st e ↔ setting.Finishes call trace c st' e := by
  constructor
  · rintro (hout | ⟨-, hfails⟩ | ⟨-, hnext, hrest⟩)
    · exact absurd h hout
    · rw [hstep] at hfails
      cases hfails
    · rw [hstep] at hnext
      cases hnext
      exact hrest
  · exact .next h hstep

/-- Steps inside of a piece. -/
theorem Traverses.finishes_iff (h : setting.Traverses call trace c st st') :
    setting.Finishes call trace c st e ↔ setting.Finishes call trace c st' e := by
  induction h using Relation.ReflTransGen.head_induction_on with
  | refl => exact Iff.rfl
  | head hstep _ ih => exact (finishes_iff_of_step hstep.1 hstep.2).trans ih

/-- **Runs that end are told of from their ends**: what holds of a run holds if it holds of all that
is behind its first step. -/
theorem Finishes.rec_traverses {P : State → Prop} (h : setting.Finishes call trace c st e)
    (ih : ∀ st, setting.Finishes call trace c st e →
      (∀ st₁ st', c.Inside st.machine → setting.step call trace st = .ok () st₁ →
        setting.Traverses call trace c st₁ st' → P st') → P st) : P st := by
  -- The induction is on the run, and tells of all states that it gets to.
  suffices hall : ∀ st', setting.Traverses call trace c st st' → P st' from hall st .refl
  induction h with
  | outside hout =>
    intro st' hrun
    obtain rfl := hrun.eq_of_not_inside hout
    exact ih _ (.outside hout) fun _ _ hin => absurd hin hout
  | @failed st i m s hin hstep =>
    intro st' hrun
    have hnext {st₁ : State} (hstep' : setting.step call trace st = .ok () st₁) : False := by
      rw [hstep] at hstep'
      cases hstep'
    rcases Relation.ReflTransGen.cases_head hrun with rfl | ⟨st₁, ⟨-, hstep'⟩, -⟩
    · exact ih _ (.failed hin hstep) fun _ _ _ hstep' => (hnext hstep').elim
    · exact (hnext hstep').elim
  | next hin hstep hrest ihrest =>
    intro st' hrun
    rcases hrun.cases_step hstep with rfl | hrun
    · refine ih _ (.next hin hstep hrest) fun st₁ st' _ hstep' hrun' => ihrest ih st' ?_
      rw [hstep] at hstep'
      cases hstep'
      exact hrun'
    · exact ihrest ih st' hrun

/-- Runs of pieces that the same machines execute. -/
theorem Finishes.of_inside {c' : Piece} (hinside : ∀ m, c.Inside m ↔ c'.Inside m)
    (h : setting.Finishes call trace c st e) : setting.Finishes call trace c' st e := by
  induction h with
  | outside hout => exact .outside (mt (hinside _).2 hout)
  | failed hin hstep => exact .failed ((hinside _).1 hin) hstep
  | next hin hstep _ ih => exact .next ((hinside _).1 hin) hstep ih

theorem Traverses.of_inside {c' : Piece} (hinside : ∀ m, c.Inside m ↔ c'.Inside m)
    (h : setting.Traverses call trace c st st') : setting.Traverses call trace c' st st' :=
  Relation.ReflTransGen.mono (fun _ _ h => ⟨(hinside _).1 h.1, h.2⟩) _ _ h

/-- **A run of a piece of code is a run of a part of it**, and what comes behind that. -/
theorem finishes_iff_of_part (hpart : part.PartOf c) :
    setting.Finishes call trace c st e ↔
      ∃ e', setting.Finishes call trace part st e' ∧ setting.Resumes call trace c e' e := by
  constructor
  · intro h
    induction h with
    | @outside st h =>
      exact ⟨.outside st, .outside fun hin => h (hin.of_part hpart), .outside h⟩
    | @failed st i m s h hstep =>
      by_cases hin : part.Inside st.machine
      · exact ⟨.failed i s, .failed hin hstep, rfl⟩
      · exact ⟨.outside st, .outside hin, .failed h hstep⟩
    | @next st st' e h hstep hrest ih =>
      by_cases hin : part.Inside st.machine
      · obtain ⟨e', he', hresumes⟩ := ih
        exact ⟨e', .next hin hstep he', hresumes⟩
      · exact ⟨.outside st, .outside hin, .next h hstep hrest⟩
  · rintro ⟨e', he', hresumes⟩
    induction he' with
    | outside => exact hresumes
    | failed h hstep =>
      obtain rfl := hresumes
      exact .failed (h.of_part hpart) hstep
    | next h hstep _ ih => exact .next (h.of_part hpart) hstep (ih hresumes)

end Setting

end ScriptEngine
