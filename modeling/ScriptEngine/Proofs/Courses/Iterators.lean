import ScriptEngine.Proofs.Courses.Lists
import ScriptEngine.Proofs.Pieces.Rounds

/-!
# Loops over iterators

A loop over an iterator takes the iterator, its state and the first control value from its list of
expressions.  It calls the iterator with the state and the control value again and again; the first
result is the next control value, and a pass of the loop has the results in its variables.  The loop
ends with the first call that has no result, or `nil` as its first one.

## Main definitions

* `Setting.asked`, `Setting.Passes` — what the iterator answers, and how a pass ends.
* `Setting.Rounds` — how a loop ends that has a control value.
* `Setting.Iterates` — how a loop ends that has the values of its list.
* `Setting.FollowsIterator` — a loop follows the protocol of iterators.

## Main results

* `Setting.rounds_of_finishes`, `Setting.finishes_of_rounds` — from the beginning of a round on, a
  loop ends as its rounds say.
* `Setting.finishes_iff_iterates` — so does a whole loop, its list of expressions included.
-/

namespace ScriptEngine

namespace Setting

section

variable (setting : Setting) (fuel : Nat) (l : LoopSite) (position : Position)
  (names : List Identifier) (body : List Stat) (m : Machine) (iterator state : Value)

/-- What the iterator of a loop answers if it is called with the state and a control value. -/
def asked (control : Value) : Course (List Value) :=
  setting.answers fuel position { m.waiting with marks := (m.stack.length + 3) :: m.marks }
    ⟨iterator, [state, control], control :: state :: iterator :: m.stack, none⟩

/-- How a pass of a loop ends: a run of its body in a new scope, in which the variables have the
results of the iterator, with the instruction that closes the scope. -/
def Passes (results : List Value) (s : Store) (e : Ending) : Prop :=
  setting.Finishes (setting.callFrom fuel) false ⟨l.bodyStart, l.bodyStop body + 1, m.frames⟩
    ⟨{ m with
      ip := l.bodyStart
      stack := results.headD .nil :: state :: iterator :: m.stack
      scopes := s.newScope.1 :: m.scopes },
      s.opened (passBindings names (adjust names.length results))⟩ e

/-- How a loop over an iterator ends that a machine has come to, told from the control value.  The
iterator is called with it, and a value that is not `nil` is the control value of the next round. -/
inductive Rounds : Value → Store → Ending → Prop
  /-- The iterator fails. -/
  | failed {control : Value} {s s' : Store} {i : Interrupt}
      (hasked : setting.asked fuel position m iterator state control s (.error i s')) :
      Rounds control s (.failed i s')
  /-- The iterator is at its end: the machine is behind the loop as it was. -/
  | done {control : Value} {results : List Value} {s s' : Store}
      (hasked : setting.asked fuel position m iterator state control s (.ok results s'))
      (hdone : (results.headD .nil).isNil = true) :
      Rounds control s (.outside ⟨{ m with ip := l.stop }, s'⟩)
  /-- A pass comes to its end, and the next round follows. -/
  | next {control : Value} {results : List Value} {s s₁ s₂ : Store} {e : Ending}
      (hasked : setting.asked fuel position m iterator state control s (.ok results s₁))
      (hvalue : ¬ (results.headD .nil).isNil = true)
      (hpass : setting.Passes fuel l names body m iterator state results s₁ (.outside
        ⟨{ m with
          ip := l.bodyStop body + 1
          stack := results.headD .nil :: state :: iterator :: m.stack }, s₂⟩))
      (hrest : Rounds (results.headD .nil) s₂ e) : Rounds control s e
  /-- A pass fails. -/
  | interrupted {control : Value} {results : List Value} {s s₁ s₂ : Store} {i : Interrupt}
      (hasked : setting.asked fuel position m iterator state control s (.ok results s₁))
      (hvalue : ¬ (results.headD .nil).isNil = true)
      (hpass : setting.Passes fuel l names body m iterator state results s₁ (.failed i s₂)) :
      Rounds control s (.failed i s₂)
  /-- A pass leaves the loop: the machine is behind the loop as it was. -/
  | left {control : Value} {results : List Value} {s s₁ s₂ : Store}
      (hasked : setting.asked fuel position m iterator state control s (.ok results s₁))
      (hvalue : ¬ (results.headD .nil).isNil = true)
      (hpass : setting.Passes fuel l names body m iterator state results s₁ (.outside
        ⟨{ m with
          ip := l.exit
          stack := results.headD .nil :: state :: iterator :: m.stack }, s₂⟩)) :
      Rounds control s (.outside ⟨{ m with ip := l.stop }, s₂⟩)
  /-- A pass returns from the function that the loop is in. -/
  | returned {control : Value} {results : List Value} {s s₁ : Store} {st : State}
      (hasked : setting.asked fuel position m iterator state control s (.ok results s₁))
      (hvalue : ¬ (results.headD .nil).isNil = true)
      (hpass : setting.Passes fuel l names body m iterator state results s₁ (.outside st))
      (hout : ¬ Piece.Inside ⟨l.ip, l.stop, m.frames⟩ st.machine) :
      Rounds control s (.outside st)

/-- How a loop over an iterator ends that has evaluated its list of expressions: the iterator, its
state and the first control value are the first three values of the list, or `nil`. -/
def Iterates (e : Ending) : EStateM.Result Interrupt Store (List Value) → Prop
  | .ok vs s => setting.Rounds fuel l position names body m (vs.getD 0 .nil) (vs.getD 1 .nil)
      (vs.getD 2 .nil) s e
  | .error i s => e = .failed i s

end

variable {setting : Setting} {talk : Talk} {fuel : Nat} {places : List Nat} {l : LoopSite}
  {position : Position} {names : List Identifier} {es : List Expr} {body : List Stat} {x : Nat}
  {m : Machine} {s : Store} {iterator state control : Value} {results : List Value}

/-! ### Rounds -/

section

variable (honest : Honest setting.natives talk) (hp : setting.program.Verifying)
  (hcode : l.RoundsAt setting.program places position names body x)
include honest hp hcode

/-- **The iterator is called with the state and the control value.** -/
theorem runs_asked (control : Value) (s : Store) :
    setting.Runs fuel [] ⟨x + 1, x + 2, m.frames⟩
      ⟨{ m with
        ip := x + 1
        stack := control :: state :: iterator :: m.stack
        marks := (m.stack.length + 3) :: m.marks }, s⟩
      (setting.asked fuel position m iterator state control)
      fun results => { m with
        ip := x + 2
        stack := results.reverse ++ control :: state :: iterator :: m.stack
        marks := (m.stack.length + 3) :: m.marks } :=
  runs_invocation honest hp (m := { m with
    ip := x + 1
    stack := control :: state :: iterator :: m.stack
    marks := (m.stack.length + 3) :: m.marks }) (hcode.round.left.tail.head rfl) rfl

theorem finishes_iff_asked {e : Ending}
    (hsteady : setting.Steady (setting.callFrom fuel) false ⟨l.ip, l.stop, m.frames⟩
      ⟨{ m with ip := x, stack := control :: state :: iterator :: m.stack }, s⟩) :
    setting.Finishes (setting.callFrom fuel) false ⟨l.ip, l.stop, m.frames⟩
        ⟨{ m with ip := x, stack := control :: state :: iterator :: m.stack }, s⟩ e ↔
      ∃ r, setting.asked fuel position m iterator state control s r ∧
        setting.Resumes (setting.callFrom fuel) false ⟨l.ip, l.stop, m.frames⟩
          (Ending.arriving (fun results => { m with
            ip := x + 2
            stack := results.reverse ++ control :: state :: iterator :: m.stack
            marks := (m.stack.length + 3) :: m.marks }) r) e := by
  obtain ⟨hin, hstep⟩ := step_round hcode control s
  have hregular := (hsteady.behind honest hp (.single ⟨hin, hstep⟩)).regular
  rw [finishes_iff_of_step hin hstep]
  exact (runs_asked honest hp hcode control s).finishes_iff_of_part hcode.partOf_call hregular

/-- Once the iterator has answered with a value, a pass is begun, in which the variables have what
it has answered. -/
theorem traverses_asked (hnames : (names.map Identifier.name).Nodup) (hne : names ≠ []) {s₁ : Store}
    (hsteady : setting.Steady (setting.callFrom fuel) false ⟨l.ip, l.stop, m.frames⟩
      ⟨{ m with ip := x, stack := control :: state :: iterator :: m.stack }, s⟩)
    (hasked : setting.asked fuel position m iterator state control s (.ok results s₁))
    (hvalue : ¬ (results.headD .nil).isNil = true) :
    setting.Traverses (setting.callFrom fuel) false ⟨l.ip, l.stop, m.frames⟩
      ⟨{ m with
        ip := x + 1
        stack := control :: state :: iterator :: m.stack
        marks := (m.stack.length + 3) :: m.marks }, s⟩
      ⟨{ m with
        ip := l.bodyStart
        stack := results.headD .nil :: state :: iterator :: m.stack
        scopes := s₁.newScope.1 :: m.scopes },
        s₁.opened (passBindings names (adjust names.length results))⟩ := by
  obtain ⟨hin, hstep⟩ := step_round hcode control s
  have hregular := (hsteady.behind honest hp (.single ⟨hin, hstep⟩)).regular
  have hcalled := ((runs_asked honest hp hcode control s).traverses
    (hregular.of_part hcode.partOf_call) hasked).of_part hcode.partOf_call
  exact hcalled.trans (traverses_pass hcode hnames hne control hvalue s₁)

/-- A run of a loop, from the beginning of a round on, goes on as the rounds say. -/
theorem rounds_of_finishes (h : l.Stands setting.program places)
    (hbody : l.loop.loopBody? = some body) (hnames : (names.map Identifier.name).Nodup)
    (hne : names ≠ []) (hscopes : m.scopes ≠ []) {st : State} {e : Ending}
    (hfinishes : setting.Finishes (setting.callFrom fuel) false ⟨l.ip, l.stop, m.frames⟩ st e)
    (hst : st = ⟨{ m with ip := x, stack := control :: state :: iterator :: m.stack }, s⟩)
    (hsteady : setting.Steady (setting.callFrom fuel) false ⟨l.ip, l.stop, m.frames⟩ st) :
    setting.Rounds fuel l position names body m iterator state control s e := by
  -- The induction is on the run, from the beginning of one round to that of the next one.
  refine hfinishes.rec_traverses (P := fun st => ∀ control s,
    st = ⟨{ m with ip := x, stack := control :: state :: iterator :: m.stack }, s⟩ →
    setting.Steady (setting.callFrom fuel) false ⟨l.ip, l.stop, m.frames⟩ st →
    setting.Rounds fuel l position names body m iterator state control s e) ?_ control s hst hsteady
  clear hst hsteady hfinishes
  rintro _ hfinishes ih control s rfl hsteady
  have hbehind {s' : Store} (hleft : setting.Finishes (setting.callFrom fuel) false
      ⟨l.ip, l.stop, m.frames⟩ ⟨{ m with ip := l.stop }, s'⟩ e) :
      e = .outside ⟨{ m with ip := l.stop }, s'⟩ :=
    (finishes_iff_of_not_inside (not_inside_stop rfl rfl)).1 hleft
  obtain ⟨r, hasked, hresumes⟩ := (finishes_iff_asked honest hp hcode hsteady).1 hfinishes
  cases r with
  | error i s' =>
    obtain rfl := hresumes
    exact .failed hasked
  | ok results s₁ =>
    by_cases hvalue : (results.headD .nil).isNil = true
    · obtain rfl := hbehind ((traverses_done hcode control hvalue s₁).finishes_iff.1 hresumes)
      exact .done hasked hvalue
    · obtain ⟨hin, hstep⟩ := step_round hcode control s
      have hbegun := traverses_asked honest hp hcode hnames hne hsteady hasked hvalue
      have hpassing := hsteady.behind honest hp (.head ⟨hin, hstep⟩ hbegun)
      have hpass := (traverses_pass hcode hnames hne control hvalue s₁).finishes_iff.1 hresumes
      obtain ⟨e', he', hresumes⟩ := (finishes_iff_of_part hcode.partOf_pass).1 hpass
      cases e' with
      | failed i s₂ =>
        obtain rfl := hresumes
        exact .interrupted hasked hvalue he'
      | outside st' =>
        obtain ⟨m', s₂⟩ := st'
        rcases cases_of_pass honest hp h hbody hcode.close hcode.exit_lt
          { m with stack := results.headD .nil :: state :: iterator :: m.stack } hscopes
          s₁.newScope.1 (hpassing.of_part hcode.partOf_pass) he' with rfl | rfl | hout
        · have hnext := (hbegun.trans (he'.traverses.of_part hcode.partOf_pass)).trans
            (traverses_back hcode _ s₂)
          exact .next hasked hvalue he' (ih _ _ hin hstep hnext _ _ rfl
            (hsteady.behind honest hp (.head ⟨hin, hstep⟩ hnext)))
        · obtain rfl := hbehind ((traverses_drop hcode _ s₂).finishes_iff.1 hresumes)
          exact .left hasked hvalue he'
        · obtain rfl := (finishes_iff_of_not_inside hout).1 hresumes
          exact .returned hasked hvalue he' hout

/-- What the rounds say is how a run of a loop goes on. -/
theorem finishes_of_rounds (hnames : (names.map Identifier.name).Nodup) (hne : names ≠ [])
    {e : Ending} (hrounds : setting.Rounds fuel l position names body m iterator state control s e)
    (hsteady : setting.Steady (setting.callFrom fuel) false ⟨l.ip, l.stop, m.frames⟩
      ⟨{ m with ip := x, stack := control :: state :: iterator :: m.stack }, s⟩) :
    setting.Finishes (setting.callFrom fuel) false ⟨l.ip, l.stop, m.frames⟩
      ⟨{ m with ip := x, stack := control :: state :: iterator :: m.stack }, s⟩ e := by
  have hbegins {control : Value} {results : List Value} {s s₁ : Store} {e e' : Ending}
      (hsteady : setting.Steady (setting.callFrom fuel) false ⟨l.ip, l.stop, m.frames⟩
        ⟨{ m with ip := x, stack := control :: state :: iterator :: m.stack }, s⟩)
      (hasked : setting.asked fuel position m iterator state control s (.ok results s₁))
      (hvalue : ¬ (results.headD .nil).isNil = true)
      (hpass : setting.Passes fuel l names body m iterator state results s₁ e')
      (hresumes : setting.Resumes (setting.callFrom fuel) false ⟨l.ip, l.stop, m.frames⟩ e' e) :
      setting.Finishes (setting.callFrom fuel) false ⟨l.ip, l.stop, m.frames⟩
        ⟨{ m with ip := x, stack := control :: state :: iterator :: m.stack }, s⟩ e :=
    (finishes_iff_asked honest hp hcode hsteady).2 ⟨_, hasked,
      (traverses_pass hcode hnames hne control hvalue s₁).finishes_iff.2
        ((finishes_iff_of_part hcode.partOf_pass).2 ⟨_, hpass, hresumes⟩)⟩
  induction hrounds with
  | failed hasked => exact (finishes_iff_asked honest hp hcode hsteady).2 ⟨_, hasked, rfl⟩
  | @done control _ _ s' hasked hdone =>
    refine (finishes_iff_asked honest hp hcode hsteady).2 ⟨_, hasked, ?_⟩
    exact (traverses_done hcode control hdone s').finishes_iff.2
      (.outside (not_inside_stop rfl rfl))
  | @next control results s s₁ s₂ e hasked hvalue hpass _ ih =>
    have hback : setting.Traverses (setting.callFrom fuel) _ _ _ _ := traverses_back (m := m) hcode
      (results.headD .nil :: state :: iterator :: m.stack) s₂
    obtain ⟨hin, hstep⟩ := step_round hcode control s
    have hbegun := traverses_asked honest hp hcode hnames hne hsteady hasked hvalue
    have hpassed := Finishes.traverses hpass
    refine hbegins hsteady hasked hvalue hpass (hback.finishes_iff.2 (ih ?_))
    exact hsteady.behind honest hp (.head ⟨hin, hstep⟩
      ((hbegun.trans (hpassed.of_part hcode.partOf_pass)).trans hback))
  | interrupted hasked hvalue hpass => exact hbegins hsteady hasked hvalue hpass rfl
  | left hasked hvalue hpass =>
    refine hbegins hsteady hasked hvalue hpass ?_
    exact (traverses_drop hcode _ _).finishes_iff.2 (.outside (not_inside_stop rfl rfl))
  | returned hasked hvalue hpass hout =>
    exact hbegins hsteady hasked hvalue hpass (.outside hout)

end

/-- Where a loop has been left the machine is as it was, unless a pass has returned from the
function that the loop is in. -/
theorem Rounds.cases_outside {st : State} (h : setting.Rounds fuel l position names body m iterator
      state control s (.outside st)) :
    st.machine = { m with ip := l.stop } ∨ ∃ results s₁,
      setting.Passes fuel l names body m iterator state results s₁ (.outside st) ∧
        ¬ Piece.Inside ⟨l.ip, l.stop, m.frames⟩ st.machine := by
  generalize he : Ending.outside st = e at h
  induction h with
  | failed | interrupted => cases he
  | done =>
    cases he
    exact .inl rfl
  | next _ _ _ _ ih => exact ih he
  | left =>
    cases he
    exact .inl rfl
  | returned _ _ hpass hout =>
    cases he
    exact .inr ⟨_, _, hpass, hout⟩

/-! ### Whole loops -/

/-- A loop over an iterator that a machine has come to follows the protocol of iterators.

Its list of expressions is evaluated, and then one round follows the other (`ends`).  In a pass the
variables stand for what the iterator has answered (`bound`).  Behind the loop the machine is as it
was, unless a pass has returned from the function (`restored`). -/
structure FollowsIterator (setting : Setting) (fuel : Nat) (places : List Nat) (l : LoopSite)
    (position : Position) (names : List Identifier) (es : List Expr) (body : List Stat)
    (m : Machine) (s : Store) : Prop where
  ends : ∀ e, setting.Finishes (setting.callFrom fuel) false ⟨l.ip, l.stop, m.frames⟩
      ⟨{ m with ip := l.ip }, s⟩ e ↔
    ∃ r, setting.listCourse fuel places [] true (l.next + (chunkFunctions body).length) m es s r ∧
      setting.Iterates fuel l position names body m e r
  bound : ∀ (results : List Value) (s : Store) (i : Nat) (name : Identifier),
    names[i]? = some name →
    Exec.lookup { m with scopes := s.newScope.1 :: m.scopes }
      (s.opened (passBindings names (adjust names.length results))) name.name = results.getD i .nil
  restored : ∀ st, setting.Finishes (setting.callFrom fuel) false ⟨l.ip, l.stop, m.frames⟩
      ⟨{ m with ip := l.ip }, s⟩ (.outside st) →
    st.machine = { m with ip := l.stop } ∨ ∃ iterator state results s₁,
      setting.Passes fuel l names body m iterator state results s₁ (.outside st) ∧
        ¬ Piece.Inside ⟨l.ip, l.stop, m.frames⟩ st.machine

theorem reverse_adjust_three (vs σ : List Value) :
    (adjust 3 vs).reverse ++ σ = vs.getD 2 .nil :: vs.getD 1 .nil :: vs.getD 0 .nil :: σ := by
  match vs with
  | [] => rfl
  | [_] => rfl
  | [_, _] => rfl
  | _ :: _ :: _ :: _ => simp [adjust]

theorem finishes_iff_iterates (honest : Honest setting.natives talk)
    (hp : setting.program.Verifying) (h : l.Stands setting.program places)
    (hloop : l.loop = .genericFor position names es body)
    (hnames : (names.map Identifier.name).Nodup) (hne : names ≠ []) (hscopes : m.scopes ≠ [])
    (hsteady : setting.Steady (setting.callFrom fuel) false ⟨l.ip, l.stop, m.frames⟩
      ⟨{ m with ip := l.ip }, s⟩) (e : Ending) :
    setting.Finishes (setting.callFrom fuel) false ⟨l.ip, l.stop, m.frames⟩
        ⟨{ m with ip := l.ip }, s⟩ e ↔
      ∃ r, setting.listCourse fuel places [] true (l.next + (chunkFunctions body).length) m es s r ∧
        setting.Iterates fuel l position names body m e r := by
  have hcode := h.roundsAt hloop
  have hbody : l.loop.loopBody? = some body := by rw [hloop]; rfl
  have hholds : setting.program.Holds places none l.ip
      ((Stat.genericFor position names es body).code none false l.next).1 := by
    rw [← hloop]
    exact h.holds
  have hhead : setting.Runs fuel [] _ _ _ _ := runs_iterators honest hp (m := m) (s := s) hholds rfl
  have hpart : Piece.PartOf
      ⟨l.ip, l.ip + (valuesCode es (l.next + (chunkFunctions body).length)).1.length + 2,
        m.frames⟩
      ⟨l.ip, l.stop, m.frames⟩ := by
    obtain ⟨hle, hstart, hend, hexit, hstop, -⟩ := hcode
    exact Piece.partOf_of_le (Nat.le_refl _) (by omega)
  rw [hhead.finishes_iff_of_part hpart hsteady.regular]
  refine exists_congr fun r => and_congr_right fun hr => ?_
  cases r with
  | error i s' => exact Iff.rfl
  | ok vs s₁ =>
    have hrun := (hhead.traverses (hsteady.regular.of_part hpart) hr).of_part hpart
    have hbehind := hsteady.behind honest hp hrun
    simp only [Ending.arriving, reverse_adjust_three, Resumes] at hbehind ⊢
    exact ⟨fun hfinishes => rounds_of_finishes honest hp hcode h hbody hnames hne hscopes hfinishes
      rfl hbehind, fun hrounds => finishes_of_rounds honest hp hcode hnames hne hrounds hbehind⟩

/-- **A loop over an iterator follows the protocol of iterators.** -/
theorem follows_iterator (honest : Honest setting.natives talk) (hp : setting.program.Verifying)
    (h : l.Stands setting.program places) (hloop : l.loop = .genericFor position names es body)
    (hnames : (names.map Identifier.name).Nodup) (hne : names ≠ []) (hscopes : m.scopes ≠ [])
    (hsteady : setting.Steady (setting.callFrom fuel) false ⟨l.ip, l.stop, m.frames⟩
      ⟨{ m with ip := l.ip }, s⟩) :
    setting.FollowsIterator fuel places l position names es body m s where
  ends := finishes_iff_iterates honest hp h hloop hnames hne hscopes hsteady
  bound results s _ _ := lookup_opened hnames results s
  restored st hfinishes := by
    obtain ⟨r, -, hiterates⟩ :=
      (finishes_iff_iterates honest hp h hloop hnames hne hscopes hsteady _).1 hfinishes
    cases r with
    | error i s' => cases hiterates
    | ok vs s₁ =>
      rcases Rounds.cases_outside hiterates with hst | ⟨results, s₂, hpass, hout⟩
      · exact .inl hst
      · exact .inr ⟨_, _, results, s₂, hpass, hout⟩

/-- The loop of the text `for k in function() return x end do x = nil end`. -/
def endedByBody : Stat :=
  .genericFor ⟨1, 1⟩ [⟨"k", ⟨1, 5⟩⟩] [.function ⟨1, 10⟩ [] [.result ⟨1, 21⟩ [.var ⟨1, 28⟩ "x"]]]
    [.assignment ⟨1, 37⟩ false [.var ⟨1, 37⟩ "x"] [.literal ⟨1, 41⟩ .nil]]

/-- A machine with the code of this text. -/
def endingByBody : Setting :=
  ⟨(Program.empty.extend [endedByBody]).1, .standard, ⟨0⟩, Library.run Host.function⟩

/-- The iterator answers with the value of a variable, which the first pass takes away. -/
theorem follows_iterator_twice :
    endingByBody.Finishes (endingByBody.callFrom 0) false ⟨4, 20, []⟩
      ⟨⟨4, [], [⟨0⟩], [], [], [], 0⟩, ⟨[("x", .number 1)], #[], #[[]], 0, #[]⟩⟩
      (.outside ⟨⟨20, [], [⟨0⟩], [], [], [], 0⟩,
        ⟨[], #[], #[[], [], [("k", .number 1)], []], 0, #[]⟩⟩) := by
  obtain ⟨talk, honest⟩ := honest_run
  have hverifying : endingByBody.program.Verifying :=
    Program.verifying_extend Program.verifying_empty (show chunkClosed false [endedByBody] from rfl)
      (by decide)
  have hstands : LoopSite.Stands endingByBody.program [0] ⟨endedByBody, 0, 4, 0⟩ :=
    ⟨rfl, rfl, (Program.empty.holds_extend_main [endedByBody]).left⟩
  have hroom {m : Machine} (h : m.stack.length ≤ 6) : m.HasRoom :=
    Nat.lt_of_le_of_lt h (by decide)
  have hsteady : endingByBody.Steady (endingByBody.callFrom 0) false ⟨4, 20, []⟩
      ⟨⟨4, [], [⟨0⟩], [], [], [], 0⟩, ⟨[("x", .number 1)], #[], #[[]], 0, #[]⟩⟩ := by
    refine ⟨⟨List.forall_mem_nil _, List.forall_mem_singleton.2 trivial, by simp, ?_⟩,
      fun st' h => ?_⟩
    · exact fun b hb => (Array.mem_singleton.1 hb) ▸ List.forall_mem_nil _
    -- The list, a round with a pass, and the round at the end of the iterator.
    iterate 25
      rcases h.cases_step rfl with rfl | h
      · exact hroom (by decide)
    rw [h.eq_of_not_inside fun hin => absurd (hin.2 rfl).2 (by decide)]
    exact hroom (by decide)
  have hasked (control : Value) (s : Store) : endingByBody.asked 0 ⟨1, 1⟩
      ⟨4, [], [⟨0⟩], [], [], [], 0⟩ (.function 0 [⟨0⟩]) .nil control s
      (.ok [Exec.lookup ⟨2, [control, .nil, .function 0 [⟨0⟩]], [s.newScope.1], [⟨0⟩],
        [⟨0, 3, none, [⟨0⟩], [], 1⟩], [3], 0⟩ s.newScope.2 "x"] s.newScope.2) := by
    have hcall {m : Machine} (h : m.frames = [⟨0, 3, none, [⟨0⟩], [], 1⟩]) :
        (Piece.callsFrom []).Inside m :=
      Piece.inside_callsFrom.2 ⟨List.nil_suffix, h ▸ List.cons_ne_nil _ _⟩
    have hret : endingByBody.program.code[2]? = some (.counted .ret 1 ⟨1, 21⟩) := rfl
    have hdepth : ¬ endingByBody.config.maxCallDepth ≤ 0 := by decide
    have hrun : endingByBody.Traverses (endingByBody.callFrom 0) false (.callsFrom [])
        ⟨⟨0, [.number (Number.ofNat 2), control, .nil, control, .nil, .function 0 [⟨0⟩]],
          [s.newScope.1], [⟨0⟩], [⟨0, 3, none, [⟨0⟩], [], 1⟩], [3], 0⟩, s.newScope.2⟩
        ⟨⟨2, [Exec.lookup ⟨2, [control, .nil, .function 0 [⟨0⟩]], [s.newScope.1], [⟨0⟩],
          [⟨0, 3, none, [⟨0⟩], [], 1⟩], [3], 0⟩ s.newScope.2 "x", control, .nil,
          .function 0 [⟨0⟩]], [s.newScope.1], [⟨0⟩], [⟨0, 3, none, [⟨0⟩], [], 1⟩], [3], 0⟩,
          s.newScope.2⟩ :=
      .head ⟨hcall rfl, rfl⟩ (.single ⟨hcall rfl, rfl⟩)
    have hreturned : endingByBody.Answers (endingByBody.callFrom 0) ⟨1, 1⟩
        ⟨0, [], [⟨0⟩], [], [], [3], 0⟩ ⟨.function 0 [⟨0⟩], [.nil, control],
          [control, .nil, .function 0 [⟨0⟩]], none⟩ s _ := .returned rfl hdepth hrun rfl hret rfl
    exact hreturned
  have hpass : endingByBody.Passes 0 ⟨endedByBody, 0, 4, 0⟩ [⟨"k", ⟨1, 5⟩⟩]
      [.assignment ⟨1, 37⟩ false [.var ⟨1, 37⟩ "x"] [.literal ⟨1, 41⟩ .nil]]
      ⟨4, [], [⟨0⟩], [], [], [], 0⟩ (.function 0 [⟨0⟩]) .nil [.number 1]
      ⟨[("x", .number 1)], #[], #[[], []], 0, #[]⟩
      (.outside ⟨⟨18, [.number 1, .nil, .function 0 [⟨0⟩]], [⟨0⟩], [], [], [], 0⟩,
        ⟨[], #[], #[[], [], [("k", .number 1)]], 0, #[]⟩⟩) := by
    have hin {m : Machine} (hframes : m.frames = []) (hip : 15 ≤ m.ip ∧ m.ip < 18) :
        Piece.Inside ⟨15, 18, []⟩ m := (Piece.inside_iff hframes).2 hip
    have hout : ¬ Piece.Inside ⟨15, 18, []⟩
        ⟨18, [.number 1, .nil, .function 0 [⟨0⟩]], [⟨0⟩], [], [], [], 0⟩ :=
      fun h => absurd (h.2 rfl).2 (by decide)
    exact .next (hin rfl (by decide)) rfl (.next (hin rfl (by decide)) rfl
      (.next (hin rfl (by decide)) rfl (.outside hout)))
  have hfollows : endingByBody.FollowsIterator 0 [0] ⟨endedByBody, 0, 4, 0⟩ ⟨1, 1⟩
      [⟨"k", ⟨1, 5⟩⟩] [.function ⟨1, 10⟩ [] [.result ⟨1, 21⟩ [.var ⟨1, 28⟩ "x"]]]
      [.assignment ⟨1, 37⟩ false [.var ⟨1, 37⟩ "x"] [.literal ⟨1, 41⟩ .nil]]
      ⟨4, [], [⟨0⟩], [], [], [], 0⟩ ⟨[("x", .number 1)], #[], #[[]], 0, #[]⟩ :=
    follows_iterator honest hverifying hstands rfl (by decide) (List.cons_ne_nil _ _)
      (List.cons_ne_nil _ _) hsteady
  refine (hfollows.ends _).2
    ⟨.ok [.function 0 [⟨0⟩]] ⟨[("x", .number 1)], #[], #[[]], 0, #[]⟩, ?_, ?_⟩
  · simp [listCourse, valuesCourse, exprCourse, Course.pure_iff, Exec.reach, chunkFunctions,
      Stat.functions, valuesFunctions, storesFunctions, Expr.functions]
  · exact .next (hasked .nil _) (by rintro ⟨⟩) hpass (.done (hasked (.number 1) _) rfl)

end Setting

end ScriptEngine
