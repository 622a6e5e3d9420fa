import ScriptEngine.Proofs.Safety.Natives
import ScriptEngine.Proofs.Scoping.Parts

/-!
# Native functions do not look back

What a program has put out is only ever added to.  A native function that finds more of it
there than before does the same, with that much more in front of its own output, as long as the
calls that it makes do so too.  And if it fails with what a call has met, then one of its own
calls has met it.

## Main definitions

* `Mirrors` — a computation does on changed states what another one does on the states
  themselves, and fails in a given way only.
* `Store.behind` — a store before which more has been put out.
* `Indifferent`, `Candid` — native functions that do not look at what has been put out, and that
  make up no failures of calls.

## Main results

* `candid_run` — the native functions are candid.
-/

namespace ScriptEngine

/-! ### Computations on changed states -/

section Mirrors

variable {ε ε' σ α β : Type}

/-- If a result is a failure, then it is one that `P` allows. -/
def FailsAs (P : ε → Prop) : EStateM.Result ε σ α → Prop
  | .ok _ _ => True
  | .error e _ => P e

theorem failsAs_true (r : EStateM.Result ε σ α) : FailsAs (fun _ => True) r := by
  cases r <;> trivial

/-- On states changed by `f`, the first computation does what the second one does on the states
themselves, whose failures are those that `P` allows. -/
def Mirrors (f : σ → σ) (P : ε → Prop) (x y : EStateM ε σ α) : Prop :=
  ∀ s, x (f s) = mapState f (y s) ∧ FailsAs P (y s)

namespace Mirrors

variable {f : σ → σ} {P : ε → Prop} {x y : EStateM ε σ α} {k l : α → EStateM ε σ β}

/-- States that are not changed. -/
theorem refl (h : ∀ s, FailsAs P (x s)) : Mirrors id P x x := by
  intro s
  refine ⟨?_, h s⟩
  rw [id]
  cases x s <;> rfl

theorem pure (a : α) : Mirrors f P (Pure.pure a) (Pure.pure a) := fun _ => ⟨rfl, trivial⟩

theorem throw {e : ε} (h : P e) :
    Mirrors f P (MonadExcept.throw e : EStateM ε σ α) (MonadExcept.throw e) := fun _ => ⟨rfl, h⟩

theorem bind (hx : Mirrors f P x y) (hk : ∀ a, Mirrors f P (k a) (l a)) :
    Mirrors f P (x >>= k) (y >>= l) := by
  intro s
  obtain ⟨hrun, hfails⟩ := hx s
  change EStateM.bind x k (f s) = mapState f (EStateM.bind y l s) ∧ FailsAs P (EStateM.bind y l s)
  rw [EStateM.bind, EStateM.bind, hrun]
  cases hy : y s with
  | ok a s' => exact hk a s'
  | error e s' =>
    rw [hy] at hfails
    exact ⟨rfl, hfails⟩

/-- What is behind a failure does not matter. -/
theorem throw_bind {e : ε} (h : P e) :
    Mirrors f P (MonadExcept.throw e >>= k) (MonadExcept.throw e >>= l) := fun _ => ⟨rfl, h⟩

theorem map {g : α → β} (hx : Mirrors f P x y) : Mirrors f P (g <$> x) (g <$> y) :=
  hx.bind fun a => .pure (g a)

theorem ite {c : Prop} [Decidable c] {x' y' : EStateM ε σ α} (hx : Mirrors f P x y)
    (hx' : Mirrors f P x' y') : Mirrors f P (if c then x else x') (if c then y else y') := by
  split
  · exact hx
  · exact hx'

/-- A computation that reads something that `f` does not change. -/
theorem read {g : σ → α} (h : ∀ s, g (f s) = g s) :
    Mirrors f P (fun s => .ok (g s) s) (fun s => .ok (g s) s) := by
  intro s
  refine ⟨?_, trivial⟩
  dsimp only
  rw [h, mapState]

/-- A computation whose own changes go along with `f`. -/
theorem change {g : σ → α} {h : σ → σ} (hg : ∀ s, g (f s) = g s) (hh : ∀ s, h (f s) = f (h s)) :
    Mirrors f P (fun s => .ok (g s) (h s)) (fun s => .ok (g s) (h s)) := by
  intro s
  refine ⟨?_, trivial⟩
  dsimp only
  rw [hg, hh, mapState]

/-- Failures that are turned into others. -/
theorem adaptExcept {g : ε → ε'} {P' : ε' → Prop} (hx : Mirrors f P x y)
    (hg : ∀ e, P e → P' (g e)) :
    Mirrors f P' (EStateM.adaptExcept g x) (EStateM.adaptExcept g y) := by
  intro s
  obtain ⟨hrun, hfails⟩ := hx s
  rw [EStateM.adaptExcept, EStateM.adaptExcept, hrun]
  cases hy : y s with
  | ok a s' => exact ⟨rfl, trivial⟩
  | error e s' =>
    rw [hy] at hfails
    exact ⟨rfl, hg e hfails⟩

end Mirrors

end Mirrors

/-! ### What has been put out -/

/-- A store before which more has been put out. -/
def Store.behind (before : Array Event) (s : Store) : Store :=
  { s with output := before ++ s.output }

theorem Store.behind_empty : Store.behind #[] = id := by
  funext s
  rw [behind, Array.empty_append]
  rfl

theorem Store.behind_emit (before : Array Event) (event : Event) (s : Store) :
    (s.behind before).emit event = (s.emit event).behind before := by
  simp [emit, behind]

/-- A failure of a native function that is one of its own, or what a call has met. -/
def Failure.Passes (P : Interrupt → Prop) : Failure → Prop
  | .cause _ => True
  | .interrupt i => P i

/-- Native functions that do not look at what has been put out: if their calls do the same with
more output in front of it, then so do they. -/
def Indifferent (natives : Builtin → NativeBody) : Prop :=
  ∀ (before : Array Event) (f g : Reentry),
    (∀ callee args, Mirrors (Store.behind before) (fun _ => True) (f callee args) (g callee args)) →
    ∀ b args, Mirrors (Store.behind before) (fun _ => True) (natives b f args) (natives b g args)

/-- Native functions that do not look at what has been put out, and do not make up what calls
might have met. -/
def Candid (natives : Builtin → NativeBody) : Prop :=
  ∀ (before : Array Event) (P : Interrupt → Prop) (f g : Reentry),
    (∀ callee args, Mirrors (Store.behind before) P (f callee args) (g callee args)) →
    ∀ b args, Mirrors (Store.behind before) (Failure.Passes P) (natives b f args) (natives b g args)

theorem Candid.indifferent {natives : Builtin → NativeBody} (h : Candid natives) :
    Indifferent natives := by
  intro before f g hcalls b args s
  exact ⟨(h before (fun _ => True) f g hcalls b args s).1, failsAs_true _⟩

section Natives

variable {before : Array Event} {P : Interrupt → Prop} {α : Type} {args : Arguments}

/-! ### Functions that do not call back -/

namespace Library

theorem mirrors_lift (r : Except Cause α) :
    Mirrors (Store.behind before) (Failure.Passes P) (lift r) (lift r) := by
  cases r with
  | ok a => exact .pure a
  | error c => exact .throw trivial

theorem mirrors_border (ref : TableRef) :
    Mirrors (Store.behind before) (Failure.Passes P) (border ref) (border ref) :=
  .read fun _ => rfl

theorem mirrors_contents (ref : TableRef) :
    Mirrors (Store.behind before) (Failure.Passes P) (contents ref) (contents ref) :=
  .read fun _ => rfl

theorem mirrors_valueAt (ref : TableRef) (i : Int) :
    Mirrors (Store.behind before) (Failure.Passes P) (valueAt ref i) (valueAt ref i) :=
  .read fun _ => rfl

theorem mirrors_changeTable (ref : TableRef) (f : Table → Table) :
    Mirrors (Store.behind before) (Failure.Passes P) (changeTable ref f) (changeTable ref f) :=
  .change (fun _ => rfl) fun _ => rfl

theorem mirrors_newNative (f : BaseFunction) :
    Mirrors (Store.behind before) (Failure.Passes P) (newNative f) (newNative f) :=
  .change (fun _ => rfl) fun _ => rfl

theorem mirrors_base (f : BaseFunction) :
    Mirrors (Store.behind before) (Failure.Passes P) (base f args) (base f args) := by
  cases f with
  | print => exact .change (fun _ => rfl) fun s => Store.behind_emit before _ s
  | pairs =>
    exact (mirrors_lift _).bind fun _ => (mirrors_newNative _).bind fun _ => .pure _
  | next =>
    refine (mirrors_lift _).bind fun ref => .ite ((Mirrors.pure none).bind fun key => ?_)
      ((mirrors_lift _).map.bind fun key => ?_)
    all_goals
      refine (mirrors_contents ref).bind fun t => (mirrors_lift _).bind fun entry => ?_
      split
      · exact .pure _
      · exact .pure _
  | ipairs =>
    exact (mirrors_lift _).bind fun _ => (mirrors_newNative _).bind fun _ => .pure _
  | ipairsStep =>
    exact (mirrors_lift _).bind fun _ => (mirrors_lift _).bind fun _ =>
      (mirrors_contents _).bind fun _ => .ite (.pure _) (.pure _)
  | type => exact mirrors_lift _
  | tostring => exact mirrors_lift _
  | tonumber => exact mirrors_lift _
  | select => exact mirrors_lift _
  | assert => exact mirrors_lift _
  | error => exact .throw trivial

theorem mirrors_insert :
    Mirrors (Store.behind before) (Failure.Passes P) (insert args) (insert args) := by
  unfold insert
  refine (mirrors_lift _).bind fun ref => (mirrors_border ref).bind fun length => ?_
  split
  · exact (mirrors_changeTable ref _).bind fun _ => .pure _
  · exact (mirrors_lift _).bind fun position => .ite (.throw_bind trivial)
      ((mirrors_changeTable ref _).bind fun _ => .pure _)
  · exact .throw_bind trivial

theorem mirrors_remove :
    Mirrors (Store.behind before) (Failure.Passes P) (remove args) (remove args) := by
  refine (mirrors_lift _).bind fun ref => (mirrors_border ref).bind fun length =>
    (mirrors_lift _).bind fun position => .ite (.pure _) (.ite (.throw_bind trivial) ?_)
  exact (mirrors_valueAt ref position).bind fun removed =>
    (mirrors_changeTable ref _).bind fun _ => .pure _

theorem mirrors_join :
    Mirrors (Store.behind before) (Failure.Passes P) (join args) (join args) :=
  (mirrors_lift _).bind fun ref => (mirrors_lift _).bind fun _ => (mirrors_lift _).bind fun _ =>
    (mirrors_border ref).bind fun _ => (mirrors_lift _).bind fun _ => (mirrors_contents ref).bind
      fun _ => (mirrors_lift _).bind fun _ => .pure _

theorem mirrors_unpack :
    Mirrors (Store.behind before) (Failure.Passes P) (unpack args) (unpack args) :=
  (mirrors_lift _).bind fun ref => (mirrors_lift _).bind fun _ => (mirrors_border ref).bind
    fun _ => (mirrors_lift _).bind fun _ => .ite (.throw_bind trivial)
      ((mirrors_contents ref).bind fun _ => .pure _)

end Library

theorem Host.mirrors_emit :
    Mirrors (Store.behind before) (Failure.Passes P) (emit args) (emit args) := by
  refine .change (fun _ => rfl) fun s => ?_
  induction args generalizing s with
  | nil => rfl
  | cons v rest ih => rw [List.foldl_cons, List.foldl_cons, Store.behind_emit, ih]

/-! ### Functions that call back -/

variable {f g : Reentry}
  (hcalls : ∀ callee args, Mirrors (Store.behind before) P (f callee args) (g callee args))
include hcalls

theorem Host.mirrors_callBack (callee : Value) (args : List Value) :
    Mirrors (Store.behind before) (Failure.Passes P) (callBack f callee args)
      (callBack g callee args) :=
  (hcalls callee args).adaptExcept fun _ => id

namespace Library

theorem mirrors_sortsBefore (comparator lhs rhs : Value) :
    Mirrors (Store.behind before) (Failure.Passes P) (sortsBefore f comparator lhs rhs)
      (sortsBefore g comparator lhs rhs) :=
  .ite (mirrors_lift _) ((Host.mirrors_callBack hcalls comparator [lhs, rhs]).bind fun _ => .pure _)

theorem mirrors_sink (comparator v : Value) (sorted : List Value) :
    Mirrors (Store.behind before) (Failure.Passes P) (sink (sortsBefore f comparator) v sorted)
      (sink (sortsBefore g comparator) v sorted) := by
  induction sorted with
  | nil => exact .pure _
  | cons last rest ih =>
    exact (mirrors_sortsBefore hcalls comparator v last).bind fun _ =>
      .ite (ih.bind fun _ => .pure _) (.pure _)

theorem mirrors_sortOnto (comparator : Value) (sorted vs : List Value) :
    Mirrors (Store.behind before) (Failure.Passes P) (sortOnto (sortsBefore f comparator) sorted vs)
      (sortOnto (sortsBefore g comparator) sorted vs) := by
  induction vs generalizing sorted with
  | nil => exact .pure _
  | cons v rest ih => exact (mirrors_sink hcalls comparator v sorted).bind fun sunk => ih sunk

theorem mirrors_sort :
    Mirrors (Store.behind before) (Failure.Passes P) (sort f args) (sort g args) :=
  (mirrors_lift _).bind fun ref => (mirrors_contents ref).bind fun _ =>
    ((mirrors_sortOnto hcalls _ [] _).bind fun _ => .pure _).bind fun _ =>
      (mirrors_changeTable ref _).bind fun _ => .pure _

theorem mirrors_table (function : TableFunction) :
    Mirrors (Store.behind before) (Failure.Passes P) (table function f args)
      (table function g args) := by
  cases function with
  | insert => exact mirrors_insert
  | remove => exact mirrors_remove
  | concat => exact mirrors_join
  | pack => exact .change (fun _ => rfl) fun _ => rfl
  | unpack => exact mirrors_unpack
  | sort => exact mirrors_sort hcalls

end Library

namespace Host

theorem mirrors_attempt :
    Mirrors (Store.behind before) (Failure.Passes P) (attempt f args) (attempt g args) := by
  intro s
  obtain ⟨hrun, hfails⟩ := hcalls (args.value 0) (args.drop 1) s
  rw [attempt, attempt, hrun]
  rcases hg : g (args.value 0) (args.drop 1) s with ⟨results, s'⟩ | ⟨e | _, s'⟩
  · exact ⟨rfl, trivial⟩
  · exact ⟨rfl, trivial⟩
  · rw [hg] at hfails
    exact ⟨rfl, hfails⟩

theorem mirrors_function (key : String) :
    Mirrors (Store.behind before) (Failure.Passes P) (function key f args)
      (function key g args) := by
  unfold function
  split
  · exact mirrors_emit
  · exact .pure _
  · exact .pure _
  · exact .throw trivial
  · exact mirrors_callBack hcalls _ _
  · exact mirrors_attempt hcalls
  · exact (mirrors_callBack hcalls _ _).bind fun _ => mirrors_callBack hcalls _ _
  · exact .read fun _ => rfl
  · exact .change (fun _ => rfl) fun _ => rfl
  · exact .pure _

end Host

end Natives

/-- **The native functions are candid.** -/
theorem candid_run : Candid (Library.run Host.function) := by
  intro before P f g hcalls b args
  cases b with
  | base function => exact Library.mirrors_base function
  | string function => exact Library.mirrors_lift _
  | table function => exact Library.mirrors_table hcalls function
  | math function => exact Library.mirrors_lift _
  | host key => exact Host.mirrors_function hcalls key

end ScriptEngine
