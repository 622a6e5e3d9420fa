import Mathlib.Tactic.Choose
import ScriptEngine.Proofs.Safety.Known

/-!
# Conversations with the engine

A native function touches the engine only by calling back into it: it works on the
store, asks for a call, and goes on with the answer.  A dialogue is what such a
function does with an argument list and a store, the answers being left open.

## Main definitions

* `Dialogue`, `Dialogue.run` — a conversation, and its end for given answers.
* `Dialogue.Makes` — the calls that are asked for.
* `Dialogue.Keeps` — a conversation makes up no functions, neither in the calls it
  asks for nor in its end, and leaves the scopes alone.
* `Honest` — native functions whose doings are such conversations.
* `Converses` — a computation that calls back is such a conversation.

## Main results

* `Converses.bind`, `Converses.of_tame`, `converses_call` — computations one after
  another, computations that do not call back, and single calls.
-/

namespace ScriptEngine

/-- The state that a computation ends in. -/
def stateOf {ε σ α : Type} : EStateM.Result ε σ α → σ
  | .ok _ s => s
  | .error _ s => s

/-- A conversation of a native function with the engine: it has come to its end, or asks
for a call and goes on with the answer. -/
inductive Dialogue (α : Type) where
  | done (result : EStateM.Result Failure Store α)
  | ask (callee : Value) (args : List Value) (s : Store)
      (next : EStateM.Result Interrupt Store (List Value) → Dialogue α)

variable {α β : Type}

namespace Dialogue

/-- The end of a conversation whose calls are answered by `call`. -/
def run (call : Reentry) : Dialogue α → EStateM.Result Failure Store α
  | done result => result
  | ask callee args s next => (next (call callee args s)).run call

/-- The calls that are asked for if they are answered by `call`. -/
inductive Makes (call : Reentry) : Dialogue α → Value → List Value → Store → Prop
  | first {callee : Value} {args : List Value} {s : Store}
      {next : EStateM.Result Interrupt Store (List Value) → Dialogue α} :
      Makes call (ask callee args s next) callee args s
  | later {callee callee' : Value} {args args' : List Value} {s s' : Store}
      {next : EStateM.Result Interrupt Store (List Value) → Dialogue α} :
      Makes call (next (call callee args s)) callee' args' s' →
        Makes call (ask callee args s next) callee' args' s'

/-- A conversation after another. -/
def bind (d : Dialogue α) (f : α → Store → Dialogue β) : Dialogue β :=
  match d with
  | done (.ok a s) => f a s
  | done (.error e s) => done (.error e s)
  | ask callee args s next => ask callee args s fun answer => (next answer).bind f

theorem run_bind (call : Reentry) (d : Dialogue α) (f : α → Store → Dialogue β) :
    (d.bind f).run call =
      match d.run call with
      | .ok a s => (f a s).run call
      | .error e s => .error e s := by
  induction d with
  | done result => cases result <;> rfl
  | ask callee args s next ih => exact ih _

end Dialogue

/-! ### Conversations that make nothing up -/

/-- What a call back into the engine leaves, if all functions are known. -/
def KnownResult (E : Functions) : EStateM.Result Interrupt Store (List Value) → Prop
  | .ok results s => AllKnown E results ∧ s.Known E
  | .error _ s => s.Known E

namespace Dialogue

/-- A conversation that begins with known functions makes up none, in its calls and in
its end, does not change scopes by itself, and does not end with a check of the
machine.  Further functions may become known with every answer. -/
def Keeps (post : Functions → α → Prop) : Dialogue α → Functions → Array Bindings → Prop
  | done (.ok a s), E, scopes => post E a ∧ s.Known E ∧ s.scopes = scopes
  | done (.error e s), E, scopes => e.isCheck = false ∧ s.Known E ∧ s.scopes = scopes
  | ask callee args s next, E, scopes =>
    (callee.Known E ∧ AllKnown E args ∧ s.Known E ∧ s.scopes = scopes) ∧
      ∀ E' answer, E.Among E' → KnownResult E' answer →
        (next answer).Keeps post E' (stateOf answer).scopes

theorem Keeps.bind {post : Functions → α → Prop} {after : Functions → β → Prop} {d : Dialogue α}
    {f : α → Store → Dialogue β} {E : Functions} {scopes : Array Bindings}
    (h : d.Keeps post E scopes)
    (hf : ∀ E' a s, E.Among E' → post E' a → s.Known E' → (f a s).Keeps after E' s.scopes) :
    (d.bind f).Keeps after E scopes := by
  induction d generalizing E scopes with
  | done result =>
    cases result with
    | ok a s =>
      obtain ⟨ha, hs, rfl⟩ := h
      exact hf E a s (.refl E) ha hs
    | error e s => exact h
  | ask callee args s next ih =>
    refine ⟨h.1, fun E' answer hE hanswer => ?_⟩
    exact ih _ (h.2 E' answer hE hanswer) fun E'' a s hE' => hf E'' a s (hE.trans hE')

end Dialogue

/-- Native functions whose doings are conversations that make up no functions: `talk`
says which. -/
structure Honest (natives : Builtin → NativeBody)
    (talk : Builtin → List Value → Store → Dialogue (List Value)) : Prop where
  runs : ∀ b call args s, natives b call args s = (talk b args s).run call
  keeps : ∀ b args s E, AllKnown E args → s.Known E → (talk b args s).Keeps AllKnown E s.scopes

/-! ### Computations that call back -/

/-- A computation that calls back into the engine is a conversation that makes up no
functions, as long as what it works on is known. -/
def Converses (pre : Functions → Prop) (post : Functions → α → Prop) (x : Reentry → Action α) :
    Prop :=
  ∀ s, ∃ d : Dialogue α, (∀ call, x call s = d.run call) ∧
    ∀ E, pre E → s.Known E → d.Keeps post E s.scopes

/-- What goes on to hold when more becomes known. -/
def Lasting (pre : Functions → Prop) : Prop := ∀ E E', E.Among E' → pre E → pre E'

namespace Converses

variable {pre : Functions → Prop} {post : Functions → α → Prop} {after : Functions → β → Prop}

/-- Computations that do not call back. -/
theorem of_tame {x : Action α} (h : ∀ E, pre E → Tame E (post E) x) :
    Converses pre post fun _ => x := by
  intro s
  refine ⟨.done (x s), fun _ => rfl, fun E hpre hs => ?_⟩
  have hresult := h E hpre s hs
  cases hrun : x s with
  | ok a s' =>
    rw [hrun] at hresult
    exact hresult
  | error e s' =>
    rw [hrun] at hresult
    exact hresult

theorem bind {x : Reentry → Action α} {f : α → Reentry → Action β} (hpre : Lasting pre)
    (hx : Converses pre post x) (hf : ∀ a, Converses (fun E => pre E ∧ post E a) after (f a)) :
    Converses pre after fun call => x call >>= fun a => f a call := by
  intro s
  obtain ⟨d, hd, hkeeps⟩ := hx s
  choose next hnext hafter using fun a s => hf a s
  refine ⟨d.bind next, fun call => ?_, fun E hE hs => ?_⟩
  · change EStateM.bind (x call) (f · call) s = _
    rw [EStateM.bind, Dialogue.run_bind, hd]
    cases d.run call with
    | ok a s' => exact hnext a s' call
    | error e s' => rfl
  · refine (hkeeps E hE hs).bind fun E' a s' hE' ha hs' => ?_
    exact hafter a s' E' ⟨hpre E E' hE' hE, ha⟩ hs'

theorem imp {pre' : Functions → Prop} {x : Reentry → Action α} (hx : Converses pre post x)
    (h : ∀ E, pre' E → pre E) : Converses pre' post x := by
  intro s
  obtain ⟨d, hd, hkeeps⟩ := hx s
  exact ⟨d, hd, fun E hE => hkeeps E (h E hE)⟩

theorem ite {c : Prop} [Decidable c] {x y : Reentry → Action α} (hx : Converses pre post x)
    (hy : Converses pre post y) : Converses pre post fun call => if c then x call else y call := by
  split
  · exact hx
  · exact hy

end Converses

/-- A call back into the engine, and what is made of the answer. -/
theorem converses_call {callee : Value} {args : List Value} {pre : Functions → Prop}
    {post : Functions → α → Prop}
    (finish : EStateM.Result Interrupt Store (List Value) → EStateM.Result Failure Store α)
    (hcallee : ∀ E, pre E → callee.Known E) (hargs : ∀ E, pre E → AllKnown E args)
    (hfinish : ∀ E answer, KnownResult E answer →
      (Dialogue.done (finish answer)).Keeps post E (stateOf answer).scopes) :
    Converses pre post fun call s => finish (call callee args s) := by
  intro s
  refine ⟨.ask callee args s fun answer => .done (finish answer), fun _ => rfl,
    fun E hE hs => ⟨⟨hcallee E hE, hargs E hE, hs, rfl⟩, fun E' answer _ hanswer => ?_⟩⟩
  exact hfinish E' answer hanswer

end ScriptEngine
