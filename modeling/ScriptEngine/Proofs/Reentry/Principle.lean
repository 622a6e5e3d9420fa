import ScriptEngine.Proofs.Reentry.Activity

/-!
# A principle for all that happens

Native functions make up no functions and do not change scopes by themselves.  What
is true of the functions around, and of how scopes change, therefore has to be shown
for the other instructions only; then it is true of every step, of every call into the
engine, and of all that happens in their course.

## Main definitions

* `Activity.Known` — an activity with known functions only.
* `Setting.Sustains` — what is said of activities is kept by what they lead to, and
  every instruction makes known functions and changes scopes in a way.

## Main results

* `Setting.Sustains.step`, `Setting.Sustains.call` — then so does every step, and every
  call into the engine.
* `Setting.Sustains.happens` — what is said of an activity is true of all that happens in
  its course.
-/

namespace ScriptEngine

open Exec

/-! ### Known functions -/

/-- A state whose functions are known. -/
def State.Known (E : Functions) (st : State) : Prop :=
  AllKnown E st.machine.stack ∧ st.store.Known E

/-- What instructions and steps leave: the scopes are as `R` says, and the functions
known.  Which functions are known depends on the scopes that there are. -/
def Sustained {ε α : Type} (R : Array Bindings → Array Bindings → Prop)
    (E : Array Bindings → Functions) (scopes : Array Bindings) : EStateM.Result ε State α → Prop
  | .ok _ st => R scopes st.store.scopes ∧ st.Known (E st.store.scopes)
  | .error _ st => R scopes st.store.scopes ∧ st.store.Known (E st.store.scopes)

/-- An activity whose functions are known. -/
def Activity.Known (E : Array Bindings → Functions) : Activity → Prop
  | .running _ _ _ st => st.Known (E st.store.scopes)
  | .calling _ _ _ _ _ callee args s =>
    callee.Known (E s.scopes) ∧ AllKnown (E s.scopes) args ∧ s.Known (E s.scopes)

/-- The scopes that there are in an activity. -/
def Activity.scopes : Activity → Array Bindings
  | .running _ _ _ st => st.store.scopes
  | .calling _ _ _ _ _ _ _ s => s.scopes

/-- What a conversation leaves: its scopes are as `R` says, and its functions known. -/
def Ends {α : Type} (R : Array Bindings → Array Bindings → Prop) (E : Array Bindings → Functions)
    (post : Functions → α → Prop) (scopes : Array Bindings) :
    EStateM.Result Failure Store α → Prop
  | .ok a s => R scopes s.scopes ∧ s.Known (E s.scopes) ∧ post (E s.scopes) a
  | .error e s => R scopes s.scopes ∧ s.Known (E s.scopes) ∧ e.isCheck = false

/-- What a call into the engine leaves. -/
def Answers (R : Array Bindings → Array Bindings → Prop) (E : Array Bindings → Functions)
    (scopes : Array Bindings) (answer : EStateM.Result Interrupt Store (List Value)) : Prop :=
  R scopes (stateOf answer).scopes ∧ KnownResult (E (stateOf answer).scopes) answer

section Conversations

variable {α : Type} {post : Functions → α → Prop} {d : Dialogue α}
  {R : Array Bindings → Array Bindings → Prop} {E : Array Bindings → Functions} {call : Reentry}
  {scopes : Array Bindings}

/-- A conversation makes up no functions, and changes scopes only by the calls it
makes. -/
theorem Dialogue.ends (hrefl : ∀ b, R b b) (htrans : ∀ a b c, R a b → R b c → R a c)
    (hamong : ∀ a b, R a b → (E a).Among (E b)) (hd : d.Keeps post (E scopes) scopes)
    (hcall : ∀ callee args s, d.Makes call callee args s → R scopes s.scopes →
      callee.Known (E s.scopes) ∧ AllKnown (E s.scopes) args ∧ s.Known (E s.scopes) →
      Answers R E s.scopes (call callee args s)) :
    Ends R E post scopes (d.run call) := by
  induction d generalizing scopes with
  | done result =>
    cases result with
    | ok a s =>
      obtain ⟨ha, hs, rfl⟩ := hd
      exact ⟨hrefl _, hs, ha⟩
    | error e s =>
      obtain ⟨he, hs, rfl⟩ := hd
      exact ⟨hrefl _, hs, he⟩
  | ask callee args s next ih =>
    obtain ⟨⟨hcallee, hargs, hs, rfl⟩, hnext⟩ := hd
    obtain ⟨hR, hknown⟩ := hcall callee args s .first (hrefl _) ⟨hcallee, hargs, hs⟩
    have hrest := ih _ (hnext _ _ (hamong _ _ hR) hknown) fun c a t hmakes hR' =>
      hcall c a t (.later hmakes) (htrans _ _ _ hR hR')
    rw [run]
    generalize (next (call callee args s)).run call = result at hrest
    cases result with
    | ok a s' => exact ⟨htrans _ _ _ hR hrest.1, hrest.2⟩
    | error e s' => exact ⟨htrans _ _ _ hR hrest.1, hrest.2⟩

/-- The calls of a conversation are made with known functions. -/
theorem Dialogue.known_of_makes (hrefl : ∀ b, R b b) (htrans : ∀ a b c, R a b → R b c → R a c)
    (hamong : ∀ a b, R a b → (E a).Among (E b)) (hd : d.Keeps post (E scopes) scopes)
    (hcall : ∀ callee args s, d.Makes call callee args s → R scopes s.scopes →
      callee.Known (E s.scopes) ∧ AllKnown (E s.scopes) args ∧ s.Known (E s.scopes) →
      Answers R E s.scopes (call callee args s))
    {callee : Value} {args : List Value} {s : Store} (h : d.Makes call callee args s) :
    R scopes s.scopes ∧ callee.Known (E s.scopes) ∧ AllKnown (E s.scopes) args ∧
      s.Known (E s.scopes) := by
  induction h generalizing scopes with
  | first =>
    obtain ⟨⟨hcallee, hargs, hs, rfl⟩, -⟩ := hd
    exact ⟨hrefl _, hcallee, hargs, hs⟩
  | later hmakes ih =>
    obtain ⟨⟨hcallee, hargs, hs, rfl⟩, hnext⟩ := hd
    obtain ⟨hR, hknown⟩ := hcall _ _ _ .first (hrefl _) ⟨hcallee, hargs, hs⟩
    obtain ⟨hR', hmade⟩ := ih (hnext _ _ (hamong _ _ hR) hknown) fun c a t hmakes hR' =>
      hcall c a t (.later hmakes) (htrans _ _ _ hR hR')
    exact ⟨htrans _ _ _ hR hR', hmade⟩

end Conversations

/-! ### Steps and calls -/

namespace Setting

variable {setting : Setting} {talk : Talk} {I : Activity → Prop}
  {R : Array Bindings → Array Bindings → Prop} {E : Array Bindings → Functions}

/-- What `I` says of activities implies that their functions are known, and is kept by all
that they lead to.  Every instruction, those that call native functions apart, changes
scopes as `R` says and makes functions that `E` knows; so does opening a scope. -/
structure Sustains (setting : Setting) (talk : Talk) (I : Activity → Prop)
    (R : Array Bindings → Array Bindings → Prop) (E : Array Bindings → Functions) : Prop where
  refl : ∀ a, R a a
  trans : ∀ a b c, R a b → R b c → R a c
  among : ∀ a b, R a b → (E a).Among (E b)
  newScope : ∀ s : Store, R s.scopes s.newScope.2.scopes
  known : ∀ a, I a → a.Known E
  leads : ∀ a b, I a → setting.Leads talk a b → R a.scopes b.scopes → b.Known E → I b
  instruction : ∀ {waiting : List Machine} {fuel : Nat} {trace : Bool} {st : State} {op : Op},
    I (.running waiting fuel trace st) → setting.program.code[st.machine.ip]? = some op →
    (∀ i f, st.machine.past.invocation? op = some i → i.callee ≠ .native f) →
    ∀ reenter, Sustained R E st.store.scopes
      (setting.execute reenter op ⟨st.machine.past, announced trace op st⟩)

theorem scopes_announced (trace : Bool) (op : Op) (st : State) :
    (announced trace op st).scopes = st.store.scopes := by
  cases trace <;> rfl

theorem scopes_recorded (trace : Bool) (st : State) :
    (recorded trace st).scopes = st.store.scopes := by
  cases trace <;> rfl

theorem known_announced {E : Functions} {trace : Bool} {op : Op} {st : State}
    (h : st.store.Known E) : (announced trace op st).Known E := by
  cases trace
  · exact h
  · exact h.emit _

theorem known_recorded {E : Functions} {trace : Bool} {st : State} (h : st.store.Known E) :
    (recorded trace st).Known E := by
  cases trace
  · exact h
  · exact h.emit _

theorem step_of_none {call : Position → Nat → Reentry} {trace : Bool} {st : State}
    (hop : setting.program.code[st.machine.ip]? = none) :
    setting.step call trace st = .ok () st := by
  obtain ⟨m, s⟩ := st
  have hop' : setting.program.code[m.ip]? = none := hop
  simp only [step, hop']

/-- The call of a function on a machine of its own. -/
theorem callValue_calleeMachine (setting : Setting) (reenter : Reentry) (scope : ScopeRef)
    (depth : Nat) (callee : Value) (args : List Value) (s : Store) :
    setting.callValue reenter callee args.length none ⟨setting.calleeMachine scope depth args, s⟩ =
      setting.invoke reenter ⟨callee, args, [], none⟩
        (setting.calleeMachine scope depth args) s := by
  rw [← callValue_eq_invoke]
  simp only [List.append_nil]
  rfl

/-- A call of a script function is that of its machine. -/
theorem callFunction_eq (call : Position → Nat → Reentry) (position : Position) (depth : Nat)
    (callee : Value) (args : List Value) (s : Store) :
    setting.callFunction call position depth callee args s =
      match setting.invoke (call position (depth + 1)) ⟨callee, args, [], none⟩
        (setting.calleeMachine s.newScope.1 depth args) s.newScope.2 with
      | .error e ⟨_, s⟩ => .error (e.located position) s
      | .ok _ st =>
        match setting.runSteps call false setting.config.stepLimit st with
        | .error e ⟨_, s⟩ => .error e s
        | .ok halted ⟨m, s⟩ =>
          if halted then .ok m.stack.reverse s
          else .error (.error (.ranTooLong setting.config.stepLimit)) s := by
  rw [← callValue_calleeMachine]
  rfl

/-- The values of a call are those of the stack. -/
theorem known_invocation {E : Functions} {m : Machine} {op : Op} {i : Invocation}
    (hi : m.invocation? op = some i) (hm : AllKnown E m.stack) :
    i.callee.Known E ∧ AllKnown E i.args ∧ AllKnown E i.rest := by
  unfold Machine.invocation? at hi
  split at hi
  · next x callee rest hcode hstack =>
    split at hi
    · obtain rfl := Option.some.inj hi
      rw [hstack] at hm
      have hrest : AllKnown E rest := fun v hv => hm v (by simp [hv])
      refine ⟨hm _ (by simp), ?_, hrest.of_subset (List.drop_subset _ _)⟩
      exact hrest.of_subset (List.reverse_subset.2 (List.take_subset _ _))
    · cases hi
  · next control state iterator rest hcode hstack =>
    obtain rfl := Option.some.inj hi
    rw [hstack] at hm
    exact ⟨hm _ (by simp), .cons (hm _ (by simp)) (.singleton (hm _ (by simp))), hm⟩
  · cases hi

/-- A step leaves what its instruction leaves. -/
theorem sustained_step {call : Position → Nat → Reentry} {trace : Bool} {st : State} {op : Op}
    (hop : setting.program.code[st.machine.ip]? = some op) {scopes : Array Bindings}
    (h : Sustained R E scopes (setting.execute (call op.position st.machine.depth) op
      ⟨st.machine.past, announced trace op st⟩)) :
    Sustained R E scopes (setting.step call trace st) := by
  rw [step_eq_execute hop]
  revert h
  cases setting.execute (call op.position st.machine.depth) op
      ⟨st.machine.past, announced trace op st⟩ with
  | error e st' => exact id
  | ok u st' =>
    intro h
    have hscopes := scopes_recorded trace st'
    refine ⟨?_, ?_, ?_⟩
    · exact hscopes ▸ h.1
    · exact hscopes ▸ h.2.1
    · exact known_recorded (hscopes ▸ h.2.2)

namespace Sustains

variable (h : setting.Sustains talk I R E) (honest : Honest setting.natives talk)
include h

/-- Entering a function. -/
theorem entered {m : Machine} {i : Invocation} {s : Store} (entry : Nat) (captured : List ScopeRef)
    (hargs : AllKnown (E s.scopes) i.args) (hrest : AllKnown (E s.scopes) i.rest)
    (hs : s.Known (E s.scopes)) :
    State.Known (E s.newScope.2.scopes)
      ⟨m.entered i entry captured s.newScope.1, s.newScope.2⟩ := by
  have hamong := h.among _ _ (h.newScope s)
  refine ⟨.mono hamong (.cons trivial (.append ?_ hrest)), hs.newScope.mono hamong⟩
  exact hargs.of_subset (List.reverse_subset.2 fun _ => id)

/-- A run, if every step in it leaves known functions. -/
theorem run_of_steps {caller : Machine} {waiting : List Machine} {fuel : Nat}
    (hstep : ∀ st, I (.running (caller :: waiting) fuel false st) →
      Sustained R E st.store.scopes (setting.step (setting.callFrom fuel) false st))
    (n : Nat) {st : State} (hst : I (.running (caller :: waiting) fuel false st)) :
    Sustained R E st.store.scopes (setting.runSteps (setting.callFrom fuel) false n st) := by
  have hknown : st.Known (E st.store.scopes) := h.known _ hst
  induction n generalizing st with
  | zero => exact ⟨h.refl _, hknown⟩
  | succ n ih =>
    rw [runSteps]
    by_cases hhalted : setting.halted st.machine = true
    · simp only [if_pos hhalted]
      exact ⟨h.refl _, hknown⟩
    · simp only [if_neg hhalted]
      have hone := hstep st hst
      cases hresult : setting.step (setting.callFrom fuel) false st with
      | error e st' =>
        rw [hresult] at hone
        exact hone
      | ok u st' =>
        rw [hresult] at hone
        have hrest := ih (h.leads _ _ hst (.step hresult) hone.1 hone.2) hone.2
        dsimp only
        generalize setting.runSteps (setting.callFrom fuel) false n st' = result at hrest
        cases result with
        | ok halted st'' => exact ⟨h.trans _ _ _ hone.1 hrest.1, hrest.2⟩
        | error e st'' => exact ⟨h.trans _ _ _ hone.1 hrest.1, hrest.2⟩

/-- A script function on a machine of its own, if its runs leave known functions. -/
theorem function_of_runs {caller : Machine} {waiting : List Machine} {fuel : Nat}
    {position : Position} {depth : Nat} {entry : Nat} {captured : List ScopeRef}
    {args : List Value} {s : Store}
    (hcalling :
      I (.calling caller waiting (fuel + 1) position depth (.function entry captured) args s))
    (hrun : ∀ st, I (.running (caller :: waiting) fuel false st) → Sustained R E st.store.scopes
      (setting.runSteps (setting.callFrom fuel) false setting.config.stepLimit st)) :
    Answers R E s.scopes (setting.callFunction (setting.callFrom fuel) position depth
      (.function entry captured) args s) := by
  obtain ⟨-, hargs, hs⟩ := h.known _ hcalling
  have hR := h.newScope s
  have hopen : s.newScope.2.Known (E s.newScope.2.scopes) := hs.newScope.mono (h.among _ _ hR)
  rw [callFunction_eq]
  have hinvoke := setting.callValue_calleeMachine (setting.callFrom fuel position (depth + 1))
    s.newScope.1 depth (.function entry captured) args s.newScope.2
  by_cases hdepth : setting.config.maxCallDepth ≤
      (setting.calleeMachine s.newScope.1 depth args).depth
  · simp only [invoke, if_pos hdepth]
    exact ⟨hR, hopen⟩
  · simp only [invoke, if_neg hdepth] at hinvoke ⊢
    have hentered := h.entered (m := setting.calleeMachine s.newScope.1 depth args)
      (i := ⟨.function entry captured, args, [], none⟩) entry captured
      (hargs.mono (h.among _ _ hR)) .nil hopen
    have hR' := h.trans _ _ _ hR (h.newScope s.newScope.2)
    have hsustained := hrun _ (h.leads _ _ hcalling (.enter hinvoke) hR' hentered)
    generalize setting.runSteps _ _ _ _ = result at hsustained
    cases result with
    | error e st => exact ⟨h.trans _ _ _ hR' hsustained.1, hsustained.2⟩
    | ok halted st =>
      have hR'' := h.trans _ _ _ hR' hsustained.1
      cases halted with
      | false => exact ⟨hR'', hsustained.2.2⟩
      | true =>
        exact ⟨hR'', hsustained.2.1.of_subset (List.reverse_subset.2 fun _ => id), hsustained.2.2⟩

include honest

/-- A native function whose calls back leave known functions. -/
theorem native {f : Native} {args : List Value} {s : Store} {call : Reentry}
    (hargs : AllKnown (E s.scopes) args) (hs : s.Known (E s.scopes))
    (hcall : ∀ callee args' s', (talk f.body args s).Makes call callee args' s' →
      R s.scopes s'.scopes →
      callee.Known (E s'.scopes) ∧ AllKnown (E s'.scopes) args' ∧ s'.Known (E s'.scopes) →
      Answers R E s'.scopes (call callee args' s')) :
    Ends R E AllKnown s.scopes (setting.natives f.body call args s) := by
  rw [honest.runs]
  exact Dialogue.ends h.refl h.trans h.among (honest.keeps _ _ _ _ hargs hs) hcall

/-- A step, if the calls into the engine that happen in it leave known functions. -/
theorem step_of_calls {waiting : List Machine} {fuel : Nat} {trace : Bool} {st : State}
    (hst : I (.running waiting fuel trace st))
    (hcall : ∀ position depth callee args s,
      I (.calling st.machine waiting fuel position depth callee args s) →
      Answers R E s.scopes (setting.callFrom fuel position depth callee args s)) :
    Sustained R E st.store.scopes (setting.step (setting.callFrom fuel) trace st) := by
  have hknown : st.Known (E st.store.scopes) := h.known _ hst
  cases hop : setting.program.code[st.machine.ip]? with
  | none =>
    rw [step_of_none hop]
    exact ⟨h.refl _, hknown⟩
  | some op =>
    refine sustained_step hop ?_
    by_cases hnative : ∃ i f, st.machine.past.invocation? op = some i ∧ i.callee = .native f
    · obtain ⟨i, f, hi, hf⟩ := hnative
      obtain ⟨-, hargs, hrest⟩ := known_invocation hi hknown.1
      have hscopes := scopes_announced trace op st
      have hends : Ends R E AllKnown (announced trace op st).scopes (setting.natives f.body
          (setting.callFrom fuel op.position st.machine.depth) i.args (announced trace op st)) := by
        refine h.native honest (hscopes ▸ hargs) (hscopes ▸ known_announced hknown.2) ?_
        intro callee args s hmakes hR hmade
        rw [hscopes] at hR
        exact hcall _ _ _ _ _ (h.leads _ _ hst (.invoke hop hi hf hmakes) hR hmade)
      rw [hscopes] at hends
      rw [execute_of_invocation hi, invoke, hf]
      dsimp only
      generalize setting.natives f.body _ i.args (announced trace op st) = result at hends
      cases result with
      | error e s => exact ⟨hends.1, hends.2.1⟩
      | ok results s =>
        refine ⟨hends.1, ?_, hends.2.1⟩
        refine .append ?_ (hrest.mono (h.among _ _ hends.1))
        exact (hends.2.2.adjustTo i.want).of_subset (List.reverse_subset.2 fun _ => id)
    · exact h.instruction hst hop (fun i f hi hf => hnative ⟨i, f, hi, hf⟩) _

/-- **Every call into the engine leaves known functions.** -/
theorem call {caller : Machine} {waiting : List Machine} {fuel : Nat} {position : Position}
    {depth : Nat} {callee : Value} {args : List Value} {s : Store}
    (hcalling : I (.calling caller waiting fuel position depth callee args s)) :
    Answers R E s.scopes (setting.callFrom fuel position depth callee args s) := by
  -- The fuel bounds how deep calls into the engine are nested.
  induction fuel generalizing caller waiting position depth callee args s with
  | zero => exact ⟨h.refl _, (h.known _ hcalling).2.2⟩
  | succ fuel ih =>
    obtain ⟨-, hargs, hs⟩ := h.known _ hcalling
    cases callee with
    | native f =>
      have hends : Ends R E AllKnown s.scopes
          (setting.natives f.body (setting.callFrom fuel position depth) args s) := by
        refine h.native honest hargs hs fun callee args' s' hmakes hR hmade => ?_
        exact ih (h.leads _ _ hcalling (.native hmakes) hR hmade)
      rw [callFrom, EStateM.adaptExcept]
      generalize setting.natives f.body _ args s = result at hends
      cases result with
      | ok results s' => exact ⟨hends.1, hends.2.2, hends.2.1⟩
      | error e s' => exact ⟨hends.1, hends.2.1⟩
    | function entry captured =>
      rw [callFrom]
      refine h.function_of_runs hcalling fun st hst => ?_
      refine h.run_of_steps (fun st hst => ?_) _ hst
      exact h.step_of_calls honest hst fun _ _ _ _ _ hcalling => ih hcalling
    | _ => exact ⟨h.refl _, hs⟩

/-- **Every step leaves known functions.** -/
theorem step {waiting : List Machine} {fuel : Nat} {trace : Bool} {st : State}
    (hst : I (.running waiting fuel trace st)) :
    Sustained R E st.store.scopes (setting.step (setting.callFrom fuel) trace st) :=
  h.step_of_calls honest hst fun _ _ _ _ _ hcalling => h.call honest hcalling

/-- What an activity leads to has known functions. -/
theorem known_of_leads {a b : Activity} (ha : I a) (hleads : setting.Leads talk a b) :
    R a.scopes b.scopes ∧ b.Known E := by
  have hknown := h.known a ha
  cases hleads with
  | @step caller waiting fuel st st' hstep =>
    have hsustained := h.step honest ha
    rw [hstep] at hsustained
    exact hsustained
  | @invoke waiting fuel trace st op i f callee args s hop hi hf hmakes =>
    obtain ⟨-, hargs, -⟩ := known_invocation hi hknown.1
    have hscopes := scopes_announced trace op st
    have hmade : R (announced trace op st).scopes s.scopes ∧ callee.Known (E s.scopes) ∧
        AllKnown (E s.scopes) args ∧ s.Known (E s.scopes) := by
      refine Dialogue.known_of_makes h.refl h.trans h.among (honest.keeps f.body i.args _ _
        (hscopes ▸ hargs) (hscopes ▸ known_announced hknown.2)) ?_ hmakes
      intro callee args s hmakes hR hmade
      rw [hscopes] at hR
      exact h.call honest (h.leads _ _ ha (.invoke hop hi hf hmakes) hR hmade)
    rw [hscopes] at hmade
    exact hmade
  | @enter caller waiting fuel position depth entry captured args s st hcall =>
    rw [callValue_calleeMachine, invoke] at hcall
    dsimp only at hcall
    split at hcall
    · cases hcall
    · cases hcall
      have hamong := h.among _ _ (h.newScope s)
      refine ⟨h.trans _ _ _ (h.newScope s) (h.newScope s.newScope.2), ?_⟩
      exact h.entered entry captured (hknown.2.1.mono hamong) .nil (hknown.2.2.newScope.mono hamong)
  | @native caller waiting fuel position depth f args args' callee s s' hmakes =>
    refine Dialogue.known_of_makes h.refl h.trans h.among
      (honest.keeps f.body args s _ hknown.2.1 hknown.2.2) ?_ hmakes
    intro callee args s hmakes hR hmade
    exact h.call honest (h.leads _ _ ha (.native hmakes) hR hmade)

/-- **What is said of an activity is true of all that happens in its course.** -/
theorem happens {a b : Activity} (ha : I a) (hb : setting.Happens talk a b) :
    I b ∧ R a.scopes b.scopes := by
  induction hb with
  | refl => exact ⟨ha, h.refl _⟩
  | tail _ hleads ih =>
    obtain ⟨hR, hknown⟩ := h.known_of_leads honest ih.1 hleads
    exact ⟨h.leads _ _ ih.1 hleads hR hknown, h.trans _ _ _ ih.2 hR⟩

end Sustains

end Setting

end ScriptEngine
