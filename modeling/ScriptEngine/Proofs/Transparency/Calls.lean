import ScriptEngine.Proofs.Compilation.Nested
import ScriptEngine.Proofs.Transparency.Declarations
import ScriptEngine.Proofs.Transparency.Natives

/-!
# Calls back in both programs

A native function that calls back into the engine evaluates a function of the program in which it
is called.  In both programs it does the same, whatever is nested in the call.

## Main definitions

* `Twins.Extends` — a pair of programs with more code, or other surroundings.
* `Twins.nested` — both programs, in worlds in which calls back are evaluated.

## Main results

* `nativesSettle_discreet` — what the library does where it tells no places, it does anyway.
* `Twins.simulates_nested` — **evaluations do in the folded program what they do in the plain one**,
  calls back included.
-/

namespace ScriptEngine

/-! ### The library where it tells no places -/

section

variable {limit : Nat} {f g : Reentry}

namespace Library

theorem settles_sortsBefore (h : f.Settles limit g) (comparator lhs rhs : Value) :
    Settles (.interrupt .outOfFuel) (.interrupt (.error (.ranTooLong limit)))
      (sortsBefore f comparator lhs rhs) (sortsBefore g comparator lhs rhs) :=
  .ite (.refl _) (((h comparator [lhs, rhs]).adaptExcept rfl rfl).bind fun _ => .refl _)

theorem settles_sink (h : f.Settles limit g) (comparator v : Value) (sorted : List Value) :
    Settles (.interrupt .outOfFuel) (.interrupt (.error (.ranTooLong limit)))
      (sink (sortsBefore f comparator) v sorted) (sink (sortsBefore g comparator) v sorted) := by
  induction sorted with
  | nil => exact .refl _
  | cons last rest ih =>
    exact (settles_sortsBefore h comparator v last).bind fun _ =>
      .ite (ih.bind fun _ => .refl _) (.refl _)

theorem settles_sortOnto (h : f.Settles limit g) (comparator : Value) (values sorted : List Value) :
    Settles (.interrupt .outOfFuel) (.interrupt (.error (.ranTooLong limit)))
      (sortOnto (sortsBefore f comparator) sorted values)
      (sortOnto (sortsBefore g comparator) sorted values) := by
  induction values generalizing sorted with
  | nil => exact .refl _
  | cons v rest ih => exact (settles_sink h comparator v sorted).bind fun sorted => ih sorted

theorem settles_sort (h : f.Settles limit g) (args : Arguments) :
    Settles (.interrupt .outOfFuel) (.interrupt (.error (.ranTooLong limit))) (sort f args)
      (sort g args) :=
  .bind (.refl _) fun _ => .bind (.refl _) fun _ =>
    ((settles_sortOnto h _ _ []).bind fun _ => .refl _).bind fun _ => .refl _

end Library

/-- What the library does where it tells no places, it does anyway. -/
theorem nativesSettle_discreet (hosts : String → NativeBody) (limit : Nat) :
    NativesSettle limit (discreet (Library.run hosts)) (Library.run hosts) := by
  intro b f g h args
  cases htells : b.tells args with
  | true =>
    rw [discreet, if_pos htells]
    exact .throw_lost _
  | false =>
    rw [discreet, if_neg (by simp [htells])]
    cases b with
    | table function =>
      cases function with
      | sort => exact Library.settles_sort h args
      | _ => exact .refl _
    | host key => cases htells
    | _ => exact .refl _

end

/-! ### Twins with more code or other surroundings -/

namespace Twins

/-- The second pair of programs has all the functions of the first one, in the same places. -/
structure Extends (t u : Twins) : Prop where
  place : u.place = t.place
  plain : ∀ entry f, t.plain.functions.lookup entry = some f →
    u.plain.functions.lookup entry = some f
  folded : ∀ entry f, t.folded.functions.lookup entry = some f →
    u.folded.functions.lookup entry = some f

namespace Extends

variable {t u : Twins} {blocks : Blocks} {s s' : Store}

theorem linked (h : t.Extends u) {places places' : List Nat} {next next' : Nat}
    {fs fs' : List FunctionLiteral} {kept : List Nat}
    (hlinked : t.Linked places places' next next' fs fs' kept) :
    u.Linked places places' next next' fs fs' kept where
  moves := by
    rw [h.place]
    exact hlinked.moves
  plain i f hi := h.plain _ _ (hlinked.plain i f hi)
  folded i f hi := h.folded _ _ (hlinked.folded i f hi)

theorem among (h : t.Extends u) (blocks : Blocks) (size : Nat) :
    (t.Closures blocks size).Among (u.Closures blocks size) := by
  rintro entry captured ⟨f, f', constants, hplain, hfolded, hfolds⟩
  refine ⟨f, f', constants, h.plain _ _ hplain, ?_, hfolds.literal, h.linked hfolds.linked,
    hfolds.safe, hfolds.scene⟩
  rw [h.place]
  exact h.folded _ _ hfolded

theorem arrives (h : t.Extends u) (hat : t.At blocks s s') : u.At blocks s s' where
  alike :=
    { globals := by
        rw [h.place]
        exact hat.alike.globals
      tables := by
        rw [h.place]
        exact hat.alike.tables
      natives := hat.alike.natives
      shown := hat.alike.shown
      size := hat.alike.size
      kept := by
        rw [h.place]
        exact hat.alike.kept
      gone := hat.alike.gone
      binds := hat.alike.binds }
  known := hat.known.mono (h.among _ _)

theorem leads (h : t.Extends u) {top : Option ScopeRef} {blocks₁ : Blocks} {s₁ s₁' : Store}
    (hleads : t.Leads top blocks s blocks₁ s₁ s₁') : u.Leads top blocks s blocks₁ s₁ s₁' :=
  ⟨hleads.grows, h.arrives hleads.arrived⟩

theorem mirrors (h : t.Extends u) {α : Type} {move : α → α} {post goal : Blocks → Store → α → Prop}
    {top : Option ScopeRef} {r r' : EStateM.Result Stop Store α}
    (hmirrors : t.Mirrors move post top blocks s r r')
    (hpost : ∀ blocks s a, post blocks s a → goal blocks s a) :
    u.Mirrors move goal top blocks s r r' :=
  hmirrors.transport (fun _ _ _ => h.leads) fun _ _ _ _ _ ha => hpost _ _ _ ha

end Extends

/-! ### Calls back -/

/-- A program and what it is folded to, where calls back are evaluated, at most `fuel` of them
nested in each other. -/
def nested (place : Nat → Nat) (config config' : Config) (natives : Builtin → NativeBody)
    (functions functions' : FunctionTable) (n fuel : Nat) : Twins :=
  ⟨place, .nested config natives functions n fuel, .nested config' natives functions' n fuel⟩

variable {t : Twins} {place : Nat → Nat} {config config' : Config}
    {functions functions' : FunctionTable}
  {n : Nat}

@[simp] theorem functions_nested (natives : Builtin → NativeBody) (fuel : Nat) :
    (World.nested config natives functions n fuel).functions = functions := by
  rw [World.nested_eq]

/-- How deep calls nest makes no difference to the code. -/
theorem extends_nested (natives : Builtin → NativeBody) (fuel fuel' : Nat) :
    (nested place config config' natives functions functions' n fuel).Extends
      (nested place config config' natives functions functions' n fuel') := by
  refine ⟨rfl, fun entry f h => ?_, fun entry f h => ?_⟩
  all_goals
    simp only [nested, functions_nested] at h ⊢
    exact h

/-- What counts as out of fuel says nothing, as what is undecided does. -/
theorem Mirrors.answer {move : List Value → List Value} {post : Blocks → Store → List Value → Prop}
    {top : Option ScopeRef} {blocks : Blocks} {s s' : Store} {x x' : Eval (List Value)}
    (h : t.Mirrors move post top blocks s (x s) (x' s')) :
    t.Mirrors move post top blocks s
      (Eval.answer (EStateM.adaptExcept Stop.interrupt x) s)
      (Eval.answer (EStateM.adaptExcept Stop.interrupt x') s') := by
  rw [Eval.answer, Eval.answer, EStateM.adaptExcept, EStateM.adaptExcept, EStateM.adaptExcept,
    EStateM.adaptExcept]
  cases hx : x s with
  | ok a s₁ =>
    rw [hx] at h
    obtain ⟨blocks₁, s₁', hr', hleads, ha⟩ := h
    rw [hr']
    exact ⟨blocks₁, s₁', rfl, hleads, ha⟩
  | error e s₁ =>
    rw [hx] at h
    rcases e with _ | e | _
    · trivial
    · obtain ⟨blocks₁, s₁', hr', hleads⟩ := h
      rw [hr']
      exact ⟨blocks₁, s₁', rfl, hleads⟩
    · trivial

/-- Calls back that are evaluated do the same in both programs. -/
theorem answers_evalBack (ih : t.Simulates n) (position : Position) (depth : Nat) :
    t.Answers (t.plain.evalBack n position depth) (t.folded.evalBack n position depth) := by
  intro blocks s s' callee args hat hcallee hargs
  cases callee with
  | function entry captured =>
    refine .answer (.newScope hat (b := Block.plain) rfl fun s₁' hleads => ?_)
    have hknown : t.KnownValue _ _ _ := KnownValue.leads hcallee hleads
    exact (ih.call (Nat.le_refl n) hleads.arrived hknown (hargs.leads hleads)).of_none
  | _ => exact .answer (ih.call (Nat.le_refl n) hat hcallee hargs)

/-- **Evaluations do in the folded program what they do in the plain one**, calls back included. -/
theorem simulates_nested (hplace : Function.Injective place)
    (hdepth : config'.maxCallDepth = config.maxCallDepth) (hosts : String → NativeBody)
    (fuel : Nat) :
    (nested place config config' (discreet (Library.run hosts)) functions functions' n
      fuel).Simulates n := by
  -- What a call back does is told by the worlds with one nesting less.
  induction fuel with
  | zero =>
    refine simulates ⟨hplace, hdepth, fun position depth f _ _ _ _ hat hargs => ?_⟩ n
    have hcall : (nested place config config' (discreet (Library.run hosts)) functions functions' n
        0).Answers (fun _ _ => throw .outOfFuel) (fun _ _ => throw .outOfFuel) :=
      fun _ _ _ => trivial
    rw [evalNative_eq, evalNative_eq]
    exact Mirrors.native hcall hosts f.body hat hargs
  | succ fuel ih =>
    let t :=
      nested place config config' (discreet (Library.run hosts)) functions functions' n (fuel + 1)
    have hinner : t.Extends _ := extends_nested _ _ fuel
    have houter : Extends _ t := extends_nested _ fuel _
    refine simulates ⟨hplace, hdepth, fun position depth f _ _ _ _ hat hargs => ?_⟩ n
    rw [evalNative_eq, evalNative_eq]
    refine Mirrors.native (fun hat hcallee hargs => ?_) hosts f.body hat hargs
    have hback := answers_evalBack ih position depth (hinner.arrives hat)
      (hcallee.mono (hinner.among _ _)) (hargs.mono (hinner.among _ _))
    exact houter.mirrors hback fun blocks s vs hvs => AllKnown.mono (houter.among _ _) hvs

end Twins

end ScriptEngine
