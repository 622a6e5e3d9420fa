import ScriptEngine.Proofs.Compilation.Placement
import ScriptEngine.Proofs.Nesting.Fuel
import ScriptEngine.Proofs.Reentry.Growth

/-!
# Texts that are loaded later

A text that is loaded into an engine goes behind those before it, and leaves alone what has come
about in the engine until then: the instructions of earlier texts, the variables of the top level,
and all else in the store.  The functions of earlier texts still do the same when a host calls
them.

## Main definitions

* `Engine.Retains` — an engine has what another one had.
* `Engine.outcome` — the outcome of a call by a host, behind what was put out before.
* `Engine.CallsAlike` — calls of functions of the first of two engines have the same outcome in
  both.

## Main results

* `Engine.History.outerDepth_eq_zero` — no calls are open outside of the machine of an engine.
* `Engine.retains_of_load`, `Engine.callsAlike_of_load` — what loading a text leaves alone.
* `Engine.undisturbed_by_load` — later texts do not disturb earlier ones.
-/

namespace ScriptEngine

open Exec

theorem Store.foldl_emit (records : List Event) (s : Store) :
    records.foldl emit s = { s with output := s.output ++ records.toArray } := by
  induction records generalizing s with
  | nil => simp
  | cons event rest ih => simp [ih, emit]

namespace Engine

variable {e e' : Engine} {config : Config} {natives : Builtin → NativeBody} {talk : Talk}
  {store : Store} {past : Set Activity} {source : String}

/-! ### What stays -/

/-- An engine has what another one had.  The instructions of the program are where they were, and
functions have the bodies they had; the top level has its scope, where a program begins; and but
for what has been put out the store is the same, so that variables are found, by the program and
by all functions, in the scopes where they were. -/
structure Retains (e e' : Engine) : Prop where
  program : e.setting.Grows e'.setting
  bodies : ∀ {entry : Nat} {f : PlacedFunction}, e.setting.program.HoldsFunction entry f →
    e'.setting.program.HoldsFunction entry f
  root : e'.setting.root = e.setting.root
  reach : Exec.reach e'.machine = [e.setting.root]
  store : ∃ records, e'.store = { e.store with output := e.store.output ++ records }
  found : ∀ name refs, findScope e'.store name refs = findScope e.store name refs

theorem retains_of_load (h : load source e = .ok () e') : e.Retains e' := by
  obtain ⟨chunk, records, -, rfl⟩ := of_load_ok h
  have hstore : records.foldl Store.emit e.store =
      { e.store with output := e.store.output ++ records.toArray } :=
        Store.foldl_emit records e.store
  refine ⟨⟨rfl, rfl, Program.getElem?_extend_of_some _ _⟩, fun h => h.extend chunk, rfl, rfl,
    ⟨_, hstore⟩, fun name refs => ?_⟩
  refine findScope_congr ?_ name refs
  change (records.foldl Store.emit e.store).scopes = _
  rw [hstore]

/-- A text that cannot be loaded changes nothing. -/
theorem eq_of_load_error {i : Interrupt} (h : load source e = .error i e') : e' = e := by
  rw [load] at h
  cases hparse : parse source with
  | error err =>
    rw [hparse] at h
    cases h
    rfl
  | ok chunk =>
    rw [hparse] at h
    cases h

/-! ### Calls of a host -/

/-- The outcome of a call by a host, when what the call puts out goes behind what was put out
before. -/
def outcome (e : Engine) :
    EStateM.Result Interrupt Store (List Value) → EStateM.Result Interrupt Engine (List Value)
  | .ok results s => .ok results { e with store := s.behind e.store.output }
  | .error i s => .error i { e with store := s.behind e.store.output }

theorem call_eq_outcome {fuel : Nat} {callee : Value} {args : List Value}
    {answer : EStateM.Result Interrupt Store (List Value)}
    (h : e.setting.callFrom fuel e.position e.machine.depth callee args e.store =
      mapState (Store.behind e.store.output) answer) :
    call fuel callee args e = e.outcome answer := by
  obtain ⟨setting, machine, store, fault⟩ := e
  rw [call]
  dsimp only at h ⊢
  rw [h]
  cases answer <;> rfl

/-- Calls of functions of the first of two engines have the same outcome in both: the same results
or error, and the same store but for what was put out before.  Where not even a single call may be
open besides that of the host, all calls fail, and the error carries the place of the instruction
that was executed last. -/
structure CallsAlike (e e' : Engine) : Prop where
  same : 2 ≤ e.setting.config.maxCallDepth → ∀ {fuel entry : Nat} {captured : List ScopeRef}
    {args : List Value}, e.setting.program.pushes entry captured →
    AllKnown e.setting.program.pushes args →
    ∃ answer, call fuel (.function entry captured) args e = e.outcome answer ∧
      call fuel (.function entry captured) args e' = e'.outcome answer
  overflow : e.setting.config.maxCallDepth ≤ 1 → ∀ {fuel entry : Nat} {captured : List ScopeRef}
    {args : List Value}, ∃ s,
    call (fuel + 1) (.function entry captured) args e =
        e.outcome (.error (.error (.runtime .stackOverflow e.position)) s) ∧
      call (fuel + 1) (.function entry captured) args e' =
        e'.outcome (.error (.error (.runtime .stackOverflow e'.position)) s)

/-- No calls are open outside of the machine of an engine. -/
theorem History.outerDepth_eq_zero (h : History config natives talk store e past) :
    e.machine.outerDepth = 0 := by
  induction h with
  | new => rfl
  | load _ hload _ =>
    obtain ⟨chunk, records, -, rfl⟩ := of_load_ok hload
    rfl
  | reset _ hreset _ =>
    cases hreset
    rfl
  | define _ hdefine ih =>
    cases hdefine
    exact ih
  | setGlobal _ _ hset ih =>
    cases hset
    exact ih
  | declare _ _ hdeclare ih =>
    cases hdeclare
    exact ih
  | step _ hstep ih =>
    obtain ⟨-, st, hrun, rfl⟩ := of_step_ok hstep
    exact (Setting.outerDepth_step hrun).trans ih
  | fail _ hfault hstep ih =>
    obtain ⟨st, hrun, rfl⟩ := of_step_error hfault hstep
    exact (Setting.outerDepth_of_step_error hrun).trans ih
  | call _ _ _ ih =>
    rw [stateOf_call]
    exact ih

/-- What there is in two engines, if the second one has what the first one had, is the same but for
what has been put out. -/
theorem Retains.exists_store (h : e.Retains e') :
    ∃ s : Store, e.store = s.behind e.store.output ∧ e'.store = s.behind e'.store.output := by
  obtain ⟨records, hrecords⟩ := h.store
  refine ⟨{ e.store with output := #[] }, ?_, ?_⟩
  · simp [Store.behind]
  · simp [Store.behind, hrecords]

/-- **Calls of functions have the same outcome when a text has been loaded.** -/
theorem callsAlike_of_load (honest : Honest natives talk) (indifferent : Indifferent natives)
    (hstore : store.Known fun _ _ => False) (h : History config natives talk store e past)
    (hframes : e.machine.frames = []) (hload : load source e = .ok () e') : e.CallsAlike e' := by
  have hretains := retains_of_load hload
  have hdepth : e.machine.depth = 0 := by
    rw [Machine.depth, h.outerDepth_eq_zero, hframes, List.length_nil]
  have hdepth' : e'.machine.depth = 0 := by
    obtain ⟨chunk, records, -, rfl⟩ := of_load_ok hload
    rfl
  obtain ⟨site, hsited⟩ := h.exists_sited
  obtain ⟨s, hs, hs'⟩ := hretains.exists_store
  have hknown : s.Known e.setting.program.pushes := by
    have hstored := (h.pushed honest hstore).store
    rw [hs] at hstored
    exact ⟨hstored.globals, hstored.tables, hstored.scopes⟩
  rw [← h.natives_eq] at honest indifferent
  refine ⟨fun hmax fuel entry captured args hcallee hargs => ?_,
    fun hmax fuel entry captured args => ?_⟩
  · have hopen : ¬ e'.setting.config.maxCallDepth ≤ 0 + 1 := by
      rw [hretains.program.config]
      omega
    have hfunction : (Value.function entry captured).Known e.setting.program.pushes := hcallee
    -- The call on the part of the store that both engines have, and with nothing put out before.
    let answer := e.setting.callFrom fuel e.position 0 (.function entry captured) args s
    have hcall : e.setting.callFrom fuel e.position e.machine.depth (.function entry captured) args
        e.store = mapState (Store.behind e.store.output) answer := by
      have hagrees :=
        (Setting.Grows.refl e.setting).agrees honest indifferent hsited fuel e.position 0
      rw [← hagrees.eq e.store.output hfunction hargs hknown, ← hs, hdepth]
    have hcall' : e'.setting.callFrom fuel e'.position e'.machine.depth (.function entry captured)
        args e'.store = mapState (Store.behind e'.store.output) answer := by
      have hagrees := hretains.program.agrees honest indifferent hsited fuel e.position 0
      rw [← hagrees.eq e'.store.output hfunction hargs hknown, ← hs', hdepth',
        Setting.callFrom_position e'.position e.position hopen]
    exact ⟨answer, call_eq_outcome hcall, call_eq_outcome hcall'⟩
  · have hmax' : e'.setting.config.maxCallDepth ≤ 0 + 1 := by
      rw [hretains.program.config]
      exact hmax
    have hscope : e.store.newScope.2 = s.newScope.2.behind e.store.output :=
      congrArg (fun t : Store => t.newScope.2) hs
    have hscope' : e'.store.newScope.2 = s.newScope.2.behind e'.store.output :=
      congrArg (fun t : Store => t.newScope.2) hs'
    refine ⟨s.newScope.2, call_eq_outcome ?_, call_eq_outcome ?_⟩
    · rw [hdepth, Setting.callFrom_overflow hmax, hscope, mapState]
    · rw [hdepth', Setting.callFrom_overflow hmax', hscope', mapState]

/-- **Texts that are loaded later do not disturb earlier ones.**  A text that cannot be loaded
changes nothing at all. -/
theorem undisturbed_by_load (source : String) (e : Engine) :
    match load source e with
    | .error _ e' => e' = e
    | .ok _ e' => e.Retains e' ∧
      ∀ {config : Config} {natives : Builtin → NativeBody} {talk : Talk} {store : Store}
        {past : Set Activity}, Honest natives talk → Indifferent natives →
        (store.Known fun _ _ => False) → History config natives talk store e past →
        e.machine.frames = [] → e.CallsAlike e' := by
  cases hload : load source e with
  | error i e' => exact eq_of_load_error hload
  | ok u e' =>
    refine ⟨retains_of_load hload, fun honest indifferent hstore h hframes => ?_⟩
    exact callsAlike_of_load honest indifferent hstore h hframes hload

theorem exists_load_ok (h : (parse source).isOk = true) (e : Engine) :
    ∃ e', load source e = .ok () e' := by
  rw [load]
  cases hparse : parse source with
  | error err =>
    rw [hparse] at h
    cases h
  | ok chunk => exact ⟨_, rfl⟩

/-- A function of a text, called by a host when another text has been loaded. -/
theorem undisturbed_by_load_seven :
    ∃ e e' final final' : Engine,
      load "f = function() return 7 end" (new .standard) = .ok () e ∧
      load "return 1" e = .ok () e' ∧ e.Retains e' ∧ e.CallsAlike e' ∧
      call 1 (.function 0 []) [] e = .ok [.number (Number.ofNat 7)] final ∧
      call 1 (.function 0 []) [] e' = .ok [.number (Number.ofNat 7)] final' := by
  obtain ⟨talk, honest⟩ := honest_run
  have hcalled : loadAndCall "f = function() return 7 end" 0 =
      some ([.number (Number.ofNat 7)], true) := by decide +kernel
  unfold loadAndCall at hcalled
  split at hcalled
  · next e hload =>
    split at hcalled
    · next results final hcall =>
      obtain ⟨rfl, hany⟩ := Prod.mk.inj (Option.some.inj hcalled)
      have hpushes : e.setting.program.pushes 0 [] := by
        obtain ⟨op, hop, hpush⟩ := List.any_eq_true.1 hany
        obtain ⟨hcode, hpushed⟩ := Bool.and_eq_true_iff.1 hpush
        exact ⟨op, hop, beq_iff_eq.1 hcode, [], beq_iff_eq.1 hpushed⟩
      have hparses : (parse "return 1").isOk = true := by decide +kernel
      obtain ⟨e', hload'⟩ := exists_load_ok hparses e
      have hhistory : History .standard _ talk _ e ∅ := .load .new hload
      have hframes : e.machine.frames = [] ∧ e.setting.config = .standard := by
        obtain ⟨chunk, records, -, rfl⟩ := of_load_ok hload
        exact ⟨rfl, rfl⟩
      have hundisturbed := undisturbed_by_load "return 1" e
      rw [hload'] at hundisturbed
      have hcalls : e.CallsAlike e' := hundisturbed.2 honest candid_run.indifferent
        (Library.known_install Store.known_empty) hhistory hframes.1
      have hmax : 2 ≤ e.setting.config.maxCallDepth := by
        rw [hframes.2]
        decide
      obtain ⟨answer, hbefore, hafter⟩ := hcalls.same hmax hpushes .nil
      rw [hcall] at hbefore
      cases answer with
      | error i s => cases hbefore
      | ok results s =>
        obtain ⟨rfl, -⟩ := EStateM.Result.ok.inj hbefore
        exact ⟨e, e', final, _, hload, hload', hundisturbed.1, hcalls, hcall, hafter⟩
    · cases hcalled
  · cases hcalled

/-! ### What does make a difference -/

/-- What a host gets from a call. -/
def reply : EStateM.Result Interrupt Engine (List Value) → Option (Except Error (List Value))
  | .ok results _ => some (.ok results)
  | .error (.error err) _ => some (.error err)
  | .error .outOfFuel _ => none

/-- The replies to a call of the function `f` of a text that has been run, before and after another
text is loaded.  The function is one of the program, and no call is open in between. -/
def RepliesAround (config : Config) (first second : String) (args : List Value)
    (before after : Option (Except Error (List Value))) : Prop :=
  ∃ (e e' : Engine) (entry : Nat) (captured : List ScopeRef),
    (do load first; discard (run 1 .none) : Session Unit) (new config) = .ok () e ∧
    e.machine.frames = [] ∧ e.global? "f" = some (.function entry captured) ∧
    e.setting.program.pushes entry captured ∧ load second e = .ok () e' ∧
    reply (call 2 (.function entry captured) args e) = before ∧
    reply (call 2 (.function entry captured) args e') = after

/-- Both replies, and whether the function is one of the program and no call is open. -/
def replies (config : Config) (first second : String) (args : List Value) :
    Option (Option (Except Error (List Value)) × Option (Except Error (List Value)) × Bool) :=
  match (do load first; discard (run 1 .none) : Session Unit) (new config) with
  | .ok _ e =>
    match e.global? "f", load second e with
    | some (.function entry captured), .ok _ e' =>
      some (reply (call 2 (.function entry captured) args e),
        reply (call 2 (.function entry captured) args e'),
        e.machine.frames.isEmpty && e.setting.program.code.toList.any fun op =>
          op.code == .push && op.pushed == .function entry [])
    | _, _ => none
  | .error _ _ => none

theorem repliesAround_of_replies {first second : String} {args : List Value}
    {before after : Option (Except Error (List Value))}
    (h : replies config first second args = some (before, after, true)) :
    RepliesAround config first second args before after := by
  unfold replies at h
  split at h
  · next e hrun =>
    split at h
    · next entry captured _ e' hf hload =>
      obtain ⟨hbefore, hrest⟩ := Prod.mk.inj (Option.some.inj h)
      obtain ⟨hafter, hchecks⟩ := Prod.mk.inj hrest
      obtain ⟨hframes, hany⟩ := Bool.and_eq_true_iff.1 hchecks
      obtain ⟨op, hop, hpush⟩ := List.any_eq_true.1 hany
      obtain ⟨hcode, hpushed⟩ := Bool.and_eq_true_iff.1 hpush
      have hpushes : e.setting.program.pushes entry captured :=
        ⟨op, hop, beq_iff_eq.1 hcode, [], beq_iff_eq.1 hpushed⟩
      exact ⟨e, e', entry, captured, hrun, List.isEmpty_iff.1 hframes, hf, hpushes, hload, hbefore,
        hafter⟩
    · cases h
  · cases h

/-- Where no second call may be open, the error of a call carries the place of another instruction
once a text has been loaded.  And a function that a host has made up, which begins at the end of
the program, comes upon the instructions of the text. -/
theorem repliesAround_differ :
    RepliesAround ⟨1000, true, 1⟩ "f = function() end" "g = function() end" []
      (some (.error (.runtime .stackOverflow ⟨1, 1⟩)))
      (some (.error (.runtime .stackOverflow ⟨1, 5⟩))) ∧
    RepliesAround .standard "f = function(g) return g() end" "return 1" [.function 11 []]
      (some (.ok [.number (Number.ofNat 0)])) (some (.ok [.number (Number.ofNat 1)])) :=
  ⟨repliesAround_of_replies (by decide +kernel), repliesAround_of_replies (by decide +kernel)⟩

end Engine

end ScriptEngine
