import Mathlib
import ScriptEngine.Proofs.Hosting.Loads
import ScriptEngine.Proofs.Hosting.Slices
import ScriptEngine.Proofs.Transparency.Texts

/-!
# Engines that fold and engines that do not

An engine that folds texts does what an engine does that leaves them as they are, text by text, as
long as folding cannot be seen.

## Main definitions

* `Engine.evaluate`, `Engine.evaluations` — texts that are loaded and run one after another.
* `Engine.decides` — the evaluations of texts have outcomes.
* `Engine.Alongside` — an engine that folds its texts, next to one that does not.
* `Engine.Agree` — results of two engines that do the same.

## Main results

* `Engine.evaluations_optimize` — **folding is transparent**: results, errors, output and globals
  are the same but for where functions begin.
-/

namespace ScriptEngine

/-! ### Outcomes -/

/-- What a computation comes to. -/
def answerOf {ε σ α : Type} : EStateM.Result ε σ α → Except ε α
  | .ok a _ => .ok a
  | .error e _ => .error e

/-- Whether an evaluation has an outcome: a result, or an error of the program. -/
def Eval.hasOutcome {α : Type} : EStateM.Result Stop Store α → Bool
  | .ok _ _ => true
  | .error (.interrupted (.error _)) _ => true
  | .error (.interrupted .outOfFuel) _ => false
  | .error .undecided _ => false

/-- An evaluation that has an outcome has the same one in both programs. -/
theorem Twins.Mirrors.outcome {t : Twins} {α : Type} {move : α → α}
    {post : Blocks → Store → α → Prop} {top : Option ScopeRef} {blocks : Blocks} {s : Store}
    {r r' : EStateM.Result Stop Store α} (h : t.Mirrors move post top blocks s r r')
    (houtcome : Eval.hasOutcome r) :
    Eval.hasOutcome r' ∧ answerOf r' = (answerOf r).map move ∧
      ∃ blocks₁, t.Leads top blocks s blocks₁ (stateOf r) (stateOf r') := by
  cases r with
  | ok a s₁ =>
    obtain ⟨blocks₁, s₁', rfl, hleads, -⟩ := h
    exact ⟨rfl, rfl, blocks₁, hleads⟩
  | error e s₁ =>
    rcases e with _ | e | _
    · cases houtcome
    · obtain ⟨blocks₁, s₁', rfl, hleads⟩ := h
      exact ⟨rfl, rfl, blocks₁, hleads⟩
    · cases houtcome

/-! ### Records -/

/-- Records of the engine's doings are not shown. -/
theorem Store.shown_foldl_emit {records : List Event} (h : ∀ event ∈ records, event.isShown = false)
    (s : Store) : (records.foldl Store.emit s).shown = s.shown := by
  have hnone : records.filter Event.isShown = [] :=
    List.filter_eq_nil_iff.2 fun event hevent => by simp [h event hevent]
  rw [Store.foldl_emit, Store.shown, Store.shown]
  simp [hnone]

/-- Records of what the engines do may differ. -/
theorem Twins.At.recorded {t : Twins} {blocks : Blocks} {s s' : Store} (h : t.At blocks s s')
    {records records' : List Event} (hhidden : ∀ event ∈ records, event.isShown = false)
    (hhidden' : ∀ event ∈ records', event.isShown = false) :
    t.At blocks (records.foldl Store.emit s) (records'.foldl Store.emit s') := by
  have hshown : (records'.foldl Store.emit s').shown = (records.foldl Store.emit s).shown := by
    rw [Store.shown_foldl_emit hhidden, Store.shown_foldl_emit hhidden', h.alike.shown]
  rw [Store.foldl_emit, Store.foldl_emit] at hshown ⊢
  exact ⟨⟨h.alike.globals, h.alike.tables, h.alike.natives, hshown, h.alike.size, h.alike.kept,
    h.alike.gone, h.alike.binds⟩, h.known.globals, h.known.tables, h.known.scopes⟩

/-- Where there are no functions yet, a store corresponds to itself. -/
theorem Twins.At.of_known {t : Twins} {s : Store} (h : s.Known fun _ _ => False) :
    t.At (fun _ => Block.plain) s s where
  alike :=
    { globals := (Bindings.moved_of_known h.globals).symm
      tables := by
        refine Array.ext_getElem? fun i => ?_
        rw [Array.getElem?_map]
        cases hu : s.tables[i]? with
        | none => rfl
        | some u =>
          exact congrArg some (Table.moved_of_known (h.tables u (Array.mem_of_getElem? hu))).symm
      natives := rfl
      shown := rfl
      size := rfl
      kept := fun ref name _ => by
        cases hget : (s.scope ref).get? name with
        | none => rfl
        | some v => exact congrArg some (Value.moved_of_known ((h.scope ref).get? hget)).symm
      gone := fun _ _ _ hgone => nomatch hgone
      binds := fun _ _ _ _ => trivial }
  known := h.mono fun _ _ => False.elim

namespace Engine

/-! ### Texts one after another -/

/-- Loads a text and runs it. -/
def evaluate (fuel : Nat) (source : String) : Session Value := do
  load source
  run fuel .none

/-- The results of texts that are loaded and run one after another, each with the engine that it
leaves. -/
def evaluations (fuel : Nat) : List String → Engine → List (EStateM.Result Interrupt Engine Value)
  | [], _ => []
  | source :: rest, e =>
    evaluate fuel source e :: evaluations fuel rest (stateOf (evaluate fuel source e))

/-- Whether a run or a call back has executed as many instructions as it may. -/
def ranTooLong : EStateM.Result Interrupt Engine Value → Bool
  | .error (.error (.ranTooLong _)) _ => true
  | _ => false

/-- Whether the evaluations of texts one after another, behind those that have been loaded, have
outcomes.  They go no deeper than `n`, at most `fuel` calls back are nested in each other, and
nothing is told of places where functions begin. -/
def decides (n fuel : Nat) : List Chunk → List String → Engine → Bool
  | _, [], _ => true
  | earlier, source :: rest, e =>
    match parse source with
    | .error _ => decides n fuel earlier rest e
    | .ok chunk =>
      Eval.hasOutcome (evalText
        (.nested e.setting.config (discreet (Library.run Host.function))
          (.ofTexts (chunk :: earlier)) n fuel)
        (Program.ofTexts earlier).size e.setting.root n chunk (stateOf (load source e)).store) &&
      decides n fuel (chunk :: earlier) rest (stateOf (evaluate fuel source e))

variable {n fuel limit : Nat} {place : Nat → Nat} {e e' : Engine} {source : String} {chunk : Chunk}
  {earlier texts : List Chunk}

theorem evaluate_eq : evaluate fuel source e =
    match load source e with
    | .ok _ loaded => run fuel .none loaded
    | .error i e' => .error i e' := by
  change EStateM.bind (load source) (fun _ => run fuel .none) e = _
  rw [EStateM.bind]
  cases load source e <;> rfl

theorem load_of_malformed {err : SyntaxError} (h : parse source = .error err) :
    load source e = .error (.error (.malformed err)) e := by
  rw [load, h]

/-- A text that is not well formed is not run. -/
theorem evaluate_of_malformed {err : SyntaxError} (h : parse source = .error err) :
    evaluate fuel source e = .error (.error (.malformed err)) e := by
  rw [evaluate_eq, load_of_malformed h]

/-- A run that comes to the outcome of an evaluation has its answer and leaves its store. -/
theorem run_of_comes (hfault : e.fault = none) {r : EStateM.Result Stop Store Value}
    (hcomes : Setting.Comes limit
      (e.setting.runSteps (e.setting.callFrom fuel) false e.setting.config.stepLimit e.state) r)
    (houtcome : Eval.hasOutcome r) (hlimit : ranTooLong (run fuel .none e) = false) :
    answerOf (run fuel .none e) = (answerOf r).mapError Stop.interrupt ∧
      ∃ m fault, stateOf (run fuel .none e) =
        { e with machine := m, store := stateOf r, fault := fault } := by
  rw [run_eq_advance hfault rfl] at hlimit ⊢
  obtain ⟨setting, machine, store, fault⟩ := e
  simp only [RunOptions.none, Option.getD_none, advance] at hlimit ⊢
  -- A run that is cut short would have executed too many instructions.
  have hnotCut : ¬ Setting.CutShort limit
      (setting.runSteps (setting.callFrom fuel) false setting.config.stepLimit
        ⟨machine, store⟩) := by
    rintro (⟨st, hrun⟩ | ⟨st, hrun⟩)
    · rw [hrun] at hlimit
      cases hlimit
    · rw [hrun] at hlimit
      cases hlimit
  cases r with
  | ok v s =>
    obtain ⟨m, hrun, rfl⟩ := hcomes.resolve_right hnotCut
    rw [state] at hrun
    rw [hrun]
    exact ⟨rfl, m, fault, rfl⟩
  | error x s =>
    rcases x with _ | x | _
    · cases houtcome
    · obtain ⟨m, hrun⟩ := hcomes.resolve_right hnotCut
      rw [state] at hrun
      rw [hrun]
      exact ⟨rfl, m, some x, rfl⟩
    · cases houtcome

/-! ### Loading -/

/-- A text that is well formed goes behind those before it, folded or not, and what is put on record
is not shown. -/
theorem exists_load_eq (h : parse source = .ok chunk) (e : Engine) :
    ∃ records : List Event, (∀ event ∈ records, event.isShown = false) ∧
      load source e = .ok () (Engine.rewind
        { e with
          setting := { e.setting with
            program := (e.setting.program.extend
              (if e.setting.config.optimize then optimize chunk else chunk)).1 }
          store := records.foldl Store.emit e.store }) := by
  rw [load, h]
  refine ⟨_, fun event hevent => ?_, rfl⟩
  rcases List.mem_append.1 hevent with hevent | hevent
  · obtain ⟨_, -, rfl⟩ := List.mem_map.1 hevent
    rfl
  · obtain rfl := List.mem_singleton.1 hevent
    rfl

/-- The two programs of an engine that does not fold its texts and of one that does. -/
def twins (place : Nat → Nat) (config : Config) (n fuel : Nat) (texts : List Chunk) : Twins :=
  .ofTexts place { config with optimize := false } { config with optimize := true }
    (discreet (Library.run Host.function)) n fuel texts

/-- An engine that folds its texts, next to one that does not: they have been given the same texts,
and their stores correspond to each other. -/
structure Alongside (place : Nat → Nat) (config : Config) (root : ScopeRef) (n fuel : Nat)
    (texts : List Chunk) (e e' : Engine) : Prop where
  setting : e.setting =
    ⟨.ofTexts texts, { config with optimize := false }, root, Library.run Host.function⟩
  setting' : e'.setting = ⟨.ofTexts (texts.map optimize), { config with optimize := true }, root,
    Library.run Host.function⟩
  inside : root.index < e.store.scopes.size
  stores : ∃ blocks : Blocks, blocks root = Block.plain ∧
    (twins place config n fuel texts).At blocks e.store e'.store

/-- Results of two engines are the same but for where functions begin, and so are the globals and
the tables that they leave; what has been put out is the same. -/
structure Agree (place : Nat → Nat) (r r' : EStateM.Result Interrupt Engine Value) : Prop where
  answer : answerOf r' = (answerOf r).map (Value.moved place)
  globals : (stateOf r').store.globals = (stateOf r).store.globals.moved place
  tables : (stateOf r').store.tables = (stateOf r).store.tables.map (Table.moved place)
  shown : (stateOf r').store.shown = (stateOf r).store.shown

variable {config : Config} {root : ScopeRef}

/-- Functions of earlier texts stay known. -/
theorem extends_twins : (twins place config n fuel earlier).Extends
    (twins place config n fuel (chunk :: earlier)) := Twins.extends_ofTexts

/-- Engines next to each other agree when they have the same answer. -/
theorem Alongside.agree {r r' : EStateM.Result Interrupt Engine Value}
    (h : Alongside place config root n fuel texts (stateOf r) (stateOf r'))
    (hanswer : answerOf r' = (answerOf r).map (Value.moved place)) : Agree place r r' := by
  obtain ⟨blocks, -, hat⟩ := h.stores
  exact ⟨hanswer, hat.alike.globals, hat.alike.tables, hat.alike.shown⟩

/-- Engines stay next to each other when both load a text. -/
theorem Alongside.load (h : Alongside place config root n fuel earlier e e')
    (hparse : parse source = .ok chunk) :
    ∃ loaded loaded', Engine.load source e = .ok () loaded ∧
      Engine.load source e' = .ok () loaded' ∧ loaded.rewind = loaded ∧ loaded'.rewind = loaded' ∧
      Alongside place config root n fuel (chunk :: earlier) loaded loaded' := by
  obtain ⟨records, hhidden, hload⟩ := exists_load_eq hparse e
  obtain ⟨records', hhidden', hload'⟩ := exists_load_eq hparse e'
  obtain ⟨blocks, hplain, hat⟩ := h.stores
  refine ⟨_, _, hload, hload', rfl, rfl, ?_, ?_, ?_, blocks, hplain, ?_⟩
  · simp only [rewind, h.setting]
    rfl
  · simp only [rewind, h.setting']
    rfl
  · change root.index < (records.foldl Store.emit e.store).scopes.size
    rw [Store.foldl_emit]
    exact h.inside
  · exact (extends_twins.arrives hat).recorded hhidden hhidden'

/-! ### Running -/

/-- A run of the text that was loaded last comes to the outcome of its evaluation. -/
theorem comes_run (hsetting : e.setting = ⟨.ofTexts (chunk :: earlier), config, root,
    Library.run Host.function⟩) (hrewound : e.rewind = e) :
    Setting.Comes config.stepLimit
      (e.setting.runSteps (e.setting.callFrom fuel) false e.setting.config.stepLimit e.state)
      (evalText
        (.nested config (discreet (Library.run Host.function)) (.ofTexts (chunk :: earlier)) n
        fuel) (Program.ofTexts earlier).size root n chunk e.store) := by
  have hmachine : e.machine = .atTopLevel e.setting.program.start e.setting.root := by
    rw [← hrewound]
    rfl
  rw [state, hmachine, hsetting]
  exact Setting.comes_evalText config _ (nativesSettle_discreet _ _) root earlier chunk n fuel _ _

/-- Engines do the same when both run a text whose evaluation has an outcome, and stay next to each
other. -/
theorem Alongside.run (h : Alongside place config root n fuel (chunk :: earlier) e e')
    (hrewound : e.rewind = e) (hrewound' : e'.rewind = e') (hplace : Function.Injective place)
    (htexts : Relocates place (chunk :: earlier)) (htargeted : (Node.chunk chunk).All Node.Targeted)
    (hsafe : foldsSafely (boundNames chunk) true [] chunk)
    (houtcome : Eval.hasOutcome (evalText (twins place config n fuel (chunk :: earlier)).plain
      (Program.ofTexts earlier).size root n chunk e.store))
    (hlimit : ranTooLong (Engine.run fuel .none e) = false)
    (hlimit' : ranTooLong (Engine.run fuel .none e') = false) :
    answerOf (Engine.run fuel .none e') =
        (answerOf (Engine.run fuel .none e)).map (Value.moved place) ∧
      Alongside place config root n fuel (chunk :: earlier) (stateOf (Engine.run fuel .none e))
        (stateOf (Engine.run fuel .none e')) := by
  obtain ⟨blocks, hplain, hat⟩ := h.stores
  have hdepth : ({ config with optimize := true } : Config).maxCallDepth =
      ({ config with optimize := false } : Config).maxCallDepth := rfl
  have hmirrors :=
    Twins.mirrors_evalText Host.function hplace hdepth htexts htargeted hsafe hat hplain
    h.inside
  obtain ⟨houtcome', hanswers, blocks₁, hleads⟩ := hmirrors.outcome houtcome
  have hfault : e.fault = none := by rw [← hrewound, rewind]
  have hfault' : e'.fault = none := by rw [← hrewound', rewind]
  obtain ⟨hrun, m, fault, hleft⟩ :=
    run_of_comes hfault (comes_run h.setting hrewound) houtcome hlimit
  obtain ⟨hrun', m', fault', hleft'⟩ :=
    run_of_comes hfault' (comes_run h.setting' hrewound') houtcome' hlimit'
  refine ⟨?_, ?_⟩
  · have hmoved (a : Except Stop Value) : (a.map (Value.moved place)).mapError Stop.interrupt =
        (a.mapError Stop.interrupt).map (Value.moved place) := by cases a <;> rfl
    exact hrun'.trans ((congrArg (Except.mapError Stop.interrupt) hanswers).trans
      ((hmoved _).trans (congrArg (Except.map (Value.moved place)) hrun.symm)))
  · rw [hleft, hleft']
    refine ⟨h.setting, h.setting', Nat.lt_of_lt_of_le h.inside hleads.grows.larger, blocks₁, ?_,
      hleads.arrived⟩
    have hblock := hleads.grows.leads root h.inside
    rw [hplain] at hblock
    exact hblock.plain

/-- Engines do the same when both load and run a text. -/
theorem Alongside.evaluate (h : Alongside place config root n fuel earlier e e')
    (hparse : parse source = .ok chunk) (hplace : Function.Injective place)
    (htexts : Relocates place (chunk :: earlier))
    (hsafe : foldsSafely (boundNames chunk) true [] chunk)
    (houtcome : Eval.hasOutcome (evalText
      (.nested e.setting.config (discreet (Library.run Host.function)) (.ofTexts (chunk :: earlier))
        n fuel)
      (Program.ofTexts earlier).size e.setting.root n chunk (stateOf (Engine.load source e)).store))
    (hlimit : ranTooLong (Engine.evaluate fuel source e) = false)
    (hlimit' : ranTooLong (Engine.evaluate fuel source e') = false) :
    answerOf (Engine.evaluate fuel source e') =
        (answerOf (Engine.evaluate fuel source e)).map (Value.moved place) ∧
      Alongside place config root n fuel (chunk :: earlier)
        (stateOf (Engine.evaluate fuel source e))
        (stateOf (Engine.evaluate fuel source e')) := by
  obtain ⟨loaded, loaded', hload, hload', hrewound, hrewound', hloaded⟩ := h.load hparse
  have htargeted : (Node.chunk chunk).All Node.Targeted :=
    Node.all_targeted_of_formed (chunkFormed_of_parse hparse)
  have heval : Engine.evaluate fuel source e = Engine.run fuel .none loaded := by
    rw [evaluate_eq, hload]
  have heval' : Engine.evaluate fuel source e' = Engine.run fuel .none loaded' := by
    rw [evaluate_eq, hload']
  rw [heval] at hlimit ⊢
  rw [heval'] at hlimit' ⊢
  rw [hload, h.setting] at houtcome
  exact hloaded.run hrewound hrewound' hplace htexts htargeted hsafe houtcome hlimit hlimit'

/-! ### All texts -/

/-- The texts that have been loaded behind others, the last one coming first. -/
def heard : List Chunk → List String → List Chunk
  | earlier, [] => earlier
  | earlier, source :: rest =>
    match parse source with
    | .error _ => heard earlier rest
    | .ok chunk => heard (chunk :: earlier) rest

/-- What is true of all texts is true of the earlier ones. -/
theorem relocates_of_heard {sources : List String} (h : Relocates place (heard earlier sources)) :
    Relocates place earlier := by
  induction sources generalizing earlier with
  | nil => exact h
  | cons source rest ih =>
    rw [heard] at h
    cases hparse : parse source with
    | error err =>
      rw [hparse] at h
      exact ih h
    | ok chunk =>
      rw [hparse] at h
      exact (ih h).2

/-- Engines next to each other do the same with all texts. -/
theorem Alongside.evaluations {sources : List String}
    (h : Alongside place config root n fuel earlier e e') (hplace : Function.Injective place)
    (htexts : Relocates place (heard earlier sources))
    (hsafe : ∀ source ∈ sources, ∀ chunk, parse source = .ok chunk →
      foldsSafely (boundNames chunk) true [] chunk)
    (hdecides : decides n fuel earlier sources e)
    (hlimit : ∀ r ∈ Engine.evaluations fuel sources e, ranTooLong r = false)
    (hlimit' : ∀ r ∈ Engine.evaluations fuel sources e', ranTooLong r = false) :
    List.Forall₂ (Agree place) (Engine.evaluations fuel sources e)
      (Engine.evaluations fuel sources e') := by
  induction sources generalizing earlier e e' with
  | nil => exact .nil
  | cons source rest ih =>
    rw [Engine.evaluations] at hlimit hlimit'
    rw [Engine.evaluations, Engine.evaluations]
    obtain ⟨hfirst, hrest⟩ := List.forall_mem_cons.1 hlimit
    obtain ⟨hfirst', hrest'⟩ := List.forall_mem_cons.1 hlimit'
    have hsafeRest := (List.forall_mem_cons.1 hsafe).2
    rw [heard] at htexts
    rw [decides] at hdecides
    cases hparse : parse source with
    | error err =>
      -- Neither engine has changed.
      rw [hparse] at htexts hdecides
      have heval : Engine.evaluate fuel source e = _ := evaluate_of_malformed hparse
      have heval' : Engine.evaluate fuel source e' = _ := evaluate_of_malformed hparse
      rw [heval] at hrest ⊢
      rw [heval'] at hrest' ⊢
      exact .cons (h.agree rfl) (ih h htexts hsafeRest hdecides hrest hrest')
    | ok chunk =>
      rw [hparse] at htexts hdecides
      obtain ⟨houtcome, hdecides⟩ := Bool.and_eq_true_iff.1 hdecides
      obtain ⟨hanswer, hnext⟩ := h.evaluate hparse hplace (relocates_of_heard htexts)
        (hsafe source List.mem_cons_self chunk hparse) houtcome hfirst hfirst'
      exact .cons (hnext.agree hanswer) (ih hnext htexts hsafeRest hdecides hrest hrest')

/-- Two new engines are next to each other. -/
theorem alongside_new (config : Config) :
    Alongside place config (Library.install .empty).newScope.1 n fuel []
      (new { config with optimize := false }) (new { config with optimize := true }) := by
  have hknown : (Library.install .empty).newScope.2.Known fun _ _ => False :=
    (Library.known_install Store.known_empty).newScope
  refine ⟨rfl, rfl, ?_, fun _ => Block.plain, rfl, .of_known hknown⟩
  simp [new, ofStore, Store.newScope]

/-- **Folding is transparent.**  Texts are loaded and run one after another, by an engine that does
not fold them and by one that does.  Text by text, both have the same result or the same error, they
put out the same, and they leave the same globals and tables, but for where functions begin.  This
holds as long as folding cannot be seen in a text, evaluations have outcomes and tell nothing of
places, and neither engine runs out of steps. -/
theorem evaluations_optimize (config : Config) (n fuel : Nat) (sources : List String)
    (hsafe : ∀ source ∈ sources, ∀ chunk, parse source = .ok chunk →
      foldsSafely (boundNames chunk) true [] chunk)
    (hdecides : decides n fuel [] sources (new { config with optimize := false }))
    (hlimit : ∀ r ∈ evaluations fuel sources (new { config with optimize := false }),
      ranTooLong r = false)
    (hlimit' : ∀ r ∈ evaluations fuel sources (new { config with optimize := true }),
      ranTooLong r = false) :
    ∃ place : Nat → Nat, Function.Injective place ∧
      List.Forall₂ (Agree place) (evaluations fuel sources (new { config with optimize := false }))
        (evaluations fuel sources (new { config with optimize := true })) := by
  obtain ⟨place, hplace, htexts⟩ := exists_place (heard [] sources)
  exact ⟨place, hplace,
    (alongside_new config).evaluations hplace htexts hsafe hdecides hlimit hlimit'⟩

/-- Folding cannot be seen in a text with a function literal that reads a variable whose declaration
has been removed in front of it. -/
theorem foldsSafely_closure {chunk : Chunk}
    (h : parse "do local a = true f = function() return a end end" = .ok chunk) :
    foldsSafely (boundNames chunk) true [] chunk := by
  have hparse : parse "do local a = true f = function() return a end end" = .ok
      [.block [
        .assignment ⟨1, 4⟩ true [.var ⟨1, 10⟩ "a"] [.literal ⟨1, 14⟩ (.boolean true)],
        .assignment ⟨1, 19⟩ false [.var ⟨1, 19⟩ "f"]
          [.function ⟨1, 23⟩ [] [.result ⟨1, 34⟩ [.var ⟨1, 41⟩ "a"]]]]] := by cbv
  obtain rfl := Except.ok.inj (h.symm.trans hparse)
  have hcloses (name : String) : ¬ (Node.stat (.assignment ⟨1, 4⟩ true [.var ⟨1, 10⟩ "a"]
      [.literal ⟨1, 14⟩ (.boolean true)])).Closes name := by
    rintro ⟨position, parameters, body, hwithin, -⟩
    cases hwithin with
    | child hchild hwithin =>
      simp only [Node.children, List.map_cons, List.map_nil, List.cons_append, List.nil_append,
        List.mem_cons, List.not_mem_nil, or_false] at hchild
      rcases hchild with rfl | rfl <;> cases hwithin with
      | child hchild _ => cases hchild
  refine ⟨⟨⟨trivial, fun _ => rfl, trivial⟩, fun entry _ => hcloses entry.1,
    ⟨trivial, ⟨⟨trivial, fun _ => rfl, trivial⟩, List.forall_mem_nil _, trivial⟩,
      fun _ => rfl, trivial⟩,
    List.forall_mem_nil _, trivial⟩, List.forall_mem_nil _, trivial⟩

/-- A function that reads a variable whose declaration has been removed, and a call of it in a later
text. -/
theorem evaluations_optimize_closure :
    let sources := ["do local a = true f = function() return a end end", "return f()"]
    ∃ place : Nat → Nat, Function.Injective place ∧
      List.Forall₂ (Agree place)
        (evaluations 1 sources (new { Config.standard with optimize := false }))
        (evaluations 1 sources (new { Config.standard with optimize := true })) := by
  refine evaluations_optimize .standard 20 1 _
    (List.forall_mem_cons.2 ⟨fun _ => foldsSafely_closure,
    List.forall_mem_singleton.2 fun chunk h => ?_⟩) ?_ ?_ ?_
  · have hparse : parse "return f()" =
        .ok [.result ⟨1, 1⟩ [.call ⟨1, 8⟩ (.var ⟨1, 8⟩ "f") []]] := by cbv
    obtain rfl := Except.ok.inj (h.symm.trans hparse)
    exact ⟨⟨⟨trivial, trivial⟩, fun _ => rfl, trivial⟩, List.forall_mem_nil _, trivial⟩
  · decide +kernel
  · decide +kernel
  · decide +kernel

end Engine

end ScriptEngine
