import ScriptEngine.Proofs.Reentry.Engines
import ScriptEngine.Proofs.Reentry.Values
import ScriptEngine.Proofs.Scoping.Programs
import ScriptEngine.Proofs.Syntax.Parsed

/-!
# Histories of engines

A host can do more with an engine than load texts into it and run them: it can give values
to global variables and to variables of the top level, and call functions.  The functions
that it works with are those it has got from the engine, so an instruction has pushed each
of them at some time.

All functions that come about in an engine are pushed by instructions of its program, and
the program is made of texts that are well formed.  What is true of the empty program, and
stays true when such a text is added, is therefore true of the program of every engine.

## Main definitions

* `Program.Made`, `Program.pushes` — the functions that have been pushed, and those that a
  program can push.
* `Engine.History` — the engines that can come about, and all that has happened in them.
* `Engine.Resumes` — what an engine can go on with.

## Main results

* `Engine.History.program` — what is true of all programs of engines.
* `Engine.History.pushed` — every engine has functions of its program only.
-/

namespace ScriptEngine

open Exec

/-! ### Functions of programs -/

namespace Program

/-- The functions that instructions have pushed in the course of some activities, with the
scopes that were in reach. -/
def Made (p : Program) (past : Set Activity) : Functions := fun entry captured =>
  ∃ (waiting : List Machine) (fuel : Nat) (trace : Bool) (st : State) (op : Op) (v : List ScopeRef),
    .running waiting fuel trace st ∈ past ∧ p.code[st.machine.ip]? = some op ∧ op.code = .push ∧
      op.pushed = .function entry v ∧ reach st.machine = captured

/-- The functions that a program can push, whatever they close over. -/
def pushes (p : Program) : Functions := fun entry _ =>
  ∃ op ∈ p.code.toList, op.code = .push ∧ ∃ captured, op.pushed = .function entry captured

variable {p : Program} {chunk : Chunk}

theorem pushes_of_code {ip entry : Nat} {op : Op} {v : List ScopeRef} (hop : p.code[ip]? = some op)
    (hcode : op.code = .push) (hpushed : op.pushed = .function entry v) (captured : List ScopeRef) :
    p.pushes entry captured := by
  refine ⟨op, ?_, hcode, v, hpushed⟩
  rw [← Array.getElem?_toList] at hop
  exact List.mem_of_getElem? hop

theorem made_among_pushes (past : Set Activity) : (p.Made past).Among p.pushes := by
  rintro entry captured ⟨-, -, -, st, op, v, -, hop, hcode, hpushed, -⟩
  exact pushes_of_code hop hcode hpushed captured

theorem pushes_among_extend (p : Program) (chunk : Chunk) :
    p.pushes.Among (p.extend chunk).1.pushes := by
  rintro entry captured ⟨op, hop, hpushed⟩
  refine ⟨op, ?_, hpushed⟩
  rw [code_extend]
  exact List.mem_append_left _ hop

theorem Sited.of_pushes {site : Nat → Option Site} (h : p.Sited site) {entry : Nat}
    {captured : List ScopeRef} (hentry : p.pushes entry captured) :
    site entry = some ⟨some entry, []⟩ := by
  obtain ⟨op, hop, hcode, v, hpushed⟩ := hentry
  exact h.entry op hop hcode entry v hpushed

end Program

/-- Only functions of the program come about. -/
theorem Setting.sustains_pushes (setting : Setting) (talk : Talk) :
    setting.Sustains talk (Activity.Known fun _ => setting.program.pushes) (fun _ _ => True)
      fun _ => setting.program.pushes where
  refl _ := trivial
  trans _ _ _ _ _ := trivial
  among _ _ _ := .refl _
  newScope _ := trivial
  known _ := id
  leads _ _ _ _ _ := id
  instruction := by
    intro waiting fuel trace st op hknown hop hnative reenter
    have hleaves : Leaves setting.program.pushes (fun _ => True)
        (setting.execute reenter op ⟨st.machine.past, announced trace op st⟩) :=
      known_execute hknown.1 (known_announced hknown.2)
        (fun hcode entry captured hpushed => Program.pushes_of_code hop hcode hpushed _) hnative
    revert hleaves
    cases setting.execute reenter op ⟨st.machine.past, announced trace op st⟩ with
    | ok u st' => exact fun hleaves => ⟨trivial, hleaves.2⟩
    | error e st' => exact fun hleaves => ⟨trivial, hleaves⟩

namespace Engine

variable {e e' : Engine} {config : Config} {natives : Builtin → NativeBody} {talk : Talk}
  {store : Store} {past : Set Activity}

/-! ### Histories -/

/-- The functions that have come about in an engine, with scopes that there are. -/
def made (e : Engine) (past : Set Activity) : Functions := fun entry captured =>
  e.setting.program.Made past entry captured ∧ ∀ ref ∈ captured, ref.index < e.store.scopes.size

theorem made_among_pushes (e : Engine) (past : Set Activity) :
    (e.made past).Among e.setting.program.pushes :=
  fun _ _ h => Program.made_among_pushes past _ _ h.1

/-- What an engine can go on with: a step, unless an error has stopped it, or a call. -/
inductive Resumes (e : Engine) (past : Set Activity) : Activity → Prop
  | step (fuel : Nat) (trace : Bool) (h : e.fault = none) : Resumes e past (e.stepping fuel trace)
  | call (fuel : Nat) {callee : Value} {args : List Value} (hcallee : callee.Known (e.made past))
      (hargs : AllKnown (e.made past) args) : Resumes e past (e.calling fuel callee args)

/-- The engines that come about from a new one on a store, and what has happened in them until
then.  Steps that run out of fuel are left out: nothing but fuel would have ended them. -/
inductive History (config : Config) (natives : Builtin → NativeBody) (talk : Talk) (store : Store) :
    Engine → Set Activity → Prop
  | new : History config natives talk store (ofStore config natives store) ∅
  | load {e e' : Engine} {past : Set Activity} {source : String}
      (h : History config natives talk store e past) (hload : load source e = .ok () e') :
      History config natives talk store e' past
  | reset {e e' : Engine} {past : Set Activity} (h : History config natives talk store e past)
      (hreset : reset e = .ok () e') : History config natives talk store e' past
  | define {e e' : Engine} {past : Set Activity} {name key : String}
      (h : History config natives talk store e past) (hdefine : define name key e = .ok () e') :
      History config natives talk store e' past
  | setGlobal {e e' : Engine} {past : Set Activity} {name : String} {v : Value}
      (h : History config natives talk store e past) (hv : v.Known (e.made past))
      (hset : setGlobal name v e = .ok () e') : History config natives talk store e' past
  | declare {e e' : Engine} {past : Set Activity} {locals : List (String × Value)}
      (h : History config natives talk store e past)
      (hlocals : ∀ x ∈ locals, x.2.Known (e.made past))
      (hdeclare : declareLocals locals e = .ok () e') : History config natives talk store e' past
  | step {e e' : Engine} {past : Set Activity} {fuel : Nat} {options : RunOptions}
      (h : History config natives talk store e past) (hstep : step fuel options e = .ok () e') :
      History config natives talk store e'
        (past ∪ {a | e.setting.Happens talk (e.stepping fuel options.trace) a})
  | fail {e e' : Engine} {past : Set Activity} {fuel : Nat} {options : RunOptions} {err : Error}
      (h : History config natives talk store e past) (hfault : e.fault = none)
      (hstep : step fuel options e = .error (.error err) e') :
      History config natives talk store e'
        (past ∪ {a | e.setting.Happens talk (e.stepping fuel options.trace) a})
  | call {e : Engine} {past : Set Activity} {fuel : Nat} {callee : Value} {args : List Value}
      (h : History config natives talk store e past) (hcallee : callee.Known (e.made past))
      (hargs : AllKnown (e.made past) args) :
      History config natives talk store (stateOf (call fuel callee args e))
        (past ∪ {a | e.setting.Happens talk (e.calling fuel callee args) a})

/-- A text that is loaded is well formed, and goes behind those before it. -/
theorem of_load_ok {source : String} (h : load source e = .ok () e') :
    ∃ (chunk : Chunk) (records : List Event), chunkFormed false chunk ∧ e' = Engine.rewind
      { e with
        setting := { e.setting with program := (e.setting.program.extend chunk).1 }
        store := records.foldl Store.emit e.store } := by
  rw [load] at h
  cases hparse : parse source with
  | error err =>
    rw [hparse] at h
    cases h
  | ok chunk =>
    rw [hparse] at h
    cases h
    refine ⟨_, _, ?_, rfl⟩
    split
    · exact chunkFormed_optimize (chunkFormed_of_parse hparse)
    · exact chunkFormed_of_parse hparse

/-- The native functions stay what they are. -/
theorem History.natives_eq (h : History config natives talk store e past) :
    e.setting.natives = natives := by
  induction h with
  | new => rfl
  | load _ hload ih =>
    obtain ⟨chunk, records, -, rfl⟩ := of_load_ok hload
    exact ih
  | reset _ hreset ih =>
    cases hreset
    exact ih
  | define _ hdefine ih =>
    cases hdefine
    exact ih
  | setGlobal _ _ hset ih =>
    cases hset
    exact ih
  | declare _ _ hdeclare ih =>
    cases hdeclare
    exact ih
  | step _ hstep ih =>
    obtain ⟨-, st, -, rfl⟩ := of_step_ok hstep
    exact ih
  | fail _ hfault hstep ih =>
    obtain ⟨st, -, rfl⟩ := of_step_error hfault hstep
    exact ih
  | call _ _ _ ih =>
    rw [stateOf_call]
    exact ih

/-- **What is true of all programs of engines**: it is true of the empty one, and stays
true when a text is added that is well formed. -/
theorem History.program {P : Program → Prop} (hempty : P .empty)
    (hextend : ∀ p chunk, P p → chunkFormed false chunk → P (p.extend chunk).1)
    (h : History config natives talk store e past) : P e.setting.program := by
  induction h with
  | new => exact hempty
  | load _ hload ih =>
    obtain ⟨chunk, records, hformed, rfl⟩ := of_load_ok hload
    exact hextend _ _ ih hformed
  | reset _ hreset ih =>
    cases hreset
    exact ih
  | define _ hdefine ih =>
    cases hdefine
    exact ih
  | setGlobal _ _ hset ih =>
    cases hset
    exact ih
  | declare _ _ hdeclare ih =>
    cases hdeclare
    exact ih
  | step _ hstep ih =>
    obtain ⟨-, st, -, rfl⟩ := of_step_ok hstep
    exact ih
  | fail _ hfault hstep ih =>
    obtain ⟨st, -, rfl⟩ := of_step_error hfault hstep
    exact ih
  | call _ _ _ ih =>
    rw [stateOf_call]
    exact ih

/-- The places of the program of an engine are known. -/
theorem History.exists_sited (h : History config natives talk store e past) :
    ∃ site, e.setting.program.Sited site :=
  h.program (P := fun p => ∃ site, p.Sited site) ⟨_, Program.sited_empty⟩
    fun _ _ ⟨_, hsited⟩ hformed =>
      Program.exists_sited_extend hsited (chunkClosed_of_formed _ hformed) fun _ hf =>
        closed_of_mem_chunkFunctions hformed hf

/-! ### Values -/

/-- An engine with functions of its program only. -/
structure Pushed (e : Engine) : Prop where
  store : e.store.Known e.setting.program.pushes
  stack : e.fault = none → AllKnown e.setting.program.pushes e.machine.stack

theorem Pushed.resumes (h : e.Pushed) {start : Activity} (hstart : e.Resumes past start) :
    start.Known fun _ => e.setting.program.pushes := by
  cases hstart with
  | step fuel trace hfault => exact ⟨h.stack hfault, h.store⟩
  | call fuel hcallee hargs =>
    have hamong := e.made_among_pushes past
    exact ⟨hcallee.mono hamong, hargs.mono hamong, h.store⟩

theorem known_foldl_emit {E : Functions} {s : Store} (hs : s.Known E) (records : List Event) :
    (records.foldl Store.emit s).Known E := by
  induction records generalizing s with
  | nil => exact hs
  | cons event rest ih => exact ih (hs.emit event)

theorem known_foldl_declare {E : Functions} {s : Store} (hs : s.Known E) (root : ScopeRef)
    {locals : List (String × Value)} (hlocals : ∀ x ∈ locals, x.2.Known E) :
    (locals.foldl (fun s (name, v) => s.declare root name v) s).Known E := by
  induction locals generalizing s with
  | nil => exact hs
  | cons x rest ih =>
    obtain ⟨hx, hrest⟩ := List.forall_mem_cons.1 hlocals
    exact ih (hs.declare root x.1 hx) hrest

/-- **Every engine has functions of its program only.** -/
theorem History.pushed (honest : Honest natives talk) (hstore : store.Known fun _ _ => False)
    (h : History config natives talk store e past) : e.Pushed := by
  induction h with
  | new => exact ⟨(hstore.mono fun _ _ => False.elim).newScope, fun _ => .nil⟩
  | load _ hload ih =>
    obtain ⟨chunk, records, -, rfl⟩ := of_load_ok hload
    exact ⟨known_foldl_emit (ih.store.mono (Program.pushes_among_extend _ _)) _, fun _ => .nil⟩
  | reset _ hreset ih =>
    cases hreset
    exact ⟨ih.store.newScope, fun _ => .nil⟩
  | define _ hdefine ih =>
    cases hdefine
    exact ⟨(ih.store.newNative _ _).setGlobal _ trivial, ih.stack⟩
  | setGlobal _ hv hset ih =>
    cases hset
    exact ⟨ih.store.setGlobal _ (hv.mono (made_among_pushes _ _)), ih.stack⟩
  | declare _ hlocals hdeclare ih =>
    cases hdeclare
    exact ⟨known_foldl_declare ih.store _ fun x hx =>
      (hlocals x hx).mono (made_among_pushes _ _), ih.stack⟩
  | @step e _ past fuel options h hstep ih =>
    obtain ⟨hfault, st, hrun, rfl⟩ := of_step_ok hstep
    have hknown := ih.resumes (.step fuel options.trace hfault : e.Resumes past _)
    have hsustained := (e.setting.sustains_pushes talk).step (h.natives_eq ▸ honest) hknown
    rw [hrun] at hsustained
    exact ⟨hsustained.2.2, fun _ => hsustained.2.1⟩
  | @fail e _ past fuel options _ h hfault hstep ih =>
    obtain ⟨st, hrun, rfl⟩ := of_step_error hfault hstep
    have hknown := ih.resumes (.step fuel options.trace hfault : e.Resumes past _)
    have hsustained := (e.setting.sustains_pushes talk).step (h.natives_eq ▸ honest) hknown
    rw [hrun] at hsustained
    exact ⟨hsustained.2, nofun⟩
  | @call e _ fuel callee args h hcallee hargs ih =>
    rw [stateOf_call]
    have hanswers := (e.setting.sustains_pushes talk).call (h.natives_eq ▸ honest)
      (ih.resumes (.call fuel hcallee hargs))
    refine ⟨?_, ih.stack⟩
    revert hanswers
    cases e.setting.callFrom fuel e.position e.machine.depth callee args e.store with
    | ok results s => exact fun hanswers => hanswers.2.2
    | error i s => exact fun hanswers => hanswers.2

/-- What happens in an engine has functions of its program only. -/
theorem History.known_happens (honest : Honest natives talk) (hstore : store.Known fun _ _ => False)
    (h : History config natives talk store e past) {start a : Activity}
    (hstart : e.Resumes past start) (ha : e.setting.Happens talk start a) :
    a.Known fun _ => e.setting.program.pushes :=
  ((e.setting.sustains_pushes talk).happens (h.natives_eq ▸ honest)
    ((h.pushed honest hstore).resumes hstart) ha).1

end Engine

end ScriptEngine
