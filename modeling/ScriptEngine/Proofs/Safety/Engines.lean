import ScriptEngine.Proofs.Reentry.Engines
import ScriptEngine.Proofs.Reentry.Values
import ScriptEngine.Proofs.Safety.Natives
import ScriptEngine.Proofs.Safety.Programs
import ScriptEngine.Proofs.Syntax.Parsed

/-!
# Engines trip no checks

Whatever texts are loaded into an engine and however far they are run, no instruction
trips a check of the machine, in the main run and in the runs that native functions
start.

## Main definitions

* `Setting.HappensInRoom` — what happens as long as the heights of stacks are numbers.
* `Engine.Reached` — the engines that loading and stepping lead to.
* `Engine.Safe` — no check is tripped in an engine, from where it is.

## Main results

* `Engine.safe_of_reached` — every engine that is reached is safe.
-/

namespace ScriptEngine

open Exec

/-! ### Runs -/

/-- An activity whose stack is small enough for its height to be a number. -/
def Activity.HasRoom : Activity → Prop
  | .running _ _ _ st => st.machine.HasRoom
  | .calling .. => True

/-- What happens in the course of an activity as long as stacks have room.  The machine
keeps counts as numbers, and a stack of `Number.mantissaBound` values could not be
counted. -/
def Setting.HappensInRoom (setting : Setting) (talk : Talk) : Activity → Activity → Prop :=
  Relation.ReflTransGen fun a b => setting.Leads talk a b ∧ b.HasRoom

/-- A machine executes verified code, or has returned from its outermost call. -/
def Machine.Lasts (p : Program) (final : Shape → Prop) (nested : Bool) (m : Machine) : Prop :=
  m.Sound p final nested ∨ (m.frames = [] ∧ m.ip = p.size)

/-- The machine of an activity executes verified code.  Machines that others wait for are
those of functions that native functions have called. -/
def Activity.Lasts (p : Program) (final : Shape → Prop) : Activity → Prop
  | .running waiting _ _ st => st.machine.Lasts p final !waiting.isEmpty
  | .calling .. => True

namespace Setting

variable {setting : Setting} {talk : Talk} {final : Shape → Prop} {start a : Activity}

theorem HappensInRoom.happens (h : setting.HappensInRoom talk start a) :
    setting.Happens talk start a := Relation.ReflTransGen.mono (fun _ _ => And.left) _ _ h

/-- Only verified functions come about. -/
theorem sustains_enters (hp : setting.program.Verifying) :
    setting.Sustains talk (Activity.Known fun _ => setting.program.enters) (fun _ _ => True)
      fun _ => setting.program.enters where
  refl _ := trivial
  trans _ _ _ _ _ := trivial
  among _ _ _ := .refl _
  newScope _ := trivial
  known _ := id
  leads _ _ _ _ _ := id
  instruction := by
    intro waiting fuel trace st op hknown hop hnative reenter
    have hmem : op ∈ setting.program.code.toList := by
      rw [← Array.getElem?_toList] at hop
      exact List.mem_of_getElem? hop
    have hleaves : Leaves setting.program.enters (fun _ => True)
        (setting.execute reenter op ⟨st.machine.past, announced trace op st⟩) :=
      known_execute hknown.1 (known_announced hknown.2)
        (fun hcode entry captured hpushed => hp op hmem hcode entry captured hpushed) hnative
    revert hleaves
    cases setting.execute reenter op ⟨st.machine.past, announced trace op st⟩ with
    | ok u st' => exact fun hleaves => ⟨trivial, hleaves.2⟩
    | error e st' => exact fun hleaves => ⟨trivial, hleaves⟩

/-- A step of a machine that executes verified code. -/
theorem sound_step {fuel : Nat} {nested trace : Bool} {st st' : State} {op : Op}
    (honest : Honest setting.natives talk) (h : st.machine.Sound setting.program final nested)
    (hknown : AllKnown setting.program.enters st.machine.stack)
    (hop : setting.program.code[st.machine.ip]? = some op)
    (hstep : setting.step (setting.callFrom fuel) trace st = .ok () st')
    (hroom : st'.machine.HasRoom) :
    st'.machine.Sound setting.program final nested ∨
      (op.code = .ret ∧ st.machine.frames.length = nested.toNat ∧ st'.machine.frames = [] ∧
        st'.machine.ip = setting.program.size) := by
  have hproceeds : Proceeds setting.program final nested st.machine op
      (setting.execute (setting.callFrom fuel op.position st.machine.depth) op
        ⟨st.machine.past, announced trace op st⟩) := proceeds_execute honest h hknown hop
  rw [step_eq_execute hop] at hstep
  generalize setting.execute (setting.callFrom fuel op.position st.machine.depth) op
    ⟨st.machine.past, announced trace op st⟩ = result at hstep hproceeds
  cases result with
  | error e st'' => cases hstep
  | ok u st'' =>
    cases hstep
    exact hproceeds hroom

/-- A step of a machine. -/
theorem lasts_step {fuel : Nat} {nested trace : Bool} {st st' : State}
    (honest : Honest setting.natives talk) (h : st.machine.Lasts setting.program final nested)
    (hknown : AllKnown setting.program.enters st.machine.stack)
    (hstep : setting.step (setting.callFrom fuel) trace st = .ok () st')
    (hroom : st'.machine.HasRoom) : st'.machine.Lasts setting.program final nested := by
  cases hop : setting.program.code[st.machine.ip]? with
  | none =>
    rw [step_of_none hop] at hstep
    cases hstep
    exact h
  | some op =>
    rcases h with hsound | ⟨-, hend⟩
    · exact (sound_step honest hsound hknown hop hstep hroom).imp id fun hreturned => hreturned.2.2
    · have hnone : setting.program.code[st.machine.ip]? = none :=
        Array.getElem?_eq_none (Nat.le_of_eq hend.symm)
      rw [hnone] at hop
      cases hop

/-- The machine of a function that is called into the engine. -/
theorem lasts_enter {reenter : Reentry} {depth entry : Nat} {captured : List ScopeRef}
    {args : List Value} {s : Store} {st : State}
    (hcallee : setting.program.enters entry captured)
    (h : setting.callValue reenter (.function entry captured) args.length none
      ⟨setting.calleeMachine s.newScope.1 depth args, s.newScope.2⟩ = .ok () st)
    (hroom : st.machine.HasRoom) : st.machine.Lasts setting.program final true := by
  rw [callValue_calleeMachine, invoke] at h
  dsimp only at h
  split at h
  · cases h
  · cases h
    have hlength : (Value.number (Number.ofNat args.length) :: (args.reverse ++ [])).length <
        Number.mantissaBound := hroom
    have hcount : IsCount (.number (Number.ofNat args.length)) args.reverse.length := by
      rw [List.length_reverse]
      refine isCount_ofNat ?_
      simp only [List.length_cons, List.length_append, List.length_reverse] at hlength
      omega
    have htallied : Fits [.tallied] (.number (Number.ofNat args.length) :: args.reverse) :=
      fits_singleton.2 ⟨_, _, rfl, hcount⟩
    refine .inl ⟨.entry, [], [], .native rfl rfl rfl rfl, ?_, ?_⟩
    · exact ⟨_, [], rfl, rfl, ⟨htallied, rfl⟩, rfl⟩
    · exact Program.Verified.mono hcallee fun _ _ => id

/-- **All that happens in room executes verified code.** -/
theorem lasts_of_happensInRoom (honest : Honest setting.natives talk)
    (hp : setting.program.Verifying) (hstart : start.Lasts setting.program final)
    (hknown : start.Known fun _ => setting.program.enters)
    (h : setting.HappensInRoom talk start a) : a.Lasts setting.program final := by
  induction h with
  | refl => exact hstart
  | tail hb hleads ih =>
    have hb' := ((sustains_enters hp).happens honest hknown (HappensInRoom.happens hb)).1
    obtain ⟨hleads, hroom⟩ := hleads
    cases hleads with
    | step hstep => exact lasts_step honest ih hb'.1 hstep hroom
    | invoke => trivial
    | enter hcall => exact lasts_enter hb'.1 hcall hroom
    | native => trivial

end Setting

/-! ### Engines -/

namespace Engine

/-- No check of the machine is tripped in an engine, in whatever it goes on with.  When the
text that was loaded last runs off its end, there is a value on the stack if and only
if its last statement is an expression. -/
structure Safe (e : Engine) (talk : Talk) (last : Chunk) : Prop where
  checks : ∀ {start : Activity} {waiting : List Machine} {fuel : Nat} {trace : Bool} {st : State}
    {op : Op}, e.Begins start →
    e.setting.HappensInRoom talk start (.running waiting fuel trace st) →
    e.setting.program.code[st.machine.ip]? = some op → ∀ (c : MachineCause) (st' : State),
      e.setting.execute (e.setting.callFrom fuel op.position st.machine.depth) op
        ⟨st.machine.past, Setting.announced trace op st⟩ ≠ .error (.cause (.machine c)) st'
  within : ∀ {start : Activity} {waiting : List Machine} {fuel : Nat} {trace : Bool} {st : State}
    {op : Op}, e.Begins start →
    e.setting.HappensInRoom talk start (.running waiting fuel trace st) →
    e.setting.program.code[st.machine.ip]? = some op → st.machine.Within op
  finish : ∀ {fuel : Nat} {options : RunOptions} {e' : Engine} {op : Op},
    e.setting.program.code[e.machine.ip]? = some op → step fuel options e = .ok () e' →
    e'.machine.HasRoom → ¬ (op.code = .ret ∧ e.machine.frames = []) → e'.halted →
    e'.machine.stack.length = (endsInExpression last).toNat
  empty : e.setting.program.start = e.setting.program.size → endsInExpression last = false

/-- The shape that a text runs off its end with. -/
def endShape (last : Chunk) : Shape → Prop := (· = ⟨keptCells (endsInExpression last), [], 1⟩)

/-- An engine whose texts are verified. -/
structure Sound (e : Engine) (last : Chunk) : Prop where
  program : e.setting.program.Verifying
  main : e.setting.program.Verified (endShape last) e.setting.program.start ⟨[], [], 1⟩
  store : e.store.Known e.setting.program.enters
  stack : e.fault = none → AllKnown e.setting.program.enters e.machine.stack
  machine : e.fault = none → e.machine.HasRoom →
    e.machine.Lasts e.setting.program (endShape last) false

variable {e e' : Engine} {talk : Talk} {last : Chunk}

theorem finalAt_nil (final : Shape → Prop) : finalAt final [] = final :=
  funext fun _ => propext (and_iff_right rfl)

/-- A machine at the beginning of a text. -/
theorem lasts_atTopLevel {p : Program} {final : Shape → Prop} {root : ScopeRef}
    (h : p.Verified final p.start ⟨[], [], 1⟩) :
    (Machine.atTopLevel p.start root).Lasts p final false := by
  refine .inl ⟨⟨[], [], 1⟩, [], [], .text rfl, ⟨[], [], rfl, rfl, ⟨.nil, rfl⟩, rfl⟩, ?_⟩
  exact (finalAt_nil final).symm ▸ h

/-- What a sound engine begins with. -/
theorem Sound.begins (h : e.Sound last) (hroom : e.machine.HasRoom) {start : Activity}
    (hstart : e.Begins start) :
    start.Known (fun _ => e.setting.program.enters) ∧
      start.Lasts e.setting.program (endShape last) := by
  cases hstart with
  | step fuel trace hfault => exact ⟨⟨h.stack hfault, h.store⟩, h.machine hfault hroom⟩
  | call fuel hcallee hargs =>
    exact ⟨⟨known_of_offers h.store hcallee, fun v hv => known_of_offers h.store (hargs v hv),
      h.store⟩, trivial⟩

/-- A machine that happens in a sound engine and has an instruction to execute. -/
theorem Sound.happens (h : e.Sound last) (honest : Honest e.setting.natives talk)
    (hroom : e.machine.HasRoom) {start : Activity} {waiting : List Machine} {fuel : Nat}
    {trace : Bool} {st : State} {op : Op} (hstart : e.Begins start)
    (hst : e.setting.HappensInRoom talk start (.running waiting fuel trace st))
    (hop : e.setting.program.code[st.machine.ip]? = some op) :
    AllKnown e.setting.program.enters st.machine.stack ∧
      st.machine.Sound e.setting.program (endShape last) !waiting.isEmpty := by
  obtain ⟨hknown, hlasts⟩ := h.begins hroom hstart
  refine ⟨((Setting.sustains_enters h.program).happens honest hknown hst.happens).1.1, ?_⟩
  rcases Setting.lasts_of_happensInRoom honest h.program hlasts hknown hst with hsound | ⟨-, hend⟩
  · exact hsound
  · rw [Array.getElem?_eq_none (Nat.le_of_eq hend.symm)] at hop
    cases hop

/-- The stack of a text that has run off its end. -/
theorem length_stack_of_end {p : Program} {m : Machine} (h : m.Sound p (endShape last) false)
    (hend : p.size ≤ m.ip) : m.stack.length = (endsInExpression last).toNat := by
  obtain ⟨-, σ, rfl, stack, marks, hstack, -, ⟨hfits, -⟩, -⟩ := h.of_end hend
  have hcells (keep : Bool) : keptCells keep = values keep.toNat := by cases keep <;> rfl
  rw [hcells] at hfits
  rw [hstack, List.append_nil]
  exact fits_values.1 hfits

/-- **A sound engine is safe.** -/
theorem Sound.safe (h : e.Sound last) (honest : Honest e.setting.natives talk)
    (hroom : e.machine.HasRoom) : e.Safe talk last where
  checks := by
    intro start waiting fuel trace st op hstart hst hop c st' hrun
    obtain ⟨hknown, hsound⟩ := h.happens honest hroom hstart hst hop
    have hproceeds : Proceeds e.setting.program (endShape last) (!waiting.isEmpty) st.machine op
        (e.setting.execute (e.setting.callFrom fuel op.position st.machine.depth) op
          ⟨st.machine.past, Setting.announced trace op st⟩) :=
      Setting.proceeds_execute honest hsound hknown hop
    rw [hrun] at hproceeds
    cases hproceeds
  within hstart hst hop := (h.happens honest hroom hstart hst hop).2.within hop
  finish := by
    intro fuel options e' op hop hstep hroom' hreturn hhalted
    obtain ⟨hfault, st, hrun, rfl⟩ := of_step_ok hstep
    obtain ⟨hknown, hsound⟩ := h.happens honest hroom (.step fuel options.trace hfault) .refl hop
    rcases Setting.sound_step honest hsound hknown hop hrun hroom' with hsound' | ⟨hret, hopen, -⟩
    · exact length_stack_of_end hsound' (of_decide_eq_true hhalted)
    · exact absurd ⟨hret, List.length_eq_zero_iff.1 hopen⟩ hreturn
  empty := by
    intro hempty
    have hmain := h.main
    rw [hempty] at hmain
    obtain ⟨-, hfinal⟩ := hmain.at_end (Array.getElem?_eq_none (Nat.le_refl _))
    have htop : [] = keptCells (endsInExpression last) := congrArg Shape.top hfinal
    cases hends : endsInExpression last with
    | false => rfl
    | true =>
      rw [hends] at htop
      cases htop

/-! ### Lives -/

variable {config : Config} {natives : Builtin → NativeBody} {store : Store} {past : Set Activity}

theorem sound_ofStore (hstore : store.Known fun _ _ => False) :
    (ofStore config natives store).Sound [] where
  program := Program.verifying_empty
  main := fun _ => Program.accepts_size rfl
  store := (hstore.mono fun _ _ => False.elim).newScope
  stack _ := .nil
  machine _ _ := lasts_atTopLevel fun _ => Program.accepts_size rfl

/-- A text that is loaded is verified, and so is what was loaded before. -/
theorem Sound.load (h : e.Sound last) {source : String} {chunk : Chunk}
    (hparse : parse source = .ok chunk) (hload : Engine.load source e = .ok () e') :
    e'.Sound chunk := by
  rw [Engine.load, hparse] at hload
  cases hload
  generalize hfolded : (if e.setting.config.optimize = true then optimize chunk else chunk) = folded
  have hformed : chunkFormed false folded := by
    rw [← hfolded]
    split
    · exact chunkFormed_optimize (chunkFormed_of_parse hparse)
    · exact chunkFormed_of_parse hparse
  have hends : endsInExpression folded = endsInExpression chunk := by
    rw [← hfolded]
    split
    · exact endsInExpression_optimize chunk
    · rfl
  have hmain := e.setting.program.verified_main (chunkClosed_of_formed _ hformed)
  rw [hends] at hmain
  have hstore (records : List Event) {E : Functions} {s : Store} (hs : s.Known E) :
      (records.foldl Store.emit s).Known E := by
    induction records generalizing s with
    | nil => exact hs
    | cons event rest ih => exact ih (hs.emit event)
  exact
    { program := Program.verifying_extend h.program (chunkClosed_of_formed _ hformed) fun f hf =>
        closed_of_mem_chunkFunctions hformed hf
      main := hmain
      store := hstore _ (h.store.mono fun _ _ hverified =>
        hverified.mono fun _ _ => Program.getElem?_extend_of_some _ _)
      stack := fun _ => .nil
      machine := fun _ _ => lasts_atTopLevel hmain }

theorem Sound.reset (h : e.Sound last) (hreset : Engine.reset e = .ok () e') : e'.Sound last := by
  cases hreset
  exact
    { program := h.program
      main := h.main
      store := h.store.newScope
      stack := fun _ => .nil
      machine := fun _ _ => lasts_atTopLevel h.main }

theorem Sound.define (h : e.Sound last) {name key : String}
    (hdefine : Engine.define name key e = .ok () e') : e'.Sound last := by
  cases hdefine
  have hstore := h.store.newNative name (.host key)
  exact { h with store := hstore.setGlobal name trivial }

theorem Sound.step (h : e.Sound last) (honest : Honest e.setting.natives talk)
    (hroom : e.machine.HasRoom) {fuel : Nat} {options : RunOptions}
    (hstep : Engine.step fuel options e = .ok () e') : e'.Sound last := by
  obtain ⟨hfault, st, hrun, rfl⟩ := of_step_ok hstep
  have hknown : (e.stepping fuel options.trace).Known fun _ => e.setting.program.enters :=
    ⟨h.stack hfault, h.store⟩
  have hsustained := (Setting.sustains_enters h.program).step honest hknown
  rw [hrun] at hsustained
  exact
    { program := h.program
      main := h.main
      store := hsustained.2.2
      stack := fun _ => hsustained.2.1
      machine := fun _ hroom' =>
        Setting.lasts_step honest (h.machine hfault hroom) (h.stack hfault) hrun hroom' }

theorem Sound.fail (h : e.Sound last) (honest : Honest e.setting.natives talk)
    (hfault : e.fault = none) {fuel : Nat} {options : RunOptions} {err : Error}
    (hstep : Engine.step fuel options e = .error (.error err) e') : e'.Sound last := by
  obtain ⟨st, hrun, rfl⟩ := of_step_error hfault hstep
  have hknown : (e.stepping fuel options.trace).Known fun _ => e.setting.program.enters :=
    ⟨h.stack hfault, h.store⟩
  have hsustained := (Setting.sustains_enters h.program).step honest hknown
  rw [hrun] at hsustained
  exact
    { program := h.program
      main := h.main
      store := hsustained.2
      stack := nofun
      machine := nofun }

theorem Sound.call (h : e.Sound last) (honest : Honest e.setting.natives talk) (fuel : Nat)
    {callee : Value} {args : List Value} (hcallee : e.Offers callee)
    (hargs : ∀ v ∈ args, e.Offers v) : (stateOf (Engine.call fuel callee args e)).Sound last := by
  rw [stateOf_call]
  have hknown : (e.calling fuel callee args).Known fun _ => e.setting.program.enters :=
    ⟨known_of_offers h.store hcallee, fun v hv => known_of_offers h.store (hargs v hv), h.store⟩
  have hanswers := (Setting.sustains_enters h.program).call honest hknown
  refine { h with store := ?_ }
  dsimp only
  revert hanswers
  cases e.setting.callFrom fuel e.position e.machine.depth callee args e.store with
  | ok results s => exact fun hanswers => hanswers.2.2
  | error i s => exact fun hanswers => hanswers.2

/-- **No engine trips a check of its machine.**  Whatever texts are loaded into an engine
with honest native functions and however far it goes on with them, no instruction fails
with a check, none takes values off the stack that belong to other calls, and a text
that runs off its end leaves one value if it ends in an expression and none otherwise.
The stacks must not have become too high for their heights to be numbers. -/
theorem safe_of_reached (honest : Honest natives talk) (hstore : store.Known fun _ _ => False)
    (h : Reached config natives talk store e last past)
    (hpast : ∀ fuel trace st, Activity.running [] fuel trace st ∈ past → st.machine.HasRoom)
    (hroom : e.machine.HasRoom) : e.Safe talk last := by
  have hsound : e.Sound last := by
    clear hroom
    induction h with
    | new => exact sound_ofStore hstore
    | load _ hparse hload ih => exact (ih hpast).load hparse hload
    | reset _ hreset ih => exact (ih hpast).reset hreset
    | define _ hdefine ih => exact (ih hpast).define hdefine
    | step h hstep ih =>
      have hsound := ih fun fuel trace st hst => hpast fuel trace st (.inl hst)
      exact hsound.step (h.natives_eq ▸ honest) (hpast _ _ _ (.inr .refl)) hstep
    | fail h hfault hstep ih =>
      have hsound := ih fun fuel trace st hst => hpast fuel trace st (.inl hst)
      exact hsound.fail (h.natives_eq ▸ honest) hfault hstep
    | call h hcallee hargs ih =>
      have hsound := ih fun fuel trace st hst => hpast fuel trace st (.inl hst)
      exact hsound.call (h.natives_eq ▸ honest) _ hcallee hargs
  exact hsound.safe (h.natives_eq ▸ honest) hroom

/-- An engine with the standard library, and a text that ends in an expression. -/
theorem safe_of_reached_call :
    ∃ (talk : Talk) (e : Engine) (chunk : Chunk), Honest (Library.run Host.function) talk ∧
      parse "x = 1 f(x)" = .ok chunk ∧ endsInExpression chunk = true ∧
      Engine.load "x = 1 f(x)" (Engine.new .standard) = .ok () e ∧ e.Safe talk chunk := by
  obtain ⟨talk, honest⟩ := honest_run
  have hends : ((parse "x = 1 f(x)").map endsInExpression).toOption = some true := by
    decide +kernel
  cases hchunk : parse "x = 1 f(x)" with
  | error err =>
    rw [hchunk] at hends
    cases hends
  | ok chunk =>
    rw [hchunk] at hends
    have hload : ∃ e, Engine.load "x = 1 f(x)" (Engine.new .standard) = .ok () e ∧
        e.machine.HasRoom := by
      have hempty : ([] : List Value).length < Number.mantissaBound := by decide
      rw [Engine.load, hchunk]
      exact ⟨_, rfl, hempty⟩
    obtain ⟨e, hload, hroom⟩ := hload
    have hreached : Reached .standard (Library.run Host.function) talk (Library.install .empty) e
        chunk ∅ := .load .new hchunk hload
    exact ⟨talk, e, chunk, honest, rfl, Option.some.inj hends, hload,
      safe_of_reached honest (Library.known_install Store.known_empty) hreached
        (fun _ _ _ => by simp) hroom⟩

end Engine

end ScriptEngine
