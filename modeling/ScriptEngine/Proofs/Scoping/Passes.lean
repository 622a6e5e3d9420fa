import ScriptEngine.Proofs.Scoping.Places
import ScriptEngine.Proofs.Scoping.Writes

/-!
# Passes of loops

When a loop is begun anew, no block inside of it is open.  The variables that are declared in
its next pass are in the block of that pass, or further inside; the scopes of these blocks are
opened from then on, so that no scope that is there before belongs to the pass.

## Main definitions

* `Setting.Goes` — what comes after a state as long as some calls are open.
* `Kept` — the blocks that a call has still open, and those that it has opened since then.

## Main results

* `Kept.slides`, `KeptIn.shifts` — instructions keep count of the blocks that are open.
* `Setting.fresh_of_loop` — in a pass of a loop, variables are declared in scopes that are opened
  in the course of it.
-/

namespace ScriptEngine

open Exec

/-! ### Blocks that stay open -/

/-- The blocks that a call has open with their scopes, innermost first: those that it had open
at a time when there were `size` scopes, less some, and others, opened since then. -/
def Kept (size : Nat) (before now : List (Nat × ScopeRef)) : Prop :=
  ∃ since rest, now = since ++ rest ∧ (∀ label ∈ since, size ≤ label.2.index) ∧ rest <:+ before

theorem Kept.refl (size : Nat) (before : List (Nat × ScopeRef)) : Kept size before before :=
  ⟨[], before, rfl, nofun, List.suffix_refl _⟩

/-- Blocks are opened and closed. -/
theorem Kept.slides {size size₁ size₂ : Nat} {before : List (Nat × ScopeRef)}
    {blocks blocks' : List Nat} {scopes scopes' : List ScopeRef}
    (h : Kept size before (blocks.zip scopes))
    (hslides : Slides size₁ size₂ blocks scopes blocks' scopes') (hsize : size ≤ size₁) :
    Kept size before (blocks'.zip scopes') := by
  cases hslides with
  | stay => exact h
  | opened block =>
    obtain ⟨since, rest, hnow, hsince, hrest⟩ := h
    refine ⟨(block, ⟨size₁⟩) :: since, rest, ?_, List.forall_mem_cons.2 ⟨hsize, hsince⟩, hrest⟩
    rw [List.zip_cons_cons, hnow, List.cons_append]
  | closed =>
    obtain ⟨since, rest, hnow, hsince, hrest⟩ := h
    have htail : blocks'.zip scopes.tail = (since ++ rest).tail := by
      rw [← hnow]
      cases scopes with
      | nil => rw [List.tail_nil, List.zip_nil_right, List.zip_nil_right, List.tail_nil]
      | cons ref scopes => rfl
    cases since with
    | nil => exact ⟨[], rest.tail, htail, nofun, (List.tail_suffix _).trans hrest⟩
    | cons label since =>
      exact ⟨since, rest, htail, (List.forall_mem_cons.1 hsince).2, hrest⟩

/-- Inside of a block that was not open before, the innermost scope has been opened since then. -/
theorem Kept.head {size block : Nat} {before : List (Nat × ScopeRef)} {blocks : List Nat}
    {scopes : List ScopeRef} (h : Kept size before (blocks.zip scopes))
    (hlength : scopes.length = blocks.length + 1) (hblock : block ∈ blocks)
    (hclosed : ∀ label ∈ before, label.1 ≠ block) :
    ∃ ref, scopes.head? = some ref ∧ size ≤ ref.index := by
  obtain ⟨since, rest, hnow, hsince, hrest⟩ := h
  cases since with
  | nil =>
    -- If no block had been opened since then, this one would have been open before.
    have hblocks : (blocks.zip scopes).map Prod.fst = blocks :=
      List.map_fst_zip (Nat.le_of_lt (hlength ▸ Nat.lt_succ_self _))
    rw [← hblocks, hnow, List.nil_append] at hblock
    obtain ⟨label, hlabel, heq⟩ := List.mem_map.1 hblock
    exact absurd heq (hclosed label (hrest.subset hlabel))
  | cons label since =>
    obtain ⟨ref, scopes, rfl⟩ := List.exists_cons_of_length_eq_add_one hlength
    obtain ⟨first, blocks, rfl⟩ := List.exists_cons_of_ne_nil (List.ne_nil_of_mem hblock)
    rw [List.zip_cons_cons, List.cons_append] at hnow
    obtain rfl := (List.cons.inj hnow).1
    exact ⟨ref, rfl, hsince _ List.mem_cons_self⟩

/-- The call with the calls `outer` around it has blocks that it had open before, and others
opened since then. -/
def KeptIn (site : Nat → Option Site) (size : Nat) (before : List (Nat × ScopeRef))
    (outer calls : List (Nat × Activation)) : Prop :=
  ∃ inner call, calls = inner ++ call :: outer ∧
    ∀ function blocks, site call.1 = some ⟨function, blocks⟩ →
      Kept size before (blocks.zip call.2.scopes)

/-- **Instructions keep count of the blocks that are open**, as long as a call is open. -/
theorem KeptIn.shifts {p : Program} {site : Nat → Option Site} {E : Functions} {root : ScopeRef}
    {size size₁ size₂ : Nat} {before : List (Nat × ScopeRef)}
    {outer calls calls' : List (Nat × Activation)} (h : KeptIn site size before outer calls)
    (hsited : p.Sited site) (hplaced : Placed site calls)
    (hshifts : Shifts p site E root size₁ size₂ calls calls') (hsize : size ≤ size₁)
    (hopen : outer.length < calls'.length) : KeptIn site size before outer calls' := by
  obtain ⟨inner, call, hcalls, hkept⟩ := h
  cases hshifts with
  | @within first first' rest hcaptured hslides =>
    cases inner with
    | nil =>
      obtain ⟨rfl, rfl⟩ := List.cons.inj hcalls
      obtain ⟨function, blocks, hsite, -⟩ := hplaced.exists_at
      obtain ⟨blocks', hsite', hslides⟩ := hslides function blocks hsite
      refine ⟨[], first', rfl, fun function' blocks'' hsite'' => ?_⟩
      rw [hsite'] at hsite''
      cases hsite''
      exact (hkept function blocks hsite).slides hslides hsize
    | cons other inner =>
      obtain ⟨rfl, rfl⟩ := List.cons.inj hcalls
      exact ⟨first' :: inner, call, rfl, hkept⟩
  | @entered ip ip' entry x captured rest hhere =>
    cases inner with
    | nil =>
      obtain ⟨rfl, rfl⟩ := List.cons.inj hcalls
      obtain ⟨function, blocks, hsite, -⟩ := hplaced.exists_at
      refine ⟨[_], (ip', x), rfl, fun function' blocks' hsite' => ?_⟩
      rw [hhere _ hsite] at hsite'
      cases hsite'
      exact hkept function blocks hsite
    | cons other inner =>
      obtain ⟨rfl, rfl⟩ := List.cons.inj hcalls
      exact ⟨_ :: _ :: inner, call, rfl, hkept⟩
  | left =>
    cases inner with
    | nil =>
      obtain ⟨rfl, rfl⟩ := List.cons.inj hcalls
      exact absurd hopen (Nat.lt_irrefl _)
    | cons other inner =>
      obtain ⟨rfl, rfl⟩ := List.cons.inj hcalls
      exact ⟨inner, call, rfl, hkept⟩
  | ended =>
    obtain rfl : outer = [] := List.eq_nil_of_length_eq_zero (Nat.lt_one_iff.1 hopen)
    refine ⟨[], _, rfl, fun function blocks hsite => ?_⟩
    rw [hsited.finish] at hsite
    cases hsite
    exact ⟨[], [], rfl, nofun, List.nil_suffix⟩

/-! ### Loops -/

namespace Setting

variable {setting : Setting} {talk : Talk} {site : Nat → Option Site} {st st' : State}

/-- What comes after a state as long as the calls `frames` are open: the machine makes steps,
and the host can change the store between them. -/
def Goes (setting : Setting) (frames : List Frame) : State → State → Prop :=
  Relation.ReflTransGen fun st st' =>
    ((∃ fuel trace, setting.step (setting.callFrom fuel) trace st = .ok () st') ∨
      (st'.machine = st.machine ∧ st.store.scopes.size ≤ st'.store.scopes.size ∧
        st'.store.Known setting.program.pushes)) ∧ frames <:+ st'.machine.frames

/-- A state at known places, with functions of the program. -/
structure Sure (setting : Setting) (site : Nat → Option Site) (st : State) : Prop where
  placed : Placed site st.machine.located
  known : st.Known setting.program.pushes

/-- A step leads to known places, and no scopes get lost. -/
theorem Sure.step (h : setting.Sure site st) (honest : Honest setting.natives talk)
    (hsited : setting.program.Sited site) {fuel : Nat} {trace : Bool}
    (hstep : setting.step (setting.callFrom fuel) trace st = .ok () st') :
    setting.Sure site st' ∧ st.store.scopes.size ≤ st'.store.scopes.size := by
  have hrunning : (Activity.running [] fuel trace st).Known fun _ => setting.program.pushes :=
    h.known
  have hsustained := (setting.sustains_pushes talk).step honest hrunning
  have hevolves : Evolves (setting.WrittenIn talk (.running [] fuel trace st)) _ _ :=
    evolves_step honest []
  rw [hstep] at hsustained hevolves
  exact ⟨⟨placed_step hsited h.placed h.known.1 hstep, hsustained.2⟩, hevolves.size⟩

/-- The calls around a call. -/
def outerCalls (frames : List Frame) : List (Nat × Activation) :=
  frames.map fun frame => (frame.returnTo, frame.activation)

/-- **The blocks that a call has open**, after whatever it has done. -/
theorem keptIn_of_goes (honest : Honest setting.natives talk) (hsited : setting.program.Sited site)
    (hst : setting.Sure site st) {blocks : List Nat} {function : Option Nat}
    (hsite : site st.machine.ip = some ⟨function, blocks⟩)
    (h : setting.Goes st.machine.frames st st') :
    setting.Sure site st' ∧ st.store.scopes.size ≤ st'.store.scopes.size ∧
      KeptIn site st.store.scopes.size (blocks.zip st.machine.scopes) (outerCalls st.machine.frames)
        st'.machine.located := by
  induction h with
  | refl =>
    refine ⟨hst, Nat.le_refl _, [], (st.machine.ip, st.machine.activation), rfl, ?_⟩
    intro function' blocks' hsite'
    rw [hsite] at hsite'
    cases hsite'
    exact .refl _ _
  | @tail st₁ st₂ _ hnext ih =>
    obtain ⟨hsure, hsize, hkept⟩ := ih
    obtain ⟨⟨fuel, trace, hstep⟩ | ⟨hmachine, hstore, hknown⟩, hopen⟩ := hnext
    · obtain ⟨hsure', hsize'⟩ := hsure.step honest hsited hstep
      refine ⟨hsure', Nat.le_trans hsize hsize', hkept.shifts hsited hsure.placed
        (shifts_step hsited hsure.known.1 hstep) hsize ?_⟩
      rw [outerCalls, List.length_map, Machine.located, List.length_cons, List.length_map]
      exact Nat.lt_succ_of_le hopen.length_le
    · refine ⟨⟨hmachine ▸ hsure.placed, hmachine ▸ hsure.known.1, hknown⟩,
        Nat.le_trans hsize hstore, ?_⟩
      rw [hmachine]
      exact hkept

/-- **In a pass of a loop, variables are declared in scopes that are opened in the course of
it.** -/
theorem fresh_of_loop (honest : Honest setting.natives talk) (hsited : setting.program.Sited site)
    (hst : setting.Sure site st) {op : Op} {target : Nat}
    (hop : setting.program.code[st.machine.ip]? = some op) (hjump : op.code.isJump)
    (htarget : (target : Int) = st.machine.ip + 1 + op.offset) (hback : target ≤ st.machine.ip)
    (h : setting.Goes st.machine.frames st st') (hframes : st'.machine.frames = st.machine.frames)
    (hfirst : target ≤ st'.machine.ip) (hlast : st'.machine.ip ≤ st.machine.ip)
    (hdeclares : setting.program.Declares st'.machine.ip) :
    ∃ ref, st'.machine.scopes.head? = some ref ∧ st.store.scopes.size ≤ ref.index := by
  obtain ⟨function, blocks, hsite, -⟩ := hst.placed.exists_at
  obtain ⟨hsure, -, inner, call, hlocated, hkept⟩ := keptIn_of_goes honest hsited hst hsite h
  obtain ⟨block, -, -, hclosed, -, hpass⟩ := (hsited.fits hop hsite).loop hjump target htarget hback
  obtain ⟨blocks', hsite', hblock⟩ := hpass _ hfirst hlast hdeclares
  obtain ⟨rfl, rfl⟩ : inner = [] ∧ (st'.machine.ip, st'.machine.activation) = call := by
    have hlength := congrArg List.length hlocated
    rw [Machine.located, hframes] at hlocated
    rw [Machine.located, hframes, outerCalls, List.length_append, List.length_cons,
      List.length_cons] at hlength
    obtain rfl : inner = [] := List.eq_nil_of_length_eq_zero (by omega)
    exact ⟨rfl, (List.cons.inj hlocated).1⟩
  obtain ⟨function', here, hhere, hlength⟩ := hsure.placed.exists_at
  rw [hsite'] at hhere
  cases hhere
  -- The block of the pass was not open when the loop was begun anew.
  refine (hkept function blocks' hsite').head hlength hblock fun label hlabel heq => hclosed ?_
  exact heq ▸ (List.of_mem_zip hlabel).1

end Setting

end ScriptEngine
