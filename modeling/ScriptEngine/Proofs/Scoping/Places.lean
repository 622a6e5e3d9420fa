import ScriptEngine.Proofs.Reentry.Histories
import ScriptEngine.Proofs.Scoping.Instructions

/-!
# Where machines are

Each call of a machine is, or goes on, at a known place of the program, in the code of its
function, and has opened as many scopes as there are blocks open at that place, besides the
one it started with.  The outermost call is that of a text; a machine that a native function
has started has a place at the end of the program instead, to which the function returns.

## Main definitions

* `Machine.located` — the calls of a machine with their places.
* `Shifts` — what an instruction does to calls, their places and their scopes.
* `Placed` — calls with known places.

## Main results

* `Setting.shifts_moves`, `Setting.shifts_step` — every instruction, and so every step, does
  one of these things.
* `Placed.shifts` — what instructions do leads from known places to known places.
-/

namespace ScriptEngine

open Exec

/-- The calls of a machine with the places where they are, or where they go on, the active one
first. -/
def Machine.located (m : Machine) : List (Nat × Activation) :=
  (m.ip, m.activation) :: m.frames.map fun frame => (frame.returnTo, frame.activation)

/-! ### What instructions do to calls -/

/-- What an instruction does to the blocks that a call has open, and to the scopes that it has
opened: nothing, it opens a block or closes one.  There are `size` scopes before, and `size'`
scopes behind it. -/
inductive Slides (size size' : Nat) : List Nat → List ScopeRef → List Nat → List ScopeRef → Prop
  | stay {blocks : List Nat} {scopes : List ScopeRef} :
      Slides size size' blocks scopes blocks scopes
  | opened {blocks : List Nat} {scopes : List ScopeRef} (block : Nat) (h : size' = size + 1) :
      Slides size size' blocks scopes (block :: blocks) (⟨size⟩ :: scopes)
  | closed {block : Nat} {blocks : List Nat} {scopes : List ScopeRef} :
      Slides size size' (block :: blocks) scopes blocks scopes.tail

/-- What an instruction does to calls: the active one goes on in its function, enters another
function or returns, or the outermost call ends. -/
inductive Shifts (p : Program) (site : Nat → Option Site) (E : Functions) (root : ScopeRef)
    (size size' : Nat) : List (Nat × Activation) → List (Nat × Activation) → Prop
  | within {call call' : Nat × Activation} {calls : List (Nat × Activation)}
      (hcaptured : call'.2.captured = call.2.captured)
      (hslides : ∀ function blocks, site call.1 = some ⟨function, blocks⟩ →
        ∃ blocks', site call'.1 = some ⟨function, blocks'⟩ ∧
          Slides size size' blocks call.2.scopes blocks' call'.2.scopes) :
      Shifts p site E root size size' (call :: calls) (call' :: calls)
  | entered {ip ip' entry : Nat} {x : Activation} {captured : List ScopeRef}
      {calls : List (Nat × Activation)}
      (hsite : ∀ here, site ip = some here → site ip' = some here) (hentry : E entry captured)
      (hsize : size' = size + 1) :
      Shifts p site E root size size' ((ip, x) :: calls)
        ((entry, ⟨[⟨size⟩], captured⟩) :: (ip', x) :: calls)
  | left {call : Nat × Activation} {calls : List (Nat × Activation)} (h : calls ≠ []) :
      Shifts p site E root size size' (call :: calls) calls
  | ended {call : Nat × Activation} :
      Shifts p site E root size size' [call] [(p.size, ⟨[root], []⟩)]

namespace Shifts

variable {p : Program} {site : Nat → Option Site} {E : Functions} {root : ScopeRef}
  {size size' : Nat} {calls calls' : List (Nat × Activation)}

/-- Nothing happens at the end of a program. -/
theorem refl (call : Nat × Activation) (calls : List (Nat × Activation)) :
    Shifts p site E root size size' (call :: calls) (call :: calls) :=
  .within rfl fun _ blocks hsite => ⟨blocks, hsite, .stay⟩

/-- The outermost call stays what it is while there are others. -/
theorem outermost (h : Shifts p site E root size size' calls calls') (hinner : calls.tail ≠ [])
    {last : Nat × Activation} (hlast : [last] <:+ calls) : [last] <:+ calls' := by
  have hrest {call : Nat × Activation} {rest : List (Nat × Activation)}
      (hlast : [last] <:+ call :: rest) (hne : rest ≠ []) : [last] <:+ rest := by
    rcases List.suffix_cons_iff.1 hlast with heq | hsuffix
    · exact absurd (List.cons.inj heq).2.symm hne
    · exact hsuffix
  cases h with
  | within => exact (hrest hlast hinner).trans (List.suffix_cons _ _)
  | entered =>
    exact (hrest hlast hinner).trans ((List.suffix_cons _ _).trans (List.suffix_cons _ _))
  | left hne => exact hrest hlast hne
  | ended => exact absurd rfl hinner

end Shifts

namespace Setting

variable {setting : Setting} {site : Nat → Option Site} {E : Functions} {op : Op} {m : Machine}
  {s : Store} {st : State}

theorem located_eq {m' : Machine} {scopes captured : List ScopeRef} {frames : List Frame}
    (h : m'.calls = (scopes, captured, frames)) :
    m'.located = (m'.ip, ⟨scopes, captured⟩) ::
      frames.map fun frame => (frame.returnTo, frame.activation) := by
  obtain ⟨rfl, hrest⟩ := Prod.mk.inj h
  obtain ⟨rfl, rfl⟩ := Prod.mk.inj hrest
  rfl

/-- Where control flows to. -/
theorem site_flow (hsited : setting.program.Sited site) {ip target : Nat}
    (hop : setting.program.code[ip]? = some op) (hflow : op.Flows (ip + 1) target)
    {function : Option Nat} {blocks : List Nat} (hsite : site ip = some ⟨function, blocks⟩) :
    site target = some ⟨function, op.blocks ip blocks⟩ := (hsited.fits hop hsite).flow target hflow

/-- **What instructions do to calls.** -/
theorem shifts_moves (hsited : setting.program.Sited site)
    (hop : setting.program.code[m.ip]? = some op) (hmoves : Moves setting op ⟨m.past, s⟩ st)
    (hknown : AllKnown E m.stack) :
    Shifts setting.program site E setting.root s.scopes.size st.store.scopes.size m.located
      st.machine.located := by
  have hnext (hcode : op.code ≠ .jump) (hret : op.code ≠ .ret) (hleave : op.code ≠ .leave) :
      op.Flows (m.ip + 1) (m.ip + 1) := .next hcode hret hleave
  cases hmoves with
  | stay hstart hend hflow hcalls =>
    rw [located_eq hcalls]
    refine .within rfl fun function blocks hsite => ⟨blocks, ?_, .stay⟩
    have htarget := site_flow hsited hop hflow hsite
    rwa [op.blocks_of_ne hstart hend] at htarget
  | opened hcode hip hcalls =>
    rw [located_eq hcalls, hip]
    refine .within rfl fun function blocks hsite =>
      ⟨m.ip :: blocks, ?_, .opened _ (Array.size_push _)⟩
    have htarget := site_flow hsited hop
      (hnext (by simp [hcode]) (by simp [hcode]) (by simp [hcode])) hsite
    simp only [Op.blocks, hcode] at htarget
    exact htarget
  | closed hcode hip hcalls =>
    rw [located_eq hcalls, hip]
    refine .within rfl fun function blocks hsite => ?_
    have htarget := site_flow hsited hop
      (hnext (by simp [hcode]) (by simp [hcode]) (by simp [hcode])) hsite
    obtain ⟨block, outer, rfl⟩ := List.exists_cons_of_ne_nil ((hsited.fits hop hsite).close hcode)
    simp only [Op.blocks, hcode, List.tail_cons] at htarget
    exact ⟨outer, htarget, .closed⟩
  | @entered _ _ i entry captured hi hcallee =>
    have hentry : E entry captured := by
      have hcallee' := (known_invocation hi hknown).1
      rwa [hcallee] at hcallee'
    refine .entered (fun here hsite => ?_) hentry (Array.size_push _)
    have hcode := code_of_invocation hi
    have htarget := site_flow hsited hop (hnext
      (by rcases hcode with hcode | hcode <;> simp [hcode])
      (by rcases hcode with hcode | hcode <;> simp [hcode])
      (by rcases hcode with hcode | hcode <;> simp [hcode])) hsite
    rwa [op.blocks_of_ne (by rcases hcode with hcode | hcode <;> simp [hcode])
      (by rcases hcode with hcode | hcode <;> simp [hcode])] at htarget
  | @left _ _ frame frames hcode hframes hcalls hip =>
    have hframes' : m.frames = frame :: frames := hframes
    rw [located_eq hcalls, hip, Machine.located, hframes']
    exact .left (List.cons_ne_nil _ _)
  | ended hcode hframes hcalls hip =>
    have hframes' : m.frames = [] := hframes
    rw [located_eq hcalls, hip, Machine.located, hframes']
    exact .ended

/-- **What steps do to calls.** -/
theorem shifts_step (hsited : setting.program.Sited site) (hknown : AllKnown E st.machine.stack)
    {call : Position → Nat → Reentry} {trace : Bool} {st' : State}
    (hstep : setting.step call trace st = .ok () st') :
    Shifts setting.program site E setting.root st.store.scopes.size st'.store.scopes.size
      st.machine.located st'.machine.located := by
  cases hop : setting.program.code[st.machine.ip]? with
  | none =>
    rw [step_of_none hop] at hstep
    cases hstep
    exact .refl _ _
  | some op =>
    have hmoves : MovesTo setting op ⟨st.machine.past, announced trace op st⟩
        (setting.execute (call op.position st.machine.depth) op
          ⟨st.machine.past, announced trace op st⟩) := movesTo_execute
    rw [step_eq_execute hop] at hstep
    split at hstep
    · next st'' hrun =>
      rw [hrun] at hmoves
      cases hstep
      have hshifts := shifts_moves hsited hop hmoves hknown
      rwa [scopes_announced, ← scopes_recorded trace st''] at hshifts
    · cases hstep

end Setting

/-! ### Known places -/

/-- A call is at a place of a function and has opened a scope for each block there, besides
its first one. -/
def At (site : Nat → Option Site) (function : Option Nat) (call : Nat × Activation) : Prop :=
  ∃ blocks, site call.1 = some ⟨function, blocks⟩ ∧ call.2.scopes.length = blocks.length + 1

/-- Calls with known places.  All but the outermost one are calls of functions. -/
inductive Placed (site : Nat → Option Site) : List (Nat × Activation) → Prop
  | outermost {call : Nat × Activation} (h : At site none call) (hcaptured : call.2.captured = []) :
      Placed site [call]
  | inner {call : Nat × Activation} {calls : List (Nat × Activation)} {entry : Nat}
      (h : At site (some entry) call) (hcalls : Placed site calls) : Placed site (call :: calls)

theorem Slides.length_eq {size size' : Nat} {blocks blocks' : List Nat}
    {scopes scopes' : List ScopeRef} (h : Slides size size' blocks scopes blocks' scopes')
    (hlength : scopes.length = blocks.length + 1) : scopes'.length = blocks'.length + 1 := by
  cases h with
  | stay => exact hlength
  | opened => exact congrArg (· + 1) hlength
  | closed =>
    rw [List.length_tail, hlength]
    rfl

namespace Placed

variable {site : Nat → Option Site} {call call' : Nat × Activation}
  {calls calls' : List (Nat × Activation)}

/-- The place of the active call. -/
theorem exists_at (h : Placed site (call :: calls)) : ∃ function, At site function call := by
  cases h with
  | outermost h => exact ⟨none, h⟩
  | inner h => exact ⟨_, h⟩

/-- The active call goes on at another place of its function. -/
theorem moved (h : Placed site (call :: calls)) (hcaptured : call'.2.captured = call.2.captured)
    (hat : ∀ function, At site function call → At site function call') :
    Placed site (call' :: calls) := by
  cases h with
  | outermost h hnone => exact .outermost (hat _ h) (hcaptured.trans hnone)
  | inner h hcalls => exact .inner (hat _ h) hcalls

/-- **Instructions lead to known places.** -/
theorem shifts {p : Program} {E : Functions} {root : ScopeRef} {size size' : Nat}
    (h : Placed site calls) (hsited : p.Sited site) (hE : E.Among p.pushes)
    (hshifts : Shifts p site E root size size' calls calls') : Placed site calls' := by
  cases hshifts with
  | within hcaptured hslides =>
    refine h.moved hcaptured fun function hat => ?_
    obtain ⟨blocks, hsite, hlength⟩ := hat
    obtain ⟨blocks', hsite', hslides⟩ := hslides function blocks hsite
    exact ⟨blocks', hsite', hslides.length_eq hlength⟩
  | entered hsite hentry =>
    refine .inner ⟨[], hsited.of_pushes (hE _ _ hentry), rfl⟩ (h.moved rfl fun function hat => ?_)
    obtain ⟨blocks, hhere, hlength⟩ := hat
    exact ⟨blocks, hsite _ hhere, hlength⟩
  | left hne =>
    cases h with
    | outermost => exact absurd rfl hne
    | inner _ hcalls => exact hcalls
  | ended => exact .outermost ⟨[], hsited.finish, rfl⟩ rfl

/-- Only the outermost call is at a place of a text. -/
theorem lt_start {p : Program} {m : Machine} (hsited : p.Sited site) (h : Placed site m.located)
    (hframes : m.frames ≠ []) : m.ip < p.start := by
  obtain ⟨frame, frames, hopen⟩ := List.exists_cons_of_ne_nil hframes
  rw [Machine.located, hopen] at h
  cases h with
  | inner h hcalls =>
    obtain ⟨blocks, hsite, -⟩ := h
    exact Nat.lt_of_not_le fun hle => nomatch (hsited.main hsite).2 hle

end Placed

namespace Setting

variable {setting : Setting} {site : Nat → Option Site} {st : State}

/-- A step leads to known places. -/
theorem placed_step (hsited : setting.program.Sited site) (h : Placed site st.machine.located)
    (hknown : AllKnown setting.program.pushes st.machine.stack)
    {call : Position → Nat → Reentry} {trace : Bool} {st' : State}
    (hstep : setting.step call trace st = .ok () st') : Placed site st'.machine.located :=
  h.shifts hsited (.refl _) (shifts_step hsited hknown hstep)

end Setting

end ScriptEngine
