import ScriptEngine.Proofs.Pieces.Breaks

/-!
# Bodies of loops

What a loop has put on the stack is below its body in every pass.  The body, with the instruction
that closes the scope of the pass, is verified on its own, too: it leaves all of this as it was,
whether it comes to its end or leaves the loop.

## Main definitions

* `Program.excerpt` — a piece of a program on its own, with the places where it may be left.
* `LoopSite.bodyStart`, `LoopSite.bodyStop` — where the body of a loop stands.

## Main results

* `LoopSite.Stands.verified_body` — the body of a loop is verified on its own.
* `Setting.cases_of_pass` — a pass gives back the machine that the loop had before, at its end or at
  the exit of the loop, unless the function returns.
-/

namespace ScriptEngine

/-! ### Pieces with several exits -/

namespace Program

/-- The instructions between two places, with such around them that fit no shape.  Only from some
places it goes on, at the end of the program. -/
def excerpt (p : Program) (start stop : Nat) (exits : List Nat) : Program :=
  ⟨p.code.mapIdx fun ip op =>
    if start ≤ ip ∧ ip < stop then op
    else if ip ∈ exits then .jumping .jump (p.size - (ip + 1) : Nat) op.position
    else .plain .leave op.position, 0⟩

variable {p : Program} {start stop ip n : Nat} {exits : List Nat} {final : Shape → Prop}
  {σ : Shape}

theorem size_excerpt (p : Program) (start stop : Nat) (exits : List Nat) :
    (p.excerpt start stop exits).size = p.size := Array.size_mapIdx

theorem getElem?_excerpt (hstart : start ≤ ip) (hstop : ip < stop) :
    (p.excerpt start stop exits).code[ip]? = p.code[ip]? := by
  simp only [excerpt, Array.getElem?_mapIdx, hstart, hstop, and_self, if_true, Option.map_id']

/-- A piece of code is the same in the excerpt. -/
theorem Holds.excerpt {places : List Nat} {exit : Option Nat} {code : Code}
    (h : p.Holds places exit ip code) (hstart : start ≤ ip) (hstop : ip + code.length ≤ stop) :
    (p.excerpt start stop exits).Holds places exit ip code :=
  h.congr fun _ hle hlt => getElem?_excerpt (by omega) (by omega)

theorem getElem?_excerpt_exit (hout : ¬ (start ≤ ip ∧ ip < stop)) (hexit : ip ∈ exits)
    (hsize : ip < p.code.size) : (p.excerpt start stop exits).code[ip]? =
      some (.jumping .jump (p.size - (ip + 1) : Nat) (p.code[ip]).position) := by
  simp only [excerpt, Array.getElem?_mapIdx, Array.getElem?_eq_getElem hsize, Option.map_some, hout,
    if_false, hexit, if_true]

/-- Where a piece may be left, the shape has to be final. -/
theorem accepts_excerpt (hexit : ip ∈ exits) (hstop : stop ≤ ip) (hsize : ip < p.size)
    (h : final σ) : (p.excerpt start stop exits).Accepts final n ip σ := by
  have hop : (p.excerpt start stop exits).code[ip]? = some _ :=
    getElem?_excerpt_exit (fun hin => absurd hin.2 (Nat.not_lt.2 hstop)) hexit hsize
  have hend : (p.excerpt start stop exits).Accepts final n p.size σ :=
    size_excerpt p start stop exits ▸ accepts_size h
  exact (Accepts.jump p.size hop (by omega) hend).pred

/-- Outside of a piece that is verified on its own the shape is final, or the program is at its
end. -/
theorem Verified.of_excerpt (h : (p.excerpt start stop exits).Verified final ip σ)
    (hout : ¬ (start ≤ ip ∧ ip < stop)) : p.size ≤ ip ∨ ip ∈ exits ∧ final σ := by
  refine or_iff_not_imp_left.2 fun hsize => ?_
  have hlt : ip < p.code.size := Nat.lt_of_not_le hsize
  by_cases hexit : ip ∈ exits
  · obtain ⟨targets, hflow, htargets⟩ := h.flow (getElem?_excerpt_exit hout hexit hlt)
    have htarget : jumpTarget? ip ((p.size - (ip + 1) : Nat) : Int) = some p.size :=
      jumpTarget?_eq (by omega)
    simp only [Op.flow, Op.jumping, Op.offset, htarget, Option.map_some, Option.some.injEq] at hflow
    subst hflow
    have hend := htargets _ (List.mem_singleton_self _)
    have hnone : (p.excerpt start stop exits).code[p.size]? = none :=
      Array.getElem?_eq_none (Nat.le_of_eq (size_excerpt p start stop exits))
    exact ⟨hexit, (hend.at_end hnone).2⟩
  · have hleave : (p.excerpt start stop exits).code[ip]? =
        some (.plain .leave (p.code[ip]).position) := by
      simp only [Program.excerpt, Array.getElem?_mapIdx, Array.getElem?_eq_getElem hlt,
        Option.map_some, hout, if_false, hexit]
    obtain ⟨targets, hflow, -⟩ := h.flow hleave
    cases hflow

end Program

/-! ### Bodies on their own -/

namespace LoopSite

/-- The first instruction of the body of a loop. -/
def bodyStart (l : LoopSite) : Nat := l.ip + l.loop.ahead l.next

/-- The instruction behind the body of a loop. -/
def bodyStop (l : LoopSite) (body : List Stat) : Nat :=
  l.bodyStart + (chunkCode (some 1) false body l.next).1.length

variable {p : Program} {places : List Nat} {l : LoopSite} {body : List Stat} {m₀ : Machine}
  {position : Position}

theorem Stands.holds_body (h : l.Stands p places) (hbody : l.loop.loopBody? = some body) :
    p.Holds places (some l.exit) l.bodyStart (chunkCode (some 1) false body l.next).1 ∧
      l.bodyStop body + 1 ≤ l.exit := ScriptEngine.holds_loopBody hbody h.holds

theorem Stands.closed_body (h : l.Stands p places) (hbody : l.loop.loopBody? = some body) :
    chunkClosed true body := by
  have hclosed := h.closed
  generalize l.loop = loop at hbody hclosed
  cases loop with
  | whileLoop | numericFor | genericFor | repeatLoop =>
    cases hbody
    exact hclosed
  | _ => cases hbody

/-- **The body of a loop is verified on its own**, over the machine that has come to the pass: at
its end, where the scope of the pass is closed, and at the exit of the loop it has left the stack,
the marks and the scopes as they were. -/
theorem Stands.verified_body (h : l.Stands p places) (hbody : l.loop.loopBody? = some body)
    (hclose : p.code[l.bodyStop body]? = some (.plain .endBlock position))
    (hexit : l.exit < p.size) (hscopes : m₀.scopes ≠ []) :
    (p.excerpt l.bodyStart (l.bodyStop body + 1) [l.bodyStop body + 1, l.exit]).Verified
      (· = m₀.under [] 0) l.bodyStart (m₀.under [] 1) := by
  intro n
  obtain ⟨hholds, hle⟩ := h.holds_body hbody
  have hone : 1 ≤ (m₀.under [] 0).scopes := by
    have hlength := List.length_pos_iff.2 hscopes
    simp only [Machine.under]
    omega
  have hstart : l.bodyStart ≤ l.bodyStop body := Nat.le_add_right _ _
  have hclosed : chunkClosed (some l.exit).isSome body := h.closed_body hbody
  refine accepts_chunkCode body hclosed (Nat.le_add_left _ _)
    (hholds.excerpt (Nat.le_refl _) (Nat.le_succ _)) (.of_loop hone ?_) ?_
  · exact Program.accepts_excerpt (.tail _ (List.mem_singleton_self _)) hle hexit rfl
  · have hop : (p.excerpt l.bodyStart (l.bodyStop body + 1)
        [l.bodyStop body + 1, l.exit]).code[l.bodyStop body]? = some (.plain .endBlock position) :=
      (Program.getElem?_excerpt hstart (Nat.lt_succ_self _)).trans hclose
    have hflow : (Op.plain .endBlock position).flow (l.bodyStop body) (m₀.under [] 1) =
        some [(l.bodyStop body + 1, m₀.under [] 0)] := if_pos (Nat.succ_le_succ hone)
    exact .of_next _ hop hflow
      (Program.accepts_excerpt List.mem_cons_self (Nat.le_refl _) (Nat.lt_of_le_of_lt hle hexit)
        rfl)

end LoopSite

namespace Setting

variable {setting : Setting} {talk : Talk} {fuel : Nat} {trace : Bool} {places : List Nat}
  {l : LoopSite} {body : List Stat} {position : Position} {s : Store} {st' : State}

/-- **A pass gives back the machine that has come to it**, but for the scope that was opened for the
pass: at its end, where this scope is closed, or at the exit of the loop.  Otherwise the function
returns, and the loop is left. -/
theorem cases_of_pass (honest : Honest setting.natives talk) (hp : setting.program.Verifying)
    (h : l.Stands setting.program places) (hbody : l.loop.loopBody? = some body)
    (hclose : setting.program.code[l.bodyStop body]? = some (.plain .endBlock position))
    (hexit : l.exit < setting.program.size) (m₀ : Machine) (hscopes : m₀.scopes ≠ [])
    (scope : ScopeRef)
    (hsteady : setting.Steady (setting.callFrom fuel) trace
      ⟨l.bodyStart, l.bodyStop body + 1, m₀.frames⟩
      ⟨{ m₀ with ip := l.bodyStart, scopes := scope :: m₀.scopes }, s⟩)
    (hrun : setting.Finishes (setting.callFrom fuel) trace
      ⟨l.bodyStart, l.bodyStop body + 1, m₀.frames⟩
      ⟨{ m₀ with ip := l.bodyStart, scopes := scope :: m₀.scopes }, s⟩ (.outside st')) :
    st'.machine = { m₀ with ip := l.bodyStop body + 1 } ∨ st'.machine = { m₀ with ip := l.exit } ∨
      ¬ Piece.Inside ⟨l.ip, l.stop, m₀.frames⟩ st'.machine := by
  obtain ⟨-, hle⟩ := h.holds_body hbody
  have hsize := h.stop_le_size
  have hstart : setting.KeepingIn
      (setting.program.excerpt l.bodyStart (l.bodyStop body + 1) [l.bodyStop body + 1, l.exit])
      (· = m₀.under [] 0) m₀
      (State.mk { m₀ with ip := l.bodyStart, scopes := scope :: m₀.scopes } s).machine := by
    refine .inl ⟨m₀.under [] 1, ⟨⟨[], [], rfl, rfl, ⟨.nil, rfl⟩, ?_⟩, List.suffix_cons _ _, rfl,
      rfl, rfl⟩, h.verified_body hbody hclose hexit hscopes⟩
    simp only [Machine.under, Shape.raised, List.length_cons]
    omega
  rcases keepingIn_of_finishes honest hp (by omega) (fun _ => Program.getElem?_excerpt) hstart
    hsteady hrun with hkeeping | ⟨st₁, op, hframes, -, hop, hret, hstep⟩
  · have hframes : st'.machine.frames = m₀.frames := by
      rcases hkeeping with ⟨σ, hover, -⟩ | ⟨caller, i, σ, habove, hover, -⟩
      · exact hover.frames
      · have hdeeper := habove.deeper
        rw [show caller.frames = m₀.frames from hover.frames] at hdeeper
        exact absurd ⟨hdeeper.1, fun heq => absurd heq hdeeper.2⟩ hrun.not_inside
    obtain ⟨σ, hover, hverified⟩ := hkeeping.over hframes
    rcases hverified.of_excerpt fun hin => hrun.not_inside ((Piece.inside_iff hframes).2 hin) with
      hend | ⟨hmem, rfl⟩
    · refine .inr (.inr fun hin => ?_)
      exact absurd (Nat.lt_of_lt_of_le (hin.2 hframes).2 hsize) (Nat.not_lt.2 hend)
    · obtain ⟨vs, opened, hfits, hopened, hst'⟩ := hover.eq
      obtain rfl := List.length_eq_zero_iff.1 hopened
      cases hfits
      rw [List.mem_cons, List.mem_singleton] at hmem
      rcases hmem with hip | hip
      · rw [hip] at hst'
        exact .inl hst'
      · rw [hip] at hst'
        exact .inr (.inl hst')
  · exact .inr (.inr (not_inside_of_ret hframes hop hret hstep hsize))

end Setting

end ScriptEngine
