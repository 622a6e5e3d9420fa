import ScriptEngine.Proofs.Pieces.Keeping
import ScriptEngine.Proofs.Pieces.Occurrences

/-!
# Leaving loops

The code of a loop is verified on its own, whatever it stands in.  So a machine that comes to a
loop has the same stack, marks and scopes below everything that the loop puts on them.  A statement
that leaves the loop closes the scopes that have been opened in it and drops what the loop keeps,
and the machine is as it was, but behind the loop.

## Main definitions

* `Setting.LeavesBy` — instructions that leave a loop.
* `Setting.Restores` — a loop that gives back the machine that comes to it.

## Main results

* `LoopSite.Stands.verified` — the code of a loop is verified on its own.
* `LoopSite.Stands.shape_at_leave` — what is on the stack and open where a loop is left.
* `Setting.restores_of_holds` — a loop that is left gives back the machine that came to it.
* `Setting.leaves_of_parse` — all statements of a text that leave loops leave exactly these.
-/

namespace ScriptEngine

/-! ### Loops on their own -/

namespace LoopSite

variable {q : Program} {places : List Nat} {l : LoopSite} {m₀ : Machine}

theorem Stands.code_ne_nil (h : l.Stands q places) : l.code ≠ [] := by
  obtain ⟨body, hbody⟩ := Option.isSome_iff_exists.1 h.body
  intro hnil
  have hlength := (holds_loopBody hbody h.holds).2
  rw [show ((l.loop.code none false l.next).1).length = 0 from congrArg List.length hnil] at hlength
  omega

theorem Stands.stop_le_size (h : l.Stands q places) : l.stop ≤ q.size :=
  h.holds.le_size h.code_ne_nil

/-- **The code of a loop is verified on its own**: it leaves the stack, the marks and the scopes as
they were. -/
theorem Stands.verified (h : l.Stands q places) (hscopes : m₀.scopes ≠ []) :
    (q.cut l.ip l.stop).Verified (· = m₀.under [] 0) l.ip (m₀.under [] 0) := by
  intro n
  have hone : 1 ≤ (m₀.under [] 0).scopes := by
    have hlength := List.length_pos_iff.2 hscopes
    simp only [Machine.under]
    omega
  have hholds : (q.cut l.ip l.stop).Holds places none l.ip (l.loop.code none false l.next).1 :=
    h.holds.cut (Nat.le_refl _) (Nat.le_refl _)
  have hclosed : l.loop.closed (none : Option Nat).isSome := h.closed
  refine l.loop.accepts hclosed hone hholds (by rintro _ ⟨⟩) ?_
  have hsize := Program.size_cut (Nat.le_add_right _ _) h.stop_le_size
  have hend (p : Program) : p.Accepts (· = m₀.under [] 0) n p.size (m₀.under [] 0) :=
    Program.accepts_size rfl
  exact (hend _).moved hsize.symm

/-- The instruction at which a loop is left. -/
theorem Stands.exit_or_drop (h : l.Stands q places) :
    (l.loop.kept = 0 ∧ l.exit = l.stop) ∨
      0 < l.loop.kept ∧ l.exit + 1 = l.stop ∧ l.ip ≤ l.exit ∧
        ∃ op, op.code = .pop ∧ op.count?.getD 1 = l.loop.kept ∧ q.code[l.exit]? = some op := by
  obtain ⟨body, hbody⟩ := Option.isSome_iff_exists.1 h.body
  have hlength : 0 < l.code.length := List.length_pos_iff.2 h.code_ne_nil
  rcases ScriptEngine.exit_or_drop hbody h.holds with hkept | ⟨hkept, op, hcode, hcount, hop⟩
  · exact .inl ⟨hkept, by rw [exit, hkept]; rfl⟩
  · have hexit : l.exit = l.ip + l.code.length - 1 := by
      rw [exit, Nat.min_eq_left hkept]
      rfl
    refine .inr ⟨hkept, ?_, ?_, op, hcode, hcount, hexit ▸ hop⟩
    · rw [hexit, stop]
      omega
    · omega

/-- Where a loop is left, the shape is that of what it keeps. -/
theorem Stands.shape_at_exit (h : l.Stands q places) {σ : Shape}
    (hσ : (q.cut l.ip l.stop).Verified (· = m₀.under [] 0) l.exit σ) :
    σ = m₀.under (values l.loop.kept) 0 := by
  have hend {τ : Shape} (hτ : (q.cut l.ip l.stop).Verified (· = m₀.under [] 0) l.stop τ) :
      τ = m₀.under [] 0 :=
    (hτ.of_cut_end (Nat.le_add_right _ _) h.stop_le_size (Nat.lt_irrefl _)).2
  rcases h.exit_or_drop with ⟨hkept, hexit⟩ | ⟨-, hexit, hle, op, hcode, hcount, hop⟩
  · rw [hexit] at hσ
    rw [hkept]
    exact hend hσ
  · rw [← Program.getElem?_cut hle (show l.exit < l.stop by omega)] at hop
    obtain ⟨targets, hflow, htargets⟩ := hσ.flow hop
    have harity : op.arity? = some (l.loop.kept, 0) := by
      simp only [Op.arity?, hcode, hcount]
    simp only [Op.flow, hcode, Op.flowByArity, harity, Option.bind_eq_bind, Option.bind_some,
      Option.bind_eq_some_iff] at hflow
    obtain ⟨τ, hτ, htarget⟩ := hflow
    cases htarget
    have hverified := htargets _ (List.mem_singleton_self _)
    rw [hexit] at hverified
    obtain rfl : τ = m₀.under [] 0 := hend hverified
    rw [Shape.pop_eq_some_iff.1 hτ]
    simp [Shape.push, Machine.under]

/-- At the instructions that leave a loop, the shape is that of what it keeps and of the scopes
that are closed. -/
theorem Stands.shape_at_leave (h : l.Stands q places) {position : Position} {k ip : Nat} {σ : Shape}
    (hcode : q.Holds places (some l.exit) ip (leaveCode (some k) position)) (hstart : l.ip ≤ ip)
    (hstop : ip + k < l.stop)
    (hσ : (q.cut l.ip l.stop).Verified (· = m₀.under [] 0) ip σ) :
    σ = m₀.under (values l.loop.kept) k := by
  induction k generalizing ip σ with
  | zero =>
    have hop := hcode.1
    rw [Op.settled, if_pos (by rfl), ← Program.getElem?_cut hstart hstop] at hop
    obtain ⟨targets, hflow, htargets⟩ := hσ.flow hop
    have htarget : jumpTarget? ip ((l.exit : Int) - (ip + 1 : Nat)) = some l.exit :=
      jumpTarget?_eq (by omega)
    simp only [Op.flow, Op.jumping, Op.offset, htarget, Option.map_some, Option.some.injEq] at hflow
    subst hflow
    exact h.shape_at_exit (htargets _ (List.mem_singleton_self _))
  | succ k ih =>
    rw [leaveCode, Option.getD_some, List.replicate_succ, List.cons_append] at hcode
    have hop := hcode.head rfl
    rw [← Program.getElem?_cut hstart (show ip < l.stop by omega)] at hop
    obtain ⟨targets, hflow, htargets⟩ := hσ.flow hop
    have hflow : (if 2 ≤ σ.scopes then some [(ip + 1, { σ with scopes := σ.scopes - 1 })]
        else none) = some targets := hflow
    split at hflow
    · next hscopes =>
      obtain rfl := Option.some.inj hflow
      have hinner := ih hcode.tail (by omega) (by omega)
        (htargets _ (List.mem_singleton_self _))
      obtain ⟨top, rest, scopes⟩ := σ
      simp only [Machine.under, Shape.mk.injEq] at hinner ⊢
      dsimp only at hscopes
      exact ⟨hinner.1, hinner.2.1, by omega⟩
    · cases hflow

end LoopSite

/-! ### Leaving a loop -/

namespace Setting

variable {setting : Setting} {call : Position → Nat → Reentry} {trace : Bool} {m m' m₀ : Machine}
  {s : Store} {op : Op} {places : List Nat} {l : LoopSite} {position : Position}

/-- An instruction that leaves the store alone.  Only what is traced is put out. -/
theorem exists_step_of_execute (hop : setting.program.code[m.ip]? = some op)
    (hrun : ∀ reenter s, setting.execute reenter op ⟨m.past, s⟩ = .ok () ⟨m', s⟩) (s : Store) :
    ∃ s', setting.step call trace ⟨m, s⟩ = .ok () ⟨m', s'⟩ ∧ (trace = false → s' = s) := by
  refine ⟨recorded trace ⟨m', announced trace op ⟨m, s⟩⟩, ?_, ?_⟩
  · rw [step_eq_execute hop, hrun]
  · rintro rfl
    rfl

/-- The scopes that have been opened in a loop are closed, and the machine jumps to its exit. -/
theorem traverses_exit {vs : List Value} (opened : List ScopeRef) {ip : Nat}
    (hcode : setting.program.Holds places (some l.exit) ip
      (leaveCode (some opened.length) position))
    (hstart : l.ip ≤ ip) (hstop : ip + opened.length < l.stop) (s : Store) :
    ∃ s', setting.Traverses call trace ⟨l.ip, l.stop, m₀.frames⟩
      ⟨{ m₀ with ip := ip, stack := vs ++ m₀.stack, scopes := opened ++ m₀.scopes }, s⟩
      ⟨{ m₀ with ip := l.exit, stack := vs ++ m₀.stack }, s'⟩ ∧ (trace = false → s' = s) := by
  induction opened generalizing ip s with
  | nil =>
    have hop := hcode.1
    rw [Op.settled, if_pos (by rfl)] at hop
    have hrun (reenter : Reentry) (s : Store) : setting.execute reenter
        (.jumping .jump ((l.exit : Int) - (ip + 1 : Nat)) position)
        ⟨{ m₀ with ip := ip + 1, stack := vs ++ m₀.stack }, s⟩ =
        .ok () ⟨{ m₀ with ip := l.exit, stack := vs ++ m₀.stack }, s⟩ :=
      jump_eq (m := { m₀ with ip := ip + 1, stack := vs ++ m₀.stack })
        (d := (l.exit : Int) - (ip + 1 : Nat)) (by dsimp only; omega)
    obtain ⟨s', hstep, hs'⟩ : ∃ s', setting.step call trace
        ⟨{ m₀ with ip := ip, stack := vs ++ m₀.stack }, s⟩ =
        .ok () ⟨{ m₀ with ip := l.exit, stack := vs ++ m₀.stack }, s'⟩ ∧ (trace = false → s' = s) :=
      exists_step_of_execute hop hrun s
    exact ⟨s', .single ⟨(Piece.inside_iff rfl).2 ⟨hstart, hstop⟩, hstep⟩, hs'⟩
  | cons ref opened ih =>
    rw [leaveCode, Option.getD_some, List.length_cons, List.replicate_succ, List.cons_append]
      at hcode
    rw [List.length_cons] at hstop
    obtain ⟨s₁, hstep, hs₁⟩ : ∃ s₁, setting.step call trace
        ⟨{ m₀ with ip := ip, stack := vs ++ m₀.stack, scopes := ref :: opened ++ m₀.scopes }, s⟩ =
        .ok () ⟨{ m₀ with ip := ip + 1, stack := vs ++ m₀.stack, scopes := opened ++ m₀.scopes },
          s₁⟩ ∧ (trace = false → s₁ = s) :=
      exists_step_of_execute (hcode.head rfl) (fun _ _ => rfl) s
    obtain ⟨s', hrest, hs'⟩ := ih hcode.tail (by omega) (by omega) s₁
    refine ⟨s', .head ⟨(Piece.inside_iff rfl).2 ⟨hstart, by dsimp only; omega⟩, hstep⟩ hrest, ?_⟩
    exact fun htrace => (hs' htrace).trans (hs₁ htrace)

/-- What the loop keeps is dropped. -/
theorem traverses_stop (h : l.Stands setting.program places) {vs : List Value}
    (hvs : vs.length = l.loop.kept) (s : Store) :
    ∃ s', setting.Traverses call trace ⟨l.ip, l.stop, m₀.frames⟩
      ⟨{ m₀ with ip := l.exit, stack := vs ++ m₀.stack }, s⟩ ⟨{ m₀ with ip := l.stop }, s'⟩ ∧
      (trace = false → s' = s) := by
  rcases h.exit_or_drop with ⟨hkept, hexit⟩ | ⟨-, hexit, hle, op, hcode, hcount, hop⟩
  · obtain rfl := List.length_eq_zero_iff.1 (hvs.trans hkept)
    rw [hexit]
    exact ⟨s, .refl, fun _ => rfl⟩
  · have hrun (reenter : Reentry) (s : Store) : setting.execute reenter op
        ⟨{ m₀ with ip := l.exit + 1, stack := vs ++ m₀.stack }, s⟩ =
        .ok () ⟨{ m₀ with ip := l.stop }, s⟩ := by
      have hdrop : (vs ++ m₀.stack).drop (op.count?.getD 1) = m₀.stack := by
        rw [hcount, ← hvs, List.drop_left]
      simp only [execute, hcode, Exec.modifyStack, Exec.modifyMachine, hdrop, hexit]
    obtain ⟨s', hstep, hs'⟩ : ∃ s', setting.step call trace
        ⟨{ m₀ with ip := l.exit, stack := vs ++ m₀.stack }, s⟩ =
        .ok () ⟨{ m₀ with ip := l.stop }, s'⟩ ∧ (trace = false → s' = s) :=
      exists_step_of_execute hop hrun s
    exact ⟨s', .single ⟨(Piece.inside_iff rfl).2 ⟨hle, by dsimp only; omega⟩, hstep⟩, hs'⟩

/-- The instructions at `ip` leave a loop: they close the scopes that have been opened since its
beginning, and jump to its exit.  That is behind the loop, or where the loop drops what it keeps on
the stack. -/
structure LeavesBy (q : Program) (l : LoopSite) (position : Position) (ip : Nat) : Prop where
  inside : l.ip ≤ ip ∧ ip + l.scopes < l.stop
  closes : ∀ i < l.scopes, q.code[ip + i]? = some (.plain .endBlock position)
  jumps : q.code[ip + l.scopes]? =
    some (.jumping .jump ((l.exit : Int) - (ip + l.scopes + 1 : Nat)) position)
  exit : (l.loop.kept = 0 ∧ l.exit = l.stop) ∨ 0 < l.loop.kept ∧ l.exit + 1 = l.stop ∧
    ∃ op, op.code = .pop ∧ op.count?.getD 1 = l.loop.kept ∧ q.code[l.exit]? = some op

/-- What a loop does to the machine `m₀` that comes to it, with what is on its stack.

Where the loop is left at `ip`, the machine has what the loop keeps on its stack and the scopes
that have been opened in the loop, and gets behind the loop as it was (`left`).  So it does where
the loop comes to its end, unless the function returns (`ended`). -/
structure Restores (setting : Setting) (call : Position → Nat → Reentry) (trace : Bool)
    (l : LoopSite) (ip : Nat) (m₀ : Machine) (s : Store) : Prop where
  left : ∀ st,
    setting.Traverses call trace ⟨l.ip, l.stop, m₀.frames⟩ ⟨{ m₀ with ip := l.ip }, s⟩ st →
    st.machine.frames = m₀.frames → st.machine.ip = ip →
    ∃ vs opened s', vs.length = l.loop.kept ∧ opened.length = l.scopes ∧
      st.machine = { m₀ with ip := ip, stack := vs ++ m₀.stack, scopes := opened ++ m₀.scopes } ∧
      setting.Traverses call trace ⟨l.ip, l.stop, m₀.frames⟩ st ⟨{ m₀ with ip := l.stop }, s'⟩ ∧
      (trace = false → s' = st.store)
  ended : ∀ st', setting.Finishes call trace ⟨l.ip, l.stop, m₀.frames⟩
      ⟨{ m₀ with ip := l.ip }, s⟩ (.outside st') →
    st'.machine = { m₀ with ip := l.stop } ∨
      ∃ st₁ op, st₁.machine.frames = m₀.frames ∧
        Piece.Inside ⟨l.ip, l.stop, m₀.frames⟩ st₁.machine ∧
        setting.program.code[st₁.machine.ip]? = some op ∧ op.code = .ret ∧
        setting.step call trace st₁ = .ok () st'

variable {talk : Talk} {fuel ip : Nat}

theorem leavesBy_of_holds {q : Program} (h : l.Stands q places)
    (hcode : q.Holds places (some l.exit) ip (leaveCode (some l.scopes) position))
    (hstart : l.ip ≤ ip) (hstop : ip + l.scopes < l.stop) : LeavesBy q l position ip where
  inside := ⟨hstart, hstop⟩
  closes i hi := by
    have hop : (leaveCode (some l.scopes) position)[i]? = some (.plain .endBlock position) := by
      rw [leaveCode, Option.getD_some, List.getElem?_append_left (by simpa using hi),
        List.getElem?_replicate, if_pos hi]
    rw [hcode.getElem? hop, Op.settled_of_isFinal _ _ _ rfl]
  jumps := by
    have hop : (leaveCode (some l.scopes) position)[l.scopes]? = some (.plain .leave position) := by
      rw [leaveCode, Option.getD_some, List.getElem?_append_right (by simp)]
      simp
    rw [hcode.getElem? hop, Op.settled, if_pos (by rfl)]
    rfl
  exit := by
    rcases h.exit_or_drop with hexit | ⟨hkept, hexit, -, hop⟩
    · exact .inl hexit
    · exact .inr ⟨hkept, hexit, hop⟩

/-- **A loop leaves the machine that comes to it as it was**, wherever it is left. -/
theorem restores_of_holds (honest : Honest setting.natives talk) (hp : setting.program.Verifying)
    (h : l.Stands setting.program places)
    (hcode : setting.program.Holds places (some l.exit) ip (leaveCode (some l.scopes) position))
    (hstart : l.ip ≤ ip) (hstop : ip + l.scopes < l.stop) (hscopes : m₀.scopes ≠ [])
    (hsteady : setting.Steady (setting.callFrom fuel) trace ⟨l.ip, l.stop, m₀.frames⟩
      ⟨{ m₀ with ip := l.ip }, s⟩) :
    setting.Restores (setting.callFrom fuel) trace l ip m₀ s where
  left st hrun hframes hip := by
    have hinside : Piece.Inside ⟨l.ip, l.stop, m₀.frames⟩ st.machine :=
      (Piece.inside_iff hframes).2 ⟨hip ▸ hstart, by dsimp only; omega⟩
    have hkeeping : setting.Keeping l.ip l.stop (· = m₀.under [] 0) m₀ st.machine :=
      keeping_of_traverses honest hp h.stop_le_size (keeping_start (h.verified hscopes)) hsteady
        hrun hinside
    obtain ⟨σ, hover, hσ⟩ := hkeeping.over hframes
    rw [hip] at hσ
    rw [h.shape_at_leave hcode hstart hstop hσ] at hover
    obtain ⟨vs, opened, hfits, hopened, hst⟩ := hover.eq
    have hvs : vs.length = l.loop.kept := fits_values.1 hfits
    obtain ⟨m, s₀⟩ := st
    dsimp only at hst hip ⊢
    rw [hip] at hst
    subst hst
    obtain ⟨s₁, hexit, hs₁⟩ := traverses_exit opened (hopened ▸ hcode) hstart (hopened ▸ hstop) s₀
    obtain ⟨s₂, hdrop, hs₂⟩ := traverses_stop h hvs s₁
    exact ⟨vs, opened, s₂, hvs, hopened, rfl, hexit.trans hdrop,
      fun htrace => (hs₂ htrace).trans (hs₁ htrace)⟩
  ended st' hrun := by
    rcases cases_of_finishes honest hp (Nat.le_add_right _ _) h.stop_le_size (h.verified hscopes)
      hsteady hrun with ⟨hip, σ, hover, rfl⟩ | hret
    · obtain ⟨vs, opened, hfits, hopened, hst'⟩ := hover.eq
      obtain rfl := List.length_eq_zero_iff.1 hopened
      cases hfits
      rw [hip] at hst'
      exact .inl hst'
    · exact .inr hret

variable {p : Program} {source : String} {chunk text : Chunk} {inLoop : Bool}

/-- The code of a statement that leaves a loop stands in the code of that loop. -/
theorem exists_site_of_located {q : Program} {keep : Bool} {rest : List Stat} {next : Nat}
    {site : Option LoopSite}
    (h : (Part.body keep (.leave position :: rest)).Stands q places next ip site) :
    ∃ l, site = some l ∧ l.Stands q places ∧
      q.Holds places (some l.exit) ip (leaveCode (some l.scopes) position) ∧
      l.ip ≤ ip ∧ ip + l.scopes < l.stop := by
  obtain ⟨hclosed, hholds, hlength⟩ := h.first
  obtain ⟨l, rfl⟩ := Option.isSome_iff_exists.1 (show site.isSome from hclosed)
  obtain ⟨hloop, hstart, hend⟩ := h.site l rfl
  refine ⟨l, rfl, hloop, hholds, hstart, ?_⟩
  have hstop : l.exit ≤ l.stop := Nat.sub_le _ _
  have hcode : (((Stat.leave position).code (some l.scopes) (keep && rest.isEmpty) next).1).length =
      l.scopes + 1 := by
    simp [Stat.code, leaveCode]
  simp only [Option.map_some, hcode] at hlength
  omega

/-- **Leaving a loop leaves exactly that loop.**  Every statement of a text that leaves a loop has
its place.  Its instructions close the scopes that were opened since the beginning of the innermost
loop of its function around it, and jump to the exit of that loop.  A machine that comes to the loop
gets behind it as it was, whether the loop is left there or comes to its end. -/
theorem leaves_of_parse (h : parse source = .ok chunk)
    (htext : text = chunk ∨ text = optimize chunk)
    (honest : Honest setting.natives talk) (hp : setting.program.Verifying)
    (hgrown : ∀ (i : Nat) (op : Op), (p.extend text).1.code[i]? = some op →
      setting.program.code[i]? = some op)
    (hoccurs : Occurs text inLoop (.stat (.leave position))) :
    (∃ keep rest next ip site,
      Located p text (.body keep (.leave position :: rest)) next ip site) ∧
    ∀ keep rest next ip site, Located p text (.body keep (.leave position :: rest)) next ip site →
      ∃ l, site = some l ∧ LeavesBy setting.program l position ip ∧
        ∀ (fuel : Nat) (trace : Bool) (m₀ : Machine) (s : Store), m₀.scopes ≠ [] →
          setting.Steady (setting.callFrom fuel) trace ⟨l.ip, l.stop, m₀.frames⟩
            ⟨{ m₀ with ip := l.ip }, s⟩ →
          setting.Restores (setting.callFrom fuel) trace l ip m₀ s := by
  have hformed : chunkFormed false text := by
    rcases htext with rfl | rfl
    · exact chunkFormed_of_parse h
    · exact chunkFormed_optimize (chunkFormed_of_parse h)
  constructor
  · obtain ⟨keep, rest, next, ip, site, hlocated, -⟩ :=
      Node.isLocated_of_occurs (p := p) hformed hoccurs
    exact ⟨keep, rest, next, ip, site, hlocated⟩
  · intro keep rest next ip site hlocated
    have hstands := hlocated.stands hgrown (chunkClosed_of_formed text hformed)
      fun f hf => closed_of_mem_chunkFunctions hformed hf
    obtain ⟨l, rfl, hloop, hcode, hstart, hstop⟩ := exists_site_of_located hstands
    exact ⟨l, rfl, leavesBy_of_holds hloop hcode hstart hstop, fun _ _ _ _ hscopes hsteady =>
      restores_of_holds honest hp hloop hcode hstart hstop hscopes hsteady⟩

/-- The places of the parts of a text that is a loop without end, which is left from inside of a
block. -/
def leaveInBlock? : Chunk → Option (Position × Position × Position)
  | [.whileLoop loop (.literal condition (.boolean true)) [.block [.leave position]]] =>
    some (loop, condition, position)
  | _ => none

/-- The loop of the text `while true do do break end end`. -/
def leftAtOnce : Stat :=
  .whileLoop ⟨1, 1⟩ (.literal ⟨1, 7⟩ (.boolean true)) [.block [.leave ⟨1, 18⟩]]

theorem parse_leftAtOnce : parse "while true do do break end end" = .ok [leftAtOnce] := by
  have hshape : (parse "while true do do break end end").toOption.bind leaveInBlock? =
      some (⟨1, 1⟩, ⟨1, 7⟩, ⟨1, 18⟩) := by decide +kernel
  cases hparse : parse "while true do do break end end" with
  | error e =>
    rw [hparse] at hshape
    cases hshape
  | ok chunk =>
    rw [hparse] at hshape
    change leaveInBlock? chunk = _ at hshape
    unfold leaveInBlock? at hshape
    split at hshape
    · cases hshape
      rfl
    · cases hshape

/-- A machine with the code of this text. -/
def leavingAtOnce : Setting :=
  ⟨(Program.empty.extend [leftAtOnce]).1, .standard, ⟨0⟩, Library.run Host.function⟩

/-- The loop is left in two scopes, and leaves the machine with one scope, as it was. -/
theorem leaves_of_parse_block :
    leavingAtOnce.Restores (leavingAtOnce.callFrom 0) false ⟨leftAtOnce, 0, 0, 2⟩ 4
      ⟨0, [], [⟨0⟩], [], [], [], 0⟩ .empty := by
  obtain ⟨talk, honest⟩ := honest_run
  have hverifying : leavingAtOnce.program.Verifying := by
    have hclosed : chunkClosed false [leftAtOnce] := rfl
    exact Program.verifying_extend Program.verifying_empty hclosed
      fun _ hf => absurd hf List.not_mem_nil
  have hoccurs : Occurs [leftAtOnce] true (.stat (.leave ⟨1, 18⟩)) := by
    have hloop : Occurs [leftAtOnce] false (.stat leftAtOnce) :=
      Occurs.text.child (List.mem_singleton_self _)
    have hbody := hloop.child (.tail _ (List.mem_singleton_self _))
    have hblock := hbody.child (List.mem_map_of_mem (List.mem_singleton_self _))
    have hinner := hblock.child (List.mem_singleton_self _)
    exact hinner.child (List.mem_map_of_mem (List.mem_singleton_self _))
  have hlocated : Located .empty [leftAtOnce] (.body false [.leave ⟨1, 18⟩]) 0 4
      (some ⟨leftAtOnce, 0, 0, 2⟩) := .block (.loop .text rfl)
  obtain ⟨l, hl, -, hrestores⟩ := (leaves_of_parse parse_leftAtOnce (.inl rfl) honest hverifying
    (fun _ _ hop => hop) hoccurs).2 _ _ _ _ _ hlocated
  cases hl
  have hroom {m : Machine} (h : m.stack.length ≤ 1) : m.HasRoom :=
    Nat.lt_of_le_of_lt h (by decide)
  refine hrestores 0 false _ _ (List.cons_ne_nil _ _) ⟨⟨nofun, Store.known_empty⟩, ?_⟩
  -- The condition, two scopes that are opened and closed again, and the jump behind the loop.
  intro st' h
  rcases h.cases_step rfl with rfl | h
  · exact hroom (Nat.zero_le 1)
  rcases h.cases_step rfl with rfl | h
  · exact hroom (Nat.le_refl 1)
  rcases h.cases_step rfl with rfl | h
  · exact hroom (Nat.zero_le 1)
  rcases h.cases_step rfl with rfl | h
  · exact hroom (Nat.zero_le 1)
  rcases h.cases_step rfl with rfl | h
  · exact hroom (Nat.zero_le 1)
  rcases h.cases_step rfl with rfl | h
  · exact hroom (Nat.zero_le 1)
  rcases h.cases_step rfl with rfl | h
  · exact hroom (Nat.zero_le 1)
  rw [h.eq_of_not_inside fun hin => absurd (hin.2 rfl).2 (by decide)]
  exact hroom (Nat.zero_le 1)

end Setting

end ScriptEngine
