import ScriptEngine.Proofs.Safety.Activation
import ScriptEngine.Proofs.Safety.Statements

/-!
# Shapes over a machine

A piece of code can be verified on its own, whatever stands around it.  Its shapes then say what
is above the stack, the marks and the scopes of the machine that has come to it, whatever these
are.

## Main definitions

* `Program.cut` — a piece of a program on its own.
* `Shape.raised` — a shape with more scopes below it.
* `Machine.Over` — a machine in the call of another one, with a shape above it.

## Main results

* `Program.Verified.of_cut_end` — a piece that is verified on its own ends with a final shape.
* `Op.flow_raised` — instructions lead to the same shapes whatever scopes are below.
* `Machine.Over.eq` — a machine over another one is that one, but for what the shape says.
-/

namespace ScriptEngine

/-! ### Pieces on their own -/

namespace Program

/-- The instructions between two places, with none behind them and with such in front of them
that fit no shape. -/
def cut (p : Program) (start stop : Nat) : Program :=
  ⟨(List.replicate start (Op.plain .leave .nowhere) ++
    (p.code.toList.take stop).drop start).toArray, 0⟩

variable {p : Program} {start stop ip : Nat} {final : Shape → Prop} {σ : Shape}

theorem getElem?_cut (hstart : start ≤ ip) (hstop : ip < stop) :
    (p.cut start stop).code[ip]? = p.code[ip]? := by
  simp only [cut, List.getElem?_toArray]
  rw [List.getElem?_append_right (by simpa using hstart), List.getElem?_drop, List.length_replicate,
    Nat.add_sub_cancel' hstart, List.getElem?_take_of_lt hstop, Array.getElem?_toList]

theorem size_cut (hstart : start ≤ stop) (hstop : stop ≤ p.size) :
    (p.cut start stop).size = stop := by
  have hlength : stop ≤ p.code.toList.length := hstop
  simp only [cut, size, List.size_toArray, List.length_append, List.length_replicate,
    List.length_drop, List.length_take]
  omega

/-- A piece of code stands in every program that has the same instructions there. -/
theorem Holds.congr {q : Program} {places : List Nat} {exit : Option Nat} {code : Code}
    (h : p.Holds places exit ip code)
    (hq : ∀ i, ip ≤ i → i < ip + code.length → q.code[i]? = p.code[i]?) :
    q.Holds places exit ip code := by
  induction code generalizing ip with
  | nil => trivial
  | cons op rest ih =>
    rw [List.length_cons] at hq
    exact ⟨(hq ip (Nat.le_refl _) (by omega)).trans h.1,
      ih h.2 fun i hle hlt => hq i (by omega) (by omega)⟩

/-- A piece of code that is cut out is the same. -/
theorem Holds.cut {places : List Nat} {exit : Option Nat} {code : Code}
    (h : p.Holds places exit ip code) (hstart : start ≤ ip) (hstop : ip + code.length ≤ stop) :
    (p.cut start stop).Holds places exit ip code :=
  h.congr fun _ hle hlt => getElem?_cut (Nat.le_trans hstart hle) (Nat.lt_of_lt_of_le hlt hstop)

/-- A piece of code ends where its program ends, or before. -/
theorem Holds.le_size {places : List Nat} {exit : Option Nat} {code : Code}
    (h : p.Holds places exit ip code) (hcode : code ≠ []) : ip + code.length ≤ p.size := by
  induction code generalizing ip with
  | nil => exact absurd rfl hcode
  | cons op rest ih =>
    have hlt : ip < p.size := (Array.getElem?_eq_some_iff.1 h.1).1
    cases rest with
    | nil => exact hlt
    | cons op' rest =>
      have hle := ih h.2 (List.cons_ne_nil _ _)
      rw [List.length_cons]
      omega

/-- Nothing is verified in front of a piece. -/
theorem Verified.start_le (h : (p.cut start stop).Verified final ip σ) : start ≤ ip := by
  refine Nat.le_of_not_lt fun hlt => ?_
  have hop : (p.cut start stop).code[ip]? = some (.plain .leave .nowhere) := by
    simp only [cut, List.getElem?_toArray]
    rw [List.getElem?_append_left (by simpa using hlt), List.getElem?_replicate, if_pos hlt]
  obtain ⟨targets, hflow, -⟩ := h.flow hop
  cases hflow

/-- Behind the last instruction of a piece the shape is final. -/
theorem Verified.of_cut_end (h : (p.cut start stop).Verified final ip σ) (hle : start ≤ stop)
    (hstop : stop ≤ p.size) (hend : ¬ ip < stop) : ip = stop ∧ final σ := by
  have hsize := size_cut hle hstop
  have hnone : (p.cut start stop).code[ip]? = none :=
    Array.getElem?_eq_none (hsize.trans_le (Nat.le_of_not_lt hend))
  obtain ⟨rfl, hfinal⟩ := h.at_end hnone
  exact ⟨hsize, hfinal⟩

end Program

/-! ### More scopes below -/

namespace Shape

/-- A shape with more scopes below it. -/
def raised (n : Nat) (σ : Shape) : Shape := { σ with scopes := σ.scopes + n }

theorem pop_raised (n k : Nat) (σ : Shape) : (σ.raised n).pop k = (σ.pop k).map (raised n) := by
  rw [pop, pop, Option.map_map]
  rfl

end Shape

theorem Op.flowByArity_raised (n : Nat) (op : Op) (ip : Nat) (σ : Shape) :
    op.flowByArity ip (σ.raised n) =
      (op.flowByArity ip σ).map (List.map (Prod.map id (Shape.raised n))) := by
  rw [flowByArity, flowByArity]
  cases op.arity? with
  | none => rfl
  | some arity =>
    simp only [Option.bind_eq_bind, Option.bind_some, Shape.pop_raised]
    cases σ.pop arity.1 <;> rfl

/-- **An instruction that fits a shape fits it with more scopes below**, and leads to the same
shapes with as many more. -/
theorem Op.flow_raised (n : Nat) {op : Op} {ip : Nat} {σ : Shape} {targets : List (Nat × Shape)}
    (h : op.flow ip σ = some targets) :
    op.flow ip (σ.raised n) = some (targets.map (Prod.map id (Shape.raised n))) := by
  have harity (h : op.flowByArity ip σ = some targets) : op.flowByArity ip (σ.raised n) =
      some (targets.map (Prod.map id (Shape.raised n))) := by
    rw [flowByArity_raised, h, Option.map_some]
  have htop : (σ.raised n).top = σ.top := rfl
  have hrest : (σ.raised n).rest = σ.rest := rfl
  unfold flow at h ⊢
  simp only [htop, hrest, Shape.pop_raised]
  cases hcode : op.code
  all_goals simp only [hcode] at h ⊢
  case push =>
    split at h
    · obtain ⟨τ, hτ, rfl⟩ := Option.map_eq_some_iff.1 h
      simp [hτ, Shape.raised, Shape.push]
    · exact harity h
  case swap =>
    split at h
    · obtain rfl := Option.some.inj h
      rfl
    · exact harity h
  case endBlock =>
    split at h
    · next hscopes =>
      obtain rfl := Option.some.inj h
      have hscopes' : 2 ≤ (σ.raised n).scopes := Nat.le_add_right_of_le hscopes
      rw [if_pos hscopes']
      simp only [List.map_cons, List.map_nil, Prod.map, Shape.raised, id]
      rw [Nat.sub_add_comm (by omega)]
    · cases h
  case startBlock =>
    obtain rfl := Option.some.inj h
    simp only [List.map_cons, List.map_nil, Prod.map, Shape.raised, id, Nat.add_right_comm]
  case makeLocal =>
    split at h
    · next hscopes =>
      obtain rfl := Option.some.inj h
      have hscopes' : 1 ≤ (σ.raised n).scopes := Nat.le_add_right_of_le hscopes
      rw [if_pos hscopes']
      rfl
    · cases h
  case ret =>
    split at h
    · obtain ⟨τ, hτ, rfl⟩ := Option.map_eq_some_iff.1 h
      simp [hτ]
    · split at h
      · cases h
      · next hmarked =>
        obtain rfl := Option.some.inj h
        simp [hmarked]
  case jump =>
    obtain ⟨target, htarget, rfl⟩ := Option.map_eq_some_iff.1 h
    simp [htarget]
  case jumpIf | jumpIfNot =>
    obtain ⟨target, htarget, h⟩ := Option.bind_eq_some_iff.1 h
    obtain ⟨τ, hτ, h⟩ := Option.bind_eq_some_iff.1 h
    obtain rfl := Option.some.inj h
    simp [htarget, hτ]
  case leave => cases h
  case call | argumentCount | assignPush | assignSet | assignCount | iterNext | iterJumpIfDone =>
    first
      | (obtain rfl := Option.some.inj h; rfl)
      | (split at h
         · obtain rfl := Option.some.inj h
           rfl
         · cases h)
  all_goals exact harity h

/-! ### Machines over others -/

/-- A machine runs in the call of `m₀`, whose stack, marks and scopes are still there, below what
a shape says.  Of the scopes of `m₀` the shape counts the innermost one. -/
structure Machine.Over (m₀ m : Machine) (σ : Shape) : Prop where
  shaped : m.Shaped (σ.raised (m₀.scopes.length - 1)) m₀.stack m₀.marks
  scopes : m₀.scopes <:+ m.scopes
  captured : m.captured = m₀.captured
  frames : m.frames = m₀.frames
  outerDepth : m.outerDepth = m₀.outerDepth

/-- The shape of cells above a machine, with `k` scopes more being open. -/
def Machine.under (m₀ : Machine) (cells : List Cell) (k : Nat) : Shape :=
  ⟨cells, [], min 1 m₀.scopes.length + k⟩

namespace Machine

variable {m₀ m : Machine} {σ : Shape} {cells : List Cell} {k : Nat}

/-- A machine is over itself. -/
theorem over_self (m₀ : Machine) (ip : Nat) : m₀.Over { m₀ with ip := ip } (m₀.under [] 0) where
  shaped := ⟨[], [], rfl, rfl, ⟨.nil, rfl⟩, by
    simp only [under, Shape.raised]
    omega⟩
  scopes := List.suffix_refl _
  captured := rfl
  frames := rfl
  outerDepth := rfl

/-- **A machine over another one is that one**, but for what the shape says and for its place. -/
theorem Over.eq (h : m₀.Over m (m₀.under cells k)) :
    ∃ vs opened, Fits cells vs ∧ opened.length = k ∧
      m = { m₀ with ip := m.ip, stack := vs ++ m₀.stack, scopes := opened ++ m₀.scopes } := by
  obtain ⟨⟨stack, marks, hstack, hmarks, ⟨hfits, rfl⟩, hlength⟩, ⟨opened, hscopes⟩, hcaptured,
    hframes, hdepth⟩ := h
  refine ⟨stack, opened, hfits, ?_, ?_⟩
  · rw [← hscopes] at hlength
    simp only [under, Shape.raised, List.length_append] at hlength
    omega
  · obtain ⟨ip, _, _, _, _, _, _⟩ := m
    dsimp only at hstack hmarks hscopes hcaptured hframes hdepth ⊢
    rw [hstack, hmarks, ← hscopes, hcaptured, hframes, hdepth]
    rfl

/-- Values are pushed on the stack of a machine that is over another one. -/
theorem Over.pushed {ws : List Value} (h : m₀.Over m σ) (hws : Fits cells ws) :
    m₀.Over { m with stack := ws ++ m.stack } (σ.push cells) :=
  ⟨h.shaped.pushed hws, h.scopes, h.captured, h.frames, h.outerDepth⟩

end Machine

end ScriptEngine
