import ScriptEngine.Machine.Call
import ScriptEngine.Proofs.Number.Count
import ScriptEngine.Proofs.Safety.Shape

/-!
# Machines of a shape

What it means that the innermost call of a machine has a shape, and that the calls
around it go on with verified code when it returns.

## Main definitions

* `Fits`, `Shape.Fits` — values that a shape describes.
* `Machine.Shaped` — the innermost call of a machine has a shape.
* `Suspended` — the calls around it wait for its results.
* `Machine.Sound` — a machine executes verified code.

## Main results

* `Machine.shaped_push` — what is on top of a shape is on top of the stack.
* `Machine.shaped_mark` — what is above the last mark of a shape is above that of the
  machine.
-/

namespace ScriptEngine

/-! ### Values that fit -/

/-- A value says how many values there are. -/
def IsCount (v : Value) (n : Nat) : Prop := ∃ x, v = .number x ∧ 0 ≤ x ∧ Number.toCount x = n

theorem isCount_ofNat {n : Nat} (h : n < Number.mantissaBound) :
    IsCount (.number (Number.ofNat n)) n :=
  ⟨_, rfl, Number.zero_le_ofNat h, Number.toCount_ofNat h⟩

/-- Values that a cell stands for, the topmost first. -/
def Cell.Fits : Cell → List Value → Prop
  | value, vs => vs.length = 1
  | many, _ => True
  | tallied, vs => ∃ c arguments, vs = c :: arguments ∧ IsCount c arguments.length
  | ready, vs => ∃ c callee arguments, vs = c :: callee :: arguments ∧ IsCount c arguments.length

/-- Values that cells stand for, the topmost first. -/
inductive Fits : List Cell → List Value → Prop
  | nil : Fits [] []
  | cons {cell : Cell} {cells : List Cell} {vs stack : List Value} :
      cell.Fits vs → Fits cells stack → Fits (cell :: cells) (vs ++ stack)

theorem fits_append {cells more : List Cell} {stack : List Value} :
    Fits (cells ++ more) stack ↔
      ∃ vs below, stack = vs ++ below ∧ Fits cells vs ∧ Fits more below := by
  constructor
  · intro h
    induction cells generalizing stack with
    | nil => exact ⟨[], stack, rfl, .nil, h⟩
    | cons cell cells ih =>
      cases h with
      | cons hcell hrest =>
        obtain ⟨vs, below, rfl, hcells, hmore⟩ := ih hrest
        exact ⟨_, below, (List.append_assoc _ _ _).symm, .cons hcell hcells, hmore⟩
  · rintro ⟨vs, below, rfl, hcells, hmore⟩
    induction hcells with
    | nil => exact hmore
    | cons hcell _ ih =>
      rw [List.append_assoc]
      exact .cons hcell ih

theorem fits_singleton {cell : Cell} {vs : List Value} : Fits [cell] vs ↔ cell.Fits vs := by
  constructor
  · rintro (_ | ⟨hcell, _ | _⟩)
    rwa [List.append_nil]
  · intro h
    have hone := Fits.cons h .nil
    rwa [List.append_nil] at hone

theorem fits_values {n : Nat} {vs : List Value} : Fits (values n) vs ↔ vs.length = n := by
  induction n generalizing vs with
  | zero =>
    constructor
    · rintro ⟨⟩
      rfl
    · intro h
      rw [List.length_eq_zero_iff.1 h]
      exact .nil
  | succ n ih =>
    rw [values_succ]
    constructor
    · rintro (_ | ⟨hcell, hrest⟩)
      rw [List.length_append, ih.1 hrest, show List.length _ = 1 from hcell, Nat.add_comm]
    · intro h
      obtain ⟨v, rest, rfl⟩ := List.exists_cons_of_length_eq_add_one h
      have hone : Cell.value.Fits [v] := rfl
      exact .cons hone (ih.2 (Nat.succ.inj h))

/-- The parts of a stack between marks, which lie above a height. -/
def FitsBetween (base : Nat) (top : List Cell) : List (List Cell) → List Value → List Nat → Prop
  | [], stack, marks => Fits top stack ∧ marks = []
  | next :: rest, stack, marks => ∃ vs below lower, stack = vs ++ below ∧
      marks = (base + below.length) :: lower ∧ Fits top vs ∧ FitsBetween base next rest below lower

/-- Values and marks above a height that a shape describes. -/
def Shape.Fits (σ : Shape) (base : Nat) (stack : List Value) (marks : List Nat) : Prop :=
  FitsBetween base σ.top σ.rest stack marks

theorem Shape.fits_push {σ : Shape} {cells : List Cell} {base : Nat} {stack : List Value}
    {marks : List Nat} :
    (σ.push cells).Fits base stack marks ↔
      ∃ vs below, stack = vs ++ below ∧ ScriptEngine.Fits cells vs ∧ σ.Fits base below marks := by
  obtain ⟨top, rest, scopes⟩ := σ
  cases rest with
  | nil =>
    constructor
    · rintro ⟨hfits, rfl⟩
      obtain ⟨vs, below, rfl, hcells, htop⟩ := fits_append.1 hfits
      exact ⟨vs, below, rfl, hcells, htop, rfl⟩
    · rintro ⟨vs, below, rfl, hcells, htop, rfl⟩
      exact ⟨fits_append.2 ⟨vs, below, rfl, hcells, htop⟩, rfl⟩
  | cons next rest =>
    constructor
    · rintro ⟨vs, below, lower, rfl, rfl, hfits, hrest⟩
      obtain ⟨ws, vs, rfl, hcells, htop⟩ := fits_append.1 hfits
      exact ⟨ws, vs ++ below, List.append_assoc _ _ _, hcells, vs, below, lower, rfl, rfl, htop,
        hrest⟩
    · rintro ⟨ws, _, rfl, hcells, vs, below, lower, rfl, rfl, htop, hrest⟩
      exact ⟨ws ++ vs, below, lower, (List.append_assoc _ _ _).symm, rfl,
        fits_append.2 ⟨ws, vs, rfl, hcells, htop⟩, hrest⟩

/-! ### The innermost call -/

/-- The innermost call of a machine has a shape.  Below its base are the values and
marks of the calls around it. -/
def Machine.Shaped (m : Machine) (σ : Shape) (below : List Value) (lower : List Nat) : Prop :=
  ∃ stack marks, m.stack = stack ++ below ∧ m.marks = marks ++ lower ∧
    σ.Fits below.length stack marks ∧ m.scopes.length = σ.scopes

namespace Machine

variable {m : Machine} {σ : Shape} {cells : List Cell} {below : List Value} {lower : List Nat}

/-- What is on top of a shape is on top of the stack. -/
theorem shaped_push :
    m.Shaped (σ.push cells) below lower ↔
      ∃ vs rest, m.stack = vs ++ rest ∧ Fits cells vs ∧
        Machine.Shaped { m with stack := rest } σ below lower := by
  constructor
  · rintro ⟨stack, marks, hstack, hmarks, hfits, hscopes⟩
    obtain ⟨vs, rest, rfl, hcells, hrest⟩ := Shape.fits_push.1 hfits
    exact ⟨vs, rest ++ below, by rw [hstack, List.append_assoc], hcells, rest, marks, rfl, hmarks,
      hrest, hscopes⟩
  · rintro ⟨vs, _, hstack, hcells, rest, marks, rfl, hmarks, hrest, hscopes⟩
    exact ⟨vs ++ rest, marks, by rw [hstack, List.append_assoc], hmarks,
      Shape.fits_push.2 ⟨vs, rest, rfl, hcells, hrest⟩, hscopes⟩

/-- Values are pushed. -/
theorem Shaped.pushed {ws : List Value} (h : m.Shaped σ below lower) (hws : Fits cells ws) :
    Machine.Shaped { m with stack := ws ++ m.stack } (σ.push cells) below lower :=
  shaped_push.2 ⟨ws, m.stack, rfl, hws, h⟩

/-- What is above the last mark of a shape is above the last mark of the machine. -/
theorem shaped_mark {top next : List Cell} {rest : List (List Cell)} {scopes : Nat} :
    m.Shaped ⟨top, next :: rest, scopes⟩ below lower ↔
      ∃ vs stack marks, m.stack = vs ++ stack ∧ m.marks = stack.length :: marks ∧ Fits top vs ∧
        Machine.Shaped { m with stack := stack, marks := marks } ⟨next, rest, scopes⟩ below
          lower := by
  constructor
  · rintro ⟨_, _, hstack, hmarks, ⟨vs, stack, marks, rfl, rfl, htop, hnext⟩, hscopes⟩
    refine ⟨vs, stack ++ below, marks ++ lower, by rw [hstack, List.append_assoc], ?_, htop,
      stack, marks, rfl, rfl, hnext, hscopes⟩
    rw [hmarks, List.length_append, Nat.add_comm]
    rfl
  · rintro ⟨vs, _, _, hstack, hmarks, htop, stack, marks, rfl, rfl, hnext, hscopes⟩
    refine ⟨vs ++ stack, (below.length + stack.length) :: marks, by rw [hstack, List.append_assoc],
      ?_, ⟨vs, stack, marks, rfl, rfl, htop, hnext⟩, hscopes⟩
    rw [hmarks, List.length_append, Nat.add_comm]
    rfl

/-- The base of a call is not above the stack. -/
theorem Shaped.length_le (h : m.Shaped σ below lower) : below.length ≤ m.stack.length := by
  obtain ⟨stack, marks, hstack, -⟩ := h
  rw [hstack, List.length_append]
  exact Nat.le_add_left _ _

end Machine

/-! ### The calls around it -/

/-- Only the outermost code of a text may run off the end of its program. -/
def finalAt (final : Shape → Prop) (frames : List Frame) (σ : Shape) : Prop :=
  frames = [] ∧ final σ

/-- The calls around the innermost one, with the values and marks that belong to
them, are verified to go on with its results.  The outermost code is that of a
text, or, in a run that a native function started, there is none. -/
inductive Suspended (p : Program) (final : Shape → Prop) (nested : Bool) :
    List Frame → List Value → List Nat → Prop
  | text (h : nested = false) : Suspended p final nested [] [] []
  | native (h : nested = true) {frame : Frame} (hreturn : frame.returnTo = p.size)
      (hbase : frame.base = 0) (hmarks : frame.marks = 0) : Suspended p final nested [frame] [] []
  | call {frame : Frame} {frames : List Frame} {σ : Shape} {stack below : List Value}
      {marks lower : List Nat} (hrest : Suspended p final nested frames below lower)
      (hfits : σ.Fits below.length stack marks) (hbase : frame.base = (stack ++ below).length)
      (hmarks : frame.marks = (marks ++ lower).length) (hscopes : frame.scopes.length = σ.scopes)
      (hverified : p.Verified (finalAt final frames) frame.returnTo
        (σ.push (Shape.received frame.want))) :
      Suspended p final nested (frame :: frames) (stack ++ below) (marks ++ lower)

/-- The height of the stack below the innermost call. -/
def Machine.base (m : Machine) : Nat := (m.frames.head?.map Frame.base).getD 0

/-- A machine executes verified code. -/
def Machine.Sound (p : Program) (final : Shape → Prop) (nested : Bool) (m : Machine) : Prop :=
  ∃ σ below lower, Suspended p final nested m.frames below lower ∧ m.Shaped σ below lower ∧
    p.Verified (finalAt final m.frames) m.ip σ

variable {p : Program} {final : Shape → Prop} {nested : Bool} {m : Machine}

theorem Suspended.length_below {below : List Value} {lower : List Nat}
    (h : Suspended p final nested m.frames below lower) : below.length = m.base := by
  unfold Machine.base
  generalize m.frames = frames at h
  cases h with
  | text => rfl
  | native _ _ hbase => exact hbase.symm
  | call _ _ hbase => exact hbase.symm

/-- Two machines that differ in the innermost call only. -/
theorem Machine.Shaped.sound {m' : Machine} {σ : Shape} {below : List Value} {lower : List Nat}
    (hframes : m'.frames = m.frames) (hsuspended : Suspended p final nested m.frames below lower)
    (h : m'.Shaped σ below lower) (hverified : p.Verified (finalAt final m.frames) m'.ip σ) :
    m'.Sound p final nested :=
  ⟨σ, below, lower, by rw [hframes]; exact hsuspended, h, by rw [hframes]; exact hverified⟩

end ScriptEngine
