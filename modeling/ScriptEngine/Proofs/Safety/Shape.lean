import ScriptEngine.Code.Compile

/-!
# Shapes of the operand stack

How much of the stack a function uses can be told from its code.  A shape says
what lies on the stack between the base of a call and its top, which marks are
set, and how many scopes are open.  Each instruction turns a shape into others
or does not fit it; code is verified if, from its beginning, no way through it
meets an instruction that does not fit.

## Main definitions

* `Cell`, `Shape` — what the stack of a call is made of.
* `Op.flow` — where an instruction leads to, and with which shape.
* `Program.Accepts` — a number of steps from a place fit a shape.
* `Program.Verified` — all steps do.

## Main results

* `Program.Accepts.of_flow` — an instruction in front of accepted code.
* `Program.Verified.flow` — behind an instruction, verified code is verified.
* `Program.Verified.mono` — code that does not run off the end of its program
  stays verified in a program that goes on.
-/

namespace ScriptEngine

/-! ### Shapes -/

/-- What a part of an operand stack is. -/
inductive Cell where
  | value
  /-- Any number of values. -/
  | many
  /-- A count, and as many values below it. -/
  | tallied
  /-- A count, a value to be called, and as many arguments below them. -/
  | ready
deriving DecidableEq, Repr

/-- A number of values. -/
def values (n : Nat) : List Cell := List.replicate n .value

theorem values_succ (n : Nat) : values (n + 1) = .value :: values n := rfl

theorem values_add (n k : Nat) : values (n + k) = values n ++ values k :=
  List.replicate_append_replicate.symm

/-- What lies on the stack above the base of a call. -/
structure Shape where
  /-- What is above the last mark, its top first. -/
  top : List Cell
  /-- What is between the marks below, the upper part first. -/
  rest : List (List Cell)
  /-- How many scopes are open. -/
  scopes : Nat
deriving DecidableEq, Repr

namespace Shape

/-- A shape with more on top. -/
def push (σ : Shape) (cells : List Cell) : Shape := { σ with top := cells ++ σ.top }

/-- What is below a number of values. -/
def belowValues : Nat → List Cell → Option (List Cell)
  | 0, cells => some cells
  | n + 1, .value :: cells => belowValues n cells
  | _, _ => none

/-- A shape without a number of values on top. -/
def pop (n : Nat) (σ : Shape) : Option Shape :=
  (belowValues n σ.top).map fun top => { σ with top := top }

/-- What a call leaves of its results. -/
def received : Option Nat → List Cell
  | some n => values n
  | none => [.many]

/-- The shape at the beginning of a function: its arguments and their number. -/
def entry : Shape := ⟨[.tallied], [], 1⟩

@[simp] theorem push_nil (σ : Shape) : σ.push [] = σ := rfl

theorem belowValues_eq_some_iff {n : Nat} {cells rest : List Cell} :
    belowValues n cells = some rest ↔ cells = values n ++ rest := by
  induction n generalizing cells with
  | zero => simp [belowValues, values]
  | succ n ih =>
    rw [values_succ, List.cons_append]
    match cells with
    | [] => simp [belowValues]
    | .value :: cells => simpa [belowValues] using ih
    | .many :: _ => simp [belowValues]
    | .tallied :: _ => simp [belowValues]
    | .ready :: _ => simp [belowValues]

theorem pop_eq_some_iff {n : Nat} {σ τ : Shape} :
    σ.pop n = some τ ↔ σ = τ.push (values n) := by
  rw [pop, Option.map_eq_some_iff]
  constructor
  · rintro ⟨top, htop, rfl⟩
    rw [belowValues_eq_some_iff] at htop
    rw [push, ← htop]
  · rintro rfl
    exact ⟨τ.top, belowValues_eq_some_iff.2 rfl, rfl⟩

@[simp] theorem pop_push_values (n : Nat) (σ : Shape) : (σ.push (values n)).pop n = some σ :=
  pop_eq_some_iff.2 rfl

end Shape

/-! ### Instructions -/

/-- The place that a jump goes to, if it is one. -/
def jumpTarget? (ip : Nat) (offset : Int) : Option Nat :=
  if (ip : Int) + 1 + offset < 0 then none else some ((ip : Int) + 1 + offset).toNat

namespace Op

/-- How many values an instruction pops and how many it pushes, if it does nothing
but that. -/
def arity? (op : Op) : Option (Nat × Nat) :=
  match op.code with
  | .load => some (0, 1)
  | .store => some (1, 0)
  | .push => some (0, 1)
  | .pop => some (op.count?.getD 1, 0)
  | .dup => some (1, 2)
  | .swap => some (2, 2)
  | .newTable => some (0, 1)
  | .loadIndex => some (2, 1)
  | .storeIndex => some (2 * op.count?.getD 1 + 1, 1)
  | .binary _ => some (2, 1)
  | .unary _ => some (1, 1)
  | .iterUpdateState => some (op.count?.getD 1 + 1, op.count?.getD 1 + 1)
  | _ => none

/-- The shape behind an instruction that pops and pushes values. -/
def flowByArity (op : Op) (ip : Nat) (σ : Shape) : Option (List (Nat × Shape)) := do
  let (taken, given) ← op.arity?
  let τ ← σ.pop taken
  pure [(ip + 1, τ.push (values given))]

/-- Where an instruction at a place leads to, and with which shapes.  There is
nothing if it does not fit the shape it is met with. -/
def flow (op : Op) (ip : Nat) (σ : Shape) : Option (List (Nat × Shape)) :=
  match op.code with
  | .push =>
    match op.operand with
    | .count n => (σ.pop (n + 1)).map fun τ => [(ip + 1, τ.push [.ready])]
    | _ => op.flowByArity ip σ
  | .swap =>
    match σ.top with
    | .value :: .tallied :: top => some [(ip + 1, { σ with top := .ready :: top })]
    | _ => op.flowByArity ip σ
  | .startBlock => some [(ip + 1, { σ with scopes := σ.scopes + 1 })]
  | .endBlock =>
    if 2 ≤ σ.scopes then some [(ip + 1, { σ with scopes := σ.scopes - 1 })] else none
  | .makeLocal => if 1 ≤ σ.scopes then some [(ip + 1, σ)] else none
  | .call =>
    match σ.top with
    | .ready :: top => some [(ip + 1, { σ with top := Shape.received op.count? ++ top })]
    | _ => none
  | .ret =>
    match op.count? with
    | some n => (σ.pop n).map fun _ => []
    | none => if σ.rest = [] then none else some []
  | .argumentCount =>
    match σ.top with
    | .tallied :: top => some [(ip + 1, { σ with top := values (op.count?.getD 0) ++ top })]
    | _ => none
  | .jump => (jumpTarget? ip op.offset).map fun target => [(target, σ)]
  | .jumpIf | .jumpIfNot => do
    let target ← jumpTarget? ip op.offset
    let τ ← σ.pop 1
    pure [(ip + 1, τ), (target, τ)]
  | .assignPush => some [(ip + 1, { σ with top := [], rest := σ.top :: σ.rest })]
  | .assignSet =>
    match σ.rest with
    | next :: rest =>
      some [(ip + 1, { σ with top := values (op.count?.getD 0) ++ next, rest := rest })]
    | [] => none
  | .assignCount =>
    match σ.rest with
    | next :: rest => some [(ip + 1, { σ with top := .tallied :: next, rest := rest })]
    | [] => none
  | .iterNext =>
    match σ.top, σ.rest with
    | [], (.value :: .value :: .value :: _) :: _ => some [(ip + 1, σ.push [.many])]
    | _, _ => none
  | .iterJumpIfDone =>
    match σ.rest, jumpTarget? ip op.offset with
    | next :: rest, some target =>
      some [(ip + 1, σ), (target, { σ with top := next, rest := rest })]
    | _, _ => none
  | .leave => none
  | _ => op.flowByArity ip σ

end Op

/-! ### Verified code -/

namespace Program

/-- The first `n` steps from a place fit a shape, whichever way they go.  The
program may be run off its end with a final shape. -/
def Accepts (p : Program) (final : Shape → Prop) : Nat → Nat → Shape → Prop
  | 0, _, _ => True
  | n + 1, ip, σ =>
    match p.code[ip]? with
    | some op => ∃ targets, op.flow ip σ = some targets ∧ ∀ t ∈ targets, p.Accepts final n t.1 t.2
    | none => ip = p.size ∧ final σ

/-- All steps from a place fit a shape. -/
def Verified (p : Program) (final : Shape → Prop) (ip : Nat) (σ : Shape) : Prop :=
  ∀ n, p.Accepts final n ip σ

variable {p q : Program} {final : Shape → Prop} {n ip : Nat} {σ : Shape} {op : Op}
  {targets : List (Nat × Shape)}

theorem Accepts.pred (h : p.Accepts final (n + 1) ip σ) : p.Accepts final n ip σ := by
  induction n generalizing ip σ with
  | zero => trivial
  | succ n ih =>
    rw [Accepts] at h ⊢
    split
    · next op hop =>
      simp only [hop] at h
      obtain ⟨targets, hflow, htargets⟩ := h
      exact ⟨targets, hflow, fun t ht => ih (htargets t ht)⟩
    · next hnone => simpa only [hnone] using h

/-- **An instruction in front of accepted code** makes for one more step. -/
theorem Accepts.step (hop : p.code[ip]? = some op) (hflow : op.flow ip σ = some targets)
    (h : ∀ t ∈ targets, p.Accepts final n t.1 t.2) : p.Accepts final (n + 1) ip σ := by
  rw [Accepts]
  simp only [hop]
  exact ⟨targets, hflow, h⟩

theorem Accepts.of_flow (hop : p.code[ip]? = some op) (hflow : op.flow ip σ = some targets)
    (h : ∀ t ∈ targets, p.Accepts final n t.1 t.2) : p.Accepts final n ip σ :=
  (Accepts.step hop hflow h).pred

/-- An instruction that leads to the next one. -/
theorem Accepts.of_next (τ : Shape) (hop : p.code[ip]? = some op)
    (hflow : op.flow ip σ = some [(ip + 1, τ)]) (h : p.Accepts final n (ip + 1) τ) :
    p.Accepts final n ip σ :=
  .of_flow hop hflow fun t ht => by
    rw [List.mem_singleton.1 ht]
    exact h

/-- Two names of a place. -/
theorem Accepts.moved {ip' : Nat} (h : p.Accepts final n ip' σ) (heq : ip = ip') :
    p.Accepts final n ip σ := heq ▸ h

/-- The end of a program. -/
theorem accepts_size (h : final σ) : p.Accepts final n p.size σ := by
  cases n with
  | zero => trivial
  | succ n =>
    have hnone : p.code[p.size]? = none := Array.getElem?_eq_none (Nat.le_refl _)
    rw [Accepts]
    simp only [hnone]
    exact ⟨trivial, h⟩

/-- **Behind an instruction, verified code is verified.** -/
theorem Verified.flow (h : p.Verified final ip σ) (hop : p.code[ip]? = some op) :
    ∃ targets, op.flow ip σ = some targets ∧ ∀ t ∈ targets, p.Verified final t.1 t.2 := by
  have hstep (n : Nat) : ∃ targets, op.flow ip σ = some targets ∧
      ∀ t ∈ targets, p.Accepts final n t.1 t.2 := by
    have hn := h (n + 1)
    rw [Accepts] at hn
    simpa only [hop] using hn
  obtain ⟨targets, hflow, -⟩ := hstep 0
  refine ⟨targets, hflow, fun t ht n => ?_⟩
  obtain ⟨targets', hflow', htargets⟩ := hstep n
  rw [hflow] at hflow'
  cases hflow'
  exact htargets t ht

/-- Verified code runs off the end of its program with a final shape only. -/
theorem Verified.at_end (h : p.Verified final ip σ) (hnone : p.code[ip]? = none) :
    ip = p.size ∧ final σ := by
  have hone := h 1
  rw [Accepts] at hone
  simpa only [hnone] using hone

/-- **Code that does not run off the end of its program stays verified** in a
program that goes on. -/
theorem Verified.mono (h : p.Verified (fun _ => False) ip σ)
    (hpq : ∀ (i : Nat) (op : Op), p.code[i]? = some op → q.code[i]? = some op) :
    q.Verified final ip σ := by
  intro n
  replace h := h n
  induction n generalizing ip σ with
  | zero => trivial
  | succ n ih =>
    rw [Accepts] at h
    cases hop : p.code[ip]? with
    | none =>
      simp only [hop] at h
      exact h.2.elim
    | some op =>
      simp only [hop] at h
      obtain ⟨targets, hflow, htargets⟩ := h
      exact .step (hpq _ _ hop) hflow fun t ht => ih (htargets t ht)

end Program

end ScriptEngine
