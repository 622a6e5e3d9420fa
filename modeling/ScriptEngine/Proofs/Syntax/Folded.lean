import Mathlib.Data.List.Basic
import ScriptEngine.Proofs.Syntax.Formed
import ScriptEngine.Proofs.Syntax.Nodes

/-!
# What folding leaves

Folding leaves no operator that could be applied to literals.  It may leave a declaration of a
literal under a name that its block binds twice.  If no block binds a variable again that it
declares with a value, folding leaves no declaration either that could be removed.

## Main definitions

* `Node.Folded` — an operator that cannot be applied to literals.
* `Node.Replaceable` — a block that declares a literal under a name that it binds only once.
* `Node.BoundOnce` — a block that binds no local variable again that it declares with a value.
* `Expr.IsLeft`, `Stat.IsLeft` — what a pass leaves nothing to fold of.

## Main results

* `cases_foldBinary`, `cases_foldUnary` — what operators are folded to.
* `all_left_foldStats` — what statements are folded to cannot be folded further.
-/

namespace ScriptEngine

open Node

/-! ### What can be folded -/

/-- An operator that cannot be applied to literals: its operands are none, or the application
fails.  Where an operand decides what an `and` or an `or` comes to, it is no literal. -/
def Node.Folded : Node → Prop
  | expr (.binary _ (.strict operator) lhs rhs) =>
    ∀ a b, lhs.literal? = some a → rhs.literal? = some b →
      ∃ c, Store.empty.binary operator a.toValue b.toValue = .error c
  | expr (.binary _ .and lhs _) => lhs.literal? = none
  | expr (.binary _ .or lhs _) => lhs.literal? = none
  | expr (.unary _ operator operand) =>
    ∀ a, operand.literal? = some a → ∃ c, Store.empty.unary operator a.toValue = .error c
  | _ => True

/-- A local assignment, in a block whose bindings are `bound`, with as many values as variables and
no call, that declares a literal under a name that is bound once. -/
def Stat.Replaceable (bound : List String) : Stat → Prop
  | .assignment _ true targets values =>
    targets.length = values.length ∧ values.any Expr.isCall = false ∧
      ∃ position name origin value,
        (Expr.var position name, Expr.literal origin value) ∈ targets.zip values ∧
          bound.count name = 1
  | _ => False

/-- A block with a declaration that a pass removes. -/
def Node.Replaceable : Node → Prop
  | chunk body => ∃ s ∈ body, s.Replaceable (boundNames body)
  | _ => False

/-- An assignment has targets, which are variables or, unless it is local, indexed expressions. -/
def Node.Targeted : Node → Prop
  | stat (.assignment _ isLocal targets _) =>
    targets ≠ [] ∧ ∀ target ∈ targets, if isLocal then target.isVar else target.isTarget
  | _ => True

/-- A node as folding leaves it: nothing in it can be folded but for a declaration. -/
structure Node.Settled (n : Node) : Prop where
  folded : n.Folded
  targeted : n.Targeted

/-- The variables of a local assignment, in a block whose bindings are `bound`, are bound nowhere
else in the block. -/
def Stat.BoundOnce (bound : List String) : Stat → Prop
  | .assignment _ true targets _ => ∀ position name, .var position name ∈ targets →
      bound.count name = 1
  | _ => True

/-- A block that binds none of the variables again that it declares with a value. -/
def Node.BoundOnce : Node → Prop
  | chunk body => ∀ s ∈ body, s.BoundOnce (boundNames body)
  | _ => True

/-! ### Operators on literals -/

namespace Store

/-- What an operator makes of two literals can be written down. -/
theorem exists_toLiteral?_binary {s : Store} {operator : StrictOperator} {a b v : Value}
    (h : s.binary operator a b = .ok v) : ∃ value, v.toLiteral? = some value := by
  cases operator with
  | arith operator =>
    simp only [binary, Value.arith] at h
    split at h
    · cases ha : a.toInteger <;> cases hb : b.toInteger <;> rw [ha, hb] at h <;> cases h
      exact ⟨_, rfl⟩
    · cases ha : a.toOperand <;> cases hb : b.toOperand <;> rw [ha, hb] at h <;> cases h
      exact ⟨_, rfl⟩
  | concat =>
    simp only [binary, Value.concat] at h
    cases ha : a.toPiece <;> cases hb : b.toPiece <;> rw [ha, hb] at h <;> cases h
    exact ⟨_, rfl⟩
  | compare operator =>
    simp only [binary] at h
    cases hc : s.compare operator a b <;> rw [hc] at h <;> cases h
    exact ⟨_, rfl⟩

theorem exists_toLiteral?_unary {s : Store} {operator : UnaryOperator} {a v : Value}
    (h : s.unary operator a = .ok v) : ∃ value, v.toLiteral? = some value := by
  cases operator with
  | not =>
    cases h
    exact ⟨_, rfl⟩
  | negate =>
    simp only [unary, Value.negate] at h
    cases ha : a.toOperand <;> rw [ha] at h <;> cases h
    exact ⟨_, rfl⟩
  | length =>
    simp only [unary] at h
    cases a <;> cases h <;> exact ⟨_, rfl⟩
  | bitNot =>
    simp only [unary, Value.bitNot] at h
    cases ha : a.toInteger <;> rw [ha] at h <;> cases h
    exact ⟨_, rfl⟩

end Store

section

variable {position : Position} {lhs rhs operand : Expr}

/-- An operator that is folded already is left as it is. -/
theorem foldBinary_of_folded {operator : BinaryOperator}
    (h : (expr (.binary position operator lhs rhs)).Folded) :
    foldBinary position operator lhs rhs = .binary position operator lhs rhs := by
  unfold foldBinary
  split
  · rfl
  · next a ha =>
    cases operator with
    | strict operator =>
      dsimp only
      split
      · rfl
      · next b hb =>
        obtain ⟨c, hc⟩ := h a b ha hb
        rw [hc]
    | and =>
      rw [Folded, ha] at h
      cases h
    | or =>
      rw [Folded, ha] at h
      cases h

theorem foldUnary_of_folded {operator : UnaryOperator}
    (h : (expr (.unary position operator operand)).Folded) :
    foldUnary position operator operand = .unary position operator operand := by
  unfold foldUnary
  split
  · rfl
  · next a ha =>
    obtain ⟨c, hc⟩ := h a ha
    rw [hc]

/-- What an operator between two operands is folded to: one of them, a literal, or an operator that
is folded. -/
theorem cases_foldBinary (position : Position) (operator : BinaryOperator) (lhs rhs : Expr) :
    foldBinary position operator lhs rhs = lhs ∨ foldBinary position operator lhs rhs = rhs ∨
      (∃ origin value, foldBinary position operator lhs rhs = .literal origin value) ∨
      (foldBinary position operator lhs rhs = .binary position operator lhs rhs ∧
        (expr (.binary position operator lhs rhs)).Folded) := by
  unfold foldBinary
  split
  · next hlhs =>
    refine .inr (.inr (.inr ⟨rfl, ?_⟩))
    cases operator with
    | strict operator =>
      intro a b ha
      rw [hlhs] at ha
      cases ha
    | and => exact hlhs
    | or => exact hlhs
  · next a ha =>
    cases operator with
    | and =>
      dsimp only
      split
      · exact .inr (.inl rfl)
      · exact .inl rfl
    | or =>
      dsimp only
      split
      · exact .inl rfl
      · exact .inr (.inl rfl)
    | strict operator =>
      refine .inr (.inr ?_)
      dsimp only
      split
      · next hrhs =>
        refine .inr ⟨rfl, fun a b _ hb => ?_⟩
        rw [hrhs] at hb
        cases hb
      · next b hb =>
        split
        · next c hc =>
          refine .inr ⟨rfl, fun a' b' ha' hb' => ?_⟩
          rw [ha] at ha'
          rw [hb] at hb'
          cases ha'
          cases hb'
          exact ⟨c, hc⟩
        · next v hv =>
          obtain ⟨value, hvalue⟩ := Store.exists_toLiteral?_binary hv
          rw [hvalue]
          exact .inl ⟨_, _, rfl⟩

/-- What an operator in front of an operand is folded to. -/
theorem cases_foldUnary (position : Position) (operator : UnaryOperator) (operand : Expr) :
    (∃ origin value, foldUnary position operator operand = .literal origin value) ∨
      (foldUnary position operator operand = .unary position operator operand ∧
        (expr (.unary position operator operand)).Folded) := by
  unfold foldUnary
  split
  · next hoperand =>
    refine .inr ⟨rfl, fun a ha => ?_⟩
    rw [hoperand] at ha
    cases ha
  · next a ha =>
    split
    · next c hc =>
      refine .inr ⟨rfl, fun a' ha' => ?_⟩
      rw [ha] at ha'
      cases ha'
      exact ⟨c, hc⟩
    · next v hv =>
      obtain ⟨value, hvalue⟩ := Store.exists_toLiteral?_unary hv
      rw [hvalue]
      exact .inl ⟨_, _, rfl⟩

end

/-! ### What a pass leaves -/

/-- A node as a pass leaves it.  If what it comes from binds its local variables once, no block
declares something that another pass removes. -/
def Node.Left (once : Prop) (n : Node) : Prop := n.Settled ∧ (once → ¬ n.Replaceable)

section

variable {once : Prop}

/-- An expression is left by a pass if it cannot be folded. -/
theorem left_of_folded {e : Expr} (h : (expr e).Folded) : (expr e).Left once :=
  ⟨⟨h, trivial⟩, fun _ => id⟩

/-- A statement is left by a pass if it can be assigned to its targets. -/
theorem left_of_targeted {s : Stat} (h : (stat s).Targeted) : (stat s).Left once :=
  ⟨⟨trivial, h⟩, fun _ => id⟩

/-- A block is left by a pass if its statements are, none of which can lose a declaration. -/
theorem all_left_chunk {body : Chunk} (h : ∀ s ∈ body, (stat s).All (Left once) ∧
    (once → ∀ bound, ¬ s.Replaceable bound)) : (chunk body).All (Left once) := by
  refine all_chunk.2 ⟨⟨⟨trivial, trivial⟩, ?_⟩, fun s hs => (h s hs).1⟩
  exact fun honce ⟨s, hs, hreplaceable⟩ => (h s hs).2 honce _ hreplaceable

theorem all_left_foldBinary {position : Position} {operator : BinaryOperator} {lhs rhs : Expr}
    (hlhs : (expr lhs).All (Left once)) (hrhs : (expr rhs).All (Left once)) :
    (expr (foldBinary position operator lhs rhs)).All (Left once) := by
  rcases cases_foldBinary position operator lhs rhs with h | h | ⟨origin, value, h⟩ | ⟨h, hfolded⟩
    <;> rw [h]
  · exact hlhs
  · exact hrhs
  · exact all_literal.2 (left_of_folded trivial)
  · exact all_binary.2 ⟨left_of_folded hfolded, hlhs, hrhs⟩

theorem all_left_foldUnary {position : Position} {operator : UnaryOperator} {operand : Expr}
    (h : (expr operand).All (Left once)) :
    (expr (foldUnary position operator operand)).All (Left once) := by
  rcases cases_foldUnary position operator operand with ⟨origin, value, hfold⟩ | ⟨hfold, hfolded⟩
    <;> rw [hfold]
  · exact all_literal.2 (left_of_folded trivial)
  · exact all_unary.2 ⟨left_of_folded hfolded, h⟩

/-- The pairs of a variable and a literal that are dropped. -/
theorem constant?_eq_some_iff {bound : List String} {target value : Expr} {name : String}
    {literal : Literal} :
    constant? bound target value = some (name, literal) ↔
      ∃ position origin, target = .var position name ∧ value = .literal origin literal ∧
        bound.count name = 1 := by
  constructor
  · intro h
    unfold constant? at h
    split at h
    · split at h
      · next hcount =>
        cases h
        exact ⟨_, _, rfl, rfl, hcount⟩
      · cases h
    · cases h
  · rintro ⟨position, origin, rfl, rfl, hcount⟩
    rw [constant?, if_pos hcount]

/-- No pair is left that could be dropped. -/
theorem constant?_of_mem_declarePairs {bound : List String} {constants : Constants}
    {pairs : List (Expr × Expr)} {pair : Expr × Expr}
    (h : pair ∈ (declarePairs bound constants pairs).1) :
    constant? bound pair.1 pair.2 = none := by
  induction pairs generalizing constants with
  | nil => cases h
  | cons first rest ih =>
    obtain ⟨target, value⟩ := first
    rw [declarePairs] at h
    split at h
    · exact ih h
    · next hnone =>
      rcases List.mem_cons.1 h with rfl | h
      · exact hnone
      · exact ih h

theorem all_left_var {target : Expr} (h : target.isVar) : (expr target).All (Left once) := by
  obtain ⟨position, name, rfl⟩ : ∃ position name, target = .var position name := by
    cases target with
    | var position name => exact ⟨position, name, rfl⟩
    | _ => cases h
  exact all_var.2 (left_of_folded trivial)

/-- What is left of a local assignment. -/
theorem all_left_foldLocal {bound : List String} {root : Bool} {constants : Constants}
    {position : Position} {targets values : List Expr} (hne : targets ≠ [])
    (htargets : ∀ target ∈ targets, target.isVar)
    (hvalues : ∀ e ∈ values, (expr e).All (Left once))
    (honce : once → root = false → (Stat.assignment position true targets values).BoundOnce bound) :
    ∀ s ∈ (foldLocal bound root constants position targets values).1, (stat s).All (Left once) ∧
      (root = false → once → ∀ bound', ¬ s.Replaceable bound') := by
  intro s hs
  unfold foldLocal at hs
  split at hs
  · next hpaired =>
    simp only [Bool.and_eq_true, Bool.not_eq_true', beq_iff_eq] at hpaired
    obtain ⟨⟨hroot, hlength⟩, -⟩ := hpaired
    split at hs
    · cases hs
    · next kept known hkept hpairs =>
      cases hs
      replace hkept : kept ≠ [] := hkept
      have hmem : ∀ pair ∈ kept, pair ∈ targets.zip values ∧
          constant? bound pair.1 pair.2 = none := by
        intro pair hpair
        have hpair : pair ∈ (declarePairs bound constants (targets.zip values)).1 := by
          rw [hpairs]
          exact hpair
        exact ⟨mem_of_mem_declarePairs _ _ hpair, constant?_of_mem_declarePairs hpair⟩
      have hvars : ∀ target ∈ kept.map (·.1), target.isVar := List.forall_mem_map.2
        fun pair hpair => htargets _ (List.of_mem_zip (hmem pair hpair).1).1
      refine ⟨all_assignment.2 ⟨left_of_targeted ⟨by simpa using hkept, hvars⟩,
        List.forall_mem_map.2 fun pair hpair => ?_, List.forall_mem_map.2 fun pair hpair => ?_⟩,
        fun _ honce' bound' => ?_⟩
      · exact all_left_var (htargets _ (List.of_mem_zip (hmem pair hpair).1).1)
      · exact hvalues _ (List.of_mem_zip (hmem pair hpair).1).2
      · rintro ⟨-, -, p, name, q, value, hpair, -⟩
        rw [List.zip_map', List.map_id'] at hpair
        obtain ⟨hzip, hnone⟩ := hmem _ hpair
        have hcount := honce honce' hroot p name (List.of_mem_zip hzip).1
        rw [constant?_eq_some_iff.2 ⟨p, q, rfl, rfl, hcount⟩] at hnone
        cases hnone
  · next hpaired =>
    cases hs
    refine ⟨all_assignment.2 ⟨left_of_targeted ⟨hne, htargets⟩,
      fun target htarget => all_left_var (htargets target htarget), hvalues⟩, ?_⟩
    rintro hroot - bound' ⟨hlength, hcall, -⟩
    exact hpaired (by simp [hroot, hlength, hcall])

/-! ### What becomes of the parts of a text -/

section

variable (once)

/-- Folding leaves nothing to fold of an expression. -/
def Expr.IsLeft (e : Expr) : Prop :=
  ∀ constants : Constants, e.formed → (once → (expr e).All Node.BoundOnce) →
    (expr (e.fold constants)).All (Left once)

def AllLeft (es : List Expr) : Prop :=
  ∀ constants : Constants, allFormed es → (once → ∀ e ∈ es, (expr e).All Node.BoundOnce) →
    ∀ e ∈ foldAll constants es, (expr e).All (Left once)

def EntriesLeft (es : List (Expr × Expr)) : Prop :=
  ∀ constants : Constants, entriesFormed es →
    (once → ∀ e ∈ es, (expr e.1).All Node.BoundOnce ∧ (expr e.2).All Node.BoundOnce) →
    ∀ e ∈ foldEntries constants es, (expr e.1).All (Left once) ∧ (expr e.2).All (Left once)

def TargetsLeft (es : List Expr) : Prop :=
  ∀ constants : Constants, allFormed es → (∀ e ∈ es, e.isTarget) →
    (once → ∀ e ∈ es, (expr e).All Node.BoundOnce) →
    ∀ e ∈ foldTargets constants es, (expr e).All (Left once) ∧ e.isTarget

/-- A block that is no text, whose statements may lose declarations. -/
def BodyLeft (body : List Stat) : Prop :=
  ∀ (constants : Constants) (inLoop : Bool), chunkFormed inLoop body →
    (once → (chunk body).All Node.BoundOnce) →
    (chunk (foldStats (boundNames body) false constants body).1).All (Left once)

def BranchesLeft (es : List (Expr × List Stat)) : Prop :=
  ∀ (constants : Constants) (inLoop : Bool), branchesFormed inLoop es →
    (once → ∀ e ∈ es, (expr e.1).All Node.BoundOnce ∧ (chunk e.2).All Node.BoundOnce) →
    ∀ e ∈ foldBranches constants es, (expr e.1).All (Left once) ∧ (chunk e.2).All (Left once)

/-- What is left of a statement, in a block that is no text: a block that binds its variables once
cannot lose it any more. -/
def Stat.Stays (root : Bool) (s : Stat) : Prop :=
  (stat s).All (Left once) ∧ (root = false → once → ∀ bound, ¬ s.Replaceable bound)

def Stat.IsLeft (s : Stat) : Prop :=
  ∀ (bound : List String) (root : Bool) (constants : Constants) (inLoop : Bool), s.formed inLoop →
    (once → (stat s).All Node.BoundOnce) → (once → root = false → s.BoundOnce bound) →
    ∀ s' ∈ (s.fold bound root constants).1, s'.Stays once root

def StatsLeft (body : List Stat) : Prop :=
  ∀ (bound : List String) (root : Bool) (constants : Constants) (inLoop : Bool),
    chunkFormed inLoop body → (once → ∀ s ∈ body, (stat s).All Node.BoundOnce) →
    (once → root = false → ∀ s ∈ body, s.BoundOnce bound) →
    ∀ s ∈ (foldStats bound root constants body).1, s.Stays once root

end

/-- A block is left by a pass if its statements are. -/
theorem StatsLeft.body {body : List Stat} (h : StatsLeft once body) : BodyLeft once body := by
  intro constants inLoop hformed honce
  refine all_left_chunk fun s hs => ?_
  have hstays : s.Stays once false := h _ _ _ _ hformed (fun hyes => (honce hyes).statements)
    (fun hyes _ => (honce hyes).self) s hs
  exact hstays.imp_right fun hkept => hkept rfl

/-- A statement that is no local assignment stays as it has been folded. -/
theorem stays_some {root : Bool} {s : Stat} (hkept : ∀ bound, ¬ s.Replaceable bound)
    (h : (stat s).All (Left once)) : ∀ s' ∈ some s, s'.Stays once root := by
  intro s' hs'
  obtain rfl : s = s' := Option.some.inj hs'
  exact ⟨h, fun _ _ => hkept⟩

/-! ### Expressions -/

section

variable {position : Position} {target callee operand lhs rhs : Expr} {arguments : List Expr}

theorem isLeft_literal {value : Literal} : (Expr.literal position value).IsLeft once := by
  intro constants _ _
  rw [Expr.fold]
  exact all_literal.2 (left_of_folded trivial)

/-- A local that has been declared with a literal is that literal. -/
theorem isLeft_var {name : String} : (Expr.var position name).IsLeft once := by
  intro constants _ _
  rw [Expr.fold]
  cases constants.find? name with
  | none => exact all_var.2 (left_of_folded trivial)
  | some value => exact all_literal.2 (left_of_folded trivial)

theorem isLeft_function {parameters : List Identifier} {body : List Stat}
    (hbody : BodyLeft once body) : (Expr.function position parameters body).IsLeft once := by
  intro constants hformed h
  rw [Expr.formed] at hformed
  rw [Expr.fold]
  refine all_function.2 ⟨left_of_folded trivial, ?_⟩
  exact hbody _ _ hformed fun honce => (all_function.1 (h honce)).2

theorem isLeft_table {entries : List (Expr × Expr)} (hentries : EntriesLeft once entries) :
    (Expr.table position entries).IsLeft once := by
  intro constants hformed h
  rw [Expr.formed] at hformed
  rw [Expr.fold]
  refine all_table.2 ⟨left_of_folded trivial, ?_⟩
  exact hentries constants hformed fun honce => (all_table.1 (h honce)).2

theorem isLeft_call (hcallee : callee.IsLeft once) (harguments : AllLeft once arguments) :
    (Expr.call position callee arguments).IsLeft once := by
  intro constants hformed h
  rw [Expr.formed, Bool.and_eq_true] at hformed
  rw [Expr.fold]
  refine all_call.2 ⟨left_of_folded trivial, ?_, ?_⟩
  · exact hcallee constants hformed.1 fun honce => (all_call.1 (h honce)).2.1
  · exact harguments constants hformed.2 fun honce => (all_call.1 (h honce)).2.2

theorem isLeft_index {key : Expr} (htarget : target.IsLeft once) (hkey : key.IsLeft once) :
    (Expr.index position target key).IsLeft once := by
  intro constants hformed h
  rw [Expr.formed, Bool.and_eq_true] at hformed
  rw [Expr.fold]
  refine all_index.2 ⟨left_of_folded trivial, ?_, ?_⟩
  · exact htarget constants hformed.1 fun honce => (all_index.1 (h honce)).2.1
  · exact hkey constants hformed.2 fun honce => (all_index.1 (h honce)).2.2

theorem isLeft_group {inner : Expr} (hinner : inner.IsLeft once) :
    (Expr.group position inner).IsLeft once := by
  intro constants hformed h
  rw [Expr.formed, Bool.and_eq_true] at hformed
  rw [Expr.fold]
  refine all_group.2 ⟨left_of_folded trivial, ?_⟩
  exact hinner constants hformed.2 fun honce => (all_group.1 (h honce)).2

theorem isLeft_binary {operator : BinaryOperator} (hlhs : lhs.IsLeft once)
    (hrhs : rhs.IsLeft once) : (Expr.binary position operator lhs rhs).IsLeft once := by
  intro constants hformed h
  rw [Expr.formed, Bool.and_eq_true] at hformed
  rw [Expr.fold]
  apply all_left_foldBinary
  · exact hlhs constants hformed.1 fun honce => (all_binary.1 (h honce)).2.1
  · exact hrhs constants hformed.2 fun honce => (all_binary.1 (h honce)).2.2

theorem isLeft_unary {operator : UnaryOperator} (hoperand : operand.IsLeft once) :
    (Expr.unary position operator operand).IsLeft once := by
  intro constants hformed h
  rw [Expr.formed] at hformed
  rw [Expr.fold]
  apply all_left_foldUnary
  exact hoperand constants hformed fun honce => (all_unary.1 (h honce)).2

end

/-! ### Statements -/

section

variable {position : Position} {condition start stop : Expr} {targets values iterators : List Expr}
  {branches : List (Expr × List Stat)} {body : List Stat} {counter : Identifier}

theorem isLeft_expression {e : Expr} (he : e.IsLeft once) : (Stat.expression e).IsLeft once := by
  intro bound root constants inLoop hformed h _
  rw [Stat.fold]
  apply stays_some fun _ => id
  refine all_expression.2 ⟨left_of_targeted trivial, ?_⟩
  exact he constants hformed fun honce => (all_expression.1 (h honce)).2

theorem isLeft_localAssignment (hvalues : AllLeft once values) :
    (Stat.assignment position true targets values).IsLeft once := by
  intro bound root constants inLoop hformed h honce
  -- Targets of a local assignment are variables, which are not folded.
  simp only [Stat.formed, Bool.and_eq_true, Bool.not_eq_true', List.isEmpty_eq_false_iff,
    List.all_eq_true] at hformed
  obtain ⟨⟨⟨⟨hne, -⟩, hvars⟩, -⟩, hformed⟩ := hformed
  have hleft := hvalues constants hformed fun honce => (all_assignment.1 (h honce)).2.2
  rw [Stat.fold]
  exact all_left_foldLocal hne hvars hleft honce

theorem isLeft_assignment (htargets : TargetsLeft once targets) (hvalues : AllLeft once values) :
    (Stat.assignment position false targets values).IsLeft once := by
  intro bound root constants inLoop hformed h _
  simp only [Stat.formed, Bool.and_eq_true, Bool.not_eq_true', List.isEmpty_eq_false_iff,
    List.all_eq_true, Bool.false_eq_true, if_false] at hformed
  obtain ⟨⟨⟨⟨hne, -⟩, hstorable⟩, hformed⟩, hformed'⟩ := hformed
  have hleft := htargets constants hformed hstorable fun honce => (all_assignment.1 (h honce)).2.1
  have hne' : foldTargets constants targets ≠ [] := by
    rw [← List.isEmpty_eq_false_iff, isEmpty_foldTargets, List.isEmpty_eq_false_iff]
    exact hne
  rw [Stat.fold]
  apply stays_some fun _ => id
  refine all_assignment.2 ⟨left_of_targeted ⟨hne', fun e he => (hleft e he).2⟩,
    fun e he => (hleft e he).1, ?_⟩
  exact hvalues constants hformed' fun honce => (all_assignment.1 (h honce)).2.2

theorem isLeft_declaration (names : List Identifier) : (Stat.declaration names).IsLeft once := by
  intro bound root constants inLoop _ _ _
  rw [Stat.fold]
  exact stays_some (fun _ => id) (all_declaration.2 (left_of_targeted trivial))

theorem isLeft_localFunction {name : Identifier} {function : Expr}
    (hfunction : function.IsLeft once) : (Stat.localFunction name function).IsLeft once := by
  intro bound root constants inLoop hformed h _
  rw [Stat.fold]
  apply stays_some fun _ => id
  refine all_localFunction.2 ⟨left_of_targeted trivial, ?_⟩
  exact hfunction _ hformed fun honce => (all_localFunction.1 (h honce)).2

theorem isLeft_conditional (hbranches : BranchesLeft once branches) :
    (Stat.conditional position branches none).IsLeft once := by
  intro bound root constants inLoop hformed h _
  rw [Stat.formed, Bool.and_eq_true] at hformed
  rw [Stat.fold]
  apply stays_some fun _ => id
  refine all_conditional.2 ⟨left_of_targeted trivial, ?_, fun _ hbody => by cases hbody⟩
  exact hbranches constants inLoop hformed.2 fun honce => (all_conditional.1 (h honce)).2.1

theorem isLeft_conditional_else (hbranches : BranchesLeft once branches)
    (hbody : BodyLeft once body) :
    (Stat.conditional position branches (some body)).IsLeft once := by
  intro bound root constants inLoop hformed h _
  simp only [Stat.formed, Bool.and_eq_true] at hformed
  have hfolded := hbody constants inLoop hformed.2 fun honce =>
    (all_conditional.1 (h honce)).2.2 body rfl
  rw [Stat.fold]
  apply stays_some fun _ => id
  refine all_conditional.2 ⟨left_of_targeted trivial, ?_, fun body' hbody' => ?_⟩
  · exact hbranches constants inLoop hformed.1.2 fun honce => (all_conditional.1 (h honce)).2.1
  · obtain rfl := Option.some.inj hbody'
    exact hfolded

theorem isLeft_whileLoop (hcondition : condition.IsLeft once) (hbody : BodyLeft once body) :
    (Stat.whileLoop position condition body).IsLeft once := by
  intro bound root constants inLoop hformed h _
  rw [Stat.formed, Bool.and_eq_true] at hformed
  rw [Stat.fold]
  apply stays_some fun _ => id
  refine all_whileLoop.2 ⟨left_of_targeted trivial, ?_, ?_⟩
  · exact hcondition constants hformed.1 fun honce => (all_whileLoop.1 (h honce)).2.1
  · exact hbody _ _ hformed.2 fun honce => (all_whileLoop.1 (h honce)).2.2

theorem isLeft_numericFor (hstart : start.IsLeft once) (hstop : stop.IsLeft once)
    (hbody : BodyLeft once body) : (Stat.numericFor counter start stop none body).IsLeft once := by
  intro bound root constants inLoop hformed h _
  simp only [Stat.formed, Bool.and_eq_true] at hformed
  rw [Stat.fold]
  apply stays_some fun _ => id
  refine all_numericFor.2 ⟨left_of_targeted trivial, ?_, ?_, ?_, fun _ hstep => by cases hstep⟩
  · exact hstart constants hformed.1.1 fun honce => (all_numericFor.1 (h honce)).2.1
  · exact hstop constants hformed.1.2 fun honce => (all_numericFor.1 (h honce)).2.2.1
  · exact hbody _ _ hformed.2 fun honce => (all_numericFor.1 (h honce)).2.2.2.1

theorem isLeft_numericFor_step {step : Expr} (hstart : start.IsLeft once)
    (hstop : stop.IsLeft once) (hstep : step.IsLeft once) (hbody : BodyLeft once body) :
    (Stat.numericFor counter start stop (some step) body).IsLeft once := by
  intro bound root constants inLoop hformed h _
  simp only [Stat.formed, Bool.and_eq_true] at hformed
  have hfolded := hstep constants hformed.1.2 fun honce =>
    (all_numericFor.1 (h honce)).2.2.2.2 step rfl
  rw [Stat.fold]
  apply stays_some fun _ => id
  refine all_numericFor.2 ⟨left_of_targeted trivial, ?_, ?_, ?_, fun step' hstep' => ?_⟩
  · exact hstart constants hformed.1.1.1 fun honce => (all_numericFor.1 (h honce)).2.1
  · exact hstop constants hformed.1.1.2 fun honce => (all_numericFor.1 (h honce)).2.2.1
  · exact hbody _ _ hformed.2 fun honce => (all_numericFor.1 (h honce)).2.2.2.1
  · obtain rfl := Option.some.inj hstep'
    exact hfolded

theorem isLeft_genericFor {names : List Identifier} (hiterators : AllLeft once iterators)
    (hbody : BodyLeft once body) : (Stat.genericFor position names iterators body).IsLeft once := by
  intro bound root constants inLoop hformed h _
  simp only [Stat.formed, Bool.and_eq_true] at hformed
  rw [Stat.fold]
  apply stays_some fun _ => id
  refine all_genericFor.2 ⟨left_of_targeted trivial, ?_, ?_⟩
  · exact hbody _ _ hformed.2 fun honce => (all_genericFor.1 (h honce)).2.1
  · exact hiterators constants hformed.1.2 fun honce => (all_genericFor.1 (h honce)).2.2

theorem isLeft_repeatLoop (hbody : BodyLeft once body) (hcondition : condition.IsLeft once) :
    (Stat.repeatLoop position body condition).IsLeft once := by
  intro bound root constants inLoop hformed h _
  rw [Stat.formed, Bool.and_eq_true] at hformed
  rw [Stat.fold]
  apply stays_some fun _ => id
  refine all_repeatLoop.2 ⟨left_of_targeted trivial, ?_, ?_⟩
  · exact hbody _ _ hformed.1 fun honce => (all_repeatLoop.1 (h honce)).2.1
  · exact hcondition _ hformed.2 fun honce => (all_repeatLoop.1 (h honce)).2.2

theorem isLeft_block (hbody : BodyLeft once body) : (Stat.block body).IsLeft once := by
  intro bound root constants inLoop hformed h _
  rw [Stat.formed] at hformed
  rw [Stat.fold]
  apply stays_some fun _ => id
  refine all_block.2 ⟨left_of_targeted trivial, ?_⟩
  exact hbody _ _ hformed fun honce => (all_block.1 (h honce)).2

theorem isLeft_result (hvalues : AllLeft once values) :
    (Stat.result position values).IsLeft once := by
  intro bound root constants inLoop hformed h _
  rw [Stat.formed] at hformed
  rw [Stat.fold]
  apply stays_some fun _ => id
  refine all_result.2 ⟨left_of_targeted trivial, ?_⟩
  exact hvalues constants hformed fun honce => (all_result.1 (h honce)).2

theorem isLeft_leave : (Stat.leave position).IsLeft once := by
  intro bound root constants inLoop _ _ _
  rw [Stat.fold]
  exact stays_some (fun _ => id) (all_leave.2 (left_of_targeted trivial))

end

/-! ### Whole texts -/

mutual

/-- **What an expression is folded to cannot be folded further**, but for declarations in the bodies
of its functions. -/
theorem Expr.all_left_fold : ∀ e : Expr, e.IsLeft once
  | .literal _ _ => isLeft_literal
  | .var _ _ => isLeft_var
  | .function _ _ body => isLeft_function (all_left_foldStats body).body
  | .table _ entries => isLeft_table (all_left_foldEntries entries)
  | .call _ callee arguments => isLeft_call callee.all_left_fold (all_left_foldAll arguments)
  | .index _ target key => isLeft_index target.all_left_fold key.all_left_fold
  | .group _ inner => isLeft_group inner.all_left_fold
  | .binary _ _ lhs rhs => isLeft_binary lhs.all_left_fold rhs.all_left_fold
  | .unary _ _ operand => isLeft_unary operand.all_left_fold

theorem all_left_foldAll : ∀ es : List Expr, AllLeft once es
  | [], _, _, _ => by
    rw [foldAll]
    exact List.forall_mem_nil _
  | e :: rest, constants, hformed, h => by
    rw [allFormed, Bool.and_eq_true] at hformed
    rw [foldAll]
    refine List.forall_mem_cons.2 ⟨?_, ?_⟩
    · exact e.all_left_fold constants hformed.1 fun honce => h honce e List.mem_cons_self
    · exact all_left_foldAll rest constants hformed.2 fun honce e he => h honce e (.tail _ he)

theorem all_left_foldEntries : ∀ es : List (Expr × Expr), EntriesLeft once es
  | [], _, _, _ => by
    rw [foldEntries]
    exact List.forall_mem_nil _
  | (key, value) :: rest, constants, hformed, h => by
    simp only [entriesFormed, Bool.and_eq_true] at hformed
    rw [foldEntries]
    refine List.forall_mem_cons.2 ⟨⟨?_, ?_⟩, ?_⟩
    · exact key.all_left_fold constants hformed.1.1 fun honce => (h honce _ List.mem_cons_self).1
    · exact value.all_left_fold constants hformed.1.2 fun honce => (h honce _ List.mem_cons_self).2
    · exact all_left_foldEntries rest constants hformed.2 fun honce e he => h honce e (.tail _ he)

theorem all_left_foldTargets : ∀ es : List Expr, TargetsLeft once es
  | [], _, _, _, _ => by
    rw [foldTargets]
    exact List.forall_mem_nil _
  | e :: rest, constants, hformed, htarget, h => by
    rw [allFormed, Bool.and_eq_true] at hformed
    have ih := all_left_foldTargets rest constants hformed.2 (fun e he => htarget e (.tail _ he))
      fun honce e he => h honce e (.tail _ he)
    have he := htarget e List.mem_cons_self
    cases e with
    | index position target key =>
      have hparts := hformed.1
      rw [Expr.formed, Bool.and_eq_true] at hparts
      rw [foldTargets]
      refine List.forall_mem_cons.2 ⟨⟨all_index.2 ⟨left_of_folded trivial, ?_, ?_⟩, rfl⟩, ih⟩
      · exact target.all_left_fold constants hparts.1 fun honce =>
          (all_index.1 (h honce _ List.mem_cons_self)).2.1
      · exact key.all_left_fold constants hparts.2 fun honce =>
          (all_index.1 (h honce _ List.mem_cons_self)).2.2
    | var position name =>
      simp only [foldTargets]
      exact List.forall_mem_cons.2 ⟨⟨all_var.2 (left_of_folded trivial), rfl⟩, ih⟩
    | _ => cases he

theorem all_left_foldBranches : ∀ es : List (Expr × List Stat), BranchesLeft once es
  | [], _, _, _, _ => by
    rw [foldBranches]
    exact List.forall_mem_nil _
  | (condition, body) :: rest, constants, inLoop, hformed, h => by
    simp only [branchesFormed, Bool.and_eq_true] at hformed
    rw [foldBranches]
    refine List.forall_mem_cons.2 ⟨⟨?_, ?_⟩, ?_⟩
    · exact condition.all_left_fold constants hformed.1.1 fun honce =>
        (h honce _ List.mem_cons_self).1
    · exact (all_left_foldStats body).body _ _ hformed.1.2 fun honce =>
        (h honce _ List.mem_cons_self).2
    · exact all_left_foldBranches rest constants inLoop hformed.2 fun honce e he =>
        h honce e (.tail _ he)

/-- **What a statement is folded to cannot be folded further**, but for declarations. -/
theorem Stat.all_left_fold : ∀ s : Stat, s.IsLeft once
  | .expression e => isLeft_expression e.all_left_fold
  | .assignment _ true _ values => isLeft_localAssignment (all_left_foldAll values)
  | .assignment _ false targets values =>
    isLeft_assignment (all_left_foldTargets targets) (all_left_foldAll values)
  | .declaration names => isLeft_declaration names
  | .localFunction _ function => isLeft_localFunction function.all_left_fold
  | .conditional _ branches none => isLeft_conditional (all_left_foldBranches branches)
  | .conditional _ branches (some body) =>
    isLeft_conditional_else (all_left_foldBranches branches) (all_left_foldStats body).body
  | .whileLoop _ condition body =>
    isLeft_whileLoop condition.all_left_fold (all_left_foldStats body).body
  | .numericFor _ start stop none body =>
    isLeft_numericFor start.all_left_fold stop.all_left_fold (all_left_foldStats body).body
  | .numericFor _ start stop (some step) body =>
    isLeft_numericFor_step start.all_left_fold stop.all_left_fold step.all_left_fold
      (all_left_foldStats body).body
  | .genericFor _ _ iterators body =>
    isLeft_genericFor (all_left_foldAll iterators) (all_left_foldStats body).body
  | .repeatLoop _ body condition =>
    isLeft_repeatLoop (all_left_foldStats body).body condition.all_left_fold
  | .block body => isLeft_block (all_left_foldStats body).body
  | .result _ values => isLeft_result (all_left_foldAll values)
  | .leave _ => isLeft_leave

theorem all_left_foldStats : ∀ body : List Stat, StatsLeft once body
  | [], _, _, _, _, _, _, _ => by
    rw [foldStats]
    exact List.forall_mem_nil _
  | s :: rest, bound, root, constants, inLoop, hformed, h, honce => by
    rw [chunkFormed, Bool.and_eq_true] at hformed
    rw [foldStats]
    refine List.forall_mem_append.2 ⟨fun s' hs' => ?_, ?_⟩
    · exact s.all_left_fold bound root constants inLoop hformed.1
        (fun honce => h honce s List.mem_cons_self)
        (fun hyes hroot => honce hyes hroot s List.mem_cons_self) s' (Option.mem_toList.1 hs')
    · exact all_left_foldStats rest bound root _ inLoop hformed.2
        (fun honce s hs => h honce s (.tail _ hs))
        fun hyes hroot s hs => honce hyes hroot s (.tail _ hs)

end

end

end ScriptEngine
