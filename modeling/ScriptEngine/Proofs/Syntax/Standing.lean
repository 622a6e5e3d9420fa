import ScriptEngine.Proofs.Syntax.Nodes
import ScriptEngine.Proofs.Syntax.Promises

/-!
# Where syntax stands

Every node of a tree names the places it stems from.  Folding replaces nodes by literals at places
of nodes that were there before, and so makes up none.

## Main definitions

* `Node.places` — the places that a node itself names.
* `Node.Stands` — all places in a tree are as a predicate says.
* `IsNodePlace` — the places of the nodes in a text.

## Main results

* `Node.Stands.of_occurs` — this is so for all nodes, however deep.
* `Node.stands_isNodePlace` — a text stands at the places of its nodes.
* `stands_optimize` — folding makes up no places.
-/

namespace ScriptEngine

namespace Node

/-! ### Places in trees -/

/-- The places that a node itself names. -/
@[simp] def places : Node → List Position
  | chunk _ => []
  | stat (.expression _) => []
  | stat (.assignment position _ _ _) => [position]
  | stat (.declaration names) => names.map Identifier.position
  | stat (.localFunction name _) => [name.position]
  | stat (.conditional position _ _) => [position]
  | stat (.whileLoop position _ _) => [position]
  | stat (.numericFor counter _ _ _ _) => [counter.position]
  | stat (.genericFor position names _ _) => position :: names.map Identifier.position
  | stat (.repeatLoop position _ _) => [position]
  | stat (.block _) => []
  | stat (.result position _) => [position]
  | stat (.leave position) => [position]
  | expr (.function position parameters _) => position :: parameters.map Identifier.position
  | expr e => [e.position]

end Node

/-- The places of the nodes in a text. -/
def IsNodePlace (text : Chunk) (p : Position) : Prop :=
  ∃ inLoop n, Occurs text inLoop n ∧ p ∈ Node.places n

namespace Node

/-- All places in a tree are as `P` says. -/
def Stands (P : Position → Prop) (n : Node) : Prop := n.All fun m => ∀ p ∈ m.places, P p

variable {P Q : Position → Prop} {n : Node}

theorem stands_iff :
    n.Stands P ↔ (∀ p ∈ n.places, P p) ∧ ∀ child ∈ n.children, child.Stands P := all_iff

theorem Stands.position {e : Expr} (h : (expr e).Stands P) : P e.position := by
  have hplaces := h.self
  cases e <;> exact hplaces _ List.mem_cons_self

/-- What is in a node that occurs in a text occurs there as well. -/
theorem Within.occurs {text : Chunk} {m : Node} (h : n.Within m) {inLoop : Bool}
    (hm : Occurs text inLoop m) : ∃ inLoop, Occurs text inLoop n := by
  induction h generalizing inLoop with
  | here => exact ⟨inLoop, hm⟩
  | child hchild _ ih => exact ih (.child hm hchild)

theorem within_of_occurs {text : Chunk} {inLoop : Bool} (h : Occurs text inLoop n) :
    n.Within (chunk text) := by
  induction h with
  | text => exact .here
  | child _ hchild ih => exact (Within.child hchild .here).trans ih

/-- The places of the nodes in a tree. -/
theorem Stands.of_occurs {text : Chunk} {inLoop : Bool} (htext : (chunk text).Stands P)
    (h : Occurs text inLoop n) : ∀ p ∈ n.places, P p :=
  htext n (within_of_occurs h)

/-- A text stands at the places of its nodes. -/
theorem stands_isNodePlace (text : Chunk) : (chunk text).Stands (IsNodePlace text) := by
  intro n hn p hp
  obtain ⟨inLoop, hoccurs⟩ := hn.occurs .text
  exact ⟨inLoop, n, hoccurs, hp⟩

/-! ### Places in the single kinds of nodes -/

section Kinds

variable {position : Position} {name : String} {names : List Identifier} {e lhs rhs : Expr}
  {es targets values : List Expr} {body : Chunk}

@[simp] theorem stands_chunk : (chunk body).Stands P ↔ ∀ s ∈ body, (stat s).Stands P := by
  rw [stands_iff]
  simp [children]

@[simp] theorem stands_literal {value : Literal} :
    (expr (.literal position value)).Stands P ↔ P position := by
  rw [stands_iff]
  simp [children, Expr.position]

@[simp] theorem stands_var : (expr (.var position name)).Stands P ↔ P position := by
  rw [stands_iff]
  simp [children, Expr.position]

@[simp] theorem stands_function :
    (expr (.function position names body)).Stands P ↔
      P position ∧ (∀ name ∈ names, P name.position) ∧ (chunk body).Stands P := by
  rw [stands_iff]
  simp [children, and_assoc]

@[simp] theorem stands_table {entries : List (Expr × Expr)} :
    (expr (.table position entries)).Stands P ↔ P position ∧
      ∀ entry ∈ entries, (expr entry.1).Stands P ∧ (expr entry.2).Stands P := by
  rw [stands_iff]
  simp only [places, children, Expr.position, List.forall_mem_singleton, List.forall_mem_flatMap,
    List.forall_mem_cons]

@[simp] theorem stands_call :
    (expr (.call position e es)).Stands P ↔
      P position ∧ (expr e).Stands P ∧ ∀ e ∈ es, (expr e).Stands P := by
  rw [stands_iff]
  simp [children, Expr.position]

@[simp] theorem stands_index :
    (expr (.index position lhs rhs)).Stands P ↔
      P position ∧ (expr lhs).Stands P ∧ (expr rhs).Stands P := by
  rw [stands_iff]
  simp [children, Expr.position]

@[simp] theorem stands_group :
    (expr (.group position e)).Stands P ↔ P position ∧ (expr e).Stands P := by
  rw [stands_iff]
  simp [children, Expr.position]

@[simp] theorem stands_binary {operator : BinaryOperator} :
    (expr (.binary position operator lhs rhs)).Stands P ↔
      P position ∧ (expr lhs).Stands P ∧ (expr rhs).Stands P := by
  rw [stands_iff]
  simp [children, Expr.position]

@[simp] theorem stands_unary {operator : UnaryOperator} :
    (expr (.unary position operator e)).Stands P ↔ P position ∧ (expr e).Stands P := by
  rw [stands_iff]
  simp [children, Expr.position]

@[simp] theorem stands_expression : (stat (.expression e)).Stands P ↔ (expr e).Stands P := by
  rw [stands_iff]
  simp [children]

@[simp] theorem stands_assignment {isLocal : Bool} :
    (stat (.assignment position isLocal targets values)).Stands P ↔
      P position ∧ (∀ e ∈ targets, (expr e).Stands P) ∧ ∀ e ∈ values, (expr e).Stands P := by
  rw [stands_iff]
  simp [children, or_imp, forall_and]

@[simp] theorem stands_declaration :
    (stat (.declaration names)).Stands P ↔ ∀ name ∈ names, P name.position := by
  rw [stands_iff]
  simp [children]

@[simp] theorem stands_localFunction {name : Identifier} :
    (stat (.localFunction name e)).Stands P ↔ P name.position ∧ (expr e).Stands P := by
  rw [stands_iff]
  simp [children]

@[simp] theorem stands_conditional {branches : List (Expr × List Stat)}
    {otherwise : Option (List Stat)} :
    (stat (.conditional position branches otherwise)).Stands P ↔ P position ∧
      (∀ branch ∈ branches, (expr branch.1).Stands P ∧ (chunk branch.2).Stands P) ∧
      ∀ body ∈ otherwise, (chunk body).Stands P := by
  rw [stands_iff]
  simp only [places, children, List.forall_mem_singleton, List.forall_mem_append,
    List.forall_mem_flatMap, List.forall_mem_cons, List.forall_mem_map, Option.mem_toList,
    Option.mem_def]

@[simp] theorem stands_whileLoop :
    (stat (.whileLoop position e body)).Stands P ↔
      P position ∧ (expr e).Stands P ∧ (chunk body).Stands P := by
  rw [stands_iff]
  simp [children]

@[simp] theorem stands_numericFor {counter : Identifier} {step : Option Expr} :
    (stat (.numericFor counter lhs rhs step body)).Stands P ↔
      P counter.position ∧ (expr lhs).Stands P ∧ (expr rhs).Stands P ∧ (chunk body).Stands P ∧
        ∀ e ∈ step, (expr e).Stands P := by
  rw [stands_iff]
  simp [children]

@[simp] theorem stands_genericFor :
    (stat (.genericFor position names es body)).Stands P ↔
      P position ∧ (∀ name ∈ names, P name.position) ∧ (chunk body).Stands P ∧
        ∀ e ∈ es, (expr e).Stands P := by
  rw [stands_iff]
  simp [children, and_assoc]

@[simp] theorem stands_repeatLoop :
    (stat (.repeatLoop position body e)).Stands P ↔
      P position ∧ (chunk body).Stands P ∧ (expr e).Stands P := by
  rw [stands_iff]
  simp [children]

@[simp] theorem stands_block : (stat (.block body)).Stands P ↔ (chunk body).Stands P := by
  rw [stands_iff]
  simp [children]

@[simp] theorem stands_result :
    (stat (.result position es)).Stands P ↔ P position ∧ ∀ e ∈ es, (expr e).Stands P := by
  rw [stands_iff]
  simp [children]

@[simp] theorem stands_leave : (stat (.leave position)).Stands P ↔ P position := by
  rw [stands_iff]
  simp [children]

end Kinds

end Node

open Node

/-! ### Folding -/

section Folding

variable {P : Position → Prop}

theorem stands_foldBinary {position : Position} {operator : BinaryOperator} {lhs rhs : Expr}
    (hposition : P position) (hlhs : (expr lhs).Stands P) (hrhs : (expr rhs).Stands P) :
    (expr (foldBinary position operator lhs rhs)).Stands P := by
  have hboth : (expr (.binary position operator lhs rhs)).Stands P :=
    stands_binary.2 ⟨hposition, hlhs, hrhs⟩
  unfold foldBinary
  split
  · exact hboth
  · split
    · split <;> assumption
    · split <;> assumption
    · split
      · exact hboth
      · split
        · exact hboth
        · split
          · exact hboth
          · exact stands_literal.2 hlhs.position

theorem stands_foldUnary {position : Position} {operator : UnaryOperator} {operand : Expr}
    (hposition : P position) (h : (expr operand).Stands P) :
    (expr (foldUnary position operator operand)).Stands P := by
  have hsame : (expr (.unary position operator operand)).Stands P := stands_unary.2 ⟨hposition, h⟩
  unfold foldUnary
  split
  · exact hsame
  · split
    · exact hsame
    · split
      · exact hsame
      · exact stands_literal.2 h.position

/-- What is left of a local assignment stands where it stood. -/
theorem stands_foldLocal {bound : List String} {root : Bool} {constants : Constants}
    {position : Position} {targets values : List Expr}
    (h : (stat (.assignment position true targets values)).Stands P) :
    ∀ s ∈ (foldLocal bound root constants position targets values).1, (stat s).Stands P := by
  intro s hs
  obtain ⟨hposition, htargets, hvalues⟩ := stands_assignment.1 h
  unfold foldLocal at hs
  split at hs
  · split at hs
    · cases hs
    · next kept constants' hne hkept =>
      cases hs
      have hmem : ∀ e ∈ kept, e ∈ targets.zip values := by
        intro e he
        refine mem_of_mem_declarePairs bound constants ?_
        rw [hkept]
        exact he
      refine stands_assignment.2 ⟨hposition, List.forall_mem_map.2 fun e he => ?_,
        List.forall_mem_map.2 fun e he => ?_⟩
      · exact htargets e.1 (List.of_mem_zip (hmem e he)).1
      · exact hvalues e.2 (List.of_mem_zip (hmem e he)).2
  · cases hs
    exact h

mutual

theorem Expr.stands_fold : ∀ (e : Expr) (constants : Constants), (expr e).Stands P →
    (expr (e.fold constants)).Stands P
  | .literal _ _, _, h => by
    rw [Expr.fold]
    exact h
  | .var position name, constants, h => by
    rw [Expr.fold]
    split
    · exact stands_literal.2 (stands_var.1 h)
    · exact h
  | .function position parameters body, constants, h => by
    obtain ⟨hposition, hparameters, hbody⟩ := stands_function.1 h
    rw [Expr.fold]
    exact stands_function.2 ⟨hposition, hparameters, stands_foldStats body _ _ _ hbody⟩
  | .table position entries, constants, h => by
    obtain ⟨hposition, hentries⟩ := stands_table.1 h
    rw [Expr.fold]
    exact stands_table.2 ⟨hposition, stands_foldEntries entries constants hentries⟩
  | .call position callee arguments, constants, h => by
    obtain ⟨hposition, hcallee, harguments⟩ := stands_call.1 h
    rw [Expr.fold]
    exact stands_call.2
      ⟨hposition, callee.stands_fold constants hcallee,
        stands_foldAll arguments constants harguments⟩
  | .index position target key, constants, h => by
    obtain ⟨hposition, htarget, hkey⟩ := stands_index.1 h
    rw [Expr.fold]
    exact stands_index.2
      ⟨hposition, target.stands_fold constants htarget, key.stands_fold constants hkey⟩
  | .group position inner, constants, h => by
    obtain ⟨hposition, hinner⟩ := stands_group.1 h
    rw [Expr.fold]
    exact stands_group.2 ⟨hposition, inner.stands_fold constants hinner⟩
  | .binary position operator lhs rhs, constants, h => by
    obtain ⟨hposition, hlhs, hrhs⟩ := stands_binary.1 h
    rw [Expr.fold]
    exact stands_foldBinary hposition (lhs.stands_fold constants hlhs)
      (rhs.stands_fold constants hrhs)
  | .unary position operator operand, constants, h => by
    obtain ⟨hposition, hoperand⟩ := stands_unary.1 h
    rw [Expr.fold]
    exact stands_foldUnary hposition (operand.stands_fold constants hoperand)

theorem stands_foldAll : ∀ (es : List Expr) (constants : Constants),
    (∀ e ∈ es, (expr e).Stands P) → ∀ e ∈ foldAll constants es, (expr e).Stands P
  | [], _, _ => by
    rw [foldAll]
    exact nofun
  | e :: rest, constants, h => by
    obtain ⟨he, hrest⟩ := List.forall_mem_cons.1 h
    rw [foldAll]
    exact List.forall_mem_cons.2 ⟨e.stands_fold constants he, stands_foldAll rest constants hrest⟩

theorem stands_foldEntries : ∀ (es : List (Expr × Expr)) (constants : Constants),
    (∀ e ∈ es, (expr e.1).Stands P ∧ (expr e.2).Stands P) →
      ∀ e ∈ foldEntries constants es, (expr e.1).Stands P ∧ (expr e.2).Stands P
  | [], _, _ => by
    rw [foldEntries]
    exact nofun
  | (key, value) :: rest, constants, h => by
    obtain ⟨⟨hkey, hvalue⟩, hrest⟩ := List.forall_mem_cons.1 h
    rw [foldEntries]
    exact List.forall_mem_cons.2
      ⟨⟨key.stands_fold constants hkey, value.stands_fold constants hvalue⟩,
        stands_foldEntries rest constants hrest⟩

theorem stands_foldTargets : ∀ (es : List Expr) (constants : Constants),
    (∀ e ∈ es, (expr e).Stands P) → ∀ e ∈ foldTargets constants es, (expr e).Stands P
  | [], _, _ => by
    rw [foldTargets]
    exact nofun
  | e :: rest, constants, h => by
    obtain ⟨he, hrest⟩ := List.forall_mem_cons.1 h
    have hrest := stands_foldTargets rest constants hrest
    cases e with
    | index position target key =>
      obtain ⟨hposition, htarget, hkey⟩ := stands_index.1 he
      rw [foldTargets]
      refine List.forall_mem_cons.2 ⟨stands_index.2 ⟨hposition, ?_, ?_⟩, hrest⟩
      · exact target.stands_fold constants htarget
      · exact key.stands_fold constants hkey
    | _ =>
      simp only [foldTargets]
      exact List.forall_mem_cons.2 ⟨he, hrest⟩

theorem stands_foldBranches : ∀ (es : List (Expr × List Stat)) (constants : Constants),
    (∀ e ∈ es, (expr e.1).Stands P ∧ (Node.chunk e.2).Stands P) →
      ∀ e ∈ foldBranches constants es, (expr e.1).Stands P ∧ (Node.chunk e.2).Stands P
  | [], _, _ => by
    rw [foldBranches]
    exact nofun
  | (condition, body) :: rest, constants, h => by
    obtain ⟨⟨hcondition, hbody⟩, hrest⟩ := List.forall_mem_cons.1 h
    rw [foldBranches]
    exact List.forall_mem_cons.2
      ⟨⟨condition.stands_fold constants hcondition, stands_foldStats body _ _ _ hbody⟩,
        stands_foldBranches rest constants hrest⟩

theorem Stat.stands_fold : ∀ (s : Stat) (bound : List String) (root : Bool)
    (constants : Constants), (stat s).Stands P →
    ∀ s' ∈ (s.fold bound root constants).1, (stat s').Stands P
  | .expression e, bound, root, constants, h, s', hs' => by
    rw [Stat.fold] at hs'
    cases hs'
    exact stands_expression.2 (e.stands_fold constants (stands_expression.1 h))
  | .assignment position true targets values, bound, root, constants, h, s', hs' => by
    obtain ⟨hposition, htargets, hvalues⟩ := stands_assignment.1 h
    rw [Stat.fold] at hs'
    exact stands_foldLocal
      (stands_assignment.2 ⟨hposition, htargets, stands_foldAll values constants hvalues⟩) s' hs'
  | .assignment position false targets values, bound, root, constants, h, s', hs' => by
    obtain ⟨hposition, htargets, hvalues⟩ := stands_assignment.1 h
    rw [Stat.fold] at hs'
    cases hs'
    exact stands_assignment.2 ⟨hposition, stands_foldTargets targets constants htargets,
      stands_foldAll values constants hvalues⟩
  | .declaration names, bound, root, constants, h, s', hs' => by
    rw [Stat.fold] at hs'
    cases hs'
    exact h
  | .localFunction name function, bound, root, constants, h, s', hs' => by
    obtain ⟨hname, hfunction⟩ := stands_localFunction.1 h
    rw [Stat.fold] at hs'
    cases hs'
    exact stands_localFunction.2 ⟨hname, function.stands_fold _ hfunction⟩
  | .conditional position branches none, bound, root, constants, h, s', hs' => by
    obtain ⟨hposition, hbranches, -⟩ := stands_conditional.1 h
    rw [Stat.fold] at hs'
    cases hs'
    exact stands_conditional.2
      ⟨hposition, stands_foldBranches branches constants hbranches, nofun⟩
  | .conditional position branches (some body), bound, root, constants, h, s', hs' => by
    obtain ⟨hposition, hbranches, hotherwise⟩ := stands_conditional.1 h
    rw [Stat.fold] at hs'
    cases hs'
    refine stands_conditional.2 ⟨hposition, stands_foldBranches branches constants hbranches, ?_⟩
    rintro _ ⟨⟩
    exact stands_foldStats body _ _ _ (hotherwise body rfl)
  | .whileLoop position condition body, bound, root, constants, h, s', hs' => by
    obtain ⟨hposition, hcondition, hbody⟩ := stands_whileLoop.1 h
    rw [Stat.fold] at hs'
    cases hs'
    exact stands_whileLoop.2
      ⟨hposition, condition.stands_fold constants hcondition, stands_foldStats body _ _ _ hbody⟩
  | .numericFor counter start stop none body, bound, root, constants, h, s', hs' => by
    obtain ⟨hcounter, hstart, hstop, hbody, -⟩ := stands_numericFor.1 h
    rw [Stat.fold] at hs'
    cases hs'
    exact stands_numericFor.2 ⟨hcounter, start.stands_fold constants hstart,
      stop.stands_fold constants hstop, stands_foldStats body _ _ _ hbody, nofun⟩
  | .numericFor counter start stop (some step) body, bound, root, constants, h, s', hs' => by
    obtain ⟨hcounter, hstart, hstop, hbody, hstep⟩ := stands_numericFor.1 h
    rw [Stat.fold] at hs'
    cases hs'
    refine stands_numericFor.2 ⟨hcounter, start.stands_fold constants hstart,
      stop.stands_fold constants hstop, stands_foldStats body _ _ _ hbody, ?_⟩
    rintro _ ⟨⟩
    exact step.stands_fold constants (hstep step rfl)
  | .genericFor position names iterators body, bound, root, constants, h, s', hs' => by
    obtain ⟨hposition, hnames, hbody, hiterators⟩ := stands_genericFor.1 h
    rw [Stat.fold] at hs'
    cases hs'
    exact stands_genericFor.2 ⟨hposition, hnames, stands_foldStats body _ _ _ hbody,
      stands_foldAll iterators constants hiterators⟩
  | .repeatLoop position body condition, bound, root, constants, h, s', hs' => by
    obtain ⟨hposition, hbody, hcondition⟩ := stands_repeatLoop.1 h
    rw [Stat.fold] at hs'
    cases hs'
    exact stands_repeatLoop.2
      ⟨hposition, stands_foldStats body _ _ _ hbody, condition.stands_fold _ hcondition⟩
  | .block body, bound, root, constants, h, s', hs' => by
    rw [Stat.fold] at hs'
    cases hs'
    exact stands_block.2 (stands_foldStats body _ _ _ (stands_block.1 h))
  | .result position values, bound, root, constants, h, s', hs' => by
    obtain ⟨hposition, hvalues⟩ := stands_result.1 h
    rw [Stat.fold] at hs'
    cases hs'
    exact stands_result.2 ⟨hposition, stands_foldAll values constants hvalues⟩
  | .leave position, bound, root, constants, h, s', hs' => by
    rw [Stat.fold] at hs'
    cases hs'
    exact h

theorem stands_foldStats : ∀ (body : List Stat) (bound : List String) (root : Bool)
    (constants : Constants), (Node.chunk body).Stands P →
    (Node.chunk (foldStats bound root constants body).1).Stands P
  | [], _, _, _, h => by
    rw [foldStats]
    exact h
  | s :: rest, bound, root, constants, h => by
    obtain ⟨hs, hrest⟩ := List.forall_mem_cons.1 (stands_chunk.1 h)
    have hfirst := s.stands_fold bound root constants hs
    have hothers := stands_foldStats rest bound root (s.fold bound root constants).2
      (stands_chunk.2 hrest)
    rw [foldStats]
    refine stands_chunk.2 (List.forall_mem_append.2 ⟨fun s' hs' => ?_, stands_chunk.1 hothers⟩)
    exact hfirst s' (Option.mem_toList.1 hs')

end

/-- **Folding makes up no places.** -/
theorem stands_optimize {chunk : Chunk} (h : (Node.chunk chunk).Stands P) :
    (Node.chunk (optimize chunk)).Stands P := stands_foldStats chunk _ _ _ h

theorem isNodePlace_of_optimize {chunk : Chunk} {p : Position}
    (h : IsNodePlace (optimize chunk) p) : IsNodePlace chunk p := by
  obtain ⟨inLoop, n, hoccurs, hp⟩ := h
  exact (stands_optimize (stands_isNodePlace chunk)).of_occurs hoccurs p hp

end Folding

end ScriptEngine
