import ScriptEngine.Proofs.Syntax.Depth

/-!
# Nodes somewhere in a node

What holds of all nodes of a tree holds of its root and of all nodes of the trees below it.  For
each kind of node there is a lemma that says which trees these are.

## Main definitions

* `Node.Within`, `Node.All` — what is somewhere in a node, and what holds of all of it.

## Main results

* `Node.all_iff` — what holds of a whole tree, in terms of its root and the trees below.
* `Node.all_conditional`, `Node.all_table` and the like — the same for a node of one kind.
-/

namespace ScriptEngine

namespace Node

/-- A node is somewhere in another one, at any depth. -/
inductive Within (n : Node) : Node → Prop
  | here : Within n n
  | child {m child : Node} (hchild : child ∈ m.children) (h : Within n child) : Within n m

/-- Parts of a part are parts of the whole. -/
theorem Within.trans {n child m : Node} (h : n.Within child) (h' : child.Within m) :
    n.Within m := by
  induction h' with
  | here => exact h
  | child hchild _ ih => exact .child hchild ih

/-- All nodes that are somewhere in a node have a property. -/
def All (P : Node → Prop) (m : Node) : Prop := ∀ n, Within n m → P n

variable {P Q : Node → Prop} {m child : Node}

theorem all_iff : m.All P ↔ P m ∧ ∀ child ∈ m.children, child.All P := by
  constructor
  · exact fun h => ⟨h m .here, fun child hchild n hn => h n (.child hchild hn)⟩
  · rintro ⟨hm, hchildren⟩ n hn
    cases hn with
    | here => exact hm
    | child hchild hn => exact hchildren _ hchild n hn

theorem All.imp (h : m.All P) (hPQ : ∀ n, P n → Q n) : m.All Q := fun n hn => hPQ n (h n hn)

theorem All.self (h : m.All P) : P m := h m .here

theorem All.of_within (h : m.All P) (hchild : child.Within m) : child.All P :=
  fun n hn => h n (hn.trans hchild)

theorem All.of_mem (h : m.All P) (hchild : child ∈ m.children) : child.All P :=
  fun n hn => h n (.child hchild hn)

theorem All.statements {body : Chunk} (h : (chunk body).All P) : ∀ s ∈ body, (stat s).All P :=
  fun _ hs => h.of_mem (List.mem_map_of_mem hs)

/-! ### The single kinds of nodes -/

section Kinds

variable {position : Position} {name : String} {names : List Identifier} {e lhs rhs : Expr}
  {es targets values : List Expr} {body : Chunk}

@[simp] theorem all_chunk :
    (chunk body).All P ↔ P (chunk body) ∧ ∀ s ∈ body, (stat s).All P := by
  rw [all_iff]
  simp [children]

@[simp] theorem all_literal {value : Literal} :
    (expr (.literal position value)).All P ↔ P (expr (.literal position value)) := by
  rw [all_iff]
  simp [children]

@[simp] theorem all_var :
    (expr (.var position name)).All P ↔ P (expr (.var position name)) := by
  rw [all_iff]
  simp [children]

@[simp] theorem all_function :
    (expr (.function position names body)).All P ↔
      P (expr (.function position names body)) ∧ (chunk body).All P := by
  rw [all_iff]
  simp [children]

@[simp] theorem all_table {entries : List (Expr × Expr)} :
    (expr (.table position entries)).All P ↔ P (expr (.table position entries)) ∧
      ∀ entry ∈ entries, (expr entry.1).All P ∧ (expr entry.2).All P := by
  rw [all_iff]
  simp only [children, List.forall_mem_singleton, List.forall_mem_flatMap, List.forall_mem_cons]

@[simp] theorem all_call :
    (expr (.call position e es)).All P ↔ P (expr (.call position e es)) ∧
      (expr e).All P ∧ ∀ e ∈ es, (expr e).All P := by
  rw [all_iff]
  simp [children]

@[simp] theorem all_index :
    (expr (.index position lhs rhs)).All P ↔
      P (expr (.index position lhs rhs)) ∧ (expr lhs).All P ∧ (expr rhs).All P := by
  rw [all_iff]
  simp [children]

@[simp] theorem all_group :
    (expr (.group position e)).All P ↔ P (expr (.group position e)) ∧ (expr e).All P := by
  rw [all_iff]
  simp [children]

@[simp] theorem all_binary {operator : BinaryOperator} :
    (expr (.binary position operator lhs rhs)).All P ↔
      P (expr (.binary position operator lhs rhs)) ∧ (expr lhs).All P ∧ (expr rhs).All P := by
  rw [all_iff]
  simp [children]

@[simp] theorem all_unary {operator : UnaryOperator} :
    (expr (.unary position operator e)).All P ↔
      P (expr (.unary position operator e)) ∧ (expr e).All P := by
  rw [all_iff]
  simp [children]

@[simp] theorem all_expression :
    (stat (.expression e)).All P ↔ P (stat (.expression e)) ∧ (expr e).All P := by
  rw [all_iff]
  simp [children]

@[simp] theorem all_assignment {isLocal : Bool} :
    (stat (.assignment position isLocal targets values)).All P ↔
      P (stat (.assignment position isLocal targets values)) ∧
      (∀ e ∈ targets, (expr e).All P) ∧ ∀ e ∈ values, (expr e).All P := by
  rw [all_iff]
  simp only [children, List.forall_mem_map, List.forall_mem_append]

@[simp] theorem all_declaration :
    (stat (.declaration names)).All P ↔ P (stat (.declaration names)) := by
  rw [all_iff]
  simp [children]

@[simp] theorem all_localFunction {identifier : Identifier} :
    (stat (.localFunction identifier e)).All P ↔
      P (stat (.localFunction identifier e)) ∧ (expr e).All P := by
  rw [all_iff]
  simp [children]

@[simp] theorem all_conditional {branches : List (Expr × List Stat)}
    {otherwise : Option (List Stat)} :
    (stat (.conditional position branches otherwise)).All P ↔
      P (stat (.conditional position branches otherwise)) ∧
      (∀ branch ∈ branches, (expr branch.1).All P ∧ (chunk branch.2).All P) ∧
      ∀ body ∈ otherwise, (chunk body).All P := by
  rw [all_iff]
  simp only [children, List.forall_mem_singleton, List.forall_mem_append, List.forall_mem_flatMap,
    List.forall_mem_cons, List.forall_mem_map, Option.mem_toList, Option.mem_def]

@[simp] theorem all_whileLoop :
    (stat (.whileLoop position e body)).All P ↔
      P (stat (.whileLoop position e body)) ∧ (expr e).All P ∧ (chunk body).All P := by
  rw [all_iff]
  simp [children]

@[simp] theorem all_numericFor {counter : Identifier} {step : Option Expr} :
    (stat (.numericFor counter lhs rhs step body)).All P ↔
      P (stat (.numericFor counter lhs rhs step body)) ∧ (expr lhs).All P ∧ (expr rhs).All P ∧
      (chunk body).All P ∧ ∀ e ∈ step, (expr e).All P := by
  rw [all_iff]
  simp [children]

@[simp] theorem all_genericFor :
    (stat (.genericFor position names es body)).All P ↔
      P (stat (.genericFor position names es body)) ∧ (chunk body).All P ∧
      ∀ e ∈ es, (expr e).All P := by
  rw [all_iff]
  simp [children]

@[simp] theorem all_repeatLoop :
    (stat (.repeatLoop position body e)).All P ↔
      P (stat (.repeatLoop position body e)) ∧ (chunk body).All P ∧ (expr e).All P := by
  rw [all_iff]
  simp [children]

@[simp] theorem all_block :
    (stat (.block body)).All P ↔ P (stat (.block body)) ∧ (chunk body).All P := by
  rw [all_iff]
  simp [children]

@[simp] theorem all_result :
    (stat (.result position es)).All P ↔
      P (stat (.result position es)) ∧ ∀ e ∈ es, (expr e).All P := by
  rw [all_iff]
  simp [children]

@[simp] theorem all_leave :
    (stat (.leave position)).All P ↔ P (stat (.leave position)) := by
  rw [all_iff]
  simp [children]

end Kinds

end Node

end ScriptEngine
