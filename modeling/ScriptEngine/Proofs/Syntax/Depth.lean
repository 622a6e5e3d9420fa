import Mathlib.Data.List.Chain
import Mathlib.Tactic.Ring
import ScriptEngine.Proofs.Syntax.Parsed

/-!
# How deep trees of texts are

The parser counts levels of blocks, operands, operators and suffixes, and refuses texts with too
many of them.  A level that has been left can be entered again, so that suffixes and operators
add up over the levels around them; the depth of a tree is bounded by the square of the number of
levels.  Nothing counts the fields in the name of a function statement: the depth of a tree
grows with the longest of these.

## Main definitions

* `Node`, `Node.children` — chunks, statements and expressions, and what they directly contain.
* `Node.Descent` — nodes each of which directly contains the next one.
* `Node.named` — how many fields are behind each other in a target of a statement.
* `Parser.Nesting` — how deep the answers of the parts of the grammar are.

## Main results

* `nested_of_parse` — how many nodes of the tree of a text are nested in each other.
-/

namespace ScriptEngine

/-! ### Trees -/

/-- A part of a syntax tree. -/
inductive Node where
  | chunk (body : Chunk)
  | stat (s : Stat)
  | expr (e : Expr)

/-- How many fields are behind each other at the end of an expression. -/
def Expr.fields : Expr → Nat
  | .index _ target (.literal _ _) => target.fields + 1
  | _ => 0

/-- The greatest of some numbers. -/
def greatest (numbers : List Nat) : Nat := numbers.foldr max 0

theorem le_greatest {numbers : List Nat} {x : Nat} (h : x ∈ numbers) : x ≤ greatest numbers := by
  induction numbers with
  | nil => cases h
  | cons y rest ih =>
    rw [greatest, List.foldr_cons]
    rcases List.mem_cons.1 h with rfl | h
    · exact Nat.le_max_left _ _
    · exact Nat.le_trans (ih h) (Nat.le_max_right _ _)

theorem greatest_le_cons (y : Nat) (numbers : List Nat) :
    greatest numbers ≤ greatest (y :: numbers) := Nat.le_max_right _ _

namespace Node

/-- What a node directly contains. -/
def children : Node → List Node
  | chunk body => body.map stat
  | stat (.expression e) => [expr e]
  | stat (.assignment _ _ targets values) => (targets ++ values).map expr
  | stat (.declaration _) => []
  | stat (.localFunction _ function) => [expr function]
  | stat (.conditional _ branches otherwise) =>
    branches.flatMap (fun branch => [expr branch.1, chunk branch.2]) ++ otherwise.toList.map chunk
  | stat (.whileLoop _ condition body) => [expr condition, chunk body]
  | stat (.numericFor _ start stop step body) =>
    expr start :: expr stop :: chunk body :: step.toList.map expr
  | stat (.genericFor _ _ iterators body) => chunk body :: iterators.map expr
  | stat (.repeatLoop _ body condition) => [chunk body, expr condition]
  | stat (.block body) => [chunk body]
  | stat (.result _ values) => values.map expr
  | stat (.leave _) => []
  | expr (.literal _ _) => []
  | expr (.var _ _) => []
  | expr (.function _ _ body) => [chunk body]
  | expr (.table _ entries) => entries.flatMap fun entry => [expr entry.1, expr entry.2]
  | expr (.call _ callee arguments) => expr callee :: arguments.map expr
  | expr (.index _ target key) => [expr target, expr key]
  | expr (.group _ inner) => [expr inner]
  | expr (.binary _ _ lhs rhs) => [expr lhs, expr rhs]
  | expr (.unary _ _ operand) => [expr operand]

/-- Nodes each of which directly contains the next one. -/
def Descent (nodes : List Node) : Prop := nodes.IsChain fun n child => child ∈ n.children

/-- How many fields are behind each other in a target of a statement, at most. -/
def named : Node → Nat
  | stat (.assignment _ _ targets _) => greatest (targets.map Expr.fields)
  | _ => 0

/-- At most `d` nodes are nested in each other from a node on, but for the fields in targets. -/
def Bounded (d : Nat) (n : Node) : Prop :=
  ∀ nodes, Descent (n :: nodes) → (n :: nodes).length ≤ d + greatest ((n :: nodes).map named)

theorem Bounded.mono {d d' : Nat} {n : Node} (h : n.Bounded d) (hd : d ≤ d') : n.Bounded d' :=
  fun nodes hdescent => Nat.le_trans (h nodes hdescent) (Nat.add_le_add_right hd _)

/-- A node whose children are bounded, or have no more nodes nested in each other than there are
fields in a target of it. -/
theorem Bounded.of_children {d : Nat} {n : Node}
    (h : ∀ child ∈ n.children, child.Bounded d ∨
      ∀ nodes, Descent (child :: nodes) → (child :: nodes).length ≤ d + n.named) :
    n.Bounded (d + 1) := by
  intro nodes hdescent
  cases nodes with
  | nil =>
    rw [List.length_singleton]
    omega
  | cons child nodes =>
    obtain ⟨hchild, hrest⟩ := List.isChain_cons_cons.1 hdescent
    rw [List.length_cons, List.map_cons]
    rcases h child hchild with hbounded | hshort
    · have hle := hbounded nodes hrest
      have := greatest_le_cons n.named ((child :: nodes).map named)
      omega
    · have hle := hshort nodes hrest
      have := le_greatest (List.mem_cons_self (a := n.named) (l := (child :: nodes).map named))
      omega

theorem Bounded.node {d : Nat} {n : Node} (h : ∀ child ∈ n.children, child.Bounded d) :
    n.Bounded (d + 1) := .of_children fun child hchild => .inl (h child hchild)

end Node

open Node

/-- The nodes of a target are its fields. -/
theorem nested_functionTarget (n : Nat) (target : Expr)
    (h : ∀ nodes, Descent (expr target :: nodes) →
      (expr target :: nodes).length ≤ target.fields + 1) :
    (Parser.functionTarget target n).Yields fun e => ∀ nodes, Descent (expr e :: nodes) →
      (expr e :: nodes).length ≤ e.fields + 1 := by
  induction n generalizing target with
  | zero => exact .exhausted
  | succ n ih =>
    rw [Parser.functionTarget]
    refine .after fun dot => ?_
    split
    · exact .pure h
    · refine .after fun field => ih _ fun nodes hdescent => ?_
      rw [Expr.fields]
      cases nodes with
      | nil => simp
      | cons child nodes =>
        obtain ⟨hchild, hrest⟩ := List.isChain_cons_cons.1 hdescent
        simp only [children, List.mem_cons, List.not_mem_nil, or_false] at hchild
        rcases hchild with rfl | rfl
        · have := h nodes hrest
          rw [List.length_cons]
          omega
        · cases nodes with
          | nil => simp
          | cons other nodes => exact absurd (List.isChain_cons_cons.1 hrest).1 (by simp [children])

namespace Parser

theorem Yields.imp {α : Type} {p : Parser α} {post goal : α → Prop} (h : p.Yields post)
    (himp : ∀ a, post a → goal a) : p.Yields goal :=
  fun tokens a rest ha => himp a (h tokens a rest ha)

/-! ### Levels -/

/-- How many nodes can be nested in each other behind a level. -/
def room (level : Nat) : Nat := (maxSyntaxLevels - level + 1) ^ 2

theorem room_pos (level : Nat) : 1 ≤ room level := Nat.one_le_pow _ _ (Nat.succ_pos _)

/-- A level that is entered takes up some of the room. -/
theorem room_of_lt {level : Nat} (h : level < maxSyntaxLevels) :
    room level = room (level + 1) + 2 * (maxSyntaxLevels - level) + 1 := by
  obtain ⟨k, hk⟩ := Nat.exists_eq_add_of_lt h
  have hlevel : maxSyntaxLevels - level = k + 1 := by omega
  have hnext : maxSyntaxLevels - (level + 1) = k := by omega
  rw [room, room, hlevel, hnext]
  ring

theorem room_succ_le (level : Nat) :
    room (level + 1) + 2 * (maxSyntaxLevels - level) ≤ room level := by
  rcases Nat.lt_or_ge level maxSyntaxLevels with h | h
  · rw [room_of_lt h]
    exact Nat.le_succ _
  · have hlevel : maxSyntaxLevels - level = 0 := Nat.sub_eq_zero_of_le h
    have hnext : maxSyntaxLevels - (level + 1) = 0 := Nat.sub_eq_zero_of_le (Nat.le_succ_of_le h)
    rw [room, room, hlevel, hnext]
    exact Nat.le_refl _

theorem yields_enter (level : Nat) (position : Position) :
    (enter level position).Yields fun _ => level < maxSyntaxLevels := by
  rw [enter]
  split
  · exact .fail
  · next h => exact .pure (by omega)

/-! ### The grammar -/

/-- How deep the answers of the parts of the grammar are at a level when the depth of recursion
is bounded by `n`. -/
structure Nesting (n : Nat) : Prop where
  block : ∀ level inLoop,
    (block n level inLoop).Yields fun body => (Node.chunk body).Bounded (room level)
  statements : ∀ level inLoop,
    (statements n level inLoop).Yields fun body => ∀ s ∈ body, (stat s).Bounded (room level + 2)
  statement : ∀ level inLoop,
    (statement n level inLoop).Yields fun s => (stat s).Bounded (room level + 2)
  conditional : ∀ level inLoop,
    (conditional n level inLoop).Yields fun s => (stat s).Bounded (room level + 2)
  elseIfs : ∀ level inLoop,
    (elseIfs n level inLoop).Yields fun branches => ∀ branch ∈ branches,
      (expr branch.1).Bounded (room level) ∧ (Node.chunk branch.2).Bounded (room level)
  elseBranch : ∀ level inLoop,
    (elseBranch n level inLoop).Yields fun otherwise => ∀ body ∈ otherwise,
      (Node.chunk body).Bounded (room level)
  forLoop : ∀ level, (forLoop n level).Yields fun s => (stat s).Bounded (room level + 2)
  forStep : ∀ level,
    (forStep n level).Yields fun step => ∀ e ∈ step, (expr e).Bounded (room level)
  functionStatement : ∀ level,
    (functionStatement n level).Yields fun s => (stat s).Bounded (room level + 2)
  localStatement : ∀ level,
    (localStatement n level).Yields fun s => (stat s).Bounded (room level + 2)
  expressionStatement : ∀ level,
    (expressionStatement n level).Yields fun s => (stat s).Bounded (room level + 2)
  functionBody : ∀ level position,
    (functionBody n level position).Yields fun e => (expr e).Bounded (room level + 1)
  expressions : ∀ level,
    (expressions n level).Yields fun es => ∀ e ∈ es, (expr e).Bounded (room level)
  moreExpressions : ∀ level,
    (moreExpressions n level).Yields fun es => ∀ e ∈ es, (expr e).Bounded (room level)
  expression : ∀ level, (expression n level).Yields fun e => (expr e).Bounded (room level)
  operand : ∀ level limit, (operand n level limit).Yields fun e => (expr e).Bounded (room level)
  operators : ∀ level limit lhs d, (expr lhs).Bounded d →
    (operators n level limit lhs).Yields fun e =>
      (expr e).Bounded (max d (room (level + 1)) + (maxSyntaxLevels - level))
  simple : ∀ level, (simple n level).Yields fun e =>
    (expr e).Bounded (room level + (maxSyntaxLevels - level) + 1)
  primary : ∀ level, (primary n level).Yields fun e => (expr e).Bounded (room level + 1)
  suffixes : ∀ level e d, (expr e).Bounded d → (suffixes n level e).Yields fun e =>
    (expr e).Bounded
      (max d (room (level + 1) + (maxSyntaxLevels - level)) + (maxSyntaxLevels - level))
  tableConstructor : ∀ level,
    (tableConstructor n level).Yields fun e => (expr e).Bounded (room level + 1)
  tableEntries : ∀ level index, (tableEntries n level index).Yields fun entries =>
    ∀ entry ∈ entries, (expr entry.1).Bounded (room level) ∧ (expr entry.2).Bounded (room level)
  moreEntries : ∀ level index entry, (expr entry.1).Bounded (room level) →
    (expr entry.2).Bounded (room level) →
    (moreEntries n level index entry).Yields fun entries => ∀ entry ∈ entries,
      (expr entry.1).Bounded (room level) ∧ (expr entry.2).Bounded (room level)

theorem nesting_zero : Nesting 0 := by
  constructor <;> intros <;>
    simp only [block, statements, statement, conditional, elseIfs, elseBranch, forLoop, forStep,
      functionStatement, localStatement, expressionStatement, functionBody, expressions,
      moreExpressions, expression, operand, operators, simple, primary, suffixes,
      tableConstructor, tableEntries, moreEntries] <;>
    exact .exhausted

section Step

variable {n level : Nat}

/-- A literal or a variable. -/
theorem bounded_leaf {e : Expr} (h : (expr e).children = []) (d : Nat) :
    (expr e).Bounded (d + 1) := .node (h ▸ nofun)

/-- A statement whose parts are as deep as the level allows. -/
theorem bounded_stat {s : Stat} (h : ∀ child ∈ (stat s).children, child.Bounded (room level)) :
    (stat s).Bounded (room level + 2) :=
  (Bounded.node h).mono (Nat.le_succ _)

theorem bounded_exprs {es : List Expr} {d : Nat} (h : ∀ e ∈ es, (expr e).Bounded d) :
    ∀ child ∈ es.map expr, child.Bounded d := List.forall_mem_map.2 h

/-- A target of a function statement can be as deep as it has fields. -/
theorem bounded_functionStatement {position : Position} {target function : Expr}
    (htarget : ∀ nodes, Descent (expr target :: nodes) →
      (expr target :: nodes).length ≤ target.fields + 1)
    (hfunction : (expr function).Bounded (room level + 1)) :
    (stat (.assignment position false [target] [function])).Bounded (room level + 2) := by
  refine .of_children (List.forall_mem_cons.2 ⟨.inr fun nodes hdescent => ?_,
    List.forall_mem_singleton.2 (.inl hfunction)⟩)
  have hnamed : target.fields ≤ named (stat (.assignment position false [target] [function])) :=
    le_greatest List.mem_cons_self
  have := htarget nodes hdescent
  omega

variable (g : Nesting n)
include g

/-- The values of a return and the arguments of a call may be left out. -/
theorem nested_optional {β : Type} {c : Prop} [Decidable c] {f : List Expr → Parser β}
    {goal : β → Prop}
    (hf : ∀ es, (∀ e ∈ es, (expr e).Bounded (room level)) → (f es).Yields goal) :
    Yields (if c then pure [] >>= f else expressions n level >>= f) goal :=
  .ite (hf [] (List.forall_mem_nil _)) (.bind (g.expressions level) hf)

theorem nested_statement (level : Nat) (inLoop : Bool) :
    (statement (n + 1) level inLoop).Yields fun s => (stat s).Bounded (room level + 2) := by
  rw [statement]
  refine .after fun t => ?_
  split
  · exact g.conditional level inLoop
  · refine .after fun opened => .bind (g.expression level) fun condition hcondition => ?_
    refine .after fun _ => .bind (g.block level true) fun body hbody => .after fun _ => ?_
    exact .pure (bounded_stat (by simp [children, hcondition, hbody]))
  · refine .after fun _ => .bind (g.block level inLoop) fun body hbody => .after fun _ => ?_
    exact .pure (bounded_stat (by simp [children, hbody]))
  · exact g.forLoop level
  · refine .after fun opened => .bind (g.block level true) fun body hbody => .after fun _ => ?_
    refine .bind (g.expression level) fun condition hcondition => ?_
    exact .pure (bounded_stat (by simp [children, hcondition, hbody]))
  · exact g.functionStatement level
  · exact g.localStatement level
  · refine .after fun opened => .after fun following => ?_
    extract_lets rest
    exact nested_optional g fun values hvalues => .after fun _ =>
      .pure (bounded_stat (bounded_exprs hvalues))
  · refine .after fun opened => ?_
    split
    · exact .pure (bounded_stat (List.forall_mem_nil _))
    · exact .fail
  · exact g.expressionStatement level

theorem nested_conditional (level : Nat) (inLoop : Bool) :
    (conditional (n + 1) level inLoop).Yields fun s => (stat s).Bounded (room level + 2) := by
  rw [conditional]
  refine .after fun opened => .bind (g.expression level) fun condition hcondition => ?_
  refine .after fun _ => .bind (g.block level inLoop) fun body hbody => ?_
  refine .bind (g.elseIfs level inLoop) fun branches hbranches => ?_
  refine .bind (g.elseBranch level inLoop) fun otherwise hotherwise => .after fun _ => .pure ?_
  refine bounded_stat (List.forall_mem_append.2 ⟨?_, List.forall_mem_map.2 fun last hlast => ?_⟩)
  · refine List.forall_mem_flatMap.2 (List.forall_mem_cons.2 ⟨?_, fun branch hbranch => ?_⟩)
    · simp [hcondition, hbody]
    · simp [hbranches branch hbranch]
  · exact hotherwise last (Option.mem_toList.1 hlast)

theorem nested_forLoop (level : Nat) :
    (forLoop (n + 1) level).Yields fun s => (stat s).Bounded (room level + 2) := by
  rw [forLoop]
  refine .after fun opened => .after fun first => .after fun sign => ?_
  split
  · refine .bind (g.expression level) fun start hstart => .after fun _ => ?_
    refine .bind (g.expression level) fun stop hstop => ?_
    refine .bind (g.forStep level) fun step hstep => .after fun _ => ?_
    refine .bind (g.block level true) fun body hbody => .after fun _ => .pure (bounded_stat ?_)
    refine List.forall_mem_cons.2 ⟨hstart, List.forall_mem_cons.2 ⟨hstop, List.forall_mem_cons.2
      ⟨hbody, List.forall_mem_map.2 fun e he => hstep e (Option.mem_toList.1 he)⟩⟩⟩
  · refine .after fun names => .after fun _ => ?_
    refine .bind (g.expressions level) fun iterators hiterators => .after fun _ => ?_
    refine .bind (g.block level true) fun body hbody => .after fun _ => .pure (bounded_stat ?_)
    exact List.forall_mem_cons.2 ⟨hbody, bounded_exprs hiterators⟩

theorem nested_functionStatement (level : Nat) :
    (functionStatement (n + 1) level).Yields fun s => (stat s).Bounded (room level + 2) := by
  rw [functionStatement]
  refine .after fun opened => .after fun name => ?_
  refine .bind (nested_functionTarget n _ fun nodes hdescent => ?_) fun target htarget =>
    .after fun colon => ?_
  · cases nodes with
    | nil => simp
    | cons child nodes => exact absurd (List.isChain_cons_cons.1 hdescent).1 (by simp [children])
  · split
    · exact .fail
    · exact .bind (g.functionBody level _) fun function hfunction =>
        .pure (bounded_functionStatement htarget hfunction)

theorem nested_localStatement (level : Nat) :
    (localStatement (n + 1) level).Yields fun s => (stat s).Bounded (room level + 2) := by
  rw [localStatement]
  refine .after fun opened => .after fun word => ?_
  split
  · refine .after fun name => .bind (g.functionBody level _) fun function hfunction => .pure ?_
    exact .node (List.forall_mem_singleton.2 hfunction)
  · refine .after fun first => .after fun names => .after fun sign => ?_
    split
    · exact .pure (bounded_stat (List.forall_mem_nil _))
    · refine .bind (g.expressions level) fun values hvalues => .pure (bounded_stat ?_)
      rw [children, List.map_append]
      refine List.forall_mem_append.2
        ⟨List.forall_mem_map.2 (List.forall_mem_map.2 fun name _ => ?_), bounded_exprs hvalues⟩
      exact (bounded_leaf rfl 0).mono (room_pos level)

theorem nested_expressionStatement (level : Nat) :
    (expressionStatement (n + 1) level).Yields fun s => (stat s).Bounded (room level + 2) := by
  rw [expressionStatement]
  refine .bind (g.expression level) fun first hfirst => .after fun following => .ite ?_ ?_
  · refine .bind (g.moreExpressions level) fun targets htargets => .after fun _ => ?_
    refine .after fun _ => .bind (g.expressions level) fun values hvalues => ?_
    refine .pure (bounded_stat ?_)
    exact bounded_exprs (List.forall_mem_append.2
      ⟨List.forall_mem_cons.2 ⟨hfirst, htargets⟩, hvalues⟩)
  · exact .pure (bounded_stat (List.forall_mem_singleton.2 hfirst))

theorem nested_functionBody (level : Nat) (position : Position) :
    (functionBody (n + 1) level position).Yields fun e => (expr e).Bounded (room level + 1) := by
  rw [functionBody]
  refine .after fun _ => .after fun following => ?_
  extract_lets rest
  have hrest : ∀ parameters, (rest parameters).Yields fun e => (expr e).Bounded (room level + 1) :=
    fun parameters => .after fun _ => .bind (g.block level false) fun body hbody => .after fun _ =>
      .pure (.node (List.forall_mem_singleton.2 hbody))
  exact .ite (.after hrest) (.after fun first => .after fun names => .after hrest)

theorem nested_operand (level limit : Nat) :
    (operand (n + 1) level limit).Yields fun e => (expr e).Bounded (room level) := by
  rw [operand]
  refine .after fun t => .bind (yields_enter level _) fun _ hlevel => ?_
  -- Suffixes and operators count levels from the same one on, so that each of the two chains can
  -- take up all levels that are left; the square leaves room for both.
  have hroom := room_of_lt hlevel
  have hroom' := room_succ_le (level + 1)
  split
  · next operator _ =>
    refine .after fun _ => .bind (g.operand _ _) fun inner hinner => ?_
    have hlhs : (expr (.unary t.position operator inner)).Bounded (room (level + 1) + 1) :=
      .node (List.forall_mem_singleton.2 hinner)
    exact (g.operators _ _ _ _ hlhs).imp fun e he => he.mono (by omega)
  · refine .bind (g.simple _) fun first hfirst => ?_
    exact (g.operators _ _ _ _ hfirst).imp fun e he => he.mono (by omega)

theorem nested_operators (level limit : Nat) (lhs : Expr) (d : Nat) (h : (expr lhs).Bounded d) :
    (operators (n + 1) level limit lhs).Yields fun e =>
      (expr e).Bounded (max d (room (level + 1)) + (maxSyntaxLevels - level)) := by
  have hstop : (expr lhs).Bounded (max d (room (level + 1)) + (maxSyntaxLevels - level)) :=
    h.mono (by omega)
  rw [operators]
  refine .after fun t => ?_
  split
  · exact .pure hstop
  · next operator _ =>
    refine .ite (.pure hstop) (.after fun _ => .bind (yields_enter level _) fun _ hlevel => ?_)
    refine .bind (g.operand _ _) fun rhs hrhs => ?_
    have hroom := room_succ_le (level + 1)
    have hboth : (expr (.binary t.position operator lhs rhs)).Bounded
        (max d (room (level + 1)) + 1) :=
      .node (List.forall_mem_cons.2 ⟨h.mono (Nat.le_max_left _ _),
        List.forall_mem_singleton.2 (hrhs.mono (Nat.le_max_right _ _))⟩)
    exact (g.operators _ _ _ _ hboth).imp fun e he => he.mono (by omega)

theorem nested_simple (level : Nat) : (simple (n + 1) level).Yields fun e =>
    (expr e).Bounded (room level + (maxSyntaxLevels - level) + 1) := by
  rw [simple]
  refine .after fun t => .after fun value => ?_
  split
  · exact .after fun _ => .pure (bounded_leaf rfl _)
  · split
    · exact .after fun _ => (g.functionBody level _).imp fun e he => he.mono (by omega)
    · exact (g.tableConstructor level).imp fun e he => he.mono (by omega)
    · refine .bind (g.primary level) fun first hfirst => ?_
      have hroom := room_succ_le level
      exact (g.suffixes level first _ hfirst).imp fun e he => he.mono (by omega)

theorem nested_primary (level : Nat) :
    (primary (n + 1) level).Yields fun e => (expr e).Bounded (room level + 1) := by
  rw [primary]
  refine .after fun t => ?_
  split
  · exact .pure (bounded_leaf rfl _)
  · refine .bind (g.expression level) fun inner hinner => .after fun _ => .pure ?_
    rw [grouped]
    split
    · exact .node (List.forall_mem_singleton.2 hinner)
    · exact hinner.mono (Nat.le_succ _)
  · exact .fail

theorem nested_suffixes (level : Nat) (e : Expr) (d : Nat) (h : (expr e).Bounded d) :
    (suffixes (n + 1) level e).Yields fun e => (expr e).Bounded
      (max d (room (level + 1) + (maxSyntaxLevels - level)) + (maxSyntaxLevels - level)) := by
  rw [suffixes]
  refine .after fun t => .ite .fail (.ite (.pure (h.mono (by omega))) ?_)
  refine .bind (yields_enter level _) fun _ hlevel => ?_
  have hroom := room_succ_le (level + 1)
  have hpos := room_pos (level + 1)
  -- What a suffix adds is at the next level.
  have hmore {e' : Expr} (h' : ∀ child ∈ (expr e').children,
      child.Bounded (max d (room (level + 1) + (maxSyntaxLevels - level)))) :
      (suffixes n (level + 1) e').Yields fun e => (expr e).Bounded
        (max d (room (level + 1) + (maxSyntaxLevels - level)) + (maxSyntaxLevels - level)) :=
    (g.suffixes _ _ _ (.node h')).imp fun e he => he.mono (by omega)
  have hfirst : (expr e).Bounded (max d (room (level + 1) + (maxSyntaxLevels - level))) :=
    h.mono (Nat.le_max_left _ _)
  split
  · refine .after fun _ => .after fun field => hmore (List.forall_mem_cons.2 ⟨hfirst, ?_⟩)
    exact List.forall_mem_singleton.2 ((bounded_leaf rfl 0).mono (by omega))
  · refine .after fun _ => .bind (g.expression _) fun key hkey => .after fun _ => ?_
    exact hmore (List.forall_mem_cons.2
      ⟨hfirst, List.forall_mem_singleton.2 (hkey.mono (by omega))⟩)
  · refine .after fun _ => .after fun following => ?_
    extract_lets rest
    refine nested_optional g fun arguments harguments => .after fun _ => ?_
    exact hmore (List.forall_mem_cons.2 ⟨hfirst, bounded_exprs fun argument hargument =>
      (harguments argument hargument).mono (by omega)⟩)
  · refine .bind (g.simple _) fun argument hargument => ?_
    exact hmore (List.forall_mem_cons.2
      ⟨hfirst, List.forall_mem_singleton.2 (hargument.mono (by omega))⟩)

theorem nested_tableEntries (level index : Nat) :
    (tableEntries (n + 1) level index).Yields fun entries => ∀ entry ∈ entries,
      (expr entry.1).Bounded (room level) ∧ (expr entry.2).Bounded (room level) := by
  have hleaf (position : Position) (value : Literal) :
      (expr (.literal position value)).Bounded (room level) :=
    (bounded_leaf rfl 0).mono (room_pos level)
  rw [tableEntries]
  refine .after fun first => .ite (.pure (List.forall_mem_nil _)) ?_
  refine .after fun second => .ite ?_ (.ite ?_ ?_)
  · refine .after fun _ => .bind (g.expression level) fun key hkey => ?_
    refine .after fun _ => .after fun _ => .bind (g.expression level) fun value hvalue => ?_
    exact g.moreEntries level index _ hkey hvalue
  · refine .after fun _ => .after fun _ => .bind (g.expression level) fun value hvalue => ?_
    exact g.moreEntries level index _ (hleaf _ _) hvalue
  · refine .bind (g.expression level) fun value hvalue => ?_
    exact g.moreEntries level _ _ (hleaf _ _) hvalue

theorem nested_moreEntries (level index : Nat) (entry : Expr × Expr)
    (hkey : (expr entry.1).Bounded (room level)) (hvalue : (expr entry.2).Bounded (room level)) :
    (moreEntries (n + 1) level index entry).Yields fun entries => ∀ entry ∈ entries,
      (expr entry.1).Bounded (room level) ∧ (expr entry.2).Bounded (room level) := by
  have hmore : Yields (do let rest ← tableEntries n level index; Pure.pure (entry :: rest))
      fun entries => ∀ entry ∈ entries,
        (expr entry.1).Bounded (room level) ∧ (expr entry.2).Bounded (room level) :=
    .bind (g.tableEntries level index) fun rest hrest =>
      .pure (List.forall_mem_cons.2 ⟨⟨hkey, hvalue⟩, hrest⟩)
  rw [moreEntries]
  refine .after fun comma => ?_
  split
  · exact hmore
  · refine .after fun semicolon => ?_
    split
    · exact hmore
    · exact .pure (List.forall_mem_singleton.2 ⟨hkey, hvalue⟩)

/-- One step of the recursion keeps how deep the answers are. -/
theorem Nesting.succ : Nesting (n + 1) where
  block level inLoop := by
    rw [Parser.block]
    refine .after fun t => .bind (yields_enter level _) fun _ hlevel => ?_
    have hroom := room_of_lt hlevel
    refine (g.statements (level + 1) inLoop).imp fun body hbody => ?_
    have hbounded : (Node.chunk body).Bounded (room (level + 1) + 2 + 1) :=
      .node (List.forall_mem_map.2 hbody)
    exact hbounded.mono (by omega)
  statements level inLoop := by
    rw [Parser.statements]
    refine .after fun t => .ite (.pure (List.forall_mem_nil _)) ?_
    refine .ite (.after fun _ => g.statements _ _) ?_
    refine .bind (g.statement level inLoop) fun first hfirst => ?_
    refine .bind (g.statements level inLoop) fun rest hrest => ?_
    exact .pure (List.forall_mem_cons.2 ⟨hfirst, hrest⟩)
  statement := nested_statement g
  conditional := nested_conditional g
  elseIfs level inLoop := by
    rw [Parser.elseIfs]
    refine .after fun word => ?_
    split
    · exact .pure (List.forall_mem_nil _)
    · refine .bind (g.expression level) fun condition hcondition => .after fun _ => ?_
      refine .bind (g.block level inLoop) fun body hbody => ?_
      refine .bind (g.elseIfs level inLoop) fun branches hbranches => ?_
      exact .pure (List.forall_mem_cons.2 ⟨⟨hcondition, hbody⟩, hbranches⟩)
  elseBranch level inLoop := by
    rw [Parser.elseBranch]
    refine .after fun word => ?_
    split
    · exact .pure fun _ h => absurd h (Option.not_mem_none _)
    · exact .map (g.block level inLoop) fun body hbody => by simpa using hbody
  forLoop := nested_forLoop g
  forStep level := by
    rw [Parser.forStep]
    refine .after fun comma => ?_
    split
    · exact .pure fun _ h => absurd h (Option.not_mem_none _)
    · exact .map (g.expression level) fun step hstep => by simpa using hstep
  functionStatement := nested_functionStatement g
  localStatement := nested_localStatement g
  expressionStatement := nested_expressionStatement g
  functionBody := nested_functionBody g
  expressions level := by
    rw [Parser.expressions]
    refine .bind (g.expression level) fun first hfirst => ?_
    refine .bind (g.moreExpressions level) fun rest hrest => ?_
    exact .pure (List.forall_mem_cons.2 ⟨hfirst, hrest⟩)
  moreExpressions level := by
    rw [Parser.moreExpressions]
    refine .after fun comma => ?_
    split
    · exact .pure (List.forall_mem_nil _)
    · refine .bind (g.expression level) fun first hfirst => ?_
      refine .bind (g.moreExpressions level) fun rest hrest => ?_
      exact .pure (List.forall_mem_cons.2 ⟨hfirst, hrest⟩)
  expression level := by
    rw [Parser.expression]
    exact g.operand level 0
  operand := nested_operand g
  operators := nested_operators g
  simple := nested_simple g
  primary := nested_primary g
  suffixes := nested_suffixes g
  tableConstructor level := by
    rw [Parser.tableConstructor]
    refine .after fun opened => .bind (g.tableEntries level 1) fun entries hentries => ?_
    refine .after fun _ => .pure (.node (List.forall_mem_flatMap.2 fun entry hentry => ?_))
    simp [hentries entry hentry]
  tableEntries := nested_tableEntries g
  moreEntries := nested_moreEntries g

end Step

theorem nesting (n : Nat) : Nesting n := by
  induction n with
  | zero => exact nesting_zero
  | succ n ih => exact ih.succ

theorem nested_chunk (fuel : Nat) :
    (chunk fuel).Yields fun body => (Node.chunk body).Bounded (room 0) := by
  rw [chunk]
  refine .bind ((nesting fuel).block 0 false) fun body hbody => .after fun t => ?_
  exact .ite (.pure hbody) .fail

end Parser

/-- **How deep the tree of a text is**: nodes that are nested in each other are no more than the
square of the number of levels, but for the fields in the name of a function. -/
theorem nested_of_parse {source : String} {chunk : Chunk} (h : parse source = .ok chunk)
    {nodes : List Node} (hdescent : Descent (Node.chunk chunk :: nodes)) :
    (Node.chunk chunk :: nodes).length ≤
      (maxSyntaxLevels + 1) ^ 2 + greatest ((Node.chunk chunk :: nodes).map named) := by
  have hrun : (Parser.chunk (Parser.fuelFor (tokenize source))).run' (tokenize source)
      = .ok chunk := h
  rw [StateT.run'] at hrun
  cases hchunk : Parser.chunk (Parser.fuelFor (tokenize source)) (tokenize source) with
  | error e =>
    rw [hchunk] at hrun
    cases hrun
  | ok answer =>
    rw [hchunk] at hrun
    cases hrun
    exact Parser.nested_chunk _ _ _ _ hchunk nodes hdescent

/-- A node, the first one that it contains, and so on. -/
def Node.firsts : Nat → Node → List Node
  | 0, n => [n]
  | k + 1, n =>
    match n.children with
    | [] => [n]
    | child :: _ => n :: firsts k child

theorem Node.head?_firsts (k : Nat) (n : Node) : (n.firsts k).head? = some n := by
  cases k with
  | zero => rfl
  | succ k =>
    rw [firsts]
    split <;> rfl

theorem Node.descent_firsts (k : Nat) (n : Node) : Descent (n.firsts k) := by
  induction k generalizing n with
  | zero => exact List.isChain_singleton _
  | succ k ih =>
    rw [firsts]
    split
    · exact List.isChain_singleton _
    · next child others hchildren =>
      refine List.IsChain.cons (ih child) fun first hfirst => ?_
      rw [head?_firsts] at hfirst
      cases hfirst
      rw [hchildren]
      exact List.mem_cons_self

/-- A function in a field of a field: its name has two fields, and the nodes of these are in each
other, in a statement, in the text. -/
theorem nested_of_parse_field :
    ∃ (chunk : Chunk) (nodes : List Node), parse "function a.b.c() end" = .ok chunk ∧
      Descent (Node.chunk chunk :: nodes) ∧
      (Node.chunk chunk :: nodes).map named = [0, 2, 0, 0, 0] ∧
      (Node.chunk chunk :: nodes).length ≤
        (maxSyntaxLevels + 1) ^ 2 + greatest ((Node.chunk chunk :: nodes).map named) := by
  have hcheck : ((parse "function a.b.c() end").toOption.any fun chunk =>
      ((Node.chunk chunk).firsts 9).map named = [0, 2, 0, 0, 0]) = true := by decide +kernel
  obtain ⟨chunk, hparse, hnamed⟩ := (Option.any_eq_true _ _).1 hcheck
  have hparse : parse "function a.b.c() end" = .ok chunk := by
    cases hresult : parse "function a.b.c() end" with
    | error e =>
      rw [hresult] at hparse
      cases hparse
    | ok body =>
      rw [hresult] at hparse
      cases hparse
      rfl
  obtain ⟨nodes, hnodes⟩ : ∃ nodes, (Node.chunk chunk).firsts 9 = Node.chunk chunk :: nodes :=
    List.head?_eq_some_iff.1 (Node.head?_firsts 9 _)
  have hdescent := Node.descent_firsts 9 (Node.chunk chunk)
  rw [hnodes] at hdescent hnamed
  exact ⟨chunk, nodes, hparse, hdescent, of_decide_eq_true hnamed, nested_of_parse hparse hdescent⟩

end ScriptEngine
