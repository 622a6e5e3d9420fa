import ScriptEngine.Proofs.Syntax.Depth

/-!
# What trees of texts promise

The compiler takes every tree there is, but not every tree has code that makes sense: a loop
that is left where there is none, or a value that goes nowhere, is not noticed.  The parser
promises that nothing of the kind occurs anywhere in the tree of a text, however deep, and
folding keeps the promise.

## Main definitions

* `Occurs` — the nodes in a text, and whether they stand in a loop of their function.
* `Node.Sensible` — what is promised of a single node.

## Main results

* `Node.formed_of_occurs` — all nodes in a well-formed tree are well-formed.
* `sensible_of_parse` — all nodes of the tree of a text make sense, before and after folding.
-/

namespace ScriptEngine

/-! ### Nodes in a text -/

/-- Whether a statement is a loop. -/
def Stat.isLoop : Stat → Bool
  | .whileLoop .. => true
  | .numericFor .. => true
  | .genericFor .. => true
  | .repeatLoop .. => true
  | _ => false

namespace Node

/-- Whether what a node directly contains stands in a loop of its function, if `inLoop` says so of
the node.  The body of a loop does, the body of a function does not, and all else stands where the
node stands. -/
def loopAt (inLoop : Bool) : Node → Node → Bool
  | stat s, chunk _ => s.isLoop || inLoop
  | expr (.function ..), chunk _ => false
  | _, _ => inLoop

end Node

open Node

/-- The nodes that occur in a text, at any depth, and whether they stand in a loop of their
function. -/
inductive Occurs (text : Chunk) : Bool → Node → Prop
  | text : Occurs text false (.chunk text)
  | child {inLoop : Bool} {n child : Node} (h : Occurs text inLoop n)
      (hchild : child ∈ n.children) : Occurs text (n.loopAt inLoop child) child

/-- What is promised of a node; `inLoop` says whether it stands in a loop of its function. -/
def Node.Sensible (inLoop : Bool) : Node → Prop
  | stat (.leave _) => inLoop = true
  | stat (.assignment _ isLocal targets values) => targets ≠ [] ∧ values ≠ [] ∧
      ∀ target ∈ targets, (∃ position name, target = .var position name) ∨
        isLocal = false ∧ ∃ position table key, target = .index position table key
  | stat (.conditional _ branches _) => branches ≠ []
  | stat (.genericFor _ names iterators _) => names ≠ [] ∧ iterators ≠ []
  | expr (.group _ inner) => ∃ position callee arguments, inner = .call position callee arguments
  | _ => True

/-! ### Well-formed nodes -/

/-- Whether a node is well-formed; `inLoop` says whether it stands in a loop of its function. -/
def Node.formed (inLoop : Bool) : Node → Bool
  | chunk body => chunkFormed inLoop body
  | stat s => s.formed inLoop
  | expr e => e.formed

theorem chunkFormed_iff {inLoop : Bool} {body : List Stat} :
    chunkFormed inLoop body ↔ ∀ s ∈ body, s.formed inLoop := by
  induction body with
  | nil => simp [chunkFormed]
  | cons s rest ih => simp [chunkFormed, ih]

theorem entriesFormed_iff {entries : List (Expr × Expr)} :
    entriesFormed entries ↔ ∀ e ∈ entries, e.1.formed ∧ e.2.formed := by
  induction entries with
  | nil => simp [entriesFormed]
  | cons e rest ih => simp [entriesFormed, ih]

theorem branchesFormed_iff {inLoop : Bool} {branches : List (Expr × List Stat)} :
    branchesFormed inLoop branches ↔ ∀ b ∈ branches, b.1.formed ∧ chunkFormed inLoop b.2 := by
  induction branches with
  | nil => simp [branchesFormed]
  | cons b rest ih => simp [branchesFormed, ih]

theorem Expr.exists_var {e : Expr} (h : e.isVar) : ∃ position name, e = .var position name := by
  cases e with
  | var position name => exact ⟨position, name, rfl⟩
  | _ => cases h

theorem Expr.var_or_index {e : Expr} (h : e.isTarget) :
    (∃ position name, e = .var position name) ∨
      ∃ position table key, e = .index position table key := by
  cases e with
  | var position name => exact .inl ⟨position, name, rfl⟩
  | index position table key => exact .inr ⟨position, table, key, rfl⟩
  | _ => cases h

theorem Expr.exists_call {e : Expr} (h : e.isCall) :
    ∃ position callee arguments, e = .call position callee arguments := by
  cases e with
  | call position callee arguments => exact ⟨position, callee, arguments, rfl⟩
  | _ => cases h

namespace Node

/-- What an expression that is well-formed directly contains is well-formed. -/
theorem formed_of_mem_expr {e : Expr} {inLoop : Bool} {child : Node} (h : e.formed)
    (hchild : child ∈ (expr e).children) : child.formed ((expr e).loopAt inLoop child) := by
  cases e with
  | literal => cases hchild
  | var => cases hchild
  | function position parameters body =>
    obtain rfl := List.mem_singleton.1 hchild
    exact h
  | table position entries =>
    obtain ⟨entry, hentry, hchild⟩ := List.mem_flatMap.1 hchild
    have hformed := entriesFormed_iff.1 h entry hentry
    simp only [List.mem_cons, List.not_mem_nil, or_false] at hchild
    rcases hchild with rfl | rfl
    · exact hformed.1
    · exact hformed.2
  | call position callee arguments =>
    rw [Expr.formed, Bool.and_eq_true, allFormed_iff] at h
    rcases List.mem_cons.1 hchild with rfl | hchild
    · exact h.1
    · obtain ⟨e, he, rfl⟩ := List.mem_map.1 hchild
      exact h.2 e he
  | index position table key =>
    rw [Expr.formed, Bool.and_eq_true] at h
    simp only [children, List.mem_cons, List.not_mem_nil, or_false] at hchild
    rcases hchild with rfl | rfl
    · exact h.1
    · exact h.2
  | group position inner =>
    rw [Expr.formed, Bool.and_eq_true] at h
    obtain rfl := List.mem_singleton.1 hchild
    exact h.2
  | binary position operator lhs rhs =>
    rw [Expr.formed, Bool.and_eq_true] at h
    simp only [children, List.mem_cons, List.not_mem_nil, or_false] at hchild
    rcases hchild with rfl | rfl
    · exact h.1
    · exact h.2
  | unary position operator operand =>
    obtain rfl := List.mem_singleton.1 hchild
    exact h

/-- What a statement that is well-formed directly contains is well-formed. -/
theorem formed_of_mem_stat {s : Stat} {inLoop : Bool} {child : Node} (h : s.formed inLoop)
    (hchild : child ∈ (stat s).children) : child.formed ((stat s).loopAt inLoop child) := by
  cases s with
  | expression e =>
    obtain rfl := List.mem_singleton.1 hchild
    exact h
  | assignment position isLocal targets values =>
    simp only [Stat.formed, Bool.and_eq_true, allFormed_iff] at h
    obtain ⟨e, he, rfl⟩ := List.mem_map.1 hchild
    rcases List.mem_append.1 he with he | he
    · exact h.1.2 e he
    · exact h.2 e he
  | declaration names => cases hchild
  | localFunction name function =>
    obtain rfl := List.mem_singleton.1 hchild
    exact h
  | conditional position branches otherwise =>
    have hbranches : branchesFormed inLoop branches := by
      cases otherwise <;> simp_all [Stat.formed]
    rcases List.mem_append.1 hchild with hchild | hchild
    · obtain ⟨branch, hbranch, hchild⟩ := List.mem_flatMap.1 hchild
      have hformed := branchesFormed_iff.1 hbranches branch hbranch
      simp only [List.mem_cons, List.not_mem_nil, or_false] at hchild
      rcases hchild with rfl | rfl
      · exact hformed.1
      · exact hformed.2
    · obtain ⟨body, hbody, rfl⟩ := List.mem_map.1 hchild
      obtain rfl := Option.mem_toList.1 hbody
      rw [Stat.formed, Bool.and_eq_true] at h
      exact h.2
  | whileLoop position condition body =>
    rw [Stat.formed, Bool.and_eq_true] at h
    simp only [children, List.mem_cons, List.not_mem_nil, or_false] at hchild
    rcases hchild with rfl | rfl
    · exact h.1
    · exact h.2
  | numericFor counter start stop step body =>
    have hparts : start.formed ∧ stop.formed ∧ chunkFormed true body ∧
        ∀ e ∈ step, Expr.formed e := by
      cases step <;> simp_all [Stat.formed]
    simp only [children, List.mem_cons, List.mem_map, Option.mem_toList] at hchild
    rcases hchild with rfl | rfl | rfl | ⟨e, he, rfl⟩
    · exact hparts.1
    · exact hparts.2.1
    · exact hparts.2.2.1
    · exact hparts.2.2.2 e he
  | genericFor position names iterators body =>
    simp only [Stat.formed, Bool.and_eq_true, allFormed_iff] at h
    rcases List.mem_cons.1 hchild with rfl | hchild
    · exact h.2
    · obtain ⟨e, he, rfl⟩ := List.mem_map.1 hchild
      exact h.1.2 e he
  | repeatLoop position body condition =>
    rw [Stat.formed, Bool.and_eq_true] at h
    simp only [children, List.mem_cons, List.not_mem_nil, or_false] at hchild
    rcases hchild with rfl | rfl
    · exact h.1
    · exact h.2
  | block body =>
    obtain rfl := List.mem_singleton.1 hchild
    exact h
  | result position values =>
    obtain ⟨e, he, rfl⟩ := List.mem_map.1 hchild
    exact allFormed_iff.1 h e he
  | leave position => cases hchild

theorem formed_of_mem_children {n child : Node} {inLoop : Bool} (h : n.formed inLoop)
    (hchild : child ∈ n.children) : child.formed (n.loopAt inLoop child) := by
  cases n with
  | chunk body =>
    obtain ⟨s, hs, rfl⟩ := List.mem_map.1 hchild
    exact chunkFormed_iff.1 h s hs
  | stat s => exact formed_of_mem_stat h hchild
  | expr e => exact formed_of_mem_expr h hchild

/-- **All nodes in a well-formed tree are well-formed.** -/
theorem formed_of_occurs {text : Chunk} {inLoop : Bool} {n : Node} (htext : chunkFormed false text)
    (h : Occurs text inLoop n) : n.formed inLoop := by
  induction h with
  | text => exact htext
  | child _ hchild ih => exact formed_of_mem_children ih hchild

/-- A well-formed node makes sense. -/
theorem sensible_of_formed {inLoop : Bool} {n : Node} (h : n.formed inLoop) :
    n.Sensible inLoop := by
  cases n with
  | chunk body => trivial
  | expr e =>
    cases e with
    | group position inner =>
      rw [formed, Expr.formed, Bool.and_eq_true] at h
      exact Expr.exists_call h.1
    | _ => trivial
  | stat s =>
    cases s with
    | assignment position isLocal targets values =>
      simp only [formed, Stat.formed, Bool.and_eq_true, Bool.not_eq_true',
        List.isEmpty_eq_false_iff, List.all_eq_true] at h
      obtain ⟨⟨⟨⟨htargets, hvalues⟩, hall⟩, -⟩, -⟩ := h
      refine ⟨htargets, hvalues, fun target htarget => ?_⟩
      have hkind := hall target htarget
      cases isLocal with
      | true => exact .inl (Expr.exists_var hkind)
      | false => exact (Expr.var_or_index hkind).imp_right fun hindex => ⟨rfl, hindex⟩
    | conditional position branches otherwise =>
      cases otherwise <;> simp_all [formed, Stat.formed, Sensible]
    | genericFor position names iterators body =>
      simp only [formed, Stat.formed, Bool.and_eq_true, Bool.not_eq_true',
        List.isEmpty_eq_false_iff] at h
      exact ⟨h.1.1.1, h.1.1.2⟩
    | leave position => exact h
    | _ => trivial

end Node

/-- **All nodes of the tree of a text make sense, before and after folding**: loops are left
inside of loops of the same function only, assignments have targets that can be assigned to and
values, parentheses are kept around calls, and no list is empty that must not be. -/
theorem sensible_of_parse {source : String} {chunk : Chunk} (h : parse source = .ok chunk)
    {text : Chunk} (htext : text = chunk ∨ text = optimize chunk) {inLoop : Bool} {n : Node}
    (hn : Occurs text inLoop n) : n.Sensible inLoop := by
  have hformed := chunkFormed_of_parse h
  refine sensible_of_formed (formed_of_occurs ?_ hn)
  rcases htext with rfl | rfl
  · exact hformed
  · exact chunkFormed_optimize hformed

/-- The place of a statement that leaves a loop from inside of a branch, in a text of this shape. -/
def leaveInBranch? : Chunk → Option Position
  | [.whileLoop _ _ [.conditional _ [(_, [.leave position])] none]] => some position
  | _ => none

/-- A loop that is left from inside of a branch, in the folded tree of a text. -/
theorem sensible_of_parse_leave :
    ∃ (chunk : Chunk) (n : Node) (inLoop : Bool),
      parse "while a do if 1 + 1 == 2 then break end end" = .ok chunk ∧
      n = stat (.leave ⟨1, 31⟩) ∧ Occurs (optimize chunk) inLoop n ∧ n.Sensible inLoop := by
  have hshape : ((parse "while a do if 1 + 1 == 2 then break end end").toOption.bind fun chunk =>
      leaveInBranch? (optimize chunk)) = some ⟨1, 31⟩ := by decide +kernel
  cases hparse : parse "while a do if 1 + 1 == 2 then break end end" with
  | error e =>
    rw [hparse] at hshape
    cases hshape
  | ok chunk =>
    rw [hparse] at hshape
    change leaveInBranch? (optimize chunk) = _ at hshape
    unfold leaveInBranch? at hshape
    split at hshape
    · next loop condition position test leave htext =>
      cases hshape
      have htop : Occurs (optimize chunk) false (.chunk
          [.whileLoop loop condition [.conditional position [(test, [.leave ⟨1, 31⟩])] none]]) :=
        htext ▸ .text
      have hloop := htop.child (List.mem_map_of_mem (List.mem_singleton_self _))
      have hbody := hloop.child (.tail _ (List.mem_singleton_self _))
      have hbranch := hbody.child (List.mem_map_of_mem (List.mem_singleton_self _))
      have hchosen := hbranch.child (.tail _ (List.mem_singleton_self _))
      have hoccurs : Occurs (optimize chunk) true (stat (.leave ⟨1, 31⟩)) :=
        hchosen.child (List.mem_map_of_mem (List.mem_singleton_self _))
      exact ⟨chunk, _, true, rfl, rfl, hoccurs, sensible_of_parse hparse (.inr rfl) hoccurs⟩
    · cases hshape

end ScriptEngine
