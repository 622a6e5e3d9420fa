import ScriptEngine.Proofs.Evaluation.Functions
import ScriptEngine.Proofs.Syntax.Formed

/-!
# Loops that are left

A statement that leaves a loop has to stand inside of one, where the bodies of
functions begin anew.  In a well-formed text it does.

## Main definitions

* `Stat.closed`, `chunkClosed` — loops are left inside of loops only.
* `FunctionLiteral.closed` — the same for the body of a function.

## Main results

* `chunkClosed_of_formed`, `closed_of_mem_chunkFunctions` — in a well-formed text,
  loops are left inside of loops only, also in the bodies of its functions.
-/

namespace ScriptEngine

mutual

/-- Whether a statement leaves loops inside of loops only; `inLoop` says whether it
stands in one itself.  Functions in it do not count. -/
def Stat.closed (inLoop : Bool) : Stat → Bool
  | .conditional _ branches none => branchesClosed inLoop branches
  | .conditional _ branches (some body) =>
    branchesClosed inLoop branches && chunkClosed inLoop body
  | .whileLoop _ _ body => chunkClosed true body
  | .numericFor _ _ _ _ body => chunkClosed true body
  | .genericFor _ _ _ body => chunkClosed true body
  | .repeatLoop _ body _ => chunkClosed true body
  | .block body => chunkClosed inLoop body
  | .leave _ => inLoop
  | _ => true

/-- Whether the branches of a conditional leave loops inside of loops only. -/
def branchesClosed (inLoop : Bool) : List (Expr × List Stat) → Bool
  | [] => true
  | (_, body) :: rest => chunkClosed inLoop body && branchesClosed inLoop rest

/-- Whether statements leave loops inside of loops only. -/
def chunkClosed (inLoop : Bool) : List Stat → Bool
  | [] => true
  | s :: rest => s.closed inLoop && chunkClosed inLoop rest

end

/-- Whether the body of a function leaves loops inside of loops only. -/
def FunctionLiteral.closed (f : FunctionLiteral) : Bool := chunkClosed false f.body

/-! ### Well-formed texts -/

mutual

theorem Stat.closed_of_formed : ∀ (s : Stat) {inLoop : Bool}, s.formed inLoop → s.closed inLoop
  | .expression _, _, _ => rfl
  | .assignment .., _, _ => rfl
  | .declaration _, _, _ => rfl
  | .localFunction .., _, _ => rfl
  | .conditional _ branches none, _, h => by
    simp only [Stat.formed, Bool.and_eq_true] at h
    exact branchesClosed_of_formed branches h.2
  | .conditional _ branches (some body), _, h => by
    simp only [Stat.formed, Bool.and_eq_true] at h
    simp only [Stat.closed, Bool.and_eq_true]
    exact ⟨branchesClosed_of_formed branches h.1.2, chunkClosed_of_formed body h.2⟩
  | .whileLoop _ _ body, _, h => by
    simp only [Stat.formed, Bool.and_eq_true] at h
    exact chunkClosed_of_formed body h.2
  | .numericFor _ _ _ none body, _, h => by
    simp only [Stat.formed, Bool.and_eq_true] at h
    exact chunkClosed_of_formed body h.2
  | .numericFor _ _ _ (some _) body, _, h => by
    simp only [Stat.formed, Bool.and_eq_true] at h
    exact chunkClosed_of_formed body h.2
  | .genericFor _ _ _ body, _, h => by
    simp only [Stat.formed, Bool.and_eq_true] at h
    exact chunkClosed_of_formed body h.2
  | .repeatLoop _ body _, _, h => by
    simp only [Stat.formed, Bool.and_eq_true] at h
    exact chunkClosed_of_formed body h.1
  | .block body, _, h => chunkClosed_of_formed body h
  | .result .., _, _ => rfl
  | .leave _, _, h => h

theorem branchesClosed_of_formed : ∀ (branches : List (Expr × List Stat)) {inLoop : Bool},
    branchesFormed inLoop branches → branchesClosed inLoop branches
  | [], _, _ => rfl
  | (_, body) :: rest, _, h => by
    simp only [branchesFormed, Bool.and_eq_true] at h
    simp only [branchesClosed, Bool.and_eq_true]
    exact ⟨chunkClosed_of_formed body h.1.2, branchesClosed_of_formed rest h.2⟩

theorem chunkClosed_of_formed : ∀ (body : List Stat) {inLoop : Bool},
    chunkFormed inLoop body → chunkClosed inLoop body
  | [], _, _ => rfl
  | s :: rest, _, h => by
    simp only [chunkFormed, Bool.and_eq_true] at h
    simp only [chunkClosed, Bool.and_eq_true]
    exact ⟨s.closed_of_formed h.1, chunkClosed_of_formed rest h.2⟩

end

/-- Functions whose bodies are well-formed. -/
def FunctionsFormed (fs : List FunctionLiteral) : Prop := ∀ f ∈ fs, chunkFormed false f.body

@[simp] theorem functionsFormed_nil : FunctionsFormed [] := nofun

@[simp] theorem functionsFormed_append {fs gs : List FunctionLiteral} :
    FunctionsFormed (fs ++ gs) ↔ FunctionsFormed fs ∧ FunctionsFormed gs :=
  List.forall_mem_append

mutual

theorem Expr.functionsFormed : ∀ e : Expr, e.formed → FunctionsFormed e.functions
  | .literal _ _, _ => functionsFormed_nil
  | .var _ _, _ => functionsFormed_nil
  | .function _ _ body, h => by
    rw [Expr.functions]
    exact List.forall_mem_cons.2 ⟨h, functionsFormed_chunk body h⟩
  | .table _ entries, h => functionsFormed_entries entries h
  | .call _ callee arguments, h => by
    simp only [Expr.formed, Bool.and_eq_true] at h
    rw [Expr.functions, functionsFormed_append]
    exact ⟨functionsFormed_values arguments h.2, callee.functionsFormed h.1⟩
  | .index _ table key, h => by
    simp only [Expr.formed, Bool.and_eq_true] at h
    rw [Expr.functions, functionsFormed_append]
    exact ⟨key.functionsFormed h.2, table.functionsFormed h.1⟩
  | .group _ inner, h => by
    simp only [Expr.formed, Bool.and_eq_true] at h
    exact inner.functionsFormed h.2
  | .binary _ _ lhs rhs, h => by
    simp only [Expr.formed, Bool.and_eq_true] at h
    rw [Expr.functions, functionsFormed_append]
    exact ⟨rhs.functionsFormed h.2, lhs.functionsFormed h.1⟩
  | .unary _ _ operand, h => operand.functionsFormed h

theorem functionsFormed_values : ∀ es : List Expr, allFormed es →
    FunctionsFormed (valuesFunctions es)
  | [], _ => functionsFormed_nil
  | e :: rest, h => by
    simp only [allFormed, Bool.and_eq_true] at h
    rw [valuesFunctions, functionsFormed_append]
    exact ⟨e.functionsFormed h.1, functionsFormed_values rest h.2⟩

theorem functionsFormed_entries : ∀ es : List (Expr × Expr), entriesFormed es →
    FunctionsFormed (entriesFunctions es)
  | [], _ => functionsFormed_nil
  | (key, value) :: rest, h => by
    simp only [entriesFormed, Bool.and_eq_true] at h
    rw [entriesFunctions, functionsFormed_append, functionsFormed_append]
    exact ⟨⟨functionsFormed_entries rest h.2, value.functionsFormed h.1.2⟩,
      key.functionsFormed h.1.1⟩

theorem functionsFormed_stores : ∀ es : List Expr, allFormed es →
    FunctionsFormed (storesFunctions es)
  | [], _ => functionsFormed_nil
  | e :: rest, h => by
    simp only [allFormed, Bool.and_eq_true] at h
    have hrest := functionsFormed_stores rest h.2
    cases e with
    | index _ table key =>
      have he := h.1
      simp only [Expr.formed, Bool.and_eq_true] at he
      rw [storesFunctions, functionsFormed_append, functionsFormed_append]
      exact ⟨⟨hrest, table.functionsFormed he.1⟩, key.functionsFormed he.2⟩
    | _ => exact hrest

theorem functionsFormed_branches {last : List FunctionLiteral} (hlast : FunctionsFormed last) :
    ∀ (branches : List (Expr × List Stat)) {inLoop : Bool}, branchesFormed inLoop branches →
      FunctionsFormed (branchesFunctions last branches)
  | [], _, _ => hlast
  | (condition, body) :: rest, _, h => by
    simp only [branchesFormed, Bool.and_eq_true] at h
    rw [branchesFunctions, functionsFormed_append, functionsFormed_append]
    exact ⟨⟨functionsFormed_branches hlast rest h.2, functionsFormed_chunk body h.1.2⟩,
      condition.functionsFormed h.1.1⟩

theorem Stat.functionsFormed : ∀ (s : Stat) {inLoop : Bool}, s.formed inLoop →
    FunctionsFormed s.functions
  | .expression e, _, h => e.functionsFormed h
  | .assignment _ _ targets values, _, h => by
    simp only [Stat.formed, Bool.and_eq_true] at h
    rw [Stat.functions, functionsFormed_append]
    exact ⟨functionsFormed_values values h.2, functionsFormed_stores targets h.1.2⟩
  | .declaration _, _, _ => functionsFormed_nil
  | .localFunction _ function, _, h => function.functionsFormed h
  | .conditional _ branches none, _, h => by
    simp only [Stat.formed, Bool.and_eq_true] at h
    exact functionsFormed_branches functionsFormed_nil branches h.2
  | .conditional _ branches (some body), _, h => by
    simp only [Stat.formed, Bool.and_eq_true] at h
    exact functionsFormed_branches (functionsFormed_chunk body h.2) branches h.1.2
  | .whileLoop _ condition body, _, h => by
    simp only [Stat.formed, Bool.and_eq_true] at h
    rw [Stat.functions, functionsFormed_append]
    exact ⟨functionsFormed_chunk body h.2, condition.functionsFormed h.1⟩
  | .numericFor _ start stop none body, _, h => by
    simp only [Stat.formed, Bool.and_eq_true] at h
    rw [Stat.functions, functionsFormed_append, functionsFormed_append]
    exact ⟨⟨functionsFormed_chunk body h.2, stop.functionsFormed h.1.2⟩,
      start.functionsFormed h.1.1⟩
  | .numericFor _ start stop (some step) body, _, h => by
    simp only [Stat.formed, Bool.and_eq_true] at h
    rw [Stat.functions, functionsFormed_append, functionsFormed_append, functionsFormed_append]
    exact ⟨⟨⟨functionsFormed_chunk body h.2, step.functionsFormed h.1.2⟩,
      stop.functionsFormed h.1.1.2⟩, start.functionsFormed h.1.1.1⟩
  | .genericFor _ _ iterators body, _, h => by
    simp only [Stat.formed, Bool.and_eq_true] at h
    rw [Stat.functions, functionsFormed_append]
    exact ⟨functionsFormed_chunk body h.2, functionsFormed_values iterators h.1.2⟩
  | .repeatLoop _ body condition, _, h => by
    simp only [Stat.formed, Bool.and_eq_true] at h
    rw [Stat.functions, functionsFormed_append]
    exact ⟨functionsFormed_chunk body h.1, condition.functionsFormed h.2⟩
  | .block body, _, h => functionsFormed_chunk body h
  | .result _ values, _, h => functionsFormed_values values h
  | .leave _, _, _ => functionsFormed_nil

theorem functionsFormed_chunk : ∀ (body : List Stat) {inLoop : Bool}, chunkFormed inLoop body →
    FunctionsFormed (chunkFunctions body)
  | [], _, _ => functionsFormed_nil
  | s :: rest, _, h => by
    simp only [chunkFormed, Bool.and_eq_true] at h
    rw [chunkFunctions, functionsFormed_append]
    exact ⟨s.functionsFormed h.1, functionsFormed_chunk rest h.2⟩

end

/-- The functions of a well-formed text leave loops inside of loops only. -/
theorem closed_of_mem_chunkFunctions {chunk : Chunk} {inLoop : Bool}
    (h : chunkFormed inLoop chunk) {f : FunctionLiteral} (hf : f ∈ chunkFunctions chunk) :
    f.closed :=
  chunkClosed_of_formed f.body (functionsFormed_chunk chunk h f hf)

end ScriptEngine
