import ScriptEngine.Syntax.Folding

/-!
# Well-formed syntax trees

Not every tree is one that a text has.  What the rest of the engine relies on is
that loops are left inside of loops only, that assignments have targets that can be
assigned to, and that no list is empty that must not be.

## Main definitions

* `Expr.formed`, `Stat.formed`, `chunkFormed` — what holds of the trees of texts.

## Main results

* `chunkFormed_optimize` — folding keeps a tree well-formed.
-/

namespace ScriptEngine

/-- Whether an expression is a variable. -/
def Expr.isVar : Expr → Bool
  | .var .. => true
  | _ => false

mutual

/-- Whether an expression is well-formed.  Parentheses are kept around calls only;
the body of a function stands outside of all loops. -/
def Expr.formed : Expr → Bool
  | .literal _ _ => true
  | .var _ _ => true
  | .function _ _ body => chunkFormed false body
  | .table _ entries => entriesFormed entries
  | .call _ callee arguments => callee.formed && allFormed arguments
  | .index _ target key => target.formed && key.formed
  | .group _ inner => inner.isCall && inner.formed
  | .binary _ _ lhs rhs => lhs.formed && rhs.formed
  | .unary _ _ operand => operand.formed

/-- Whether expressions are well-formed. -/
def allFormed : List Expr → Bool
  | [] => true
  | e :: rest => e.formed && allFormed rest

/-- Whether the entries of a table are well-formed. -/
def entriesFormed : List (Expr × Expr) → Bool
  | [] => true
  | (key, value) :: rest => key.formed && value.formed && entriesFormed rest

/-- Whether the branches of a conditional are well-formed. -/
def branchesFormed (inLoop : Bool) : List (Expr × List Stat) → Bool
  | [] => true
  | (condition, body) :: rest =>
    condition.formed && chunkFormed inLoop body && branchesFormed inLoop rest

/-- Whether a statement is well-formed; `inLoop` says whether it stands in a loop. -/
def Stat.formed (inLoop : Bool) : Stat → Bool
  | .expression e => e.formed
  | .assignment _ isLocal targets values =>
    !targets.isEmpty && !values.isEmpty &&
      targets.all (if isLocal then Expr.isVar else Expr.isTarget) &&
      allFormed targets && allFormed values
  | .declaration _ => true
  | .localFunction _ function => function.formed
  | .conditional _ branches none => !branches.isEmpty && branchesFormed inLoop branches
  | .conditional _ branches (some body) =>
    !branches.isEmpty && branchesFormed inLoop branches && chunkFormed inLoop body
  | .whileLoop _ condition body => condition.formed && chunkFormed true body
  | .numericFor _ start stop none body => start.formed && stop.formed && chunkFormed true body
  | .numericFor _ start stop (some step) body =>
    start.formed && stop.formed && step.formed && chunkFormed true body
  | .genericFor _ names iterators body =>
    !names.isEmpty && !iterators.isEmpty && allFormed iterators && chunkFormed true body
  | .repeatLoop _ body condition => chunkFormed true body && condition.formed
  | .block body => chunkFormed inLoop body
  | .result _ values => allFormed values
  | .leave _ => inLoop

/-- Whether statements are well-formed. -/
def chunkFormed (inLoop : Bool) : List Stat → Bool
  | [] => true
  | s :: rest => s.formed inLoop && chunkFormed inLoop rest

end

theorem allFormed_iff {es : List Expr} : allFormed es ↔ ∀ e ∈ es, e.formed := by
  induction es with
  | nil => simp [allFormed]
  | cons e rest ih => simp [allFormed, ih]

theorem chunkFormed_append {inLoop : Bool} {body rest : List Stat} :
    chunkFormed inLoop (body ++ rest) = (chunkFormed inLoop body && chunkFormed inLoop rest) := by
  induction body with
  | nil => simp [chunkFormed]
  | cons s body ih => simp [chunkFormed, ih, Bool.and_assoc]

/-! ### Folding expressions -/

theorem formed_foldBinary {position : Position} {operator : BinaryOperator} {lhs rhs : Expr}
    (hlhs : lhs.formed) (hrhs : rhs.formed) : (foldBinary position operator lhs rhs).formed := by
  have hboth : (Expr.binary position operator lhs rhs).formed := by
    simp [Expr.formed, hlhs, hrhs]
  unfold foldBinary
  split
  · exact hboth
  · split
    · split <;> assumption
    · split <;> assumption
    · split
      · exact hboth
      · split
        · exact hboth
        · split
          · exact hboth
          · rfl

theorem formed_foldUnary {position : Position} {operator : UnaryOperator} {operand : Expr}
    (h : operand.formed) : (foldUnary position operator operand).formed := by
  unfold foldUnary
  split
  · exact h
  · split
    · exact h
    · split
      · exact h
      · rfl

theorem isCall_fold (constants : Constants) {e : Expr} (h : e.isCall) :
    (e.fold constants).isCall := by
  cases e with
  | call position callee arguments => simp [Expr.fold, Expr.isCall]
  | _ => cases h

theorem mem_of_mem_declarePairs (bound : List String) (constants : Constants)
    {pairs : List (Expr × Expr)} {e : Expr × Expr}
    (he : e ∈ (declarePairs bound constants pairs).1) : e ∈ pairs := by
  induction pairs generalizing constants with
  | nil => cases he
  | cons pair rest ih =>
    obtain ⟨target, value⟩ := pair
    rw [declarePairs] at he
    split at he
    · exact List.mem_cons_of_mem _ (ih _ he)
    · rcases List.mem_cons.1 he with rfl | he
      · exact List.mem_cons_self
      · exact List.mem_cons_of_mem _ (ih _ he)

/-- What is left of a local assignment is well-formed. -/
theorem formed_foldLocal {bound : List String} {root inLoop : Bool} {constants : Constants}
    {position : Position} {targets values : List Expr}
    (h : (Stat.assignment position true targets values).formed inLoop) :
    ∀ s ∈ (foldLocal bound root constants position targets values).1, s.formed inLoop := by
  intro s hs
  unfold foldLocal at hs
  split at hs
  · split at hs
    · cases hs
    · next kept constants' hne hkept =>
      cases hs
      have hmem : ∀ e ∈ kept, e ∈ targets.zip values := by
        intro e he
        refine mem_of_mem_declarePairs bound constants ?_
        rw [hkept]
        exact he
      simp only [Stat.formed, Bool.and_eq_true, List.all_eq_true, allFormed_iff, List.mem_map,
        Bool.not_eq_true', List.isEmpty_eq_false_iff] at h ⊢
      obtain ⟨⟨⟨-, hvars⟩, htargets⟩, hvalues⟩ := h
      have hkept : kept ≠ [] := by
        rintro rfl
        exact hne rfl
      refine ⟨⟨⟨⟨by simpa using hkept, by simpa using hkept⟩, ?_⟩, ?_⟩, ?_⟩
      · rintro _ ⟨e, he, rfl⟩
        exact hvars e.1 (List.of_mem_zip (hmem e he)).1
      · rintro _ ⟨e, he, rfl⟩
        exact htargets e.1 (List.of_mem_zip (hmem e he)).1
      · rintro _ ⟨e, he, rfl⟩
        exact hvalues e.2 (List.of_mem_zip (hmem e he)).2
  · cases hs
    exact h

theorem isEmpty_foldAll (constants : Constants) (es : List Expr) :
    (foldAll constants es).isEmpty = es.isEmpty := by
  cases es <;> rfl

theorem isEmpty_foldTargets (constants : Constants) (es : List Expr) :
    (foldTargets constants es).isEmpty = es.isEmpty := by
  cases es with
  | nil => rfl
  | cons e rest => cases e <;> rfl

theorem isEmpty_foldBranches (constants : Constants) (branches : List (Expr × List Stat)) :
    (foldBranches constants branches).isEmpty = branches.isEmpty := by
  cases branches <;> rfl

theorem all_isTarget_foldTargets (constants : Constants) (es : List Expr) :
    (foldTargets constants es).all Expr.isTarget = es.all Expr.isTarget := by
  induction es with
  | nil => rfl
  | cons e rest ih =>
    cases e <;> simp [foldTargets, Expr.isTarget, ih]

/-! ### Folding texts -/

mutual

theorem Expr.formed_fold : ∀ (e : Expr) (constants : Constants), e.formed →
    (e.fold constants).formed
  | .literal _ _, _, _ => by rw [Expr.fold]; rfl
  | .var position name, constants, _ => by
    rw [Expr.fold]
    split <;> rfl
  | .function position parameters body, constants, h => by
    rw [Expr.formed] at h
    rw [Expr.fold, Expr.formed]
    exact formed_foldStats body _ _ _ _ h
  | .table position entries, constants, h => by
    rw [Expr.formed] at h
    rw [Expr.fold, Expr.formed]
    exact formed_foldEntries entries constants h
  | .call position callee arguments, constants, h => by
    rw [Expr.formed, Bool.and_eq_true] at h
    rw [Expr.fold, Expr.formed, Bool.and_eq_true]
    exact ⟨callee.formed_fold constants h.1, formed_foldAll arguments constants h.2⟩
  | .index position target key, constants, h => by
    rw [Expr.formed, Bool.and_eq_true] at h
    rw [Expr.fold, Expr.formed, Bool.and_eq_true]
    exact ⟨target.formed_fold constants h.1, key.formed_fold constants h.2⟩
  | .group position inner, constants, h => by
    rw [Expr.formed, Bool.and_eq_true] at h
    rw [Expr.fold, Expr.formed, Bool.and_eq_true]
    exact ⟨isCall_fold constants h.1, inner.formed_fold constants h.2⟩
  | .binary position operator lhs rhs, constants, h => by
    rw [Expr.formed, Bool.and_eq_true] at h
    rw [Expr.fold]
    exact formed_foldBinary (lhs.formed_fold constants h.1) (rhs.formed_fold constants h.2)
  | .unary position operator operand, constants, h => by
    rw [Expr.formed] at h
    rw [Expr.fold]
    exact formed_foldUnary (operand.formed_fold constants h)

theorem formed_foldAll : ∀ (es : List Expr) (constants : Constants), allFormed es →
    allFormed (foldAll constants es)
  | [], _, _ => by rw [foldAll]; rfl
  | e :: rest, constants, h => by
    rw [allFormed, Bool.and_eq_true] at h
    rw [foldAll, allFormed, Bool.and_eq_true]
    exact ⟨e.formed_fold constants h.1, formed_foldAll rest constants h.2⟩

theorem formed_foldEntries : ∀ (es : List (Expr × Expr)) (constants : Constants),
    entriesFormed es → entriesFormed (foldEntries constants es)
  | [], _, _ => by rw [foldEntries]; rfl
  | (key, value) :: rest, constants, h => by
    simp only [entriesFormed, Bool.and_eq_true] at h
    simp only [foldEntries, entriesFormed, Bool.and_eq_true]
    exact ⟨⟨key.formed_fold constants h.1.1, value.formed_fold constants h.1.2⟩,
      formed_foldEntries rest constants h.2⟩

theorem formed_foldTargets : ∀ (es : List Expr) (constants : Constants), allFormed es →
    allFormed (foldTargets constants es)
  | [], _, _ => by rw [foldTargets]; rfl
  | e :: rest, constants, h => by
    rw [allFormed, Bool.and_eq_true] at h
    have hrest := formed_foldTargets rest constants h.2
    cases e with
    | index position target key =>
      have he := h.1
      rw [Expr.formed, Bool.and_eq_true] at he
      simp only [foldTargets, allFormed, Expr.formed, Bool.and_eq_true]
      exact ⟨⟨target.formed_fold constants he.1, key.formed_fold constants he.2⟩, hrest⟩
    | _ =>
      simp only [foldTargets, allFormed, Bool.and_eq_true]
      exact ⟨h.1, hrest⟩

theorem formed_foldBranches : ∀ (es : List (Expr × List Stat)) (constants : Constants)
    (inLoop : Bool), branchesFormed inLoop es → branchesFormed inLoop (foldBranches constants es)
  | [], _, _, _ => by rw [foldBranches]; rfl
  | (condition, body) :: rest, constants, inLoop, h => by
    simp only [branchesFormed, Bool.and_eq_true] at h
    simp only [foldBranches, branchesFormed, Bool.and_eq_true]
    exact ⟨⟨condition.formed_fold constants h.1.1, formed_foldStats body _ _ _ _ h.1.2⟩,
      formed_foldBranches rest constants inLoop h.2⟩

theorem Stat.formed_fold : ∀ (s : Stat) (bound : List String) (root : Bool)
    (constants : Constants) (inLoop : Bool), s.formed inLoop →
    ∀ s' ∈ (s.fold bound root constants).1, s'.formed inLoop
  | .expression e, bound, root, constants, inLoop, h, s', hs' => by
    rw [Stat.fold] at hs'
    cases hs'
    exact e.formed_fold constants h
  | .assignment position true targets values, bound, root, constants, inLoop, h, s', hs' => by
    rw [Stat.fold] at hs'
    refine formed_foldLocal ?_ s' hs'
    simp only [Stat.formed, Bool.and_eq_true, isEmpty_foldAll] at h ⊢
    exact ⟨h.1, formed_foldAll values constants h.2⟩
  | .assignment position false targets values, bound, root, constants, inLoop, h, s', hs' => by
    rw [Stat.fold] at hs'
    cases hs'
    simp only [Stat.formed, Bool.and_eq_true, isEmpty_foldAll, isEmpty_foldTargets,
      Bool.false_eq_true, if_false, all_isTarget_foldTargets] at h ⊢
    exact ⟨⟨h.1.1, formed_foldTargets targets constants h.1.2⟩,
      formed_foldAll values constants h.2⟩
  | .declaration names, bound, root, constants, inLoop, h, s', hs' => by
    rw [Stat.fold] at hs'
    cases hs'
    rfl
  | .localFunction name function, bound, root, constants, inLoop, h, s', hs' => by
    rw [Stat.fold] at hs'
    cases hs'
    exact function.formed_fold _ h
  | .conditional position branches none, bound, root, constants, inLoop, h, s', hs' => by
    rw [Stat.fold] at hs'
    cases hs'
    simp only [Stat.formed, Bool.and_eq_true, isEmpty_foldBranches] at h ⊢
    exact ⟨h.1, formed_foldBranches branches constants inLoop h.2⟩
  | .conditional position branches (some body), bound, root, constants, inLoop, h, s', hs' => by
    rw [Stat.fold] at hs'
    cases hs'
    simp only [Stat.formed, Bool.and_eq_true, isEmpty_foldBranches] at h ⊢
    exact ⟨⟨h.1.1, formed_foldBranches branches constants inLoop h.1.2⟩,
      formed_foldStats body _ _ _ _ h.2⟩
  | .whileLoop position condition body, bound, root, constants, inLoop, h, s', hs' => by
    rw [Stat.fold] at hs'
    cases hs'
    simp only [Stat.formed, Bool.and_eq_true] at h ⊢
    exact ⟨condition.formed_fold constants h.1, formed_foldStats body _ _ _ _ h.2⟩
  | .numericFor counter start stop none body, bound, root, constants, inLoop, h, s', hs' => by
    rw [Stat.fold] at hs'
    cases hs'
    simp only [Stat.formed, Bool.and_eq_true] at h ⊢
    exact ⟨⟨start.formed_fold constants h.1.1, stop.formed_fold constants h.1.2⟩,
      formed_foldStats body _ _ _ _ h.2⟩
  | .numericFor counter start stop (some step) body, bound, root, constants, inLoop, h, s',
      hs' => by
    rw [Stat.fold] at hs'
    cases hs'
    simp only [Stat.formed, Bool.and_eq_true] at h ⊢
    exact ⟨⟨⟨start.formed_fold constants h.1.1.1, stop.formed_fold constants h.1.1.2⟩,
      step.formed_fold constants h.1.2⟩, formed_foldStats body _ _ _ _ h.2⟩
  | .genericFor position names iterators body, bound, root, constants, inLoop, h, s', hs' => by
    rw [Stat.fold] at hs'
    cases hs'
    simp only [Stat.formed, Bool.and_eq_true, isEmpty_foldAll] at h ⊢
    exact ⟨⟨h.1.1, formed_foldAll iterators constants h.1.2⟩, formed_foldStats body _ _ _ _ h.2⟩
  | .repeatLoop position body condition, bound, root, constants, inLoop, h, s', hs' => by
    rw [Stat.fold] at hs'
    cases hs'
    simp only [Stat.formed, Bool.and_eq_true] at h ⊢
    exact ⟨formed_foldStats body _ _ _ _ h.1, condition.formed_fold _ h.2⟩
  | .block body, bound, root, constants, inLoop, h, s', hs' => by
    rw [Stat.fold] at hs'
    cases hs'
    rw [Stat.formed] at h ⊢
    exact formed_foldStats body _ _ _ _ h
  | .result position values, bound, root, constants, inLoop, h, s', hs' => by
    rw [Stat.fold] at hs'
    cases hs'
    rw [Stat.formed] at h ⊢
    exact formed_foldAll values constants h
  | .leave position, bound, root, constants, inLoop, h, s', hs' => by
    rw [Stat.fold] at hs'
    cases hs'
    exact h

theorem formed_foldStats : ∀ (body : List Stat) (bound : List String) (root : Bool)
    (constants : Constants) (inLoop : Bool), chunkFormed inLoop body →
    chunkFormed inLoop (foldStats bound root constants body).1
  | [], _, _, _, _, _ => by rw [foldStats]; rfl
  | s :: rest, bound, root, constants, inLoop, h => by
    rw [chunkFormed, Bool.and_eq_true] at h
    rw [foldStats, chunkFormed_append, Bool.and_eq_true]
    refine ⟨?_, formed_foldStats rest bound root _ inLoop h.2⟩
    have hfirst := s.formed_fold bound root constants inLoop h.1
    cases hfold : (s.fold bound root constants).1 with
    | none => rfl
    | some s' =>
      rw [Option.toList_some, chunkFormed, chunkFormed, Bool.and_true]
      exact hfirst s' hfold

end

/-- **Folding a text keeps it well-formed.** -/
theorem chunkFormed_optimize {chunk : Chunk} (h : chunkFormed false chunk) :
    chunkFormed false (optimize chunk) :=
  formed_foldStats chunk _ _ _ _ h

end ScriptEngine
