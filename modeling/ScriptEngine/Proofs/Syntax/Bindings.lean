import Mathlib.Data.List.Sublists
import ScriptEngine.Proofs.Syntax.Folded

/-!
# Folding and bindings

Whether a declaration is removed depends on how often its name is bound in its block, functions
and inner blocks included.  Folding removes declarations, operands and what is bound in them, and
never adds a binding.

## Main results

* `bound_foldStats` — the bindings of statements that are folded are some of those they had.
-/

namespace ScriptEngine

/-! ### Folding adds no bindings -/

theorem boundNames_append (body rest : List Stat) :
    boundNames (body ++ rest) = boundNames body ++ boundNames rest := by
  induction body with
  | nil => rfl
  | cons s body ih => rw [List.cons_append, boundNames, boundNames, ih, List.append_assoc]

/-- The bindings of a pair of a target and a value. -/
theorem boundInTargets_cons (target : Expr) (rest : List Expr) :
    boundInTargets (target :: rest) = boundInTargets [target] ++ boundInTargets rest := by
  cases target <;> simp [boundInTargets]

theorem bound_foldBinary (position : Position) (operator : BinaryOperator) (lhs rhs : Expr) :
    (foldBinary position operator lhs rhs).bound.Sublist (lhs.bound ++ rhs.bound) := by
  rcases cases_foldBinary position operator lhs rhs with h | h | ⟨origin, value, h⟩ | ⟨h, -⟩ <;>
    rw [h]
  · exact List.sublist_append_left _ _
  · exact List.sublist_append_right _ _
  · exact List.nil_sublist _
  · rw [Expr.bound]

theorem bound_foldUnary (position : Position) (operator : UnaryOperator) (operand : Expr) :
    (foldUnary position operator operand).bound.Sublist operand.bound := by
  rcases cases_foldUnary position operator operand with ⟨origin, value, h⟩ | ⟨h, -⟩ <;> rw [h]
  · exact List.nil_sublist _
  · rw [Expr.bound]

/-- Pairs that are dropped take their bindings with them. -/
theorem bound_declarePairs (bound : List String) (constants : Constants)
    (pairs : List (Expr × Expr)) :
    (boundInTargets ((declarePairs bound constants pairs).1.map (·.1))).Sublist
        (boundInTargets (pairs.map (·.1))) ∧
      (boundInAll ((declarePairs bound constants pairs).1.map (·.2))).Sublist
        (boundInAll (pairs.map (·.2))) := by
  induction pairs generalizing constants with
  | nil => exact ⟨.refl _, .refl _⟩
  | cons pair rest ih =>
    obtain ⟨target, value⟩ := pair
    rw [declarePairs]
    split
    · next name literal hconstant =>
      obtain ⟨htargets, hvalues⟩ := ih ((name, some literal) :: constants)
      refine ⟨?_, ?_⟩
      · rw [List.map_cons, boundInTargets_cons]
        exact htargets.trans (List.sublist_append_right _ _)
      · rw [List.map_cons, boundInAll]
        exact hvalues.trans (List.sublist_append_right _ _)
    · obtain ⟨htargets, hvalues⟩ := ih (declareTarget constants target)
      refine ⟨?_, ?_⟩
      · simp only [List.map_cons]
        rw [boundInTargets_cons target (rest.map _),
          boundInTargets_cons target ((declarePairs _ _ rest).1.map _)]
        exact (List.Sublist.refl _).append htargets
      · rw [List.map_cons, List.map_cons, boundInAll, boundInAll]
        exact (List.Sublist.refl _).append hvalues

/-- The bindings of what is left of a local assignment of as many values as variables. -/
theorem bound_foldLocal_of_paired {bound : List String} {root : Bool} {constants : Constants}
    {position : Position} {targets values : List Expr}
    (h : (!root && targets.length == values.length && !values.any Expr.isCall) = true) :
    boundNames (foldLocal bound root constants position targets values).1.toList =
      boundInTargets ((declarePairs bound constants (targets.zip values)).1.map (·.1)) ++
        boundInAll ((declarePairs bound constants (targets.zip values)).1.map (·.2)) := by
  rw [foldLocal, if_pos h]
  rcases declarePairs bound constants (targets.zip values) with ⟨kept, known⟩
  cases kept <;> simp [boundNames, Stat.bound, boundInTargets, boundInAll]

theorem bound_foldLocal (bound : List String) (root : Bool) (constants : Constants)
    (position : Position) (targets values : List Expr) :
    (boundNames (foldLocal bound root constants position targets values).1.toList).Sublist
      (boundInTargets targets ++ boundInAll values) := by
  by_cases hpaired : (!root && targets.length == values.length && !values.any Expr.isCall) = true
  · have hlength : targets.length = values.length := by
      simp only [Bool.and_eq_true, beq_iff_eq] at hpaired
      exact hpaired.1.2
    obtain ⟨htargets, hvalues⟩ := bound_declarePairs bound constants (targets.zip values)
    rw [List.map_fst_zip (Nat.le_of_eq hlength)] at htargets
    rw [List.map_snd_zip (Nat.le_of_eq hlength.symm)] at hvalues
    rw [bound_foldLocal_of_paired hpaired]
    exact htargets.append hvalues
  · rw [foldLocal, if_neg hpaired]
    simp [boundNames, Stat.bound]

mutual

/-- **Folding adds no bindings**, and keeps the order of those that it leaves. -/
theorem Expr.bound_fold : ∀ (e : Expr) (constants : Constants),
    (e.fold constants).bound.Sublist e.bound
  | .literal _ _, _ => by rw [Expr.fold]
  | .var _ name, constants => by
    rw [Expr.fold]
    cases constants.find? name <;> exact List.nil_sublist _
  | .function _ parameters body, constants => by
    rw [Expr.fold, Expr.bound, Expr.bound]
    exact (List.Sublist.refl _).append (bound_foldStats body _ _ _)
  | .table _ entries, constants => by
    rw [Expr.fold, Expr.bound, Expr.bound]
    exact bound_foldEntries entries constants
  | .call _ callee arguments, constants => by
    rw [Expr.fold, Expr.bound, Expr.bound]
    exact (callee.bound_fold constants).append (bound_foldAll arguments constants)
  | .index _ target key, constants => by
    rw [Expr.fold, Expr.bound, Expr.bound]
    exact (target.bound_fold constants).append (key.bound_fold constants)
  | .group _ inner, constants => by
    rw [Expr.fold, Expr.bound, Expr.bound]
    exact inner.bound_fold constants
  | .binary _ _ lhs rhs, constants => by
    rw [Expr.fold, Expr.bound]
    exact (bound_foldBinary _ _ _ _).trans ((lhs.bound_fold constants).append
      (rhs.bound_fold constants))
  | .unary _ _ operand, constants => by
    rw [Expr.fold, Expr.bound]
    exact (bound_foldUnary _ _ _).trans (operand.bound_fold constants)

theorem bound_foldAll : ∀ (es : List Expr) (constants : Constants),
    (boundInAll (foldAll constants es)).Sublist (boundInAll es)
  | [], _ => by rw [foldAll]
  | e :: rest, constants => by
    rw [foldAll, boundInAll, boundInAll]
    exact (e.bound_fold constants).append (bound_foldAll rest constants)

theorem bound_foldEntries : ∀ (es : List (Expr × Expr)) (constants : Constants),
    (boundInEntries (foldEntries constants es)).Sublist (boundInEntries es)
  | [], _ => by rw [foldEntries]
  | (key, value) :: rest, constants => by
    rw [foldEntries, boundInEntries, boundInEntries]
    exact ((key.bound_fold constants).append (value.bound_fold constants)).append
      (bound_foldEntries rest constants)

theorem bound_foldTargets : ∀ (es : List Expr) (constants : Constants),
    (boundInTargets (foldTargets constants es)).Sublist (boundInTargets es)
  | [], _ => by rw [foldTargets]
  | e :: rest, constants => by
    have hrest := bound_foldTargets rest constants
    cases e with
    | index position target key =>
      simp only [foldTargets, boundInTargets, Expr.bound]
      exact ((target.bound_fold constants).append (key.bound_fold constants)).append hrest
    | _ =>
      simp only [foldTargets]
      rw [boundInTargets_cons, boundInTargets_cons _ rest]
      exact (List.Sublist.refl _).append hrest

theorem bound_foldBranches : ∀ (es : List (Expr × List Stat)) (constants : Constants),
    (boundInBranches (foldBranches constants es)).Sublist (boundInBranches es)
  | [], _ => by rw [foldBranches]
  | (condition, body) :: rest, constants => by
    rw [foldBranches, boundInBranches, boundInBranches]
    exact ((condition.bound_fold constants).append (bound_foldStats body _ _ _)).append
      (bound_foldBranches rest constants)

theorem Stat.bound_fold : ∀ (s : Stat) (bound : List String) (root : Bool) (constants : Constants),
    (boundNames (s.fold bound root constants).1.toList).Sublist s.bound
  | .expression e, bound, root, constants => by
    simpa [Stat.fold, boundNames, Stat.bound] using e.bound_fold constants
  | .assignment position true targets values, bound, root, constants => by
    rw [Stat.fold, Stat.bound]
    exact (bound_foldLocal _ _ _ _ _ _).trans
      ((List.Sublist.refl _).append (bound_foldAll values constants))
  | .assignment position false targets values, bound, root, constants => by
    simpa [Stat.fold, boundNames, Stat.bound] using
      (bound_foldTargets targets constants).append (bound_foldAll values constants)
  | .declaration names, bound, root, constants => by simp [Stat.fold, boundNames]
  | .localFunction name function, bound, root, constants => by
    simpa [Stat.fold, boundNames, Stat.bound] using function.bound_fold _
  | .conditional position branches none, bound, root, constants => by
    simpa [Stat.fold, boundNames, Stat.bound] using bound_foldBranches branches constants
  | .conditional position branches (some body), bound, root, constants => by
    simpa [Stat.fold, boundNames, Stat.bound] using
      (bound_foldBranches branches constants).append (bound_foldStats body _ _ _)
  | .whileLoop position condition body, bound, root, constants => by
    simpa [Stat.fold, boundNames, Stat.bound] using
      (condition.bound_fold constants).append (bound_foldStats body _ _ _)
  | .numericFor counter start stop none body, bound, root, constants => by
    simpa [Stat.fold, boundNames, Stat.bound] using
      (start.bound_fold constants).append ((stop.bound_fold constants).append
        (bound_foldStats body _ _ _))
  | .numericFor counter start stop (some step) body, bound, root, constants => by
    simpa [Stat.fold, boundNames, Stat.bound] using
      (start.bound_fold constants).append ((stop.bound_fold constants).append
        ((step.bound_fold constants).append (bound_foldStats body _ _ _)))
  | .genericFor position names iterators body, bound, root, constants => by
    simpa [Stat.fold, boundNames, Stat.bound] using
      (bound_foldAll iterators constants).append (bound_foldStats body _ _ _)
  | .repeatLoop position body condition, bound, root, constants => by
    simpa [Stat.fold, boundNames, Stat.bound] using
      (bound_foldStats body _ _ _).append (condition.bound_fold _)
  | .block body, bound, root, constants => by
    simpa [Stat.fold, boundNames, Stat.bound] using bound_foldStats body _ _ _
  | .result position values, bound, root, constants => by
    simpa [Stat.fold, boundNames, Stat.bound] using bound_foldAll values constants
  | .leave position, bound, root, constants => by simp [Stat.fold, boundNames]

theorem bound_foldStats : ∀ (body : List Stat) (bound : List String) (root : Bool)
    (constants : Constants), (boundNames (foldStats bound root constants body).1).Sublist
      (boundNames body)
  | [], _, _, _ => by rw [foldStats]
  | s :: rest, bound, root, constants => by
    rw [foldStats, boundNames_append, boundNames]
    exact (s.bound_fold bound root constants).append (bound_foldStats rest bound root _)

end

end ScriptEngine
