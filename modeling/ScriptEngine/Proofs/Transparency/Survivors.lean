import ScriptEngine.Proofs.Courses.Folding
import ScriptEngine.Proofs.Evaluation.Functions
import ScriptEngine.Proofs.Syntax.Folded

/-!
# Functions that folding leaves

Folding leaves out operands that a literal in front of them makes superfluous, and with them the
function literals in them.  The others keep their order, but not their numbers.

## Main definitions

* `Expr.keeps`, `Stat.keeps`, `chunkKept` — the numbers of the function literals that are left.

## Main results

* `length_chunkKept` — there are as many as there are function literals in what is left.
* `chunkKept_sublist` — they are some of the numbers that there were, in the same order.
-/

namespace ScriptEngine

/-- Whether a folded left operand makes the right one superfluous. -/
def skipsRight (operator : BinaryOperator) (lhs : Expr) : Bool :=
  match operator, lhs.literal? with
  | .and, some a => !a.toValue.isTruthy
  | .or, some a => a.toValue.isTruthy
  | _, _ => false

/-! ### The numbers that are left -/

mutual

/-- The numbers of the function literals of an expression that folding leaves, its first one having
the number `next`. -/
def Expr.keeps (constants : Constants) (next : Nat) : Expr → List Nat
  | .literal _ _ => []
  | .var _ _ => []
  | .function _ parameters body =>
    next :: chunkKept (boundNames body) false (constants.shadow parameters) (next + 1) body
  | .table _ entries => entriesKept constants next entries
  | .call _ callee arguments =>
    valuesKept constants next arguments ++
      callee.keeps constants (next + (valuesFunctions arguments).length)
  | .index _ table key =>
    key.keeps constants next ++ table.keeps constants (next + key.functions.length)
  | .group _ inner => inner.keeps constants next
  | .binary _ operator lhs rhs =>
    (if skipsRight operator (lhs.fold constants) then [] else rhs.keeps constants next) ++
      lhs.keeps constants (next + rhs.functions.length)
  | .unary _ _ operand => operand.keeps constants next

@[inherit_doc Expr.keeps]
def valuesKept (constants : Constants) (next : Nat) : List Expr → List Nat
  | [] => []
  | e :: rest => e.keeps constants next ++ valuesKept constants (next + e.functions.length) rest

@[inherit_doc Expr.keeps]
def entriesKept (constants : Constants) (next : Nat) : List (Expr × Expr) → List Nat
  | [] => []
  | (key, value) :: rest =>
    let behind := next + (entriesFunctions rest).length
    entriesKept constants next rest ++ value.keeps constants behind ++
      key.keeps constants (behind + value.functions.length)

/-- Those of the targets of an assignment that declares nothing. -/
def targetsKept (constants : Constants) (next : Nat) : List Expr → List Nat
  | [] => []
  | .index _ table key :: rest =>
    let behind := next + (storesFunctions rest).length
    targetsKept constants next rest ++ table.keeps constants behind ++
      key.keeps constants (behind + table.functions.length)
  | _ :: rest => targetsKept constants next rest

/-- Those of the branches of a conditional, where `fs` are the function literals behind the last
branch, of which `last` are left. -/
def branchesKept (constants : Constants) (fs : List FunctionLiteral) (last : List Nat)
    (next : Nat) : List (Expr × List Stat) → List Nat
  | [] => last
  | (condition, body) :: rest =>
    let behind := next + (branchesFunctions fs rest).length
    branchesKept constants fs last next rest ++
      chunkKept (boundNames body) false constants behind body ++
      condition.keeps constants (behind + (chunkFunctions body).length)

/-- Those of a statement.  The targets of a local assignment stay as they are. -/
def Stat.keeps (constants : Constants) (next : Nat) : Stat → List Nat
  | .expression e => e.keeps constants next
  | .assignment _ true targets values =>
    valuesKept constants next values ++
      List.range' (next + (valuesFunctions values).length) (storesFunctions targets).length
  | .assignment _ false targets values =>
    valuesKept constants next values ++
      targetsKept constants (next + (valuesFunctions values).length) targets
  | .declaration _ => []
  | .localFunction name function => function.keeps (constants.shadow [name]) next
  | .conditional _ branches none => branchesKept constants [] [] next branches
  | .conditional _ branches (some body) =>
    branchesKept constants (chunkFunctions body)
      (chunkKept (boundNames body) false constants next body) next branches
  | .whileLoop _ condition body =>
    chunkKept (boundNames body) false constants next body ++
      condition.keeps constants (next + (chunkFunctions body).length)
  | .numericFor counter start stop none body =>
    let behind := next + (chunkFunctions body).length
    chunkKept (boundNames body) false (constants.shadow [counter]) next body ++
      stop.keeps constants behind ++ start.keeps constants (behind + stop.functions.length)
  | .numericFor counter start stop (some step) body =>
    let behind := next + (chunkFunctions body).length
    chunkKept (boundNames body) false (constants.shadow [counter]) next body ++
      step.keeps constants behind ++ stop.keeps constants (behind + step.functions.length) ++
      start.keeps constants (behind + step.functions.length + stop.functions.length)
  | .genericFor _ names iterators body =>
    chunkKept (boundNames body) false (constants.shadow names) next body ++
      valuesKept constants (next + (chunkFunctions body).length) iterators
  | .repeatLoop _ body condition =>
    chunkKept (boundNames body) false constants next body ++
      condition.keeps (foldStats (boundNames body) false constants body).2
        (next + (chunkFunctions body).length)
  | .block body => chunkKept (boundNames body) false constants next body
  | .result _ values => valuesKept constants next values
  | .leave _ => []

/-- Those of a list of statements of a block whose bindings are `bound`. -/
def chunkKept (bound : List String) (root : Bool) (constants : Constants) (next : Nat) :
    List Stat → List Nat
  | [] => []
  | s :: rest =>
    s.keeps constants next ++
      chunkKept bound root (s.fold bound root constants).2 (next + s.functions.length) rest

end

/-! ### What is left of operators and declarations -/

/-- The function literals of an operator that is folded. -/
theorem functions_foldBinary (position : Position) (operator : BinaryOperator) (lhs rhs : Expr) :
    (foldBinary position operator lhs rhs).functions =
      (if skipsRight operator lhs then [] else rhs.functions) ++ lhs.functions := by
  cases hlhs : lhs.literal? with
  | none =>
    simp [foldBinary, skipsRight, hlhs, Expr.functions]
  | some a =>
    obtain ⟨p, rfl⟩ := Expr.eq_literal hlhs
    cases operator with
    | and => cases htruthy : a.toValue.isTruthy <;>
        simp [foldBinary, skipsRight, Expr.literal?, Expr.functions, htruthy]
    | or => cases htruthy : a.toValue.isTruthy <;>
        simp [foldBinary, skipsRight, Expr.literal?, Expr.functions, htruthy]
    | strict operator =>
      cases hrhs : rhs.literal? with
      | none =>
        simp only [foldBinary, skipsRight, hlhs, hrhs, Expr.functions, Bool.false_eq_true, if_false]
      | some b =>
        obtain ⟨q, rfl⟩ := Expr.eq_literal hrhs
        simp only [foldBinary, skipsRight, Expr.literal?, Expr.functions]
        split
        · rfl
        · split <;> rfl

theorem functions_foldUnary (position : Position) (operator : UnaryOperator) (operand : Expr) :
    (foldUnary position operator operand).functions = operand.functions := by
  cases hoperand : operand.literal? with
  | none => simp [foldUnary, hoperand, Expr.functions]
  | some a =>
    obtain ⟨p, rfl⟩ := Expr.eq_literal hoperand
    simp only [foldUnary, Expr.literal?, Expr.functions]
    split
    · rfl
    · split <;> rfl

theorem chunkFunctions_append (body rest : List Stat) :
    chunkFunctions (body ++ rest) = chunkFunctions body ++ chunkFunctions rest := by
  induction body with
  | nil => rfl
  | cons s body ih =>
    rw [List.cons_append, chunkFunctions, chunkFunctions, ih, List.append_assoc]

/-- Pairs that are dropped have no function literals. -/
theorem functions_declarePairs (bound : List String) (constants : Constants)
    (pairs : List (Expr × Expr)) :
    valuesFunctions ((declarePairs bound constants pairs).1.map (·.2)) =
        valuesFunctions (pairs.map (·.2)) ∧
      storesFunctions ((declarePairs bound constants pairs).1.map (·.1)) =
        storesFunctions (pairs.map (·.1)) := by
  induction pairs generalizing constants with
  | nil => exact ⟨rfl, rfl⟩
  | cons pair rest ih =>
    obtain ⟨target, value⟩ := pair
    rw [declarePairs]
    split
    · next name literal hconstant =>
      obtain ⟨p, q, rfl, rfl, -⟩ := constant?_eq_some_iff.1 hconstant
      exact ih _
    · obtain ⟨hvalues, htargets⟩ := ih (declareTarget constants target)
      simp only [List.map_cons]
      rw [valuesFunctions, valuesFunctions, hvalues]
      cases target <;> simp [storesFunctions, htargets]

theorem functions_foldLocal (bound : List String) (root : Bool) (constants : Constants)
    (position : Position) (targets values : List Expr) :
    chunkFunctions (foldLocal bound root constants position targets values).1.toList =
      valuesFunctions values ++ storesFunctions targets := by
  unfold foldLocal
  split
  · next hpaired =>
    have hlength : targets.length = values.length := by
      simp only [Bool.and_eq_true, beq_iff_eq] at hpaired
      exact hpaired.1.2
    obtain ⟨hvalues, htargets⟩ := functions_declarePairs bound constants (targets.zip values)
    rw [List.map_fst_zip (Nat.le_of_eq hlength)] at htargets
    rw [List.map_snd_zip (Nat.le_of_eq hlength.symm)] at hvalues
    rw [← hvalues, ← htargets]
    rcases declarePairs bound constants (targets.zip values) with ⟨kept, known⟩
    cases kept <;> simp [chunkFunctions, Stat.functions, valuesFunctions, storesFunctions]
  · simp [chunkFunctions, Stat.functions]

/-! ### How many are left -/

mutual

theorem Expr.length_keeps : ∀ (e : Expr) (constants : Constants) (next : Nat),
    (e.keeps constants next).length = (e.fold constants).functions.length
  | .literal _ _, _, _ => by simp [Expr.keeps, Expr.fold, Expr.functions]
  | .var _ name, constants, _ => by
    rw [Expr.keeps, Expr.fold]
    cases constants.find? name <;> rfl
  | .function _ parameters body, constants, next => by
    simp [Expr.keeps, Expr.fold, Expr.functions, length_chunkKept body]
  | .table _ entries, constants, next => by
    simp [Expr.keeps, Expr.fold, Expr.functions, length_entriesKept entries]
  | .call _ callee arguments, constants, next => by
    simp [Expr.keeps, Expr.fold, Expr.functions, callee.length_keeps, length_valuesKept arguments]
  | .index _ table key, constants, next => by
    simp [Expr.keeps, Expr.fold, Expr.functions, table.length_keeps, key.length_keeps]
  | .group _ inner, constants, next => by
    simp [Expr.keeps, Expr.fold, Expr.functions, inner.length_keeps]
  | .binary _ operator lhs rhs, constants, next => by
    rw [Expr.keeps, Expr.fold, functions_foldBinary]
    split <;> simp [lhs.length_keeps, rhs.length_keeps]
  | .unary _ _ operand, constants, next => by
    rw [Expr.keeps, Expr.fold, functions_foldUnary, operand.length_keeps]

theorem length_valuesKept : ∀ (es : List Expr) (constants : Constants) (next : Nat),
    (valuesKept constants next es).length = (valuesFunctions (foldAll constants es)).length
  | [], _, _ => by simp [valuesKept, foldAll, valuesFunctions]
  | e :: rest, constants, next => by
    simp [valuesKept, foldAll, valuesFunctions, e.length_keeps, length_valuesKept rest]

theorem length_entriesKept : ∀ (es : List (Expr × Expr)) (constants : Constants) (next : Nat),
    (entriesKept constants next es).length = (entriesFunctions (foldEntries constants es)).length
  | [], _, _ => by simp [entriesKept, foldEntries, entriesFunctions]
  | (key, value) :: rest, constants, next => by
    simp [entriesKept, foldEntries, entriesFunctions, key.length_keeps, value.length_keeps,
      length_entriesKept rest]

theorem length_targetsKept : ∀ (es : List Expr) (constants : Constants) (next : Nat),
    (targetsKept constants next es).length = (storesFunctions (foldTargets constants es)).length
  | [], _, _ => by simp [targetsKept, foldTargets, storesFunctions]
  | e :: rest, constants, next => by
    cases e with
    | index position table key =>
      simp [targetsKept, foldTargets, storesFunctions, table.length_keeps, key.length_keeps,
        length_targetsKept rest]
    | _ => simp [targetsKept, foldTargets, storesFunctions, length_targetsKept rest]

theorem length_branchesKept (constants : Constants) (fs fs' : List FunctionLiteral)
    (last : List Nat) (hlast : last.length = fs'.length) :
    ∀ (es : List (Expr × List Stat)) (next : Nat),
    (branchesKept constants fs last next es).length =
      (branchesFunctions fs' (foldBranches constants es)).length
  | [], _ => by simp [branchesKept, foldBranches, branchesFunctions, hlast]
  | (condition, body) :: rest, next => by
    simp [branchesKept, foldBranches, branchesFunctions, condition.length_keeps,
      length_chunkKept body, length_branchesKept constants fs fs' last hlast rest]

theorem Stat.length_keeps : ∀ (s : Stat) (bound : List String) (root : Bool) (constants : Constants)
    (next : Nat), (s.keeps constants next).length =
      (chunkFunctions (s.fold bound root constants).1.toList).length
  | .expression e, bound, root, constants, next => by
    simp [Stat.keeps, Stat.fold, chunkFunctions, Stat.functions, e.length_keeps]
  | .assignment _ true targets values, bound, root, constants, next => by
    simp [Stat.keeps, Stat.fold, functions_foldLocal, length_valuesKept values]
  | .assignment _ false targets values, bound, root, constants, next => by
    simp [Stat.keeps, Stat.fold, chunkFunctions, Stat.functions, length_valuesKept values,
      length_targetsKept targets]
  | .declaration _, bound, root, constants, next => by
    simp [Stat.keeps, Stat.fold, chunkFunctions, Stat.functions]
  | .localFunction name function, bound, root, constants, next => by
    simp [Stat.keeps, Stat.fold, chunkFunctions, Stat.functions, function.length_keeps]
  | .conditional _ branches none, bound, root, constants, next => by
    simp [Stat.keeps, Stat.fold, chunkFunctions, Stat.functions,
      length_branchesKept constants [] [] [] rfl branches]
  | .conditional _ branches (some body), bound, root, constants, next => by
    simp [Stat.keeps, Stat.fold, chunkFunctions, Stat.functions,
      length_branchesKept constants _ _ _ (length_chunkKept body _ _ constants next) branches]
  | .whileLoop _ condition body, bound, root, constants, next => by
    simp [Stat.keeps, Stat.fold, chunkFunctions, Stat.functions, condition.length_keeps,
      length_chunkKept body]
  | .numericFor counter start stop none body, bound, root, constants, next => by
    simp [Stat.keeps, Stat.fold, chunkFunctions, Stat.functions, start.length_keeps,
      stop.length_keeps, length_chunkKept body]
  | .numericFor counter start stop (some step) body, bound, root, constants, next => by
    simp [Stat.keeps, Stat.fold, chunkFunctions, Stat.functions, start.length_keeps,
      stop.length_keeps, step.length_keeps, length_chunkKept body]
  | .genericFor _ names iterators body, bound, root, constants, next => by
    simp [Stat.keeps, Stat.fold, chunkFunctions, Stat.functions, length_valuesKept iterators,
      length_chunkKept body]
  | .repeatLoop _ body condition, bound, root, constants, next => by
    simp [Stat.keeps, Stat.fold, chunkFunctions, Stat.functions, condition.length_keeps,
      length_chunkKept body]
  | .block body, bound, root, constants, next => by
    simp [Stat.keeps, Stat.fold, chunkFunctions, Stat.functions, length_chunkKept body]
  | .result _ values, bound, root, constants, next => by
    simp [Stat.keeps, Stat.fold, chunkFunctions, Stat.functions, length_valuesKept values]
  | .leave _, bound, root, constants, next => by
    simp [Stat.keeps, Stat.fold, chunkFunctions, Stat.functions]

theorem length_chunkKept : ∀ (body : List Stat) (bound : List String) (root : Bool)
    (constants : Constants) (next : Nat), (chunkKept bound root constants next body).length =
      (chunkFunctions (foldStats bound root constants body).1).length
  | [], _, _, _, _ => by simp [chunkKept, foldStats, chunkFunctions]
  | s :: rest, bound, root, constants, next => by
    rw [chunkKept, foldStats, chunkFunctions_append]
    simp [s.length_keeps bound root, length_chunkKept rest]

end

/-! ### Which ones are left -/

/-- Numbers of two parts of a piece of syntax, one behind the other. -/
theorem sublist_numbers {next : Nat} {ks ls : List Nat} {fs gs : List FunctionLiteral}
    (hks : ks.Sublist (List.range' next fs.length))
    (hls : ls.Sublist (List.range' (next + fs.length) gs.length)) :
    (ks ++ ls).Sublist (List.range' next (fs ++ gs).length) := by
  rw [List.length_append, ← List.range'_append_1]
  exact hks.append hls

mutual

theorem Expr.keeps_sublist : ∀ (e : Expr) (constants : Constants) (next : Nat),
    (e.keeps constants next).Sublist (List.range' next e.functions.length)
  | .literal _ _, _, _ => .refl _
  | .var _ name, constants, _ => .refl _
  | .function _ parameters body, constants, next => by
    rw [Expr.keeps, Expr.functions, List.length_cons, List.range'_succ]
    exact (chunkKept_sublist body _ _ _ (next + 1)).cons_cons next
  | .table _ entries, constants, next => entriesKept_sublist entries constants next
  | .call _ callee arguments, constants, next =>
    sublist_numbers (valuesKept_sublist arguments constants next) (callee.keeps_sublist constants _)
  | .index _ table key, constants, next =>
    sublist_numbers (key.keeps_sublist constants next) (table.keeps_sublist constants _)
  | .group _ inner, constants, next => inner.keeps_sublist constants next
  | .binary _ operator lhs rhs, constants, next => by
    rw [Expr.keeps, Expr.functions]
    refine sublist_numbers ?_ (lhs.keeps_sublist constants _)
    split
    · exact List.nil_sublist _
    · exact rhs.keeps_sublist constants next
  | .unary _ _ operand, constants, next => operand.keeps_sublist constants next

theorem valuesKept_sublist : ∀ (es : List Expr) (constants : Constants) (next : Nat),
    (valuesKept constants next es).Sublist (List.range' next (valuesFunctions es).length)
  | [], _, _ => .refl _
  | e :: rest, constants, next =>
    sublist_numbers (e.keeps_sublist constants next) (valuesKept_sublist rest constants _)

theorem entriesKept_sublist : ∀ (es : List (Expr × Expr)) (constants : Constants) (next : Nat),
    (entriesKept constants next es).Sublist (List.range' next (entriesFunctions es).length)
  | [], _, _ => .refl _
  | (key, value) :: rest, constants, next => by
    rw [entriesKept, entriesFunctions]
    refine sublist_numbers (sublist_numbers (entriesKept_sublist rest constants next)
      (value.keeps_sublist constants _)) ?_
    rw [List.length_append, ← Nat.add_assoc]
    exact key.keeps_sublist constants _

theorem targetsKept_sublist : ∀ (es : List Expr) (constants : Constants) (next : Nat),
    (targetsKept constants next es).Sublist (List.range' next (storesFunctions es).length)
  | [], _, _ => .refl _
  | e :: rest, constants, next => by
    have hrest := targetsKept_sublist rest constants next
    cases e with
    | index position table key =>
      rw [targetsKept, storesFunctions]
      refine sublist_numbers (sublist_numbers hrest (table.keeps_sublist constants _)) ?_
      rw [List.length_append, ← Nat.add_assoc]
      exact key.keeps_sublist constants _
    | _ =>
      simp only [targetsKept, storesFunctions]
      exact hrest

theorem branchesKept_sublist (constants : Constants) (fs : List FunctionLiteral)
    (last : List Nat) : ∀ (es : List (Expr × List Stat)) (next : Nat),
    last.Sublist (List.range' next fs.length) →
    (branchesKept constants fs last next es).Sublist
      (List.range' next (branchesFunctions fs es).length)
  | [], _, hlast => hlast
  | (condition, body) :: rest, next, hlast => by
    rw [branchesKept, branchesFunctions]
    refine sublist_numbers (sublist_numbers (branchesKept_sublist constants fs last rest next hlast)
      (chunkKept_sublist body _ _ constants _)) ?_
    rw [List.length_append, ← Nat.add_assoc]
    exact condition.keeps_sublist constants _

theorem Stat.keeps_sublist : ∀ (s : Stat) (constants : Constants) (next : Nat),
    (s.keeps constants next).Sublist (List.range' next s.functions.length)
  | .expression e, constants, next => e.keeps_sublist constants next
  | .assignment _ true targets values, constants, next =>
    sublist_numbers (valuesKept_sublist values constants next) (.refl _)
  | .assignment _ false targets values, constants, next =>
    sublist_numbers (valuesKept_sublist values constants next)
      (targetsKept_sublist targets constants _)
  | .declaration _, _, _ => .refl _
  | .localFunction name function, constants, next => function.keeps_sublist _ next
  | .conditional _ branches none, constants, next =>
    branchesKept_sublist constants [] [] branches next (.refl _)
  | .conditional _ branches (some body), constants, next =>
    branchesKept_sublist constants _ _ branches next (chunkKept_sublist body _ _ constants next)
  | .whileLoop _ condition body, constants, next =>
    sublist_numbers (chunkKept_sublist body _ _ constants next)
      (condition.keeps_sublist constants _)
  | .numericFor counter start stop none body, constants, next => by
    rw [Stat.keeps, Stat.functions]
    refine sublist_numbers (sublist_numbers (chunkKept_sublist body _ _ _ next)
      (stop.keeps_sublist constants _)) ?_
    rw [List.length_append, ← Nat.add_assoc]
    exact start.keeps_sublist constants _
  | .numericFor counter start stop (some step) body, constants, next => by
    rw [Stat.keeps, Stat.functions]
    refine sublist_numbers (sublist_numbers (sublist_numbers (chunkKept_sublist body _ _ _ next)
      (step.keeps_sublist constants _)) ?_) ?_
    · rw [List.length_append, ← Nat.add_assoc]
      exact stop.keeps_sublist constants _
    · rw [List.length_append, List.length_append, ← Nat.add_assoc, ← Nat.add_assoc]
      exact start.keeps_sublist constants _
  | .genericFor _ names iterators body, constants, next =>
    sublist_numbers (chunkKept_sublist body _ _ _ next) (valuesKept_sublist iterators constants _)
  | .repeatLoop _ body condition, constants, next =>
    sublist_numbers (chunkKept_sublist body _ _ constants next) (condition.keeps_sublist _ _)
  | .block body, constants, next => chunkKept_sublist body _ _ constants next
  | .result _ values, constants, next => valuesKept_sublist values constants next
  | .leave _, _, _ => .refl _

theorem chunkKept_sublist : ∀ (body : List Stat) (bound : List String) (root : Bool)
    (constants : Constants) (next : Nat), (chunkKept bound root constants next body).Sublist
      (List.range' next (chunkFunctions body).length)
  | [], _, _, _, _ => .refl _
  | s :: rest, bound, root, constants, next =>
    sublist_numbers (s.keeps_sublist constants next) (chunkKept_sublist rest bound root _ _)

end

end ScriptEngine
