import ScriptEngine.Proofs.Compilation.Expressions
import ScriptEngine.Proofs.Transparency.Simulation

/-!
# Folded expressions

Evaluations of expressions do in the folded program what they do in the plain one if all that is
nested less deeply does.

## Main results

* `Twins.simulatesExpr_succ`, `Twins.simulatesCallExpr_succ`, `Twins.simulatesValues_succ`,
  `Twins.simulatesEntries_succ` — one level of nesting more.
-/

namespace ScriptEngine

open Node

namespace Twins

variable {t : Twins} {n : Nat} {top : Option ScopeRef} {blocks : Blocks} {s s' : Store}

theorem knownValue_toValue (literal : Literal) : t.KnownValue blocks s literal.toValue := by
  cases literal <;> trivial

/-- What becomes a literal has that literal as its value, so that nothing is left to be done of it
in the folded program. -/
theorem Mirrors.literal_bind {β : Type} {after : β → β} {goal : Blocks → Store → β → Prop}
    {x : Eval Value} {f : Value → Eval β} {y : Eval β} {literal : Literal}
    (hx : t.Mirrors (Value.moved t.place) t.KnownValue top blocks s (x s)
      ((Pure.pure literal.toValue : Eval Value) s'))
    (hf : ∀ blocks₁ s₁, t.Leads top blocks s blocks₁ s₁ s' →
      t.Mirrors after goal top blocks₁ s₁ (f literal.toValue s₁) (y s')) :
    t.Mirrors after goal top blocks s ((x >>= f) s) (y s') := by
  change t.Mirrors after goal top blocks s (EStateM.bind x f s) (y s')
  rw [EStateM.bind]
  cases hrun : x s with
  | ok v s₁ =>
    rw [hrun] at hx
    obtain ⟨blocks₁, s₁', hr', hleads, -⟩ := hx
    injection hr' with hvalue hstore
    subst hstore
    obtain rfl := Value.moved_eq_toValue hvalue.symm
    exact .of_leads hleads (hf blocks₁ s₁ hleads)
  | error e s₁ =>
    rw [hrun] at hx
    rcases e with _ | e | _
    · trivial
    · obtain ⟨blocks₁, s₁', hr', -⟩ := hx
      cases hr'
    · trivial

/-- A table is made in both programs. -/
theorem Mirrors.newTable (h : t.At blocks s s') :
    t.Mirrors id NothingKnown top blocks s (Eval.newTable s) (Eval.newTable s') := by
  obtain ⟨href, hat⟩ := h.newTable Table.known_empty
  rw [Table.moved_empty] at href hat
  refine ⟨blocks, (s'.newTable .empty).2, ?_, hat.leads rfl, trivial⟩
  rw [Eval.newTable, href]
  rfl

/-! ### Operators -/

/-- What an operator that needs both of its operands is folded to: what it makes of two literals, or
itself. -/
theorem cases_foldStrict (position : Position) (operator : StrictOperator) (lhs rhs : Expr) :
    foldBinary position (.strict operator) lhs rhs = .binary position (.strict operator) lhs rhs ∨
      ∃ p q a b value, lhs = .literal p a ∧ rhs = .literal q b ∧
        Store.empty.binary operator a.toValue b.toValue = .ok value.toValue ∧
        foldBinary position (.strict operator) lhs rhs = .literal p value := by
  cases hlhs : lhs.literal? with
  | none => exact .inl (by rw [foldBinary, hlhs])
  | some a =>
    cases hrhs : rhs.literal? with
    | none => exact .inl (by simp only [foldBinary, hlhs, hrhs])
    | some b =>
      cases hresult : Store.empty.binary operator a.toValue b.toValue with
      | error c => exact .inl (by simp only [foldBinary, hlhs, hrhs, hresult])
      | ok v =>
        obtain ⟨p, rfl⟩ := Expr.eq_literal hlhs
        obtain ⟨q, rfl⟩ := Expr.eq_literal hrhs
        obtain ⟨value, hvalue⟩ := Store.exists_toLiteral?_binary hresult
        refine .inr ⟨p, q, a, b, value, rfl, rfl, ?_, ?_⟩
        · rw [hresult, Value.toValue_of_toLiteral? hvalue]
        · simp only [foldBinary, hlhs, hrhs, hresult, hvalue, Expr.position]

/-- What an operator in front of an operand is folded to: what it makes of a literal, or itself. -/
theorem cases_foldPrefix (position : Position) (operator : UnaryOperator) (operand : Expr) :
    foldUnary position operator operand = .unary position operator operand ∨
      ∃ p a value, operand = .literal p a ∧
        Store.empty.unary operator a.toValue = .ok value.toValue ∧
        foldUnary position operator operand = .literal p value := by
  cases hoperand : operand.literal? with
  | none => exact .inl (by rw [foldUnary, hoperand])
  | some a =>
    cases hresult : Store.empty.unary operator a.toValue with
    | error c => exact .inl (by simp only [foldUnary, hoperand, hresult])
    | ok v =>
      obtain ⟨p, rfl⟩ := Expr.eq_literal hoperand
      obtain ⟨value, hvalue⟩ := Store.exists_toLiteral?_unary hresult
      refine .inr ⟨p, a, value, rfl, ?_, ?_⟩
      · rw [hresult, Value.toValue_of_toLiteral? hvalue]
      · simp only [foldUnary, hoperand, hresult, hvalue, Expr.position]

/-- What an operator makes of values is no function. -/
theorem binary_map_moved (place : Nat → Nat) (s : Store) (operator : StrictOperator) (a b : Value) :
    (s.binary operator a b).map (Value.moved place) = s.binary operator a b := by
  have hharmless := harmless_binary (E := fun _ _ => False) s operator a b
  cases hresult : s.binary operator a b with
  | error c => rfl
  | ok v =>
    rw [hresult] at hharmless
    exact congrArg Except.ok (Value.moved_of_known hharmless)

theorem unary_map_moved (place : Nat → Nat) (s : Store) (operator : UnaryOperator) (a : Value) :
    (s.unary operator a).map (Value.moved place) = s.unary operator a := by
  have hharmless := harmless_unary (E := fun _ _ => False) s operator a
  cases hresult : s.unary operator a with
  | error c => rfl
  | ok v =>
    rw [hresult] at hharmless
    exact congrArg Except.ok (Value.moved_of_known hharmless)

theorem known_binary {E : Functions} {operator : StrictOperator} {a b v : Value}
    (h : s.binary operator a b = .ok v) : v.Known E := by
  have hharmless := harmless_binary (E := E) s operator a b
  rwa [h] at hharmless

theorem known_unary {E : Functions} {operator : UnaryOperator} {a v : Value}
    (h : s.unary operator a = .ok v) : v.Known E := by
  have hharmless := harmless_unary (E := E) s operator a
  rwa [h] at hharmless

section

variable {n' m : Nat} {constants : Constants} {c : Context} {places' : List Nat} {next next' : Nat}
  {position : Position} {lhs rhs operand : Expr}

theorem simulates_strict (aligned : t.Aligned) (ih : t.Simulates n) {operator : StrictOperator}
    (hm : n ≤ m) (hat : t.At blocks s s')
    (hscene : Scene constants blocks s.scopes.size c.reach
      (expr (.binary position (.strict operator) lhs rhs)))
    (hsafe : lhs.FoldsSafely constants ∧ rhs.FoldsSafely constants)
    (hlinked : t.Linked c.places places' next next' (rhs.functions ++ lhs.functions)
      ((rhs.fold constants).functions ++ (lhs.fold constants).functions)
      (rhs.keeps constants next ++ lhs.keeps constants (next + rhs.functions.length))) :
    t.Mirrors (Value.moved t.place) t.KnownValue none blocks s
      (evalExpr t.plain (n + 1) c next (.binary position (.strict operator) lhs rhs) s)
      (evalExpr t.folded (m + 1) (c.placed places') next'
        (foldBinary position (.strict operator) (lhs.fold constants) (rhs.fold constants)) s') := by
  have hright := hscene.of_expr rhs (by simp [children])
  have hleft := hscene.of_expr lhs (by simp [children])
  have hbehind := hlinked.right (rhs.length_keeps constants next)
  simp only [evalExpr]
  rcases cases_foldStrict position operator (lhs.fold constants) (rhs.fold constants) with
    hfold | ⟨p, q, a, b, value, hlhs, hrhs, hresult, hfold⟩
  · rw [hfold]
    simp only [evalExpr]
    refine (ih.expr hm hat hright hsafe.2 hlinked.left).bind
      fun right blocks₁ s₁ s₁' hleads₁ _ => ?_
    refine (ih.expr hm hleads₁.arrived (hleft.grows hleads₁.grows) hsafe.1 hbehind).bind
      fun left blocks₂ s₂ s₂' hleads₂ _ => ?_
    refine .read (.located hleads₂.arrived ?_ fun v hv => known_binary hv)
    rw [Store.binary_moved aligned.apart hleads₂.arrived.alike.tables, binary_map_moved]
  · -- Both operands are literals, so that nothing happens in the folded program.
    rw [hfold]
    have hvalues := ih.expr (Nat.le_succ_of_le hm) hat hright hsafe.2 hlinked.left
    rw [hrhs] at hvalues hbehind
    simp only [evalExpr] at hvalues ⊢
    refine .literal_bind hvalues fun blocks₁ s₁ hleads₁ => ?_
    have hvalues := ih.expr (Nat.le_succ_of_le hm) hleads₁.arrived (hleft.grows hleads₁.grows)
      hsafe.1 hbehind
    rw [hlhs] at hvalues
    simp only [evalExpr] at hvalues
    refine .literal_bind hvalues fun blocks₂ s₂ hleads₂ => ?_
    change t.Mirrors _ _ _ _ _
      (Eval.located position (s₂.binary operator a.toValue b.toValue) s₂) _
    rw [Store.binary_literals s₂ Store.empty, hresult]
    exact .pure hleads₂.arrived (Value.moved_toValue value).symm (knownValue_toValue value)

theorem simulates_unary (ih : t.Simulates n) {operator : UnaryOperator}
    (hm : n ≤ m) (hat : t.At blocks s s')
    (hscene : Scene constants blocks s.scopes.size c.reach
      (expr (.unary position operator operand)))
    (hsafe : operand.FoldsSafely constants)
    (hlinked : t.Linked c.places places' next next' operand.functions
      (operand.fold constants).functions (operand.keeps constants next)) :
    t.Mirrors (Value.moved t.place) t.KnownValue none blocks s
      (evalExpr t.plain (n + 1) c next (.unary position operator operand) s)
      (evalExpr t.folded (m + 1) (c.placed places') next'
        (foldUnary position operator (operand.fold constants)) s') := by
  have hinner := hscene.of_expr operand (by simp [children])
  simp only [evalExpr]
  rcases cases_foldPrefix position operator (operand.fold constants) with
    hfold | ⟨p, a, value, hoperand, hresult, hfold⟩
  · rw [hfold]
    simp only [evalExpr]
    refine (ih.expr hm hat hinner hsafe hlinked).bind fun v blocks₁ s₁ s₁' hleads _ => ?_
    refine .read (.located hleads.arrived ?_ fun v hv => known_unary hv)
    rw [Store.unary_moved hleads.arrived.alike.tables, unary_map_moved]
  · rw [hfold]
    have hvalues := ih.expr (Nat.le_succ_of_le hm) hat hinner hsafe hlinked
    rw [hoperand] at hvalues
    simp only [evalExpr] at hvalues ⊢
    refine .literal_bind hvalues fun blocks₁ s₁ hleads => ?_
    change t.Mirrors _ _ _ _ _ (Eval.located position (s₁.unary operator a.toValue) s₁) _
    rw [Store.unary_literal s₁ Store.empty, hresult]
    exact .pure hleads.arrived (Value.moved_toValue value).symm (knownValue_toValue value)

/-- The operator that goes on with its second operand if the first one counts as `truth`. -/
def shortcut (truth : Bool) : BinaryOperator := if truth then .and else .or

theorem evalExpr_shortcut (w : World) (truth : Bool) :
    evalExpr w (n + 1) c next (.binary position (shortcut truth) lhs rhs) = (do
      let left ← evalExpr w n c (next + rhs.functions.length) lhs
      if left.isTruthy = truth then evalExpr w n c next rhs else pure left) := by
  cases truth with
  | true => simp only [shortcut, if_true, evalExpr]
  | false =>
    simp only [shortcut, Bool.false_eq_true, if_false, evalExpr]
    congr 1
    funext left
    cases left.isTruthy <;> rfl

theorem foldBinary_shortcut (position : Position) (truth : Bool) (rhs : Expr)
    (h : lhs.literal? = none) :
    foldBinary position (shortcut truth) lhs rhs = .binary position (shortcut truth) lhs rhs ∧
      skipsRight (shortcut truth) lhs = false := by
  cases truth <;> simp [shortcut, foldBinary, skipsRight, h]

theorem foldBinary_shortcut_literal (position : Position) (truth : Bool) (rhs : Expr) (p : Position)
    (a : Literal) :
    foldBinary position (shortcut truth) (.literal p a) rhs =
        (if a.toValue.isTruthy = truth then rhs else .literal p a) ∧
      skipsRight (shortcut truth) (.literal p a) = decide (a.toValue.isTruthy ≠ truth) := by
  cases truth <;> cases h : a.toValue.isTruthy <;>
    simp [shortcut, foldBinary, skipsRight, Expr.literal?, h]

theorem simulates_shortcut (ih : t.Simulates n) (truth : Bool) (hm : n ≤ m) (hat : t.At blocks s s')
    (hscene : Scene constants blocks s.scopes.size c.reach
      (expr (.binary position (shortcut truth) lhs rhs)))
    (hsafe : lhs.FoldsSafely constants ∧ rhs.FoldsSafely constants)
    (hlinked : t.Linked c.places places' next next' (rhs.functions ++ lhs.functions)
      ((if skipsRight (shortcut truth) (lhs.fold constants) then [] else
        (rhs.fold constants).functions) ++ (lhs.fold constants).functions)
      ((if skipsRight (shortcut truth) (lhs.fold constants) then []
        else rhs.keeps constants next) ++
        lhs.keeps constants (next + rhs.functions.length))) :
    t.Mirrors (Value.moved t.place) t.KnownValue none blocks s
      (evalExpr t.plain (n + 1) c next (.binary position (shortcut truth) lhs rhs) s)
      (evalExpr t.folded (m + 1) (c.placed places') next'
        (foldBinary position (shortcut truth) (lhs.fold constants) (rhs.fold constants)) s') := by
  have hright := hscene.of_expr rhs (by simp [children])
  have hleft := hscene.of_expr lhs (by simp [children])
  rw [evalExpr_shortcut]
  cases hliteral : (lhs.fold constants).literal? with
  | none =>
    obtain ⟨hfold, hskips⟩ := foldBinary_shortcut position truth (rhs.fold constants) hliteral
    simp only [hskips, Bool.false_eq_true, if_false] at hlinked
    rw [hfold, evalExpr_shortcut]
    refine (ih.expr hm hat hleft hsafe.1 (hlinked.right (rhs.length_keeps constants next))).bind
      fun left blocks₁ s₁ s₁' hleads hknown => ?_
    rw [Value.isTruthy_moved]
    split
    · exact ih.expr hm hleads.arrived (hright.grows hleads.grows) hsafe.2 hlinked.left
    · exact .pure hleads.arrived rfl hknown
  | some a =>
    -- The first operand is a literal, so that it alone decides how to go on.
    obtain ⟨p, hlhs⟩ := Expr.eq_literal hliteral
    rw [hlhs] at hlinked ⊢
    obtain ⟨hfold, hskips⟩ := foldBinary_shortcut_literal position truth (rhs.fold constants) p a
    rw [hfold]
    rw [hskips] at hlinked
    by_cases htruth : a.toValue.isTruthy = truth
    · simp only [htruth, ne_eq, not_true_eq_false, decide_false, Bool.false_eq_true,
        if_false] at hlinked
      have hbehind := hlinked.right (rhs.length_keeps constants next)
      rw [← hlhs] at hbehind
      have hvalues := ih.expr (Nat.le_succ_of_le hm) hat hleft hsafe.1 hbehind
      rw [hlhs] at hvalues
      simp only [evalExpr] at hvalues
      rw [if_pos htruth]
      refine .literal_bind hvalues fun blocks₁ s₁ hleads => ?_
      rw [if_pos htruth]
      exact ih.expr (Nat.le_succ_of_le hm) hleads.arrived (hright.grows hleads.grows) hsafe.2
        hlinked.left
    · simp only [htruth, ne_eq, not_false_eq_true, decide_true, if_true] at hlinked
      have hbehind := hlinked.right rfl
      rw [← hlhs] at hbehind
      have hvalues := ih.expr (Nat.le_succ_of_le hm) hat hleft hsafe.1 hbehind
      rw [hlhs] at hvalues
      simp only [evalExpr] at hvalues
      rw [if_neg htruth]
      simp only [evalExpr]
      refine .literal_bind hvalues fun blocks₁ s₁ hleads => ?_
      rw [if_neg htruth]
      exact .pure hleads.arrived (Value.moved_toValue a).symm (knownValue_toValue a)

end

/-! ### Expressions and calls -/

/-- A function literal of both programs. -/
theorem simulates_function {constants : Constants} {c : Context} {places' : List Nat}
    {next next' : Nat} {position : Position} {parameters : List Identifier} {body : List Stat}
    (hscene : Scene constants blocks s.scopes.size c.reach
      (expr (.function position parameters body)))
    (hsafe : (Expr.function position parameters body).FoldsSafely constants)
    (hlinked : t.Linked c.places places' next next'
      (Expr.function position parameters body).functions
      ((Expr.function position parameters body).fold constants).functions
      ((Expr.function position parameters body).keeps constants next)) :
    (c.placed places').entry next' = t.place (c.entry next) ∧
      t.KnownValue blocks s (.function (c.entry next) c.reach) := by
  simp only [Expr.functions, Expr.fold, Expr.keeps] at hlinked
  have hentry : entryAt places' next' = t.place (entryAt c.places next) := hlinked.moves 0 next rfl
  refine ⟨hentry, ⟨⟨position, parameters, body⟩, next, c.places⟩, ⟨⟨position, parameters, _⟩, next',
    places'⟩, constants, hlinked.plain 0 _ rfl, ?_, ⟨rfl, ?_, hsafe, hscene⟩⟩
  · have hlookup := hlinked.folded 0 _ rfl
    rw [Nat.add_zero, hentry] at hlookup
    exact hlookup
  · exact hlinked.tail

theorem simulatesExpr_succ (aligned : t.Aligned) (ih : t.Simulates n) :
    t.SimulatesExpr (n + 1) := by
  intro n' constants blocks c places' next next' e s s' hn hat hscene hsafe hlinked
  obtain ⟨m, rfl, hm⟩ := exists_succ_of_le hn
  cases e with
  | literal position value =>
    simp only [Expr.fold, evalExpr]
    exact .pure hat (Value.moved_toValue value).symm (knownValue_toValue value)
  | var position name =>
    have hfits := hscene.fits name ⟨position, .here⟩
    simp only [Expr.fold, evalExpr]
    cases hfind : constants.find? name with
    | some literal =>
      obtain ⟨ref, href, hgone⟩ := hfits.known literal hfind
      have hread := hat.alike.read_of_gone hscene.shaded href hgone
      simp only [evalExpr]
      refine .pure (a := s.read c.reach name) hat ?_ ?_
      · rw [hread, Value.moved_toValue]
      · rw [hread]
        exact knownValue_toValue literal
    | none =>
      simp only [evalExpr]
      exact .pure hat (hat.alike.read (hfits.unknown hfind)) (hat.known.read c.reach name)
  | function position parameters body =>
    obtain ⟨hentry, hknown⟩ := simulates_function hscene hsafe hlinked
    simp only [Expr.fold, evalExpr]
    exact .pure hat (congrArg (Value.function · c.reach) hentry) hknown
  | table position entries =>
    simp only [Expr.fold, evalExpr, Expr.functions, Expr.keeps, Expr.FoldsSafely] at hsafe hlinked ⊢
    refine (Mirrors.newTable hat).bind fun ref blocks₁ s₁ s₁' hleads₁ _ => ?_
    have hentries : ∀ e ∈ entries, Scene constants blocks₁ s₁.scopes.size c.reach (expr e.1) ∧
        Scene constants blocks₁ s₁.scopes.size c.reach (expr e.2) := fun e he =>
      ⟨(hscene.of_child (List.mem_flatMap_of_mem he (by simp))).grows hleads₁.grows,
        (hscene.of_child (List.mem_flatMap_of_mem he (by simp))).grows hleads₁.grows⟩
    refine (ih.entries hm hleads₁.arrived hentries hsafe hlinked).bind
      fun pairs blocks₂ s₂ s₂' hleads₂ hpairs => ?_
    refine (Mirrors.putPairs hleads₂.arrived position ref hpairs).bind
      fun _ blocks₃ s₃ s₃' hleads₃ _ => ?_
    exact .pure hleads₃.arrived rfl trivial
  | call position callee arguments =>
    have hcall := ih.callExpr hm hat hscene hsafe hlinked
    simp only [Expr.fold, evalExpr]
    refine hcall.bind fun results blocks₁ s₁ s₁' hleads hresults => ?_
    exact .pure hleads.arrived (headD_map_moved results) hresults.headD
  | index position table key =>
    have hkey := hscene.of_expr key (by simp [children])
    have htable := hscene.of_expr table (by simp [children])
    simp only [Expr.fold, evalExpr, Expr.functions, Expr.keeps, Expr.FoldsSafely] at hsafe hlinked ⊢
    refine (ih.expr hm hat hkey hsafe.2 hlinked.left).bind
      fun key' blocks₁ s₁ s₁' hleads₁ _ => ?_
    refine (ih.expr hm hleads₁.arrived (htable.grows hleads₁.grows) hsafe.1
      (hlinked.right (key.length_keeps constants next))).bind
        fun table' blocks₂ s₂ s₂' hleads₂ _ => ?_
    exact .read (.located hleads₂.arrived (hleads₂.arrived.alike.index table' key')
      fun v hv => hleads₂.arrived.known.index hv)
  | group position inner =>
    simp only [Expr.fold, evalExpr, Expr.functions, Expr.keeps, Expr.FoldsSafely] at hsafe hlinked ⊢
    exact ih.expr hm hat (hscene.of_child (by simp [children])) hsafe hlinked
  | binary position operator lhs rhs =>
    simp only [Expr.fold, Expr.functions, functions_foldBinary, Expr.keeps, Expr.FoldsSafely]
      at hsafe hlinked ⊢
    cases operator with
    | strict operator => exact simulates_strict aligned ih hm hat hscene hsafe hlinked
    | and => exact simulates_shortcut ih true hm hat hscene hsafe hlinked
    | or => exact simulates_shortcut ih false hm hat hscene hsafe hlinked
  | unary position operator operand =>
    simp only [Expr.fold, Expr.functions, functions_foldUnary, Expr.keeps, Expr.FoldsSafely]
      at hsafe hlinked ⊢
    exact simulates_unary ih hm hat hscene hsafe hlinked

theorem simulatesCallExpr_succ (ih : t.Simulates n) : t.SimulatesCallExpr (n + 1) := by
  intro n' constants blocks c places' next next' position callee arguments s s' hn hat hscene hsafe
    hlinked
  obtain ⟨m, rfl, hm⟩ := exists_succ_of_le hn
  have hcallee := hscene.of_expr callee (by simp [children])
  have harguments : ∀ e ∈ arguments, Scene constants blocks s.scopes.size c.reach (expr e) :=
    fun e he => hscene.of_child (List.mem_cons_of_mem _ (List.mem_map_of_mem he))
  simp only [Expr.fold, Expr.functions, Expr.keeps, Expr.FoldsSafely, evalCallExpr]
    at hsafe hlinked ⊢
  refine (ih.values hm hat harguments hsafe.2 hlinked.left).bind
    fun values blocks₁ s₁ s₁' hleads₁ hvalues => ?_
  refine (ih.expr hm hleads₁.arrived (hcallee.grows hleads₁.grows) hsafe.1
    (hlinked.right (length_valuesKept arguments constants next))).bind
      fun function blocks₂ s₂ s₂' hleads₂ hfunction => ?_
  exact ih.call hm hleads₂.arrived hfunction (KnownValues.leads hvalues hleads₂)

/-! ### Lists of expressions and entries of tables -/

theorem simulatesValues_succ (ih : t.Simulates n) : t.SimulatesValues (n + 1) := by
  intro n' constants blocks c places' next next' es s s' hn hat hscene hsafe hlinked
  obtain ⟨m, rfl, hm⟩ := exists_succ_of_le hn
  cases es with
  | nil =>
    simp only [foldAll, evalValues]
    exact .pure hat rfl .nil
  | cons e rest =>
    obtain ⟨he, hrest⟩ := List.forall_mem_cons.1 hscene
    simp only [valuesFoldSafely, valuesFunctions, foldAll, valuesKept] at hsafe hlinked ⊢
    by_cases hcons : rest ≠ [] ∨ e.isCall = false
    · have hcons' : foldAll constants rest ≠ [] ∨ (e.fold constants).isCall = false := by
        cases rest with
        | nil =>
          rcases hcons with hcons | hcall
          · exact absurd rfl hcons
          · exact .inr ((hsafe.2.1 rfl).trans hcall)
        | cons f rest => exact .inl (by simp [foldAll])
      rw [Setting.evalValues_cons hcons, Setting.evalValues_cons hcons']
      refine (ih.expr hm hat he hsafe.1 hlinked.left).bind
        fun first blocks₁ s₁ s₁' hleads₁ hfirst => ?_
      refine (ih.values hm hleads₁.arrived (fun f hf => (hrest f hf).grows hleads₁.grows) hsafe.2.2
        (hlinked.right (e.length_keeps constants next))).bind
          fun others blocks₂ s₂ s₂' hleads₂ hothers => ?_
      exact .pure hleads₂.arrived rfl (.cons (KnownValue.leads hfirst hleads₂) hothers)
    · -- A call at the end has all of its results, and is still a call.
      obtain ⟨hnil, hcall⟩ := not_or.1 hcons
      obtain rfl : rest = [] := not_not.1 hnil
      cases e with
      | call position callee arguments =>
        simp only [valuesFunctions, foldAll, valuesKept, List.append_nil] at hlinked
        have hresults := ih.callExpr hm hat he hsafe.1 hlinked
        simp only [Expr.fold, foldAll, evalValues]
        exact hresults
      | _ => exact absurd rfl hcall

theorem simulatesEntries_succ (ih : t.Simulates n) : t.SimulatesEntries (n + 1) := by
  intro n' constants blocks c places' next next' es s s' hn hat hscene hsafe hlinked
  obtain ⟨m, rfl, hm⟩ := exists_succ_of_le hn
  cases es with
  | nil =>
    simp only [foldEntries, evalEntries]
    exact .pure hat rfl (List.forall_mem_nil _)
  | cons entry rest =>
    obtain ⟨key, value⟩ := entry
    obtain ⟨⟨hkey, hvalue⟩, hrest⟩ := List.forall_mem_cons.1 hscene
    simp only [entriesFoldSafely, entriesFunctions, foldEntries, entriesKept, evalEntries]
      at hsafe hlinked ⊢
    have hlengthRest := length_entriesKept rest constants next
    have hlengthValue := value.length_keeps constants (next + (entriesFunctions rest).length)
    have hlinkedKey := hlinked.right (by simp [hlengthRest, hlengthValue])
    simp only [List.length_append, ← Nat.add_assoc] at hlinkedKey
    refine (ih.entries hm hat hrest hsafe.2.2 hlinked.left.left).bind
      fun others blocks₁ s₁ s₁' hleads₁ hothers => ?_
    refine (ih.expr hm hleads₁.arrived (hvalue.grows hleads₁.grows) hsafe.2.1
      (hlinked.left.right hlengthRest)).bind fun value' blocks₂ s₂ s₂' hleads₂ hvalue' => ?_
    refine (ih.expr hm hleads₂.arrived ((hkey.grows hleads₁.grows).grows hleads₂.grows) hsafe.1
      hlinkedKey).bind fun key' blocks₃ s₃ s₃' hleads₃ hkey' => ?_
    refine .pure hleads₃.arrived rfl (List.forall_mem_cons.2 ⟨⟨hkey', ?_⟩, ?_⟩)
    · exact KnownValue.leads hvalue' hleads₃
    · exact (KnownPairs.leads hothers hleads₂).leads hleads₃

end Twins

end ScriptEngine
