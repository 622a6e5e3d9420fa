import Mathlib.Logic.Function.Iterate
import ScriptEngine.Proofs.Syntax.Bindings

/-!
# Folding again

A first pass may leave a declaration of a literal that a second one removes: a name that is bound
twice in a block is bound once there after the first pass has removed one of the two.  A pass that
removes no declaration changes nothing, and every pass that does removes a binding, so that the
passes come to an end.

## Main definitions

* `Node.Rests` — a node that a pass leaves as it is.
* `Node.InsideOf` — what is in a text.
* `Expr.RestsUncut`, `Stat.RestsUncut` — what rests if folding loses no binding of it.

## Main results

* `foldStats_eq_self` — statements that rest are folded to themselves.
* `rests_of_length_foldStats` — statements that lose no binding rest.
* `optimize_optimize` — **when a second pass changes nothing**, and how many passes it takes until
  nothing changes.
-/

namespace ScriptEngine

open Node

/-! ### Nodes that rest -/

/-- A node that a pass leaves as it is. -/
structure Node.Rests (n : Node) : Prop extends n.Settled where
  kept : ¬ n.Replaceable

/-- A node is in a text, other than the text itself. -/
def Node.InsideOf (text : Chunk) (n : Node) : Prop :=
  ∃ child ∈ (chunk text).children, n.Within child

theorem Node.All.kept {body : Chunk} (h : (chunk body).All Rests) :
    ∀ s ∈ body, ¬ s.Replaceable (boundNames body) :=
  fun s hs hreplaceable => h.self.kept ⟨s, hs, hreplaceable⟩

/-! ### Passes that change nothing -/

/-- Nothing is known to stand for a literal. -/
def Constants.Blank (constants : Constants) : Prop := ∀ name, constants.find? name = none

namespace Constants

variable {constants : Constants}

theorem Blank.cons (h : constants.Blank) (name : String) : Blank ((name, none) :: constants) := by
  intro n
  rw [find?]
  split
  · rfl
  · exact h n

theorem Blank.shadow (h : constants.Blank) (names : List Identifier) :
    (constants.shadow names).Blank := by
  induction names generalizing constants with
  | nil => exact h
  | cons name rest ih => exact ih (h.cons name.name)

theorem Blank.declareTarget (h : constants.Blank) (target : Expr) :
    (ScriptEngine.declareTarget constants target).Blank := by
  cases target with
  | var position name => exact h.cons name
  | _ => exact h

theorem Blank.declareTargets (h : constants.Blank) (targets : List Expr) :
    (targets.foldl ScriptEngine.declareTarget constants).Blank := by
  induction targets generalizing constants with
  | nil => exact h
  | cons target rest ih => exact ih (h.declareTarget target)

end Constants

section

variable {bound : List String} {constants : Constants} {position : Position}
  {targets values : List Expr}

/-- If no pair is dropped, all stay and nothing becomes known. -/
theorem declarePairs_eq_self {pairs : List (Expr × Expr)} (hblank : constants.Blank)
    (h : ∀ pair ∈ pairs, constant? bound pair.1 pair.2 = none) :
    (declarePairs bound constants pairs).1 = pairs ∧
      (declarePairs bound constants pairs).2.Blank := by
  induction pairs generalizing constants with
  | nil => exact ⟨rfl, hblank⟩
  | cons pair rest ih =>
    obtain ⟨target, value⟩ := pair
    obtain ⟨hkept, hknown⟩ := ih (hblank.declareTarget target) fun pair hpair =>
      h pair (List.mem_cons_of_mem _ hpair)
    have hnone : constant? bound target value = none := h _ List.mem_cons_self
    rw [declarePairs, hnone]
    exact ⟨congrArg _ hkept, hknown⟩

theorem foldLocal_eq_self {root : Bool} (hblank : constants.Blank) (htargets : targets ≠ [])
    (h : root = false → ¬ (Stat.assignment position true targets values).Replaceable bound) :
    (foldLocal bound root constants position targets values).1 =
        some (.assignment position true targets values) ∧
      (foldLocal bound root constants position targets values).2.Blank := by
  unfold foldLocal
  split
  · next hpaired =>
    simp only [Bool.and_eq_true, Bool.not_eq_true', beq_iff_eq] at hpaired
    obtain ⟨⟨hroot, hlength⟩, hcall⟩ := hpaired
    have hnone : ∀ pair ∈ targets.zip values, constant? bound pair.1 pair.2 = none := by
      intro pair hpair
      rw [Option.eq_none_iff_forall_ne_some]
      rintro ⟨name, value⟩ hsome
      obtain ⟨p, q, htarget, hvalue, hcount⟩ := constant?_eq_some_iff.1 hsome
      refine h hroot ⟨hlength, hcall, p, name, q, value, ?_, hcount⟩
      rwa [← htarget, ← hvalue]
    obtain ⟨hkept, hknown⟩ := declarePairs_eq_self hblank hnone
    split
    · next constants' hpairs =>
      rw [hpairs] at hkept
      have hempty : (targets.zip values).map (·.1) = [] := by rw [← hkept]; rfl
      rw [List.map_fst_zip (Nat.le_of_eq hlength)] at hempty
      exact absurd hempty htargets
    · next kept constants' _ hpairs =>
      rw [hpairs] at hkept hknown
      dsimp only at hkept
      rw [hkept, List.map_fst_zip (Nat.le_of_eq hlength),
        List.map_snd_zip (Nat.le_of_eq hlength.symm)]
      exact ⟨rfl, hknown⟩
  · exact ⟨rfl, hblank.declareTargets targets⟩

end

mutual

/-- An expression in which nothing is left to fold is folded to itself. -/
theorem Expr.fold_eq_self : ∀ (e : Expr) (constants : Constants), constants.Blank →
    (expr e).All Rests → e.fold constants = e
  | .literal _ _, _, _, _ => by rw [Expr.fold]
  | .var _ name, constants, hblank, _ => by rw [Expr.fold, hblank name]
  | .function position parameters body, constants, hblank, h => by
    obtain ⟨-, hbody⟩ := all_function.1 h
    rw [Expr.fold, (foldStats_eq_self body _ _ _ (hblank.shadow parameters) hbody.statements
      fun _ => hbody.kept).1]
  | .table position entries, constants, hblank, h => by
    rw [Expr.fold, foldEntries_eq_self entries constants hblank (all_table.1 h).2]
  | .call position callee arguments, constants, hblank, h => by
    obtain ⟨-, hcallee, harguments⟩ := all_call.1 h
    rw [Expr.fold, callee.fold_eq_self constants hblank hcallee,
      foldAll_eq_self arguments constants hblank harguments]
  | .index position target key, constants, hblank, h => by
    obtain ⟨-, htarget, hkey⟩ := all_index.1 h
    rw [Expr.fold, target.fold_eq_self constants hblank htarget,
      key.fold_eq_self constants hblank hkey]
  | .group position inner, constants, hblank, h => by
    rw [Expr.fold, inner.fold_eq_self constants hblank (all_group.1 h).2]
  | .binary position operator lhs rhs, constants, hblank, h => by
    obtain ⟨hself, hlhs, hrhs⟩ := all_binary.1 h
    rw [Expr.fold, lhs.fold_eq_self constants hblank hlhs, rhs.fold_eq_self constants hblank hrhs,
      foldBinary_of_folded hself.folded]
  | .unary position operator operand, constants, hblank, h => by
    obtain ⟨hself, hoperand⟩ := all_unary.1 h
    rw [Expr.fold, operand.fold_eq_self constants hblank hoperand,
      foldUnary_of_folded hself.folded]

theorem foldAll_eq_self : ∀ (es : List Expr) (constants : Constants), constants.Blank →
    (∀ e ∈ es, (expr e).All Rests) → foldAll constants es = es
  | [], _, _, _ => by rw [foldAll]
  | e :: rest, constants, hblank, h => by
    rw [foldAll, e.fold_eq_self constants hblank (h e List.mem_cons_self),
      foldAll_eq_self rest constants hblank fun e he => h e (.tail _ he)]

theorem foldEntries_eq_self : ∀ (es : List (Expr × Expr)) (constants : Constants),
    constants.Blank → (∀ e ∈ es, (expr e.1).All Rests ∧ (expr e.2).All Rests) →
    foldEntries constants es = es
  | [], _, _, _ => by rw [foldEntries]
  | (key, value) :: rest, constants, hblank, h => by
    obtain ⟨hkey, hvalue⟩ := h _ List.mem_cons_self
    rw [foldEntries, key.fold_eq_self constants hblank hkey,
      value.fold_eq_self constants hblank hvalue,
      foldEntries_eq_self rest constants hblank fun e he => h e (.tail _ he)]

theorem foldTargets_eq_self : ∀ (es : List Expr) (constants : Constants), constants.Blank →
    (∀ e ∈ es, (expr e).All Rests) → foldTargets constants es = es
  | [], _, _, _ => by rw [foldTargets]
  | e :: rest, constants, hblank, h => by
    have hrest := foldTargets_eq_self rest constants hblank fun e he => h e (.tail _ he)
    have he := h e List.mem_cons_self
    cases e with
    | index position target key =>
      obtain ⟨-, htarget, hkey⟩ := all_index.1 he
      rw [foldTargets, hrest, target.fold_eq_self constants hblank htarget,
        key.fold_eq_self constants hblank hkey]
    | _ => simp only [foldTargets, hrest]

theorem foldBranches_eq_self : ∀ (es : List (Expr × List Stat)) (constants : Constants),
    constants.Blank → (∀ e ∈ es, (expr e.1).All Rests ∧ (chunk e.2).All Rests) →
    foldBranches constants es = es
  | [], _, _, _ => by rw [foldBranches]
  | (condition, body) :: rest, constants, hblank, h => by
    obtain ⟨hcondition, hbody⟩ := h _ List.mem_cons_self
    rw [foldBranches, condition.fold_eq_self constants hblank hcondition,
      (foldStats_eq_self body _ _ _ hblank hbody.statements
        fun _ => hbody.kept).1,
      foldBranches_eq_self rest constants hblank fun e he => h e (.tail _ he)]

theorem Stat.fold_eq_self : ∀ (s : Stat) (bound : List String) (root : Bool)
    (constants : Constants), constants.Blank → (stat s).All Rests →
    (root = false → ¬ s.Replaceable bound) →
    (s.fold bound root constants).1 = some s ∧ (s.fold bound root constants).2.Blank
  | .expression e, bound, root, constants, hblank, h, _ => by
    rw [Stat.fold, e.fold_eq_self constants hblank (all_expression.1 h).2]
    exact ⟨rfl, hblank⟩
  | .assignment position true targets values, bound, root, constants, hblank, h, hs => by
    obtain ⟨hself, -, hvalues⟩ := all_assignment.1 h
    rw [Stat.fold, foldAll_eq_self values constants hblank hvalues]
    exact foldLocal_eq_self hblank hself.targeted.1 hs
  | .assignment position false targets values, bound, root, constants, hblank, h, _ => by
    obtain ⟨-, htargets, hvalues⟩ := all_assignment.1 h
    rw [Stat.fold, foldTargets_eq_self targets constants hblank htargets,
      foldAll_eq_self values constants hblank hvalues]
    exact ⟨rfl, hblank⟩
  | .declaration names, bound, root, constants, hblank, _, _ => by
    rw [Stat.fold]
    exact ⟨rfl, hblank.shadow names⟩
  | .localFunction name function, bound, root, constants, hblank, h, _ => by
    rw [Stat.fold, function.fold_eq_self _ (hblank.shadow [name]) (all_localFunction.1 h).2]
    exact ⟨rfl, hblank.shadow [name]⟩
  | .conditional position branches none, bound, root, constants, hblank, h, _ => by
    rw [Stat.fold, foldBranches_eq_self branches constants hblank (all_conditional.1 h).2.1]
    exact ⟨rfl, hblank⟩
  | .conditional position branches (some body), bound, root, constants, hblank, h, _ => by
    obtain ⟨-, hbranches, hotherwise⟩ := all_conditional.1 h
    have hbody := hotherwise body rfl
    rw [Stat.fold, foldBranches_eq_self branches constants hblank hbranches,
      (foldStats_eq_self body _ _ _ hblank hbody.statements
        fun _ => hbody.kept).1]
    exact ⟨rfl, hblank⟩
  | .whileLoop position condition body, bound, root, constants, hblank, h, _ => by
    obtain ⟨-, hcondition, hbody⟩ := all_whileLoop.1 h
    rw [Stat.fold, condition.fold_eq_self constants hblank hcondition,
      (foldStats_eq_self body _ _ _ hblank hbody.statements
        fun _ => hbody.kept).1]
    exact ⟨rfl, hblank⟩
  | .numericFor counter start stop none body, bound, root, constants, hblank, h, _ => by
    obtain ⟨-, hstart, hstop, hbody, -⟩ := all_numericFor.1 h
    rw [Stat.fold, start.fold_eq_self constants hblank hstart,
      stop.fold_eq_self constants hblank hstop,
      (foldStats_eq_self body _ _ _ (hblank.shadow [counter]) hbody.statements
        fun _ => hbody.kept).1]
    exact ⟨rfl, hblank⟩
  | .numericFor counter start stop (some step) body, bound, root, constants, hblank, h, _ => by
    obtain ⟨-, hstart, hstop, hbody, hstep⟩ := all_numericFor.1 h
    rw [Stat.fold, start.fold_eq_self constants hblank hstart,
      stop.fold_eq_self constants hblank hstop, step.fold_eq_self constants hblank (hstep step rfl),
      (foldStats_eq_self body _ _ _ (hblank.shadow [counter]) hbody.statements
        fun _ => hbody.kept).1]
    exact ⟨rfl, hblank⟩
  | .genericFor position names iterators body, bound, root, constants, hblank, h, _ => by
    obtain ⟨-, hbody, hiterators⟩ := all_genericFor.1 h
    rw [Stat.fold, foldAll_eq_self iterators constants hblank hiterators,
      (foldStats_eq_self body _ _ _ (hblank.shadow names) hbody.statements
        fun _ => hbody.kept).1]
    exact ⟨rfl, hblank⟩
  | .repeatLoop position body condition, bound, root, constants, hblank, h, _ => by
    obtain ⟨-, hbody, hcondition⟩ := all_repeatLoop.1 h
    obtain ⟨hsame, hknown⟩ := foldStats_eq_self body (boundNames body) false constants hblank
      hbody.statements fun _ => hbody.kept
    simp only [Stat.fold]
    rw [condition.fold_eq_self _ hknown hcondition, hsame]
    exact ⟨rfl, hblank⟩
  | .block body, bound, root, constants, hblank, h, _ => by
    obtain ⟨-, hbody⟩ := all_block.1 h
    rw [Stat.fold, (foldStats_eq_self body _ _ _ hblank hbody.statements
      fun _ => hbody.kept).1]
    exact ⟨rfl, hblank⟩
  | .result position values, bound, root, constants, hblank, h, _ => by
    rw [Stat.fold, foldAll_eq_self values constants hblank (all_result.1 h).2]
    exact ⟨rfl, hblank⟩
  | .leave position, bound, root, constants, hblank, _, _ => by
    rw [Stat.fold]
    exact ⟨rfl, hblank⟩

theorem foldStats_eq_self : ∀ (body : List Stat) (bound : List String) (root : Bool)
    (constants : Constants), constants.Blank → (∀ s ∈ body, (stat s).All Rests) →
    (root = false → ∀ s ∈ body, ¬ s.Replaceable bound) →
    (foldStats bound root constants body).1 = body ∧
      (foldStats bound root constants body).2.Blank
  | [], _, _, constants, hblank, _, _ => by
    rw [foldStats]
    exact ⟨rfl, hblank⟩
  | s :: rest, bound, root, constants, hblank, h, hkept => by
    obtain ⟨hfirst, hknown⟩ := s.fold_eq_self bound root constants hblank
      (h s List.mem_cons_self) fun hroot => hkept hroot s List.mem_cons_self
    obtain ⟨hothers, hbehind⟩ := foldStats_eq_self rest bound root _ hknown
      (fun s hs => h s (.tail _ hs)) fun hroot s hs => hkept hroot s (.tail _ hs)
    rw [foldStats]
    dsimp only
    rw [hfirst, hothers]
    exact ⟨rfl, hbehind⟩

end

/-! ### Passes that remove nothing -/

section

variable {bound : List String} {constants : Constants} {position : Position}
  {targets values : List Expr}

/-- If no binding of a list of pairs is dropped, no pair is. -/
theorem constant?_of_length_declarePairs {pairs : List (Expr × Expr)}
    (h : (boundInTargets (pairs.map (·.1))).length ≤
      (boundInTargets ((declarePairs bound constants pairs).1.map (·.1))).length) :
    ∀ pair ∈ pairs, constant? bound pair.1 pair.2 = none := by
  induction pairs generalizing constants with
  | nil =>
    intro pair hpair
    cases hpair
  | cons pair rest ih =>
    obtain ⟨target, value⟩ := pair
    rw [declarePairs] at h
    cases hconstant : constant? bound target value with
    | some dropped =>
      obtain ⟨name, literal⟩ := dropped
      obtain ⟨p, q, rfl, rfl, -⟩ := constant?_eq_some_iff.1 hconstant
      rw [hconstant] at h
      have hle := (bound_declarePairs bound ((name, some literal) :: constants) rest).1.length_le
      simp only [List.map_cons, boundInTargets, List.length_cons] at h
      omega
    | none =>
      rw [hconstant] at h
      simp only [List.map_cons] at h
      rw [boundInTargets_cons target (rest.map _),
        boundInTargets_cons target ((declarePairs _ _ rest).1.map _), List.length_append,
        List.length_append] at h
      rintro pair hpair
      rcases List.mem_cons.1 hpair with rfl | hpair
      · exact hconstant
      · exact ih (Nat.le_of_add_le_add_left h) pair hpair

/-- If a local assignment loses no binding, it declares nothing that a pass removes. -/
theorem not_replaceable_of_length_foldLocal {root : Bool} (hroot : root = false)
    (h : (boundInTargets targets ++ boundInAll values).length ≤
      (boundNames (foldLocal bound root constants position targets values).1.toList).length) :
    ¬ (Stat.assignment position true targets values).Replaceable bound := by
  rintro ⟨hlength, hcall, p, name, q, value, hmem, hcount⟩
  have hpaired : (!root && targets.length == values.length && !values.any Expr.isCall) = true := by
    simp [hroot, hlength, hcall]
  have hvalues := (bound_declarePairs bound constants (targets.zip values)).2.length_le
  rw [List.map_snd_zip (Nat.le_of_eq hlength.symm)] at hvalues
  have htargets : (boundInTargets ((targets.zip values).map (·.1))).length ≤ (boundInTargets
      ((declarePairs bound constants (targets.zip values)).1.map (·.1))).length := by
    rw [bound_foldLocal_of_paired hpaired, List.length_append, List.length_append] at h
    rw [List.map_fst_zip (Nat.le_of_eq hlength)]
    omega
  have hnone := constant?_of_length_declarePairs htargets _ hmem
  rw [constant?_eq_some_iff.2 ⟨p, q, rfl, rfl, hcount⟩] at hnone
  cases hnone

end

/-- A block rests if its statements do and none declares something that a pass removes. -/
theorem Node.all_rests_chunk {body : Chunk} (h : (chunk body).All Settled)
    (hbody : ∀ s ∈ body, (stat s).All Rests ∧ ¬ s.Replaceable (boundNames body)) :
    (chunk body).All Rests := by
  refine all_chunk.2 ⟨⟨h.self, ?_⟩, fun s hs => (hbody s hs).1⟩
  rintro ⟨s, hs, hreplaceable⟩
  exact (hbody s hs).2 hreplaceable

/-! ### What loses no binding -/

/-- An expression rests if folding loses no binding of it. -/
def Expr.RestsUncut (e : Expr) : Prop :=
  ∀ constants : Constants, constants.Blank → (expr e).All Settled →
    e.bound.length ≤ (e.fold constants).bound.length → (expr e).All Rests

def AllUncut (es : List Expr) : Prop :=
  ∀ constants : Constants, constants.Blank → (∀ e ∈ es, (expr e).All Settled) →
    (boundInAll es).length ≤ (boundInAll (foldAll constants es)).length →
    ∀ e ∈ es, (expr e).All Rests

def EntriesUncut (es : List (Expr × Expr)) : Prop :=
  ∀ constants : Constants, constants.Blank →
    (∀ e ∈ es, (expr e.1).All Settled ∧ (expr e.2).All Settled) →
    (boundInEntries es).length ≤ (boundInEntries (foldEntries constants es)).length →
    ∀ e ∈ es, (expr e.1).All Rests ∧ (expr e.2).All Rests

def TargetsUncut (es : List Expr) : Prop :=
  ∀ constants : Constants, constants.Blank → (∀ e ∈ es, (expr e).All Settled ∧ e.isTarget) →
    (boundInTargets es).length ≤ (boundInTargets (foldTargets constants es)).length →
    ∀ e ∈ es, (expr e).All Rests

/-- A block that is no text, whose statements a pass may remove. -/
def BodyUncut (body : List Stat) : Prop :=
  ∀ constants : Constants, constants.Blank → (chunk body).All Settled →
    (boundNames body).length ≤
      (boundNames (foldStats (boundNames body) false constants body).1).length →
    (chunk body).All Rests

def BranchesUncut (es : List (Expr × List Stat)) : Prop :=
  ∀ constants : Constants, constants.Blank →
    (∀ e ∈ es, (expr e.1).All Settled ∧ (chunk e.2).All Settled) →
    (boundInBranches es).length ≤ (boundInBranches (foldBranches constants es)).length →
    ∀ e ∈ es, (expr e.1).All Rests ∧ (chunk e.2).All Rests

/-- A statement rests if folding loses no binding of it: in a block that is no text, it is no
declaration that a pass removes. -/
def Stat.RestsUncut (s : Stat) : Prop :=
  ∀ (bound : List String) (root : Bool) (constants : Constants), constants.Blank →
    (stat s).All Settled →
    s.bound.length ≤ (boundNames (s.fold bound root constants).1.toList).length →
    (stat s).All Rests ∧ (root = false → ¬ s.Replaceable bound)

def StatsUncut (body : List Stat) : Prop :=
  ∀ (bound : List String) (root : Bool) (constants : Constants), constants.Blank →
    (∀ s ∈ body, (stat s).All Settled) →
    (boundNames body).length ≤ (boundNames (foldStats bound root constants body).1).length →
    ∀ s ∈ body, (stat s).All Rests ∧ (root = false → ¬ s.Replaceable bound)

/-- A block rests if its statements do. -/
theorem StatsUncut.body {body : List Stat} (h : StatsUncut body) : BodyUncut body := by
  intro constants hblank hsettled hle
  refine all_rests_chunk hsettled fun s hs => ?_
  exact (h _ _ _ hblank hsettled.statements hle s hs).imp_right fun hkept => hkept rfl

/-! ### Expressions -/

section

variable {position : Position} {target callee operand lhs rhs : Expr} {arguments : List Expr}

theorem restsUncut_literal {value : Literal} : (Expr.literal position value).RestsUncut := by
  intro _ _ h _
  exact all_literal.2 ⟨h.self, id⟩

theorem restsUncut_var {name : String} : (Expr.var position name).RestsUncut := by
  intro _ _ h _
  exact all_var.2 ⟨h.self, id⟩

theorem restsUncut_function {parameters : List Identifier} {body : List Stat}
    (hbody : BodyUncut body) : (Expr.function position parameters body).RestsUncut := by
  intro constants hblank h hle
  obtain ⟨hself, hinner⟩ := all_function.1 h
  simp only [Expr.fold, Expr.bound, List.length_append] at hle
  exact all_function.2 ⟨⟨hself, id⟩,
    hbody _ (hblank.shadow parameters) hinner (Nat.le_of_add_le_add_left hle)⟩

theorem restsUncut_table {entries : List (Expr × Expr)} (hentries : EntriesUncut entries) :
    (Expr.table position entries).RestsUncut := by
  intro constants hblank h hle
  obtain ⟨hself, hparts⟩ := all_table.1 h
  simp only [Expr.fold, Expr.bound] at hle
  exact all_table.2 ⟨⟨hself, id⟩, hentries constants hblank hparts hle⟩

theorem restsUncut_call (hcallee : callee.RestsUncut) (harguments : AllUncut arguments) :
    (Expr.call position callee arguments).RestsUncut := by
  intro constants hblank h hle
  obtain ⟨hself, hleft, hright⟩ := all_call.1 h
  have hcallee' := (callee.bound_fold constants).length_le
  have harguments' := (bound_foldAll arguments constants).length_le
  simp only [Expr.fold, Expr.bound, List.length_append] at hle
  refine all_call.2 ⟨⟨hself, id⟩, ?_, ?_⟩
  · exact hcallee constants hblank hleft (by omega)
  · exact harguments constants hblank hright (by omega)

theorem restsUncut_index {key : Expr} (htarget : target.RestsUncut) (hkey : key.RestsUncut) :
    (Expr.index position target key).RestsUncut := by
  intro constants hblank h hle
  obtain ⟨hself, hleft, hright⟩ := all_index.1 h
  have htarget' := (target.bound_fold constants).length_le
  have hkey' := (key.bound_fold constants).length_le
  simp only [Expr.fold, Expr.bound, List.length_append] at hle
  refine all_index.2 ⟨⟨hself, id⟩, ?_, ?_⟩
  · exact htarget constants hblank hleft (by omega)
  · exact hkey constants hblank hright (by omega)

theorem restsUncut_group {inner : Expr} (hinner : inner.RestsUncut) :
    (Expr.group position inner).RestsUncut := by
  intro constants hblank h hle
  obtain ⟨hself, hpart⟩ := all_group.1 h
  simp only [Expr.fold, Expr.bound] at hle
  exact all_group.2 ⟨⟨hself, id⟩, hinner constants hblank hpart hle⟩

/-- An operator that is applied to literals may lose bindings as well. -/
theorem restsUncut_binary {operator : BinaryOperator} (hlhs : lhs.RestsUncut)
    (hrhs : rhs.RestsUncut) : (Expr.binary position operator lhs rhs).RestsUncut := by
  intro constants hblank h hle
  obtain ⟨hself, hleft, hright⟩ := all_binary.1 h
  have hlhs' := (lhs.bound_fold constants).length_le
  have hrhs' := (rhs.bound_fold constants).length_le
  have hfold := (bound_foldBinary position operator (lhs.fold constants)
    (rhs.fold constants)).length_le
  simp only [Expr.fold, Expr.bound, List.length_append] at hle hfold
  refine all_binary.2 ⟨⟨hself, id⟩, ?_, ?_⟩
  · exact hlhs constants hblank hleft (by omega)
  · exact hrhs constants hblank hright (by omega)

theorem restsUncut_unary {operator : UnaryOperator} (hoperand : operand.RestsUncut) :
    (Expr.unary position operator operand).RestsUncut := by
  intro constants hblank h hle
  obtain ⟨hself, hpart⟩ := all_unary.1 h
  have hfold := (bound_foldUnary position operator (operand.fold constants)).length_le
  simp only [Expr.fold, Expr.bound] at hle
  exact all_unary.2 ⟨⟨hself, id⟩, hoperand constants hblank hpart (by omega)⟩

end

/-! ### Statements -/

section

variable {position : Position} {condition start stop : Expr} {targets values iterators : List Expr}
  {branches : List (Expr × List Stat)} {body : List Stat} {counter : Identifier}

theorem restsUncut_expression {e : Expr} (he : e.RestsUncut) :
    (Stat.expression e).RestsUncut := by
  intro bound root constants hblank h hle
  obtain ⟨hself, hpart⟩ := all_expression.1 h
  simp only [Stat.fold, Option.toList_some, boundNames, Stat.bound, List.append_nil] at hle
  exact ⟨all_expression.2 ⟨⟨hself, id⟩, he constants hblank hpart hle⟩, fun _ => id⟩

/-- The values are left as they are, so that no binding is lost with a declaration either. -/
theorem restsUncut_localAssignment (hvalues : AllUncut values) :
    (Stat.assignment position true targets values).RestsUncut := by
  intro bound root constants hblank h hle
  obtain ⟨hself, hleft, hright⟩ := all_assignment.1 h
  have hvalues' := (bound_foldAll values constants).length_le
  have hlocal := (bound_foldLocal bound root constants position targets
    (foldAll constants values)).length_le
  simp only [Stat.fold, Stat.bound, List.length_append] at hle hlocal
  have hrests := hvalues constants hblank hright (by omega)
  -- The targets are variables; if one of them were removed, a binding would be lost.
  refine ⟨all_assignment.2 ⟨⟨hself, id⟩, fun e he => ?_, hrests⟩, fun hroot => ?_⟩
  · have hvar := hself.targeted.2 e he
    have hsettled := hleft e he
    cases e with
    | var position name => exact all_var.2 ⟨hsettled.self, id⟩
    | _ => cases hvar
  · rw [foldAll_eq_self values constants hblank hrests] at hle
    exact not_replaceable_of_length_foldLocal hroot (by rw [List.length_append]; exact hle)

theorem restsUncut_assignment (htargets : TargetsUncut targets) (hvalues : AllUncut values) :
    (Stat.assignment position false targets values).RestsUncut := by
  intro bound root constants hblank h hle
  obtain ⟨hself, hleft, hright⟩ := all_assignment.1 h
  have htargets' := (bound_foldTargets targets constants).length_le
  have hvalues' := (bound_foldAll values constants).length_le
  simp only [Stat.fold, Option.toList_some, boundNames, Stat.bound, List.append_nil,
    List.length_append] at hle
  refine ⟨all_assignment.2 ⟨⟨hself, id⟩, ?_, ?_⟩, fun _ => id⟩
  · exact htargets constants hblank (fun e he => ⟨hleft e he, hself.targeted.2 e he⟩) (by omega)
  · exact hvalues constants hblank hright (by omega)

theorem restsUncut_declaration (names : List Identifier) :
    (Stat.declaration names).RestsUncut := by
  intro bound root constants _ h _
  exact ⟨all_declaration.2 ⟨h.self, id⟩, fun _ => id⟩

theorem restsUncut_localFunction {name : Identifier} {function : Expr}
    (hfunction : function.RestsUncut) : (Stat.localFunction name function).RestsUncut := by
  intro bound root constants hblank h hle
  obtain ⟨hself, hpart⟩ := all_localFunction.1 h
  simp only [Stat.fold, Option.toList_some, boundNames, Stat.bound, List.append_nil,
    List.length_cons] at hle
  refine ⟨all_localFunction.2 ⟨⟨hself, id⟩, ?_⟩, fun _ => id⟩
  exact hfunction _ (hblank.shadow [name]) hpart (by omega)

theorem restsUncut_conditional (hbranches : BranchesUncut branches) :
    (Stat.conditional position branches none).RestsUncut := by
  intro bound root constants hblank h hle
  obtain ⟨hself, hparts, hnone⟩ := all_conditional.1 h
  simp only [Stat.fold, Option.toList_some, boundNames, Stat.bound, List.append_nil] at hle
  refine ⟨all_conditional.2 ⟨⟨hself, id⟩, ?_, fun _ hbody => by cases hbody⟩, fun _ => id⟩
  exact hbranches constants hblank hparts hle

theorem restsUncut_conditional_else (hbranches : BranchesUncut branches)
    (hbody : BodyUncut body) : (Stat.conditional position branches (some body)).RestsUncut := by
  intro bound root constants hblank h hle
  obtain ⟨hself, hparts, hotherwise⟩ := all_conditional.1 h
  have hbranches' := (bound_foldBranches branches constants).length_le
  have hbody' := (bound_foldStats body (boundNames body) false constants).length_le
  simp only [Stat.fold, Option.toList_some, boundNames, Stat.bound, List.append_nil,
    List.length_append] at hle
  refine ⟨all_conditional.2 ⟨⟨hself, id⟩, ?_, fun body' hbody' => ?_⟩, fun _ => id⟩
  · exact hbranches constants hblank hparts (by omega)
  · obtain rfl := Option.some.inj hbody'
    exact hbody constants hblank (hotherwise body rfl) (by omega)

theorem restsUncut_whileLoop (hcondition : condition.RestsUncut) (hbody : BodyUncut body) :
    (Stat.whileLoop position condition body).RestsUncut := by
  intro bound root constants hblank h hle
  obtain ⟨hself, htest, hinner⟩ := all_whileLoop.1 h
  have hcondition' := (condition.bound_fold constants).length_le
  have hbody' := (bound_foldStats body (boundNames body) false constants).length_le
  simp only [Stat.fold, Option.toList_some, boundNames, Stat.bound, List.append_nil,
    List.length_append] at hle
  refine ⟨all_whileLoop.2 ⟨⟨hself, id⟩, ?_, ?_⟩, fun _ => id⟩
  · exact hcondition constants hblank htest (by omega)
  · exact hbody constants hblank hinner (by omega)

theorem restsUncut_numericFor (hstart : start.RestsUncut) (hstop : stop.RestsUncut)
    (hbody : BodyUncut body) : (Stat.numericFor counter start stop none body).RestsUncut := by
  intro bound root constants hblank h hle
  obtain ⟨hself, hfirst, hlast, hinner, -⟩ := all_numericFor.1 h
  have hstart' := (start.bound_fold constants).length_le
  have hstop' := (stop.bound_fold constants).length_le
  have hbody' := (bound_foldStats body (boundNames body) false
    (constants.shadow [counter])).length_le
  simp only [Stat.fold, Option.toList_some, boundNames, Stat.bound, List.append_nil,
    List.length_append, List.length_cons] at hle
  refine ⟨all_numericFor.2 ⟨⟨hself, id⟩, ?_, ?_, ?_, fun _ hstep => by cases hstep⟩, fun _ => id⟩
  · exact hstart constants hblank hfirst (by omega)
  · exact hstop constants hblank hlast (by omega)
  · exact hbody _ (hblank.shadow [counter]) hinner (by omega)

theorem restsUncut_numericFor_step {step : Expr} (hstart : start.RestsUncut)
    (hstop : stop.RestsUncut) (hstep : step.RestsUncut) (hbody : BodyUncut body) :
    (Stat.numericFor counter start stop (some step) body).RestsUncut := by
  intro bound root constants hblank h hle
  obtain ⟨hself, hfirst, hlast, hinner, hwidth⟩ := all_numericFor.1 h
  have hstart' := (start.bound_fold constants).length_le
  have hstop' := (stop.bound_fold constants).length_le
  have hstep' := (step.bound_fold constants).length_le
  have hbody' := (bound_foldStats body (boundNames body) false
    (constants.shadow [counter])).length_le
  simp only [Stat.fold, Option.toList_some, boundNames, Stat.bound, List.append_nil,
    List.length_append, List.length_cons] at hle
  refine ⟨all_numericFor.2 ⟨⟨hself, id⟩, ?_, ?_, ?_, fun step' hsome => ?_⟩, fun _ => id⟩
  · exact hstart constants hblank hfirst (by omega)
  · exact hstop constants hblank hlast (by omega)
  · exact hbody _ (hblank.shadow [counter]) hinner (by omega)
  · obtain rfl := Option.some.inj hsome
    exact hstep constants hblank (hwidth step rfl) (by omega)

theorem restsUncut_genericFor {names : List Identifier} (hiterators : AllUncut iterators)
    (hbody : BodyUncut body) : (Stat.genericFor position names iterators body).RestsUncut := by
  intro bound root constants hblank h hle
  obtain ⟨hself, hinner, hparts⟩ := all_genericFor.1 h
  have hiterators' := (bound_foldAll iterators constants).length_le
  have hbody' := (bound_foldStats body (boundNames body) false (constants.shadow names)).length_le
  simp only [Stat.fold, Option.toList_some, boundNames, Stat.bound, List.append_nil,
    List.length_append] at hle
  refine ⟨all_genericFor.2 ⟨⟨hself, id⟩, ?_, ?_⟩, fun _ => id⟩
  · exact hbody _ (hblank.shadow names) hinner (by omega)
  · exact hiterators constants hblank hparts (by omega)

/-- The condition is folded with what is known behind the body, which is nothing since the body
rests. -/
theorem restsUncut_repeatLoop (hbody : BodyUncut body) (hcondition : condition.RestsUncut) :
    (Stat.repeatLoop position body condition).RestsUncut := by
  intro bound root constants hblank h hle
  obtain ⟨hself, hinner, htest⟩ := all_repeatLoop.1 h
  have hbody' := (bound_foldStats body (boundNames body) false constants).length_le
  have hcondition' := (condition.bound_fold
    (foldStats (boundNames body) false constants body).2).length_le
  simp only [Stat.fold, Option.toList_some, boundNames, Stat.bound, List.append_nil,
    List.length_append] at hle
  have hrests := hbody constants hblank hinner (by omega)
  have hknown := (foldStats_eq_self body (boundNames body) false constants hblank
    hrests.statements fun _ => hrests.kept).2
  refine ⟨all_repeatLoop.2 ⟨⟨hself, id⟩, hrests, ?_⟩, fun _ => id⟩
  exact hcondition _ hknown htest (by omega)

theorem restsUncut_block (hbody : BodyUncut body) : (Stat.block body).RestsUncut := by
  intro bound root constants hblank h hle
  obtain ⟨hself, hinner⟩ := all_block.1 h
  simp only [Stat.fold, Option.toList_some, boundNames, Stat.bound, List.append_nil] at hle
  exact ⟨all_block.2 ⟨⟨hself, id⟩, hbody constants hblank hinner hle⟩, fun _ => id⟩

theorem restsUncut_result (hvalues : AllUncut values) :
    (Stat.result position values).RestsUncut := by
  intro bound root constants hblank h hle
  obtain ⟨hself, hparts⟩ := all_result.1 h
  simp only [Stat.fold, Option.toList_some, boundNames, Stat.bound, List.append_nil] at hle
  exact ⟨all_result.2 ⟨⟨hself, id⟩, hvalues constants hblank hparts hle⟩, fun _ => id⟩

theorem restsUncut_leave : (Stat.leave position).RestsUncut := by
  intro bound root constants _ h _
  exact ⟨all_leave.2 ⟨h.self, id⟩, fun _ => id⟩

end

/-! ### Whole texts -/

mutual

/-- An expression that loses no binding when it is folded declares nothing that a pass removes. -/
theorem Expr.rests_of_length : ∀ e : Expr, e.RestsUncut
  | .literal _ _ => restsUncut_literal
  | .var _ _ => restsUncut_var
  | .function _ _ body => restsUncut_function (rests_of_length_foldStats body).body
  | .table _ entries => restsUncut_table (rests_of_length_foldEntries entries)
  | .call _ callee arguments =>
    restsUncut_call callee.rests_of_length (rests_of_length_foldAll arguments)
  | .index _ target key => restsUncut_index target.rests_of_length key.rests_of_length
  | .group _ inner => restsUncut_group inner.rests_of_length
  | .binary _ _ lhs rhs => restsUncut_binary lhs.rests_of_length rhs.rests_of_length
  | .unary _ _ operand => restsUncut_unary operand.rests_of_length

theorem rests_of_length_foldAll : ∀ es : List Expr, AllUncut es
  | [], _, _, _, _ => List.forall_mem_nil _
  | e :: rest, constants, hblank, h, hle => by
    have he := (e.bound_fold constants).length_le
    have hrest := (bound_foldAll rest constants).length_le
    simp only [foldAll, boundInAll, List.length_append] at hle
    refine List.forall_mem_cons.2 ⟨?_, ?_⟩
    · exact e.rests_of_length constants hblank (h e List.mem_cons_self) (by omega)
    · exact rests_of_length_foldAll rest constants hblank (fun e he => h e (.tail _ he)) (by omega)

theorem rests_of_length_foldEntries : ∀ es : List (Expr × Expr), EntriesUncut es
  | [], _, _, _, _ => List.forall_mem_nil _
  | (key, value) :: rest, constants, hblank, h, hle => by
    have hkey := (key.bound_fold constants).length_le
    have hvalue := (value.bound_fold constants).length_le
    have hrest := (bound_foldEntries rest constants).length_le
    simp only [foldEntries, boundInEntries, List.length_append] at hle
    obtain ⟨hkey', hvalue'⟩ := h _ List.mem_cons_self
    refine List.forall_mem_cons.2 ⟨⟨?_, ?_⟩, ?_⟩
    · exact key.rests_of_length constants hblank hkey' (by omega)
    · exact value.rests_of_length constants hblank hvalue' (by omega)
    · exact rests_of_length_foldEntries rest constants hblank (fun e he => h e (.tail _ he))
        (by omega)

theorem rests_of_length_foldTargets : ∀ es : List Expr, TargetsUncut es
  | [], _, _, _, _ => List.forall_mem_nil _
  | e :: rest, constants, hblank, h, hle => by
    have hrest := (bound_foldTargets rest constants).length_le
    obtain ⟨he, htarget⟩ := h e List.mem_cons_self
    have ih := rests_of_length_foldTargets rest constants hblank fun e he => h e (.tail _ he)
    cases e with
    | index position target key =>
      have htarget := (target.bound_fold constants).length_le
      have hkey := (key.bound_fold constants).length_le
      simp only [foldTargets, boundInTargets, Expr.bound, List.length_append] at hle
      obtain ⟨hself, hleft, hright⟩ := all_index.1 he
      refine List.forall_mem_cons.2 ⟨all_index.2 ⟨⟨hself, id⟩, ?_, ?_⟩, ih (by omega)⟩
      · exact target.rests_of_length constants hblank hleft (by omega)
      · exact key.rests_of_length constants hblank hright (by omega)
    | var position name =>
      simp only [foldTargets, boundInTargets, List.length_cons] at hle
      exact List.forall_mem_cons.2 ⟨all_var.2 ⟨he.self, id⟩, ih (by omega)⟩
    | _ => cases htarget

theorem rests_of_length_foldBranches : ∀ es : List (Expr × List Stat), BranchesUncut es
  | [], _, _, _, _ => List.forall_mem_nil _
  | (condition, body) :: rest, constants, hblank, h, hle => by
    have hcondition := (condition.bound_fold constants).length_le
    have hbody := (bound_foldStats body (boundNames body) false constants).length_le
    have hrest := (bound_foldBranches rest constants).length_le
    simp only [foldBranches, boundInBranches, List.length_append] at hle
    obtain ⟨hcondition', hbody'⟩ := h _ List.mem_cons_self
    refine List.forall_mem_cons.2 ⟨⟨?_, ?_⟩, ?_⟩
    · exact condition.rests_of_length constants hblank hcondition' (by omega)
    · exact (rests_of_length_foldStats body).body constants hblank hbody' (by omega)
    · exact rests_of_length_foldBranches rest constants hblank (fun e he => h e (.tail _ he))
        (by omega)

theorem Stat.rests_of_length : ∀ s : Stat, s.RestsUncut
  | .expression e => restsUncut_expression e.rests_of_length
  | .assignment _ true _ values => restsUncut_localAssignment (rests_of_length_foldAll values)
  | .assignment _ false targets values =>
    restsUncut_assignment (rests_of_length_foldTargets targets) (rests_of_length_foldAll values)
  | .declaration names => restsUncut_declaration names
  | .localFunction _ function => restsUncut_localFunction function.rests_of_length
  | .conditional _ branches none =>
    restsUncut_conditional (rests_of_length_foldBranches branches)
  | .conditional _ branches (some body) =>
    restsUncut_conditional_else (rests_of_length_foldBranches branches)
      (rests_of_length_foldStats body).body
  | .whileLoop _ condition body =>
    restsUncut_whileLoop condition.rests_of_length (rests_of_length_foldStats body).body
  | .numericFor _ start stop none body =>
    restsUncut_numericFor start.rests_of_length stop.rests_of_length
      (rests_of_length_foldStats body).body
  | .numericFor _ start stop (some step) body =>
    restsUncut_numericFor_step start.rests_of_length stop.rests_of_length step.rests_of_length
      (rests_of_length_foldStats body).body
  | .genericFor _ _ iterators body =>
    restsUncut_genericFor (rests_of_length_foldAll iterators) (rests_of_length_foldStats body).body
  | .repeatLoop _ body condition =>
    restsUncut_repeatLoop (rests_of_length_foldStats body).body condition.rests_of_length
  | .block body => restsUncut_block (rests_of_length_foldStats body).body
  | .result _ values => restsUncut_result (rests_of_length_foldAll values)
  | .leave _ => restsUncut_leave

/-- Statements that lose no binding are left as they are, each with what is known behind those in
front of it. -/
theorem rests_of_length_foldStats : ∀ body : List Stat, StatsUncut body
  | [], _, _, _, _, _, _ => List.forall_mem_nil _
  | s :: rest, bound, root, constants, hblank, h, hle => by
    have hs := (s.bound_fold bound root constants).length_le
    have hrest := (bound_foldStats rest bound root (s.fold bound root constants).2).length_le
    rw [foldStats, boundNames_append, boundNames] at hle
    simp only [List.length_append] at hle
    have hfirst := s.rests_of_length bound root constants hblank (h s List.mem_cons_self)
      (by omega)
    have hknown := (s.fold_eq_self bound root constants hblank hfirst.1 hfirst.2).2
    exact List.forall_mem_cons.2 ⟨hfirst, rests_of_length_foldStats rest bound root _ hknown
      (fun s hs => h s (.tail _ hs)) (by omega)⟩

end

/-! ### Passes over a text -/

/-- A well-formed text on which a pass leaves nothing but declarations to remove. -/
structure Chunk.Folded (text : Chunk) : Prop where
  formed : chunkFormed false text
  settled : ∀ s ∈ text, (stat s).All Settled

/-- What a pass makes of a well-formed text. -/
theorem folded_optimize {text : Chunk} (h : chunkFormed false text) : (optimize text).Folded where
  formed := chunkFormed_optimize h
  settled s hs :=
    have hleft : (stat s).All (Left False) :=
      (all_left_foldStats text _ true [] false h False.elim False.elim s hs).1
    hleft.imp fun _ hn => hn.1

/-- What is in a text is in one of its statements. -/
theorem Node.insideOf_iff {text : Chunk} {n : Node} :
    n.InsideOf text ↔ ∃ s ∈ text, n.Within (stat s) := by
  simp [InsideOf, children]

/-- A pass over a text in which nothing can be removed changes nothing. -/
theorem optimize_eq_self {text : Chunk} (h : ∀ s ∈ text, (stat s).All Rests) :
    optimize text = text :=
  (foldStats_eq_self text _ true [] (fun _ => rfl) h nofun).1

namespace Chunk.Folded

variable {text : Chunk}

theorem rests (h : text.Folded) (hlength : (boundNames text).length ≤
    (boundNames (optimize text)).length) : ∀ s ∈ text, (stat s).All Rests := fun s hs =>
  (rests_of_length_foldStats text _ true [] (fun _ => rfl) h.settled hlength s hs).1

/-- A second pass changes nothing exactly if there is nothing to remove. -/
theorem optimize_eq_self_iff (h : text.Folded) :
    optimize text = text ↔ ∀ n : Node, n.InsideOf text → ¬ n.Replaceable := by
  simp only [Node.insideOf_iff]
  constructor
  · rintro hsame n ⟨s, hs, hn⟩
    exact (h.rests (by rw [hsame]) s hs n hn).kept
  · intro hkept
    exact optimize_eq_self fun s hs n hn => ⟨h.settled s hs n hn, hkept n ⟨s, hs, hn⟩⟩

/-- A pass that changes something removes a binding. -/
theorem length_optimize_lt (h : text.Folded) (hne : optimize text ≠ text) :
    (boundNames (optimize text)).length < (boundNames text).length := by
  by_contra hle
  exact hne (optimize_eq_self (h.rests (Nat.le_of_not_lt hle)))

/-- There are no more passes that change something than there are bindings. -/
theorem iterate_optimize (h : text.Folded) {k : ℕ} (hk : (boundNames text).length ≤ k) :
    optimize^[k + 1] text = optimize^[k] text := by
  induction k generalizing text with
  | zero =>
    by_contra hne
    have hlt := h.length_optimize_lt hne
    omega
  | succ k ih =>
    by_cases hsame : optimize text = text
    · rw [Function.iterate_fixed hsame, Function.iterate_fixed hsame]
    · have hlt := h.length_optimize_lt hsame
      exact ih (folded_optimize h.formed) (by omega)

end Chunk.Folded

/-- **When a second pass changes nothing.**  It removes declarations only: it changes nothing
exactly if no block inside of the text as the first pass left it declares a literal under a name
that it binds once.  There is no such block if no block inside of the text itself binds a variable
again that it declares with a value.  Whatever the text is, after one pass more than it has bindings
nothing changes any more. -/
theorem optimize_optimize {source : String} {chunk : Chunk} (h : parse source = .ok chunk) :
    (optimize (optimize chunk) = optimize chunk ↔
      ∀ n : Node, n.InsideOf (optimize chunk) → ¬ n.Replaceable) ∧
    ((∀ n : Node, n.InsideOf chunk → n.BoundOnce) →
      optimize (optimize chunk) = optimize chunk) ∧
    ∀ k, (boundNames chunk).length < k → optimize^[k + 1] chunk = optimize^[k] chunk := by
  have hformed := chunkFormed_of_parse h
  have hfolded := folded_optimize hformed
  refine ⟨hfolded.optimize_eq_self_iff, fun honce => ?_, fun k hk => ?_⟩
  · refine optimize_eq_self fun s hs => ?_
    have hleft : (stat s).All (Left True) :=
      (all_left_foldStats chunk _ true [] false hformed
        (fun _ s hs n hn => honce n (Node.insideOf_iff.2 ⟨s, hs, hn⟩)) nofun s hs).1
    exact hleft.imp fun _ hn => ⟨hn.1, hn.2 trivial⟩
  · obtain ⟨k, rfl⟩ := Nat.exists_eq_add_of_lt hk
    have hlength := (bound_foldStats chunk (boundNames chunk) true []).length_le
    exact hfolded.iterate_optimize (k := (boundNames chunk).length + k)
      (Nat.le_trans hlength (Nat.le_add_right _ _))

/-- A variable that hides another one: the second pass removes the outer declaration, since the
first one has removed the inner one. -/
theorem optimize_optimize_hidden :
    ∃ chunk : Chunk, parse "do local a = 1 do local a = 2 b = a end c = a end" = .ok chunk ∧
      optimize (optimize chunk) ≠ optimize chunk ∧
      (∃ n : Node, n.InsideOf (optimize chunk) ∧ n.Replaceable) ∧
      optimize^[6] chunk = optimize^[5] chunk := by
  have hbound : (parse "do local a = 1 do local a = 2 b = a end c = a end").toOption.map
      (fun chunk => (boundNames chunk, boundNames (optimize chunk),
        boundNames (optimize (optimize chunk)))) =
      some (["a", "a", "b", "c"], ["a", "b", "c"], ["b", "c"]) := by decide +kernel
  cases hparse : parse "do local a = 1 do local a = 2 b = a end c = a end" with
  | error e =>
    rw [hparse] at hbound
    cases hbound
  | ok chunk =>
    rw [hparse] at hbound
    simp only [Except.toOption, Option.map_some, Option.some.injEq, Prod.mk.injEq] at hbound
    obtain ⟨hfour, hthree, htwo⟩ := hbound
    have hne : optimize (optimize chunk) ≠ optimize chunk := by
      intro hsame
      rw [hsame, hthree] at htwo
      simp at htwo
    obtain ⟨hiff, -, hiterate⟩ := optimize_optimize hparse
    refine ⟨chunk, rfl, hne, ?_, hiterate 5 (by rw [hfour]; decide)⟩
    by_contra hnone
    exact hne (hiff.2 fun n hn hreplaceable => hnone ⟨n, hn, hreplaceable⟩)

end ScriptEngine
