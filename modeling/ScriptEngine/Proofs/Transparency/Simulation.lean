import ScriptEngine.Proofs.Transparency.Stores

/-!
# What it means that folding preserves meaning

For every kind of syntax, what it means that its evaluation does in the folded program what it does
in the plain one.  The induction is on the bound on the depth of the plain evaluation; the folded
one needs no greater depth.

## Main definitions

* `Twins.Aligned` — the surroundings of the two programs are alike.
* `Twins.Ends` — the outcomes of statements.
* `Stage` — what is known in the middle of a block.
* `Twins.Simulates` — evaluations of a bounded depth do in the folded program what they do in the
  plain one.
-/

namespace ScriptEngine

open Node

/-- The context of an evaluation in a program in which functions begin elsewhere. -/
def Context.placed (c : Context) (places : List Nat) : Context := { c with places := places }

/-- The innermost scope is in reach. -/
theorem mem_reach {c : Context} {ref : ScopeRef} {below : List ScopeRef}
    (h : c.scopes = ref :: below) : ref ∈ c.reach := by
  rw [Context.reach, h]
  exact List.mem_cons_self

/-- Behind the first level of nesting, a greater bound is still the greater one. -/
theorem exists_succ_of_le {n n' : Nat} (h : n + 1 ≤ n') : ∃ m, n' = m + 1 ∧ n ≤ m := by
  obtain ⟨k, rfl⟩ := Nat.exists_eq_add_of_lt h
  exact ⟨n + k, rfl, Nat.le_add_right n k⟩

/-- An outcome with moved values. -/
def Outcome.moved (place : Nat → Nat) : Outcome → Outcome
  | .next kept => .next (kept.map (Value.moved place))
  | .leave => .leave
  | .result values => .result (values.map (Value.moved place))

/-! ### Blocks whose statements are being executed -/

/-- What is known in front of the statements `rest` of a block whose bindings are `bound`.  Its
scope is `ref`, around which a function has opened the scopes `below`.  What is known of `names` is
true. -/
structure Stage (constants : Constants) (blocks : Blocks) (size : Nat) (c : Context)
    (ref : ScopeRef) (below : List ScopeRef) (names : String → Prop) (bound : List String)
    (root : Bool) (rest : List Stat) : Prop where
  scopes : c.scopes = ref :: below
  shaded : blocks.Shaded c.reach
  inside : ∀ other ∈ c.reach, other.index < size
  targeted : (chunk rest).All Targeted
  mentions : ∀ name, (chunk rest).Mentions name → names name
  fits : ∀ name, names name → constants.Fits blocks c.reach name
  within : (boundNames rest).Sublist bound
  binds : ∀ name ∈ boundNames rest, (blocks ref).binds name
  pending : (blocks ref).pending = removedFrom bound root constants rest
  gone : ∀ name ∈ boundNames rest, ¬ (blocks ref).Gone name
  free : ∀ name ∈ boundNames rest, ∀ other ∈ below ++ c.captured, ¬ (blocks other).Removes name
  early : ∀ name, (chunk rest).Closes name → ∀ other ∈ below ++ c.captured,
    ¬ (blocks other).Pending name

theorem Stage.reach {constants : Constants} {blocks : Blocks} {size : Nat} {c : Context}
    {ref : ScopeRef} {below : List ScopeRef} {names : String → Prop} {bound : List String}
    {root : Bool} {rest : List Stat}
    (h : Stage constants blocks size c ref below names bound root rest) :
    c.reach = ref :: (below ++ c.captured) := by
  rw [Context.reach, h.scopes]
  rfl

/-! ### Declarations of which a part is removed -/

/-- Pairs of a target and a value, with the value folded. -/
def foldPairs (constants : Constants) (pairs : List (Expr × Expr)) : List (Expr × Expr) :=
  pairs.map fun pair => (pair.1, pair.2.fold constants)

/-- The variables that are replaced among pairs of a target and a folded value. -/
def droppedPairs (bound : List String) (pairs : List (Expr × Expr)) : List (String × Literal) :=
  pairs.filterMap fun pair => constant? bound pair.1 pair.2

/-- The pairs that are left. -/
def leftPairs (bound : List String) (pairs : List (Expr × Expr)) : List (Expr × Expr) :=
  pairs.filter fun pair => (constant? bound pair.1 pair.2).isNone

/-- The values that are assigned where pairs are left. -/
def leftValues (bound : List String) : List (Expr × Expr) → List Value → List Value
  | [], _ => []
  | pair :: rest, values =>
    if (constant? bound pair.1 pair.2).isSome then leftValues bound rest values.tail
    else values.headD .nil :: leftValues bound rest values.tail

/-- Variables that are declared with values in the plain program are declared in the folded one as
well, but for those that are `dropped`. -/
inductive Declares (place : Nat → Nat) :
    List (String × Literal) → List Expr → List Value → List Expr → List Value → Prop
  | nil {values values' : List Value} : Declares place [] [] values [] values'
  | keep {dropped : List (String × Literal)} {position : Position} {name : String}
      {targets targets' : List Expr} {values values' : List Value}
      (hvalue : values'.headD .nil = (values.headD .nil).moved place)
      (h : Declares place dropped targets values.tail targets' values'.tail) :
      Declares place dropped (.var position name :: targets) values (.var position name :: targets')
        values'
  | drop {dropped : List (String × Literal)} {position : Position} {name : String}
      {literal : Literal} {targets targets' : List Expr} {values values' : List Value}
      (hvalue : values.headD .nil = literal.toValue)
      (h : Declares place dropped targets values.tail targets' values') :
      Declares place ((name, literal) :: dropped) (.var position name :: targets) values
        targets' values'

namespace Twins

/-- The surroundings of two programs are alike: functions stay apart, and native functions do the
same on stores that correspond to each other. -/
structure Aligned (t : Twins) : Prop where
  apart : Function.Injective t.place
  depth : t.folded.config.maxCallDepth = t.plain.config.maxCallDepth
  natives : ∀ (position : Position) (depth : Nat) (f : Native) {blocks : Blocks} {s s' : Store}
    {arguments : List Value}, t.At blocks s s' → t.KnownValues blocks s arguments →
    t.Mirrors (List.map (Value.moved t.place)) t.KnownValues none blocks s
      (evalNative t.plain position depth f arguments s)
      (evalNative t.folded position depth f (arguments.map (Value.moved t.place)) s')

/-- An outcome of statements.  A value is kept only if one is asked for. -/
def Ends (t : Twins) (keep : Bool) (blocks : Blocks) (s : Store) : Outcome → Prop
  | .next kept => (keep = false → kept = none) ∧ ∀ v ∈ kept, t.KnownValue blocks s v
  | .leave => True
  | .result values => t.KnownValues blocks s values

/-- Where there is no value, none is kept. -/
theorem ends_none {t : Twins} {keep : Bool} {blocks : Blocks} {s : Store} :
    t.Ends keep blocks s (.next none) :=
  ⟨fun _ => rfl, fun v hv => absurd hv (Option.not_mem_none v)⟩

/-! ### Simulation -/

section

variable (t : Twins) (n : Nat)

/-- Expressions. -/
def SimulatesExpr : Prop :=
  ∀ {n' constants blocks c places' next next' e} {s s' : Store}, n ≤ n' → t.At blocks s s' →
    Scene constants blocks s.scopes.size c.reach (expr e) → e.FoldsSafely constants →
    t.Linked c.places places' next next' e.functions (e.fold constants).functions
      (e.keeps constants next) →
    t.Mirrors (Value.moved t.place) t.KnownValue none blocks s (evalExpr t.plain n c next e s)
      (evalExpr t.folded n' (c.placed places') next' (e.fold constants) s')

/-- Calls with all of their results. -/
def SimulatesCallExpr : Prop :=
  ∀ {n' constants blocks c places' next next' position callee arguments} {s s' : Store}, n ≤ n' →
    t.At blocks s s' →
    Scene constants blocks s.scopes.size c.reach (expr (.call position callee arguments)) →
    (Expr.call position callee arguments).FoldsSafely constants →
    t.Linked c.places places' next next' (Expr.call position callee arguments).functions
      ((Expr.call position callee arguments).fold constants).functions
      ((Expr.call position callee arguments).keeps constants next) →
    t.Mirrors (List.map (Value.moved t.place)) t.KnownValues none blocks s
      (evalCallExpr t.plain n c next position callee arguments s)
      (evalCallExpr t.folded n' (c.placed places') next' position (callee.fold constants)
        (foldAll constants arguments) s')

/-- Expressions one after another. -/
def SimulatesValues : Prop :=
  ∀ {n' constants blocks c places' next next' es} {s s' : Store}, n ≤ n' → t.At blocks s s' →
    (∀ e ∈ es, Scene constants blocks s.scopes.size c.reach (expr e)) →
    valuesFoldSafely constants es →
    t.Linked c.places places' next next' (valuesFunctions es)
      (valuesFunctions (foldAll constants es)) (valuesKept constants next es) →
    t.Mirrors (List.map (Value.moved t.place)) t.KnownValues none blocks s
      (evalValues t.plain n c next es s)
      (evalValues t.folded n' (c.placed places') next' (foldAll constants es) s')

/-- Values of variables of which only a part is still declared. -/
def SimulatesPaired : Prop :=
  ∀ (bound : List String) {n' constants blocks c places' next next' pairs} {s s' : Store}, n ≤ n' →
    t.At blocks s s' →
    (∀ pair ∈ pairs, pair.1.isVar) →
    (∀ pair ∈ pairs, Scene constants blocks s.scopes.size c.reach (expr pair.2)) →
    valuesFoldSafely constants (pairs.map (·.2)) →
    (∀ pair ∈ pairs, (pair.2.fold constants).isCall = false) →
    t.Linked c.places places' next next' (valuesFunctions (pairs.map (·.2)))
      (valuesFunctions (foldAll constants (pairs.map (·.2))))
      (valuesKept constants next (pairs.map (·.2))) →
    t.Mirrors (fun values => (leftValues bound (foldPairs constants pairs) values).map
        (Value.moved t.place))
      (fun blocks₁ s₁ values => t.KnownValues blocks₁ s₁ values ∧
        Declares t.place (droppedPairs bound (foldPairs constants pairs)) (pairs.map (·.1)) values
          ((leftPairs bound (foldPairs constants pairs)).map (·.1))
          ((leftValues bound (foldPairs constants pairs) values).map (Value.moved t.place)))
      none blocks s (evalValues t.plain n c next (pairs.map (·.2)) s)
      (evalValues t.folded n' (c.placed places') next'
        ((leftPairs bound (foldPairs constants pairs)).map (·.2)) s')

/-- Entries of tables. -/
def SimulatesEntries : Prop :=
  ∀ {n' constants blocks c places' next next' es} {s s' : Store}, n ≤ n' → t.At blocks s s' →
    (∀ e ∈ es, Scene constants blocks s.scopes.size c.reach (expr e.1) ∧
      Scene constants blocks s.scopes.size c.reach (expr e.2)) →
    entriesFoldSafely constants es →
    t.Linked c.places places' next next' (entriesFunctions es)
      (entriesFunctions (foldEntries constants es)) (entriesKept constants next es) →
    t.Mirrors (movedPairs t.place) t.KnownPairs none blocks s
      (evalEntries t.plain n c next es s)
      (evalEntries t.folded n' (c.placed places') next' (foldEntries constants es) s')

/-- Calls of values. -/
def SimulatesCall : Prop :=
  ∀ {n' blocks position depth callee arguments} {s s' : Store}, n ≤ n' → t.At blocks s s' →
    t.KnownValue blocks s callee → t.KnownValues blocks s arguments →
    t.Mirrors (List.map (Value.moved t.place)) t.KnownValues none blocks s
      (evalCall t.plain n position depth callee arguments s)
      (evalCall t.folded n' position depth (callee.moved t.place)
        (arguments.map (Value.moved t.place)) s')

/-- Targets of assignments that declare nothing. -/
def SimulatesStores : Prop :=
  ∀ {n' constants blocks c places' next next' targets values} {s s' : Store}, n ≤ n' →
    t.At blocks s s' →
    (∀ e ∈ targets, Scene constants blocks s.scopes.size c.reach (expr e)) →
    (∀ name ∈ boundInTargets targets, ∀ ref ∈ c.reach, ¬ (blocks ref).Gone name) →
    targetsFoldSafely constants targets →
    t.Linked c.places places' next next' (storesFunctions targets)
      (storesFunctions (foldTargets constants targets)) (targetsKept constants next targets) →
    t.KnownValues blocks s values →
    t.Mirrors id NothingKnown none blocks s (evalStores t.plain n c next false targets values s)
      (evalStores t.folded n' (c.placed places') next' false (foldTargets constants targets)
        (values.map (Value.moved t.place)) s')

/-- Blocks that begin with variables. -/
def SimulatesBlock : Prop :=
  ∀ {n' constants blocks c places' next next' names values body} {s s' : Store}, n ≤ n' →
    t.At blocks s s' → Scene constants blocks s.scopes.size c.reach (chunk body) →
    (∀ name ∈ names.map Identifier.name, ∀ ref ∈ c.reach, ¬ (blocks ref).Removes name) →
    foldsSafely (boundNames body) false constants body →
    t.Linked c.places places' next next' (chunkFunctions body)
      (chunkFunctions (foldStats (boundNames body) false constants body).1)
      (chunkKept (boundNames body) false constants next body) →
    t.KnownValues blocks s values →
    t.Mirrors (Outcome.moved t.place) (t.Ends false) none blocks s
      (evalBlock t.plain n c next names values body s)
      (evalBlock t.folded n' (c.placed places') next' names (values.map (Value.moved t.place))
        (foldStats (boundNames body) false constants body).1 s')

/-- Folds what is behind the last branch of a conditional. -/
def foldOtherwise (constants : Constants) (otherwise : Option (List Stat)) : Option (List Stat) :=
  otherwise.map fun body => (foldStats (boundNames body) false constants body).1

/-- Branches of conditionals. -/
def SimulatesBranches : Prop :=
  ∀ {n' constants blocks c places' next next' otherwise branches} {s s' : Store}, n ≤ n' →
    t.At blocks s s' →
    (∀ branch ∈ branches, Scene constants blocks s.scopes.size c.reach (expr branch.1) ∧
      Scene constants blocks s.scopes.size c.reach (chunk branch.2)) →
    (∀ body ∈ otherwise, Scene constants blocks s.scopes.size c.reach (chunk body) ∧
      foldsSafely (boundNames body) false constants body) →
    branchesFoldSafely constants branches →
    t.Linked c.places places' next next'
      (branchesFunctions ((otherwise.map chunkFunctions).getD []) branches)
      (branchesFunctions (((foldOtherwise constants otherwise).map chunkFunctions).getD [])
        (foldBranches constants branches))
      (branchesKept constants ((otherwise.map chunkFunctions).getD [])
        ((otherwise.map fun body => chunkKept (boundNames body) false constants next body).getD [])
        next branches) →
    t.Mirrors (Outcome.moved t.place) (t.Ends false) none blocks s
      (evalBranches t.plain n c next otherwise branches s)
      (evalBranches t.folded n' (c.placed places') next' (foldOtherwise constants otherwise)
        (foldBranches constants branches) s')

/-- Passes of loops that count.  Where the body is folded, `inner` is known. -/
def SimulatesCounting : Prop :=
  ∀ {n' constants inner blocks c places' next next' counter stop step body v} {s s' : Store},
    n ≤ n' → t.At blocks s s' → Scene constants blocks s.scopes.size c.reach (expr stop) →
    Scene constants blocks s.scopes.size c.reach (expr step) →
    Scene inner blocks s.scopes.size c.reach (chunk body) →
    (∀ ref ∈ c.reach, ¬ (blocks ref).Removes counter.name) →
    stop.FoldsSafely constants → step.FoldsSafely constants →
    foldsSafely (boundNames body) false inner body →
    t.Linked c.places places' next next' (chunkFunctions body ++ step.functions ++ stop.functions)
      (chunkFunctions (foldStats (boundNames body) false inner body).1 ++
        (step.fold constants).functions ++ (stop.fold constants).functions)
      (chunkKept (boundNames body) false inner next body ++
        step.keeps constants (next + (chunkFunctions body).length) ++
        stop.keeps constants (next + (chunkFunctions body).length + step.functions.length)) →
    t.KnownValue blocks s v →
    t.Mirrors (Outcome.moved t.place) (t.Ends false) none blocks s
      (evalCounting t.plain n c next counter stop step body v s)
      (evalCounting t.folded n' (c.placed places') next' counter (stop.fold constants)
        (step.fold constants) (foldStats (boundNames body) false inner body).1 (v.moved t.place) s')

/-- Passes of loops over iterators. -/
def SimulatesIterating : Prop :=
  ∀ {n' constants blocks c places' next next' position names body iterator state control}
    {s s' : Store}, n ≤ n' → t.At blocks s s' →
    Scene constants blocks s.scopes.size c.reach (chunk body) →
    (∀ name ∈ names.map Identifier.name, ∀ ref ∈ c.reach, ¬ (blocks ref).Removes name) →
    foldsSafely (boundNames body) false constants body →
    t.Linked c.places places' next next' (chunkFunctions body)
      (chunkFunctions (foldStats (boundNames body) false constants body).1)
      (chunkKept (boundNames body) false constants next body) →
    t.KnownValues blocks s [iterator, state, control] →
    t.Mirrors (Outcome.moved t.place) (t.Ends false) none blocks s
      (evalIterating t.plain n c next position names body iterator state control s)
      (evalIterating t.folded n' (c.placed places') next' position names
        (foldStats (boundNames body) false constants body).1
        (iterator.moved t.place) (state.moved t.place) (control.moved t.place) s')

/-- Statements other than declarations with values. -/
def SimulatesStat : Prop :=
  ∀ {n' keep bound root constants blocks c places' next next' ref below stat folded} {s s' : Store},
    n ≤ n' → t.At blocks s s' → stat.isLocal = false →
    (stat.fold bound root constants).1 = some folded →
    Scene constants blocks s.scopes.size c.reach (Node.stat stat) → c.scopes = ref :: below →
    (∀ name ∈ stat.bound, (blocks ref).binds name) → stat.FoldsSafely constants →
    t.Linked c.places places' next next' stat.functions folded.functions
      (stat.keeps constants next) →
    t.Mirrors (Outcome.moved t.place) (t.Ends keep) none blocks s
      (evalStat t.plain n c next keep stat s)
      (evalStat t.folded n' (c.placed places') next' keep folded s')

/-- What is left of a statement, if anything is. -/
def evalLeft (w : World) (n : Nat) (c : Context) (next : Nat) (keep : Bool) :
    Option Stat → Eval Outcome
  | some s => evalStat w n c next keep s
  | none => pure (.next none)

/-- Declarations with values. -/
def SimulatesDeclaration : Prop :=
  ∀ (keep : Bool) {n' bound root constants blocks c places' next next' ref below names position
    targets values rest} {s s' : Store}, n ≤ n' → t.At blocks s s' →
    Stage constants blocks s.scopes.size c ref below names bound root
      (.assignment position true targets values :: rest) →
    (∀ entry ∈ removedFrom bound root constants (.assignment position true targets values :: rest),
      ¬ (Node.stat (.assignment position true targets values)).Closes entry.1) →
    valuesFoldSafely constants values →
    t.Linked c.places places' next next' (valuesFunctions values)
      (valuesFunctions (foldAll constants values)) (valuesKept constants next values) →
    t.Mirrors (Outcome.moved t.place)
      (fun blocks₁ s₁ o => o = .next none ∧
        Stage ((Stat.assignment position true targets values).fold bound root constants).2 blocks₁
          s₁.scopes.size c ref below names bound root rest)
      (some ref) blocks s
        (evalStat t.plain n c next keep (.assignment position true targets values) s)
      (evalLeft t.folded n' (c.placed places') next' keep
        ((Stat.assignment position true targets values).fold bound root constants).1 s')

/-- Statements one after another, which lead to the end of their block. -/
def SimulatesChunk : Prop :=
  ∀ {n' keep bound root constants blocks c places' next next' ref below names rest} {s s' : Store},
    n ≤ n' → t.At blocks s s' → (keep = true → root = true) →
    Stage constants blocks s.scopes.size c ref below names bound root rest →
    foldsSafely bound root constants rest →
    t.Linked c.places places' next next' (chunkFunctions rest)
      (chunkFunctions (foldStats bound root constants rest).1)
      (chunkKept bound root constants next rest) →
    t.Mirrors (Outcome.moved t.place)
      (fun blocks₁ s₁ o => t.Ends keep blocks₁ s₁ o ∧ ∀ kept, o = .next kept →
        Stage (foldStats bound root constants rest).2 blocks₁ s₁.scopes.size c ref below names bound
          root [])
      (some ref) blocks s (evalChunk t.plain n c next keep rest s)
      (evalChunk t.folded n' (c.placed places') next' keep (foldStats bound root constants rest).1
        s')

/-- **Evaluations that go no deeper than `n`** do in the folded program what they do in the plain
one. -/
structure Simulates : Prop where
  expr : t.SimulatesExpr n
  callExpr : t.SimulatesCallExpr n
  values : t.SimulatesValues n
  paired : t.SimulatesPaired n
  entries : t.SimulatesEntries n
  call : t.SimulatesCall n
  stores : t.SimulatesStores n
  block : t.SimulatesBlock n
  branches : t.SimulatesBranches n
  counting : t.SimulatesCounting n
  iterating : t.SimulatesIterating n
  stat : t.SimulatesStat n
  declaration : t.SimulatesDeclaration n
  chunk : t.SimulatesChunk n

end

theorem Mirrors.undecided {t : Twins} {top : Option ScopeRef} {blocks : Blocks} {α : Type}
    {move : α → α} {post : Blocks → Store → α → Prop} {s : Store}
    {r' : EStateM.Result Stop Store α} :
    t.Mirrors move post top blocks s ((Eval.undecided : Eval α) s) r' := trivial

/-- An evaluation that may go no deeper at all is undecided. -/
theorem simulates_zero (t : Twins) : t.Simulates 0 := by
  constructor <;>
  simp only [SimulatesExpr, SimulatesCallExpr, SimulatesValues, SimulatesPaired, SimulatesEntries,
    SimulatesCall, SimulatesStores, SimulatesBlock, SimulatesBranches, SimulatesCounting,
    SimulatesIterating, SimulatesStat, SimulatesDeclaration, SimulatesChunk, evalExpr, evalCallExpr,
    evalValues, evalEntries, evalCall, evalStores, evalBlock, evalBranches, evalCounting,
    evalIterating, evalStat, evalChunk] <;>
  intros <;>
  exact .undecided

end Twins

end ScriptEngine
