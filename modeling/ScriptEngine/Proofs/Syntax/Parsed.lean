import ScriptEngine.Syntax.Parser
import ScriptEngine.Proofs.Syntax.Formed

/-!
# Trees of texts

Whatever the parser answers is well-formed.  For each part of the grammar it is said
what its trees are like, and one step of the recursion keeps all of that.

## Main definitions

* `Parser.Yields` — what holds of every answer of a computation.
* `Parser.Grammar` — what holds of the answers of the parts of the grammar.

## Main results

* `chunkFormed_of_parse` — the tree of a text is well-formed.
-/

namespace ScriptEngine

namespace Parser

/-! ### Answers of computations -/

/-- Every answer of `p` is as `post` says. -/
def Yields {α : Type} (p : Parser α) (post : α → Prop) : Prop :=
  ∀ tokens a rest, p tokens = .ok (a, rest) → post a

namespace Yields

variable {α β : Type} {p : Parser α} {f : α → Parser β} {post : α → Prop} {goal : β → Prop}

theorem any : p.Yields fun _ => True := fun _ _ _ _ => trivial

theorem pure {a : α} (h : post a) : Yields (Pure.pure a) post := by
  intro tokens b rest hb
  cases hb
  exact h

theorem fail {cause : SyntaxCause} {position : Position} :
    Yields (Parser.fail cause position) post := by
  intro tokens a rest h
  cases h

theorem bind (hp : p.Yields post) (hf : ∀ a, post a → (f a).Yields goal) :
    (p >>= f).Yields goal := by
  intro tokens b rest hb
  cases ha : p tokens with
  | error e =>
    have : (p >>= f) tokens = .error e := by
      change (p tokens >>= fun x => f x.1 x.2) = _
      rw [ha]
      rfl
    rw [this] at hb
    cases hb
  | ok x =>
    have : (p >>= f) tokens = f x.1 x.2 := by
      change (p tokens >>= fun x => f x.1 x.2) = _
      rw [ha]
      rfl
    rw [this] at hb
    exact hf x.1 (hp tokens x.1 x.2 ha) x.2 b rest hb

/-- What a computation reads may be of no concern. -/
theorem after (hf : ∀ a, (f a).Yields goal) : (p >>= f).Yields goal :=
  bind any fun a _ => hf a

theorem map {g : α → β} (hp : p.Yields post) (hg : ∀ a, post a → goal (g a)) :
    (g <$> p).Yields goal :=
  bind hp fun a ha => pure (hg a ha)

theorem exhausted : Yields Parser.exhausted post := after fun _ => fail

theorem ite {c : Prop} [Decidable c] {q : Parser α} (hp : p.Yields post) (hq : q.Yields post) :
    (if c then p else q).Yields post := by
  split <;> assumption

end Yields

/-! ### Parts without recursion -/

theorem yields_checkTargets (targets : List Expr) :
    (checkTargets targets).Yields fun _ => targets.all Expr.isTarget := by
  induction targets with
  | nil => exact .pure rfl
  | cons target rest ih =>
    rw [checkTargets]
    split
    · next h => simpa [h] using ih
    · exact .fail

theorem yields_functionTarget (n : Nat) (target : Expr) (htarget : target.isTarget)
    (hformed : target.formed) :
    (functionTarget target n).Yields fun e => e.isTarget ∧ e.formed := by
  induction n generalizing target with
  | zero => exact .exhausted
  | succ n ih =>
    rw [functionTarget]
    refine .after fun dot => ?_
    split
    · exact .pure ⟨htarget, hformed⟩
    · exact .after fun field => ih _ rfl (by simp [Expr.formed, hformed])

theorem formed_grouped (position : Position) {inner : Expr} (h : inner.formed) :
    (grouped position inner).formed := by
  rw [grouped]
  split
  · next hcall => simp [Expr.formed, h, hcall]
  · exact h

/-! ### The grammar -/

/-- What holds of the answers of the parts of the grammar when the depth of recursion
is bounded by `n`. -/
structure Grammar (n : Nat) : Prop where
  block : ∀ level inLoop, (block n level inLoop).Yields (chunkFormed inLoop ·)
  statements : ∀ level inLoop, (statements n level inLoop).Yields (chunkFormed inLoop ·)
  statement : ∀ level inLoop, (statement n level inLoop).Yields (·.formed inLoop)
  conditional : ∀ level inLoop, (conditional n level inLoop).Yields (·.formed inLoop)
  elseIfs : ∀ level inLoop, (elseIfs n level inLoop).Yields (branchesFormed inLoop ·)
  elseBranch : ∀ level inLoop,
    (elseBranch n level inLoop).Yields fun otherwise => ∀ body ∈ otherwise,
      chunkFormed inLoop body
  forLoop : ∀ level inLoop, (forLoop n level).Yields (·.formed inLoop)
  forStep : ∀ level, (forStep n level).Yields fun step => ∀ e ∈ step, e.formed
  functionStatement : ∀ level inLoop, (functionStatement n level).Yields (·.formed inLoop)
  localStatement : ∀ level inLoop, (localStatement n level).Yields (·.formed inLoop)
  expressionStatement : ∀ level inLoop, (expressionStatement n level).Yields (·.formed inLoop)
  functionBody : ∀ level position, (functionBody n level position).Yields (·.formed)
  expressions : ∀ level,
    (expressions n level).Yields fun es => !es.isEmpty ∧ allFormed es
  moreExpressions : ∀ level, (moreExpressions n level).Yields (allFormed ·)
  expression : ∀ level, (expression n level).Yields (·.formed)
  operand : ∀ level limit, (operand n level limit).Yields (·.formed)
  operators : ∀ level limit lhs, lhs.formed → (operators n level limit lhs).Yields (·.formed)
  simple : ∀ level, (simple n level).Yields (·.formed)
  primary : ∀ level, (primary n level).Yields (·.formed)
  suffixes : ∀ level e, e.formed → (suffixes n level e).Yields (·.formed)
  tableConstructor : ∀ level, (tableConstructor n level).Yields (·.formed)
  tableEntries : ∀ level index, (tableEntries n level index).Yields (entriesFormed ·)
  moreEntries : ∀ level index entry, entry.1.formed → entry.2.formed →
    (moreEntries n level index entry).Yields (entriesFormed ·)

theorem grammar_zero : Grammar 0 := by
  constructor <;> intros <;>
    simp only [block, statements, statement, conditional, elseIfs, elseBranch, forLoop, forStep,
      functionStatement, localStatement, expressionStatement, functionBody, expressions,
      moreExpressions, expression, operand, operators, simple, primary, suffixes,
      tableConstructor, tableEntries, moreEntries] <;>
    exact .exhausted

section Step

variable {n : Nat} (g : Grammar n)
include g

/-- The values of a return and the arguments of a call may be left out. -/
theorem yields_optional {β : Type} {c : Prop} [Decidable c] {level : Nat}
    {f : List Expr → Parser β} {goal : β → Prop}
    (hf : ∀ es, allFormed es → (f es).Yields goal) :
    Yields (if c then pure [] >>= f else expressions n level >>= f) goal :=
  .ite (hf [] rfl) (.bind (g.expressions level) fun es hes => hf es hes.2)

theorem yields_statement (level : Nat) (inLoop : Bool) :
    (statement (n + 1) level inLoop).Yields (·.formed inLoop) := by
  rw [statement]
  refine .after fun t => ?_
  split
  · exact g.conditional level inLoop
  · refine .after fun opened => .bind (g.expression level) fun condition hcondition => ?_
    refine .after fun _ => .bind (g.block level true) fun body hbody => .after fun _ => ?_
    exact .pure (by simp [Stat.formed, hcondition, hbody])
  · refine .after fun _ => .bind (g.block level inLoop) fun body hbody => .after fun _ => ?_
    exact .pure (by simp [Stat.formed, hbody])
  · exact g.forLoop level inLoop
  · refine .after fun opened => .bind (g.block level true) fun body hbody => .after fun _ => ?_
    refine .bind (g.expression level) fun condition hcondition => ?_
    exact .pure (by simp [Stat.formed, hcondition, hbody])
  · exact g.functionStatement level inLoop
  · exact g.localStatement level inLoop
  · refine .after fun opened => .after fun following => ?_
    extract_lets rest
    exact yields_optional g fun values hvalues => .after fun _ => .pure hvalues
  · refine .after fun opened => ?_
    split
    · next h => exact .pure h
    · exact .fail
  · exact g.expressionStatement level inLoop

theorem yields_conditional (level : Nat) (inLoop : Bool) :
    (conditional (n + 1) level inLoop).Yields (·.formed inLoop) := by
  rw [conditional]
  refine .after fun opened => .bind (g.expression level) fun condition hcondition => ?_
  refine .after fun _ => .bind (g.block level inLoop) fun body hbody => ?_
  refine .bind (g.elseIfs level inLoop) fun branches hbranches => ?_
  refine .bind (g.elseBranch level inLoop) fun otherwise hotherwise => .after fun _ => .pure ?_
  cases otherwise with
  | none => simp [Stat.formed, branchesFormed, hcondition, hbody, hbranches]
  | some last =>
    simp [Stat.formed, branchesFormed, hcondition, hbody, hbranches, hotherwise last rfl]

theorem yields_forLoop (level : Nat) (inLoop : Bool) :
    (forLoop (n + 1) level).Yields (·.formed inLoop) := by
  rw [forLoop]
  refine .after fun opened => .after fun first => .after fun sign => ?_
  split
  · refine .bind (g.expression level) fun start hstart => .after fun _ => ?_
    refine .bind (g.expression level) fun stop hstop => ?_
    refine .bind (g.forStep level) fun step hstep => .after fun _ => ?_
    refine .bind (g.block level true) fun body hbody => .after fun _ => .pure ?_
    cases step with
    | none => simp [Stat.formed, hstart, hstop, hbody]
    | some step => simp [Stat.formed, hstart, hstop, hstep step rfl, hbody]
  · refine .after fun names => .after fun _ => ?_
    refine .bind (g.expressions level) fun iterators hiterators => .after fun _ => ?_
    refine .bind (g.block level true) fun body hbody => .after fun _ => .pure ?_
    simpa [Stat.formed, hbody] using hiterators

theorem yields_functionStatement (level : Nat) (inLoop : Bool) :
    (functionStatement (n + 1) level).Yields (·.formed inLoop) := by
  rw [functionStatement]
  refine .after fun opened => .after fun name => ?_
  refine .bind (yields_functionTarget n _ rfl rfl) fun target htarget => .after fun colon => ?_
  split
  · exact .fail
  · refine .bind (g.functionBody level _) fun function hfunction => .pure ?_
    simp [Stat.formed, allFormed, hfunction, htarget.1, htarget.2]

theorem yields_localStatement (level : Nat) (inLoop : Bool) :
    (localStatement (n + 1) level).Yields (·.formed inLoop) := by
  rw [localStatement]
  refine .after fun opened => .after fun word => ?_
  split
  · refine .after fun name => .bind (g.functionBody level _) fun function hfunction => ?_
    exact .pure hfunction
  · refine .after fun first => .after fun names => .after fun sign => ?_
    split
    · exact .pure rfl
    · refine .bind (g.expressions level) fun values hvalues => .pure ?_
      simpa [Stat.formed, Expr.isVar, allFormed_iff, Expr.formed] using hvalues

theorem yields_expressionStatement (level : Nat) (inLoop : Bool) :
    (expressionStatement (n + 1) level).Yields (·.formed inLoop) := by
  rw [expressionStatement]
  refine .bind (g.expression level) fun first hfirst => .after fun following => .ite ?_ ?_
  · refine .bind (g.moreExpressions level) fun targets htargets => .after fun _ => ?_
    refine .bind (yields_checkTargets _) fun _ hassignable => ?_
    refine .bind (g.expressions level) fun values hvalues => .pure ?_
    simp only [List.all_cons, Bool.and_eq_true] at hassignable
    simp [Stat.formed, allFormed, hfirst, htargets, hassignable, hvalues]
  · exact .pure hfirst

theorem yields_functionBody (level : Nat) (position : Position) :
    (functionBody (n + 1) level position).Yields (·.formed) := by
  rw [functionBody]
  refine .after fun _ => .after fun following => ?_
  extract_lets rest
  have hrest : ∀ parameters, (rest parameters).Yields (·.formed) := fun parameters =>
    .after fun _ => .bind (g.block level false) fun body hbody => .after fun _ => .pure hbody
  exact .ite (.after hrest) (.after fun first => .after fun names => .after hrest)

theorem yields_operand (level limit : Nat) :
    (operand (n + 1) level limit).Yields (·.formed) := by
  rw [operand]
  refine .after fun t => .after fun _ => ?_
  split
  · refine .after fun _ => .bind (g.operand _ _) fun inner hinner => ?_
    exact g.operators _ _ _ hinner
  · exact .bind (g.simple _) fun first hfirst => g.operators _ _ _ hfirst

theorem yields_operators (level limit : Nat) (lhs : Expr) (h : lhs.formed) :
    (operators (n + 1) level limit lhs).Yields (·.formed) := by
  rw [operators]
  refine .after fun t => ?_
  split
  · exact .pure h
  · refine .ite (.pure h) (.after fun _ => .after fun _ => ?_)
    refine .bind (g.operand _ _) fun rhs hrhs => ?_
    exact g.operators _ _ _ (by simp [Expr.formed, h, hrhs])

theorem yields_simple (level : Nat) : (simple (n + 1) level).Yields (·.formed) := by
  rw [simple]
  refine .after fun t => .after fun value => ?_
  split
  · exact .after fun _ => .pure rfl
  · split
    · exact .after fun _ => g.functionBody level _
    · exact g.tableConstructor level
    · exact .bind (g.primary level) fun first hfirst => g.suffixes level first hfirst

theorem yields_primary (level : Nat) : (primary (n + 1) level).Yields (·.formed) := by
  rw [primary]
  refine .after fun t => ?_
  split
  · exact .pure rfl
  · refine .bind (g.expression level) fun inner hinner => .after fun _ => ?_
    exact .pure (formed_grouped _ hinner)
  · exact .fail

theorem yields_suffixes (level : Nat) (e : Expr) (h : e.formed) :
    (suffixes (n + 1) level e).Yields (·.formed) := by
  rw [suffixes]
  refine .after fun t => .ite .fail (.ite (.pure h) (.after fun _ => ?_))
  split
  · exact .after fun _ => .after fun field => g.suffixes _ _ (by simp [Expr.formed, h])
  · refine .after fun _ => .bind (g.expression _) fun key hkey => .after fun _ => ?_
    exact g.suffixes _ _ (by simp [Expr.formed, h, hkey])
  · refine .after fun _ => .after fun following => ?_
    extract_lets rest
    refine yields_optional g fun arguments harguments => .after fun _ => ?_
    exact g.suffixes _ _ (by simp [Expr.formed, h, harguments])
  · refine .bind (g.simple _) fun argument hargument => ?_
    exact g.suffixes _ _ (by simp [Expr.formed, allFormed, h, hargument])

theorem yields_tableEntries (level index : Nat) :
    (tableEntries (n + 1) level index).Yields (entriesFormed ·) := by
  rw [tableEntries]
  refine .after fun first => .ite (.pure rfl) (.after fun second => .ite ?_ (.ite ?_ ?_))
  · refine .after fun _ => .bind (g.expression level) fun key hkey => ?_
    refine .after fun _ => .after fun _ => .bind (g.expression level) fun value hvalue => ?_
    exact g.moreEntries level index _ hkey hvalue
  · refine .after fun _ => .after fun _ => .bind (g.expression level) fun value hvalue => ?_
    exact g.moreEntries level index _ rfl hvalue
  · refine .bind (g.expression level) fun value hvalue => ?_
    exact g.moreEntries level _ _ rfl hvalue

theorem yields_moreEntries (level index : Nat) (entry : Expr × Expr) (hkey : entry.1.formed)
    (hvalue : entry.2.formed) :
    (moreEntries (n + 1) level index entry).Yields (entriesFormed ·) := by
  have hmore : Yields (do let rest ← tableEntries n level index; Pure.pure (entry :: rest))
      (entriesFormed ·) :=
    .bind (g.tableEntries level index) fun rest hrest =>
      .pure (by simp [entriesFormed, hkey, hvalue, hrest])
  rw [moreEntries]
  refine .after fun comma => ?_
  split
  · exact hmore
  · refine .after fun semicolon => ?_
    split
    · exact hmore
    · exact .pure (by simp [entriesFormed, hkey, hvalue])

/-- One step of the recursion keeps what holds of the answers. -/
theorem Grammar.succ : Grammar (n + 1) where
  block level inLoop := by
    rw [Parser.block]
    exact .after fun _ => .after fun _ => g.statements _ _
  statements level inLoop := by
    rw [Parser.statements]
    refine .after fun t => .ite (.pure rfl) (.ite (.after fun _ => g.statements _ _) ?_)
    refine .bind (g.statement level inLoop) fun first hfirst => ?_
    refine .bind (g.statements level inLoop) fun rest hrest => ?_
    exact .pure (by simp [chunkFormed, hfirst, hrest])
  statement := yields_statement g
  conditional := yields_conditional g
  elseIfs level inLoop := by
    rw [Parser.elseIfs]
    refine .after fun word => ?_
    split
    · exact .pure rfl
    · refine .bind (g.expression level) fun condition hcondition => .after fun _ => ?_
      refine .bind (g.block level inLoop) fun body hbody => ?_
      refine .bind (g.elseIfs level inLoop) fun branches hbranches => ?_
      exact .pure (by simp [branchesFormed, hcondition, hbody, hbranches])
  elseBranch level inLoop := by
    rw [Parser.elseBranch]
    refine .after fun word => ?_
    split
    · exact .pure (by simp)
    · exact .map (g.block level inLoop) fun body hbody => by simpa using hbody
  forLoop := yields_forLoop g
  forStep level := by
    rw [Parser.forStep]
    refine .after fun comma => ?_
    split
    · exact .pure (by simp)
    · exact .map (g.expression level) fun step hstep => by simpa using hstep
  functionStatement := yields_functionStatement g
  localStatement := yields_localStatement g
  expressionStatement := yields_expressionStatement g
  functionBody := yields_functionBody g
  expressions level := by
    rw [Parser.expressions]
    refine .bind (g.expression level) fun first hfirst => ?_
    refine .bind (g.moreExpressions level) fun rest hrest => ?_
    exact .pure (by simp [allFormed, hfirst, hrest])
  moreExpressions level := by
    rw [Parser.moreExpressions]
    refine .after fun comma => ?_
    split
    · exact .pure rfl
    · refine .bind (g.expression level) fun first hfirst => ?_
      refine .bind (g.moreExpressions level) fun rest hrest => ?_
      exact .pure (by simp [allFormed, hfirst, hrest])
  expression level := by
    rw [Parser.expression]
    exact g.operand level 0
  operand := yields_operand g
  operators := yields_operators g
  simple := yields_simple g
  primary := yields_primary g
  suffixes := yields_suffixes g
  tableConstructor level := by
    rw [Parser.tableConstructor]
    refine .after fun opened => .bind (g.tableEntries level 1) fun entries hentries => ?_
    exact .after fun _ => .pure hentries
  tableEntries := yields_tableEntries g
  moreEntries := yields_moreEntries g

end Step

theorem grammar (n : Nat) : Grammar n := by
  induction n with
  | zero => exact grammar_zero
  | succ n ih => exact ih.succ

theorem yields_chunk (fuel : Nat) : (chunk fuel).Yields (chunkFormed false ·) := by
  rw [chunk]
  refine .bind ((grammar fuel).block 0 false) fun body hbody => .after fun t => ?_
  exact .ite (.pure hbody) .fail

end Parser

/-- **The tree of a text is well-formed.** -/
theorem chunkFormed_of_parse {source : String} {chunk : Chunk}
    (h : parse source = .ok chunk) : chunkFormed false chunk := by
  have hrun : (Parser.chunk (Parser.fuelFor (tokenize source))).run' (tokenize source)
      = .ok chunk := h
  rw [StateT.run'] at hrun
  cases hchunk : Parser.chunk (Parser.fuelFor (tokenize source)) (tokenize source) with
  | error e =>
    rw [hchunk] at hrun
    cases hrun
  | ok answer =>
    rw [hchunk] at hrun
    cases hrun
    exact Parser.yields_chunk _ _ _ _ hchunk

end ScriptEngine
