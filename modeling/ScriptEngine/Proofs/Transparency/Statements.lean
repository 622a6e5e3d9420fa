import ScriptEngine.Proofs.Transparency.Loops

/-!
# Folded statements

Statements other than declarations with values do in the folded program what they do in the plain
one if all that is nested less deeply does.

## Main definitions

* `Twins.SimulatesStatOf` — the same for one statement, at one level of nesting more.

## Main results

* `Twins.simulatesStat_succ` — one level of nesting more.
-/

namespace ScriptEngine

open Node

/-! ### Expressions as statements -/

section

variable {n : Nat} {c : Context} {next : Nat} {keep : Bool} {e : Expr}

/-- What is kept of the value of an expression. -/
def keptIf (keep : Bool) (v : Value) : Outcome := .next (if keep then some v else none)

theorem evalStat_expression (w : World) (h : e.isCall = false) :
    evalStat w (n + 1) c next keep (.expression e) = (do
      let v ← evalExpr w n c next e
      pure (keptIf keep v)) := by
  cases e with
  | call position callee arguments => cases h
  | _ => simp only [evalStat, keptIf]

/-- A call as a statement is evaluated like one whose first result is asked for. -/
theorem evalStat_expression_call (w : World) (h : e.isCall = true) :
    evalStat w (n + 1) c next keep (.expression e) = (do
      let v ← evalExpr w (n + 1) c next e
      pure (keptIf keep v)) := by
  cases e with
  | call position callee arguments =>
    simp only [evalStat, evalExpr, keptIf, bind_assoc, pure_bind]
  | _ => cases h

end

namespace Twins

variable {t : Twins} {n m : Nat} {blocks : Blocks} {s s' : Store} {keep : Bool}

theorem Ends.keeping {o : Outcome} (h : t.Ends false blocks s o) : t.Ends keep blocks s o := by
  cases o with
  | next kept => exact ⟨fun _ => h.1 rfl, h.2⟩
  | leave => trivial
  | result values => exact h

/-- A statement that leaves nothing. -/
theorem Mirrors.done {top : Option ScopeRef} (h : t.At blocks s s') :
    t.Mirrors (Outcome.moved t.place) (t.Ends keep) top blocks s
      ((Pure.pure (.next none) : Eval Outcome) s) ((Pure.pure (.next none) : Eval Outcome) s') :=
  .pure h rfl ends_none

theorem Mirrors.keptIf {top : Option ScopeRef} {v : Value} (h : t.At blocks s s')
    (hv : t.KnownValue blocks s v) :
    t.Mirrors (Outcome.moved t.place) (t.Ends keep) top blocks s
      ((Pure.pure (keptIf keep v) : Eval Outcome) s)
      ((Pure.pure (ScriptEngine.keptIf keep (v.moved t.place)) : Eval Outcome) s') := by
  cases keep with
  | false => exact .done h
  | true => exact .pure h rfl ⟨fun hkeep => absurd hkeep.symm Bool.false_ne_true, fun w hw => by
      obtain rfl := Option.some.inj hw
      exact hv⟩

theorem simulates_expression (ih : t.Simulates n) {constants : Constants} {c : Context}
    {places' : List Nat} {next next' : Nat} {e : Expr} (hm : n ≤ m) (hat : t.At blocks s s')
    (hscene : Scene constants blocks s.scopes.size c.reach (expr e))
    (hsafe : e.FoldsSafely constants)
    (hlinked : t.Linked c.places places' next next' e.functions (e.fold constants).functions
      (e.keeps constants next)) :
    t.Mirrors (Outcome.moved t.place) (t.Ends keep) none blocks s
      (evalStat t.plain (n + 1) c next keep (.expression e) s)
      (evalStat t.folded (m + 1) (c.placed places') next' keep (.expression (e.fold constants))
        s') := by
  cases hcall : e.isCall with
  | true =>
    cases e with
    | call position callee arguments =>
      have hresults := ih.callExpr hm hat hscene hsafe hlinked
      simp only [Expr.fold, evalStat]
      refine hresults.bind fun results blocks₁ s₁ s₁' hleads hknown => ?_
      rw [headD_map_moved]
      exact .keptIf hleads.arrived hknown.headD
    | _ => cases hcall
  | false =>
    rw [evalStat_expression t.plain hcall]
    -- What is folded to a call is evaluated as one.
    obtain ⟨k, hk, heval⟩ : ∃ k, n ≤ k ∧
        evalStat t.folded (m + 1) (c.placed places') next' keep (.expression (e.fold constants)) =
          (evalExpr t.folded k (c.placed places') next' (e.fold constants) >>= fun v =>
            pure (ScriptEngine.keptIf keep v)) := by
      cases hfold : (e.fold constants).isCall with
      | true => exact ⟨m + 1, Nat.le_succ_of_le hm, evalStat_expression_call t.folded hfold⟩
      | false => exact ⟨m, hm, evalStat_expression t.folded hfold⟩
    rw [heval]
    refine (ih.expr hk hat hscene hsafe hlinked).bind fun v blocks₁ s₁ s₁' hleads hv => ?_
    exact .keptIf hleads.arrived hv

/-! ### Loops -/

theorem simulates_numericFor (ih : t.Simulates n) {constants inner : Constants} {c : Context}
    {places' : List Nat} {next next' : Nat} {counter : Identifier} {start stop step : Expr}
    {body : List Stat} (hm : n ≤ m) (hat : t.At blocks s s')
    (hstart : Scene constants blocks s.scopes.size c.reach (expr start))
    (hstop : Scene constants blocks s.scopes.size c.reach (expr stop))
    (hstep : Scene constants blocks s.scopes.size c.reach (expr step))
    (hbody : Scene inner blocks s.scopes.size c.reach (chunk body))
    (hcounter : ∀ ref ∈ c.reach, ¬ (blocks ref).Removes counter.name)
    (hsafeStart : start.FoldsSafely constants) (hsafeStop : stop.FoldsSafely constants)
    (hsafeStep : step.FoldsSafely constants)
    (hsafeBody : foldsSafely (boundNames body) false inner body)
    (hlinked : t.Linked c.places places' next next'
      (chunkFunctions body ++ step.functions ++ stop.functions ++ start.functions)
      (chunkFunctions (foldStats (boundNames body) false inner body).1 ++
        (step.fold constants).functions ++ (stop.fold constants).functions ++
        (start.fold constants).functions)
      (chunkKept (boundNames body) false inner next body ++
        step.keeps constants (next + (chunkFunctions body).length) ++
        stop.keeps constants (next + (chunkFunctions body).length + step.functions.length) ++
        start.keeps constants (next + (chunkFunctions body).length + step.functions.length +
          stop.functions.length))) :
    t.Mirrors (Outcome.moved t.place) (t.Ends keep) none blocks s
      ((evalExpr t.plain n c (next + (chunkFunctions body).length + step.functions.length +
          stop.functions.length) start >>= fun v =>
        evalCounting t.plain n c next counter stop step body v) s)
      ((evalExpr t.folded m (c.placed places')
          (next' + (chunkFunctions (foldStats (boundNames body) false inner body).1).length +
            (step.fold constants).functions.length + (stop.fold constants).functions.length)
          (start.fold constants) >>= fun v =>
        evalCounting t.folded m (c.placed places') next' counter (stop.fold constants)
          (step.fold constants) (foldStats (boundNames body) false inner body).1 v) s') := by
  have hlengthBody := length_chunkKept body (boundNames body) false inner next
  have hlengthStep := step.length_keeps constants (next + (chunkFunctions body).length)
  have hlengthStop := stop.length_keeps constants
    (next + (chunkFunctions body).length + step.functions.length)
  have hlinkedStart := hlinked.right (by simp [hlengthBody, hlengthStep, hlengthStop])
  simp only [List.length_append, ← Nat.add_assoc] at hlinkedStart
  refine (ih.expr hm hat hstart hsafeStart hlinkedStart).bind fun v blocks₁ s₁ s₁' hleads hv => ?_
  have hcounter' := hleads.grows.free (P := (· = counter.name)) hbody.inside
    (by rintro _ rfl; exact hcounter) counter.name rfl
  exact (ih.counting hm hleads.arrived (hstop.grows hleads.grows) (hstep.grows hleads.grows)
    (hbody.grows hleads.grows) hcounter' hsafeStop hsafeStep hsafeBody hlinked.left hv).imp
      fun _ _ _ _ _ hends => hends.keeping

/-- A `repeat` loop, whose condition is evaluated in the scope of its body. -/
theorem simulates_repeatLoop (ih : t.Simulates n) {bound : List String} {root : Bool}
    {constants : Constants} {c : Context} {places' : List Nat} {next next' : Nat} {ref : ScopeRef}
    {below : List ScopeRef} {position : Position} {body : List Stat} {condition : Expr} (hm : n ≤ m)
    (hat : t.At blocks s s')
    (hscene : Scene constants blocks s.scopes.size c.reach
      (stat (.repeatLoop position body condition)))
    (hscopes : c.scopes = ref :: below)
    (hbinds : ∀ name ∈ (Stat.repeatLoop position body condition).bound, (blocks ref).binds name)
    (hsafe : (Stat.repeatLoop position body condition).FoldsSafely constants)
    (hlinked : t.Linked c.places places' next next'
      (chunkFunctions body ++ condition.functions)
      (chunkFunctions (foldStats (boundNames body) false constants body).1 ++
        (condition.fold (foldStats (boundNames body) false constants body).2).functions)
      (chunkKept (boundNames body) false constants next body ++
        condition.keeps (foldStats (boundNames body) false constants body).2
          (next + (chunkFunctions body).length)))
    (hfold : ((Stat.repeatLoop position body condition).fold bound root constants).1 =
      some (.repeatLoop position (foldStats (boundNames body) false constants body).1
        (condition.fold (foldStats (boundNames body) false constants body).2))) :
    t.Mirrors (Outcome.moved t.place) (t.Ends keep) none blocks s
      (evalStat t.plain (n + 1) c next keep (.repeatLoop position body condition) s)
      (evalStat t.folded (m + 1) (c.placed places') next' keep
        (.repeatLoop position (foldStats (boundNames body) false constants body).1
          (condition.fold (foldStats (boundNames body) false constants body).2)) s') := by
  obtain ⟨hsafeBody, hsafeCondition, hunbound⟩ := hsafe
  have hbody := hscene.of_chunk body (by simp [children])
  have hcondition := hscene.of_expr condition (by simp [children])
  simp only [evalStat]
  refine .newScope hat (b := .opening [] constants body) rfl fun s₁' hleads₁ => ?_
  have hnew : s.newScope.1.index < s.newScope.2.scopes.size := by
    rw [Store.size_newScope]
    exact Nat.lt_succ_self _
  have hstage :=
    hbody.enter (c := c.inside s.newScope.1) [] rfl hnew rfl rfl (List.forall_mem_nil _)
    (fun _ hname => hname.of_child (by simp [children])) hscene.fits
  refine (ih.chunk hm hleads₁.arrived (absurd · Bool.false_ne_true) hstage hsafeBody
    hlinked.left).bind ?_
  rintro o blocks₂ s₂ s₂' hleads₂ ⟨hends, hfinal⟩
  cases o with
  | next kept =>
    have hnew' : s.scopes.size ≤ s.newScope.1.index := Nat.le_refl _
    have hleads₁₂ := hleads₁.of_new hnew' hleads₂
    have hgone : ∀ name ∈ condition.bound, ¬ (blocks₂ s.newScope.1).Gone name := by
      rintro name hname ⟨literal, hentry⟩
      have hpassed := (hleads₂.grows.leads _ hnew).passed hentry
      rw [Function.update_self] at hpassed
      exact hunbound _ hpassed hname
    have hbehind := hcondition.behind (hfinal kept rfl) rfl hleads₁₂.grows
      (fun _ hname => hname.of_child (by simp [children])) hgone
    refine (ih.expr hm hleads₂.arrived hbehind hsafeCondition
      (hlinked.right (length_chunkKept body _ _ constants next))).of_none.bind
        fun v blocks₃ s₃ s₃' hleads₃ _ => ?_
    have hleads₁₃ := hleads₁.of_new hnew' (hleads₂.trans hleads₃)
    rw [Value.isTruthy_moved]
    split
    · exact .done hleads₃.arrived
    · refine (ih.stat hm hleads₃.arrived rfl hfold (hscene.grows hleads₁₃.grows) hscopes ?_
        ⟨hsafeBody, hsafeCondition, hunbound⟩ hlinked).of_none
      intro name hname
      rw [hleads₁₃.grows.eq_of_none (hscene.inside ref (mem_reach hscopes))]
      exact hbinds name hname
  | leave => exact .done hleads₂.arrived
  | result values => exact .pure hleads₂.arrived rfl hends

/-! ### Statements -/

/-- A statement does in the folded program what it does in the plain one, one level of nesting above
what is simulated. -/
def SimulatesStatOf (t : Twins) (n : Nat) (stat : Stat) : Prop :=
  ∀ {m keep bound root constants blocks c places' next next' ref below folded} {s s' : Store},
    n ≤ m → t.At blocks s s' → stat.isLocal = false →
    (stat.fold bound root constants).1 = some folded →
    Scene constants blocks s.scopes.size c.reach (Node.stat stat) → c.scopes = ref :: below →
    (∀ name ∈ stat.bound, (blocks ref).binds name) → stat.FoldsSafely constants →
    t.Linked c.places places' next next' stat.functions folded.functions
      (stat.keeps constants next) →
    t.Mirrors (Outcome.moved t.place) (t.Ends keep) none blocks s
      (evalStat t.plain (n + 1) c next keep stat s)
      (evalStat t.folded (m + 1) (c.placed places') next' keep folded s')

/-- Values, and then targets that declare nothing. -/
theorem simulatesStatOf_assignment (ih : t.Simulates n) (position : Position)
    (targets values : List Expr) :
    t.SimulatesStatOf n (.assignment position false targets values) := by
  intro m keep bound root constants blocks c places' next next' ref below folded s s' hm hat hlocal
    hfold hscene hscopes hbinds hsafe hlinked
  obtain rfl := Option.some.inj hfold
  have hvalues : ∀ e ∈ values, Scene constants blocks s.scopes.size c.reach (expr e) := fun e he =>
    hscene.of_expr e (List.mem_map_of_mem (List.mem_append_right _ he))
  simp only [Stat.functions, Stat.keeps, Stat.FoldsSafely, evalStat] at hsafe hlinked ⊢
  refine (ih.values hm hat hvalues hsafe.2 hlinked.left).bind
    fun values' blocks₁ s₁ s₁' hleads₁ hvalues' => ?_
  have htargets : ∀ e ∈ targets, Scene constants blocks₁ s₁.scopes.size c.reach (expr e) :=
    fun e he =>
      (hscene.of_expr e (List.mem_map_of_mem (List.mem_append_left _ he))).grows hleads₁.grows
  have hfree := hleads₁.grows.free hscene.inside hscene.free
  refine (ih.stores hm hleads₁.arrived htargets (fun name hname ref href hgone =>
    hfree name (List.mem_append_left _ hname) ref href (.inl hgone)) hsafe.1
    (hlinked.right (length_valuesKept values constants next)) hvalues').bind
      fun _ blocks₂ s₂ s₂' hleads₂ _ => ?_
  exact .done hleads₂.arrived

/-- Variables without values. -/
theorem simulatesStatOf_declaration (names : List Identifier) :
    t.SimulatesStatOf n (.declaration names) := by
  intro m keep bound root constants blocks c places' next next' ref below folded s s' hm hat hlocal
    hfold hscene hscopes hbinds hsafe hlinked
  have href := mem_reach hscopes
  have hscopes' : (c.placed places').scopes = ref :: below := hscopes
  obtain rfl := Option.some.inj hfold
  have hnames : ∀ name ∈ names, ¬ (blocks ref).Gone name.name ∧ (blocks ref).binds name.name :=
    fun name hname => ⟨fun hgone => hscene.free name.name (List.mem_map_of_mem hname) ref href
      (.inl hgone), hbinds name.name (List.mem_map_of_mem hname)⟩
  simp only [evalStat]
  refine (Mirrors.declareAll hat hscopes hscopes' hnames).bind fun _ blocks₁ s₁ s₁' hleads _ => ?_
  exact .done hleads.arrived

/-- A variable that is declared before its function is made. -/
theorem simulatesStatOf_localFunction (ih : t.Simulates n) (name : Identifier) (function : Expr) :
    t.SimulatesStatOf n (.localFunction name function) := by
  intro m keep bound root constants blocks c places' next next' ref below folded s s' hm hat hlocal
    hfold hscene hscopes hbinds hsafe hlinked
  have href := mem_reach hscopes
  have hscopes' : (c.placed places').scopes = ref :: below := hscopes
  obtain rfl := Option.some.inj hfold
  have hbound : name.name ∈ (Stat.localFunction name function).bound := List.mem_cons_self
  have hnames : ∀ other ∈ [name], ¬ (blocks ref).Gone other.name ∧ (blocks ref).binds other.name :=
    List.forall_mem_singleton.2 ⟨fun hgone => hscene.free _ hbound ref href (.inl hgone),
      hbinds _ hbound⟩
  have hfree : ∀ other ∈ [name].map Identifier.name, ∀ ref ∈ c.reach,
      ¬ (blocks ref).Removes other :=
    List.forall_mem_singleton.2 (hscene.free _ hbound)
  have hfunction := (hscene.of_expr function (by simp [children])).shadow hfree
  simp only [evalStat]
  refine (Mirrors.declareAll hat hscopes hscopes' hnames).bind fun _ blocks₁ s₁ s₁' hleads₁ _ => ?_
  refine (ih.expr hm hleads₁.arrived (hfunction.grows hleads₁.grows) hsafe hlinked).bind
    fun v blocks₂ s₂ s₂' hleads₂ hv => ?_
  have hfree := (hleads₁.trans hleads₂).grows.free hscene.inside hscene.free _ hbound
  refine (Mirrors.change (Store.size_write _) (hleads₂.arrived.write
    (fun ref href hgone => hfree ref href (.inl hgone)) hv)).bind
      fun _ blocks₃ s₃ s₃' hleads₃ _ => ?_
  exact .done hleads₃.arrived

/-- Branches, with or without something behind the last one. -/
theorem simulatesStatOf_conditional (ih : t.Simulates n) (position : Position)
    (branches : List (Expr × List Stat)) (otherwise : Option (List Stat)) :
    t.SimulatesStatOf n (.conditional position branches otherwise) := by
  intro m keep bound root constants blocks c places' next next' ref below folded s s' hm hat hlocal
    hfold hscene hscopes hbinds hsafe hlinked
  have hbranches :
      ∀ branch ∈ branches, Scene constants blocks s.scopes.size c.reach (expr branch.1) ∧
      Scene constants blocks s.scopes.size c.reach (chunk branch.2) := fun branch hbranch =>
    ⟨hscene.of_expr _ (List.mem_append_left _ (List.mem_flatMap_of_mem hbranch (by simp))),
      hscene.of_chunk _ (List.mem_append_left _ (List.mem_flatMap_of_mem hbranch (by simp)))⟩
  cases otherwise with
  | none =>
    obtain rfl := Option.some.inj hfold
    simp only [evalStat]
    exact (ih.branches hm hat hbranches (fun _ hbody => by cases hbody) hsafe hlinked).imp
      fun _ _ _ _ _ hends => hends.keeping
  | some body =>
    obtain rfl := Option.some.inj hfold
    have hbody : ∀ other ∈ some body, Scene constants blocks s.scopes.size c.reach (chunk other) ∧
        foldsSafely (boundNames other) false constants other := by
      intro other hother
      obtain rfl := Option.some.inj hother
      exact ⟨hscene.of_chunk _ (List.mem_append_right _ (by simp)), hsafe.2⟩
    simp only [evalStat]
    exact (ih.branches hm hat hbranches hbody hsafe.1 hlinked).imp
      fun _ _ _ _ _ hends => hends.keeping

/-- A pass, and then the loop once more. -/
theorem simulatesStatOf_whileLoop (ih : t.Simulates n) (position : Position) (condition : Expr)
    (body : List Stat) :
    t.SimulatesStatOf n (.whileLoop position condition body) := by
  intro m keep bound root constants blocks c places' next next' ref below folded s s' hm hat hlocal
    hfold hscene hscopes hbinds hsafe hlinked
  have href := mem_reach hscopes
  have hwhole := hfold
  obtain rfl := Option.some.inj hfold
  have hbody := hscene.of_chunk body (by simp [children])
  have hlinked' := hlinked
  simp only [Stat.functions, Stat.keeps, evalStat] at hlinked' ⊢
  refine (ih.expr hm hat (hscene.of_expr condition (by simp [children])) hsafe.1
    (hlinked'.right (length_chunkKept body _ _ constants next))).bind
      fun v blocks₁ s₁ s₁' hleads₁ _ => ?_
  rw [Value.isTruthy_moved]
  split
  · refine (ih.plainBlock hm hleads₁.arrived (hbody.grows hleads₁.grows) hsafe.2
      hlinked'.left).bind fun o blocks₂ s₂ s₂' hleads₂ hends => ?_
    have hgrows := (hleads₁.trans hleads₂).grows
    cases o with
    | next kept =>
      refine ih.stat hm hleads₂.arrived hlocal hwhole (hscene.grows hgrows) hscopes
        (fun name hname => ?_) hsafe hlinked
      rw [hgrows.eq_of_none (hscene.inside ref href)]
      exact hbinds name hname
    | leave => exact .done hleads₂.arrived
    | result values => exact .pure hleads₂.arrived rfl hends
  · exact .done hleads₁.arrived

/-- A loop that counts, with a step of its own or not. -/
theorem simulatesStatOf_numericFor (ih : t.Simulates n) (counter : Identifier) (start stop : Expr)
    (step : Option Expr) (body : List Stat) :
    t.SimulatesStatOf n (.numericFor counter start stop step body) := by
  intro m keep bound root constants blocks c places' next next' ref below folded s s' hm hat hlocal
    hfold hscene hscopes hbinds hsafe hlinked
  have hcounter : counter.name ∈ (Stat.numericFor counter start stop step body).bound := by
    cases step <;> exact List.mem_cons_self
  have hfree := hscene.free _ hcounter
  have hnames : ∀ other ∈ [counter].map Identifier.name, ∀ ref ∈ c.reach,
      ¬ (blocks ref).Removes other := List.forall_mem_singleton.2 hfree
  have hbody := (hscene.of_chunk body (by simp [children])).shadow hnames
  have hstart := hscene.of_expr start (by simp [children])
  have hstop := hscene.of_expr stop (by simp [children])
  cases step with
  | none =>
    obtain rfl := Option.some.inj hfold
    have hstep := hscene.literal counter.position (.number 1)
    have hlinked' : t.Linked c.places places' next next'
        (chunkFunctions body ++ [] ++ stop.functions ++ start.functions)
        (chunkFunctions (foldStats (boundNames body) false (constants.shadow [counter]) body).1 ++
          [] ++ (stop.fold constants).functions ++ (start.fold constants).functions)
        (chunkKept (boundNames body) false (constants.shadow [counter]) next body ++ [] ++
          stop.keeps constants (next + (chunkFunctions body).length) ++
          start.keeps constants (next + (chunkFunctions body).length + stop.functions.length)) := by
      simp only [List.append_nil]
      exact hlinked
    simp only [evalStat]
    exact simulates_numericFor ih hm hat hstart hstop hstep hbody hfree hsafe.1 hsafe.2.1 trivial
      hsafe.2.2 hlinked'
  | some step =>
    obtain rfl := Option.some.inj hfold
    have hstep := hscene.of_expr step (by simp [children])
    simp only [evalStat]
    exact simulates_numericFor ih hm hat hstart hstop hstep hbody hfree hsafe.1 hsafe.2.1
      hsafe.2.2.1 hsafe.2.2.2 hlinked

/-- A loop over an iterator. -/
theorem simulatesStatOf_genericFor (ih : t.Simulates n) (position : Position)
    (names : List Identifier) (iterators : List Expr) (body : List Stat) :
    t.SimulatesStatOf n (.genericFor position names iterators body) := by
  intro m keep bound root constants blocks c places' next next' ref below folded s s' hm hat hlocal
    hfold hscene hscopes hbinds hsafe hlinked
  obtain rfl := Option.some.inj hfold
  have hnames : ∀ name ∈ names.map Identifier.name, ∀ ref ∈ c.reach, ¬ (blocks ref).Removes name :=
    fun name hname => hscene.free name (List.mem_append_left _ (List.mem_append_left _ hname))
  have hbody := (hscene.of_chunk body (by simp [children])).shadow hnames
  have hiterators : ∀ e ∈ iterators, Scene constants blocks s.scopes.size c.reach (expr e) :=
    fun e he => hscene.of_expr e (List.mem_cons_of_mem _ (List.mem_map_of_mem he))
  cases names with
  | nil =>
    simp only [evalStat]
    exact .undecided
  | cons name rest =>
    simp only [evalStat]
    refine (ih.values hm hat hiterators hsafe.1
      (hlinked.right (length_chunkKept body _ _ _ next))).bind
        fun values blocks₁ s₁ s₁' hleads hvalues => ?_
    have htail : t.KnownValues blocks₁ s₁ values.tail :=
      fun v hv => hvalues v (List.mem_of_mem_tail hv)
    have htail' : t.KnownValues blocks₁ s₁ values.tail.tail := fun v hv =>
      htail v (List.mem_of_mem_tail hv)
    rw [← List.map_tail, ← List.map_tail, headD_map_moved, headD_map_moved, headD_map_moved]
    exact (ih.iterating hm hleads.arrived (hbody.grows hleads.grows)
      (hleads.grows.free hbody.inside hnames) hsafe.2 hlinked.left (.cons hvalues.headD
        (.cons htail.headD (.singleton htail'.headD)))).imp fun _ _ _ _ _ hends => hends.keeping

/-- Values that are returned. -/
theorem simulatesStatOf_result (ih : t.Simulates n) (position : Position) (values : List Expr) :
    t.SimulatesStatOf n (.result position values) := by
  intro m keep bound root constants blocks c places' next next' ref below folded s s' hm hat hlocal
    hfold hscene hscopes hbinds hsafe hlinked
  obtain rfl := Option.some.inj hfold
  have hvalues : ∀ e ∈ values, Scene constants blocks s.scopes.size c.reach (expr e) := fun e he =>
    hscene.of_expr e (List.mem_map_of_mem he)
  simp only [evalStat]
  refine (ih.values hm hat hvalues hsafe hlinked).bind
    fun values' blocks₁ s₁ s₁' hleads hvalues' => ?_
  exact .pure hleads.arrived rfl hvalues'

theorem simulatesStat_succ (ih : t.Simulates n) : t.SimulatesStat (n + 1) := by
  intro n' keep bound root constants blocks c places' next next' ref below stat folded s s' hn hat
    hlocal hfold hscene hscopes hbinds hsafe hlinked
  obtain ⟨m, rfl, hm⟩ := exists_succ_of_le hn
  -- Lemmas for the constructors whose evaluation has several parts.
  have hof (h : t.SimulatesStatOf n stat) :
      t.Mirrors (Outcome.moved t.place) (t.Ends keep) none blocks s
        (evalStat t.plain (n + 1) c next keep stat s)
        (evalStat t.folded (m + 1) (c.placed places') next' keep folded s') :=
    h hm hat hlocal hfold hscene hscopes hbinds hsafe hlinked
  cases stat with
  | expression e =>
    obtain rfl := Option.some.inj hfold
    exact simulates_expression ih hm hat (hscene.of_expr e (by simp [children])) hsafe hlinked
  | assignment position isLocal targets values =>
    obtain rfl : isLocal = false := hlocal
    exact hof (simulatesStatOf_assignment ih position targets values)
  | declaration names => exact hof (simulatesStatOf_declaration names)
  | localFunction name function => exact hof (simulatesStatOf_localFunction ih name function)
  | conditional position branches otherwise =>
    exact hof (simulatesStatOf_conditional ih position branches otherwise)
  | whileLoop position condition body =>
    exact hof (simulatesStatOf_whileLoop ih position condition body)
  | numericFor counter start stop step body =>
    exact hof (simulatesStatOf_numericFor ih counter start stop step body)
  | genericFor position names iterators body =>
    exact hof (simulatesStatOf_genericFor ih position names iterators body)
  | repeatLoop position body condition =>
    have hwhole := hfold
    obtain rfl := Option.some.inj hfold
    exact simulates_repeatLoop ih hm hat hscene hscopes hbinds hsafe hlinked hwhole
  | block body =>
    obtain rfl := Option.some.inj hfold
    simp only [evalStat]
    exact (ih.plainBlock hm hat (hscene.of_chunk body (by simp [children])) hsafe hlinked).imp
      fun _ _ _ _ _ hends => hends.keeping
  | result position values => exact hof (simulatesStatOf_result ih position values)
  | leave position =>
    obtain rfl := Option.some.inj hfold
    simp only [evalStat]
    exact .pure hat rfl trivial

end Twins

end ScriptEngine
