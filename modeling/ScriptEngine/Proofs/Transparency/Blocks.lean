import ScriptEngine.Proofs.Transparency.Expressions

/-!
# Folded blocks and calls

A block is executed in a scope of its own.  When execution enters it, all declarations that have
been removed from it are still pending.

## Main definitions

* `Block.opening` — a block that execution has just entered.

## Main results

* `Scene.enter` — what is known when execution enters a block.
* `Twins.simulatesBlock_succ`, `Twins.simulatesCall_succ` — one level of nesting more.
-/

namespace ScriptEngine

open Node

/-- A block that execution has just entered, which begins with variables of some names. -/
def Block.opening (names : List Identifier) (constants : Constants) (body : List Stat) : Block where
  gone := []
  pending := removedFrom (boundNames body) false constants body
  binds name := name ∈ names.map Identifier.name ∨ name ∈ boundNames body

section

variable {constants : Constants} {blocks : Blocks} {size size' : Nat} {reach below : List ScopeRef}
  {ref : ScopeRef} {body : List Stat} {c : Context} {P : String → Prop} {names : List Identifier}

theorem Scene.enter (h : Scene constants blocks size reach (chunk body)) (names : List Identifier)
    (href : ref.index = size) (hsize : size < size')
    (hscopes : c.scopes = ref :: below) (hreach : below ++ c.captured = reach)
    (hnames : ∀ name ∈ names.map Identifier.name, ∀ other ∈ reach, ¬ (blocks other).Removes name)
    (hmentions : ∀ name, (chunk body).Mentions name → P name)
    (hfits : ∀ name, P name → constants.Fits blocks reach name) :
    Stage constants (Function.update blocks ref (.opening names constants body)) size' c ref below P
      (boundNames body) false body := by
  subst hreach
  have hreach : c.reach = ref :: (below ++ c.captured) := by
    rw [Context.reach, hscopes]
    rfl
  have hne : ∀ other ∈ below ++ c.captured, other ≠ ref := by
    rintro other hother rfl
    have := h.inside other hother
    omega
  -- Nothing is known to have changed in the scopes around the block.
  have hsame : ∀ other ∈ below ++ c.captured,
      Function.update blocks ref (Block.opening names constants body) other = blocks other :=
    fun other hother => Function.update_of_ne (hne other hother) _ _
  have hself : Function.update blocks ref (Block.opening names constants body) ref =
      .opening names constants body := Function.update_self _ _ _
  have hgone (name : String) : ¬ (Block.opening names constants body).Gone name := by
    rintro ⟨literal, hentry⟩
    cases hentry
  have hshaded :
      Blocks.Shaded (Function.update blocks ref (.opening names constants body)) c.reach := by
    rw [hreach]
    refine List.pairwise_cons.2 ⟨fun other hother name hremoves => ?_, ?_⟩
    · rw [hsame other hother] at hremoves
      rw [hself]
      rintro (hbinds | hbinds)
      · exact hnames name hbinds other hother hremoves
      · exact h.free name hbinds other hother hremoves
    · refine h.shaded.imp_of_mem fun hinner houter hshaded name hremoves => ?_
      rw [hsame _ hinner]
      rw [hsame _ houter] at hremoves
      exact hshaded name hremoves
  exact
    { scopes := hscopes
      shaded := hshaded
      inside := by
        rw [hreach]
        refine List.forall_mem_cons.2 ⟨by omega, fun other hother => ?_⟩
        exact Nat.lt_trans (h.inside other hother) hsize
      targeted := h.targeted
      mentions := hmentions
      fits := fun name hname =>
        { known := fun literal hfind => by
            obtain ⟨other, hother, hmem⟩ := (hfits name hname).known literal hfind
            refine ⟨other, hreach ▸ List.mem_cons_of_mem _ hother, ?_⟩
            rwa [hsame other hother]
          unknown := by
            rw [hreach]
            refine fun hfind => List.forall_mem_cons.2 ⟨?_, fun other hother => ?_⟩
            · rw [hself]
              exact hgone name
            · rw [hsame other hother]
              exact (hfits name hname).unknown hfind other hother }
      within := .refl _
      binds := by
        rw [hself]
        exact fun name hname => .inr hname
      pending := by
        rw [hself]
        rfl
      gone := by
        rw [hself]
        exact fun name _ => hgone name
      free := fun name hname other hother => by
        rw [hsame other hother]
        exact h.free name hname other hother
      early := fun name hname other hother => by
        rw [hsame other hother]
        exact h.early name hname other hother }

/-- Where an expression is evaluated behind the statements of a block, in the scope of the block. -/
theorem Scene.behind {e : Expr} (h : Scene constants blocks size reach (expr e)) {known : Constants}
    {blocks' : Blocks} {bound : List String} {root : Bool}
    (hend : Stage known blocks' size' c ref below P bound root [])
    (hreach : below ++ c.captured = reach) (hgrows : Blocks.Grows none blocks size blocks' size')
    (hmentions : ∀ name, (expr e).Mentions name → P name)
    (hgone : ∀ name ∈ e.bound, ¬ (blocks' ref).Gone name) :
    Scene known blocks' size' c.reach (expr e) := by
  have hpassed (name : String) : ¬ (blocks' ref).Pending name := by
    rintro ⟨literal, hentry⟩
    rw [hend.pending] at hentry
    cases hentry
  exact
    { shaded := hend.shaded
      inside := hend.inside
      targeted := h.targeted
      fits := fun name hname => hend.fits name (hmentions name hname)
      free := fun name hname => by
        rw [hend.reach, hreach]
        refine List.forall_mem_cons.2 ⟨?_, hgrows.free h.inside h.free name hname⟩
        rintro (hremoves | hremoves)
        · exact hgone name hname hremoves
        · exact hpassed name hremoves
      early := fun name hname => by
        rw [hend.reach, hreach]
        refine List.forall_mem_cons.2 ⟨hpassed name, fun other hother => ?_⟩
        rw [hgrows.eq_of_none (h.inside other hother)]
        exact h.early name hname other hother }

/-- The variables that a block begins with can be declared in it. -/
theorem Block.opening_names {name : Identifier} (hname : name ∈ names) :
    ¬ (Function.update blocks ref (Block.opening names constants body) ref).Gone name.name ∧
      (Function.update blocks ref (Block.opening names constants body) ref).binds name.name := by
  rw [Function.update_self]
  refine ⟨?_, .inl (List.mem_map_of_mem hname)⟩
  rintro ⟨literal, hentry⟩
  cases hentry

end

namespace Twins

variable {t : Twins} {n : Nat}

theorem simulatesBlock_succ (ih : t.Simulates n) : t.SimulatesBlock (n + 1) := by
  intro n' constants blocks c places' next next' names values body s s' hn hat hscene hnames hsafe
    hlinked hvalues
  obtain ⟨m, rfl, hm⟩ := exists_succ_of_le hn
  simp only [evalBlock]
  refine .newScope hat (b := .opening names constants body) rfl fun s₁' hleads => ?_
  have hnew : s.newScope.1.index < s.newScope.2.scopes.size := by
    rw [Store.size_newScope]
    exact Nat.lt_succ_self _
  have hstage :=
    hscene.enter (c := c.inside s.newScope.1) names rfl hnew rfl rfl hnames (fun _ => id)
    hscene.fits
  refine (Mirrors.introduceAll hleads.arrived rfl rfl hnew (fun _ => Block.opening_names)
    (KnownValues.leads hvalues hleads)).of_none.bind ?_
  rintro ⟨⟩ blocks₂ s₂ s₂' hleads₂ ⟨rfl, hsize⟩
  rw [← hsize] at hstage
  exact (ih.chunk hm hleads₂.arrived (absurd · Bool.false_ne_true) hstage hsafe hlinked).imp
    fun o _ _ _ _ h => h.1

/-- Blocks that begin without variables. -/
theorem Simulates.plainBlock (ih : t.Simulates n) {n' : Nat} {constants : Constants}
    {blocks : Blocks} {c : Context} {places' : List Nat} {next next' : Nat} {body : List Stat}
    {s s' : Store} (hn : n ≤ n') (hat : t.At blocks s s')
    (hscene : Scene constants blocks s.scopes.size c.reach (Node.chunk body))
    (hsafe : foldsSafely (boundNames body) false constants body)
    (hlinked : t.Linked c.places places' next next' (chunkFunctions body)
      (chunkFunctions (foldStats (boundNames body) false constants body).1)
      (chunkKept (boundNames body) false constants next body)) :
    t.Mirrors (Outcome.moved t.place) (t.Ends false) none blocks s
      (evalBlock t.plain n c next [] [] body s)
      (evalBlock t.folded n' (c.placed places') next' [] []
        (foldStats (boundNames body) false constants body).1 s') :=
  ih.block hn hat hscene (fun _ hname => absurd hname List.not_mem_nil) hsafe hlinked .nil

theorem simulatesCall_succ (aligned : t.Aligned) (ih : t.Simulates n) :
    t.SimulatesCall (n + 1) := by
  intro n' blocks position depth callee arguments s s' hn hat hcallee harguments
  obtain ⟨m, rfl, hm⟩ := exists_succ_of_le hn
  -- The number of so many arguments need not be exact, and the evaluation says nothing of the call.
  by_cases hbound : Number.mantissaBound ≤ arguments.length
  · rw [Setting.evalCall_of_le hbound]
    trivial
  have hbound' : ¬ Number.mantissaBound ≤ (arguments.map (Value.moved t.place)).length := by
    rwa [List.length_map]
  cases callee with
  | native f =>
    simp only [Value.moved, evalCall, if_neg hbound, if_neg hbound']
    exact aligned.natives position depth f hat harguments
  | function entry captured =>
    obtain ⟨f, f', constants, hplain, hfolded, hfolds⟩ := hcallee
    simp only [Value.moved, evalCall, if_neg hbound, if_neg hbound', aligned.depth, hplain, hfolded,
      hfolds.literal]
    split
    · exact .fail hat
    have hnames : ∀ name ∈ f.literal.parameters.map Identifier.name, ∀ ref ∈ captured,
        ¬ (blocks ref).Removes name := fun name hname =>
      hfolds.scene.free name (List.mem_append_left _ hname)
    have hscene := (hfolds.scene.of_chunk f.literal.body (by simp [children])).shadow
      hnames
    refine .newScope hat (b := .opening f.literal.parameters
      (constants.shadow f.literal.parameters) f.literal.body) rfl fun s₁' hleads => ?_
    have hnew : s.newScope.1.index < s.newScope.2.scopes.size := by
      rw [Store.size_newScope]
      exact Nat.lt_succ_self _
    have hstage := hscene.enter (c := ⟨[s.newScope.1], captured, depth + 1, f.places⟩)
      f.literal.parameters rfl hnew rfl rfl hnames (fun _ => id) hscene.fits
    refine (Mirrors.introduceAll hleads.arrived rfl rfl hnew (fun _ => Block.opening_names)
      (KnownValues.leads harguments hleads)).of_none.bind ?_
    rintro ⟨⟩ blocks₂ s₂ s₂' hleads₂ ⟨rfl, hsize⟩
    rw [← hsize] at hstage
    refine (ih.chunk hm hleads₂.arrived (absurd · Bool.false_ne_true) hstage hfolds.safe
      hfolds.linked).bind ?_
    rintro o blocks₃ s₃ s₃' hleads₃ ⟨hends, -⟩
    cases o with
    | next kept => exact .pure hleads₃.arrived rfl .nil
    | leave => exact .undecided
    | result values => exact .pure hleads₃.arrived rfl hends
  | _ =>
    simp only [Value.moved, evalCall, if_neg hbound, if_neg hbound']
    exact .fail hat

end Twins

end ScriptEngine
