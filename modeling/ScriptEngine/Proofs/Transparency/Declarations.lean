import ScriptEngine.Proofs.Transparency.Statements

/-!
# Folded declarations and blocks

A declaration of which folding leaves a part does in the folded program what it does in the plain
one, but for the variables that folding has removed: execution is behind their declarations then.

## Main results

* `Stage.scene`, `Stage.value` — what is known where a statement of a block is executed.
* `Stage.next` — what is known behind it.
* `Twins.simulatesPaired_succ`, `Twins.simulatesChunk_succ` — one level of nesting more.
* `Twins.simulates` — **evaluations of any depth do in the folded program what they do in the plain
  one.**
-/

namespace ScriptEngine

open Node

/-! ### In the middle of a block -/

section

variable {n : Node} {name : String} {s : Stat} {rest : List Stat}

theorem Node.Mentions.tail (h : (chunk rest).Mentions name) :
    (chunk (s :: rest)).Mentions name := by
  obtain ⟨position, hwithin⟩ := h
  cases hwithin with
  | child hchild hwithin => exact ⟨position, .child (List.mem_cons_of_mem _ hchild) hwithin⟩

theorem Node.Closes.tail (h : (chunk rest).Closes name) : (chunk (s :: rest)).Closes name := by
  obtain ⟨position, parameters, body, hwithin, hmentions⟩ := h
  cases hwithin with
  | child hchild hwithin =>
    exact ⟨position, parameters, body, .child (List.mem_cons_of_mem _ hchild) hwithin, hmentions⟩

theorem Node.All.tail {P : Node → Prop} (h : (chunk (s :: rest)).All P) (hrest : P (chunk rest)) :
    (chunk rest).All P :=
  all_iff.2 ⟨hrest, fun _ hchild => h.of_mem (List.mem_cons_of_mem _ hchild)⟩

end

namespace Stage

variable {constants : Constants} {blocks blocks' : Blocks} {size size' : Nat} {c : Context}
  {ref : ScopeRef} {below : List ScopeRef} {names : String → Prop} {bound : List String}
  {root : Bool} {s : Stat} {rest : List Stat}

/-- What is known where a part of a statement is evaluated, which binds nothing that the statement
removes. -/
theorem part (h : Stage constants blocks size c ref below names bound root (s :: rest))
    (hclosed : ∀ entry ∈ removedFrom bound root constants (s :: rest), ¬ (stat s).Closes entry.1)
    {n : Node} (htargeted : n.All Targeted)
    (hmentions : ∀ name, n.Mentions name → (stat s).Mentions name)
    (hcloses : ∀ name, n.Closes name → (stat s).Closes name)
    (hbound : ∀ name ∈ n.bound, name ∈ s.bound)
    (hkept : ∀ entry ∈ s.removed bound root constants, entry.1 ∉ n.bound) :
    Scene constants blocks size c.reach n := by
  have hchild : stat s ∈ (chunk (s :: rest)).children := List.mem_cons_self
  exact
    { shaded := h.shaded
      inside := h.inside
      targeted := htargeted
      fits :=
        fun name hname => h.fits name (h.mentions name ((hmentions name hname).of_child hchild))
      free := fun name hname => by
        have hmem : name ∈ boundNames (s :: rest) := List.mem_append_left _ (hbound name hname)
        rw [h.reach]
        refine List.forall_mem_cons.2 ⟨?_, h.free name hmem⟩
        rintro (hgone | ⟨literal, hentry⟩)
        · exact h.gone name hmem hgone
        · rw [h.pending, removedFrom] at hentry
          rcases List.mem_append.1 hentry with hentry | hentry
          · exact hkept _ hentry hname
          · exact not_mem_bound_of_removedFrom h.within hentry (hbound name hname)
      early := fun name hname => by
        rw [h.reach]
        refine List.forall_mem_cons.2 ⟨?_, h.early name ((hcloses name hname).of_child hchild)⟩
        rintro ⟨literal, hentry⟩
        rw [h.pending] at hentry
        exact hclosed _ hentry (hcloses name hname) }

/-- What is known where a statement is executed that declares no variables with values. -/
theorem scene (h : Stage constants blocks size c ref below names bound root (s :: rest))
    (hclosed : ∀ entry ∈ removedFrom bound root constants (s :: rest), ¬ (stat s).Closes entry.1)
    (hlocal : s.isLocal = false) : Scene constants blocks size c.reach (stat s) := by
  refine h.part hclosed (h.targeted.statements s List.mem_cons_self) (fun _ => id) (fun _ => id)
    (fun _ => id) fun entry hentry => ?_
  rw [removed_of_isLocal hlocal] at hentry
  cases hentry

/-- What is known where a value is evaluated with which a variable is declared. -/
theorem value {position : Position} {targets values : List Expr}
    (h : Stage constants blocks size c ref below names bound root
      (.assignment position true targets values :: rest))
    (hclosed : ∀ entry ∈ removedFrom bound root constants
      (.assignment position true targets values :: rest),
      ¬ (stat (.assignment position true targets values)).Closes entry.1)
    {e : Expr} (he : e ∈ values) : Scene constants blocks size c.reach (expr e) := by
  have hchild : expr e ∈ (stat (.assignment position true targets values)).children :=
    List.mem_map_of_mem (List.mem_append_right _ he)
  have hbound : ∀ name ∈ e.bound, name ∈ boundInAll values := fun name hname => by
    rw [boundInAll_eq]
    exact List.mem_flatMap_of_mem he hname
  have hwithin : (boundInTargets targets ++ boundInAll values).Sublist bound :=
    (List.sublist_append_left _ _).trans h.within
  refine h.part hclosed ((h.targeted.statements _ List.mem_cons_self).of_mem hchild)
    (fun _ hname => hname.of_child hchild) (fun _ hname => hname.of_child hchild)
    (fun _ hname => mem_bound_of_child hchild hname) fun entry hentry hname => ?_
  exact not_mem_values_of_removed hwithin hentry (hbound _ hname)

/-- A name is not gone behind a statement that does not remove it, if it was not gone in front of
it. -/
theorem not_gone (h : Stage constants blocks size c ref below names bound root (s :: rest))
    (hgrows : Blocks.Grows (some ref) blocks size blocks' size')
    (hgone : ∀ entry, entry ∈ (blocks' ref).gone ↔
      entry ∈ (blocks ref).gone ∨ entry ∈ s.removed bound root constants) {name : String}
    (hold : ∀ other ∈ c.reach, ¬ (blocks other).Gone name)
    (hnot : ∀ literal, (name, literal) ∉ s.removed bound root constants) :
    ∀ other ∈ c.reach, ¬ (blocks' other).Gone name := by
  rintro other hother ⟨literal, hentry⟩
  by_cases heq : other = ref
  · subst heq
    rcases (hgone _).1 hentry with hentry | hentry
    · exact hold other hother ⟨literal, hentry⟩
    · exact hnot literal hentry
  · rw [hgrows.same other (h.inside other hother) fun hsome =>
      heq (Option.some.inj hsome)] at hentry
    exact hold other hother ⟨literal, hentry⟩

/-- What folding knows behind a statement is true there. -/
theorem fits_fold (h : Stage constants blocks size c ref below names bound root (s :: rest))
    (hgrows : Blocks.Grows (some ref) blocks size blocks' size')
    (hgone : ∀ entry, entry ∈ (blocks' ref).gone ↔
      entry ∈ (blocks ref).gone ∨ entry ∈ s.removed bound root constants) {name : String}
    (hname : names name) : (s.fold bound root constants).2.Fits blocks' c.reach name := by
  have hfits := h.fits name hname
  have hbound : s.bound.Sublist bound := (List.sublist_append_left _ _).trans h.within
  rcases find?_fold root constants s hbound name with
    ⟨hfind, hnot⟩ | ⟨hmem, hfind, hnot⟩ | ⟨literal, hmem, hfind⟩
  · -- The statement does not bind the name.
    refine ⟨fun literal hliteral => ?_, fun hnone => ?_⟩
    · rw [hfind] at hliteral
      obtain ⟨other, hother, hmem⟩ := hfits.known literal hliteral
      exact ⟨other, hother, (hgrows.leads other (h.inside other hother)).gone hmem⟩
    · rw [hfind] at hnone
      exact h.not_gone hgrows hgone (hfits.unknown hnone) hnot
  · -- It binds the name, whose declaration stays.
    refine ⟨fun literal hliteral => ?_, fun _ => h.not_gone hgrows hgone ?_ hnot⟩
    · rw [hfind] at hliteral
      cases hliteral
    · have hmem : name ∈ boundNames (s :: rest) := List.mem_append_left _ hmem
      rw [h.reach]
      exact List.forall_mem_cons.2 ⟨h.gone name hmem, fun other hother hgone =>
        h.free name hmem other hother (.inl hgone)⟩
  · -- It declares the name, and the declaration is removed.
    refine ⟨fun literal' hliteral => ?_, fun hnone => ?_⟩
    · rw [hfind] at hliteral
      obtain rfl := Option.some.inj hliteral
      exact ⟨ref, mem_reach h.scopes, (hgone _).2 (.inr hmem)⟩
    · rw [hfind] at hnone
      cases hnone

/-- **What is known behind a statement**: execution is behind the declarations that have been
removed from it. -/
theorem next (h : Stage constants blocks size c ref below names bound root (s :: rest))
    (hgrows : Blocks.Grows (some ref) blocks size blocks' size')
    (hgone : ∀ entry, entry ∈ (blocks' ref).gone ↔
      entry ∈ (blocks ref).gone ∨ entry ∈ s.removed bound root constants)
    (hpending : (blocks' ref).pending =
      removedFrom bound root (s.fold bound root constants).2 rest) :
    Stage (s.fold bound root constants).2 blocks' size' c ref below names bound root rest := by
  have href : ref ∈ c.reach := mem_reach h.scopes
  have hwithin : (s.bound ++ boundNames rest).Sublist bound := h.within
  have houter : ∀ other ∈ below ++ c.captured, other.index < size := fun other hother =>
    h.inside other (h.reach ▸ List.mem_cons_of_mem _ hother)
  exact
    { scopes := h.scopes
      shaded := h.shaded.grows hgrows h.inside
      inside := hgrows.inside h.inside
      targeted := h.targeted.tail trivial
      mentions := fun name hname => h.mentions name hname.tail
      fits := fun name hname => h.fits_fold hgrows hgone hname
      within := (List.sublist_append_right _ _).trans hwithin
      binds := fun name hname => by
        rw [(hgrows.leads ref (h.inside ref href)).binds]
        exact h.binds name (List.mem_append_right _ hname)
      pending := hpending
      gone := fun name hname hremoved => by
        obtain ⟨literal, hentry⟩ := hremoved
        rcases (hgone _).1 hentry with hentry | hentry
        · exact h.gone name (List.mem_append_right _ hname) ⟨literal, hentry⟩
        · exact not_mem_boundNames_of_removed h.within hentry hname
      free := hgrows.free houter fun name hname => h.free name (List.mem_append_right _ hname)
      early := fun name hname other hother hpends => by
        obtain ⟨literal, hentry⟩ := hpends
        exact h.early name hname.tail other hother
          ⟨literal, (hgrows.leads other (houter other hother)).pending hentry⟩ }

end Stage

/-! ### Declarations of which a part is removed -/

theorem length_foldAll (constants : Constants) (es : List Expr) :
    (foldAll constants es).length = es.length := by
  induction es with
  | nil => rfl
  | cons e rest ih => exact congrArg (· + 1) ih

theorem foldPairs_zip (constants : Constants) (targets values : List Expr) :
    foldPairs constants (targets.zip values) = targets.zip (foldAll constants values) := by
  induction targets generalizing values with
  | nil => rfl
  | cons target targets ih =>
    cases values with
    | nil => rfl
    | cons e values => exact congrArg (_ :: ·) (ih values)

section

variable {bound : List String} {target value : Expr} {rest : List (Expr × Expr)}

theorem leftPairs_drop {entry : String × Literal} (h : constant? bound target value = some entry) :
    leftPairs bound ((target, value) :: rest) = leftPairs bound rest :=
  List.filter_cons_of_neg (by simp [h])

theorem leftPairs_keep (h : constant? bound target value = none) :
    leftPairs bound ((target, value) :: rest) = (target, value) :: leftPairs bound rest :=
  List.filter_cons_of_pos (by simp [h])

theorem leftValues_drop {entry : String × Literal} (h : constant? bound target value = some entry)
    (values : List Value) :
    leftValues bound ((target, value) :: rest) values = leftValues bound rest values.tail := by
  rw [leftValues, h]
  rfl

theorem leftValues_keep (h : constant? bound target value = none) (values : List Value) :
    leftValues bound ((target, value) :: rest) values =
      values.headD .nil :: leftValues bound rest values.tail := by
  rw [leftValues, h]
  rfl

theorem droppedPairs_drop {entry : String × Literal}
    (h : constant? bound target value = some entry) :
    droppedPairs bound ((target, value) :: rest) = entry :: droppedPairs bound rest :=
  List.filterMap_cons_some h

theorem droppedPairs_keep (h : constant? bound target value = none) :
    droppedPairs bound ((target, value) :: rest) = droppedPairs bound rest :=
  List.filterMap_cons_none h

end

/-- Declarations leave the pairs that are not replaced. -/
theorem fst_declarePairs (bound : List String) (constants : Constants)
    (pairs : List (Expr × Expr)) :
    (declarePairs bound constants pairs).1 = leftPairs bound pairs := by
  induction pairs generalizing constants with
  | nil => rfl
  | cons pair rest ih =>
    obtain ⟨target, value⟩ := pair
    rw [declarePairs]
    cases hconstant : constant? bound target value with
    | some entry =>
      rw [leftPairs_drop hconstant]
      exact ih _
    | none =>
      rw [leftPairs_keep hconstant]
      exact congrArg (_ :: ·) (ih _)

/-- What is left of a local assignment whose pairs are looked at one by one. -/
theorem fst_foldLocal_of_paired {bound : List String} {root : Bool} {constants : Constants}
    {position : Position} {targets values : List Expr}
    (h : (!root && targets.length == values.length && !values.any Expr.isCall) = true) :
    (foldLocal bound root constants position targets values).1 =
      if leftPairs bound (targets.zip values) = [] then none
      else some (.assignment position true ((leftPairs bound (targets.zip values)).map (·.1))
        ((leftPairs bound (targets.zip values)).map (·.2))) := by
  have hkept := fst_declarePairs bound constants (targets.zip values)
  rw [foldLocal, if_pos h, ← hkept]
  rcases declarePairs bound constants (targets.zip values) with ⟨kept, known⟩
  cases kept <;> rfl

namespace Twins

variable {t : Twins} {n m : Nat} {blocks : Blocks} {s s' : Store} {c c' : Context} {ref : ScopeRef}
  {below below' : List ScopeRef}

theorem simulatesPaired_succ (ih : t.Simulates n) : t.SimulatesPaired (n + 1) := by
  intro bound n' constants blocks c places' next next' pairs s s' hn hat htargets hscene hsafe
    hcalls hlinked
  obtain ⟨m, rfl, hm⟩ := exists_succ_of_le hn
  cases pairs with
  | nil =>
    simp only [foldPairs, leftPairs, List.map_nil, List.filter_nil, evalValues]
    exact .pure hat rfl ⟨.nil, .nil⟩
  | cons pair rest =>
    obtain ⟨target, e⟩ := pair
    obtain ⟨htarget, hvars⟩ := List.forall_mem_cons.1 htargets
    obtain ⟨he, hrest⟩ := List.forall_mem_cons.1 hscene
    obtain ⟨hcall, hnone⟩ := List.forall_mem_cons.1 hcalls
    simp only [List.map_cons, valuesFoldSafely, valuesFunctions, foldAll, valuesKept]
      at hsafe hlinked ⊢
    have hcons : rest.map (·.2) ≠ [] ∨ e.isCall = false := by
      by_cases hnil : rest.map (·.2) = []
      · exact .inr ((hsafe.2.1 hnil).symm.trans hcall)
      · exact .inl hnil
    rw [Setting.evalValues_cons hcons]
    have hbehind := hlinked.right (e.length_keeps constants next)
    cases target with
    | var position name =>
      cases hconstant : constant? bound (.var position name) (e.fold constants) with
      | some entry =>
        -- The value is a literal, and nothing is left of the pair.
        obtain ⟨other, literal⟩ := entry
        obtain ⟨p, q, hvar, hliteral, -⟩ := constant?_eq_some_iff.1 hconstant
        obtain ⟨-, rfl⟩ := Expr.var.inj hvar
        have hvalue := ih.expr (Nat.le_succ_of_le hm) hat he hsafe.1 hlinked.left
        rw [hliteral] at hvalue hbehind
        simp only [evalExpr] at hvalue
        simp only [foldPairs, List.map_cons, leftPairs_drop hconstant, leftValues_drop hconstant,
          droppedPairs_drop hconstant]
        refine .literal_bind hvalue fun blocks₁ s₁ hleads₁ => ?_
        rw [← bind_pure (evalValues t.folded _ _ _ _)]
        have hrest' : ∀ pair ∈ rest, Scene constants blocks₁ s₁.scopes.size c.reach (expr pair.2) :=
          fun pair hpair => (hrest pair hpair).grows hleads₁.grows
        refine (ih.paired bound (Nat.le_succ_of_le hm) hleads₁.arrived hvars hrest' hsafe.2.2 hnone
          hbehind).bind fun others blocks₂ s₂ s₂' hleads₂ hothers => ?_
        exact .pure hleads₂.arrived rfl ⟨.cons (knownValue_toValue literal) hothers.1,
          .drop rfl hothers.2⟩
      | none =>
        simp only [foldPairs, List.map_cons, leftPairs_keep hconstant, leftValues_keep hconstant,
          droppedPairs_keep hconstant]
        rw [Setting.evalValues_cons (.inr hcall)]
        refine (ih.expr hm hat he hsafe.1 hlinked.left).bind
          fun first blocks₁ s₁ s₁' hleads₁ hfirst => ?_
        have hrest' : ∀ pair ∈ rest, Scene constants blocks₁ s₁.scopes.size c.reach (expr pair.2) :=
          fun pair hpair => (hrest pair hpair).grows hleads₁.grows
        refine (ih.paired bound hm hleads₁.arrived hvars hrest' hsafe.2.2 hnone hbehind).bind
          fun others blocks₂ s₂ s₂' hleads₂ hothers => ?_
        exact .pure hleads₂.arrived rfl ⟨.cons (KnownValue.leads hfirst hleads₂) hothers.1,
          .keep rfl hothers.2⟩
    | _ => cases htarget

/-- All variables are still declared. -/
theorem declares_all (place : Nat → Nat) {targets : List Expr}
    (htargets : ∀ target ∈ targets, target.isVar)
    (values : List Value) :
    Declares place [] targets values targets (values.map (Value.moved place)) := by
  induction targets generalizing values with
  | nil => exact .nil
  | cons target rest ih =>
    obtain ⟨htarget, hrest⟩ := List.forall_mem_cons.1 htargets
    cases target with
    | var position name =>
      refine .keep (headD_map_moved values) ?_
      rw [← List.map_tail]
      exact ih hrest values.tail
    | _ => cases htarget

/-- What is dropped is one of the variables. -/
theorem mem_targets_of_declares {place : Nat → Nat} {dropped : List (String × Literal)}
    {targets targets' : List Expr} {values values' : List Value}
    (h : Declares place dropped targets values targets' values') {entry : String × Literal}
    (hentry : entry ∈ dropped) : entry.1 ∈ boundInTargets targets := by
  induction h with
  | nil => cases hentry
  | keep _ _ ih => exact List.mem_cons_of_mem _ (ih hentry)
  | drop _ _ ih =>
    rcases List.mem_cons.1 hentry with rfl | hentry
    · exact List.mem_cons_self
    · exact List.mem_cons_of_mem _ (ih hentry)

/-- **Variables are declared in both programs**, but for those that are dropped: execution is behind
their declarations then. -/
theorem Mirrors.declares {dropped : List (String × Literal)} {bound : List String}
    {targets targets' : List Expr} {values values' : List Value}
    (h : Declares t.place dropped targets values targets' values') {next next' : Nat} (hn : n ≤ m)
    (hat : t.At blocks s s') (hscopes : c.scopes = ref :: below)
    (hscopes' : c'.scopes = ref :: below') (hsize : ref.index < s.scopes.size)
    (hnames : ∀ name ∈ boundInTargets targets, ¬ (blocks ref).Gone name ∧ (blocks ref).binds name)
    (hpending : ∀ entry ∈ dropped, entry ∈ (blocks ref).pending)
    (hwithin : (boundInTargets targets).Sublist bound)
    (honce : ∀ entry ∈ dropped, bound.count entry.1 = 1)
    (hvalues : t.KnownValues blocks s values) :
    t.Mirrors id (fun blocks₁ _ _ => (∀ entry, entry ∈ (blocks₁ ref).gone ↔
        entry ∈ (blocks ref).gone ∨ entry ∈ dropped) ∧ (blocks₁ ref).pending = (blocks ref).pending)
      (some ref) blocks s (evalStores t.plain n c next true targets values s)
      (evalStores t.folded m c' next' true targets' values' s') := by
  induction h generalizing n m with
  | nil =>
    obtain _ | n := n
    · simp only [evalStores]
      exact .undecided
    obtain ⟨m, rfl, -⟩ := exists_succ_of_le hn
    simp only [evalStores]
    exact .pure hat rfl ⟨fun entry => by simp, rfl⟩
  | @keep dropped position name targets targets' values values' hvalue h ih =>
    obtain _ | n := n
    · simp only [evalStores]
      exact .undecided
    obtain ⟨m, rfl, hm⟩ := exists_succ_of_le hn
    obtain ⟨⟨hgone, hbinds⟩, hrest⟩ := List.forall_mem_cons.1 hnames
    -- Values are stored from the last variable to the first, so what follows a variable comes
    -- first.
    have hmirror := ih hm hrest hpending ((List.sublist_cons_self _ _).trans hwithin) honce
      fun v hv => hvalues v (List.mem_of_mem_tail hv)
    simp only [evalStores, if_true]
    refine hmirror.bind ?_
    rintro ⟨⟩ blocks₁ s₁ s₁' hleads ⟨hiff, hsame⟩
    have hsize₁ : ref.index < s₁.scopes.size := Nat.lt_of_lt_of_le hsize hleads.grows.larger
    -- The name has one declaration only, so nothing of it has been dropped behind this one.
    have hgone₁ : ¬ (blocks₁ ref).Gone name := by
      rintro ⟨literal, hentry⟩
      rcases (hiff _).1 hentry with hentry | hentry
      · exact hgone ⟨literal, hentry⟩
      · have hmem : name ∈ boundInTargets targets := mem_targets_of_declares h hentry
        exact not_mem_of_count_cons hwithin (honce _ hentry) hmem
    have hbinds₁ : (blocks₁ ref).binds name := by rwa [(hleads.grows.leads ref hsize).binds]
    have hdeclared := hleads.arrived.declare hgone₁ hbinds₁ (KnownValue.leads hvalues.headD hleads)
    rw [introduce_eq hscopes hsize₁,
      introduce_eq hscopes' (by rwa [hleads.arrived.alike.size]), hvalue]
    exact ⟨blocks₁, _, rfl, hdeclared.leads Store.size_declare, hiff, hsame⟩
  | @drop dropped position name literal targets targets' values values' hvalue h ih =>
    obtain _ | n := n
    · simp only [evalStores]
      exact .undecided
    obtain ⟨⟨hgone, hbinds⟩, hrest⟩ := List.forall_mem_cons.1 hnames
    obtain ⟨hfirst, hpending⟩ := List.forall_mem_cons.1 hpending
    obtain ⟨honce₁, honce⟩ := List.forall_mem_cons.1 honce
    have hmirror := ih (Nat.le_of_succ_le hn) hrest hpending
      ((List.sublist_cons_self _ _).trans hwithin) honce fun v hv =>
        hvalues v (List.mem_of_mem_tail hv)
    -- The folded program does not have this declaration.
    rw [← bind_pure (evalStores t.folded _ _ _ _ _ _)]
    simp only [evalStores, if_true]
    refine hmirror.bind ?_
    rintro ⟨⟩ blocks₁ s₁ s₁' hleads ⟨hiff, hsame⟩
    have hsize₁ : ref.index < s₁.scopes.size := Nat.lt_of_lt_of_le hsize hleads.grows.larger
    have hgone₁ : ¬ (blocks₁ ref).Gone name := by
      rintro ⟨literal', hentry⟩
      rcases (hiff _).1 hentry with hentry | hentry
      · exact hgone ⟨literal', hentry⟩
      · have hmem : name ∈ boundInTargets targets := mem_targets_of_declares h hentry
        exact not_mem_of_count_cons hwithin honce₁ hmem
    have hbinds₁ : (blocks₁ ref).binds name := by rwa [(hleads.grows.leads ref hsize).binds]
    have hpassed := hleads.arrived.pass hsize₁ (by rwa [hsame]) hgone₁ hbinds₁
    rw [introduce_eq hscopes hsize₁, hvalue]
    refine ⟨_, s₁', rfl, hpassed, fun entry => ?_, ?_⟩
    · rw [Function.update_self, Block.pass, List.mem_append, hiff, List.mem_singleton,
        List.mem_cons, or_assoc, or_comm (a := entry ∈ dropped)]
    · rw [Function.update_self]
      exact hsame

/-- Less is known to be pending. -/
theorem At.settle (h : t.At blocks s s') {pending : List (String × Literal)}
    (hpending : pending ⊆ (blocks ref).pending) :
    t.Leads (some ref) blocks s
      (Function.update blocks ref { blocks ref with pending := pending }) s s' := by
  have hgrows : Blocks.Grows (some ref) blocks s.scopes.size
      (Function.update blocks ref { blocks ref with pending := pending }) s.scopes.size :=
    .update ⟨rfl, List.Subset.refl _, hpending, List.subset_append_left _ _⟩
  refine ⟨hgrows, h.grows hgrows (fun other => ?_) fun other => ?_⟩
  all_goals
    by_cases heq : other = ref
    · subst heq
      rw [Function.update_self]
    · rw [Function.update_of_ne heq]

section

variable {constants : Constants} {names : String → Prop} {bound : List String} {root : Bool}
  {position : Position} {targets targets' values values' : List Expr} {rest : List Stat}
  {next next' : Nat} {places' : List Nat}

/-- A declaration with values, given what becomes of the values. -/
theorem simulates_declaration (keep : Bool) {dropped : List (String × Literal)}
    {move : List Value → List Value}
    (hn : n ≤ m)
    (hstage : Stage constants blocks s.scopes.size c ref below names bound root
      (.assignment position true targets values :: rest))
    (hdropped : (Stat.assignment position true targets values).removed bound root constants =
      dropped)
    (hvalues : t.Mirrors move (fun blocks₁ s₁ vs => t.KnownValues blocks₁ s₁ vs ∧
        Declares t.place dropped targets vs targets' (move vs)) none blocks s
      (evalValues t.plain n c next values s)
      (evalValues t.folded m (c.placed places') next' values' s')) :
    t.Mirrors (Outcome.moved t.place) (fun blocks₁ s₁ o => o = .next none ∧
        Stage ((Stat.assignment position true targets values).fold bound root constants).2 blocks₁
          s₁.scopes.size c ref below names bound root rest) (some ref) blocks s
      (evalStat t.plain (n + 1) c next keep (.assignment position true targets values) s)
      ((do
        let vs ← evalValues t.folded m (c.placed places') next' values'
        evalStores t.folded m (c.placed places') (next' + (valuesFunctions values').length) true
          targets' vs
        pure (.next none) : Eval Outcome) s') := by
  subst hdropped
  have hsize := hstage.inside ref (mem_reach hstage.scopes)
  have hwithin : (boundInTargets targets).Sublist bound :=
    ((List.sublist_append_left _ _).trans (List.sublist_append_left _ _)).trans hstage.within
  simp only [evalStat]
  refine hvalues.of_none_bind fun vs blocks₁ s₁ s₁' hleads₁ hsame hvs => ?_
  obtain ⟨hknown, hdeclares⟩ := hvs
  have hnames : ∀ name ∈ boundInTargets targets,
      ¬ (blocks₁ ref).Gone name ∧ (blocks₁ ref).binds name := by
    intro name hname
    have hmem : name ∈ boundNames (.assignment position true targets values :: rest) :=
      List.mem_append_left _ (List.mem_append_left _ hname)
    rw [hsame ref hsize]
    exact ⟨hstage.gone name hmem, hstage.binds name hmem⟩
  have hpending :
      ∀ entry ∈ (Stat.assignment position true targets values).removed bound root constants,
      entry ∈ (blocks₁ ref).pending := fun entry hentry => by
    rw [hsame ref hsize, hstage.pending]
    exact List.mem_append_left _ hentry
  have hscopes' : (c.placed places').scopes = ref :: below := hstage.scopes
  refine (Mirrors.declares hdeclares hn hleads₁.arrived hstage.scopes hscopes'
    (Nat.lt_of_lt_of_le hsize hleads₁.grows.larger) hnames hpending hwithin
    (fun entry hentry => Stat.count_of_mem_removed hentry) hknown).bind ?_
  rintro ⟨⟩ blocks₂ s₂ s₂' hleads₂ ⟨hgone, hsame₂⟩
  -- What the statement removes is gone now, so that it is not pending any more.
  have hbehind : removedFrom bound root
      ((Stat.assignment position true targets values).fold bound root constants).2 rest ⊆
      (blocks₂ ref).pending := by
    rw [hsame₂, hsame ref hsize, hstage.pending]
    exact List.subset_append_right _ _
  have hsettled := hleads₂.arrived.settle hbehind
  refine ⟨_, s₂', rfl, hsettled, rfl,
    hstage.next ((hleads₁.of_none.trans hleads₂).trans hsettled).grows (fun entry => ?_) ?_⟩
  · rw [Function.update_self, hgone, hsame ref hsize]
  · rw [Function.update_self]

end

theorem simulatesDeclaration_succ (ih : t.Simulates n) : t.SimulatesDeclaration (n + 1) := by
  intro keep n' bound root constants blocks c places' next next' ref below names position targets
    values rest s s' hn hat hstage hclosed hsafe hlinked
  obtain ⟨m, rfl, hm⟩ := exists_succ_of_le hn
  obtain ⟨hne, htargets⟩ := (hstage.targeted.statements _ List.mem_cons_self).self
  have hvars : ∀ target ∈ targets, target.isVar := htargets
  have hscene : ∀ e ∈ values, Scene constants blocks s.scopes.size c.reach (expr e) :=
    fun e he => hstage.value hclosed he
  by_cases hpaired : (!root && targets.length == (foldAll constants values).length &&
      !(foldAll constants values).any Expr.isCall) = true
  · have hremoved : (Stat.assignment position true targets values).removed bound root constants =
        droppedPairs bound (foldPairs constants (targets.zip values)) := by
      rw [Stat.removed, if_pos hpaired, foldPairs_zip]
      rfl
    have hparts := hpaired
    simp only [Bool.and_eq_true, beq_iff_eq, Bool.not_eq_true', List.any_eq_false] at hparts
    obtain ⟨⟨-, hlength⟩, hcalls⟩ := hparts
    rw [length_foldAll] at hlength
    have hfst : (targets.zip values).map (·.1) = targets := List.map_fst_zip (Nat.le_of_eq hlength)
    have hsnd : (targets.zip values).map (·.2) = values :=
      List.map_snd_zip (Nat.le_of_eq hlength.symm)
    have hvarPairs : ∀ pair ∈ targets.zip values, pair.1.isVar :=
      fun pair hpair => hvars _ (List.of_mem_zip hpair).1
    -- The depth is not fixed yet, since a statement of which nothing is left takes none.
    have hvalues (k : Nat) (hk : n ≤ k) := ih.paired bound hk hat hvarPairs
      (fun pair hpair => hscene _ (List.of_mem_zip hpair).2) (by rwa [hsnd])
      (fun pair hpair => by simpa using hcalls _ (mem_foldAll (List.of_mem_zip hpair).2))
      (by rwa [hsnd])
    rw [hfst, hsnd] at hvalues
    have hfold : ((Stat.assignment position true targets values).fold bound root constants).1 = _ :=
      fst_foldLocal_of_paired hpaired
    rw [← foldPairs_zip] at hfold
    rw [hfold]
    by_cases hleft : leftPairs bound (foldPairs constants (targets.zip values)) = []
    · have hk := Nat.le_succ_of_le hm
      have hmirror := simulates_declaration keep hk hstage hremoved (hvalues (m + 1) hk)
      rw [if_pos hleft, evalLeft]
      simp only [hleft, List.map_nil, evalValues, evalStores, pure_bind] at hmirror
      exact hmirror
    · have hmirror := simulates_declaration keep hm hstage hremoved (hvalues m hm)
      rw [if_neg hleft, evalLeft]
      simp only [evalStat] at hmirror ⊢
      exact hmirror
  · -- Nothing is removed unless there is a value for each variable, and no call among them.
    have hremoved :
        (Stat.assignment position true targets values).removed bound root constants = [] := by
      rw [Stat.removed, if_neg hpaired]
    have hfold : ((Stat.assignment position true targets values).fold bound root constants).1 =
        some (.assignment position true targets (foldAll constants values)) := by
      rw [Stat.fold, foldLocal, if_neg hpaired]
    have hvalues := (ih.values hm hat hscene hsafe hlinked).imp fun vs blocks₁ s₁ _ _ hknown =>
      (⟨hknown, declares_all t.place hvars vs⟩ : t.KnownValues blocks₁ s₁ vs ∧
        Declares t.place [] targets vs targets (vs.map (Value.moved t.place)))
    have hmirror := simulates_declaration keep hm hstage hremoved hvalues
    rw [hfold, evalLeft]
    simp only [evalStat] at hmirror ⊢
    exact hmirror

/-! ### Statements one after another -/

/-- Something is left of a statement that declares no variables with values. -/
theorem exists_fold_of_not_local {stat : Stat} (bound : List String) (root : Bool)
    (constants : Constants) (h : stat.isLocal = false) :
    ∃ folded, (stat.fold bound root constants).1 = some folded := by
  cases stat with
  | assignment position isLocal targets values =>
    obtain rfl : isLocal = false := h
    exact ⟨_, rfl⟩
  | conditional position branches otherwise => cases otherwise <;> exact ⟨_, rfl⟩
  | numericFor counter start stop step body => cases step <;> exact ⟨_, rfl⟩
  | _ => exact ⟨_, rfl⟩

/-- Something is left of every statement of the top level. -/
theorem exists_fold_root (stat : Stat) (bound : List String) (constants : Constants) :
    ∃ folded, (stat.fold bound true constants).1 = some folded := by
  cases hlocal : stat.isLocal with
  | false => exact exists_fold_of_not_local bound true constants hlocal
  | true =>
    cases stat with
    | assignment position isLocal targets values =>
      obtain rfl : isLocal = true := hlocal
      exact ⟨_, rfl⟩
    | _ => cases hlocal

theorem isEmpty_foldStats_root (bound : List String) (constants : Constants) (rest : List Stat) :
    (foldStats bound true constants rest).1.isEmpty = rest.isEmpty := by
  cases rest with
  | nil => rfl
  | cons stat rest =>
    obtain ⟨folded, hfold⟩ := exists_fold_root stat bound constants
    rw [foldStats, hfold]
    rfl

section

variable {constants : Constants} {names : String → Prop} {bound : List String} {root keep : Bool}
  {rest : List Stat} {next next' : Nat} {places' : List Nat}

/-- What holds behind the statements of a block. -/
def Finishes (t : Twins) (keep : Bool) (constants : Constants) (c : Context) (ref : ScopeRef)
    (below : List ScopeRef) (names : String → Prop) (bound : List String) (root : Bool)
    (rest : List Stat) (blocks : Blocks) (s : Store) (o : Outcome) : Prop :=
  t.Ends keep blocks s o ∧ ∀ kept, o = .next kept →
    Stage (foldStats bound root constants rest).2 blocks s.scopes.size c ref below names bound root
      []

/-- What follows a statement of which something is left. -/
theorem simulates_sequel (ih : t.Simulates n) (hm : n ≤ m) (hat : t.At blocks s s')
    (hroot : keep = true → root = true)
    (hstage : Stage constants blocks s.scopes.size c ref below names bound root rest)
    (hsafe : foldsSafely bound root constants rest)
    (hlinked : t.Linked c.places places' next next' (chunkFunctions rest)
      (chunkFunctions (foldStats bound root constants rest).1)
      (chunkKept bound root constants next rest))
    {kept : Option Value} (hends : t.Ends (keep && rest.isEmpty) blocks s (.next kept)) :
    t.Mirrors (Outcome.moved t.place)
      (t.Finishes keep constants c ref below names bound root rest) (some ref) blocks s
      ((if rest.isEmpty then pure (.next kept) else evalChunk t.plain n c next keep rest :
        Eval Outcome) s)
      ((if (foldStats bound root constants rest).1.isEmpty then
          pure (.next (kept.map (Value.moved t.place)))
        else evalChunk t.folded m (c.placed places') next' keep
          (foldStats bound root constants rest).1 : Eval Outcome) s') := by
  cases rest with
  | nil =>
    rw [List.isEmpty_nil, Bool.and_true] at hends
    exact .pure hat rfl ⟨hends, fun _ _ => hstage⟩
  | cons stat rest =>
    rw [List.isEmpty_cons, Bool.and_false] at hends
    obtain rfl := hends.1 rfl
    rw [if_neg (by simp)]
    split
    · next hempty =>
      -- All that follows has been removed.
      have hchunk := ih.chunk (Nat.le_succ_of_le hm) hat hroot hstage hsafe hlinked
      rw [List.isEmpty_iff.1 hempty] at hchunk
      simp only [evalChunk] at hchunk
      exact hchunk
    · exact ih.chunk hm hat hroot hstage hsafe hlinked

/-- What follows a statement of which nothing is left. -/
theorem simulates_sequel_of_removed (ih : t.Simulates n) (hm : n ≤ m) (hat : t.At blocks s s')
    (hroot : keep = true → root = true)
    (hstage : Stage constants blocks s.scopes.size c ref below names bound root rest)
    (hsafe : foldsSafely bound root constants rest)
    (hlinked : t.Linked c.places places' next next' (chunkFunctions rest)
      (chunkFunctions (foldStats bound root constants rest).1)
      (chunkKept bound root constants next rest)) :
    t.Mirrors (Outcome.moved t.place)
      (t.Finishes keep constants c ref below names bound root rest) (some ref) blocks s
      ((if rest.isEmpty then pure (.next none) else evalChunk t.plain n c next keep rest :
        Eval Outcome) s)
      (evalChunk t.folded (m + 1) (c.placed places') next' keep
        (foldStats bound root constants rest).1 s') := by
  cases rest with
  | nil =>
    simp only [foldStats, evalChunk]
    exact .pure hat rfl ⟨ends_none, fun _ _ => hstage⟩
  | cons stat rest => exact ih.chunk (Nat.le_succ_of_le hm) hat hroot hstage hsafe hlinked

end

theorem simulatesChunk_succ (ih : t.Simulates n) : t.SimulatesChunk (n + 1) := by
  intro n' keep bound root constants blocks c places' next next' ref below names rest s s' hn hat
    hroot hstage hsafe hlinked
  obtain ⟨m, rfl, hm⟩ := exists_succ_of_le hn
  cases rest with
  | nil =>
    simp only [foldStats, evalChunk]
    exact .pure hat rfl ⟨ends_none, fun _ _ => hstage⟩
  | cons stat rest =>
    obtain ⟨hs, hclosed, hsafeRest⟩ := hsafe
    have hsize := hstage.inside ref (mem_reach hstage.scopes)
    have hlinked' : t.Linked c.places places' next next' (stat.functions ++ chunkFunctions rest)
        (chunkFunctions (stat.fold bound root constants).1.toList ++
          chunkFunctions (foldStats bound root (stat.fold bound root constants).2 rest).1)
        (stat.keeps constants next ++ chunkKept bound root (stat.fold bound root constants).2
          (next + stat.functions.length) rest) := by
      rw [← chunkFunctions_append]
      exact hlinked
    have hbehind := hlinked'.right (stat.length_keeps bound root constants next)
    -- A value is only kept at the top level, where something is left of every statement.
    have hkeep :
        (keep && (foldStats bound root (stat.fold bound root constants).2 rest).1.isEmpty) =
        (keep && rest.isEmpty) := by
      cases keep with
      | false => rfl
      | true =>
        obtain rfl := hroot rfl
        rw [isEmpty_foldStats_root]
    cases hlocal : stat.isLocal with
    | false =>
      obtain ⟨folded, hfold⟩ := exists_fold_of_not_local bound root constants hlocal
      rw [hfold, Option.toList_some, chunkFunctions, chunkFunctions, List.append_nil]
        at hlinked' hbehind
      have hbinds : ∀ name ∈ stat.bound, (blocks ref).binds name := fun name hname =>
        hstage.binds name (List.mem_append_left _ hname)
      rw [foldStats, hfold, Option.toList_some, List.singleton_append]
      simp only [evalChunk, hkeep]
      refine (ih.stat hm hat hlocal hfold (hstage.scene hclosed hlocal) hstage.scopes hbinds hs
        hlinked'.left).of_none_bind fun o blocks₁ s₁ s₁' hleads hsame hends => ?_
      have hstage' := hstage.next hleads.grows.of_none
        (fun entry => by rw [hsame ref hsize, removed_of_isLocal hlocal]; simp)
        (by rw [hsame ref hsize, hstage.pending, removedFrom, removed_of_isLocal hlocal]; rfl)
      cases o with
      | next kept =>
        exact simulates_sequel ih hm hleads.arrived hroot hstage' hsafeRest hbehind hends
      | leave => exact .pure hleads.arrived rfl ⟨trivial, fun _ h => by cases h⟩
      | result values => exact .pure hleads.arrived rfl ⟨hends, fun _ h => by cases h⟩
    | true =>
      cases stat with
      | assignment position isLocal targets values =>
        obtain rfl : isLocal = true := hlocal
        have hvalues := hlinked'.left
        rw [Stat.fold, functions_foldLocal] at hvalues
        have hdeclaration := ih.declaration (keep && rest.isEmpty) hm hat hstage hclosed hs
          (Linked.left hvalues)
        rw [foldStats]
        cases hfold :
          ((Stat.assignment position true targets values).fold bound root constants).1 with
        | none =>
          -- The folded program goes on with what follows, without a statement in front of it.
          rw [hfold] at hdeclaration hbehind
          rw [evalChunk, ← pure_bind (.next none : Outcome) fun _ => evalChunk t.folded _ _ _ _ _]
          refine hdeclaration.bind ?_
          rintro _ blocks₁ s₁ s₁' hleads ⟨rfl, hstage'⟩
          exact simulates_sequel_of_removed ih hm hleads.arrived hroot hstage' hsafeRest hbehind
        | some folded =>
          rw [hfold] at hdeclaration
          rw [hfold, Option.toList_some, chunkFunctions, chunkFunctions, List.append_nil] at hbehind
          simp only [Option.toList_some, List.singleton_append, evalChunk, hkeep]
          refine hdeclaration.bind ?_
          rintro _ blocks₁ s₁ s₁' hleads ⟨rfl, hstage'⟩
          exact simulates_sequel ih hm hleads.arrived hroot hstage' hsafeRest hbehind
            ends_none
      | _ => cases hlocal

/-- **Evaluations of any depth** do in the folded program what they do in the plain one. -/
theorem simulates (aligned : t.Aligned) (n : Nat) : t.Simulates n := by
  induction n with
  | zero => exact simulates_zero t
  | succ n ih =>
    exact {
      expr := simulatesExpr_succ aligned ih
      callExpr := simulatesCallExpr_succ ih
      values := simulatesValues_succ ih
      paired := simulatesPaired_succ ih
      entries := simulatesEntries_succ ih
      call := simulatesCall_succ aligned ih
      stores := simulatesStores_succ ih
      block := simulatesBlock_succ ih
      branches := simulatesBranches_succ ih
      counting := simulatesCounting_succ aligned ih
      iterating := simulatesIterating_succ ih
      stat := simulatesStat_succ ih
      declaration := simulatesDeclaration_succ ih
      chunk := simulatesChunk_succ ih }

end Twins

end ScriptEngine
