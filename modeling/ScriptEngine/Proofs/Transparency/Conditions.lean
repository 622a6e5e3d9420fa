import ScriptEngine.Proofs.Syntax.Bindings
import ScriptEngine.Proofs.Syntax.Promises
import ScriptEngine.Proofs.Courses.Folding

/-!
# What folding removes, and when this can be seen

Folding removes a local variable that is bound once in its block to a literal, and replaces it
behind its declaration.  This can be seen if a function literal in front of the declaration reads
the variable, which it finds only if it is called behind it, and if the condition behind a `repeat`
loop binds it again, which is not counted.  And folding can expose a call at the end of a list of
values: it has only one value as an operand, and any number of values there.

## Main definitions

* `Stat.removed`, `removedFrom` — the variables whose declarations are removed, and their literals.
* `Node.Mentions`, `Node.Closes` — a name is read or written, or that is done in a function literal.
* `Expr.FoldsSafely`, `Stat.FoldsSafely`, `foldsSafely` — none of the above is the case.

## Main results

* `not_mem_bound_of_removedFrom`, `not_mem_boundNames_of_removed`, `not_mem_values_of_removed` —
  what a block removes is bound nowhere else in it.
* `find?_fold` — what is known behind a statement.
-/

namespace ScriptEngine

open Node

/-! ### Removed declarations -/

/-- The variables whose declarations folding removes from a statement, and what they stand for. -/
def Stat.removed (bound : List String) (root : Bool) (constants : Constants) :
    Stat → List (String × Literal)
  | .assignment _ true targets values =>
    if !root && targets.length == (foldAll constants values).length &&
        !(foldAll constants values).any Expr.isCall then
      (targets.zip (foldAll constants values)).filterMap fun pair => constant? bound pair.1 pair.2
    else []
  | _ => []

/-- The variables whose declarations folding removes from statements of a block whose bindings are
`bound`. -/
def removedFrom (bound : List String) (root : Bool) (constants : Constants) :
    List Stat → List (String × Literal)
  | [] => []
  | s :: rest => s.removed bound root constants ++
      removedFrom bound root (s.fold bound root constants).2 rest

/-- Whether a statement declares variables with values. -/
def Stat.isLocal : Stat → Bool
  | .assignment _ isLocal _ _ => isLocal
  | _ => false

section

variable {bound : List String} {root : Bool} {constants : Constants}

theorem removed_of_isLocal {s : Stat} (h : s.isLocal = false) :
    s.removed bound root constants = [] := by
  cases s with
  | assignment position isLocal targets values =>
    obtain rfl : isLocal = false := h
    rfl
  | _ => rfl

/-- Nothing is removed from the top level. -/
theorem removedFrom_root (body : List Stat) : removedFrom bound true constants body = [] := by
  induction body generalizing constants with
  | nil => rfl
  | cons s rest ih =>
    rw [removedFrom, ih, List.append_nil]
    cases s with
    | assignment position isLocal targets values => cases isLocal <;> rfl
    | _ => rfl

/-- The pairs that are dropped are declared once. -/
theorem sublist_dropped (bound : List String) (pairs : List (Expr × Expr)) :
    ((pairs.filterMap fun pair => constant? bound pair.1 pair.2).map (·.1)).Sublist
      (boundInTargets (pairs.map (·.1))) := by
  induction pairs with
  | nil => exact .refl _
  | cons pair rest ih =>
    obtain ⟨target, value⟩ := pair
    rw [List.map_cons, boundInTargets_cons]
    cases hconstant : constant? bound target value with
    | none =>
      rw [List.filterMap_cons, hconstant]
      exact ih.trans (List.sublist_append_right _ _)
    | some entry =>
      obtain ⟨name, literal⟩ := entry
      obtain ⟨p, q, rfl, rfl, -⟩ := constant?_eq_some_iff.1 hconstant
      rw [List.filterMap_cons, hconstant]
      exact ih.cons_cons name

theorem Stat.removed_sublist_targets {position : Position} {targets values : List Expr} :
    (((Stat.assignment position true targets values).removed bound root constants).map
      (·.1)).Sublist
      (boundInTargets targets) := by
  rw [Stat.removed]
  split
  · next h =>
    simp only [Bool.and_eq_true, beq_iff_eq] at h
    have hsublist := sublist_dropped bound (targets.zip (foldAll constants values))
    rwa [List.map_fst_zip (Nat.le_of_eq h.1.2)] at hsublist
  · exact List.nil_sublist _

theorem Stat.removed_sublist (s : Stat) :
    ((s.removed bound root constants).map (·.1)).Sublist s.bound := by
  cases hlocal : s.isLocal with
  | false =>
    rw [removed_of_isLocal hlocal]
    exact List.nil_sublist _
  | true =>
    cases s with
    | assignment position isLocal targets values =>
      obtain rfl : isLocal = true := hlocal
      exact Stat.removed_sublist_targets.trans (List.sublist_append_left _ _)
    | _ => cases hlocal

theorem removedFrom_sublist (body : List Stat) :
    ((removedFrom bound root constants body).map (·.1)).Sublist (boundNames body) := by
  induction body generalizing constants with
  | nil => exact .refl _
  | cons s rest ih =>
    rw [removedFrom, List.map_append, boundNames]
    exact s.removed_sublist.append ih

/-- What is removed is bound once in its block. -/
theorem Stat.count_of_mem_removed {s : Stat} {entry : String × Literal}
    (h : entry ∈ s.removed bound root constants) : bound.count entry.1 = 1 := by
  unfold Stat.removed at h
  split at h
  · split at h
    · obtain ⟨pair, -, hconstant⟩ := List.mem_filterMap.1 h
      obtain ⟨p, q, -, -, hcount⟩ := constant?_eq_some_iff.1 hconstant
      exact hcount
    · cases h
  · cases h

theorem count_of_mem_removedFrom {body : List Stat} {entry : String × Literal}
    (h : entry ∈ removedFrom bound root constants body) : bound.count entry.1 = 1 := by
  induction body generalizing constants with
  | nil => cases h
  | cons s rest ih =>
    rcases List.mem_append.1 h with h | h
    · exact s.count_of_mem_removed h
    · exact ih h

/-- What one part of a block binds and is bound once in the block, no other part binds. -/
theorem not_mem_of_count {names others : List String} {name : String}
    (hbound : (names ++ others).Sublist bound) (hcount : bound.count name = 1)
    (hname : name ∈ names) : name ∉ others := by
  intro hother
  have hle := hbound.count_le name
  rw [List.count_append, hcount] at hle
  have hfirst := List.count_pos_iff.2 hname
  have hsecond := List.count_pos_iff.2 hother
  omega

/-- A name that is bound first and is bound once in the block is not bound again. -/
theorem not_mem_of_count_cons {others : List String} {name : String}
    (hbound : (name :: others).Sublist bound) (hcount : bound.count name = 1) : name ∉ others := by
  have hle := hbound.count_le name
  rw [List.count_cons_self, hcount] at hle
  exact List.count_eq_zero.1 (by omega)

/-- **What a block removes is bound nowhere else in it**: not by a statement in front of the
declaration, -/
theorem not_mem_bound_of_removedFrom {s : Stat} {rest : List Stat} {entry : String × Literal}
    {known : Constants} (hbound : (boundNames (s :: rest)).Sublist bound)
    (h : entry ∈ removedFrom bound root known rest) : entry.1 ∉ s.bound := by
  intro hs
  have hrest := (removedFrom_sublist rest).subset (List.mem_map_of_mem h)
  rw [boundNames] at hbound
  exact not_mem_of_count hbound (count_of_mem_removedFrom h) hs hrest

/-- not by a statement behind it, -/
theorem not_mem_boundNames_of_removed {s : Stat} {rest : List Stat} {entry : String × Literal}
    (hbound : (boundNames (s :: rest)).Sublist bound)
    (h : entry ∈ s.removed bound root constants) : entry.1 ∉ boundNames rest := by
  have hs := s.removed_sublist.subset (List.mem_map_of_mem h)
  rw [boundNames] at hbound
  exact not_mem_of_count hbound (s.count_of_mem_removed h) hs

/-- and not by the values of the declaration. -/
theorem not_mem_values_of_removed {position : Position} {targets values : List Expr}
    {entry : String × Literal}
    (hbound : (boundInTargets targets ++ boundInAll values).Sublist bound)
    (h : entry ∈ (Stat.assignment position true targets values).removed bound root constants) :
    entry.1 ∉ boundInAll values := by
  have htarget := Stat.removed_sublist_targets.subset (List.mem_map_of_mem h)
  exact not_mem_of_count hbound (Stat.count_of_mem_removed h) htarget

end

/-! ### What is known behind a statement -/

theorem Constants.find?_shadow (constants : Constants) (names : List Identifier) (name : String) :
    (constants.shadow names).find? name =
      if name ∈ names.map (·.name) then none else constants.find? name := by
  induction names generalizing constants with
  | nil => rfl
  | cons first rest ih =>
    change (Constants.shadow ((first.name, none) :: constants) rest).find? name = _
    rw [ih, find?]
    by_cases hrest : name ∈ rest.map (·.name)
    · simp [hrest]
    · by_cases hfirst : first.name = name
      · simp [hfirst]
      · simp [hrest, hfirst, Ne.symm hfirst]

section

variable {bound : List String} {root : Bool} {constants : Constants} {name : String}

theorem find?_declareTargets (constants : Constants) (targets : List Expr) (name : String) :
    (targets.foldl declareTarget constants).find? name = constants.find? name ∨
      (name ∈ boundInTargets targets ∧
        (targets.foldl declareTarget constants).find? name = none) := by
  induction targets generalizing constants with
  | nil => exact .inl rfl
  | cons target rest ih =>
    rw [List.foldl_cons, boundInTargets_cons]
    rcases ih (declareTarget constants target) with h | ⟨hmem, h⟩
    · rw [h]
      cases target with
      | var position other =>
        by_cases hname : other = name
        · subst hname
          exact .inr ⟨List.mem_append_left _ (List.mem_singleton_self _), by
            simp [declareTarget, Constants.find?]⟩
        · exact .inl (by simp [declareTarget, Constants.find?, hname])
      | _ => exact .inl rfl
    · exact .inr ⟨List.mem_append_right _ hmem, h⟩

/-- What is known of a name behind declarations: what was known in front of them, nothing, or the
literal of one that is dropped. -/
theorem find?_declarePairs (constants : Constants) (pairs : List (Expr × Expr))
    (hbound : (boundInTargets (pairs.map (·.1))).Sublist bound) (name : String) :
    let dropped := pairs.filterMap fun pair => constant? bound pair.1 pair.2
    ((declarePairs bound constants pairs).2.find? name = constants.find? name ∧
        ∀ literal, (name, literal) ∉ dropped) ∨
      (name ∈ boundInTargets (pairs.map (·.1)) ∧
        (declarePairs bound constants pairs).2.find? name = none ∧
        ∀ literal, (name, literal) ∉ dropped) ∨
      ∃ literal, (name, literal) ∈ dropped ∧
        (declarePairs bound constants pairs).2.find? name = some literal := by
  induction pairs generalizing constants with
  | nil => exact .inl ⟨rfl, fun _ => List.not_mem_nil⟩
  | cons pair rest ih =>
    obtain ⟨target, value⟩ := pair
    rw [List.map_cons, boundInTargets_cons] at hbound ⊢
    have hrest := (List.sublist_append_right _ _).trans hbound
    dsimp only at ih ⊢
    rw [declarePairs, List.filterMap_cons]
    cases hconstant : constant? bound target value with
    | some entry =>
      obtain ⟨other, literal⟩ := entry
      obtain ⟨p, q, rfl, rfl, hcount⟩ := constant?_eq_some_iff.1 hconstant
      dsimp only
      -- The name has one declaration in the block, so that no other one hides what is known here.
      rcases ih ((other, some literal) :: constants) hrest with
        ⟨h, hnot⟩ | ⟨hmem, h, hnot⟩ | ⟨literal', hmem, h⟩
      · rw [h, Constants.find?]
        by_cases hname : other = name
        · subst hname
          exact .inr (.inr ⟨literal, List.mem_cons_self, if_pos rfl⟩)
        · refine .inl ⟨if_neg hname, fun literal' hmem => ?_⟩
          rcases List.mem_cons.1 hmem with heq | hmem
          · exact hname (congrArg Prod.fst heq).symm
          · exact hnot literal' hmem
      · refine .inr (.inl ⟨List.mem_append_right _ hmem, h, fun literal' hmem' => ?_⟩)
        rcases List.mem_cons.1 hmem' with heq | hmem'
        · obtain rfl : name = other := congrArg Prod.fst heq
          exact not_mem_of_count hbound hcount (List.mem_singleton_self _) hmem
        · exact hnot literal' hmem'
      · exact .inr (.inr ⟨literal', List.mem_cons_of_mem _ hmem, h⟩)
    | none =>
      dsimp only
      rcases ih (declareTarget constants target) hrest with
        ⟨h, hnot⟩ | ⟨hmem, h, hnot⟩ | hdropped
      · rw [h]
        cases target with
        | var position other =>
          by_cases hname : other = name
          · subst hname
            exact .inr (.inl ⟨List.mem_append_left _ (List.mem_singleton_self _),
              by simp [declareTarget, Constants.find?], hnot⟩)
          · exact .inl ⟨by simp [declareTarget, Constants.find?, hname], hnot⟩
        | _ => exact .inl ⟨rfl, hnot⟩
      · exact .inr (.inl ⟨List.mem_append_right _ hmem, h, hnot⟩)
      · exact .inr (.inr hdropped)

theorem snd_foldLocal_of_paired {position : Position} {targets values : List Expr}
    (h : (!root && targets.length == values.length && !values.any Expr.isCall) = true) :
    (foldLocal bound root constants position targets values).2 =
      (declarePairs bound constants (targets.zip values)).2 := by
  rw [foldLocal, if_pos h]
  rcases declarePairs bound constants (targets.zip values) with ⟨kept, known⟩
  cases kept <;> rfl

/-- **What is known of a name behind a statement**: what was known in front of it, nothing if the
statement binds the name, or the literal of a declaration that is removed. -/
theorem find?_fold (root : Bool) (constants : Constants) (s : Stat)
    (hbound : s.bound.Sublist bound) (name : String) :
    ((s.fold bound root constants).2.find? name = constants.find? name ∧
        ∀ literal, (name, literal) ∉ s.removed bound root constants) ∨
      (name ∈ s.bound ∧ (s.fold bound root constants).2.find? name = none ∧
        ∀ literal, (name, literal) ∉ s.removed bound root constants) ∨
      ∃ literal, (name, literal) ∈ s.removed bound root constants ∧
        (s.fold bound root constants).2.find? name = some literal := by
  have hshadow (names : List Identifier) (hnames : names.map (·.name) ⊆ s.bound) :
      (constants.shadow names).find? name = constants.find? name ∨
        (name ∈ s.bound ∧ (constants.shadow names).find? name = none) := by
    rw [Constants.find?_shadow]
    by_cases hname : name ∈ names.map (·.name)
    · exact .inr ⟨hnames hname, if_pos hname⟩
    · exact .inl (if_neg hname)
  cases s with
  | assignment position isLocal targets values =>
    cases isLocal with
    | false => exact .inl ⟨rfl, fun _ => List.not_mem_nil⟩
    | true =>
      have htargets := (List.sublist_append_left _ _).trans hbound
      rw [Stat.fold, Stat.removed]
      split
      · next h =>
        rw [snd_foldLocal_of_paired h]
        simp only [Bool.and_eq_true, beq_iff_eq] at h
        have hfst : (targets.zip (foldAll constants values)).map (·.1) = targets :=
          List.map_fst_zip (Nat.le_of_eq h.1.2)
        have hbound : (boundInTargets ((targets.zip (foldAll constants values)).map (·.1))).Sublist
            bound := by rwa [hfst]
        have hpairs :=
          find?_declarePairs constants (targets.zip (foldAll constants values)) hbound name
        rw [hfst] at hpairs
        dsimp only at hpairs
        rcases hpairs with h | ⟨hmem, h⟩ | h
        · exact .inl h
        · exact .inr (.inl ⟨List.mem_append_left _ hmem, h⟩)
        · exact .inr (.inr h)
      · next h =>
        rw [foldLocal, if_neg h]
        rcases find?_declareTargets constants targets name with h | ⟨hmem, h⟩
        · exact .inl ⟨h, fun _ => List.not_mem_nil⟩
        · exact .inr (.inl ⟨List.mem_append_left _ hmem, h, fun _ => List.not_mem_nil⟩)
  | declaration names =>
    rcases hshadow names (List.Subset.refl _) with h | ⟨hmem, h⟩
    · exact .inl ⟨h, fun _ => List.not_mem_nil⟩
    · exact .inr (.inl ⟨hmem, h, fun _ => List.not_mem_nil⟩)
  | localFunction first function =>
    rcases hshadow [first] (by simp [Stat.bound]) with h | ⟨hmem, h⟩
    · exact .inl ⟨h, fun _ => List.not_mem_nil⟩
    · exact .inr (.inl ⟨hmem, h, fun _ => List.not_mem_nil⟩)
  | conditional position branches otherwise =>
    cases otherwise <;> exact .inl ⟨rfl, fun _ => List.not_mem_nil⟩
  | numericFor counter start stop step body =>
    cases step <;> exact .inl ⟨rfl, fun _ => List.not_mem_nil⟩
  | _ => exact .inl ⟨rfl, fun _ => List.not_mem_nil⟩

end

/-! ### Names in nodes -/

namespace Node

/-- A name is read or written somewhere in a node. -/
def Mentions (name : String) (n : Node) : Prop :=
  ∃ position, (expr (.var position name)).Within n

/-- A name is read or written in a function literal in a node. -/
def Closes (name : String) (n : Node) : Prop :=
  ∃ position parameters body, (expr (.function position parameters body)).Within n ∧
    (chunk body).Mentions name

/-- The names that a node binds. -/
def bound : Node → List String
  | chunk body => boundNames body
  | stat s => s.bound
  | expr e => e.bound

variable {n child : Node} {name : String}

theorem Mentions.of_child (hchild : child ∈ n.children) (h : child.Mentions name) :
    n.Mentions name := h.imp fun _ h => .child hchild h

theorem Closes.of_child (hchild : child ∈ n.children) (h : child.Closes name) : n.Closes name := by
  obtain ⟨position, parameters, body, hwithin, hmentions⟩ := h
  exact ⟨position, parameters, body, .child hchild hwithin, hmentions⟩

/-- What is closed over is mentioned. -/
theorem Closes.mentions (h : n.Closes name) : n.Mentions name := by
  obtain ⟨position, parameters, body, hwithin, position', hmentions⟩ := h
  exact ⟨position', (Within.child List.mem_cons_self hmentions).trans hwithin⟩

theorem boundInAll_eq (es : List Expr) : boundInAll es = es.flatMap Expr.bound := by
  induction es with
  | nil => rfl
  | cons e rest ih => rw [boundInAll, ih, List.flatMap_cons]

theorem boundInEntries_eq (es : List (Expr × Expr)) :
    boundInEntries es = es.flatMap fun e => e.1.bound ++ e.2.bound := by
  induction es with
  | nil => rfl
  | cons e rest ih => rw [boundInEntries, ih, List.flatMap_cons]

theorem boundInBranches_eq (es : List (Expr × List Stat)) :
    boundInBranches es = es.flatMap fun e => e.1.bound ++ boundNames e.2 := by
  induction es with
  | nil => rfl
  | cons e rest ih => rw [boundInBranches, ih, List.flatMap_cons]

theorem boundNames_eq (body : List Stat) : boundNames body = body.flatMap Stat.bound := by
  induction body with
  | nil => rfl
  | cons s rest ih => rw [boundNames, ih, List.flatMap_cons]

theorem mem_boundInTargets {e : Expr} {es : List Expr} (he : e ∈ es) (h : name ∈ e.bound) :
    name ∈ boundInTargets es := by
  induction es with
  | nil => cases he
  | cons f rest ih =>
    rw [boundInTargets_cons, List.mem_append]
    rcases List.mem_cons.1 he with rfl | he
    · refine .inl ?_
      cases e <;> simp_all [boundInTargets, Expr.bound]
    · exact .inr (ih he)

/-- What a node directly contains binds no names that the node does not bind. -/
theorem mem_bound_of_child (hchild : child ∈ n.children) (h : name ∈ child.bound) :
    name ∈ n.bound := by
  cases n with
  | chunk body =>
    obtain ⟨s, hs, rfl⟩ := List.mem_map.1 hchild
    rw [bound, boundNames_eq]
    exact List.mem_flatMap_of_mem hs h
  | stat s =>
    cases s with
    | assignment position isLocal targets values =>
      obtain ⟨e, he, rfl⟩ := List.mem_map.1 hchild
      rw [bound, Stat.bound, boundInAll_eq, List.mem_append]
      rcases List.mem_append.1 he with he | he
      · exact .inl (mem_boundInTargets he h)
      · exact .inr (List.mem_flatMap_of_mem he h)
    | conditional position branches otherwise =>
      rcases List.mem_append.1 hchild with hchild | hchild
      · obtain ⟨branch, hbranch, hchild⟩ := List.mem_flatMap.1 hchild
        have hbound : name ∈ boundInBranches branches := by
          rw [boundInBranches_eq]
          refine List.mem_flatMap_of_mem hbranch ?_
          simp only [List.mem_cons, List.not_mem_nil, or_false] at hchild
          rcases hchild with rfl | rfl
          · exact List.mem_append_left _ h
          · exact List.mem_append_right _ h
        cases otherwise <;> simp [bound, Stat.bound, hbound]
      · obtain ⟨body, hbody, rfl⟩ := List.mem_map.1 hchild
        obtain rfl := Option.mem_toList.1 hbody
        exact List.mem_append_right _ h
    | genericFor position names iterators body =>
      rw [bound, Stat.bound, boundInAll_eq]
      rcases List.mem_cons.1 hchild with rfl | hchild
      · exact List.mem_append_right _ h
      · obtain ⟨e, he, rfl⟩ := List.mem_map.1 hchild
        exact List.mem_append_left _ (List.mem_append_right _ (List.mem_flatMap_of_mem he h))
    | numericFor counter start stop step body =>
      cases step <;> simp only [children, Option.toList, List.map_nil, List.map_cons, List.mem_cons,
        List.not_mem_nil, or_false] at hchild
      · rcases hchild with rfl | rfl | rfl <;> simp_all [bound, Stat.bound]
      · rcases hchild with rfl | rfl | rfl | rfl <;> simp_all [bound, Stat.bound]
    | result position values =>
      obtain ⟨e, he, rfl⟩ := List.mem_map.1 hchild
      rw [bound, Stat.bound, boundInAll_eq]
      exact List.mem_flatMap_of_mem he h
    | declaration names => cases hchild
    | leave position => cases hchild
    | _ =>
      simp only [children, List.mem_cons, List.not_mem_nil, or_false] at hchild
      rcases hchild with rfl | rfl <;> simp_all [bound, Stat.bound]
  | expr e =>
    cases e with
    | table position entries =>
      obtain ⟨entry, hentry, hchild⟩ := List.mem_flatMap.1 hchild
      rw [bound, Expr.bound, boundInEntries_eq]
      refine List.mem_flatMap_of_mem hentry ?_
      simp only [List.mem_cons, List.not_mem_nil, or_false] at hchild
      rcases hchild with rfl | rfl
      · exact List.mem_append_left _ h
      · exact List.mem_append_right _ h
    | call position callee arguments =>
      rw [bound, Expr.bound, boundInAll_eq]
      rcases List.mem_cons.1 hchild with rfl | hchild
      · exact List.mem_append_left _ h
      · obtain ⟨e, he, rfl⟩ := List.mem_map.1 hchild
        exact List.mem_append_right _ (List.mem_flatMap_of_mem he h)
    | literal position value => cases hchild
    | var position name => cases hchild
    | _ =>
      simp only [children, List.mem_cons, List.not_mem_nil, or_false] at hchild
      rcases hchild with rfl | rfl <;> simp_all [bound, Expr.bound]

/-- The targets of the assignments in a well-formed tree can be assigned to. -/
theorem targeted_of_formed {inLoop : Bool} (h : n.formed inLoop) : n.Targeted := by
  cases n with
  | stat s =>
    cases s with
    | assignment position isLocal targets values =>
      simp only [formed, Stat.formed, Bool.and_eq_true, Bool.not_eq_true',
        List.isEmpty_eq_false_iff, List.all_eq_true] at h
      refine ⟨h.1.1.1.1, fun target htarget => ?_⟩
      have hkind := h.1.1.2 target htarget
      cases isLocal <;> exact hkind
    | _ => trivial
  | _ => trivial

theorem all_targeted_of_formed {inLoop : Bool} (h : n.formed inLoop) : n.All Targeted := by
  intro m hm
  induction hm generalizing inLoop with
  | here => exact targeted_of_formed h
  | child hchild _ ih => exact ih (formed_of_mem_children h hchild)

end Node

/-! ### Safe folding -/

mutual

/-- Nothing that is folded in an expression can be seen. -/
def Expr.FoldsSafely (constants : Constants) : Expr → Prop
  | .literal _ _ => True
  | .var _ _ => True
  | .function _ parameters body =>
    foldsSafely (boundNames body) false (constants.shadow parameters) body
  | .table _ entries => entriesFoldSafely constants entries
  | .call _ callee arguments =>
    callee.FoldsSafely constants ∧ valuesFoldSafely constants arguments
  | .index _ table key => table.FoldsSafely constants ∧ key.FoldsSafely constants
  | .group _ inner => inner.FoldsSafely constants
  | .binary _ _ lhs rhs => lhs.FoldsSafely constants ∧ rhs.FoldsSafely constants
  | .unary _ _ operand => operand.FoldsSafely constants

/-- Nor in a list of values, the last of which is not folded to a call unless it is one. -/
def valuesFoldSafely (constants : Constants) : List Expr → Prop
  | [] => True
  | e :: rest => e.FoldsSafely constants ∧
      (rest = [] → (e.fold constants).isCall = e.isCall) ∧ valuesFoldSafely constants rest

@[inherit_doc Expr.FoldsSafely]
def entriesFoldSafely (constants : Constants) : List (Expr × Expr) → Prop
  | [] => True
  | (key, value) :: rest =>
    key.FoldsSafely constants ∧ value.FoldsSafely constants ∧ entriesFoldSafely constants rest

@[inherit_doc Expr.FoldsSafely]
def targetsFoldSafely (constants : Constants) : List Expr → Prop
  | [] => True
  | .index _ table key :: rest =>
    table.FoldsSafely constants ∧ key.FoldsSafely constants ∧ targetsFoldSafely constants rest
  | _ :: rest => targetsFoldSafely constants rest

@[inherit_doc Expr.FoldsSafely]
def branchesFoldSafely (constants : Constants) : List (Expr × List Stat) → Prop
  | [] => True
  | (condition, body) :: rest =>
    condition.FoldsSafely constants ∧ foldsSafely (boundNames body) false constants body ∧
      branchesFoldSafely constants rest

/-- Nor in a statement.  The condition behind a `repeat` loop does not bind what is removed from its
body. -/
def Stat.FoldsSafely (constants : Constants) : Stat → Prop
  | .expression e => e.FoldsSafely constants
  | .assignment _ true _ values => valuesFoldSafely constants values
  | .assignment _ false targets values =>
    targetsFoldSafely constants targets ∧ valuesFoldSafely constants values
  | .declaration _ => True
  | .localFunction name function => function.FoldsSafely (constants.shadow [name])
  | .conditional _ branches none => branchesFoldSafely constants branches
  | .conditional _ branches (some body) =>
    branchesFoldSafely constants branches ∧ foldsSafely (boundNames body) false constants body
  | .whileLoop _ condition body =>
    condition.FoldsSafely constants ∧ foldsSafely (boundNames body) false constants body
  | .numericFor counter start stop none body =>
    start.FoldsSafely constants ∧ stop.FoldsSafely constants ∧
      foldsSafely (boundNames body) false (constants.shadow [counter]) body
  | .numericFor counter start stop (some step) body =>
    start.FoldsSafely constants ∧ stop.FoldsSafely constants ∧ step.FoldsSafely constants ∧
      foldsSafely (boundNames body) false (constants.shadow [counter]) body
  | .genericFor _ names iterators body =>
    valuesFoldSafely constants iterators ∧
      foldsSafely (boundNames body) false (constants.shadow names) body
  | .repeatLoop _ body condition =>
    foldsSafely (boundNames body) false constants body ∧
      condition.FoldsSafely (foldStats (boundNames body) false constants body).2 ∧
      ∀ entry ∈ removedFrom (boundNames body) false constants body, entry.1 ∉ condition.bound
  | .block body => foldsSafely (boundNames body) false constants body
  | .result _ values => valuesFoldSafely constants values
  | .leave _ => True

/-- Nor in statements of a block whose bindings are `bound`.  No function literal mentions a
variable whose declaration is removed from a statement behind it, or from its own. -/
def foldsSafely (bound : List String) (root : Bool) (constants : Constants) : List Stat → Prop
  | [] => True
  | s :: rest => s.FoldsSafely constants ∧
      (∀ entry ∈ removedFrom bound root constants (s :: rest), ¬ (stat s).Closes entry.1) ∧
      foldsSafely bound root (s.fold bound root constants).2 rest

end

end ScriptEngine
