import ScriptEngine.Proofs.Compilation.Expressions

/-!
# Assignments, blocks and conditionals

Code and evaluation agree on what statements without loops are made of.

## Main results

* `Setting.agreesOnStores_succ` — putting values into targets.
* `Setting.agreesOnBlock_succ`, `Setting.agreesOnBranches_succ`,
  `Setting.agreesOnChunk_succ` — statements in a scope of their own, the branches
  of a conditional, statements one after another.
-/

namespace ScriptEngine.Setting

variable {setting : Setting} {call : Position → Nat → Reentry} {functions : FunctionTable}
  {n : Nat} {places : List Nat} {exit : Option Nat} {ip : Nat} {m : Machine} {s : Store}

/-! ### Targets of assignments -/

/-- Putting a value under a key, all of which are on the stack. -/
theorem follows_putAt {position : Position} {target key v : Value} {σ : List Value}
    (h : setting.program.Holds places exit ip
      [.counted .storeIndex 1 position, .plain .pop position]) :
    setting.Follows call ⟨{ m with ip := ip, stack := key :: v :: target :: σ }, s⟩
      (putAt position target key v s)
      fun _ s' st' => st' = ⟨{ m with ip := ip + 2, stack := σ }, s'⟩ := by
  cases target with
  | table ref =>
    refine (follows_storeIndex (m := m) (h.head rfl)
      (show [(key, v)].length = 1 from rfl)).further fun _ s' st' _ hst => ?_
    subst hst
    exact Follows.step (h.tail.head rfl) rfl (.pure rfl)
  | _ =>
    have hexecute := storeIndex_stackedPairs (m := { m with ip := ip + 1 }) (s := s)
    exact Follows.raise (h.head rfl) (hexecute _ σ [(key, v)]) rfl

theorem agreesOnStores_succ (ih : setting.Agrees call functions n) :
    setting.AgreesOnStores call functions (n + 1) := by
  intro places exit next ip isLocal targets values σ m s h
  cases targets with
  | nil =>
    rw [evalStores, List.length_nil, adjust_zero]
    exact .pure rfl
  | cons target rest =>
    rw [List.length_cons, adjust_succ, List.reverse_cons, List.append_assoc]
    cases target with
    | var position name =>
      simp only [storesCode, Gen.fst_bind, Gen.fst_pure, evalStores] at h ⊢
      cases isLocal with
      | true =>
        simp only [if_true, List.append_assoc] at h ⊢
        refine (ih.stores m s h.left).bind fun _ s₁ st₁ _ hst => ?_
        subst hst
        refine (follows_bindLocal h.right).imp fun _ s₂ st₂ _ hst => hst.trans ?_
        exact state_at (by simp; omega)
      | false =>
        simp only [Bool.false_eq_true, if_false, List.append_nil] at h ⊢
        refine (ih.stores m s h.left).bind fun _ s₁ st₁ _ hst => ?_
        subst hst
        refine Follows.step (h.right.head rfl) rfl (.pure ?_)
        exact state_at (by simp; omega)
    | index position table key =>
      simp only [storesCode, Gen.fst_bind, Gen.fst_pure, bodies_storesCode, Expr.bodies_code,
        length_functionCodes, evalStores] at h ⊢
      refine (ih.stores m s h.left.left.left.left).bind fun _ s₁ st₁ _ hst => ?_
      subst hst
      refine (ih.value { m with stack := values.headD .nil :: σ } s₁
        h.left.left.left.right).bind fun t s₂ st₂ _ hst => ?_
      subst hst
      refine Follows.step (h.left.left.right.headAt (by simp; omega) rfl) rfl ?_
      refine (ih.value { m with stack := values.headD .nil :: t :: σ } s₂
        (h.left.right.moved (by simp; omega))).bind fun k s₃ st₃ _ hst => ?_
      subst hst
      refine (follows_putAt (m := m) (h.right.moved (by simp; omega))).imp
        fun _ s₄ st₄ _ hst => hst.trans ?_
      exact state_at (by simp; omega)
    | _ =>
      simp only [storesCode, Gen.fst_bind, Gen.fst_pure, evalStores] at h ⊢
      refine (ih.stores m s h.left).further fun _ s₁ st₁ _ hst => ?_
      subst hst
      refine Follows.step (h.right.head rfl) rfl (.pure ?_)
      exact state_at (by simp; omega)

/-! ### Blocks -/

/-- Two names of the place behind statements. -/
theorem Ended.moved {k : Option Nat} {keep : Bool} {ip' : Nat} {outcome : Outcome} {st : State}
    (h : setting.Ended m exit k keep ip outcome s st) (heq : ip' = ip) :
    setting.Ended m exit k keep ip' outcome s st := heq ▸ h

/-- The end of a block: what holds of the machine inside holds outside of it. -/
theorem follows_endBlock {k : Option Nat} {position : Position} {scope : ScopeRef}
    {outcome : Outcome} {st : State} (hgrounded : m.Grounded)
    (hop : setting.program.code[ip]? = some (.plain .endBlock position))
    (hended : setting.Ended { m with scopes := scope :: m.scopes } exit (k.map (· + 1)) false ip
      outcome s st) :
    setting.Follows call st (.ok outcome s) (setting.Ended m exit k false (ip + 1)) := by
  cases outcome with
  | next kept =>
    obtain ⟨hkept, rfl⟩ := hended
    obtain rfl := hkept rfl
    exact Follows.step hop rfl (.pure ⟨fun _ => rfl, rfl⟩)
  | leave =>
    refine .pure fun x hx j hj => ?_
    rw [hended x hx (j + 1) (by rw [hj]; rfl)]
    rfl
  | result values =>
    refine .pure (hended.trans ?_)
    rw [← returned_of_grounded hgrounded values [] m.ip (scope :: m.scopes)]
    rfl

theorem agreesOnBlock_succ (ih : setting.Agrees call functions n) :
    setting.AgreesOnBlock call functions (n + 1) := by
  intro places exit k next ip position names values body declarations σ m s hgrounded hnames h
  rw [evalBlock]
  refine Follows.step (h.left.head rfl) rfl (.ok_bind rfl ?_)
  refine (hnames s.newScope.1 s.newScope.2).bind fun _ s₁ st₁ _ hst => ?_
  subst hst
  refine (ih.chunk { m with scopes := s.newScope.1 :: m.scopes } s₁
    (grounded_push hgrounded [] m.ip _) h.left.tail.right).further fun outcome s₂ st₂ _ hended => ?_
  refine (follows_endBlock hgrounded (h.right.headAt (by simp; omega) rfl) hended).imp
    fun outcome s₃ st₃ _ hended => hended.moved (by simp [inScope]; omega)

/-- The code of a block without variables of its own. -/
theorem Agrees.plainBlock (ih : setting.Agrees call functions n) {k : Option Nat} {next : Nat}
    {position : Position} {body : List Stat} (m : Machine) (s : Store) (hgrounded : m.Grounded)
    (h : setting.program.Holds places exit ip
      (inScope position (chunkCode (k.map (· + 1)) false body next).1)) :
    setting.Follows call ⟨{ m with ip := ip }, s⟩
      (evalBlock (setting.world call functions) n (m.context places) next [] [] body s)
      (setting.Ended m exit k false
        (ip + (inScope position (chunkCode (k.map (· + 1)) false body next).1).length)) :=
  ih.block m s hgrounded (fun _ _ => .pure rfl)
    (show Program.Holds _ _ _ _ (inScope position ([] ++ _)) from h)

/-! ### Conditionals -/

theorem bodies_lastBranch (k : Option Nat) (position : Position) (otherwise : Option (List Stat))
    (next : Nat) :
    (lastBranch k position otherwise next).2 =
      functionCodes next ((otherwise.map chunkFunctions).getD []) := by
  cases otherwise with
  | none => rfl
  | some body => simp [lastBranch, bodies_chunkCode]

/-- The jump from the end of a branch over the branches behind it. -/
theorem follows_skip {k : Option Nat} {position : Position} {others : Code} {outcome : Outcome}
    {st : State}
    (h : setting.program.Holds places exit ip
      (if others.isEmpty then [] else [.jumping .jump others.length position]))
    (hended : setting.Ended m exit k false ip outcome s st) :
    setting.Follows call st (.ok outcome s) (setting.Ended m exit k false
      (ip + (if others.isEmpty then [] else
        [Op.jumping .jump others.length position]).length + others.length)) := by
  cases others with
  | nil => exact .pure hended
  | cons op rest =>
    cases outcome with
    | next kept =>
      obtain ⟨hkept, rfl⟩ := hended
      exact follows_jump (m := { m with stack := kept.toList ++ m.stack }) _ (h.head rfl)
        (Int.natCast_add _ _).symm (.pure ⟨hkept, rfl⟩)
    | leave => exact .pure hended
    | result values => exact .pure hended

theorem agreesOnBranches_succ (ih : setting.Agrees call functions n) :
    setting.AgreesOnBranches call functions (n + 1) := by
  intro places exit k next ip position otherwise branches m s hgrounded h
  rcases branches with _ | ⟨⟨condition, body⟩, rest⟩
  · cases otherwise with
    | none =>
      rw [evalBranches]
      exact .pure ⟨fun _ => rfl, rfl⟩
    | some body =>
      rw [evalBranches]
      exact ih.plainBlock m s hgrounded h
  · have hlast := bodies_branchesCode k position (lastBranch k position otherwise) _
      (bodies_lastBranch k position otherwise) rest
    simp only [branchesCode, Gen.fst_bind, Gen.fst_pure, bodies_chunkCode, hlast,
      length_functionCodes, evalBranches] at h ⊢
    refine (ih.expr m s h.left.left).bind fun v s₁ st₁ _ hst => ?_
    subst hst
    cases hv : v.isTruthy with
    | true =>
      simp only [Target.arrive, hv, Bool.true_eq_false, if_false, if_true]
      refine (ih.plainBlock m s₁ hgrounded h.left.right.left).further
        fun outcome s₂ st₂ _ hended => ?_
      refine (follows_skip h.left.right.right hended).imp fun outcome s₃ st₃ _ hended =>
        hended.moved ?_
      simp only [List.length_append]
      omega
    | false =>
      simp only [Target.arrive, hv, Bool.false_eq_true, if_false, if_true]
      refine (ih.branches m s₁ hgrounded (h.right.moved ?_)).imp fun outcome s₂ st₂ _ hended =>
        hended.moved ?_
      all_goals
        simp only [List.length_append]
        omega

/-! ### Statements one after another -/

theorem agreesOnChunk_succ (ih : setting.Agrees call functions n) :
    setting.AgreesOnChunk call functions (n + 1) := by
  intro places exit k keep next ip body m s hgrounded h
  cases body with
  | nil =>
    rw [evalChunk]
    exact .pure ⟨fun _ => rfl, rfl⟩
  | cons stat rest =>
    simp only [chunkCode, Gen.fst_bind, Gen.fst_pure, Stat.bodies_code, length_functionCodes,
      evalChunk] at h ⊢
    refine (ih.stat m s hgrounded h.left).bind fun outcome s₁ st₁ _ hended => ?_
    cases outcome with
    | next kept =>
      obtain ⟨hkept, rfl⟩ := hended
      cases rest with
      | nil =>
        refine .pure ⟨fun hkeep => hkept (by rw [hkeep]; rfl), ?_⟩
        simp [chunkCode]
      | cons stat' rest =>
        -- Only the last statement leaves a value.
        obtain rfl := hkept (by simp)
        refine (ih.chunk m s₁ hgrounded h.right).imp fun outcome s₂ st₂ _ hended =>
          hended.moved ?_
        rw [List.length_append, Nat.add_assoc]
    | leave => exact .pure hended
    | result values => exact .pure hended

end ScriptEngine.Setting
