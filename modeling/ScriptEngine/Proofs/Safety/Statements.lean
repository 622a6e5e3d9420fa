import ScriptEngine.Proofs.Safety.Breaks
import ScriptEngine.Proofs.Safety.Expressions

/-!
# The code of statements is accepted

The code of a statement leaves the stack as it found it, but for the value of an
expression at the end of a text.  Where a loop is left, the scopes that were
opened in it are closed first.  A loop is accepted for one step more each time
its beginning is reached again.

## Main definitions

* `Program.Exits` — what is behind a loop is accepted where the loop is left.
* `endsInExpression` — statements whose last one is an expression.

## Main results

* `Stat.accepts`, `accepts_chunkCode` — the code of statements.
* `Program.verified_function`, `Program.verified_main` — the code of functions and
  texts is verified.
-/

namespace ScriptEngine

variable {p : Program} {places : List Nat} {exit : Option Nat} {final : Shape → Prop}
  {n ip next : Nat} {σ : Shape}

/-! ### Scopes -/

/-- What is behind a loop is accepted where it is left: `scopes` scopes inside of
it. -/
def Program.Exits (p : Program) (final : Shape → Prop) (n : Nat) (exit scopes : Option Nat)
    (σ : Shape) : Prop :=
  ∀ x ∈ exit, ∃ j, scopes = some j ∧ j < σ.scopes ∧
    p.Accepts final n x { σ with scopes := σ.scopes - j }

/-- One scope further in. -/
theorem Program.Exits.inside {scopes : Option Nat} (h : p.Exits final n exit scopes σ) :
    p.Exits final n exit (scopes.map (· + 1)) { σ with scopes := σ.scopes + 1 } := by
  intro x hx
  obtain ⟨j, rfl, hj, haccepts⟩ := h x hx
  refine ⟨j + 1, rfl, Nat.succ_lt_succ hj, ?_⟩
  rwa [Nat.add_sub_add_right]

/-- Right inside of a loop. -/
theorem Program.Exits.of_loop {x : Nat} (hscopes : 1 ≤ σ.scopes) (h : p.Accepts final n x σ) :
    p.Exits final n (some x) (some 1) { σ with scopes := σ.scopes + 1 } := by
  rintro y hy
  cases hy
  exact ⟨1, rfl, Nat.succ_lt_succ hscopes, h⟩

/-- A piece of code in a scope of its own. -/
theorem accepts_inScope {position : Position} {code : Code} {τ : Shape} (hscopes : 1 ≤ σ.scopes)
    (h : p.Holds places exit ip (inScope position code))
    (hbehind : p.Accepts final n (ip + (inScope position code).length) σ)
    (hcode : p.Holds places exit (ip + 1) code →
      p.Accepts final n (ip + 1 + code.length) { σ with scopes := σ.scopes + 1 } →
      p.Accepts final n (ip + 1) { τ with scopes := τ.scopes + 1 }) :
    p.Accepts final n ip τ := by
  refine .of_next _ (h.left.head rfl) rfl (hcode h.left.tail ?_)
  have hflow : (Op.plain .endBlock position).flow (ip + 1 + code.length)
      { σ with scopes := σ.scopes + 1 } = some [(ip + 1 + code.length + 1, σ)] :=
    if_pos (Nat.succ_le_succ hscopes)
  refine .of_next σ (h.right.headAt (by simp; omega) rfl) hflow ?_
  exact hbehind.moved (by simp [inScope]; omega)

/-- The instructions that leave a loop. -/
theorem accepts_leaveCode {scopes : Option Nat} {position : Position} {x : Nat}
    (h : p.Holds places (some x) ip (leaveCode scopes position))
    (hexits : p.Exits final n (some x) scopes σ) : p.Accepts final n ip σ := by
  obtain ⟨j, rfl, hj, haccepts⟩ := hexits x rfl
  rw [leaveCode, Option.getD_some] at h
  clear hexits
  induction j generalizing ip σ with
  | zero =>
    have hop := h.1
    rw [Op.settled, if_pos (by rfl)] at hop
    exact (Program.Accepts.jump x hop (by omega) haccepts).pred
  | succ j ih =>
    rw [List.replicate_succ, List.cons_append] at h
    have hflow : (Op.plain .endBlock position).flow ip σ =
        some [(ip + 1, { σ with scopes := σ.scopes - 1 })] := if_pos (by omega)
    refine .of_next _ (h.head rfl) hflow (ih h.tail (Nat.lt_sub_of_add_lt hj) ?_)
    rwa [Nat.sub_sub, Nat.add_comm 1 j]

/-! ### Loops -/

/-- The code of the body of a loop: it is accepted in a scope of its own if what is
behind it and what is behind the loop are accepted. -/
def Program.Passes (p : Program) (places : List Nat) (final : Shape → Prop) (body : Code) : Prop :=
  ∀ {x n ip σ}, p.Holds places (some x) ip body → 1 ≤ σ.scopes → p.Accepts final n x σ →
    p.Accepts final n (ip + body.length) { σ with scopes := σ.scopes + 1 } →
    p.Accepts final n ip { σ with scopes := σ.scopes + 1 }

/-- A jump back to the beginning of a loop. -/
theorem Program.Accepts.jumpBack {position : Position} {code : Code} {start : Nat}
    (hop : p.code[ip]? = some (ScriptEngine.jumpBack position code))
    (hip : ip = start + code.length) (h : p.Accepts final n start σ) :
    p.Accepts final (n + 1) ip σ :=
  .jump start hop (by omega) h

theorem accepts_whileLoop {position : Position} {condition : Expr} {body : Code}
    (hscopes : 1 ≤ σ.scopes) (hbody : p.Passes places final body)
    (h : let block := inScope position body
      let test := (condition.code (.jumpWhen false (block.length + 1)) next).1
      p.Holds places exit ip
        (resolveBreaks 0 (test ++ block ++ [jumpBack position (test ++ block)])))
    (hbehind : p.Accepts final n (ip + (condition.code (.jumpWhen false
      ((inScope position body).length + 1)) next).1.length + (inScope position body).length + 1)
      σ) :
    p.Accepts final n ip σ := by
  have hloop := Program.holds_resolveBreaks h (x := ip + (condition.code (.jumpWhen false
    ((inScope position body).length + 1)) next).1.length + (inScope position body).length + 1)
    (by simp; omega)
  -- Each time the beginning is reached again, one step less has to be accepted.
  induction n with
  | zero => trivial
  | succ n ih =>
    refine condition.accepts hloop.left.left ⟨?_, hbehind.moved (by omega)⟩
    refine accepts_inScope hscopes hloop.left.right ?_ fun hinner =>
      hbody hinner hscopes hbehind
    exact .jumpBack (hloop.right.headAt (by simp; omega) rfl) (by simp; omega)
      (ih hbehind.pred)

theorem accepts_repeatLoop {position : Position} {condition : Expr} {body : Code}
    (hscopes : 1 ≤ σ.scopes) (hbody : p.Passes places final body)
    (h : let round := inScope position (body ++ (condition.code .value next).1)
      p.Holds places exit ip (resolveBreaks 0
        (round ++ [.jumping .jumpIfNot (-(round.length + 1 : Nat)) condition.position])))
    (hbehind : p.Accepts final n
      (ip + (inScope position (body ++ (condition.code .value next).1)).length + 1) σ) :
    p.Accepts final n ip σ := by
  have hloop := Program.holds_resolveBreaks h
    (x := ip + (inScope position (body ++ (condition.code .value next).1)).length + 1)
    (by simp; omega)
  induction n with
  | zero => trivial
  | succ n ih =>
    have hround := hloop.left
    refine .of_next _ (hround.left.head rfl) rfl ?_
    refine hbody hround.left.tail.left hscopes hbehind
      (condition.pushes _ hround.left.tail.right ?_)
    have hflow : (Op.plain .endBlock position).flow
        (ip + 1 + body.length + (condition.code .value next).1.length)
        (Shape.push { σ with scopes := σ.scopes + 1 } [.value]) =
        some [(ip + 1 + body.length + (condition.code .value next).1.length + 1,
          σ.push [.value])] :=
      if_pos (Nat.succ_le_succ hscopes)
    refine .of_next _ (hround.right.headAt (by simp; omega) rfl) hflow ?_
    exact .jumpWhen false ip (hloop.right.headAt (by simp [inScope]; omega) rfl)
      (by simp [inScope]; omega) (hbehind.pred.moved (by simp [inScope]; omega)) (ih hbehind.pred)

/-- A loop that counts. -/
theorem accepts_countingLoop {position : Position} {name : String} {start stop step body : Code}
    (hscopes : 1 ≤ σ.scopes) (hstart : p.Pushes places final start [.value])
    (hstop : p.Pushes places final stop [.value]) (hstep : p.Pushes places final step [.value])
    (hbody : p.Passes places final body)
    (h : p.Holds places exit ip (countingLoop position name start stop step body))
    (hbehind : p.Accepts final n
      (ip + (countingLoop position name start stop step body).length) σ) :
    p.Accepts final n ip σ := by
  unfold countingLoop at h hbehind
  dsimp only at h hbehind
  refine hstart h.left ?_
  have hloop := Program.holds_resolveBreaks h.right
    (x := ip + start.length + stop.length + body.length + step.length + 10)
    (by simp [inScope, bindLocal]; omega)
  have hround := hloop.left
  have hpop : p.Accepts final n (ip + start.length + stop.length + body.length + step.length + 10)
      (σ.push [.value]) := by
    refine .of_next σ (hloop.right.tail.headAt (by simp [inScope, bindLocal]; omega) rfl) rfl ?_
    exact hbehind.moved (by simp [inScope, bindLocal]; omega)
  clear hbehind
  induction n with
  | zero => trivial
  | succ n ih =>
    refine .of_next ((σ.push [.value]).push [.value]) (hround.left.left.left.left.head rfl) rfl ?_
    refine hstop hround.left.left.left.left.tail ?_
    refine .of_next ((σ.push [.value]).push [.value])
      (hround.left.left.left.right.headAt (by simp; omega) rfl) rfl ?_
    refine (Program.Accepts.jumpWhen false _
      (hround.left.left.left.right.tail.headAt (by simp; omega) rfl)
      (by simp [inScope, bindLocal]; omega) ?_ hpop).pred
    refine accepts_inScope (σ := σ.push [.value]) hscopes
      (hround.left.left.right.moved (by simp; omega)) ?_ fun hinner => ?_
    · refine hstep (hround.left.right.moved (by simp [inScope, bindLocal]; omega)) ?_
      refine .of_next (σ.push [.value]) (hround.right.headAt (by simp [inScope, bindLocal]; omega)
        rfl) rfl ?_
      exact .jumpBack (hloop.right.headAt (by simp [inScope, bindLocal]; omega) rfl)
        (by simp [inScope, bindLocal]; omega) (ih hpop.pred)
    · intro hend
      refine .of_next _ (hinner.left.head rfl) rfl ?_
      refine accepts_bindLocal (σ := Shape.push { σ with scopes := σ.scopes + 1 } [.value])
        (Nat.le_add_left _ _) hinner.left.tail ?_
      refine hbody (σ := σ.push [.value]) (hinner.right.moved (by simp [bindLocal])) hscopes hpop ?_
      exact hend.moved (by simp [bindLocal]; omega)

/-- A loop over an iterator. -/
theorem accepts_iteratorLoop {position : Position} {names : List Identifier} {iterators body : Code}
    {cells : List Cell} (hscopes : 1 ≤ σ.scopes)
    (hiterators : p.Pushes places final iterators cells) (hbody : p.Passes places final body)
    (h : p.Holds places exit ip (iteratorLoop position names iterators body))
    (hbehind : p.Accepts final n
      (ip + (iteratorLoop position names iterators body).length) σ) :
    p.Accepts final n ip σ := by
  unfold iteratorLoop at h hbehind
  dsimp only at h hbehind
  refine .of_next { σ with top := [], rest := σ.top :: σ.rest } (h.left.left.head rfl) rfl ?_
  refine hiterators h.left.left.tail ?_
  refine .of_next (σ.push (values 3)) (h.left.right.headAt (by simp; omega) rfl) rfl ?_
  have hloop := Program.holds_resolveBreaks
    (h.right.moved (show ip + 1 + iterators.length + 1 = _ by simp; omega))
    (x := ip + iterators.length + (bindLocals names).length + body.length + 10)
    (by simp [inScope]; omega)
  have hround := hloop.left
  have hpop :
      p.Accepts final n (ip + iterators.length + (bindLocals names).length + body.length + 10)
      (σ.push (values 3)) := by
    refine .of_next σ (hloop.right.tail.headAt (by simp [inScope]; omega) rfl) rfl ?_
    exact hbehind.moved (by simp [inScope]; omega)
  clear hbehind
  induction n with
  | zero => trivial
  | succ n ih =>
    let marked : Shape := { σ with top := [], rest := (values 3 ++ σ.top) :: σ.rest }
    refine .of_next marked (hround.left.head rfl) rfl ?_
    refine .of_next (marked.push [.many]) (hround.left.tail.head rfl) rfl ?_
    have hflow : (Op.jumping .iterJumpIfDone ((inScope position (bindLocals names ++ body)).length
        + 3 : Nat) position).flow (ip + 1 + iterators.length + 1 + 1 + 1) (marked.push [.many]) =
        some [(ip + 1 + iterators.length + 1 + 1 + 1 + 1, marked.push [.many]),
          (ip + iterators.length + (bindLocals names).length + body.length + 10,
            σ.push (values 3))] := by
      have htarget : jumpTarget? (ip + 1 + iterators.length + 1 + 1 + 1)
          ((inScope position (bindLocals names ++ body)).length + 3 : Nat) =
          some (ip + iterators.length + (bindLocals names).length + body.length + 10) :=
        jumpTarget?_eq (by simp [inScope]; omega)
      simp only [Op.flow, Op.jumping, Op.offset, htarget]
      rfl
    refine .of_flow (hround.left.tail.tail.head rfl) hflow fun t ht => ?_
    rcases List.mem_cons.1 ht with rfl | ht
    · refine .of_next ((σ.push (values 3)).push (values names.length))
        (hround.left.tail.tail.tail.head rfl) rfl ?_
      refine .of_next ((σ.push (values 3)).push (values names.length))
        (hround.left.tail.tail.tail.tail.head rfl) ?_ ?_
      · have hpop : ((σ.push (values 3)).push (values names.length)).pop (names.length + 1) =
            some (σ.push (values 2)) := by
          rw [Shape.pop_eq_some_iff, Shape.push_push, Shape.push_push, ← values_add, ← values_add]
        have hpush : (σ.push (values 2)).push (values (names.length + 1)) =
            (σ.push (values 3)).push (values names.length) := by
          rw [Shape.push_push, Shape.push_push, ← values_add, ← values_add]
        simp only [Op.flow, Op.flowByArity, Op.arity?, Op.counted, Op.count?, Option.getD_some]
        rw [Option.bind_eq_bind, Option.bind_some, hpop, ← hpush]
        rfl
      · refine accepts_inScope (σ := σ.push (values 3)) hscopes (hround.right.moved (by simp)) ?_
          fun hinner hend => ?_
        · exact .jumpBack (hloop.right.headAt (by simp [inScope]; omega) rfl)
            (by simp [inScope]; omega) (ih hpop.pred)
        · refine accepts_bindLocals (σ := Shape.push { σ with scopes := σ.scopes + 1 } (values 3))
            (Nat.le_add_left _ _) hinner.left ?_
          refine hbody (σ := σ.push (values 3)) hinner.right hscopes hpop ?_
          exact hend.moved (by simp; omega)
    · rw [List.mem_singleton.1 ht]
      exact hpop

/-! ### Statements -/

/-- Whether a statement is an expression. -/
def Stat.isExpression : Stat → Bool
  | .expression _ => true
  | _ => false

/-- Whether the last of some statements is an expression. -/
def endsInExpression (body : List Stat) : Bool := body.getLast?.any Stat.isExpression

/-- What the code of statements leaves on the stack. -/
def keptCells (keep : Bool) : List Cell := if keep then [.value] else []

/-- The statements that declare variables without values. -/
theorem accepts_declarations {names : List Identifier} (hscopes : 1 ≤ σ.scopes)
    (h : p.Holds places exit ip
      (names.map fun name => .named .makeLocal name.name name.position))
    (hbehind : p.Accepts final n (ip + names.length) σ) : p.Accepts final n ip σ := by
  induction names generalizing ip with
  | nil => exact hbehind
  | cons name rest ih =>
    have hflow : (Op.named .makeLocal name.name name.position).flow ip σ = some [(ip + 1, σ)] :=
      if_pos hscopes
    refine .of_next σ (h.head rfl) hflow (ih h.tail ?_)
    exact hbehind.moved (by simp; omega)

/-- An expression as a statement. -/
theorem accepts_expression {scopes : Option Nat} {keep : Bool} (e : Expr)
    (h : p.Holds places exit ip ((Stat.expression e).code scopes keep next).1)
    (hbehind : p.Accepts final n
      (ip + ((Stat.expression e).code scopes keep next).1.length) (σ.push (keptCells keep))) :
    p.Accepts final n ip σ := by
  cases e with
  | call position callee arguments =>
    simp only [Stat.code, Gen.fst_bind, Gen.fst_pure] at h hbehind
    refine pushes_callCode (pushes_valuesCode arguments _) (callee.pushes _) h ?_
    cases keep <;> exact hbehind
  | _ =>
    simp only [Stat.code, Gen.fst_bind, Gen.fst_pure] at h hbehind
    cases keep with
    | true => exact Expr.pushes _ _ h hbehind
    | false =>
      refine Expr.pushes _ _ h.left (.of_next σ (h.right.head rfl) rfl ?_)
      exact hbehind.moved (by simp; omega)

theorem valuesCells_of_isSingle {targets es : List Expr} (h : isSingle targets es = true) :
    valuesCells es = values targets.length := by
  simp only [isSingle, Bool.and_eq_true, beq_iff_eq, Bool.not_eq_true'] at h
  obtain ⟨⟨htargets, hlength⟩, hcall⟩ := h
  obtain ⟨e, rfl⟩ := List.length_eq_one_iff.1 hlength
  have hends : endsInCall [e] = false := by simpa [endsInCall] using hcall
  rw [valuesCells_of_not_endsInCall hends, hlength, htargets]

/-- An assignment. -/
theorem accepts_assignment {scopes : Option Nat} {keep isLocal : Bool} {position : Position}
    {targets es : List Expr} (hscopes : 1 ≤ σ.scopes)
    (h : p.Holds places exit ip
      ((Stat.assignment position isLocal targets es).code scopes keep next).1)
    (hbehind : p.Accepts final n
      (ip + ((Stat.assignment position isLocal targets es).code scopes keep next).1.length) σ) :
    p.Accepts final n ip σ := by
  simp only [Stat.code, Gen.fst_bind, Gen.fst_pure] at h hbehind
  cases hsingle : isSingle targets es with
  | true =>
    rw [hsingle, if_pos rfl] at h hbehind
    refine pushes_valuesCode es _ h.left ?_
    rw [valuesCells_of_isSingle hsingle]
    refine accepts_storesCode hscopes h.right ?_
    exact hbehind.moved (by simp; omega)
  | false =>
    rw [hsingle, if_neg Bool.false_ne_true] at h hbehind
    refine .of_next { σ with top := [], rest := σ.top :: σ.rest } (h.left.left.head rfl) rfl ?_
    refine pushes_valuesCode es _ h.left.left.tail ?_
    refine .of_next (σ.push (values targets.length)) (h.left.right.headAt (by simp; omega) rfl)
      rfl ?_
    refine accepts_storesCode hscopes (h.right.moved (by simp; omega)) ?_
    exact hbehind.moved (by simp; omega)

/-- A return, behind which the code does not go on. -/
theorem accepts_result {scopes : Option Nat} {keep : Bool} {position : Position} {es : List Expr}
    (h : p.Holds places exit ip ((Stat.result position es).code scopes keep next).1) :
    p.Accepts final n ip σ := by
  simp only [Stat.code, Gen.fst_bind, Gen.fst_pure] at h
  cases hends : endsInCall es with
  | true =>
    rw [hends, if_pos rfl] at h
    refine .of_next { σ with top := [], rest := σ.top :: σ.rest } (h.left.head rfl) rfl ?_
    refine pushes_valuesCode es _ h.left.tail ?_
    exact .of_flow (h.right.headAt (by simp; omega) rfl) rfl nofun
  | false =>
    rw [hends, if_neg Bool.false_ne_true] at h
    refine pushes_valuesCode es _ h.left ?_
    rw [valuesCells_of_not_endsInCall hends]
    have hflow (ip : Nat) : (Op.counted .ret es.length position).flow ip
        (σ.push (values es.length)) = some [] := by
      simp only [Op.flow, Op.counted, Op.count?, Shape.pop_push_values, Option.map_some]
    exact .of_flow (h.right.head rfl) (hflow _) nofun

/-- The jump from the end of a branch over the branches behind it. -/
theorem accepts_skip {position : Position} {others : Code}
    (h : p.Holds places exit ip
      (if others.isEmpty then [] else [.jumping .jump others.length position]))
    (hbehind : p.Accepts final n (ip + (if others.isEmpty then [] else
      [Op.jumping .jump others.length position]).length + others.length) σ) :
    p.Accepts final n ip σ := by
  cases others with
  | nil => exact hbehind
  | cons op rest =>
    exact (Program.Accepts.jump _ (h.head rfl) (Int.natCast_add _ _).symm hbehind).pred

mutual

/-- **The code of a statement is accepted** if what is behind it is, and what is
behind the loop that it leaves. -/
theorem Stat.accepts : ∀ (s : Stat) {exit scopes : Option Nat} {keep : Bool} {n next ip : Nat}
    {σ : Shape}, s.closed exit.isSome → 1 ≤ σ.scopes →
    p.Holds places exit ip (s.code scopes keep next).1 → p.Exits final n exit scopes σ →
    p.Accepts final n (ip + (s.code scopes keep next).1.length)
      (σ.push (keptCells (keep && s.isExpression))) →
    p.Accepts final n ip σ
  | .expression e, exit, scopes, keep, n, next, ip, σ, _, _, h, _, hbehind =>
    accepts_expression e h (by simpa [Stat.isExpression] using hbehind)
  | .assignment position isLocal targets es, exit, scopes, keep, n, next, ip, σ, _, hscopes, h, _,
      hbehind =>
    accepts_assignment hscopes h (by simpa [Stat.isExpression, keptCells] using hbehind)
  | .declaration names, exit, scopes, keep, n, next, ip, σ, _, hscopes, h, _, hbehind => by
    simp only [Stat.code, Gen.fst_pure] at h hbehind
    refine accepts_declarations hscopes h ?_
    simpa [Stat.isExpression, keptCells] using hbehind
  | .localFunction name function, exit, scopes, keep, n, next, ip, σ, _, hscopes, h, _,
      hbehind => by
    simp only [Stat.code, Gen.fst_bind, Gen.fst_pure] at h hbehind
    have hflow : (Op.named .makeLocal name.name name.position).flow ip σ = some [(ip + 1, σ)] :=
      if_pos hscopes
    refine .of_next σ (h.left.head rfl) hflow (function.pushes _ h.left.tail ?_)
    refine .of_next σ (h.right.headAt (by simp; omega) rfl) rfl ?_
    simp only [Stat.isExpression, Bool.and_false] at hbehind
    exact hbehind.moved (by simp; omega)
  | .conditional position branches none, exit, scopes, keep, n, next, ip, σ, hclosed, hscopes, h,
      hexits, hbehind => by
    simp only [Stat.code, Stat.closed, Stat.isExpression, Bool.and_false] at h hclosed hbehind
    refine accepts_branchesCode branches hclosed hscopes ?_ h hexits hbehind
    exact fun _ _ _ hnext => hnext
  | .conditional position branches (some body), exit, scopes, keep, n, next, ip, σ, hclosed,
      hscopes, h, hexits, hbehind => by
    simp only [Stat.code, Stat.closed, Stat.isExpression, Bool.and_false, Bool.and_eq_true]
      at h hclosed hbehind
    refine accepts_branchesCode branches hclosed.1 hscopes (fun _ _ hlast hnext => ?_) h hexits
      hbehind
    exact accepts_inScope hscopes hlast hnext fun hinner hend =>
      accepts_chunkCode body hclosed.2 (Nat.le_add_left _ _) hinner hexits.inside hend
  | .whileLoop position condition body, exit, scopes, keep, n, next, ip, σ, hclosed, hscopes, h, _,
      hbehind => by
    simp only [Stat.code, Gen.fst_bind, Gen.fst_pure, Stat.closed, Stat.isExpression,
      Bool.and_false] at h hclosed hbehind
    refine accepts_whileLoop hscopes (fun hbody hscopes hx hend => ?_) h ?_
    · refine accepts_chunkCode body ?_ (Nat.le_add_left _ _) hbody (.of_loop hscopes hx) hend
      exact hclosed
    · exact hbehind.moved (by simp; omega)
  | .numericFor counter start stop none body, exit, scopes, keep, n, next, ip, σ, hclosed,
      hscopes, h, _, hbehind => by
    simp only [Stat.code, Gen.fst_bind, Gen.fst_pure, Stat.closed, Stat.isExpression,
      Bool.and_false] at h hclosed hbehind
    refine accepts_countingLoop hscopes (start.pushes _) (stop.pushes _) ?_
      (fun hbody hscopes hx hend => ?_) h hbehind
    · exact fun hone hnext => .of_next _ (hone.head rfl) rfl hnext
    refine accepts_chunkCode body ?_ (Nat.le_add_left _ _) hbody (.of_loop hscopes hx) hend
    exact hclosed
  | .numericFor counter start stop (some step) body, exit, scopes, keep, n, next, ip, σ, hclosed,
      hscopes, h, _, hbehind => by
    simp only [Stat.code, Gen.fst_bind, Gen.fst_pure, Stat.closed, Stat.isExpression,
      Bool.and_false] at h hclosed hbehind
    refine accepts_countingLoop hscopes (start.pushes _) (stop.pushes _) (step.pushes _)
      (fun hbody hscopes hx hend => ?_) h hbehind
    refine accepts_chunkCode body ?_ (Nat.le_add_left _ _) hbody (.of_loop hscopes hx) hend
    exact hclosed
  | .genericFor position names iterators body, exit, scopes, keep, n, next, ip, σ, hclosed,
      hscopes, h, _, hbehind => by
    simp only [Stat.code, Gen.fst_bind, Gen.fst_pure, Stat.closed, Stat.isExpression,
      Bool.and_false] at h hclosed hbehind
    refine accepts_iteratorLoop hscopes (pushes_valuesCode iterators _)
      (fun hbody hscopes hx hend => ?_) h hbehind
    refine accepts_chunkCode body ?_ (Nat.le_add_left _ _) hbody (.of_loop hscopes hx) hend
    exact hclosed
  | .repeatLoop position body condition, exit, scopes, keep, n, next, ip, σ, hclosed, hscopes, h, _,
      hbehind => by
    simp only [Stat.code, Gen.fst_bind, Gen.fst_pure, Stat.closed, Stat.isExpression,
      Bool.and_false] at h hclosed hbehind
    refine accepts_repeatLoop hscopes (fun hbody hscopes hx hend => ?_) h ?_
    · refine accepts_chunkCode body ?_ (Nat.le_add_left _ _) hbody (.of_loop hscopes hx) hend
      exact hclosed
    · exact hbehind.moved (by simp; omega)
  | .block body, exit, scopes, keep, n, next, ip, σ, hclosed, hscopes, h, hexits, hbehind => by
    simp only [Stat.code, Gen.fst_bind, Gen.fst_pure, Stat.closed, Stat.isExpression,
      Bool.and_false] at h hclosed hbehind
    exact accepts_inScope hscopes h hbehind fun hinner hend =>
      accepts_chunkCode body hclosed (Nat.le_add_left _ _) hinner hexits.inside hend
  | .result position es, exit, scopes, keep, n, next, ip, σ, _, _, h, _, _ => accepts_result h
  | .leave position, exit, scopes, keep, n, next, ip, σ, hclosed, _, h, hexits, _ => by
    simp only [Stat.code, Gen.fst_pure, Stat.closed] at h hclosed
    cases exit with
    | none => cases hclosed
    | some x => exact accepts_leaveCode h hexits

/-- The code of the branches of a conditional. -/
theorem accepts_branchesCode {position : Position} {last : Gen Code} :
    ∀ (branches : List (Expr × List Stat)) {exit scopes : Option Nat} {n next ip : Nat}
      {σ : Shape}, branchesClosed exit.isSome branches → 1 ≤ σ.scopes →
    (∀ next ip, p.Holds places exit ip (last next).1 →
      p.Accepts final n (ip + (last next).1.length) σ → p.Accepts final n ip σ) →
    p.Holds places exit ip (branchesCode scopes position last branches next).1 →
    p.Exits final n exit scopes σ →
    p.Accepts final n (ip + (branchesCode scopes position last branches next).1.length) σ →
    p.Accepts final n ip σ
  | [], exit, scopes, n, next, ip, σ, _, _, hlast, h, _, hbehind => hlast _ _ h hbehind
  | (condition, body) :: rest, exit, scopes, n, next, ip, σ, hclosed, hscopes, hlast, h, hexits,
      hbehind => by
    simp only [branchesCode, Gen.fst_bind, Gen.fst_pure, branchesClosed, Bool.and_eq_true]
      at h hclosed hbehind
    refine condition.accepts h.left.left ⟨?_, ?_⟩
    · refine accepts_inScope hscopes h.left.right.left ?_ fun hinner hend =>
        accepts_chunkCode body hclosed.1 (Nat.le_add_left _ _) hinner hexits.inside hend
      refine accepts_skip h.left.right.right ?_
      exact hbehind.moved (by simp only [List.length_append]; omega)
    · refine accepts_branchesCode rest hclosed.2 hscopes hlast (h.right.moved ?_) hexits ?_
      · simp only [List.length_append]
        omega
      · exact hbehind.moved (by simp only [List.length_append]; omega)

/-- The code of statements. -/
theorem accepts_chunkCode : ∀ (body : List Stat) {exit scopes : Option Nat} {keep : Bool}
    {n next ip : Nat} {σ : Shape}, chunkClosed exit.isSome body → 1 ≤ σ.scopes →
    p.Holds places exit ip (chunkCode scopes keep body next).1 → p.Exits final n exit scopes σ →
    p.Accepts final n (ip + (chunkCode scopes keep body next).1.length)
      (σ.push (keptCells (keep && endsInExpression body))) →
    p.Accepts final n ip σ
  | [], exit, scopes, keep, n, next, ip, σ, _, _, _, _, hbehind => by
    simpa [chunkCode, endsInExpression, keptCells] using hbehind
  | s :: rest, exit, scopes, keep, n, next, ip, σ, hclosed, hscopes, h, hexits, hbehind => by
    simp only [chunkCode, Gen.fst_bind, Gen.fst_pure, chunkClosed, Bool.and_eq_true]
      at h hclosed hbehind
    refine s.accepts hclosed.1 hscopes h.left hexits ?_
    cases rest with
    | nil => simpa [chunkCode, endsInExpression] using hbehind
    | cons s' rest =>
      -- Only the last statement leaves a value.
      have hkept : keptCells ((keep && (s' :: rest).isEmpty) && s.isExpression) = [] := by
        rw [List.isEmpty_cons, Bool.and_false]
        rfl
      have hends : endsInExpression (s :: s' :: rest) = endsInExpression (s' :: rest) := by
        rw [endsInExpression, endsInExpression, List.getLast?_cons_cons]
      rw [hkept, Shape.push_nil]
      refine accepts_chunkCode (s' :: rest) hclosed.2 hscopes h.right hexits ?_
      rw [← hends]
      exact hbehind.moved (by rw [List.length_append, Nat.add_assoc])

end

/-! ### Functions and texts -/

namespace Program

/-- **The code of a function is verified.** -/
theorem verified_function {entry : Nat} {f : PlacedFunction} (h : p.HoldsFunction entry f)
    (hclosed : f.literal.closed) : p.Verified final entry .entry := by
  intro n
  have hcode := h
  rw [HoldsFunction, FunctionLiteral.code] at hcode
  let body : Shape := ⟨[], [], 1⟩
  refine .of_next (body.push (values f.literal.parameters.length)) (hcode.left.left.head rfl) ?_ ?_
  · simp [Op.flow, Op.counted, Op.count?, Shape.entry, Shape.push, body]
  · refine accepts_bindLocals (Nat.le_refl 1) hcode.left.left.tail ?_
    refine accepts_chunkCode f.literal.body ?_ (Nat.le_refl 1)
      (hcode.left.right.moved (by simp; omega)) (fun _ hk => absurd hk (Option.not_mem_none _)) ?_
    · exact hclosed
    have hflow (ip : Nat) : (Op.counted .ret 0 f.literal.position).flow ip body = some [] := rfl
    exact .of_flow (hcode.right.headAt (by simp; omega) rfl) (hflow _) (by simp)

/-- **The code of a text is verified**, from its beginning to the end of the
program. -/
theorem verified_main (p : Program) {chunk : Chunk} (hclosed : chunkClosed false chunk) :
    (p.extend chunk).1.Verified (· = ⟨keptCells (endsInExpression chunk), [], 1⟩)
      (p.extend chunk).1.start ⟨[], [], 1⟩ := by
  intro n
  refine accepts_chunkCode chunk ?_ (Nat.le_refl 1) (p.holds_extend_main chunk) nofun ?_
  · exact hclosed
  rw [← size_extend]
  refine accepts_size ?_
  rw [Bool.true_and, Shape.push, List.append_nil]

end Program

end ScriptEngine
