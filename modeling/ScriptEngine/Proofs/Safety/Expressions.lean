import ScriptEngine.Proofs.Compilation.Placement
import ScriptEngine.Proofs.Safety.Shape

/-!
# The code of expressions is accepted

The code of an expression leaves one value more on the stack than it found, or
jumps with the stack as it was.  If what is behind the code is accepted with that
shape, the code is accepted.

## Main definitions

* `Target.Continues` — what is behind the code of an expression is accepted.
* `valuesCells` — what the code of several expressions leaves on the stack.

## Main results

* `Expr.accepts`, `accepts_valuesCode`, `accepts_storesCode` — the code of an
  expression, of several expressions, and of the targets of an assignment.
-/

namespace ScriptEngine

variable {p : Program} {places : List Nat} {exit : Option Nat} {final : Shape → Prop}
  {n ip next : Nat} {σ : Shape}

/-! ### Jumps -/

theorem jumpTarget?_eq {offset : Int} {target : Nat} (h : (ip : Int) + 1 + offset = target) :
    jumpTarget? ip offset = some target := by
  rw [jumpTarget?, if_neg (by omega), h, Int.toNat_natCast]

/-- A jump takes one step to where it goes. -/
theorem Program.Accepts.jump {offset : Int} {position : Position} (target : Nat)
    (hop : p.code[ip]? = some (.jumping .jump offset position))
    (htarget : (ip : Int) + 1 + offset = target) (h : p.Accepts final n target σ) :
    p.Accepts final (n + 1) ip σ := by
  have hflow : (Op.jumping .jump offset position).flow ip σ = some [(target, σ)] := by
    simp only [Op.flow, Op.jumping, Op.offset, jumpTarget?_eq htarget, Option.map_some]
  exact .step hop hflow (by simpa using h)

/-- A jump that depends on a value. -/
theorem Program.Accepts.jumpWhen {offset : Int} {position : Position} (truth : Bool) (target : Nat)
    (hop : p.code[ip]? = some (.jumping (cond truth .jumpIf .jumpIfNot) offset position))
    (htarget : (ip : Int) + 1 + offset = target) (hnext : p.Accepts final n (ip + 1) σ)
    (h : p.Accepts final n target σ) : p.Accepts final (n + 1) ip (σ.push [.value]) := by
  have hpop : (σ.push [.value]).pop 1 = some σ := σ.pop_push_values 1
  have hflow : (Op.jumping (cond truth .jumpIf .jumpIfNot) offset position).flow ip
      (σ.push [.value]) = some [(ip + 1, σ), (target, σ)] := by
    cases truth <;>
    simp only [Op.flow, Op.jumping, Op.offset, cond, jumpTarget?_eq htarget, hpop] <;>
    rfl
  refine .step hop hflow fun t ht => ?_
  rcases List.mem_cons.1 ht with rfl | ht
  · exact hnext
  · rw [List.mem_singleton.1 ht]
    exact h

/-! ### Targets -/

/-- What is behind the code of an expression is accepted. -/
def Target.Continues (target : Target) (p : Program) (final : Shape → Prop) (n behind : Nat)
    (σ : Shape) : Prop :=
  match target with
  | value => p.Accepts final n behind (σ.push [.value])
  | jumpWhen _ distance => p.Accepts final n behind σ ∧ p.Accepts final n (behind + distance) σ

/-- Code that leaves a value, with what its target asks for behind it. -/
theorem accepts_finish {target : Target} {position : Position} {code : Code}
    (h : p.Holds places exit ip (target.finish position code))
    (hbehind : target.Continues p final n (ip + (target.finish position code).length) σ)
    (hcode : p.Accepts final n (ip + code.length) (σ.push [.value]) → p.Accepts final n ip σ) :
    p.Accepts final n ip σ := by
  refine hcode ?_
  rcases target with _ | ⟨truth, distance⟩
  · exact hbehind
  · have hlength : (Target.finish (.jumpWhen truth distance) position code).length =
        code.length + 1 := by
      cases truth <;> simp [Target.finish]
    rw [Target.Continues, hlength, ← Nat.add_assoc] at hbehind
    have hop : p.code[ip + code.length]? =
        some (.jumping (cond truth .jumpIf .jumpIfNot) distance position) := by
      cases truth <;> exact h.right.head rfl
    exact (Program.Accepts.jumpWhen truth _ hop (Int.natCast_add _ _).symm hbehind.1
      hbehind.2).pred

/-- Code that leaves a value, and whose first operand decides whether there is a
second one. -/
theorem accepts_shortcut (truth : Bool) {position : Position} {left right : Code}
    (h : p.Holds places exit ip
      (left ++ [.plain .dup position,
        .jumping (cond truth .jumpIf .jumpIfNot) (right.length + 1 : Nat) position,
        .plain .pop position] ++ right))
    (hbehind : p.Accepts final n (ip + left.length + 3 + right.length) (σ.push [.value]))
    (hleft : p.Accepts final n (ip + left.length) (σ.push [.value]) → p.Accepts final n ip σ)
    (hright : p.Accepts final n (ip + left.length + 3 + right.length) (σ.push [.value]) →
      p.Accepts final n (ip + left.length + 3) σ) :
    p.Accepts final n ip σ := by
  have hmiddle := h.left.right
  refine hleft (.of_next ((σ.push [.value]).push [.value]) (hmiddle.head rfl) rfl ?_)
  refine (Program.Accepts.jumpWhen truth (ip + left.length + 3 + right.length)
    (hmiddle.tail.head (by cases truth <;> rfl)) (by omega) ?_ hbehind).pred
  exact .of_next σ (hmiddle.tail.tail.head rfl) rfl (hright hbehind)

/-- A piece of code leaves something on the stack: it is accepted wherever what is
behind it is accepted with that. -/
def Program.Pushes (p : Program) (places : List Nat) (final : Shape → Prop) (code : Code)
    (cells : List Cell) : Prop :=
  ∀ {exit n ip σ}, p.Holds places exit ip code →
    p.Accepts final n (ip + code.length) (σ.push cells) → p.Accepts final n ip σ

/-! ### Several values -/

/-- What the code of several expressions leaves on the stack. -/
def valuesCells (es : List Expr) : List Cell :=
  if endsInCall es then .many :: values (es.length - 1) else values es.length

theorem valuesCells_of_not_endsInCall {es : List Expr} (h : endsInCall es = false) :
    valuesCells es = values es.length := by
  rw [valuesCells, h]
  rfl

theorem values_append_value (k : Nat) : values k ++ [.value] = values (k + 1) :=
  (values_add k 1).symm

theorem valuesCells_cons {e : Expr} {rest : List Expr} (h : rest ≠ [] ∨ e.isCall = false) :
    valuesCells (e :: rest) = valuesCells rest ++ [.value] := by
  rw [valuesCells, valuesCells, endsInCall_cons h]
  cases hends : endsInCall rest with
  | false => exact (values_append_value rest.length).symm
  | true =>
    cases rest with
    | nil => cases hends
    | cons f rest => exact congrArg _ (values_append_value rest.length).symm

theorem Shape.push_push (σ : Shape) (cells more : List Cell) :
    (σ.push cells).push more = σ.push (more ++ cells) := by
  simp only [push, List.append_assoc]

/-- A call, given that the code of its arguments and of its callee is accepted. -/
theorem pushes_callCode {position : Position} {arguments : List Expr} {given callee : Code}
    {want : Option Nat} (hgiven : p.Pushes places final given (valuesCells arguments))
    (hcallee : p.Pushes places final callee [.value]) :
    p.Pushes places final (callCode position arguments given callee want)
      (Shape.received want) := by
  intro exit n ip σ h hbehind
  have hflow (ip : Nat) : (callOp want position).flow ip (σ.push [.ready]) =
      some [(ip + 1, σ.push (Shape.received want))] := by
    cases want <;> rfl
  cases hends : endsInCall arguments with
  | true =>
    rw [callCode_of_endsInCall hends] at h hbehind
    refine .of_next { σ with top := [], rest := σ.top :: σ.rest } (h.left.left.left.left.head rfl)
      rfl (hgiven h.left.left.left.left.tail ?_)
    refine .of_next (σ.push [.tallied]) (h.left.left.left.right.headAt (by simp; omega) rfl) rfl ?_
    refine hcallee (h.left.left.right.moved (by simp; omega)) ?_
    refine .of_next (σ.push [.ready]) (h.left.right.headAt (by simp; omega) rfl) rfl ?_
    refine .of_next _ (h.right.headAt (by simp; omega) (isFinal_callOp want position)) (hflow _) ?_
    exact hbehind.moved (by simp; omega)
  | false =>
    rw [callCode_of_not_endsInCall hends] at h hbehind
    rw [valuesCells_of_not_endsInCall hends] at hgiven
    refine hgiven h.left.left.left (hcallee h.left.left.right ?_)
    refine .of_next (σ.push [.ready]) (h.left.right.headAt (by simp; omega) rfl) ?_ ?_
    · have hpop : ((σ.push (values arguments.length)).push [.value]).pop (arguments.length + 1) =
          some σ := σ.pop_push_values (arguments.length + 1)
      simp only [Op.flow, Op.counted, hpop, Option.map_some]
    · refine .of_next _ (h.right.headAt (by simp; omega) (isFinal_callOp want position))
        (hflow _) ?_
      exact hbehind.moved (by simp; omega)

/-! ### Expressions -/

mutual

/-- **The code of an expression is accepted** if what is behind it is. -/
theorem Expr.accepts {target : Target} : ∀ (e : Expr) {exit : Option Nat} {n next ip : Nat}
    {σ : Shape},
    p.Holds places exit ip (e.code target next).1 →
    target.Continues p final n (ip + (e.code target next).1.length) σ → p.Accepts final n ip σ
  | .literal position value, exit, n, next, ip, σ, h, hbehind => by
    simp only [Expr.code, Gen.fst_pure] at h hbehind
    have hop : p.code[ip]? = some (.withValue .push value.toValue position) := by
      cases value <;> exact h.of_finish.head rfl
    exact accepts_finish h hbehind fun hnext => .of_next _ hop rfl hnext
  | .var position name, exit, n, next, ip, σ, h, hbehind => by
    simp only [Expr.code, Gen.fst_pure] at h hbehind
    exact accepts_finish h hbehind fun hnext => .of_next _ (h.of_finish.head rfl) rfl hnext
  | .function position parameters body, exit, n, next, ip, σ, h, hbehind => by
    simp only [Expr.code, Gen.fst_bind, Gen.fst_function, Gen.fst_pure] at h hbehind
    have hop := h.of_finish.1
    rw [Op.settled_function] at hop
    exact accepts_finish h hbehind fun hnext => .of_next _ hop rfl hnext
  | .table position entries, exit, n, next, ip, σ, h, hbehind => by
    simp only [Expr.code, Gen.fst_bind, Gen.fst_pure] at h hbehind
    refine accepts_finish h hbehind fun hnext => ?_
    have hcode := h.of_finish
    refine .of_next (σ.push [.value]) (hcode.left.head rfl) rfl ?_
    refine accepts_entriesCode entries hcode.left.tail ?_
    cases entries with
    | nil => exact hnext
    | cons entry rest =>
      refine .of_next (σ.push [.value]) (hcode.right.headAt (by simp; omega) rfl) ?_ ?_
      · have hpop : ((σ.push [.value]).push (values (2 * (entry :: rest).length))).pop
            (2 * (entry :: rest).length + 1) = some σ := by
          rw [Shape.push_push, values_append_value, Shape.pop_push_values]
        simp only [Op.flow, Op.flowByArity, Op.arity?, Op.counted, Op.count?, Option.getD_some]
        rw [Option.bind_eq_bind, Option.bind_some, hpop]
        rfl
      · exact hnext.moved (by simp; omega)
  | .call position callee arguments, exit, n, next, ip, σ, h, hbehind => by
    simp only [Expr.code, Gen.fst_bind, Gen.fst_pure] at h hbehind
    refine accepts_finish h hbehind fun hnext => pushes_callCode ?_ ?_ h.of_finish hnext
    · exact fun h hnext => accepts_valuesCode arguments h hnext
    · exact fun h hnext => callee.accepts h hnext
  | .index position table key, exit, n, next, ip, σ, h, hbehind => by
    simp only [Expr.code, Gen.fst_bind, Gen.fst_pure] at h hbehind
    refine accepts_finish h hbehind fun hnext => ?_
    have hcode := h.of_finish
    refine key.accepts hcode.left.left (table.accepts hcode.left.right ?_)
    refine .of_next (σ.push [.value]) (hcode.right.headAt (by simp; omega) rfl) rfl ?_
    exact hnext.moved (by simp; omega)
  | .group position inner, exit, n, next, ip, σ, h, hbehind => by
    simp only [Expr.code, Gen.fst_bind, Gen.fst_pure] at h hbehind
    exact accepts_finish h hbehind fun hnext => inner.accepts h.of_finish hnext
  | .binary position (.strict operator) lhs rhs, exit, n, next, ip, σ, h, hbehind => by
    simp only [Expr.code, Gen.fst_bind, Gen.fst_pure] at h hbehind
    refine accepts_finish h hbehind fun hnext => ?_
    have hcode := h.of_finish
    refine rhs.accepts hcode.left.left (lhs.accepts hcode.left.right ?_)
    refine .of_next (σ.push [.value]) (hcode.right.headAt (by simp; omega) rfl) rfl ?_
    exact hnext.moved (by simp; omega)
  | .binary position .and lhs rhs, exit, n, next, ip, σ, h, hbehind => by
    rcases target with _ | ⟨_ | _, distance⟩
    · simp only [Expr.code, Gen.fst_bind, Gen.fst_pure, Target.Continues] at h hbehind
      exact accepts_shortcut false h (hbehind.moved (by simp; omega))
        (fun hnext => lhs.accepts h.left.left hnext)
        fun hnext => rhs.accepts (h.right.moved (by simp; omega)) hnext
    · simp only [Expr.code, Gen.fst_bind, Gen.fst_pure, List.length_append, ← Nat.add_assoc]
        at h hbehind
      have hright := rhs.accepts h.right hbehind
      exact lhs.accepts h.left ⟨hright, hbehind.2.moved (by omega)⟩
    · simp only [Expr.code, Gen.fst_bind, Gen.fst_pure, List.length_append, ← Nat.add_assoc]
        at h hbehind
      exact lhs.accepts h.left ⟨rhs.accepts h.right hbehind, hbehind.1⟩
  | .binary position .or lhs rhs, exit, n, next, ip, σ, h, hbehind => by
    rcases target with _ | ⟨_ | _, distance⟩
    · simp only [Expr.code, Gen.fst_bind, Gen.fst_pure, Target.Continues] at h hbehind
      exact accepts_shortcut true h (hbehind.moved (by simp; omega))
        (fun hnext => lhs.accepts h.left.left hnext)
        fun hnext => rhs.accepts (h.right.moved (by simp; omega)) hnext
    · simp only [Expr.code, Gen.fst_bind, Gen.fst_pure, List.length_append, ← Nat.add_assoc]
        at h hbehind
      exact lhs.accepts h.left ⟨rhs.accepts h.right hbehind, hbehind.1⟩
    · simp only [Expr.code, Gen.fst_bind, Gen.fst_pure, List.length_append, ← Nat.add_assoc]
        at h hbehind
      have hright := rhs.accepts h.right hbehind
      exact lhs.accepts h.left ⟨hright, hbehind.2.moved (by omega)⟩
  | .unary position operator operand, exit, n, next, ip, σ, h, hbehind => by
    cases operator with
    | not =>
      rcases target with _ | ⟨truth, distance⟩
      · simp only [Expr.code, Gen.fst_bind, Gen.fst_pure] at h hbehind
        refine operand.accepts h.left (.of_next (σ.push [.value]) (h.right.head rfl) rfl ?_)
        exact Program.Accepts.moved hbehind (by simp; omega)
      · simp only [Expr.code] at h hbehind
        exact operand.accepts h hbehind
    | _ =>
      simp only [Expr.code, Gen.fst_bind, Gen.fst_pure] at h hbehind
      refine accepts_finish h hbehind fun hnext => ?_
      have hcode := h.of_finish
      refine operand.accepts hcode.left (.of_next (σ.push [.value]) (hcode.right.head rfl) rfl ?_)
      exact hnext.moved (by simp; omega)

/-- The code of several expressions. -/
theorem accepts_valuesCode : ∀ (es : List Expr) {exit : Option Nat} {n next ip : Nat} {σ : Shape},
    p.Holds places exit ip (valuesCode es next).1 →
    p.Accepts final n (ip + (valuesCode es next).1.length) (σ.push (valuesCells es)) →
    p.Accepts final n ip σ
  | [], exit, n, next, ip, σ, h, hbehind => hbehind
  | [e], exit, n, next, ip, σ, h, hbehind => by
    cases e with
    | call position callee arguments =>
      simp only [valuesCode, Gen.fst_bind, Gen.fst_pure] at h hbehind
      refine pushes_callCode ?_ ?_ h hbehind
      · exact fun h hnext => accepts_valuesCode arguments h hnext
      · exact fun h hnext => callee.accepts h hnext
    | _ =>
      simp only [valuesCode, Gen.fst_bind, Gen.fst_pure, List.append_nil] at h hbehind
      exact Expr.accepts _ h hbehind
  | e :: f :: rest, exit, n, next, ip, σ, h, hbehind => by
    have hcons : f :: rest ≠ [] ∨ e.isCall = false := .inl (List.cons_ne_nil f rest)
    rw [valuesCode_cons hcons] at h hbehind
    simp only [Gen.fst_bind, Gen.fst_pure] at h hbehind
    refine e.accepts h.left (accepts_valuesCode (f :: rest) h.right ?_)
    rw [Shape.push_push, ← valuesCells_cons hcons]
    exact hbehind.moved (by simp; omega)

/-- The code of the entries of a table. -/
theorem accepts_entriesCode : ∀ (es : List (Expr × Expr)) {exit : Option Nat} {n next ip : Nat}
    {σ : Shape},
    p.Holds places exit ip (entriesCode es next).1 →
    p.Accepts final n (ip + (entriesCode es next).1.length) (σ.push (values (2 * es.length))) →
    p.Accepts final n ip σ
  | [], exit, n, next, ip, σ, h, hbehind => hbehind
  | (key, value) :: rest, exit, n, next, ip, σ, h, hbehind => by
    simp only [entriesCode, Gen.fst_bind, Gen.fst_pure] at h hbehind
    refine accepts_entriesCode rest h.left.left (value.accepts h.left.right ?_)
    refine key.accepts (h.right.moved (by simp; omega)) ?_
    have hpush : ((σ.push (values (2 * rest.length))).push [.value]).push [.value] =
        σ.push (values (2 * ((key, value) :: rest).length)) := rfl
    rw [Target.Continues, hpush]
    exact hbehind.moved (by simp; omega)

end

theorem Expr.pushes (e : Expr) (next : Nat) :
    p.Pushes places final (e.code .value next).1 [.value] := fun h hnext => e.accepts h hnext

theorem pushes_valuesCode (es : List Expr) (next : Nat) :
    p.Pushes places final (valuesCode es next).1 (valuesCells es) :=
  fun h hnext => accepts_valuesCode es h hnext

/-! ### Variables and targets -/

/-- The code that declares a variable pops its value. -/
theorem accepts_bindLocal {name : String} {position : Position} (hscopes : 1 ≤ σ.scopes)
    (h : p.Holds places exit ip (bindLocal name position))
    (hbehind : p.Accepts final n (ip + 2) σ) : p.Accepts final n ip (σ.push [.value]) := by
  have hflow : (Op.named .makeLocal name position).flow ip (σ.push [.value]) =
      some [(ip + 1, σ.push [.value])] := if_pos hscopes
  exact .of_next _ (h.head rfl) hflow (.of_next σ (h.tail.head rfl) rfl hbehind)

theorem accepts_bindLocals {names : List Identifier} (hscopes : 1 ≤ σ.scopes)
    (h : p.Holds places exit ip (bindLocals names))
    (hbehind : p.Accepts final n (ip + (bindLocals names).length) σ) :
    p.Accepts final n ip (σ.push (values names.length)) := by
  induction names generalizing σ with
  | nil => exact hbehind
  | cons name rest ih =>
    rw [bindLocals_cons] at h hbehind
    rw [List.length_cons, ← values_append_value, ← Shape.push_push]
    refine ih (σ := σ.push [.value]) hscopes h.left (accepts_bindLocal hscopes h.right ?_)
    exact hbehind.moved (by simp [bindLocal]; omega)

/-- The code that puts values into the targets of an assignment pops them. -/
theorem accepts_storesCode {isLocal : Bool} {targets : List Expr} (hscopes : 1 ≤ σ.scopes)
    (h : p.Holds places exit ip (storesCode isLocal targets next).1)
    (hbehind : p.Accepts final n (ip + (storesCode isLocal targets next).1.length) σ) :
    p.Accepts final n ip (σ.push (values targets.length)) := by
  induction targets generalizing σ with
  | nil => exact hbehind
  | cons target rest ih =>
    rw [List.length_cons, ← values_append_value, ← Shape.push_push]
    cases target with
    | var position name =>
      simp only [storesCode, Gen.fst_bind, Gen.fst_pure, List.append_assoc] at h hbehind
      refine ih (σ := σ.push [.value]) hscopes h.left ?_
      cases isLocal with
      | true =>
        refine accepts_bindLocal hscopes h.right ?_
        exact hbehind.moved (by simp; omega)
      | false =>
        refine .of_next σ (h.right.head rfl) rfl ?_
        exact hbehind.moved (by simp; omega)
    | index position table key =>
      simp only [storesCode, Gen.fst_bind, Gen.fst_pure] at h hbehind
      refine ih (σ := σ.push [.value]) hscopes h.left.left.left.left ?_
      refine table.pushes _ h.left.left.left.right ?_
      refine .of_next ((σ.push [.value]).push [.value]) (h.left.left.right.headAt (by simp; omega)
        rfl) rfl ?_
      refine key.pushes _ (h.left.right.moved (by simp; omega)) ?_
      refine .of_next (σ.push [.value]) (h.right.headAt (by simp; omega) rfl) rfl ?_
      refine .of_next σ (h.right.tail.headAt (by simp; omega) rfl) rfl ?_
      exact hbehind.moved (by simp; omega)
    | _ =>
      simp only [storesCode, Gen.fst_bind, Gen.fst_pure] at h hbehind
      refine ih (σ := σ.push [.value]) hscopes h.left ?_
      refine .of_next σ (h.right.head rfl) rfl ?_
      exact hbehind.moved (by simp; omega)

end ScriptEngine
