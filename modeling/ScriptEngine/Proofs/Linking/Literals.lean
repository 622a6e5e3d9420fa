import ScriptEngine.Proofs.Compilation.Placement

/-!
# The functions that code makes

A function literal becomes one instruction in the code around it, which makes the
function, and a body of its own elsewhere.  The literals that stand directly in a
piece of syntax, not in another literal, are listed in the order of the
instructions that make them, which is not the order of their numbers.

## Main definitions

* `Expr.made`, `Stat.made`, `chunkMade` — the literals that stand directly in a
  piece of syntax, in the order of its code, and their numbers.
* `Op.makesFunction`, `makers` — the instructions that make a function.

## Main results

* `makers_chunkCode` — the code of statements makes the functions that stand
  directly in them.
* `numberedIn_chunk` — the number of a literal is its place among the functions of
  its text.
* `nested_chunkFunctions` — the literals inside of a literal come right behind it.
-/

namespace ScriptEngine

/-! ### Literals in the order of code -/

mutual

/-- The literals that stand directly in an expression, whose functions are numbered
from `next` on. -/
def Expr.made (next : Nat) : Expr → List (Nat × FunctionLiteral)
  | .literal _ _ => []
  | .var _ _ => []
  | .function position parameters body => [(next, ⟨position, parameters, body⟩)]
  | .table _ entries => entriesMade next entries
  | .call _ callee arguments =>
    valuesMade next arguments ++ callee.made (next + (valuesFunctions arguments).length)
  | .index _ table key => key.made next ++ table.made (next + key.functions.length)
  | .group _ inner => inner.made next
  | .binary _ (.strict _) lhs rhs => rhs.made next ++ lhs.made (next + rhs.functions.length)
  -- The right operand is compiled first, but its code comes last.
  | .binary _ .and lhs rhs => lhs.made (next + rhs.functions.length) ++ rhs.made next
  | .binary _ .or lhs rhs => lhs.made (next + rhs.functions.length) ++ rhs.made next
  | .unary _ _ operand => operand.made next

/-- The literals that stand directly in a list of expressions. -/
def valuesMade (next : Nat) : List Expr → List (Nat × FunctionLiteral)
  | [] => []
  | e :: rest => e.made next ++ valuesMade (next + e.functions.length) rest

/-- The literals that stand directly in the entries of a table. -/
def entriesMade (next : Nat) : List (Expr × Expr) → List (Nat × FunctionLiteral)
  | [] => []
  | (key, value) :: rest =>
    entriesMade next rest ++ value.made (next + (entriesFunctions rest).length)
      ++ key.made (next + (entriesFunctions rest).length + value.functions.length)

end

/-- The literals that stand directly in the targets of an assignment. -/
def storesMade (next : Nat) : List Expr → List (Nat × FunctionLiteral)
  | [] => []
  | .index _ table key :: rest =>
    storesMade next rest ++ table.made (next + (storesFunctions rest).length)
      ++ key.made (next + (storesFunctions rest).length + table.functions.length)
  | _ :: rest => storesMade next rest

mutual

/-- The literals that stand directly in the branches of a conditional, `fs` being the
functions of what is behind the last branch and `last` those that are made there. -/
def branchesMade (next : Nat) (fs : List FunctionLiteral) (last : List (Nat × FunctionLiteral)) :
    List (Expr × List Stat) → List (Nat × FunctionLiteral)
  | [] => last
  | (condition, body) :: rest =>
    condition.made (next + (branchesFunctions fs rest).length + (chunkFunctions body).length)
      ++ chunkMade (next + (branchesFunctions fs rest).length) body
      ++ branchesMade next fs last rest

/-- The literals that stand directly in a statement. -/
def Stat.made (next : Nat) : Stat → List (Nat × FunctionLiteral)
  | .expression e => e.made next
  | .assignment _ _ targets values =>
    valuesMade next values ++ storesMade (next + (valuesFunctions values).length) targets
  | .declaration _ => []
  | .localFunction _ function => function.made next
  | .conditional _ branches none => branchesMade next [] [] branches
  | .conditional _ branches (some body) =>
    branchesMade next (chunkFunctions body) (chunkMade next body) branches
  | .whileLoop _ condition body =>
    condition.made (next + (chunkFunctions body).length) ++ chunkMade next body
  | .numericFor _ start stop none body =>
    start.made (next + (chunkFunctions body).length + stop.functions.length)
      ++ stop.made (next + (chunkFunctions body).length) ++ chunkMade next body
  | .numericFor _ start stop (some step) body =>
    start.made (next + (chunkFunctions body).length + step.functions.length
        + stop.functions.length)
      ++ stop.made (next + (chunkFunctions body).length + step.functions.length)
      ++ chunkMade next body ++ step.made (next + (chunkFunctions body).length)
  | .genericFor _ _ iterators body =>
    valuesMade (next + (chunkFunctions body).length) iterators ++ chunkMade next body
  | .repeatLoop _ body condition =>
    chunkMade next body ++ condition.made (next + (chunkFunctions body).length)
  | .block body => chunkMade next body
  | .result _ values => valuesMade next values
  | .leave _ => []

/-- The literals that stand directly in a list of statements. -/
def chunkMade (next : Nat) : List Stat → List (Nat × FunctionLiteral)
  | [] => []
  | s :: rest => s.made next ++ chunkMade (next + s.functions.length) rest

end

/-! ### Instructions that make functions -/

/-- Whether an instruction makes a function. -/
def Op.makesFunction (op : Op) : Bool :=
  match op.code, op.operand with
  | .push, .value (.function _ _) => true
  | _, _ => false

/-- The instruction that makes the function of a literal, before it is linked. -/
def makeOp (m : Nat × FunctionLiteral) : Op :=
  .withValue .push (.function m.1 []) m.2.position

theorem makesFunction_eq_false {op : Op} (h : ∀ entry captured,
    op.operand ≠ .value (.function entry captured)) : op.makesFunction = false := by
  rw [Op.makesFunction]
  split
  · next hoperand => exact absurd hoperand (h _ _)
  · rfl

@[simp] theorem makesFunction_plain (code : OpCode) (position : Position) :
    (Op.plain code position).makesFunction = false := makesFunction_eq_false nofun

@[simp] theorem makesFunction_named (code : OpCode) (name : String) (position : Position) :
    (Op.named code name position).makesFunction = false := makesFunction_eq_false nofun

@[simp] theorem makesFunction_counted (code : OpCode) (n : Nat) (position : Position) :
    (Op.counted code n position).makesFunction = false := makesFunction_eq_false nofun

@[simp] theorem makesFunction_jumping (code : OpCode) (d : Int) (position : Position) :
    (Op.jumping code d position).makesFunction = false := makesFunction_eq_false nofun

@[simp] theorem makesFunction_literal (code : OpCode) (value : Literal) (position : Position) :
    (Op.withValue code value.toValue position).makesFunction = false :=
  makesFunction_eq_false fun _ _ => by cases value <;> nofun

@[simp] theorem makesFunction_number (code : OpCode) (x : Float) (position : Position) :
    (Op.withValue code (.number x) position).makesFunction = false := makesFunction_eq_false nofun

@[simp] theorem makesFunction_callOp (want : Option Nat) (position : Position) :
    (callOp want position).makesFunction = false := by
  cases want <;> rfl

@[simp] theorem makesFunction_jumpBack (position : Position) (code : Code) :
    (jumpBack position code).makesFunction = false := makesFunction_jumping ..

/-- The instructions of a piece of code that make functions. -/
def makers (code : Code) : Code := code.filter Op.makesFunction

@[simp] theorem makers_nil : makers [] = [] := rfl

@[simp] theorem makers_append (code rest : Code) :
    makers (code ++ rest) = makers code ++ makers rest := List.filter_append ..

theorem makers_cons (op : Op) (rest : Code) :
    makers (op :: rest) = if op.makesFunction then op :: makers rest else makers rest :=
  List.filter_cons

@[simp] theorem makers_cons_of_not {op : Op} (rest : Code) (h : op.makesFunction = false) :
    makers (op :: rest) = makers rest := by
  rw [makers_cons, h]
  rfl

/-! ### Parts of code -/

@[simp] theorem makers_finish (target : Target) (position : Position) (code : Code) :
    makers (target.finish position code) = makers code := by
  rcases target with _ | ⟨_ | _, distance⟩ <;> simp [Target.finish]

@[simp] theorem makers_resolveBreaks (short : Nat) (code : Code) :
    makers (resolveBreaks short code) = makers code := by
  induction code with
  | nil => rfl
  | cons op rest ih =>
    rw [resolveBreaks, makers_cons, makers_cons, ih]
    split
    · next hleave =>
      have hop : op.makesFunction = false := by
        rw [Op.makesFunction, hleave]
      simp [hop]
    · rfl

@[simp] theorem makers_inScope (position : Position) (code : Code) :
    makers (inScope position code) = makers code := by
  simp [inScope]

@[simp] theorem makers_bindLocal (name : String) (position : Position) :
    makers (bindLocal name position) = [] := by
  simp [bindLocal]

@[simp] theorem makers_bindLocals (names : List Identifier) : makers (bindLocals names) = [] := by
  induction names with
  | nil => rfl
  | cons name rest ih => simp [bindLocals_cons, ih]

@[simp] theorem makers_declarations (names : List Identifier) :
    makers (names.map fun name => Op.named .makeLocal name.name name.position) = [] := by
  induction names with
  | nil => rfl
  | cons name rest ih => simp [ih]

@[simp] theorem makers_leaveCode (scopes : Option Nat) (position : Position) :
    makers (leaveCode scopes position) = [] := by
  rw [leaveCode, makers_append]
  induction scopes.getD 0 with
  | zero => simp
  | succ n ih => simpa [List.replicate_succ] using ih

@[simp] theorem makers_callCode (position : Position) (arguments : List Expr)
    (values callee : Code) (want : Option Nat) :
    makers (callCode position arguments values callee want) = makers values ++ makers callee := by
  cases hends : endsInCall arguments with
  | true => simp [callCode_of_endsInCall hends]
  | false => simp [callCode_of_not_endsInCall hends]

@[simp] theorem makers_countingLoop (position : Position) (name : String)
    (start stop step body : Code) :
    makers (countingLoop position name start stop step body) =
      makers start ++ makers stop ++ makers body ++ makers step := by
  simp [countingLoop]

@[simp] theorem makers_iteratorLoop (position : Position) (names : List Identifier)
    (iterators body : Code) :
    makers (iteratorLoop position names iterators body) = makers iterators ++ makers body := by
  simp [iteratorLoop]

/-! ### The code of syntax -/

mutual

theorem Expr.makers_code (target : Target) : ∀ (e : Expr) (next : Nat),
    makers (e.code target next).1 = (e.made next).map makeOp
  | .literal _ _, _ => by simp [Expr.code, Expr.made]
  | .var _ _, _ => by simp [Expr.code, Expr.made]
  | .function _ _ _, _ => by
    simp only [Expr.code, Gen.fst_bind, Gen.fst_pure, Gen.fst_function, makers_finish]
    rfl
  | .table _ entries, next => by
    simp only [Expr.code, Gen.fst_bind, Gen.fst_pure, makers_finish]
    split <;> simp [Expr.made, makers_entriesCode entries]
  | .call _ callee arguments, next => by
    simp [Expr.code, Expr.made, makers_valuesCode arguments, bodies_valuesCode,
      callee.makers_code]
  | .index _ table key, next => by
    simp [Expr.code, Expr.made, key.makers_code, key.bodies_code, table.makers_code]
  | .group _ inner, next => by
    simp [Expr.code, Expr.made, inner.makers_code]
  | .binary _ operator lhs rhs, next => by
    rcases operator with operator | _ | _ <;> rcases target with _ | ⟨_ | _, distance⟩ <;>
    simp [Expr.code, Expr.made, lhs.makers_code, rhs.makers_code, rhs.bodies_code]
  | .unary _ operator operand, next => by
    rcases operator with _ | _ | _ | _ <;> rcases target with _ | ⟨truth, distance⟩ <;>
    simp [Expr.code, Expr.made, operand.makers_code]

theorem makers_valuesCode : ∀ (es : List Expr) (next : Nat),
    makers (valuesCode es next).1 = (valuesMade next es).map makeOp
  | [], _ => rfl
  | [e], next => by
    cases e with
    | call position callee arguments =>
      simp [valuesCode, valuesMade, Expr.made, makers_valuesCode arguments, bodies_valuesCode,
        callee.makers_code]
    | _ => simp [valuesCode, valuesMade, Expr.makers_code]
  | e :: f :: rest, next => by
    rw [valuesCode_cons (by simp)]
    simp [valuesMade, e.makers_code, e.bodies_code, makers_valuesCode (f :: rest)]

theorem makers_entriesCode : ∀ (es : List (Expr × Expr)) (next : Nat),
    makers (entriesCode es next).1 = (entriesMade next es).map makeOp
  | [], _ => rfl
  | (key, value) :: rest, next => by
    simp [entriesCode, entriesMade, makers_entriesCode rest, bodies_entriesCode,
      value.makers_code, value.bodies_code, key.makers_code]

end

theorem makers_storesCode (isLocal : Bool) : ∀ (es : List Expr) (next : Nat),
    makers (storesCode isLocal es next).1 = (storesMade next es).map makeOp := by
  intro es
  induction es with
  | nil => exact fun _ => rfl
  | cons e rest ih =>
    intro next
    cases e with
    | index _ table key =>
      simp [storesCode, storesMade, ih, bodies_storesCode, table.makers_code, table.bodies_code,
        key.makers_code]
    | var _ _ => cases isLocal <;> simp [storesCode, storesMade, ih]
    | _ => simp [storesCode, storesMade, ih]

mutual

theorem makers_branchesCode (scopes : Option Nat) (position : Position) {last : Gen Code}
    {fs : List FunctionLiteral} {next : Nat} {made : List (Nat × FunctionLiteral)}
    (hbodies : ∀ next, (last next).2 = functionCodes next fs)
    (hlast : makers (last next).1 = made.map makeOp) : ∀ es : List (Expr × List Stat),
    makers (branchesCode scopes position last es next).1 =
      (branchesMade next fs made es).map makeOp
  | [] => hlast
  | (condition, body) :: rest => by
    have hothers := bodies_branchesCode scopes position last fs hbodies rest next
    simp only [branchesCode, branchesMade, Gen.fst_bind, Gen.fst_pure]
    split <;> simp [makers_branchesCode scopes position hbodies hlast rest, hothers,
      makers_chunkCode _ _ body, bodies_chunkCode, condition.makers_code]

theorem Stat.makers_code (scopes : Option Nat) (keep : Bool) : ∀ (s : Stat) (next : Nat),
    makers (s.code scopes keep next).1 = (s.made next).map makeOp
  | .expression e, next => by
    cases e with
    | call _ callee arguments =>
      simp [Stat.code, Stat.made, Expr.made, makers_valuesCode arguments, bodies_valuesCode,
        callee.makers_code]
    | _ => cases keep <;> simp [Stat.code, Stat.made, Expr.makers_code]
  | .assignment _ isLocal targets values, next => by
    simp only [Stat.code, Stat.made, Gen.fst_bind, Gen.fst_pure]
    split <;> simp [makers_valuesCode values, bodies_valuesCode, makers_storesCode]
  | .declaration _, _ => by simp [Stat.code, Stat.made]
  | .localFunction _ function, next => by
    simp [Stat.code, Stat.made, function.makers_code]
  | .conditional _ branches none, next => by
    rw [Stat.code, Stat.made]
    exact makers_branchesCode scopes _ (fun _ => rfl) rfl branches
  | .conditional _ branches (some body), next => by
    rw [Stat.code, Stat.made]
    refine makers_branchesCode scopes _ (fun _ => ?_) ?_ branches
    · simp [bodies_chunkCode]
    · simp [makers_chunkCode _ _ body]
  | .whileLoop _ condition body, next => by
    simp [Stat.code, Stat.made, makers_chunkCode _ _ body, bodies_chunkCode,
      condition.makers_code]
  | .numericFor _ start stop none body, next => by
    simp [Stat.code, Stat.made, makers_chunkCode _ _ body, bodies_chunkCode, stop.makers_code,
      stop.bodies_code, start.makers_code]
  | .numericFor _ start stop (some step) body, next => by
    simp [Stat.code, Stat.made, makers_chunkCode _ _ body, bodies_chunkCode, step.makers_code,
      step.bodies_code, stop.makers_code, stop.bodies_code, start.makers_code]
  | .genericFor _ _ iterators body, next => by
    simp [Stat.code, Stat.made, makers_chunkCode _ _ body, bodies_chunkCode, makers_valuesCode]
  | .repeatLoop _ body condition, next => by
    simp [Stat.code, Stat.made, makers_chunkCode _ _ body, bodies_chunkCode,
      condition.makers_code]
  | .block body, next => by
    simp [Stat.code, Stat.made, makers_chunkCode _ _ body]
  | .result _ values, next => by
    simp only [Stat.code, Stat.made, Gen.fst_bind, Gen.fst_pure]
    split <;> simp [makers_valuesCode values]
  | .leave _, _ => by simp [Stat.code, Stat.made]

/-- **The code of statements makes the functions that stand directly in them.** -/
theorem makers_chunkCode (scopes : Option Nat) (keep : Bool) : ∀ (body : List Stat) (next : Nat),
    makers (chunkCode scopes keep body next).1 = (chunkMade next body).map makeOp
  | [], _ => rfl
  | s :: rest, next => by
    simp [chunkCode, chunkMade, s.makers_code, s.bodies_code, makers_chunkCode _ _ rest]

end

/-! ### Numbers of literals -/

/-- The numbers of literals are their places among `fs`, counted from `next` on. -/
def NumberedIn (next : Nat) (fs : List FunctionLiteral) (made : List (Nat × FunctionLiteral)) :
    Prop :=
  ∀ m ∈ made, ∃ k, m.1 = next + k ∧ fs[k]? = some m.2

section NumberedIn

variable {next : Nat} {fs gs : List FunctionLiteral} {made more : List (Nat × FunctionLiteral)}

@[simp] theorem numberedIn_nil : NumberedIn next fs [] := nofun

@[simp] theorem numberedIn_append :
    NumberedIn next fs (made ++ more) ↔ NumberedIn next fs made ∧ NumberedIn next fs more :=
  List.forall_mem_append

theorem NumberedIn.left (h : NumberedIn next fs made) : NumberedIn next (fs ++ gs) made := by
  intro m hm
  obtain ⟨k, hk, hget⟩ := h m hm
  refine ⟨k, hk, ?_⟩
  rw [List.getElem?_append_left (List.getElem?_eq_some_iff.1 hget).1, hget]

theorem NumberedIn.right (h : NumberedIn (next + fs.length) gs made) :
    NumberedIn next (fs ++ gs) made := by
  intro m hm
  obtain ⟨k, hk, hget⟩ := h m hm
  refine ⟨fs.length + k, by omega, ?_⟩
  rw [List.getElem?_append_right (by omega), Nat.add_sub_cancel_left, hget]

end NumberedIn

mutual

theorem Expr.numberedIn : ∀ (e : Expr) (next : Nat), NumberedIn next e.functions (e.made next)
  | .literal _ _, _ => numberedIn_nil
  | .var _ _, _ => numberedIn_nil
  | .function _ _ _, _ => by
    intro m hm
    rw [Expr.made, List.mem_singleton] at hm
    subst hm
    exact ⟨0, rfl, rfl⟩
  | .table _ entries, next => numberedIn_entries entries next
  | .call _ callee arguments, next => by
    rw [Expr.made, Expr.functions, numberedIn_append]
    exact ⟨(numberedIn_values arguments _).left, (callee.numberedIn _).right⟩
  | .index _ table key, next => by
    rw [Expr.made, Expr.functions, numberedIn_append]
    exact ⟨(key.numberedIn _).left, (table.numberedIn _).right⟩
  | .group _ inner, next => inner.numberedIn next
  | .binary _ operator lhs rhs, next => by
    have hboth : NumberedIn next (rhs.functions ++ lhs.functions) (rhs.made next) ∧
        NumberedIn next (rhs.functions ++ lhs.functions)
          (lhs.made (next + rhs.functions.length)) :=
      ⟨(rhs.numberedIn _).left, (lhs.numberedIn _).right⟩
    rcases operator with operator | _ | _ <;>
    rw [Expr.made, Expr.functions, numberedIn_append] <;> simp only [hboth, and_self]
  | .unary _ _ operand, next => operand.numberedIn next

theorem numberedIn_values : ∀ (es : List Expr) (next : Nat),
    NumberedIn next (valuesFunctions es) (valuesMade next es)
  | [], _ => numberedIn_nil
  | e :: rest, next => by
    rw [valuesMade, valuesFunctions, numberedIn_append]
    exact ⟨(e.numberedIn _).left, (numberedIn_values rest _).right⟩

theorem numberedIn_entries : ∀ (es : List (Expr × Expr)) (next : Nat),
    NumberedIn next (entriesFunctions es) (entriesMade next es)
  | [], _ => numberedIn_nil
  | (key, value) :: rest, next => by
    rw [entriesMade, entriesFunctions, numberedIn_append, numberedIn_append]
    refine ⟨⟨(numberedIn_entries rest _).left.left, (value.numberedIn _).right.left⟩, .right ?_⟩
    rw [List.length_append, ← Nat.add_assoc]
    exact key.numberedIn _

end

theorem numberedIn_stores : ∀ (es : List Expr) (next : Nat),
    NumberedIn next (storesFunctions es) (storesMade next es)
  | [], _ => numberedIn_nil
  | e :: rest, next => by
    have hrest := numberedIn_stores rest next
    cases e with
    | index _ table key =>
      rw [storesMade, storesFunctions, numberedIn_append, numberedIn_append]
      refine ⟨⟨hrest.left.left, (table.numberedIn _).right.left⟩, .right ?_⟩
      rw [List.length_append, ← Nat.add_assoc]
      exact key.numberedIn _
    | _ => exact hrest

mutual

theorem numberedIn_branches {next : Nat} {fs : List FunctionLiteral}
    {last : List (Nat × FunctionLiteral)} (hlast : NumberedIn next fs last) :
    ∀ es : List (Expr × List Stat),
      NumberedIn next (branchesFunctions fs es) (branchesMade next fs last es)
  | [] => hlast
  | (condition, body) :: rest => by
    rw [branchesMade, branchesFunctions, numberedIn_append, numberedIn_append]
    refine ⟨⟨.right ?_, (numberedIn_chunk body _).right.left⟩,
      (numberedIn_branches hlast rest).left.left⟩
    rw [List.length_append, ← Nat.add_assoc]
    exact condition.numberedIn _

theorem Stat.numberedIn : ∀ (s : Stat) (next : Nat), NumberedIn next s.functions (s.made next)
  | .expression e, next => e.numberedIn next
  | .assignment _ _ targets values, next => by
    rw [Stat.made, Stat.functions, numberedIn_append]
    exact ⟨(numberedIn_values values _).left, (numberedIn_stores targets _).right⟩
  | .declaration _, _ => numberedIn_nil
  | .localFunction _ function, next => function.numberedIn next
  | .conditional _ branches none, next => numberedIn_branches numberedIn_nil branches
  | .conditional _ branches (some body), next =>
    numberedIn_branches (numberedIn_chunk body next) branches
  | .whileLoop _ condition body, next => by
    rw [Stat.made, Stat.functions, numberedIn_append]
    exact ⟨(condition.numberedIn _).right, (numberedIn_chunk body _).left⟩
  | .numericFor _ start stop none body, next => by
    rw [Stat.made, Stat.functions, numberedIn_append, numberedIn_append]
    refine ⟨⟨.right ?_, (stop.numberedIn _).right.left⟩, (numberedIn_chunk body _).left.left⟩
    rw [List.length_append, ← Nat.add_assoc]
    exact start.numberedIn _
  | .numericFor _ start stop (some step) body, next => by
    rw [Stat.made, Stat.functions, numberedIn_append, numberedIn_append, numberedIn_append]
    refine ⟨⟨⟨.right ?_, .left (.right ?_)⟩, (numberedIn_chunk body _).left.left.left⟩,
      (step.numberedIn _).right.left.left⟩
    · rw [List.length_append, List.length_append, ← Nat.add_assoc, ← Nat.add_assoc]
      exact start.numberedIn _
    · rw [List.length_append, ← Nat.add_assoc]
      exact stop.numberedIn _
  | .genericFor _ _ iterators body, next => by
    rw [Stat.made, Stat.functions, numberedIn_append]
    exact ⟨(numberedIn_values iterators _).right, (numberedIn_chunk body _).left⟩
  | .repeatLoop _ body condition, next => by
    rw [Stat.made, Stat.functions, numberedIn_append]
    exact ⟨(numberedIn_chunk body _).left, (condition.numberedIn _).right⟩
  | .block body, next => numberedIn_chunk body next
  | .result _ values, next => numberedIn_values values next
  | .leave _, _ => numberedIn_nil

/-- **The number of a literal is its place among the functions of its text.** -/
theorem numberedIn_chunk : ∀ (body : List Stat) (next : Nat),
    NumberedIn next (chunkFunctions body) (chunkMade next body)
  | [], _ => numberedIn_nil
  | s :: rest, next => by
    rw [chunkMade, chunkFunctions, numberedIn_append]
    exact ⟨(s.numberedIn _).left, (numberedIn_chunk rest _).right⟩

end

/-! ### Literals inside of literals -/

/-- The functions inside of a function come right behind it. -/
def Nested (fs : List FunctionLiteral) : Prop :=
  ∀ k f, fs[k]? = some f → ∀ (j : Nat) g, (chunkFunctions f.body)[j]? = some g →
    fs[k + 1 + j]? = some g

@[simp] theorem nested_nil : Nested [] := by
  intro k f hf
  cases hf

theorem Nested.append {fs gs : List FunctionLiteral} (hfs : Nested fs) (hgs : Nested gs) :
    Nested (fs ++ gs) := by
  intro k f hf j g hg
  rcases Nat.lt_or_ge k fs.length with hk | hk
  · rw [List.getElem?_append_left hk] at hf
    have hget := hfs k f hf j g hg
    rw [List.getElem?_append_left (List.getElem?_eq_some_iff.1 hget).1, hget]
  · rw [List.getElem?_append_right hk] at hf
    have hget := hgs _ f hf j g hg
    rw [List.getElem?_append_right (by omega), ← hget]
    congr 1
    omega

theorem Nested.cons {f : FunctionLiteral} (h : Nested (chunkFunctions f.body)) :
    Nested (f :: chunkFunctions f.body) := by
  intro k f' hf j g hg
  cases k with
  | zero =>
    cases hf
    rwa [Nat.zero_add, Nat.add_comm 1, List.getElem?_cons_succ]
  | succ k =>
    rw [List.getElem?_cons_succ] at hf
    have hget := h k f' hf j g hg
    rwa [Nat.add_right_comm, List.getElem?_cons_succ]

mutual

theorem Expr.nested : ∀ e : Expr, Nested e.functions
  | .literal _ _ => nested_nil
  | .var _ _ => nested_nil
  | .function position parameters body =>
    .cons (f := ⟨position, parameters, body⟩) (nested_chunkFunctions body)
  | .table _ entries => nested_entries entries
  | .call _ callee arguments => (nested_values arguments).append callee.nested
  | .index _ table key => key.nested.append table.nested
  | .group _ inner => inner.nested
  | .binary _ _ lhs rhs => rhs.nested.append lhs.nested
  | .unary _ _ operand => operand.nested

theorem nested_values : ∀ es : List Expr, Nested (valuesFunctions es)
  | [] => nested_nil
  | e :: rest => e.nested.append (nested_values rest)

theorem nested_entries : ∀ es : List (Expr × Expr), Nested (entriesFunctions es)
  | [] => nested_nil
  | (key, value) :: rest => ((nested_entries rest).append value.nested).append key.nested

theorem nested_stores : ∀ es : List Expr, Nested (storesFunctions es)
  | [] => nested_nil
  | e :: rest => by
    cases e with
    | index _ table key => exact ((nested_stores rest).append table.nested).append key.nested
    | _ => exact nested_stores rest

theorem nested_branches {fs : List FunctionLiteral} (hfs : Nested fs) :
    ∀ es : List (Expr × List Stat), Nested (branchesFunctions fs es)
  | [] => hfs
  | (condition, body) :: rest =>
    ((nested_branches hfs rest).append (nested_chunkFunctions body)).append condition.nested

theorem Stat.nested : ∀ s : Stat, Nested s.functions
  | .expression e => e.nested
  | .assignment _ _ targets values => (nested_values values).append (nested_stores targets)
  | .declaration _ => nested_nil
  | .localFunction _ function => function.nested
  | .conditional _ branches none => nested_branches nested_nil branches
  | .conditional _ branches (some body) => nested_branches (nested_chunkFunctions body) branches
  | .whileLoop _ condition body => (nested_chunkFunctions body).append condition.nested
  | .numericFor _ start stop none body =>
    ((nested_chunkFunctions body).append stop.nested).append start.nested
  | .numericFor _ start stop (some step) body =>
    (((nested_chunkFunctions body).append step.nested).append stop.nested).append start.nested
  | .genericFor _ _ iterators body => (nested_chunkFunctions body).append (nested_values iterators)
  | .repeatLoop _ body condition => (nested_chunkFunctions body).append condition.nested
  | .block body => nested_chunkFunctions body
  | .result _ values => nested_values values
  | .leave _ => nested_nil

/-- **The literals inside of a literal come right behind it.** -/
theorem nested_chunkFunctions : ∀ body : List Stat, Nested (chunkFunctions body)
  | [] => nested_nil
  | s :: rest => s.nested.append (nested_chunkFunctions rest)

end

end ScriptEngine
