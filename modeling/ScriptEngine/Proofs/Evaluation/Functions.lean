import ScriptEngine.Code.Compile

/-!
# The functions of a program

A value that is a script function says where its body begins.  To evaluate
syntax without its code, one has to know which function literal begins where.
Literals are numbered in the order in which their code is generated, and a table
lists where those of all texts begin.

## Main definitions

* `FunctionLiteral` — a function as it is written.
* `Expr.functions`, `Stat.functions`, `chunkFunctions` — the literals of a piece
  of syntax in the order of their numbers.
* `PlacedFunction`, `FunctionTable` — literals and where their code begins.
* `Program.ofTexts`, `FunctionTable.ofTexts` — the program of texts that were
  loaded one after another, and its functions.
-/

namespace ScriptEngine

/-- A function as it is written. -/
structure FunctionLiteral where
  position : Position
  parameters : List Identifier
  body : Chunk

/-! ### Literals in the order of their numbers -/

mutual

/-- The function literals of an expression.  One that stands inside of another
comes behind it. -/
def Expr.functions : Expr → List FunctionLiteral
  | .literal _ _ => []
  | .var _ _ => []
  | .function position parameters body =>
    ⟨position, parameters, body⟩ :: chunkFunctions body
  | .table _ entries => entriesFunctions entries
  | .call _ callee arguments => valuesFunctions arguments ++ callee.functions
  | .index _ table key => key.functions ++ table.functions
  | .group _ inner => inner.functions
  | .binary _ _ lhs rhs => rhs.functions ++ lhs.functions
  | .unary _ _ operand => operand.functions

/-- The function literals of a list of expressions. -/
def valuesFunctions : List Expr → List FunctionLiteral
  | [] => []
  | e :: rest => e.functions ++ valuesFunctions rest

/-- The function literals of the entries of a table. -/
def entriesFunctions : List (Expr × Expr) → List FunctionLiteral
  | [] => []
  | (key, value) :: rest => entriesFunctions rest ++ value.functions ++ key.functions

/-- The function literals of the targets of an assignment. -/
def storesFunctions : List Expr → List FunctionLiteral
  | [] => []
  | .index _ table key :: rest => storesFunctions rest ++ table.functions ++ key.functions
  | _ :: rest => storesFunctions rest

/-- The function literals of the branches of a conditional, those of what is
behind the last branch coming first. -/
def branchesFunctions (last : List FunctionLiteral) :
    List (Expr × List Stat) → List FunctionLiteral
  | [] => last
  | (condition, body) :: rest =>
    branchesFunctions last rest ++ chunkFunctions body ++ condition.functions

/-- The function literals of a statement. -/
def Stat.functions : Stat → List FunctionLiteral
  | .expression e => e.functions
  | .assignment _ _ targets values => valuesFunctions values ++ storesFunctions targets
  | .declaration _ => []
  | .localFunction _ function => function.functions
  | .conditional _ branches none => branchesFunctions [] branches
  | .conditional _ branches (some body) => branchesFunctions (chunkFunctions body) branches
  | .whileLoop _ condition body => chunkFunctions body ++ condition.functions
  | .numericFor _ start stop none body =>
    chunkFunctions body ++ stop.functions ++ start.functions
  | .numericFor _ start stop (some step) body =>
    chunkFunctions body ++ step.functions ++ stop.functions ++ start.functions
  | .genericFor _ _ iterators body => chunkFunctions body ++ valuesFunctions iterators
  | .repeatLoop _ body condition => chunkFunctions body ++ condition.functions
  | .block body => chunkFunctions body
  | .result _ values => valuesFunctions values
  | .leave _ => []

/-- The function literals of a list of statements. -/
def chunkFunctions : List Stat → List FunctionLiteral
  | [] => []
  | s :: rest => s.functions ++ chunkFunctions rest

end

/-! ### Code of literals -/

/-- The code of a function whose number is known. -/
def FunctionLiteral.code (f : FunctionLiteral) (number : Nat) : Code :=
  .counted .argumentCount f.parameters.length f.position :: bindLocals f.parameters
    ++ (chunkCode none false f.body (number + 1)).1 ++ [.counted .ret 0 f.position]

/-- The code of functions that are numbered from `next` on. -/
def functionCodes (next : Nat) : List FunctionLiteral → List Code
  | [] => []
  | f :: rest => f.code next :: functionCodes (next + 1) rest

@[simp] theorem length_functionCodes (next : Nat) (fs : List FunctionLiteral) :
    (functionCodes next fs).length = fs.length := by
  induction fs generalizing next with
  | nil => rfl
  | cons f rest ih => simp [functionCodes, ih]

theorem functionCodes_append (next : Nat) (fs gs : List FunctionLiteral) :
    functionCodes next (fs ++ gs) =
      functionCodes next fs ++ functionCodes (next + fs.length) gs := by
  induction fs generalizing next with
  | nil => rfl
  | cons f rest ih =>
    simp only [List.cons_append, functionCodes, ih, List.length_cons]
    rw [Nat.add_assoc, Nat.add_comm 1]

/-- The code of the function at an index. -/
theorem getElem?_functionCodes (next : Nat) (fs : List FunctionLiteral) (i : Nat) :
    (functionCodes next fs)[i]? = (fs[i]?).map fun f => f.code (next + i) := by
  induction fs generalizing next i with
  | nil => simp [functionCodes]
  | cons f rest ih =>
    cases i with
    | zero => simp [functionCodes]
    | succ i =>
      simp only [functionCodes, List.getElem?_cons_succ, ih]
      rw [Nat.add_assoc, Nat.add_comm 1]

/-! ### The functions that code generation meets -/

@[simp] theorem Gen.fst_pure {α : Type} (a : α) (next : Nat) : ((pure a : Gen α) next).1 = a := rfl

@[simp] theorem Gen.snd_pure {α : Type} (a : α) (next : Nat) : ((pure a : Gen α) next).2 = [] := rfl

@[simp] theorem Gen.fst_bind {α β : Type} (x : Gen α) (f : α → Gen β) (next : Nat) :
    ((x >>= f) next).1 = (f (x next).1 (next + (x next).2.length)).1 := rfl

@[simp] theorem Gen.snd_bind {α β : Type} (x : Gen α) (f : α → Gen β) (next : Nat) :
    ((x >>= f) next).2 = (x next).2 ++ (f (x next).1 (next + (x next).2.length)).2 := rfl

@[simp] theorem Gen.fst_function (body : Gen Code) (next : Nat) :
    (Gen.function body next).1 = next := rfl

@[simp] theorem Gen.snd_function (body : Gen Code) (next : Nat) :
    (Gen.function body next).2 = (body (next + 1)).1 :: (body (next + 1)).2 := rfl

theorem valuesCode_cons {e : Expr} {rest : List Expr} (h : rest ≠ [] ∨ e.isCall = false) :
    valuesCode (e :: rest) =
      e.code .value >>= fun first => valuesCode rest >>= fun others => pure (first ++ others) := by
  rw [valuesCode]
  rintro position callee arguments rfl rfl
  simp [Expr.isCall] at h

mutual

theorem Expr.bodies_code (target : Target) : ∀ (e : Expr) (next : Nat),
    (e.code target next).2 = functionCodes next e.functions
  | .literal _ _, _ => rfl
  | .var _ _, _ => rfl
  | .function position parameters body, next => by
    have := bodies_chunkCode none false body (next + 1)
    simp only [Expr.code, Expr.functions, functionCodes, FunctionLiteral.code, Gen.snd_bind,
      Gen.fst_bind, Gen.snd_function, Gen.snd_pure, Gen.fst_pure, List.append_nil, this]
  | .table position entries, next => by
    simp [Expr.code, Expr.functions, bodies_entriesCode entries]
  | .call position callee arguments, next => by
    simp [Expr.code, Expr.functions, bodies_valuesCode arguments,
      callee.bodies_code, functionCodes_append]
  | .index position table key, next => by
    simp [Expr.code, Expr.functions, table.bodies_code, key.bodies_code, functionCodes_append]
  | .group position inner, next => by
    simp [Expr.code, Expr.functions, inner.bodies_code]
  | .binary position operator lhs rhs, next => by
    rcases operator with operator | _ | _ <;> rcases target with _ | ⟨_ | _, distance⟩ <;>
    simp [Expr.code, Expr.functions, lhs.bodies_code, rhs.bodies_code, functionCodes_append]
  | .unary position operator operand, next => by
    rcases operator with _ | _ | _ | _ <;> rcases target with _ | ⟨truth, distance⟩ <;>
    simp [Expr.code, Expr.functions, operand.bodies_code]

theorem bodies_valuesCode : ∀ (es : List Expr) (next : Nat),
    (valuesCode es next).2 = functionCodes next (valuesFunctions es)
  | [], _ => rfl
  | [e], next => by
    cases e with
    | call position callee arguments =>
      simp [valuesCode, valuesFunctions, Expr.functions,
        bodies_valuesCode arguments, callee.bodies_code, functionCodes_append]
    | _ => simp [valuesCode, valuesFunctions, Expr.bodies_code]
  | e :: f :: rest, next => by
    rw [valuesCode_cons (by simp)]
    simp [valuesFunctions, e.bodies_code,
      bodies_valuesCode (f :: rest), functionCodes_append]

theorem bodies_entriesCode : ∀ (es : List (Expr × Expr)) (next : Nat),
    (entriesCode es next).2 = functionCodes next (entriesFunctions es)
  | [], _ => rfl
  | (key, value) :: rest, next => by
    simp [entriesCode, entriesFunctions, functionCodes_append, key.bodies_code, value.bodies_code,
      bodies_entriesCode rest, Nat.add_assoc]

theorem bodies_storesCode (isLocal : Bool) : ∀ (es : List Expr) (next : Nat),
    (storesCode isLocal es next).2 = functionCodes next (storesFunctions es)
  | [], _ => rfl
  | e :: rest, next => by
    cases e with
    | index position table key =>
      simp [storesCode, storesFunctions, functionCodes_append, key.bodies_code,
        table.bodies_code, bodies_storesCode isLocal rest, Nat.add_assoc]
    | _ => simp [storesCode, storesFunctions, bodies_storesCode isLocal rest]

theorem bodies_branchesCode (scopes : Option Nat) (position : Position) (last : Gen Code)
    (fs : List FunctionLiteral) (hlast : ∀ next, (last next).2 = functionCodes next fs) :
    ∀ (es : List (Expr × List Stat)) (next : Nat),
    (branchesCode scopes position last es next).2 = functionCodes next (branchesFunctions fs es)
  | [], next => hlast next
  | (condition, body) :: rest, next => by
    simp [branchesCode, branchesFunctions, functionCodes_append, condition.bodies_code,
      bodies_chunkCode _ _ body, bodies_branchesCode scopes position last fs hlast rest,
        Nat.add_assoc]

theorem Stat.bodies_code (scopes : Option Nat) (keep : Bool) : ∀ (s : Stat) (next : Nat),
    (s.code scopes keep next).2 = functionCodes next s.functions
  | .expression e, next => by
    cases e with
    | call position callee arguments =>
      simp [Stat.code, Stat.functions, Expr.functions, bodies_valuesCode arguments,
      callee.bodies_code, functionCodes_append]
    | _ => simp [Stat.code, Stat.functions, Expr.bodies_code]
  | .assignment position isLocal targets values, next => by
    simp [Stat.code, Stat.functions, bodies_valuesCode values, bodies_storesCode isLocal targets,
      functionCodes_append]
  | .declaration _, _ => rfl
  | .localFunction name function, next => by
    simp [Stat.code, Stat.functions, function.bodies_code]
  | .conditional position branches none, next => by
    rw [Stat.code, Stat.functions]
    exact bodies_branchesCode scopes position _ [] (fun _ => rfl) branches next
  | .conditional position branches (some body), next => by
    rw [Stat.code, Stat.functions]
    refine bodies_branchesCode scopes position _ _ (fun next => ?_) branches next
    simp [bodies_chunkCode _ _ body]
  | .whileLoop position condition body, next => by
    simp [Stat.code, Stat.functions, bodies_chunkCode _ _ body, condition.bodies_code,
      functionCodes_append]
  | .numericFor counter start stop none body, next => by
    simp [Stat.code, Stat.functions, bodies_chunkCode _ _ body, start.bodies_code, stop.bodies_code,
      functionCodes_append, Nat.add_assoc]
  | .numericFor counter start stop (some step) body, next => by
    simp [Stat.code, Stat.functions, bodies_chunkCode _ _ body, start.bodies_code, stop.bodies_code,
      step.bodies_code, functionCodes_append, Nat.add_assoc]
  | .genericFor position names iterators body, next => by
    simp [Stat.code, Stat.functions, bodies_chunkCode _ _ body, bodies_valuesCode iterators,
      functionCodes_append]
  | .repeatLoop position body condition, next => by
    simp [Stat.code, Stat.functions, bodies_chunkCode _ _ body, condition.bodies_code,
      functionCodes_append]
  | .block body, next => by
    simp [Stat.code, Stat.functions, bodies_chunkCode _ _ body]
  | .result position values, next => by
    simp [Stat.code, Stat.functions, bodies_valuesCode values]
  | .leave _, _ => rfl

theorem bodies_chunkCode (scopes : Option Nat) (keep : Bool) : ∀ (c : List Stat) (next : Nat),
    (chunkCode scopes keep c next).2 = functionCodes next (chunkFunctions c)
  | [], _ => rfl
  | s :: rest, next => by
    simp [chunkCode, chunkFunctions, s.bodies_code, bodies_chunkCode _ _ rest, functionCodes_append]

end
/-! ### Tables of functions -/

/-- A literal with its number and the places of the functions of its text. -/
structure PlacedFunction where
  literal : FunctionLiteral
  number : Nat
  places : List Nat

/-- Where the functions of a program begin. -/
abbrev FunctionTable := List (Nat × PlacedFunction)

/-- The places of the functions of a text that is put behind `size` instructions. -/
def chunkPlaces (size : Nat) (chunk : Chunk) : List Nat :=
  placesFrom size (functionCodes 0 (chunkFunctions chunk))

/-- The functions of a text that is put behind `size` instructions. -/
def FunctionTable.ofChunk (size : Nat) (chunk : Chunk) : FunctionTable :=
  let places := chunkPlaces size chunk
  places.zip ((chunkFunctions chunk).zipIdx.map fun (f, i) => ⟨f, i, places⟩)

/-- The program of texts that are loaded one after another. -/
def Program.ofTexts : List Chunk → Program
  | [] => .empty
  | chunk :: earlier => ((Program.ofTexts earlier).extend chunk).1

/-- The functions of the program of some texts, the last text coming first. -/
def FunctionTable.ofTexts : List Chunk → FunctionTable
  | [] => []
  | chunk :: earlier =>
    .ofChunk (Program.ofTexts earlier).size chunk ++ FunctionTable.ofTexts earlier

end ScriptEngine
