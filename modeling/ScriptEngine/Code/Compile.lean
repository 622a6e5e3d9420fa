import ScriptEngine.Code.Basic
import ScriptEngine.Syntax.Basic

/-!
# Compilation

The machine code of syntax trees.  The bodies of functions are put in front of
the code of the text that they occur in; while code is generated they are known
by number, which linking replaces by the place of their first instruction.

## Main definitions

* `Gen` — code together with the bodies of the functions in it.
* `Target` — whether the code of an expression leaves a value or jumps.
* `Expr.code`, `Stat.code`, `chunkCode` — the code of syntax.
* `Program.extend` — a program with the code of a text behind its own.
-/

namespace ScriptEngine

/-! ### Code with function bodies -/

/-- Code generation: from the number of the next function to a result and the
bodies of the functions that were met, in the order of their numbers. -/
def Gen (α : Type) : Type := Nat → α × List Code

namespace Gen

/-- A result without functions. -/
protected def pure {α : Type} (a : α) : Gen α := fun _ => (a, [])

/-- One generation after another. -/
protected def bind {α β : Type} (x : Gen α) (f : α → Gen β) : Gen β := fun next =>
  let first := x next
  let second := f first.1 (next + first.2.length)
  (second.1, first.2 ++ second.2)

instance : Monad Gen where
  pure := Gen.pure
  bind := Gen.bind

/-- A function with a body: its number. -/
def function (body : Gen Code) : Gen Nat := fun next =>
  let inner := body (next + 1)
  (next, inner.1 :: inner.2)

end Gen

/-! ### Parts of code -/

/-- What the code of an expression is for: to leave the value on the stack, or to
jump a distance past its end if the value counts as true or does not. -/
inductive Target where
  | value
  | jumpWhen (truth : Bool) (distance : Nat)
deriving DecidableEq, Repr

/-- Code that leaves a value, followed by what its target asks for. -/
def Target.finish (target : Target) (position : Position) (code : Code) : Code :=
  match target with
  | value => code
  | jumpWhen true distance => code ++ [.jumping .jumpIf distance position]
  | jumpWhen false distance => code ++ [.jumping .jumpIfNot distance position]

/-- Puts jumps in the places where a loop is left.  They go to the end of the
code, or `short` instructions before it. -/
def resolveBreaks (short : Nat) : Code → Code
  | [] => []
  | op :: rest =>
    (if op.code = .leave then .jumping .jump (rest.length - short) op.position else op)
      :: resolveBreaks short rest

/-- A piece of code in a scope of its own. -/
def inScope (position : Position) (code : Code) : Code :=
  .plain .startBlock position :: code ++ [.plain .endBlock position]

/-- A jump to the beginning of a piece of code that it follows. -/
def jumpBack (position : Position) (code : Code) : Op :=
  .jumping .jump (-(code.length + 1 : Nat)) position

/-- Declares a variable and pops its value. -/
def bindLocal (name : String) (position : Position) : Code :=
  [.named .makeLocal name position, .named .store name position]

/-- Declares variables and pops their values, the last of them being on top. -/
def bindLocals (names : List Identifier) : Code :=
  names.reverse.flatMap fun name => bindLocal name.name name.position

/-- A loop that counts, given the code of its parts.  The counter stays on the
stack. -/
def countingLoop (position : Position) (name : String) (start stop step body : Code) : Code :=
  let pass := inScope position (.plain .dup position :: bindLocal name position ++ body)
  let round := .plain .dup position :: stop
    ++ [.plain (.binary (.compare .notEquals)) position,
      .jumping .jumpIfNot (pass.length + step.length + 2 : Nat) position]
    ++ pass ++ step ++ [.plain (.binary (.arith .add)) position]
  start ++ resolveBreaks 1 (round ++ [jumpBack position round, .plain .pop position])

/-- A loop over an iterator, given the code of its parts.  The iterator, its
state and its control value stay on the stack. -/
def iteratorLoop (position : Position) (names : List Identifier) (iterators body : Code) : Code :=
  let pass := inScope position (bindLocals names ++ body)
  let round := [.plain .assignPush position, .plain .iterNext position,
      .jumping .iterJumpIfDone (pass.length + 3 : Nat) position,
      .counted .assignSet names.length position,
      .counted .iterUpdateState names.length position] ++ pass
  .plain .assignPush position :: iterators ++ [.counted .assignSet 3 position]
    ++ resolveBreaks 1 (round ++ [jumpBack position round, .counted .pop 3 position])

/-- The instructions that leave a loop: those that close the scopes opened in it,
and the one that a jump takes the place of. -/
def leaveCode (scopes : Option Nat) (position : Position) : Code :=
  List.replicate (scopes.getD 0) (.plain .endBlock position) ++ [.plain .leave position]

/-- Whether the last of some expressions is a call, which has all of its
results. -/
def endsInCall (es : List Expr) : Bool := es.getLast?.any Expr.isCall

/-- A call, given the code of its arguments and of the callee.  If the last
argument is a call, the number of arguments is known only when the program
runs. -/
def callCode (position : Position) (arguments : List Expr) (values callee : Code)
    (want : Option Nat) : Code :=
  (if endsInCall arguments then
    .plain .assignPush position :: values ++ [.plain .assignCount position] ++ callee
      ++ [.plain .swap position]
  else values ++ callee ++ [.counted .push arguments.length position])
    ++ [match want with
      | some n => .counted .call n position
      | none => .plain .call position]

/-- Whether an assignment is of one value to one target. -/
def isSingle (targets values : List Expr) : Bool :=
  targets.length == 1 && values.length == 1 && !values.any Expr.isCall

/-! ### The code of syntax -/

mutual

/-- The code of an expression.  A call has one result. -/
def Expr.code (target : Target) : Expr → Gen Code
  | .literal position value =>
    pure (target.finish position [.withValue .push value.toValue position])
  | .var position name => pure (target.finish position [.named .load name position])
  | .function position parameters body => do
    let number ← Gen.function do
      let inner ← chunkCode none false body
      pure (.counted .argumentCount parameters.length position :: bindLocals parameters
        ++ inner ++ [.counted .ret 0 position])
    pure (target.finish position [.withValue .push (.function number []) position])
  | .table position entries => do
    let pairs ← entriesCode entries
    let filled := if entries.isEmpty then [] else [.counted .storeIndex entries.length position]
    pure (target.finish position (.plain .newTable position :: pairs ++ filled))
  | .call position callee arguments => do
    let values ← valuesCode arguments
    let function ← callee.code .value
    pure (target.finish position (callCode position arguments values function (some 1)))
  | .index position table key => do
    let key ← key.code .value
    let table ← table.code .value
    pure (target.finish position (key ++ table ++ [.plain .loadIndex position]))
  | .group position inner => do
    let code ← inner.code .value
    pure (target.finish position code)
  | .binary position .and lhs rhs => do
    match target with
    | .value => do
      let right ← rhs.code .value
      let left ← lhs.code .value
      pure (left ++ [.plain .dup position,
        .jumping .jumpIfNot (right.length + 1 : Nat) position, .plain .pop position] ++ right)
    | .jumpWhen false distance => do
      let right ← rhs.code (.jumpWhen false distance)
      let left ← lhs.code (.jumpWhen false (right.length + distance))
      pure (left ++ right)
    | .jumpWhen true distance => do
      let right ← rhs.code (.jumpWhen true distance)
      let left ← lhs.code (.jumpWhen false right.length)
      pure (left ++ right)
  | .binary position .or lhs rhs => do
    match target with
    | .value => do
      let right ← rhs.code .value
      let left ← lhs.code .value
      pure (left ++ [.plain .dup position,
        .jumping .jumpIf (right.length + 1 : Nat) position, .plain .pop position] ++ right)
    | .jumpWhen false distance => do
      let right ← rhs.code (.jumpWhen false distance)
      let left ← lhs.code (.jumpWhen true right.length)
      pure (left ++ right)
    | .jumpWhen true distance => do
      let right ← rhs.code (.jumpWhen true distance)
      let left ← lhs.code (.jumpWhen true (right.length + distance))
      pure (left ++ right)
  | .binary position (.strict operator) lhs rhs => do
    let right ← rhs.code .value
    let left ← lhs.code .value
    pure (target.finish position (right ++ left ++ [.plain (.binary operator) position]))
  | .unary position .not operand => do
    match target with
    | .value => do
      let code ← operand.code .value
      pure (code ++ [.plain (.unary .not) position])
    | .jumpWhen truth distance => operand.code (.jumpWhen (!truth) distance)
  | .unary position operator operand => do
    let code ← operand.code .value
    pure (target.finish position (code ++ [.plain (.unary operator) position]))

/-- The values of expressions, a call at the end having all of its results. -/
def valuesCode : List Expr → Gen Code
  | [] => pure []
  | [.call position callee arguments] => do
    let values ← valuesCode arguments
    let function ← callee.code .value
    pure (callCode position arguments values function none)
  | e :: rest => do
    let first ← e.code .value
    let others ← valuesCode rest
    pure (first ++ others)

/-- The entries of a table from the last to the first, the value of each before
its key. -/
def entriesCode : List (Expr × Expr) → Gen Code
  | [] => pure []
  | (key, value) :: rest => do
    let others ← entriesCode rest
    let value ← value.code .value
    let key ← key.code .value
    pure (others ++ value ++ key)

/-- Pops the values of an assignment into its targets, the last being on top. -/
def storesCode (isLocal : Bool) : List Expr → Gen Code
  | [] => pure []
  | .var position name :: rest => do
    let others ← storesCode isLocal rest
    pure (others ++ (if isLocal then [.named .makeLocal name position] else [])
      ++ [.named .store name position])
  | .index position table key :: rest => do
    let others ← storesCode isLocal rest
    let table ← table.code .value
    let key ← key.code .value
    pure (others ++ table ++ [.plain .swap position] ++ key
      ++ [.counted .storeIndex 1 position, .plain .pop position])
  | e :: rest => do
    let others ← storesCode isLocal rest
    pure (others ++ [.plain .pop e.position])

/-- The branches of a conditional, behind which the code of the last one
follows. -/
def branchesCode (scopes : Option Nat) (position : Position) (last : Gen Code) :
    List (Expr × List Stat) → Gen Code
  | [] => last
  | (condition, body) :: rest => do
    let others ← branchesCode scopes position last rest
    let inner ← chunkCode (scopes.map (· + 1)) false body
    let block := inScope condition.position inner
      ++ (if others.isEmpty then [] else [.jumping .jump others.length position])
    let test ← condition.code (.jumpWhen false block.length)
    pure (test ++ block ++ others)

/-- The code of a statement.  Inside of a loop, `scopes` is the number of scopes
that were opened since its beginning; `keep` says whether the value of an
expression is to stay on the stack. -/
def Stat.code (scopes : Option Nat) (keep : Bool) : Stat → Gen Code
  | .expression (.call position callee arguments) => do
    let values ← valuesCode arguments
    let function ← callee.code .value
    pure (callCode position arguments values function (some (if keep then 1 else 0)))
  | .expression e => do
    let code ← e.code .value
    pure (if keep then code else code ++ [.plain .pop e.position])
  | .assignment position isLocal targets values => do
    let right ← valuesCode values
    let stores ← storesCode isLocal targets
    pure ((if isSingle targets values then right
      else .plain .assignPush position :: right
        ++ [.counted .assignSet targets.length position]) ++ stores)
  | .declaration names => pure (names.map fun name => .named .makeLocal name.name name.position)
  | .localFunction name function => do
    let code ← function.code .value
    pure (.named .makeLocal name.name name.position :: code
      ++ [.named .store name.name name.position])
  | .conditional position branches none => branchesCode scopes position (pure []) branches
  | .conditional position branches (some body) =>
    branchesCode scopes position
      (do
        let inner ← chunkCode (scopes.map (· + 1)) false body
        pure (inScope position inner)) branches
  | .whileLoop position condition body => do
    let inner ← chunkCode (some 1) false body
    let block := inScope position inner
    let test ← condition.code (.jumpWhen false (block.length + 1))
    pure (resolveBreaks 0 (test ++ block ++ [jumpBack position (test ++ block)]))
  | .numericFor counter start stop none body => do
    let inner ← chunkCode (some 1) false body
    let stop ← stop.code .value
    let start ← start.code .value
    pure (countingLoop counter.position counter.name start stop
      [.withValue .push (.number 1) counter.position] inner)
  | .numericFor counter start stop (some step) body => do
    let inner ← chunkCode (some 1) false body
    let step ← step.code .value
    let stop ← stop.code .value
    let start ← start.code .value
    pure (countingLoop counter.position counter.name start stop step inner)
  | .genericFor position names iterators body => do
    let inner ← chunkCode (some 1) false body
    let iterators ← valuesCode iterators
    pure (iteratorLoop position names iterators inner)
  | .repeatLoop position body condition => do
    let inner ← chunkCode (some 1) false body
    let test ← condition.code .value
    let round := inScope position (inner ++ test)
    pure (resolveBreaks 0
      (round ++ [.jumping .jumpIfNot (-(round.length + 1 : Nat)) condition.position]))
  | .block body => do
    let inner ← chunkCode (scopes.map (· + 1)) false body
    pure (inScope .nowhere inner)
  | .result position values => do
    let code ← valuesCode values
    pure (if endsInCall values then
        .plain .assignPush position :: code ++ [.plain .ret position]
      else code ++ [.counted .ret values.length position])
  | .leave position => pure (leaveCode scopes position)

/-- The code of statements.  With `keep`, the value of an expression at the end
stays on the stack. -/
def chunkCode (scopes : Option Nat) (keep : Bool) : List Stat → Gen Code
  | [] => pure []
  | s :: rest => do
    let first ← s.code scopes (keep && rest.isEmpty)
    let others ← chunkCode scopes keep rest
    pure (first ++ others)

end

/-! ### Linking -/

/-- The places of pieces of code that follow each other from `start` on. -/
def placesFrom (start : Nat) : List Code → List Nat
  | [] => []
  | code :: rest => start :: placesFrom (start + code.length) rest

/-- Replaces the number of a function by the place of its body. -/
def Op.link (places : List Nat) (op : Op) : Op :=
  match op.code, op.operand with
  | .push, .value (.function number captured) =>
    match places[number]? with
    | some place => { op with operand := .value (.function place captured) }
    | none => op
  | _, _ => op

/-- A program with the code of a text behind its own, and the places and sizes of
the functions that were added.  The functions come first and the text last, so
that a program ends where its code ends. -/
def Program.extend (p : Program) (chunk : Chunk) : Program × List (Nat × Nat) :=
  let (main, bodies) := chunkCode none true chunk 0
  let places := placesFrom p.size bodies
  let added := (bodies.flatten ++ main).map (Op.link places)
  (⟨p.code ++ added, p.size + bodies.flatten.length⟩, places.zip (bodies.map List.length))

end ScriptEngine
