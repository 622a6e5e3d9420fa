import ScriptEngine.Machine.Step
import ScriptEngine.Proofs.Evaluation.Functions

/-!
# Evaluation of syntax

What a text means, said by recursion on its syntax: expressions have values,
statements have outcomes, and both change a store.  No code and no operand stack
is involved.

The order of evaluation is that of the language: the right operand before the
left one, a key before its table, arguments before the callee, the entries of a
table from the last to the first.

## Main definitions

* `World` — what an evaluation does not change.
* `Context` — the scopes in reach, and the depth of calls.
* `Outcome` — how statements end.
* `Eval` — computations on a store that may be undecided.
* `evalExpr`, `evalCall`, `evalStat`, `evalChunk`, `evalText` — evaluation.

All functions take a bound on the depth of their recursion, which decreases with
every call.  An evaluation that uses it up is undecided, as is one that calls a
function that no text has or that has more arguments than numbers can count.
-/

namespace ScriptEngine

/-! ### Computations -/

/-- What an evaluation does not change. -/
structure World where
  config : Config
  /-- What the native functions do. -/
  natives : Builtin → NativeBody
  /-- What calls back into the engine do, by their place and depth. -/
  call : Position → Nat → Reentry
  functions : FunctionTable

/-- Where an evaluation takes place. -/
structure Context where
  /-- The open scopes of the running function, innermost first. -/
  scopes : List ScopeRef
  /-- The scopes that the running function closed over, innermost first. -/
  captured : List ScopeRef
  /-- How many calls are open. -/
  depth : Nat
  /-- Where the functions of the running text begin, by their number. -/
  places : List Nat

/-- Why an evaluation has no result. -/
inductive Stop where
  | undecided
  | interrupted (i : Interrupt)

/-- An evaluation. -/
abbrev Eval := EStateM Stop Store

/-- How statements end. -/
inductive Outcome where
  /-- The next statement follows.  The value is that of an expression at the end
  of a text. -/
  | next (kept : Option Value)
  /-- The innermost loop is left. -/
  | leave
  /-- The running function returns values. -/
  | result (values : List Value)

namespace Context

/-- The scopes in reach, innermost first. -/
def reach (c : Context) : List ScopeRef := c.scopes ++ c.captured

/-- Where the function of a number begins. -/
def entry (c : Context) (number : Nat) : Nat := (c.places[number]?).getD number

/-- The inside of a block. -/
def inside (c : Context) (scope : ScopeRef) : Context := { c with scopes := scope :: c.scopes }

end Context

namespace Eval

/-- Gives up. -/
def undecided {α : Type} : Eval α := throw .undecided

/-- Fails at a place. -/
def fail {α : Type} (position : Position) (c : Cause) : Eval α :=
  throw (.interrupted (.error (.runtime c position)))

/-- The result of an operator, or its failure at a place. -/
def located {α : Type} (position : Position) : Except Cause α → Eval α
  | .ok a => pure a
  | .error c => fail position c

/-- Reads something off the store. -/
def fromStore {α : Type} (f : Store → α) : Eval α := fun s => .ok (f s) s

/-- Changes the store. -/
def modifyStore (f : Store → Store) : Eval Unit := fun s => .ok () (f s)

/-- Makes a scope. -/
def newScope : Eval ScopeRef := fun s => .ok s.newScope.1 s.newScope.2

/-- Makes a table. -/
def newTable : Eval TableRef := fun s => .ok (s.newTable .empty).1 (s.newTable .empty).2

end Eval

open Eval

/-! ### Variables and tables -/

namespace Store

/-- The value of a variable: that of the innermost scope that has it, or the
global one, or `nil`. -/
def read (s : Store) (reach : List ScopeRef) (name : String) : Value :=
  match Exec.findScope s name reach with
  | some ref => ((s.scope ref).get? name).getD .nil
  | none => (s.globals.get? name).getD .nil

/-- Changes a variable where it is found.  A global variable that gets the value
`nil` is removed. -/
def write (s : Store) (reach : List ScopeRef) (name : String) (v : Value) : Store :=
  match Exec.findScope s name reach with
  | some ref => s.declare ref name v
  | none => if v.isNil then s.removeGlobal name else s.setGlobal name v

/-- The value of a key.  Indexing `nil`, or with it, gives `nil`. -/
def index (s : Store) (target key : Value) : Except Cause Value :=
  match target with
  | .nil => .ok .nil
  | .table ref =>
    if key.isNil then .ok .nil
    else
      match Key.ofValue key with
      | .ok key => .ok ((s.table ref).get key)
      | .error c => .error c
  | v => .error (.indexing v.kind)

end Store

/-- Declares a variable in the innermost scope and gives it a value. -/
def introduce (c : Context) (name : String) (v : Value) : Eval Unit :=
  match c.scopes with
  | [] => undecided
  | scope :: _ => modifyStore fun s => (s.declare scope name .nil).write c.reach name v

/-- Declares variables for the first of some values, the last variable first. -/
def introduceAll (c : Context) : List Identifier → List Value → Eval Unit
  | [], _ => pure ()
  | name :: rest, values => do
    introduceAll c rest values.tail
    introduce c name.name (values.headD .nil)

/-- Declares variables without a value. -/
def declareAll (c : Context) : List Identifier → Eval Unit
  | [] => pure ()
  | name :: rest =>
    match c.scopes with
    | [] => undecided
    | scope :: _ => do
      modifyStore fun s => s.declare scope name.name .nil
      declareAll c rest

/-- Puts values under keys of a table one after another. -/
def putPairs (position : Position) (ref : TableRef) : List (Value × Value) → Eval Unit
  | [] => pure ()
  | (key, v) :: rest =>
    if key.isNil then fail position .nilKey
    else do
      let key ← located position (Key.ofValue key)
      modifyStore fun s => s.modifyTable ref fun t => t.set key v
      putPairs position ref rest

/-- Puts a value under a key of what is to be a table. -/
def putAt (position : Position) (target key v : Value) : Eval Unit :=
  match target with
  | .table ref => putPairs position ref [(key, v)]
  | other => fail position (.indexing other.kind)

/-- The step of a loop that counts, which is one unless it is given. -/
def stepExpr (counter : Identifier) (step : Option Expr) : Expr :=
  step.getD (.literal counter.position (.number 1))

/-- Runs a native function. -/
def evalNative (w : World) (position : Position) (depth : Nat) (f : Native)
    (arguments : List Value) : Eval (List Value) := fun s =>
  match w.natives f.body (w.call position depth) arguments s with
  | .ok results s => .ok results s
  | .error e s => .error (.interrupted (e.located position)) s

/-! ### Expressions, calls and statements -/

mutual

/-- The value of an expression whose first function has the number `next`. -/
def evalExpr (w : World) : Nat → Context → Nat → Expr → Eval Value
  | 0, _, _, _ => undecided
  | n + 1, c, next, e =>
    match e with
    | .literal _ value => pure value.toValue
    | .var _ name => fromStore fun s => s.read c.reach name
    | .function _ _ _ => pure (.function (c.entry next) c.reach)
    | .table position entries => do
      let ref ← newTable
      let pairs ← evalEntries w n c next entries
      putPairs position ref pairs
      pure (.table ref)
    | .call position callee arguments => do
      let results ← evalCallExpr w n c next position callee arguments
      pure (results.headD .nil)
    | .index position table key => do
      let key' ← evalExpr w n c next key
      let table' ← evalExpr w n c (next + key.functions.length) table
      located position (← fromStore fun s => s.index table' key')
    | .group _ inner => evalExpr w n c next inner
    | .binary _ .and lhs rhs => do
      let left ← evalExpr w n c (next + rhs.functions.length) lhs
      if left.isTruthy then evalExpr w n c next rhs else pure left
    | .binary _ .or lhs rhs => do
      let left ← evalExpr w n c (next + rhs.functions.length) lhs
      if left.isTruthy then pure left else evalExpr w n c next rhs
    | .binary position (.strict operator) lhs rhs => do
      let right ← evalExpr w n c next rhs
      let left ← evalExpr w n c (next + rhs.functions.length) lhs
      located position (← fromStore fun s => s.binary operator left right)
    | .unary position operator operand => do
      let v ← evalExpr w n c next operand
      located position (← fromStore fun s => s.unary operator v)

/-- The results of a call: first the arguments, then the callee, then the call. -/
def evalCallExpr (w : World) : Nat → Context → Nat → Position → Expr → List Expr →
    Eval (List Value)
  | 0, _, _, _, _, _ => undecided
  | n + 1, c, next, position, callee, arguments => do
    let values ← evalValues w n c next arguments
    let function ← evalExpr w n c (next + (valuesFunctions arguments).length) callee
    evalCall w n position c.depth function values

/-- The values of expressions, a call at the end having all of its results. -/
def evalValues (w : World) : Nat → Context → Nat → List Expr → Eval (List Value)
  | 0, _, _, _ => undecided
  | n + 1, c, next, es =>
    match es with
    | [] => pure []
    | [.call position callee arguments] => evalCallExpr w n c next position callee arguments
    | e :: rest => do
      let first ← evalExpr w n c next e
      let others ← evalValues w n c (next + e.functions.length) rest
      pure (first :: others)

/-- The keys and values of the entries of a table, evaluated from the last to the
first, the value of each before its key. -/
def evalEntries (w : World) : Nat → Context → Nat → List (Expr × Expr) →
    Eval (List (Value × Value))
  | 0, _, _, _ => undecided
  | n + 1, c, next, es =>
    match es with
    | [] => pure []
    | (key, value) :: rest => do
      let others ← evalEntries w n c next rest
      let value' ← evalExpr w n c (next + (entriesFunctions rest).length) value
      let key' ← evalExpr w n c
        (next + (entriesFunctions rest).length + value.functions.length) key
      pure ((key', value') :: others)

/-- The results of calling a value.  The body of a script function is evaluated
in a scope of its own. -/
def evalCall (w : World) : Nat → Position → Nat → Value → List Value → Eval (List Value)
  | 0, _, _, _, _ => undecided
  | n + 1, position, depth, callee, arguments =>
    if Number.mantissaBound ≤ arguments.length then undecided
    else
      match callee with
      | .native f => evalNative w position depth f arguments
      | .function entry captured =>
        if w.config.maxCallDepth ≤ depth then fail position .stackOverflow
        else
          match w.functions.lookup entry with
          | none => undecided
          | some f => do
            let scope ← newScope
            let c : Context := ⟨[scope], captured, depth + 1, f.places⟩
            introduceAll c f.literal.parameters arguments
            match ← evalChunk w n c (f.number + 1) false f.literal.body with
            | .next _ => pure []
            | .result values => pure values
            | .leave => undecided
      | v => fail position (.calling v.kind)

/-- Puts values into the targets of an assignment, into the last target first. -/
def evalStores (w : World) : Nat → Context → Nat → Bool → List Expr → List Value → Eval Unit
  | 0, _, _, _, _, _ => undecided
  | n + 1, c, next, isLocal, targets, values =>
    match targets with
    | [] => pure ()
    | .var _ name :: rest => do
      evalStores w n c next isLocal rest values.tail
      if isLocal then introduce c name (values.headD .nil)
      else modifyStore fun s => s.write c.reach name (values.headD .nil)
    | .index position table key :: rest => do
      evalStores w n c next isLocal rest values.tail
      let table' ← evalExpr w n c (next + (storesFunctions rest).length) table
      let key' ← evalExpr w n c
        (next + (storesFunctions rest).length + table.functions.length) key
      putAt position table' key' (values.headD .nil)
    | _ :: rest => evalStores w n c next isLocal rest values.tail

/-- Evaluates statements in a scope of their own, which has variables for the
first of some values. -/
def evalBlock (w : World) : Nat → Context → Nat → List Identifier → List Value → List Stat →
    Eval Outcome
  | 0, _, _, _, _, _ => undecided
  | n + 1, c, next, names, values, body => do
    let scope ← newScope
    introduceAll (c.inside scope) names values
    evalChunk w n (c.inside scope) next false body

/-- Evaluates the first branch of a conditional whose condition counts as true, or
what is behind the last one. -/
def evalBranches (w : World) : Nat → Context → Nat → Option (List Stat) →
    List (Expr × List Stat) → Eval Outcome
  | 0, _, _, _, _ => undecided
  | n + 1, c, next, otherwise, branches =>
    match branches, otherwise with
    | [], none => pure (.next none)
    | [], some body => evalBlock w n c next [] [] body
    | (condition, body) :: rest, otherwise => do
      let last := (otherwise.map chunkFunctions).getD []
      let behind := next + (branchesFunctions last rest).length
      let v ← evalExpr w n c (behind + (chunkFunctions body).length) condition
      if v.isTruthy then evalBlock w n c behind [] [] body
      else evalBranches w n c next otherwise rest

/-- The passes of a loop that counts, from one on whose counter is known.  The
end is evaluated before every pass and the step behind it; the loop ends when the
counter equals the end. -/
def evalCounting (w : World) : Nat → Context → Nat → Identifier → Expr → Expr → List Stat →
    Value → Eval Outcome
  | 0, _, _, _, _, _, _, _ => undecided
  | n + 1, c, next, counter, stop, step, body, v => do
    let behind := next + (chunkFunctions body).length
    let limit ← evalExpr w n c (behind + step.functions.length) stop
    if ← fromStore fun s => s.equal limit v then pure (.next none)
    else
      match ← evalBlock w n c next [counter] [v] body with
      | .next _ => do
        let distance ← evalExpr w n c behind step
        let v ← located counter.position (distance.arith .add v)
        evalCounting w n c next counter stop step body v
      | .leave => pure (.next none)
      | .result values => pure (.result values)

/-- The passes of a loop over an iterator, from one on whose control value is
known.  The loop ends when the iterator's first result is `nil`. -/
def evalIterating (w : World) : Nat → Context → Nat → Position → List Identifier → List Stat →
    Value → Value → Value → Eval Outcome
  | 0, _, _, _, _, _, _, _, _ => undecided
  | n + 1, c, next, position, names, body, iterator, state, control => do
    let results ← evalCall w n position c.depth iterator [state, control]
    if (results.headD .nil).isNil then pure (.next none)
    else
      match ← evalBlock w n c next names results body with
      | .next _ =>
        evalIterating w n c next position names body iterator state (results.headD .nil)
      | .leave => pure (.next none)
      | .result values => pure (.result values)

/-- The outcome of a statement whose first function has the number `next`.  With
`keep`, that of an expression is its value. -/
def evalStat (w : World) : Nat → Context → Nat → Bool → Stat → Eval Outcome
  | 0, _, _, _, _ => undecided
  | n + 1, c, next, keep, s =>
    match s with
    | .expression (.call position callee arguments) => do
      let results ← evalCallExpr w n c next position callee arguments
      pure (.next (if keep then some (results.headD .nil) else none))
    | .expression e => do
      let v ← evalExpr w n c next e
      pure (.next (if keep then some v else none))
    | .assignment _ isLocal targets values => do
      let values' ← evalValues w n c next values
      evalStores w n c (next + (valuesFunctions values).length) isLocal targets values'
      pure (.next none)
    | .declaration names => do
      declareAll c names
      pure (.next none)
    | .localFunction name function => do
      declareAll c [name]
      let v ← evalExpr w n c next function
      modifyStore fun s => s.write c.reach name.name v
      pure (.next none)
    | .conditional _ branches otherwise => evalBranches w n c next otherwise branches
    | .whileLoop _ condition body => do
      let v ← evalExpr w n c (next + (chunkFunctions body).length) condition
      if v.isTruthy then
        match ← evalBlock w n c next [] [] body with
        | .next _ => evalStat w n c next keep s
        | .leave => pure (.next none)
        | .result values => pure (.result values)
      else pure (.next none)
    | .numericFor counter start stop step body => do
      let step := stepExpr counter step
      let behind := next + (chunkFunctions body).length
      let v ← evalExpr w n c (behind + step.functions.length + stop.functions.length) start
      evalCounting w n c next counter stop step body v
    | .genericFor _ [] _ _ => undecided
    | .genericFor position names iterators body => do
      let values ← evalValues w n c (next + (chunkFunctions body).length) iterators
      evalIterating w n c next position names body (values.headD .nil)
        (values.tail.headD .nil) (values.tail.tail.headD .nil)
    | .repeatLoop _ body condition => do
      let scope ← newScope
      match ← evalChunk w n (c.inside scope) next false body with
      | .next _ => do
        let v ← evalExpr w n (c.inside scope) (next + (chunkFunctions body).length) condition
        if v.isTruthy then pure (.next none) else evalStat w n c next keep s
      | .leave => pure (.next none)
      | .result values => pure (.result values)
    | .block body => evalBlock w n c next [] [] body
    | .result _ values => do
      let values ← evalValues w n c next values
      pure (.result values)
    | .leave _ => pure .leave

/-- The outcome of statements one after another. -/
def evalChunk (w : World) : Nat → Context → Nat → Bool → List Stat → Eval Outcome
  | 0, _, _, _, _ => undecided
  | n + 1, c, next, keep, statements =>
    match statements with
    | [] => pure (.next none)
    | s :: rest => do
      match ← evalStat w n c next (keep && rest.isEmpty) s with
      | .next kept =>
        if rest.isEmpty then pure (.next kept)
        else evalChunk w n c (next + s.functions.length) keep rest
      | .leave => pure .leave
      | .result values => pure (.result values)

end

/-- The value of a text that is put behind `size` instructions: that of an
expression at its end, or the first value that it returns. -/
def evalText (w : World) (size : Nat) (root : ScopeRef) (fuel : Nat) (chunk : Chunk) :
    Eval Value := do
  let c : Context := ⟨[root], [], 0, chunkPlaces size chunk⟩
  match ← evalChunk w fuel c 0 true chunk with
  | .next kept => pure (kept.getD .nil)
  | .result values => pure (values.headD .nil)
  | .leave => undecided

end ScriptEngine
