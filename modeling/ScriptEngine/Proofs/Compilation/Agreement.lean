import ScriptEngine.Proofs.Compilation.Execution

/-!
# Agreement of code and evaluation

For every kind of syntax, what it means that its code, standing at a place of a
program, does what the evaluation of the syntax says.  The stack below, the open
calls and the marks are the same before and behind; the scopes are, too, unless a
loop is left or a function returns.

## Main definitions

* `Machine.context`, `Setting.world` — the surroundings of an evaluation that a
  machine stands for.
* `Target.arrive` — the machine behind the code of an expression.
* `Setting.returned` — the machine behind the end of a call.
* `Setting.Ended` — the states behind the code of a statement.
* `Setting.Agrees` — code and evaluations of a bounded depth agree.
-/

namespace ScriptEngine

/-! ### Surroundings -/

/-- The context that a machine works in. -/
def Machine.context (m : Machine) (places : List Nat) : Context :=
  ⟨m.scopes, m.captured, m.depth, places⟩

/-- The height of the stack below the arguments of the innermost call is not above
the stack. -/
def Machine.Grounded (m : Machine) : Prop :=
  ∀ frame ∈ m.frames.head?, frame.base ≤ m.stack.length

/-- The machine behind the code of an expression, whose value is known. -/
def Target.arrive (target : Target) (m : Machine) (behind : Nat) (v : Value) : Machine :=
  match target with
  | value => { m with ip := behind, stack := v :: m.stack }
  | jumpWhen truth distance =>
    { m with ip := if v.isTruthy = truth then behind + distance else behind }

/-- Keys and values as they lie on the stack, the first pair on top. -/
def stackedPairs : List (Value × Value) → List Value
  | [] => []
  | (key, v) :: rest => key :: v :: stackedPairs rest

namespace Setting

/-- What an evaluation shares with a run. -/
def world (setting : Setting) (call : Position → Nat → Reentry) (functions : FunctionTable) :
    World :=
  ⟨setting.config, setting.natives, call, functions⟩

/-- The machine behind the end of the innermost call, or of the top level. -/
def returned (setting : Setting) (results : List Value) (m : Machine) : Machine :=
  match m.frames with
  | frame :: frames =>
    { m with
      ip := frame.returnTo
      stack := Stack.pushAll (adjustTo frame.want results) (Stack.cutTo frame.base m.stack)
      scopes := frame.scopes
      captured := frame.captured
      frames := frames
      marks := m.marks.drop (m.marks.length - frame.marks) }
  | [] =>
    { m with
      ip := setting.program.size
      stack := [results.headD .nil]
      scopes := [setting.root]
      captured := []
      marks := [] }

/-- The states behind statements that were started on the machine `m`, `k` scopes
inside of the loop that ends at `exit`. -/
def Ended (setting : Setting) (m : Machine) (exit k : Option Nat) (keep : Bool) (behind : Nat) :
    Outcome → Store → State → Prop
  | .next kept, s, st =>
    (keep = false → kept = none) ∧
      st = ⟨{ m with ip := behind, stack := kept.toList ++ m.stack }, s⟩
  | .leave, s, st =>
    ∀ x ∈ exit, ∀ j ∈ k, st = ⟨{ m with ip := x, scopes := m.scopes.drop j }, s⟩
  | .result values, s, st => st = ⟨setting.returned values m, s⟩

/-! ### Parts of code -/

/-- What stands behind the last branch of a conditional. -/
def lastBranch (k : Option Nat) (position : Position) : Option (List Stat) → Gen Code
  | none => pure []
  | some body => do
    let inner ← chunkCode (k.map (· + 1)) false body
    pure (inScope position inner)

/-- What a loop that counts does again and again. -/
def countingRound (position : Position) (name : String) (stop step body : Code) : Code :=
  let pass := inScope position (.plain .dup position :: bindLocal name position ++ body)
  .plain .dup position :: stop
    ++ [.plain (.binary (.compare .notEquals)) position,
      .jumping .jumpIfNot (pass.length + step.length + 2 : Nat) position]
    ++ pass ++ step ++ [.plain (.binary (.arith .add)) position]

/-- What a loop over an iterator does again and again. -/
def iteratingRound (position : Position) (names : List Identifier) (body : Code) : Code :=
  let pass := inScope position (bindLocals names ++ body)
  [.plain .assignPush position, .plain .iterNext position,
    .jumping .iterJumpIfDone (pass.length + 3 : Nat) position,
    .counted .assignSet names.length position,
    .counted .iterUpdateState names.length position] ++ pass

/-! ### Agreement -/

section

variable (setting : Setting) (call : Position → Nat → Reentry) (functions : FunctionTable) (n : Nat)

/-- Code of expressions. -/
def AgreesOnExpr : Prop :=
  ∀ {target places exit next ip e} (m : Machine) (s : Store),
    setting.program.Holds places exit ip (e.code target next).1 →
    setting.Follows call ⟨{ m with ip := ip }, s⟩
      (evalExpr (setting.world call functions) n (m.context places) next e s)
      fun v s' st' => st' = ⟨target.arrive m (ip + (e.code target next).1.length) v, s'⟩

/-- Code of calls, whose results are brought to the number that is wanted. -/
def AgreesOnCallExpr : Prop :=
  ∀ {places exit next ip position callee arguments want code} (m : Machine) (s : Store),
    code = callCode position arguments (valuesCode arguments next).1
      (callee.code .value (next + (valuesFunctions arguments).length)).1 want →
    setting.program.Holds places exit ip code →
    setting.Follows call ⟨{ m with ip := ip }, s⟩
      (evalCallExpr (setting.world call functions) n (m.context places) next position callee
        arguments s)
      fun results s' st' => st' = ⟨{ m with
        ip := ip + code.length
        stack := (adjustTo want results).reverse ++ m.stack }, s'⟩

/-- Code of expressions one after another. -/
def AgreesOnValues : Prop :=
  ∀ {places exit next ip es} (m : Machine) (s : Store),
    setting.program.Holds places exit ip (valuesCode es next).1 →
    setting.Follows call ⟨{ m with ip := ip }, s⟩
      (evalValues (setting.world call functions) n (m.context places) next es s)
      fun values s' st' => (endsInCall es = false → values.length = es.length) ∧
        st' = ⟨{ m with
          ip := ip + (valuesCode es next).1.length
          stack := values.reverse ++ m.stack }, s'⟩

/-- Code of the entries of a table. -/
def AgreesOnEntries : Prop :=
  ∀ {places exit next ip es} (m : Machine) (s : Store),
    setting.program.Holds places exit ip (entriesCode es next).1 →
    setting.Follows call ⟨{ m with ip := ip }, s⟩
      (evalEntries (setting.world call functions) n (m.context places) next es s)
      fun pairs s' st' => pairs.length = es.length ∧
        st' = ⟨{ m with
          ip := ip + (entriesCode es next).1.length
          stack := stackedPairs pairs ++ m.stack }, s'⟩

/-- Instructions that call a value whose arguments are on the stack. -/
def AgreesOnCall : Prop :=
  ∀ {op : Op} {position callee want σ} (arguments : List Value) (m : Machine) (s : Store),
    setting.program.code[m.ip]? = some op → op.position = position →
    setting.execute (call position m.depth) op ⟨{ m with ip := m.ip + 1 }, s⟩ =
      setting.callValue (call position m.depth) callee arguments.length want
        ⟨{ m with ip := m.ip + 1, stack := arguments.reverse ++ σ }, s⟩ →
    setting.Follows call ⟨m, s⟩
      (evalCall (setting.world call functions) n position m.depth callee arguments s)
      fun results s' st' => st' = ⟨{ m with
        ip := m.ip + 1
        stack := (adjustTo want results).reverse ++ σ }, s'⟩

/-- Code that puts values into targets. -/
def AgreesOnStores : Prop :=
  ∀ {places exit next ip isLocal targets values σ} (m : Machine) (s : Store),
    setting.program.Holds places exit ip (storesCode isLocal targets next).1 →
    setting.Follows call
      ⟨{ m with ip := ip, stack := (adjust targets.length values).reverse ++ σ }, s⟩
      (evalStores (setting.world call functions) n (m.context places) next isLocal targets
        values s)
      fun _ s' st' => st' = ⟨{ m with
        ip := ip + (storesCode isLocal targets next).1.length
        stack := σ }, s'⟩

/-- Code that declares variables in a scope that it is about to open. -/
def Introduces (places : List Nat) (ip : Nat) (code : Code) (names : List Identifier)
    (values σ : List Value) (m : Machine) : Prop :=
  ∀ scope s, setting.Follows call
    ⟨{ m with ip := ip, stack := σ, scopes := scope :: m.scopes }, s⟩
    (introduceAll ((m.context places).inside scope) names values s)
    fun _ s' st' => st' = ⟨{ m with ip := ip + code.length, scopes := scope :: m.scopes }, s'⟩

/-- Code of blocks.  What stands at the beginning of a block declares its
variables. -/
def AgreesOnBlock : Prop :=
  ∀ {places exit k next ip position names values body declarations σ} (m : Machine) (s : Store),
    m.Grounded → setting.Introduces call places (ip + 1) declarations names values σ m →
    setting.program.Holds places exit ip
      (inScope position (declarations ++ (chunkCode (k.map (· + 1)) false body next).1)) →
    setting.Follows call ⟨{ m with ip := ip, stack := σ }, s⟩
      (evalBlock (setting.world call functions) n (m.context places) next names values body s)
      (setting.Ended m exit k false (ip + (inScope position
        (declarations ++ (chunkCode (k.map (· + 1)) false body next).1)).length))

/-- Code of the branches of a conditional. -/
def AgreesOnBranches : Prop :=
  ∀ {places exit k next ip position otherwise branches} (m : Machine) (s : Store), m.Grounded →
    setting.program.Holds places exit ip
      (branchesCode k position (lastBranch k position otherwise) branches next).1 →
    setting.Follows call ⟨{ m with ip := ip }, s⟩
      (evalBranches (setting.world call functions) n (m.context places) next otherwise branches s)
      (setting.Ended m exit k false (ip
        + (branchesCode k position (lastBranch k position otherwise) branches next).1.length))

/-- The passes of a loop that counts.  The counter is on the stack, and the loop is
left for the instruction that drops it. -/
def AgreesOnCounting : Prop :=
  ∀ {places exit k next ip x counter stop step body v round} (m : Machine) (s : Store),
    m.Grounded →
    round = countingRound counter.position counter.name
      (stop.code .value (next + (chunkFunctions body).length + step.functions.length)).1
      (step.code .value (next + (chunkFunctions body).length)).1
      (chunkCode (some 1) false body next).1 →
    x = ip + round.length + 1 →
    setting.program.Holds places (some x) ip
      (round ++ [jumpBack counter.position round, .plain .pop counter.position]) →
    setting.Follows call ⟨{ m with ip := ip, stack := v :: m.stack }, s⟩
      (evalCounting (setting.world call functions) n (m.context places) next counter stop step
        body v s)
      (setting.Ended m exit k false (x + 1))

/-- The passes of a loop over an iterator.  The iterator, its state and its control
value are on the stack, and the loop is left for the instruction that drops them. -/
def AgreesOnIterating : Prop :=
  ∀ {places exit k next ip x position names body iterator state control round} (m : Machine)
    (s : Store), m.Grounded → names ≠ [] →
    round = iteratingRound position names (chunkCode (some 1) false body next).1 →
    x = ip + round.length + 1 →
    setting.program.Holds places (some x) ip
      (round ++ [jumpBack position round, .counted .pop 3 position]) →
    setting.Follows call
      ⟨{ m with ip := ip, stack := control :: state :: iterator :: m.stack }, s⟩
      (evalIterating (setting.world call functions) n (m.context places) next position names
        body iterator state control s)
      (setting.Ended m exit k false (x + 1))

/-- Code of statements. -/
def AgreesOnStat : Prop :=
  ∀ {places exit k keep next ip stat} (m : Machine) (s : Store), m.Grounded →
    setting.program.Holds places exit ip (stat.code k keep next).1 →
    setting.Follows call ⟨{ m with ip := ip }, s⟩
      (evalStat (setting.world call functions) n (m.context places) next keep stat s)
      (setting.Ended m exit k keep (ip + (stat.code k keep next).1.length))

/-- Code of statements one after another. -/
def AgreesOnChunk : Prop :=
  ∀ {places exit k keep next ip body} (m : Machine) (s : Store), m.Grounded →
    setting.program.Holds places exit ip (chunkCode k keep body next).1 →
    setting.Follows call ⟨{ m with ip := ip }, s⟩
      (evalChunk (setting.world call functions) n (m.context places) next keep body s)
      (setting.Ended m exit k keep (ip + (chunkCode k keep body next).1.length))

/-- Code and evaluations whose depth is at most `n` agree. -/
structure Agrees : Prop where
  expr : setting.AgreesOnExpr call functions n
  callExpr : setting.AgreesOnCallExpr call functions n
  values : setting.AgreesOnValues call functions n
  entries : setting.AgreesOnEntries call functions n
  callValue : setting.AgreesOnCall call functions n
  stores : setting.AgreesOnStores call functions n
  block : setting.AgreesOnBlock call functions n
  branches : setting.AgreesOnBranches call functions n
  counting : setting.AgreesOnCounting call functions n
  iterating : setting.AgreesOnIterating call functions n
  stat : setting.AgreesOnStat call functions n
  chunk : setting.AgreesOnChunk call functions n

end

end Setting

end ScriptEngine
