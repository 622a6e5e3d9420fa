import ScriptEngine.Machine.Basic

/-!
# Instructions

What each instruction does to a machine and its store.

## Main definitions

* `Setting.callValue` — calls a value: a native function runs to its end, a
  script function gets a frame and is continued at its entry.
* `Setting.execute` — an instruction.
* `Setting.step` — one step of a machine.
-/

namespace ScriptEngine

open Exec

namespace Setting

/-! ### Calls -/

/-- Runs a native function on the store, the machine waiting. -/
def runNative (setting : Setting) (reenter : Reentry) (f : Native) (arguments : List Value) :
    Exec (List Value) := fun ⟨m, s⟩ =>
  match setting.natives f.body reenter arguments s with
  | .ok results s => .ok results ⟨m, s⟩
  | .error e s => .error e ⟨m, s⟩

/-- Opens a call of a script function, whose `count` arguments are on the
stack.  It starts with a fresh scope. -/
def enterFunction (entry : Nat) (captured : List ScopeRef) (count : Nat) (want : Option Nat) :
    Exec Unit := fun ⟨m, s⟩ =>
  let (scope, s) := s.newScope
  let frame : Frame :=
    ⟨m.ip, m.stack.length - count, want, m.scopes, m.captured, m.marks.length⟩
  .ok () ⟨{ m with
    ip := entry
    stack := .number (Number.ofNat count) :: m.stack
    scopes := [scope]
    captured := captured
    frames := frame :: m.frames }, s⟩

/-- Calls a value with the topmost `count` values as arguments. -/
def callValue (setting : Setting) (reenter : Reentry) (callee : Value) (count : Nat)
    (want : Option Nat) : Exec Unit := do
  require count
  match callee with
  | .native f => do
    let arguments := ((← machine).stack.take count).reverse
    modifyStack (·.drop count)
    let results ← setting.runNative reenter f arguments
    modifyStack (Stack.pushAll (adjustTo want results))
  | .function entry captured => do
    if setting.config.maxCallDepth ≤ (← machine).depth then fail .stackOverflow
    enterFunction entry captured count want
  | v => fail (.calling v.kind)

/-- Ends the innermost call with some results.  Ending the top level halts the
machine with the first of them. -/
def leaveFunction (setting : Setting) (results : List Value) : Exec Unit :=
  modifyMachine fun m =>
    match m.frames with
    | frame :: frames =>
      { m with
        ip := frame.returnTo
        stack := Stack.pushAll (adjustTo frame.want results) (Stack.cutTo frame.base m.stack)
        scopes := frame.scopes
        captured := frame.captured
        frames := frames
        marks := m.marks.drop (m.marks.length - frame.marks) }
    | [] =>
      { m with
        ip := setting.program.size
        stack := [results.headD .nil]
        scopes := [setting.root]
        captured := []
        marks := [] }

/-! ### Jumps -/

/-- Jumps relative to the next instruction. -/
def jump (offset : Int) : Exec Unit := do
  let target := ((← machine).ip : Int) + offset
  if target < 0 then failCheck .jumpOutside
  else modifyMachine fun m => { m with ip := target.toNat }

/-- Pops a value and jumps if it counts as `truth`. -/
def jumpWhen (truth : Bool) (offset : Int) : Exec Unit := do
  if (← pop).isTruthy = truth then jump offset

/-! ### Tables -/

/-- Pops a table and a key, and pushes the value.  Indexing `nil`, or with it,
gives `nil`. -/
def loadIndex : Exec Unit := do
  let target ← pop
  let key ← pop
  match target with
  | .nil => push .nil
  | .table ref =>
    if key.isNil then push .nil
    else do
      let key ← ofExcept (Key.ofValue key)
      push (← fromStore fun s => (s.table ref).get key)
  | v => fail (.indexing v.kind)

/-- Pops keys and values one after another into a table. -/
def storePairs (ref : TableRef) : Nat → Exec Unit
  | 0 => pure ()
  | n + 1 => do
    let key ← pop
    let v ← pop
    if key.isNil then fail .nilKey
    let key ← ofExcept (Key.ofValue key)
    modifyStore fun s => s.modifyTable ref fun t => t.set key v
    storePairs ref n

/-- Pops `count` keys and values into the table below them. -/
def storeIndex (count : Nat) : Exec Unit := do
  require (2 * count + 1)
  match (← machine).stack.getD (2 * count) .nil with
  | .table ref => storePairs ref count
  | v => fail (.indexing v.kind)

/-! ### Iterators -/

/-- Calls an iterator with its state and its control value, which all stay. -/
def iterNext (setting : Setting) (reenter : Reentry) : Exec Unit := do
  match (← machine).stack with
  | control :: state :: iterator :: _ => do
    modifyStack fun stack => control :: state :: stack
    setting.callValue reenter iterator 2 none
  | _ => failCheck .stackUnderflow

/-- Leaves a loop if the first result above the last mark is `nil` or absent. -/
def iterJumpIfDone (offset : Int) : Exec Unit := do
  let m ← machine
  match m.marks with
  | [] => failCheck .noAssignment
  | mark :: marks =>
    if (Stack.above mark m.stack).headD .nil |>.isNil then do
      modifyMachine fun m => { m with stack := Stack.cutTo mark m.stack, marks := marks }
      jump offset

/-- Copies the first of `count` results over the control value below them. -/
def iterUpdateState (count : Nat) : Exec Unit := do
  require (count + 1)
  modifyStack fun stack => stack.set count (stack.getD (count - 1) .nil)

/-! ### Steps -/

/-- Executes an instruction. -/
def execute (setting : Setting) (reenter : Reentry) (op : Op) : Exec Unit :=
  match op.code with
  | .load => do
    let m ← machine
    push (← fromStore fun s => lookup m s op.name)
  | .store => do
    let v ← pop
    let m ← machine
    modifyStore (assign m op.name v)
  | .push =>
    match op.pushed with
    | .function entry _ => do
      push (.function entry (reach (← machine)))
    | v => push v
  | .pop => modifyStack (·.drop (op.count?.getD 1))
  | .dup => do
    match (← machine).stack with
    | v :: _ => push v
    | [] => failCheck .stackUnderflow
  | .swap => do
    require 2
    let v ← pop
    let w ← pop
    push v
    push w
  | .newTable => do
    push (.table (← onStore (·.newTable .empty)))
  | .loadIndex => loadIndex
  | .storeIndex => storeIndex (op.count?.getD 1)
  | .binary operator => do
    let lhs ← pop
    let rhs ← pop
    push (← ofExcept (← fromStore fun s => s.binary operator lhs rhs))
  | .unary operator => do
    let v ← pop
    push (← ofExcept (← fromStore fun s => s.unary operator v))
  | .startBlock => do
    let scope ← onStore Store.newScope
    modifyMachine fun m => { m with scopes := scope :: m.scopes }
  | .endBlock => modifyMachine fun m => { m with scopes := m.scopes.tail }
  | .makeLocal => do
    match (← machine).scopes with
    | scope :: _ => modifyStore fun s => s.declare scope op.name .nil
    | [] => failCheck (.noScope op.name)
  | .call => do
    let count ← popCount
    let callee ← pop
    setting.callValue reenter callee count op.count?
  | .ret => do
    match op.count? with
    | some count => do
      require count
      let stack := (← machine).stack
      modifyStack (·.drop count)
      setting.leaveFunction (stack.take count).reverse
    | none => do
      let mark ← popMark
      let stack := (← machine).stack
      modifyStack (Stack.cutTo mark)
      setting.leaveFunction (Stack.above mark stack)
  | .argumentCount => do
    let got ← popCount
    let expected := op.count?.getD 0
    modifyStack fun stack =>
      if expected < got then stack.drop (got - expected)
      else List.replicate (expected - got) .nil ++ stack
  | .jump => jump op.offset
  | .jumpIf => jumpWhen true op.offset
  | .jumpIfNot => jumpWhen false op.offset
  | .assignPush => modifyMachine fun m => { m with marks := m.stack.length :: m.marks }
  | .assignSet => do
    let mark ← popMark
    modifyStack (Stack.resize (mark + op.count?.getD 0))
  | .assignCount => do
    let mark ← popMark
    modifyStack fun stack => .number (Number.ofNat (stack.length - mark)) :: stack
  | .iterNext => setting.iterNext reenter
  | .iterJumpIfDone => iterJumpIfDone op.offset
  | .iterUpdateState => iterUpdateState (op.count?.getD 1)
  | .leave => failCheck .unresolvedBreak

/-- Puts a record of an instruction out. -/
def logInstruction (op : Op) : Exec Unit := fun ⟨m, s⟩ =>
  .ok () ⟨m, s.emit (.logged .debug (Text.padStart 4 m.ip.repr ++ " " ++ op.text))⟩

/-- Puts a record of the stack out. -/
def logStack : Exec Unit := fun ⟨m, s⟩ =>
  let values := Text.joinWith ", " (m.stack.reverse.map s.inspect)
  .ok () ⟨m, s.emit (.logged .debug ("     stack: [" ++ values ++ "]"))⟩

/-- Executes the instruction a machine is at, putting out what is traced. -/
def traced (setting : Setting) (trace : Bool) (reenter : Reentry) (op : Op) : Exec Unit := do
  if trace then logInstruction op
  modifyMachine fun m => { m with ip := m.ip + 1 }
  setting.execute reenter op
  if trace then logStack

/-- Whether the machine has run off the end of its program. -/
def halted (setting : Setting) (m : Machine) : Bool := setting.program.size ≤ m.ip

/-- One step of a machine: executes the instruction it is at, unless there is
none.  A failure gets the place of the instruction, and natives call back from
there. -/
def step (setting : Setting) (call : Position → Nat → Reentry) (trace : Bool) :
    EStateM Interrupt State Unit := fun ⟨m, s⟩ =>
  match setting.program.code[m.ip]? with
  | none => .ok () ⟨m, s⟩
  | some op =>
    EStateM.adaptExcept (Failure.located op.position)
      (setting.traced trace (call op.position m.depth) op) ⟨m, s⟩

/-- Steps until the machine halts, at most a number of times.  The result says
whether it has halted. -/
def runSteps (setting : Setting) (call : Position → Nat → Reentry) (trace : Bool) :
    Nat → EStateM Interrupt State Bool
  | 0 => fun st => .ok (setting.halted st.machine) st
  | n + 1 => fun st =>
    if setting.halted st.machine then .ok true st
    else
      match setting.step call trace st with
      | .ok _ st => setting.runSteps call trace n st
      | .error e st => .error e st

end Setting

end ScriptEngine
