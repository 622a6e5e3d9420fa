import ScriptEngine.Code.Compile
import ScriptEngine.Host
import ScriptEngine.Library.Base
import ScriptEngine.Machine.Call
import ScriptEngine.Syntax.Folding
import ScriptEngine.Syntax.Parser

/-!
# Engines

What a host works with: an engine to which source texts are added one after
another, and which runs them at once or step by step.

## Main definitions

* `Engine` — a program, a machine and a store, with the error that stopped the
  machine if one did.
* `Engine.load`, `Engine.run`, `Engine.step`, `Engine.runForSteps`,
  `Engine.call`, `Engine.reset` — what a host can do.
* `Engine.define`, `Engine.global`, `Engine.setGlobal` — access to global
  variables.

A runtime error stops the machine until the next text is loaded or the engine is
reset.  All that runs takes a bound on the nesting of native functions that call
back into the engine.
-/

namespace ScriptEngine

/-- A program, a machine and a store.  The fault is the error that stopped the
machine. -/
structure Engine where
  setting : Setting
  machine : Machine
  store : Store
  fault : Option Error

/-- What is asked for in a single run. -/
structure RunOptions where
  /-- Whether every instruction and the stack behind it are put on record. -/
  trace : Bool
  /-- Variables of the top level to declare before. -/
  locals : List (String × Value)
  /-- Another number of steps than the engine was made with. -/
  stepLimit : Option Nat

/-- A run without options. -/
def RunOptions.none : RunOptions := ⟨false, [], .none⟩

/-- What a host does with an engine. -/
abbrev Session := EStateM Interrupt Engine

namespace Engine

/-- An engine on a store, with an empty program. -/
def ofStore (config : Config) (natives : Builtin → NativeBody) (store : Store) : Engine :=
  let (root, store) := store.newScope
  ⟨⟨.empty, config, root, natives⟩, .atTopLevel 0 root, store, none⟩

/-- An engine with the standard library. -/
def new (config : Config) : Engine :=
  ofStore config (Library.run Host.function) (Library.install .empty)

/-- Whether the machine has run off the end of the program. -/
def halted (e : Engine) : Bool := e.setting.halted e.machine

/-- The place of the instruction that was executed last. -/
def position (e : Engine) : Position :=
  match e.machine.ip with
  | 0 => .nowhere
  | ip + 1 => ((e.setting.program.code[ip]?).map Op.position).getD .nowhere

/-- The program line by line, with the next instruction marked. -/
def listing (e : Engine) : String := e.setting.program.listing e.machine.ip

/-- Puts the machine at the beginning of the text that was loaded last. -/
def rewind (e : Engine) : Engine :=
  { e with
    machine := .atTopLevel e.setting.program.start e.setting.root
    fault := none }

/-- The records of a text that was loaded. -/
def loadRecords (placed : List (Nat × Nat)) (statements added start : Nat) : List Event :=
  placed.zipIdx.map (fun ((place, size), i) =>
    .logged .trace ("function #" ++ i.repr ++ " placed at " ++ place.repr ++ " (" ++ size.repr
      ++ " ops)"))
    ++ [.logged .debug ("loaded chunk: " ++ statements.repr ++ " statements, " ++ added.repr
      ++ " new ops, entry at " ++ start.repr)]

/-- Compiles a text behind those loaded so far and puts the machine at its
beginning.  Global variables and variables of the top level stay. -/
def load (source : String) : Session Unit := fun e =>
  match parse source with
  | .error err => .error (.error (.malformed err)) e
  | .ok chunk =>
    let chunk := if e.setting.config.optimize then optimize chunk else chunk
    let size := e.setting.program.size
    let (program, placed) := e.setting.program.extend chunk
    let records := loadRecords placed chunk.length (program.size - size) program.start
    let loaded : Engine :=
      { e with
        setting := { e.setting with program := program }
        store := records.foldl Store.emit e.store }
    .ok () loaded.rewind

/-- Steps until the machine halts, at most a number of times.  An error stops the
machine. -/
def advance (fuel : Nat) (trace : Bool) (steps : Nat) : Session Bool := fun e =>
  match e with
  | ⟨setting, machine, store, fault⟩ =>
    match setting.runSteps (setting.callFrom fuel) trace steps ⟨machine, store⟩ with
    | .ok halted ⟨machine, store⟩ => .ok halted ⟨setting, machine, store, fault⟩
    | .error (.error err) ⟨machine, store⟩ =>
      .error (.error err) ⟨setting, machine, store, some err⟩
    | .error .outOfFuel ⟨machine, store⟩ =>
      .error .outOfFuel ⟨setting, machine, store, fault⟩

/-- Fails with the error that stopped the machine, if one did. -/
def checkFault : Session Unit := fun e =>
  match e.fault with
  | some err => .error (.error err) e
  | none => .ok () e

/-- Declares variables of the top level. -/
def declareLocals (locals : List (String × Value)) : Session Unit :=
  modify fun e =>
    { e with store := locals.foldl (fun s (name, v) => s.declare e.setting.root name v) e.store }

/-- Runs the program until it halts.  The result is the topmost value. -/
def run (fuel : Nat) (options : RunOptions) : Session Value := do
  checkFault
  declareLocals options.locals
  let limit := options.stepLimit.getD (← get).setting.config.stepLimit
  if ← advance fuel options.trace limit then
    pure ((← get).machine.stack.headD .nil)
  else throw (.error (.ranTooLong limit))

/-- Executes one instruction, unless the program has halted. -/
def step (fuel : Nat) (options : RunOptions) : Session Unit := do
  checkFault
  discard (advance fuel options.trace 1)

/-- Executes a number of instructions, or fewer if the program halts.  The result
says whether it can go on. -/
def runForSteps (fuel steps : Nat) (options : RunOptions) : Session Bool := do
  if steps = 0 || (← get).halted then pure !(← get).halted
  else do
    checkFault
    discard (advance fuel options.trace steps)
    pure !(← get).halted

/-- Calls a value.  The interrupted program is not touched. -/
def call (fuel : Nat) (callee : Value) (args : List Value) : Session (List Value) := fun e =>
  let position := e.position
  match e with
  | ⟨setting, machine, store, fault⟩ =>
    match setting.callFrom fuel position machine.depth callee args store with
    | .ok results store => .ok results ⟨setting, machine, store, fault⟩
    | .error i store => .error i ⟨setting, machine, store, fault⟩

/-- Makes a native function of the host a global variable. -/
def define (name key : String) : Session Unit := modify fun e =>
  let (v, store) := e.store.newNative name (.host key)
  { e with store := store.setGlobal name v }

/-- The value of a global variable that is there. -/
def global? (e : Engine) (name : String) : Option Value := e.store.globals.get? name

/-- Gives a global variable a value. -/
def setGlobal (name : String) (v : Value) : Session Unit :=
  modify fun e => { e with store := e.store.setGlobal name v }

/-- Starts the text that was loaded last over, with a fresh scope for the top
level.  Global variables stay. -/
def reset : Session Unit := modify fun e =>
  let (root, store) := e.store.newScope
  ({ e with setting := { e.setting with root := root }, store := store } : Engine).rewind

end Engine

end ScriptEngine
