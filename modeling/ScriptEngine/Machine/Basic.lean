import ScriptEngine.Code.Basic
import ScriptEngine.Error
import ScriptEngine.Operator

/-!
# Machines

The state of a machine that runs a program, and what its instructions are made
of.

## Main definitions

* `Machine`, `Frame` — the operand stack, the scopes in reach, the calls that
  are open.
* `Config` — the limits an engine is made with.
* `Action`, `Reentry`, `NativeBody` — computations on a store, calls back into
  the engine, and native functions.
* `Setting` — what a run does not change.
* `Exec` — computations of instructions.
-/

namespace ScriptEngine

/-- What a script call saves, for its return to restore. -/
structure Frame where
  returnTo : Nat
  /-- The height of the stack below the arguments. -/
  base : Nat
  /-- How many results the caller wants; all if there is no number. -/
  want : Option Nat
  scopes : List ScopeRef
  captured : List ScopeRef
  /-- How many marks were set. -/
  marks : Nat
deriving DecidableEq, Repr

/-- The state of a machine. -/
structure Machine where
  /-- The instruction to be executed next. -/
  ip : Nat
  /-- The operand stack, its top first. -/
  stack : List Value
  /-- The open scopes of the running function, innermost first. -/
  scopes : List ScopeRef
  /-- The scopes that the running function closed over, innermost first. -/
  captured : List ScopeRef
  /-- The open calls, the last one first. -/
  frames : List Frame
  /-- Marked heights of the stack, the last one first. -/
  marks : List Nat
  /-- How many calls are open in the runs that this one is nested in. -/
  outerDepth : Nat
deriving DecidableEq, Repr

/-- The limits an engine is made with. -/
structure Config where
  /-- How many instructions a run or a call may execute. -/
  stepLimit : Nat
  /-- Whether texts are folded before they are compiled. -/
  optimize : Bool
  /-- How many calls of script functions may be open. -/
  maxCallDepth : Nat
deriving DecidableEq, Repr

/-- The limits unless a host asks for others. -/
def Config.standard : Config := ⟨1000, true, 200⟩

/-- A computation on a store. -/
abbrev Action := EStateM Failure Store

/-- A call back into the engine with a callee and its arguments. -/
abbrev Reentry := Value → List Value → EStateM Interrupt Store (List Value)

/-- A native function: it may call back into the engine. -/
abbrev NativeBody := Reentry → List Value → Action (List Value)

/-- What a run does not change. -/
structure Setting where
  program : Program
  config : Config
  /-- The scope of the top level. -/
  root : ScopeRef
  /-- What the native functions do. -/
  natives : Builtin → NativeBody

/-- A machine and the store it works on. -/
structure State where
  machine : Machine
  store : Store

/-- The computation of an instruction. -/
abbrev Exec := EStateM Failure State

/-- A machine at an instruction of the top level. -/
def Machine.atTopLevel (ip : Nat) (root : ScopeRef) : Machine :=
  ⟨ip, [], [root], [], [], [], 0⟩

/-- How many calls are open. -/
def Machine.depth (m : Machine) : Nat := m.outerDepth + m.frames.length

/-- Values brought to a number: cut off at the end or filled up with `nil`. -/
def adjust (n : Nat) (values : List Value) : List Value :=
  values.take n ++ List.replicate (n - values.length) .nil

/-- Values brought to the number that is wanted, if one is. -/
def adjustTo (want : Option Nat) (values : List Value) : List Value :=
  match want with
  | some n => adjust n values
  | none => values

@[simp] theorem length_adjust (n : Nat) (values : List Value) : (adjust n values).length = n := by
  simp only [adjust, List.length_append, List.length_take, List.length_replicate]
  omega

/-! ### Stacks -/

namespace Stack

/-- A stack without the values above a height. -/
def cutTo (height : Nat) (stack : List Value) : List Value := stack.drop (stack.length - height)

/-- The values above a height, the lowest first. -/
def above (height : Nat) (stack : List Value) : List Value :=
  (stack.take (stack.length - height)).reverse

/-- A stack cut off or filled up with `nil` to a height. -/
def resize (height : Nat) (stack : List Value) : List Value :=
  List.replicate (height - stack.length) .nil ++ cutTo height stack

/-- A stack with values on it, the first of them lowest. -/
def pushAll (values : List Value) (stack : List Value) : List Value := values.reverse ++ stack

end Stack

/-! ### Parts of instructions -/

namespace Exec

/-- Fails with a cause. -/
def fail {α : Type} (c : Cause) : Exec α := throw (.cause c)

/-- Fails with a check of the machine. -/
def failCheck {α : Type} (c : MachineCause) : Exec α := fail (.machine c)

/-- Reads the machine. -/
def machine : Exec Machine := fun st => .ok st.machine st

/-- Changes the machine. -/
def modifyMachine (f : Machine → Machine) : Exec Unit := fun ⟨m, s⟩ => .ok () ⟨f m, s⟩

/-- Changes the stack. -/
def modifyStack (f : List Value → List Value) : Exec Unit :=
  modifyMachine fun m => { m with stack := f m.stack }

/-- Reads something off the store. -/
def fromStore {α : Type} (f : Store → α) : Exec α := fun st => .ok (f st.store) st

/-- Changes the store. -/
def modifyStore (f : Store → Store) : Exec Unit := fun ⟨m, s⟩ => .ok () ⟨m, f s⟩

/-- Changes the store with a result. -/
def onStore {α : Type} (f : Store → α × Store) : Exec α := fun ⟨m, s⟩ =>
  let (a, s) := f s
  .ok a ⟨m, s⟩

/-- The result of an operator, or its failure. -/
def ofExcept {α : Type} : Except Cause α → Exec α
  | .ok a => pure a
  | .error c => fail c

/-- Pushes a value. -/
def push (v : Value) : Exec Unit := modifyStack (v :: ·)

/-- Pops a value. -/
def pop : Exec Value := fun ⟨m, s⟩ =>
  match m.stack with
  | [] => .error (.cause (.machine .stackUnderflow)) ⟨m, s⟩
  | v :: rest => .ok v ⟨{ m with stack := rest }, s⟩

/-- Pops a number of values. -/
def popCount : Exec Nat := do
  match ← pop with
  | .number x => if 0 ≤ x then pure (Number.toCount x) else failCheck (.notACount .number)
  | v => failCheck (.notACount v.kind)

/-- Drops the last mark. -/
def popMark : Exec Nat := fun ⟨m, s⟩ =>
  match m.marks with
  | [] => .error (.cause (.machine .noAssignment)) ⟨m, s⟩
  | mark :: rest => .ok mark ⟨{ m with marks := rest }, s⟩

/-- Fails unless there is a number of values on the stack. -/
def require (n : Nat) : Exec Unit := do
  if (← machine).stack.length < n then failCheck .stackUnderflow

/-- The innermost of some scopes that has a variable. -/
def findScope (s : Store) (name : String) : List ScopeRef → Option ScopeRef
  | [] => none
  | ref :: rest => if (s.scope ref).contains name then some ref else findScope s name rest

/-- The scopes in reach of the running function, innermost first. -/
def reach (m : Machine) : List ScopeRef := m.scopes ++ m.captured

/-- The value of a variable: that of the innermost scope that has it, or the
global one, or `nil`. -/
def lookup (m : Machine) (s : Store) (name : String) : Value :=
  match findScope s name (reach m) with
  | some ref => ((s.scope ref).get? name).getD .nil
  | none => (s.globals.get? name).getD .nil

/-- Changes a variable where it is found.  A global variable that gets the value
`nil` is removed. -/
def assign (m : Machine) (name : String) (v : Value) (s : Store) : Store :=
  match findScope s name (reach m) with
  | some ref => s.declare ref name v
  | none => if v.isNil then s.removeGlobal name else s.setGlobal name v

end Exec

end ScriptEngine
