import ScriptEngine.Machine.Basic
import ScriptEngine.Library.Tables

/-!
# Host functions

A few functions that hosts add to engines: to watch a program, to give it any
number of values, and to call back into it.

## Main definitions

* `Host.function` — the functions by their key.
-/

namespace ScriptEngine.Host

/-- A call back into the engine from a native function. -/
def callBack (reenter : Reentry) (callee : Value) (args : List Value) : Action (List Value) :=
  EStateM.adaptExcept .interrupt (reenter callee args)

/-- Puts out the written form of every argument. -/
def emit (args : Arguments) : Action (List Value) := fun s =>
  .ok [] (args.foldl (fun s v => s.emit (.emitted v.text)) s)

/-- The numbers from one to the first argument, or to three if that is no
number. -/
def many (args : Arguments) : Action (List Value) :=
  let n :=
    match args.value 0 with
    | .number x => (Number.toOffset x).toNat
    | _ => 3
  pure ((List.range n).map fun i => .number (Number.ofNat (i + 1)))

/-- Calls the first argument with the others.  Instead of failing it returns
`false` and the text of the error. -/
def attempt (reenter : Reentry) (args : Arguments) : Action (List Value) := fun s =>
  match reenter (args.value 0) (args.drop 1) s with
  | .ok results s => .ok (.boolean true :: results) s
  | .error (.error e) s => .ok [.boolean false, .string e.text] s
  | .error .outOfFuel s => .error (.interrupt .outOfFuel) s

/-- The name that an argument is, empty if it is no string. -/
def nameAt (args : Arguments) (index : Nat) : String := (args.value index).asString?.getD ""

/-- The value of the global variable that the first argument names. -/
def readGlobal (args : Arguments) : Action (List Value) := fun s =>
  .ok [(s.globals.get? (nameAt args 0)).getD .nil] s

/-- Gives the global variable that the first argument names the second one. -/
def writeGlobal (args : Arguments) : Action (List Value) := fun s =>
  .ok [] (s.setGlobal (nameAt args 0) (args.value 1))

/-- The functions by their key.  An unknown key is that of a function without
results. -/
def function (key : String) : NativeBody := fun reenter (args : Arguments) =>
  match key with
  | "emit" => emit args
  | "many" => many args
  | "count" => pure [.number (Number.ofNat args.length)]
  | "fail" => throw (.cause (.raised (args.value 0).text))
  | "apply" => callBack reenter (args.value 0) (args.drop 1)
  | "try" => attempt reenter args
  | "twice" => do
    let results ← callBack reenter (args.value 0) (args.drop 1)
    callBack reenter (args.value 0) results
  | "getglobal" => readGlobal args
  | "setglobal" => writeGlobal args
  | _ => pure []

end ScriptEngine.Host
